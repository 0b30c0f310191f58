import Otp.Stdlib.ArrayTraverse

/-! Arrays from lists (`array.erl`). Both builders make the leaves first and then
gather ten subtrees at a time, from the last to the first, until one is left. -/

namespace Otp.Arrays

open List

variable {Value : Type}

def pad (n k p : Nat) (es : List (Elements Value)) : List (Elements Value) :=
  push ((k - n % k) % k) (.unexpanded p) es

/-- `from_list_2/6`: one level of nodes, the first of them apart. -/
def fromList_2 (s i : Nat) (xs as es : List (Elements Value)) :
    Outcome Value (Elements Value × List (Elements Value)) :=
  match i, xs with
  | 0, [] => do
    let e ← listToTuple as
    .ok (.node e s, es)
  | 0, x :: xs => do
    let e ← listToTuple as
    fromList_2 s 10 (x :: xs) [] (.node e s :: es)
  | i + 1, x :: xs => fromList_2 s i xs (x :: as) es
  | _ + 1, [] => .error .functionClause
termination_by (xs.length, if i = 0 then 11 else i)

theorem push_length (n : Nat) (e : Item) (l : List Item) : (push n e l).length = n + l.length := by
  induction n generalizing l with
  | zero => simp [push]
  | succ n ih => rw [push, ih, length_cons, Nat.add_assoc, Nat.add_comm 1]

theorem fromList_2_length {xs as es : List (Elements Value)}
    (made : fromList_2 s i xs as es = .ok (e, rest)) :
    i ≤ xs.length ∧ rest.length = es.length + (xs.length - i) / 10 := by
  fun_induction fromList_2 s i xs as es with
  | case1 as es =>
    obtain ⟨t, tuple, last⟩ := of_bind_ok made
    cases last
    simp
  | case2 as es x xs ih =>
    obtain ⟨t, tuple, next⟩ := of_bind_ok made
    obtain ⟨enough, length⟩ := ih t next
    simp only [length_cons] at *
    omega
  | case3 as es i x xs ih =>
    obtain ⟨enough, length⟩ := ih made
    simp only [length_cons] at *
    omega
  | case4 => cases made

/-- `from_list_2_0/3`, with what `from_list_2/6` does when a level is complete. -/
def fromList_2_0 (n : Nat) (es : List (Elements Value)) (s : Nat) :
    Outcome Value (Elements Value × Nat × Nat) :=
  match made : fromList_2 s 10 (pad ((n - 1) / s + 1) 10 s es) [] [] with
  | .ok (e, []) => .ok (e, n, 10 * s)
  | .ok (e, e' :: rest) => fromList_2_0 n (e :: e' :: rest).reverse (10 * s)
  | .error exit => .error exit
termination_by es.length
decreasing_by
  obtain ⟨enough, length⟩ := fromList_2_length made
  rw [pad, push_length] at enough length
  simp only [length_cons, length_nil, length_reverse] at *
  omega

/-- `from_list_1/6`. -/
def fromList_1 (d : Value) (i : Nat) (xs : List Value) (n : Nat) (as : List Value)
    (es : List (Elements Value)) : Outcome Value (Elements Value × Nat × Nat) :=
  match i, xs with
  | 0, [] => do
    let e ← listToTuple as.reverse
    match es with
    | [] => .ok (.leaf e, n, 10)
    | _ => fromList_2_0 n (.leaf e :: es) 10
  | 0, x :: xs => do
    let e ← listToTuple as.reverse
    fromList_1 d 10 (x :: xs) n [] (.leaf e :: es)
  | i + 1, x :: xs => fromList_1 d i xs (n + 1) (x :: as) es
  | i + 1, [] => fromList_1 d i [] n (d :: as) es
termination_by (xs.length, if i = 0 ∧ xs ≠ [] then 11 else i)

/-- `from_list/2`. -/
def fromList [DecidableEq Value] (undefined : Value) (list : List Value) (default : Value) :
    Outcome Value (ArrayRecord Value) :=
  match list with
  | [] => .ok (new undefined [.default default])
  | list => do
    let (e, n, m) ← fromList_1 default 10 list 0 [] []
    .ok ⟨n, m, default, e⟩

/-- `from_orddict_1/6`: one leaf, with `left` places up to `Max`. -/
def fromOrddict_1 (d : Value) : (left ix : Nat) → List (Int × Value) → Nat → List Value →
    Outcome Value (List (Int × Value) × Elements Value × Nat)
  | 0, _, xs, n, as => do
    let e ← listToTuple as.reverse
    .ok (xs, .leaf e, n)
  | left + 1, ix, [], n, as => fromOrddict_1 d left (ix + 1) [] n (d :: as)
  | left + 1, ix, (ix1, val) :: xs, _, as =>
    if ix1 = ix then fromOrddict_1 d left (ix + 1) xs (ix + 1) (val :: as)
    else if ix1 > ix then fromOrddict_1 d left (ix + 1) ((ix1, val) :: xs) (ix + 1) (d :: as)
    else .error (.badPairs ((ix1, val) :: xs))

/-- One level of nodes is complete: either it is one node, or it is gathered again. -/
inductive Level (Value : Type) where
  | single (e : Elements Value)
  | again (es : List (Elements Value))

/-- `collect_leafs/6`: one level of nodes. An integer stands for a hole, which may
reach over several nodes. -/
def collectLeafs (s i : Nat) (xs as es : List (Elements Value)) : Outcome Value (Level Value) :=
  match i, xs with
  | 0, [] => do
    let e ← listToTuple as
    match es with
    | [] => .ok (.single (.node e s))
    | _ => .ok (.again (.node e s :: es).reverse)
  | 0, x :: xs => do
    let e ← listToTuple as
    collectLeafs s 10 (x :: xs) [] (.node e s :: es)
  | i + 1, .unexpanded x :: xs =>
    let step0 := x / s
    if step0 < i + 1 then
      collectLeafs s (i + 1 - step0) xs (push step0 (.unexpanded s) as) es
    else if i + 1 = 10 then
      let step := step0 % 10
      collectLeafs s (i + 1 - step) xs (push step (.unexpanded s) as) (.unexpanded x :: es)
    else if i + 1 = step0 then
      collectLeafs s 0 xs (push (i + 1) (.unexpanded s) as) es
    else
      collectLeafs s 0 (.unexpanded ((step0 - (i + 1)) * s) :: xs)
        (push (i + 1) (.unexpanded s) as) es
  | i + 1, x :: xs => collectLeafs s i xs (x :: as) es
  | i + 1, [] =>
    if i + 1 = 10 ∧ as = [] then .ok (.again es.reverse) else .error .functionClause
termination_by 3 * xs.length + if i = 0 then 1 else if i = 10 then 0 else 2
decreasing_by
  all_goals simp only [length_cons, if_true, if_false]
  all_goals repeat' split
  all_goals omega

/-- `collect_leafs/3`, with at most `fuel` levels. -/
def collectLevels : (fuel : Nat) → (n : Nat) → List (Elements Value) → (s : Nat) →
    Outcome Value (Elements Value × Nat × Nat)
  | 0, _, _, _ => .error .diverges
  | fuel + 1, n, es, s => do
    let i := (n - 1) / s + 1
    let pad := (10 - i % 10) % 10 * s
    match ← collectLeafs s 10 (if pad = 0 then es else .unexpanded pad :: es) [] [] with
    | .single e => .ok (e, n, 10 * s)
    | .again es => collectLevels fuel n es (10 * s)

/-- `from_orddict_0/5`, with at most `fuel` leaves and holes. -/
def fromOrddict_0 (d : Value) : (fuel : Nat) → List (Int × Value) → (ix max : Nat) →
    List (Elements Value) → Outcome Value (Elements Value × Nat × Nat)
  | _, [], n, _, es =>
    match es with
    | [e] => .ok (e, n, 10)
    | es => collectLevels (n + 1) n es 10
  | 0, _, _, _, _ => .error .diverges
  | fuel + 1, (ix1, val) :: xs, ix, max, es =>
    if ix1 > max then
      let hole := ix1.toNat - ix
      let step := hole - hole % 10
      let next := ix + step
      fromOrddict_0 d fuel ((ix1, val) :: xs) next (next + 10) (.unexpanded step :: es)
    else do
      let (xs, e, ix) ← fromOrddict_1 d (max - ix) ix ((ix1, val) :: xs) ix []
      fromOrddict_0 d fuel xs ix (ix + 10) (e :: es)

/-- `from_orddict/2`. -/
def fromOrddict [DecidableEq Value] (undefined : Value) (list : List (Int × Value))
    (default : Value) : Outcome Value (ArrayRecord Value) :=
  match list with
  | [] => .ok (new undefined [.default default])
  | list => do
    let (e, n, m) ← fromOrddict_0 default (2 * list.length) list 0 10 []
    .ok ⟨n, m, default, e⟩

end Otp.Arrays
