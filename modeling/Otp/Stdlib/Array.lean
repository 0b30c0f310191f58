import Mathlib.Data.Nat.Basic
import Mathlib.Data.Finset.Lattice.Fold
import Mathlib.Data.Fintype.Basic

/-! Functional arrays (`array.erl`). The entries lie in a tree of tuples: a leaf is a
tuple of ten values, a node is a tuple of eleven, ten subtrees and the number `S` of
entries below each of them, and an integer stands for that many entries that were
never set. -/

namespace Otp.Arrays

variable {Value : Type}

/-- How a call ends without a result. -/
inductive Exit (Value : Type) where
  /-- `erlang:error(badarg)`, also from `element` and `setelement`. -/
  | badarg
  /-- `erlang:error({badarg, Xs})`. -/
  | badPairs (xs : List (Int × Value))
  | functionClause
  /-- `throw(default)`. -/
  | default
  /-- `throw({value, I})`. -/
  | value (i : Int)
  /-- The call did not return within its fuel. -/
  | diverges
  deriving DecidableEq

abbrev Outcome (Value Result : Type) := Except (Exit Value) Result

theorem ok_bind (first : First) (next : First → Outcome Value Result) :
    ((.ok first : Outcome Value First) >>= next) = next first := rfl

theorem of_bind_ok {next : First → Outcome Value Result} (returned : (call >>= next) = .ok result) :
    ∃ first, call = .ok first ∧ next first = .ok result := by
  cases call with
  | error exit => cases returned
  | ok first => exact ⟨first, rfl, returned⟩

inductive Elements (Value : Type) where
  | unexpanded (size : Nat)
  | leaf (values : Fin 10 → Value)
  | node (children : Fin 10 → Elements Value) (s : Nat)

/-- The record `#array{}`. An array of which `max` is `0` has a fixed size. -/
structure ArrayRecord (Value : Type) where
  size : Nat
  max : Nat
  default : Value
  elements : Elements Value

/-- `element(N, T)` for a tuple of ten. -/
def element (t : Fin 10 → Item) (n : Nat) : Outcome Value Item :=
  if h : 1 ≤ n ∧ n ≤ 10 then .ok (t ⟨n - 1, by omega⟩) else .error .badarg

/-- A call on `element(N, E)` of a node: on one of its subtrees, or, for the eleventh
element, on the integer `S`. -/
def atElement (children : Fin 10 → Outcome Value Result) (last : Outcome Value Result) (n : Nat) :
    Outcome Value Result :=
  if h : 1 ≤ n ∧ n ≤ 10 then children ⟨n - 1, by omega⟩
  else if n = 11 then last
  else .error .badarg

/-- `setelement(N, T, X)`, for the first ten elements. -/
def setelement (n : Nat) (t : Fin 10 → Item) (x : Item) : Outcome Value (Fin 10 → Item) :=
  if h : 1 ≤ n ∧ n ≤ 10 then .ok (Function.update t ⟨n - 1, by omega⟩ x) else .error .badarg

/-- `list_to_tuple(L)`, where the list has one item for each of the ten places. -/
def listToTuple (l : List Item) : Outcome Value (Fin 10 → Item) :=
  if h : l.length = 10 then .ok fun i => l.get ⟨i, by omega⟩ else .error .badarg

/-- `?NEW_NODE(S)`. -/
def newNode (s : Nat) : Elements Value := .node (fun _ => .unexpanded s) s

/-- `?NEW_LEAF(D)`. -/
def newLeaf (d : Value) : Elements Value := .leaf fun _ => d

def unfold (s : Nat) (d : Value) : Elements Value :=
  if 10 < s then newNode (s / 10) else newLeaf d

/-- The least of `M`, `10 * M`, `100 * M`, … above `I`. For `M = 0`, which no caller
passes, the source does not return. -/
def findMax (i : Int) (m : Nat) : Nat :=
  if h : (m : Int) ≤ i ∧ 0 < m then findMax i (10 * m) else m
termination_by (i + 1 - m).toNat

inductive Opt (Value : Type) where
  | fixed
  /-- `{fixed, Fixed}`. -/
  | fixedIs (fixed : Bool)
  | default (default : Value)
  /-- `{size, Size}`. -/
  | size (size : Nat)
  /-- The size alone. -/
  | bare (size : Nat)

section New

variable [DecidableEq Value] (undefined : Value)

/-- `new/3`. -/
def newArray (size : Nat) (fixed : Bool) (default : Value) : ArrayRecord Value :=
  if size = 0 ∧ fixed = false ∧ default = undefined then ⟨0, 10, undefined, .unexpanded 10⟩
  else
    let e := findMax (size - 1) 10
    let m := if fixed then 0 else e
    ⟨size, m, default, .unexpanded e⟩

def new_1 : List (Opt Value) → Nat → Bool → Value → ArrayRecord Value
  | .fixed :: options, size, _, default => new_1 options size true default
  | .fixedIs fixed :: options, size, _, default => new_1 options size fixed default
  | .default default :: options, size, fixed, _ => new_1 options size fixed default
  | .size size :: options, _, _, default => new_1 options size true default
  | .bare size :: options, _, _, default => new_1 options size true default
  | [], size, fixed, default => newArray undefined size fixed default

/-- `new/1`; a single option is the list of it. -/
def new (options : List (Opt Value)) : ArrayRecord Value :=
  new_1 undefined options 0 false undefined

/-- `new/2`. -/
def newSize (size : Nat) (options : List (Opt Value)) : ArrayRecord Value :=
  new_1 undefined options size true undefined

end New

def fix (a : ArrayRecord Value) : ArrayRecord Value := { a with max := 0 }

def relax (a : ArrayRecord Value) : ArrayRecord Value :=
  { a with max := findMax (a.size - 1) 10 }

/-- `grow_1/3`. The source goes through `grow/3` again, with a node, which is no
integer. -/
def grow_1 (i : Nat) (e : Elements Value) (m : Nat) : Elements Value × Nat :=
  if m ≤ i ∧ 0 < m then
    grow_1 i (.node (Function.update (fun _ => .unexpanded m) 0 e) m) (10 * m)
  else (e, m)
termination_by i + 1 - m

def grow (i : Nat) (e : Elements Value) (m : Nat) : Elements Value × Nat :=
  match e with
  | .unexpanded s =>
    let m1 := findMax i s
    (.unexpanded m1, m1)
  | e => grow_1 i e m

/-- `resize/2`. -/
def resizeTo (size : Nat) (a : ArrayRecord Value) : ArrayRecord Value :=
  if a.size < size then
    let (e1, m1) := grow (size - 1) a.elements
      (if 0 < a.max then a.max else findMax (a.size - 1) 10)
    { a with size := size, max := if 0 < a.max then m1 else a.max, elements := e1 }
  else if size < a.size then { a with size := size }
  else a

def expand (i s : Nat) (x d : Value) : Outcome Value (Elements Value) :=
  if 10 < s then do
    let s1 := s / 10
    let child ← expand (i % s1) s1 x d
    let children ← setelement (i / s1 + 1) (fun _ => .unexpanded s1) child
    .ok (.node children s1)
  else do
    let values ← setelement (i + 1) (fun _ => d) x
    .ok (.leaf values)
termination_by s

def set_1 (x d : Value) : Nat → Elements Value → Outcome Value (Elements Value)
  | i, .node children s => do
    let i1 := i / s + 1
    let child ← atElement (fun c => set_1 x d (i % s) (children c)) (expand (i % s) s x d) i1
    let children ← setelement i1 children child
    .ok (.node children s)
  | i, .unexpanded e => expand i e x d
  | i, .leaf values => do
    let values ← setelement (i + 1) values x
    .ok (.leaf values)

def set (i : Nat) (x : Value) (a : ArrayRecord Value) : Outcome Value (ArrayRecord Value) :=
  if i < a.size then do
    let e ← set_1 x a.default i a.elements
    .ok { a with elements := e }
  else if i < a.max then do
    let e ← set_1 x a.default i a.elements
    .ok { a with size := i + 1, elements := e }
  else if 0 < a.max then do
    let (e1, m1) := grow i a.elements a.max
    let e ← set_1 x a.default i e1
    .ok { a with size := i + 1, max := m1, elements := e }
  else .error .badarg

def get_1 (d : Value) : Nat → Elements Value → Outcome Value Value
  | i, .node children s => atElement (fun c => get_1 d (i % s) (children c)) (.ok d) (i / s + 1)
  | _, .unexpanded _ => .ok d
  | i, .leaf values => element values (i + 1)

def get (i : Nat) (a : ArrayRecord Value) : Outcome Value Value :=
  if i < a.size then get_1 a.default i a.elements
  else if 0 < a.max then .ok a.default
  else .error .badarg

def reset_1 [DecidableEq Value] (d : Value) : Nat → Elements Value → Outcome Value (Elements Value)
  | i, .node children s => do
    let i1 := i / s + 1
    let child ← atElement (fun c => reset_1 d (i % s) (children c)) (.error .default) i1
    let children ← setelement i1 children child
    .ok (.node children s)
  | _, .unexpanded _ => .error .default
  | i, .leaf values => do
    let value ← element values (i + 1)
    if value = d then .error .default
    else
      let values ← setelement (i + 1) values d
      .ok (.leaf values)

def reset [DecidableEq Value] (i : Nat) (a : ArrayRecord Value) :
    Outcome Value (ArrayRecord Value) :=
  if i < a.size then
    match reset_1 a.default i a.elements with
    | .ok e => .ok { a with elements := e }
    | .error .default => .ok a
    | .error exit => .error exit
  else if 0 < a.max then .ok a
  else .error .badarg

end Otp.Arrays
