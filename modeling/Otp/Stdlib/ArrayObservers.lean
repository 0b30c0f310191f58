import Otp.Stdlib.ArrayShape
import Otp.Library.Rows
import Mathlib.Data.List.OfFn

/-! What the traversals of an array see. In a tree in which every node knows the room of
its subtrees, each traversal goes over the entries in their order, forwards or
backwards, with the right indices. -/

namespace Otp.Arrays

open List
open Otp.Library (Wide Wide.take_flatten Wide.getElem?_flatten Wide.length_flatten)

variable {Value Acc : Type}
variable {d : Value} {n : Nat} {l : List Value}

/-- The entries of a tree, in their order. -/
def Elements.flat (d : Value) : Elements Value → List Value
  | .unexpanded s => replicate s d
  | .leaf values => ofFn values
  | .node children _ => (ofFn fun c => (children c).flat d).flatten

/-- Entries with their indices. -/
def numbered : Int → List Value → List (Int × Value)
  | _, [] => []
  | ix, value :: l => (ix, value) :: numbered (ix + 1) l

theorem numbered_append (ix : Int) (l l' : List Value) :
    numbered ix (l ++ l') = numbered ix l ++ numbered (ix + l.length) l' := by
  induction l generalizing ix with
  | nil => simp [numbered]
  | cons value l ih =>
    rw [cons_append, numbered, ih, numbered, length_cons]
    congr 3
    omega

/-- The entries of each subtree. -/
def rows (d : Value) (children : Fin 10 → Elements Value) : List (List Value) :=
  ofFn fun c => (children c).flat d

theorem flat_node (d : Value) (children : Fin 10 → Elements Value) (s : Nat) :
    (Elements.node children s).flat d = (rows d children).flatten := rfl

theorem length_rows (d : Value) (children : Fin 10 → Elements Value) :
    (rows d children).length = 10 := length_ofFn

theorem row_of (d : Value) (children : Fin 10 → Elements Value) (inside : n < 10) :
    (rows d children)[n]? = some ((children ⟨n, inside⟩).flat d) := by
  rw [getElem?_eq_getElem (by rw [length_rows]; exact inside)]
  exact congrArg some (List.getElem_ofFn _)

theorem of_row {children : Fin 10 → Elements Value} (present : (rows d children)[n]? = some row) :
    ∃ inside : n < 10, row = (children ⟨n, inside⟩).flat d := by
  obtain ⟨inside, -⟩ := List.getElem?_eq_some_iff.mp present
  exact ⟨inside, Option.some.inj (present.symm.trans (row_of d children inside))⟩

theorem length_flat {e : Elements Value} (fits : e.Fits k) : (e.flat d).length = 10 ^ (k + 1) := by
  induction e generalizing k with
  | unexpanded | leaf =>
    cases fits
    simp [Elements.flat]
  | node children s ih =>
    obtain ⟨j, rfl, room, subtrees⟩ := fits
    have wide : Wide (10 ^ (j + 1)) (rows d children) := by
      intro row member
      obtain ⟨c, rfl⟩ := mem_ofFn.mp member
      exact ih c (subtrees c)
    rw [flat_node, wide.length_flatten, length_rows, pow_succ 10 (j + 1)]

theorem wide_rows (room : s = 10 ^ (k + 1))
    (subtrees : ∀ c, (children c).Fits k) (d : Value) : Wide s (rows d children) := by
  intro row member
  obtain ⟨c, rfl⟩ := mem_ofFn.mp member
  rw [length_flat (subtrees c), room]

theorem length_take_rows {children : Fin 10 → Elements Value} (wide : Wide s (rows d children))
    (inside : n ≤ 10) : (((rows d children).take n).flatten.length : Int) = s * n := by
  rw [wide.length_take (by rw [length_rows]; exact inside), Int.natCast_mul]

/-- The entries up to `I`: whole subtrees, then a part of one. -/
theorem flat_take_node (room : s = 10 ^ (k + 1))
    (subtrees : ∀ c, (children c).Fits k) (inside : i < 10 ^ (k + 1 + 1)) (d : Value) :
    ((Elements.node children s).flat d).take (i + 1) = ((rows d children).take (i / s)).flatten ++
        ((children ⟨i / s, place_lt room inside⟩).flat d).take (i % s + 1) := by
  have below : i % s + 1 ≤ s := Nat.mod_lt _ (room ▸ room_pos k)
  rw [flat_node, ← (wide_rows room subtrees d).take_flatten below
    (row_of d children (place_lt room inside)), ← Nat.add_assoc, Nat.div_add_mod]

theorem flat_unfold (room : s = 10 ^ (k + 1)) : (unfold s d).flat d = replicate s d := by
  subst room
  cases k with
  | zero => rfl
  | succ k =>
    rw [unfold, if_pos (large_room k), part_of_room, newNode]
    simp only [Elements.flat, ofFn_const, flatten_replicate_replicate]
    rw [← pow_succ']

theorem get_1_eq (fits : e.Fits k) (inside : i < 10 ^ (k + 1)) :
    ∃ value, get_1 d i e = .ok value ∧ (e.flat d)[i]? = some value := by
  induction e generalizing k i with
  | unexpanded s =>
    cases fits
    exact ⟨d, rfl, by simp [Elements.flat, inside]⟩
  | leaf values =>
    cases fits
    exact ⟨values ⟨i, inside⟩, element_ok inside values, by
      rw [Elements.flat, List.getElem?_ofFn, dif_pos (by simpa using inside)]⟩
  | node children s ih =>
    obtain ⟨j, rfl, room, subtrees⟩ := fits
    obtain ⟨value, found, entry⟩ := ih ⟨i / s, place_lt room inside⟩ (subtrees _) (rest_lt room i)
    refine ⟨value, by rw [get_1, atElement_ok (place_lt room inside), found], ?_⟩
    have whole :=
      (wide_rows room subtrees d).getElem?_flatten (Nat.mod_lt i (room ▸ room_pos j)) (i / s)
    rw [Nat.div_add_mod, row_of d children (place_lt room inside)] at whole
    rw [flat_node, whole]
    exact entry

theorem push_eq {l : List Item} : push n x l = replicate n x ++ l := by
  induction n generalizing l with
  | zero => rfl
  | succ n ih => rw [push, ih, replicate_succ', append_assoc, singleton_append]

theorem take_ofFn_succ {values : Fin 10 → Value} (inside : n < 10) :
    (List.ofFn values).take (n + 1) = (List.ofFn values).take n ++ [values ⟨n, inside⟩] := by
  rw [List.take_succ_eq_append_getElem (by rw [List.length_ofFn]; exact inside), List.getElem_ofFn]

theorem toList_3_eq {rows : List (List Value)}
    (visited : ∀ j row, rows[j]? = some row → ∀ l, visit (j + 1) l = .ok (row ++ l))
    (inside : n ≤ rows.length) :
    toList_3 visit n l = .ok ((rows.take n).flatten ++ l) := by
  induction n generalizing l with
  | zero => rfl
  | succ n ih =>
    rw [toList_3, visited n _ (getElem?_eq_getElem inside), ok_bind, ih (by omega),
      take_succ_eq_append_getElem inside, flatten_append]
    simp

section Lists

variable [DecidableEq Value]

theorem filter_visits_dense : l.filter (visits false d) = l := filter_eq_self.mpr fun _ _ => rfl

theorem visits_default : visits true d d = false := by simp [visits]

theorem pushUnexpanded_eq :
    pushUnexpanded sparse n d l = (replicate n d).filter (visits sparse d) ++ l := by
  cases sparse with
  | false => simp [pushUnexpanded, push_eq, filter_visits_dense]
  | true => simp [pushUnexpanded, visits_default]

theorem pushTuple_eq (small : n ≤ 10) : pushTuple sparse d values n l =
      .ok (((ofFn values).take n).filter (visits sparse d) ++ l) := by
  induction n generalizing l with
  | zero => rfl
  | succ n ih =>
    rw [pushTuple, element_ok small, ok_bind, ih (by omega), take_ofFn_succ small, filter_append]
    cases kept : visits sparse d (values ⟨n, small⟩) <;> simp [kept]

/-- What `to_list_3` finds at the subtrees of a node. -/
theorem toList_3_node (s : Nat) (subtrees : ∀ c l, toList_2 sparse d (children c) l =
      .ok (((children c).flat d).filter (visits sparse d) ++ l)) (inside : n ≤ 10) (l :
    List Value) :
    toList_3 (fun n l => atElement (fun c => toList_2 sparse d (children c) l)
        (.ok (pushUnexpanded sparse s d l)) n) n l =
      .ok (((rows d children).take n).flatten.filter (visits sparse d) ++ l) := by
  rw [filter_flatten, map_take]
  refine toList_3_eq (fun j row present l => ?_) (by simpa [length_rows] using inside)
  rw [getElem?_map, Option.map_eq_some_iff] at present
  obtain ⟨whole, present, rfl⟩ := present
  obtain ⟨small, rfl⟩ := of_row present
  rw [atElement_ok small, subtrees]

theorem toList_2_eq (sparse : Bool) (d : Value) (e : Elements Value) (l : List Value) :
    toList_2 sparse d e l = .ok ((e.flat d).filter (visits sparse d) ++ l) := by
  induction e generalizing l with
  | unexpanded s => rw [toList_2, pushUnexpanded_eq, Elements.flat]
  | leaf values =>
    rw [toList_2, pushTuple_eq (by omega), take_of_length_le (by simp), Elements.flat]
  | node children s ih =>
    rw [toList_2, toList_3_node s ih (by omega), take_of_length_le (by simp [length_rows]),
      flat_node]

theorem toList_1_eq (fits : e.Fits k) (inside : i < 10 ^ (k + 1)) :
    toList_1 sparse d e i = .ok (((e.flat d).take (i + 1)).filter (visits sparse d)) := by
  induction e generalizing k i with
  | unexpanded s =>
    cases fits
    rw [toList_1, pushUnexpanded_eq, Elements.flat, take_replicate,
      Nat.min_eq_left inside, append_nil]
  | leaf values =>
    cases fits
    rw [toList_1, pushTuple_eq inside, Elements.flat, append_nil]
  | node children s ih =>
    obtain ⟨j, rfl, room, subtrees⟩ := fits
    simp only [toList_1]
    rw [atElement_ok (place_lt room inside), ih _ (subtrees _) (rest_lt room i), ok_bind,
      toList_3_node s (fun c => toList_2_eq sparse d (children c))
        (Nat.le_of_lt (place_lt room inside)),
      flat_take_node room subtrees inside, filter_append]

/-- Does a traversal visit the entry of this pair? -/
def visitsPair (sparse : Bool) (d : Value) (pair : Int × Value) : Bool := visits sparse d pair.2

theorem numbered_replicate : (numbered ix (replicate n d)).filter (visitsPair true d) = [] := by
  induction n generalizing ix with
  | zero => rfl
  | succ n ih => simp [replicate_succ, numbered, visitsPair, visits_default, ih]

omit [DecidableEq Value] in
theorem pushPairs_eq {ix : Int} {r : Int} (last : r = ix + n - 1) {e : Value}
    {l : List (Int × Value)} : pushPairs n r e l = numbered ix (replicate n e) ++ l := by
  induction n generalizing r l with
  | zero => rfl
  | succ n ih =>
    have here : ix + n = r := by omega
    rw [pushPairs, ih (by omega), replicate_succ', numbered_append, append_assoc,
      length_replicate, here]
    rfl

theorem pushUnexpandedPairs_eq (sparse : Bool) (ix : Int) (last : r = ix + n - 1)
    (d : Value) (l : List (Int × Value)) : pushUnexpandedPairs sparse n r d l =
      (numbered ix (replicate n d)).filter (visitsPair sparse d) ++ l := by
  cases sparse with
  | false =>
    have all (pairs : List (Int × Value)) : pairs.filter (visitsPair false d) = pairs :=
      filter_eq_self.mpr fun _ _ => rfl
    simp [pushUnexpandedPairs, pushPairs_eq last, all]
  | true => simp [pushUnexpandedPairs, numbered_replicate]

theorem pushTuplePairs_eq (sparse : Bool) (d : Value) (values : Fin 10 → Value)
    (small : n ≤ 10) (ix : Int) (last : r = ix + n - 1) (l : List (Int × Value)) :
    pushTuplePairs sparse d values n r l =
      .ok ((numbered ix ((ofFn values).take n)).filter (visitsPair sparse d) ++ l) := by
  induction n generalizing r l with
  | zero => rfl
  | succ n ih =>
    have here : ix + ((ofFn values).take n).length = r := by
      rw [length_take, length_ofFn]
      omega
    rw [pushTuplePairs, element_ok small, ok_bind, ih (by omega) (by omega),
      take_ofFn_succ small, numbered_append, filter_append, here]
    cases kept : visits sparse d (values ⟨n, small⟩) <;> simp [kept, numbered, visitsPair]

theorem toOrddict_3_node (sparse : Bool) (wide : Wide s (rows d children))
    (subtrees : ∀ c (ix r : Int) l, r = ix + s - 1 → toOrddict_2 sparse d (children c) r l =
      .ok ((numbered ix ((children c).flat d)).filter (visitsPair sparse d) ++ l)) (inside : n ≤ 10)
    (ix : Int) (last : r = ix + s * n - 1) (l : List (Int × Value)) :
    toOrddict_3 (fun n r l => atElement (fun c => toOrddict_2 sparse d (children c) r l)
        (.ok (pushUnexpandedPairs sparse s r d l)) n) s n r l =
      .ok ((numbered ix ((rows d children).take n).flatten).filter (visitsPair sparse d) ++ l) := by
  induction n generalizing r l with
  | zero => rfl
  | succ n ih =>
    have step : (s : Int) * (n + 1 : Nat) = s * n + s := by
      rw [Int.natCast_add, Int.mul_add, Int.natCast_one, Int.mul_one]
    have line := row_of d children inside
    rw [toOrddict_3, atElement_ok inside, subtrees _ (ix + s * n) r _ (by omega), ok_bind,
      ih (by omega) (by omega), take_add_one, line, flatten_append, numbered_append,
      length_take_rows wide (by omega)]
    simp

theorem toOrddict_2_eq (sparse : Bool) (d : Value) (fits : e.Fits k) (ix : Int)
    (last : r = ix + (10 ^ (k + 1) : Nat) - 1) (l : List (Int × Value)) :
    toOrddict_2 sparse d e r l =
      .ok ((numbered ix (e.flat d)).filter (visitsPair sparse d) ++ l) := by
  induction e generalizing k ix r l with
  | unexpanded s =>
    cases fits
    rw [toOrddict_2, pushUnexpandedPairs_eq sparse ix last, Elements.flat]
  | leaf values =>
    cases fits
    rw [toOrddict_2, pushTuplePairs_eq sparse d values le_rfl ix last, take_of_length_le (by simp),
      Elements.flat]
  | node children s ih =>
    obtain ⟨j, rfl, room, subtrees⟩ := fits
    have whole : (10 ^ (j + 1 + 1) : Nat) = s * 10 := by rw [room, pow_succ]
    rw [toOrddict_2, toOrddict_3_node sparse (wide_rows room subtrees d)
        (fun c ix r l last => ih c (subtrees c) ix (room ▸ last) l) le_rfl ix
        (by rw [last, whole]; push_cast; rfl),
      take_of_length_le (by simp [length_rows]), flat_node]

theorem toOrddict_1_eq (sparse : Bool) (d : Value) {i : Nat} (fits : e.Fits k)
    (inside : i < 10 ^ (k + 1)) (ix : Int) (last : r = ix + i) :
    toOrddict_1 sparse d e r i =
      .ok ((numbered ix ((e.flat d).take (i + 1))).filter (visitsPair sparse d)) := by
  induction e generalizing k i ix r with
  | unexpanded s =>
    cases fits
    rw [toOrddict_1, pushUnexpandedPairs_eq sparse ix (by omega), Elements.flat,
      take_replicate, Nat.min_eq_left inside, append_nil]
  | leaf values =>
    cases fits
    rw [toOrddict_1, pushTuplePairs_eq sparse d values inside ix (by omega),
      Elements.flat, append_nil]
  | node children s ih =>
    obtain ⟨j, rfl, room, subtrees⟩ := fits
    have wide := wide_rows room subtrees d
    have small := place_lt room inside
    have split : (i : Int) = s * (i / s : Nat) + (i % s : Nat) := by
      exact_mod_cast (Nat.div_add_mod i s).symm
    simp only [toOrddict_1]
    rw [atElement_ok small, ih _ (subtrees _) (rest_lt room i) (ix + s * (i / s : Nat)) (by omega),
      ok_bind, toOrddict_3_node sparse wide
        (fun c ix r l last => toOrddict_2_eq sparse d (subtrees c) ix (room ▸ last) l)
        (Nat.le_of_lt small) ix (by omega),
      flat_take_node room subtrees inside, numbered_append, filter_append,
      length_take_rows wide (Nat.le_of_lt small)]

end Lists

end Otp.Arrays
