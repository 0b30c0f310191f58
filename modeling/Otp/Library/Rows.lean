import Mathlib.Data.List.Basic
import Mathlib.Data.List.Flatten

/-! Lists of rows of one width, read as one list, and lists of buckets of which one
is replaced. -/

namespace Otp.Library

open List

variable {Item : Type}

/-- All rows are of this width. -/
def Wide (width : Nat) (rows : List (List Item)) : Prop := ∀ row ∈ rows, row.length = width

theorem Wide.length_flatten (wide : Wide width rows) :
    (rows : List (List Item)).flatten.length = width * rows.length := by
  induction rows with
  | nil => simp
  | cons row rows ih =>
    obtain ⟨here, rest⟩ := forall_mem_cons.mp wide
    rw [flatten_cons, length_append, here, ih rest, length_cons, Nat.mul_succ, Nat.add_comm]

theorem Wide.length_take (wide : Wide width rows) (inside : n ≤ rows.length) :
    ((rows : List (List Item)).take n).flatten.length = width * n := by
  have first : Wide width (rows.take n) := fun row member => wide row (mem_of_mem_take member)
  rw [first.length_flatten, List.length_take, Nat.min_eq_left inside]

theorem offset_succ {first : List Item} (here : first.length = width) :
    width * (row + 1) + column = first.length + (width * row + column) := by
  rw [here, Nat.mul_succ, Nat.add_comm _ width, Nat.add_assoc]

theorem Wide.getElem?_flatten (wide : Wide width rows) (inside : column < width) (row : Nat) :
    (rows : List (List Item)).flatten[width * row + column]? = rows[row]?.bind (·[column]?) := by
  induction rows generalizing row with
  | nil => simp
  | cons first rows ih =>
    obtain ⟨here, rest⟩ := forall_mem_cons.mp wide
    cases row with
    | zero => simp [getElem?_append_left (here ▸ inside)]
    | succ row =>
      rw [flatten_cons, offset_succ here, getElem?_append_right (Nat.le_add_right _ _),
        Nat.add_sub_cancel_left, ih rest row, getElem?_cons_succ]

theorem Wide.flatten_set (wide : Wide width rows) (inside : column < width)
    (present : (rows : List (List Item))[row]? = some line) (item : Item) :
    (rows.set row (line.set column item)).flatten =
      rows.flatten.set (width * row + column) item := by
  induction rows generalizing row with
  | nil => cases present
  | cons first rows ih =>
    obtain ⟨here, rest⟩ := forall_mem_cons.mp wide
    cases row with
    | zero =>
      obtain rfl : first = line := Option.some.inj present
      simp [set_append_left _ _ (here ▸ inside)]
    | succ row =>
      rw [set_cons_succ, flatten_cons, flatten_cons, offset_succ here, ih rest present,
        set_append_right _ _ (Nat.le_add_right _ _), Nat.add_sub_cancel_left]

theorem Wide.take_flatten (wide : Wide width rows) (inside : column ≤ width)
    (present : (rows : List (List Item))[row]? = some line) :
    rows.flatten.take (width * row + column) = (rows.take row).flatten ++ line.take column := by
  induction rows generalizing row with
  | nil => cases present
  | cons first rows ih =>
    obtain ⟨here, rest⟩ := forall_mem_cons.mp wide
    cases row with
    | zero =>
      obtain rfl : first = line := Option.some.inj present
      simp [take_append_of_le_length (here ▸ inside)]
    | succ row =>
      rw [flatten_cons, offset_succ here, take_length_add_append, ih rest present, take_succ_cons,
        flatten_cons, append_assoc]

theorem Wide.set (wide : Wide width rows) (size : line.length = width) (row : Nat) :
    Wide width ((rows : List (List Item)).set row line) := by
  intro other member
  rcases mem_or_eq_of_mem_set member with old | rfl
  · exact wide other old
  · exact size

/-- What lies outside of one bucket stays when it is replaced. -/
theorem flatten_set_perm {buckets : List (List Item)} (present : buckets[i]? = some bucket) :
    ∃ rest : List Item, buckets.flatten.Perm (bucket ++ rest) ∧
      ∀ bucket', (buckets.set i bucket').flatten.Perm (bucket' ++ rest) := by
  induction buckets generalizing i with
  | nil => cases present
  | cons first buckets ih =>
    cases i with
    | zero =>
      obtain rfl : first = bucket := Option.some.inj present
      exact ⟨buckets.flatten, by simp, fun bucket' => by simp⟩
    | succ i =>
      obtain ⟨rest, whole, changed⟩ := ih (by simpa using present)
      have move (other : List Item) {all : List Item} (perm : all.Perm (other ++ rest)) :
          (first ++ all).Perm (other ++ (first ++ rest)) :=
        (perm.append_left first).trans (perm_append_comm_assoc _ _ _)
      refine ⟨first ++ rest, by simpa using move bucket whole, fun bucket' => ?_⟩
      simpa using move bucket' (changed bucket')

end Otp.Library
