import Otp.Lists.Sort

/-! The merging functions of `lists` give the merge of their lists, the one with the
first list first where elements are equivalent. -/

namespace Otp.Lists

open List
open Otp.Library

variable {Item : Type} {le : Item → Item → Bool}

mutual

theorem merge2_1_eq : merge2_1 le t1 h2 t2 m = (t1.merge (h2 :: t2) le).reverse ++ m := by
  match t1 with
  | [] => simp [merge2_1]
  | h1 :: t1 =>
    rw [merge2_1, cons_merge_cons, merge2_1_eq, merge2_2_eq]
    split <;> simp

theorem merge2_2_eq : merge2_2 le t1 hdM t2 m h1 = ((h1 :: t1).merge t2 le).reverse ++
    hdM :: m := by
  match t2 with
  | [] => simp [merge2_2]
  | h2 :: t2 =>
    rw [merge2_2, cons_merge_cons, merge2_1_eq, merge2_2_eq]
    split <;> simp

end

/-! The functions of `sort/2` move an element at once. -/

mutual

theorem fmerge2_1_same : fmerge2_1 le t1 h2 t2 m = merge2_1 le t1 h2 t2 m := by
  match t1 with
  | [] => rw [fmerge2_1, merge2_1]
  | h1 :: t1 => rw [fmerge2_1, merge2_1, fmerge2_1_same, fmerge2_2_same]

theorem fmerge2_2_same : fmerge2_2 le h1 t1 t2 (hdM :: m) = merge2_2 le t1 hdM t2 m h1 := by
  match t2 with
  | [] => rw [fmerge2_2, merge2_2]
  | h2 :: t2 => rw [fmerge2_2, merge2_2, fmerge2_1_same, fmerge2_2_same]

end

mutual

theorem rfmerge2_1_same : rfmerge2_1 le t1 h2 t2 m = rmerge2_1 le t1 h2 t2 m := by
  match t1 with
  | [] => rw [rfmerge2_1, rmerge2_1]
  | h1 :: t1 => rw [rfmerge2_1, rmerge2_1, rfmerge2_1_same, rfmerge2_2_same]

theorem rfmerge2_2_same : rfmerge2_2 le h1 t1 t2 (hdM :: m) = rmerge2_2 le t1 hdM t2 m h1 := by
  match t2 with
  | [] => rw [rfmerge2_2, rmerge2_2]
  | h2 :: t2 => rw [rfmerge2_2, rmerge2_2, rfmerge2_1_same, rfmerge2_2_same]

end

variable (le) in
/-- The comparison of lists from the greatest element. -/
abbrev above (first second : Item) : Bool := !le first second

theorem ite_above : (if above le first second = true then x else y) = if le first second = true then
    y else x := by
  cases compared : le first second <;> simp [compared]

/-! With this comparison the functions for lists from the greatest element are the others. -/

mutual

theorem rmerge2_1_above : rmerge2_1 le t1 h2 t2 m = merge2_1 (above le) t1 h2 t2 m := by
  match t1 with
  | [] => rw [rmerge2_1, merge2_1]
  | h1 :: t1 => rw [rmerge2_1, merge2_1, ite_above, rmerge2_1_above, rmerge2_2_above]

theorem rmerge2_2_above : rmerge2_2 le t1 hdM t2 m h1 = merge2_2 (above le) t1 hdM t2 m h1 := by
  match t2 with
  | [] => rw [rmerge2_2, merge2_2]
  | h2 :: t2 => rw [rmerge2_2, merge2_2, ite_above, rmerge2_1_above, rmerge2_2_above]

end

/-- The merge of three lists, the first two first. -/
abbrev threeWay (before : Item → Item → Bool) (first second third : List Item) : List Item :=
  (first.merge second before).merge third before

mutual

theorem merge3_1_eq : merge3_1 le t1 m h2 t2 h3 t3 =
    (threeWay le t1 (h2 :: t2) (h3 :: t3)).reverse ++ m := by
  match t1 with
  | [] => rw [merge3_1, ← merge2_1, merge2_1_eq, threeWay, nil_merge]
  | h1 :: t1 =>
    rw [merge3_1]
    split
    case isTrue below => exact merge3_12_eq below
    case isFalse above => exact merge3_21_eq above
termination_by (t1, t2, t3, 0)

theorem merge3_2_eq : merge3_2 le t1 h1 m t2 h3 t3 =
    (threeWay le (h1 :: t1) t2 (h3 :: t3)).reverse ++ m := by
  match t2 with
  | [] => rw [merge3_2, ← merge2_1, merge2_1_eq, threeWay, merge_right]
  | h2 :: t2 =>
    rw [merge3_2]
    split
    case isTrue below => exact merge3_12_eq below
    case isFalse above => exact merge3_21_eq above
termination_by (t1, t2, t3, 0)

theorem merge3_12_eq (below : le h1 h2 = true) :
    merge3_12 le t1 h1 h2 t2 h3 t3 m =
      (threeWay le (h1 :: t1) (h2 :: t2) (h3 :: t3)).reverse ++ m := by
  rw [merge3_12, merge3_1_eq, merge3_12_3_eq below, threeWay, threeWay, threeWay, cons_merge_cons,
    if_pos below, cons_merge_cons]
  split <;> simp
termination_by (t1, t2, t3, 2)

theorem merge3_12_3_eq (below : le h1 h2 = true) :
    merge3_12_3 le t1 h1 h2 t2 m t3 = (threeWay le (h1 :: t1) (h2 :: t2) t3).reverse ++ m := by
  match t3 with
  | [] =>
    rw [merge3_12_3, merge2_1_eq, threeWay, merge_right, cons_merge_cons, if_pos below]
    simp
  | h3 :: t3 => rw [merge3_12_3, ← merge3_12, merge3_12_eq below]
termination_by (t1, t2, t3, 1)

theorem merge3_21_eq (above : ¬le h1 h2 = true) :
    merge3_21 le t1 h1 h2 t2 h3 t3 m =
      (threeWay le (h1 :: t1) (h2 :: t2) (h3 :: t3)).reverse ++ m := by
  rw [merge3_21, merge3_2_eq, merge3_21_3_eq above, threeWay, threeWay, threeWay, cons_merge_cons,
    if_neg above, cons_merge_cons]
  split <;> simp
termination_by (t1, t2, t3, 2)

theorem merge3_21_3_eq (above : ¬le h1 h2 = true) :
    merge3_21_3 le t1 h1 h2 t2 m t3 = (threeWay le (h1 :: t1) (h2 :: t2) t3).reverse ++ m := by
  match t3 with
  | [] =>
    rw [merge3_21_3, merge2_2_eq, threeWay, merge_right, cons_merge_cons, if_neg above]
    simp
  | h3 :: t3 => rw [merge3_21_3, ← merge3_21, merge3_21_eq above]
termination_by (t1, t2, t3, 1)

end

mutual

theorem rmerge3_1_above : rmerge3_1 le t1 m h2 t2 h3 t3 = merge3_1 (above le) t1 m h2 t2 h3 t3 := by
  match t1 with
  | [] => rw [rmerge3_1, merge3_1, ite_above, rmerge2_1_above, rmerge2_2_above]
  | h1 :: t1 => rw [rmerge3_1, merge3_1, ite_above, rmerge3_12_above, rmerge3_21_above]
termination_by (t1, t2, t3, 0)

theorem rmerge3_2_above : rmerge3_2 le t1 h1 m t2 h3 t3 = merge3_2 (above le) t1 h1 m t2 h3 t3 := by
  match t2 with
  | [] => rw [rmerge3_2, merge3_2, ite_above, rmerge2_1_above, rmerge2_2_above]
  | h2 :: t2 => rw [rmerge3_2, merge3_2, ite_above, rmerge3_12_above, rmerge3_21_above]
termination_by (t1, t2, t3, 0)

theorem rmerge3_12_above :
    rmerge3_12 le t1 h1 h2 t2 h3 t3 m = merge3_21 (above le) t1 h1 h2 t2 h3 t3 m := by
  rw [rmerge3_12, merge3_21, ite_above, rmerge3_2_above, rmerge3_12_3_above]
termination_by (t1, t2, t3, 2)

theorem rmerge3_12_3_above :
    rmerge3_12_3 le t1 h1 h2 t2 m t3 = merge3_21_3 (above le) t1 h1 h2 t2 m t3 := by
  match t3 with
  | [] => rw [rmerge3_12_3, merge3_21_3, rmerge2_2_above]
  | h3 :: t3 => rw [rmerge3_12_3, merge3_21_3, ite_above, rmerge3_2_above, rmerge3_12_3_above]
termination_by (t1, t2, t3, 1)

theorem rmerge3_21_above :
    rmerge3_21 le t1 h1 h2 t2 h3 t3 m = merge3_12 (above le) t1 h1 h2 t2 h3 t3 m := by
  rw [rmerge3_21, merge3_12, ite_above, rmerge3_1_above, rmerge3_21_3_above]
termination_by (t1, t2, t3, 2)

theorem rmerge3_21_3_above :
    rmerge3_21_3 le t1 h1 h2 t2 m t3 = merge3_12_3 (above le) t1 h1 h2 t2 m t3 := by
  match t3 with
  | [] => rw [rmerge3_21_3, merge3_12_3, rmerge2_1_above]
  | h3 :: t3 => rw [rmerge3_21_3, merge3_12_3, ite_above, rmerge3_1_above, rmerge3_21_3_above]
termination_by (t1, t2, t3, 1)

end

section

variable (order : TotalPreorder Item)

/-- A run, from its least or from its greatest element. -/
def Up (run : List Item) : Prop := run ≠ [] ∧ order.Ascending run

def Down (run : List Item) : Prop := run ≠ [] ∧ order.Descending run

variable {order}

theorem Up.reverse (up : Up order items) : Down order items.reverse :=
  ⟨by simpa using up.1, TotalPreorder.descending_reverse.mpr up.2⟩

theorem Down.reverse (down : Down order items) : Up order items.reverse :=
  ⟨by simpa using down.1, TotalPreorder.ascending_reverse.mpr down.2⟩

/-- What a merge of some runs has to be: a run with the elements of all. -/
structure Merged (order : TotalPreorder Item) (out : List Item) (inputs : List (List Item)) :
    Prop where
  up : Up order out
  same : order.SameOrder out inputs.flatten

theorem merged_two (first : order.Ascending t1) (second : Up order t2) :
    Merged order (t1.merge t2 order.le) [t1, t2] := by
  refine ⟨⟨?_, TotalPreorder.ascending_merge first second.2⟩, ?_⟩
  · obtain ⟨head, tail, rfl⟩ := exists_cons_of_ne_nil second.1
    exact ne_nil_of_mem (mem_merge.mpr (.inr mem_cons_self))
  · simpa using TotalPreorder.sameOrder_merge first t2

theorem merged_three (first : order.Ascending t1) (second : Up order t2) (third : Up order t3) :
    Merged order (threeWay order.le t1 t2 t3) [t1, t2, t3] := by
  have two := merged_two first second
  refine ⟨(merged_two two.up.2 third).up, ?_⟩
  have same := (TotalPreorder.sameOrder_merge two.up.2 t3).trans (two.same.append (.refl t3))
  simpa using same

theorem merged_two_down (first : order.Descending t1) (second : Down order t2) :
    Merged order (t1.merge t2 (above order.le)).reverse [t1.reverse, t2.reverse] := by
  refine ⟨Down.reverse ⟨?_, TotalPreorder.descending_merge first second.2⟩, ?_⟩
  · obtain ⟨head, tail, rfl⟩ := exists_cons_of_ne_nil second.1
    exact ne_nil_of_mem (mem_merge.mpr (.inr mem_cons_self))
  · have same : order.SameOrder (t1.merge t2 (above order.le)).reverse (t2 ++ t1).reverse :=
      (TotalPreorder.sameOrder_merge_gt t1 second.2).reverse
    simpa using same

theorem merged_three_down (first : order.Descending t1) (second : Down order t2)
    (third : Down order t3) :
    Merged order (threeWay (above order.le) t1 t2 t3).reverse [t1.reverse, t2.reverse,
      t3.reverse] := by
  have two := merged_two_down first second
  have desc : order.Descending (t1.merge t2 (above order.le)) :=
    TotalPreorder.ascending_reverse.mp two.up.2
  have three := merged_two_down desc third
  refine ⟨three.up, ?_⟩
  have last := three.same
  have inner := two.same
  simp only [flatten_cons, flatten_nil, append_nil] at last inner ⊢
  rw [← append_assoc]
  exact last.trans (inner.append (.refl t3.reverse))

end

end Otp.Lists
