import Otp.Lists.SortRuns

/-! What `sort/1`, `sort/2` and `keysort/2` return. -/

namespace Otp.Lists

open List Otp.Library TotalPreorder

variable {Item : Type} {order : TotalPreorder Item}

/-- The input in order, but elements that compare equal may have changed places. -/
def Orders (order : TotalPreorder Item) (result : Option (List Item)) (input : List Item) : Prop :=
  ∃ out, result = some out ∧ out.Perm input ∧ order.Ascending out

theorem Sorts.orders (sorts : Sorts order result input) : Orders order result input := by
  obtain ⟨out, shape, ascending, kept⟩ := sorts
  exact ⟨out, shape, kept.perm, ascending⟩

theorem split_1_orders (x y : Item) (l r : List Item) (run : order.Descending (y :: x :: r)) :
    Orders order (split_1 order.le x y l r []) (r.reverse ++ x :: y :: l) := by
  obtain ⟨rs, shape, some, down, kept⟩ :=
    splitUp_splits (fun rs => rmergel order.le rs []) x y l r [] run (by simp)
  have sorts := sorts_of_ends (((mergel_passes order).ends rs some).2 down)
  rw [split_1, shape]
  exact (sorts.same (by simpa [sequence] using kept)).orders

theorem split_2_orders (x y : Item) (l r : List Item) (run : order.Ascending (y :: x :: r)) :
    Orders order (split_2 order.le x y l r []) (y :: x :: r ++ l) := by
  obtain ⟨rs, shape, some, up, shuffle⟩ :=
    splitDown_splits (fun rs => mergel order.le rs []) lowers_le x y l r [] run (by simp)
  obtain ⟨out, result, ascending, kept⟩ := sorts_of_ends (((mergel_passes order).ends rs some).1 up)
  rw [split_2, shape]
  refine ⟨out, result, ?_, ascending⟩
  have flat : out.Perm rs.flatten := by simpa [sequence] using kept.perm
  have turned : rs.flatten.Perm rs.reverse.flatten := (reverse_perm rs).symm.flatten
  exact flat.trans (turned.trans (by simpa using shuffle.perm))

/-- A run of elements that all compare equal. -/
def Level (order : TotalPreorder Item) (items : List Item) : Prop :=
  items.Pairwise fun first second => order.same first second = true

theorem Level.cons (level : Level order (x :: r)) (next : order.same y x = true) :
    Level order (y :: x :: r) := by
  refine pairwise_cons.mpr ⟨forall_mem_cons.mpr ⟨next, fun other member => ?_⟩, level⟩
  exact same_trans next ((pairwise_cons.mp level).1 other member)

theorem Level.ascending (level : Level order items) : order.Ascending items :=
  level.imp fun both => (Bool.and_eq_true_iff.mp both).1

theorem Level.descending (level : Level order items) : order.Descending items :=
  level.imp fun both => (Bool.and_eq_true_iff.mp both).2

theorem sort_1_orders (x : Item) (l r : List Item) (level : Level order (x :: r)) :
    Orders order (sort_1 order.le x l r) (r.reverse ++ x :: l) := by
  induction l generalizing x r with
  | nil =>
    refine ⟨_, rfl, .refl _, ?_⟩
    have turned := ascending_reverse.mpr level.descending
    simpa using turned
  | cons y l ih =>
    rw [sort_1]
    split
    case isTrue both =>
      have next : order.same y x = true := (same_comm order y x).trans both
      simpa using ih y (x :: r) (level.cons next)
    case isFalse =>
    split
    case isTrue less =>
      exact split_1_orders x y l r (descending_top level.descending (le_of_not less))
    case isFalse greater =>
      have below : order.le y x = true := Bool.eq_true_of_not_eq_false greater
      obtain ⟨out, shape, kept, ascending⟩ :=
        split_2_orders x y l r ((lowers_le).first level.ascending below)
      refine ⟨out, shape, kept.trans ?_, ascending⟩
      have turned : (y :: x :: r ++ l).Perm ((x :: r).reverse ++ y :: l) :=
        (((reverse_perm (x :: r)).symm.append_right l).cons y).trans perm_middle.symm
      simpa using turned

theorem ascending_three (first : order.le x y = true) (second : order.le y z = true) :
    order.Ascending [x, y, z] := by
  have third := order.trans _ _ _ first second
  simp [Ascending, first, second, third]

theorem ascending_two (first : order.le x y = true) : order.Ascending [x, y] := by
  simpa [Ascending] using first

/-- Three elements compared as the source does: the first two, then the third with the
greater and with the lesser of them. -/
theorem three_sorts : Sorts order (if order.le x y then
        if order.le y z then some [x, y, z] else if order.le x z then some [x, z, y]
          else some [z, x, y]
      else
        if order.le x z then some [y, x, z] else if order.le y z then some [y, z, x]
        else some [z, y, x]) [x, y, z] := by
  split
  case isTrue first =>
    split
    case isTrue second => exact ⟨_, rfl, ascending_three first second, .refl _⟩
    case isFalse second =>
    have second := Bool.eq_false_iff.mpr second
    split
    case isTrue third =>
      refine ⟨_, rfl, ascending_three third (le_of_not second), ?_⟩
      exact overtake [x] [y] [] z (by simpa using apart_of_less second)
    case isFalse third =>
      have third := Bool.eq_false_iff.mpr third
      refine ⟨_, rfl, ascending_three (le_of_not third) first, ?_⟩
      exact overtake [] [x, y] [] z (by simpa using ⟨apart_of_less third, apart_of_less second⟩)
  case isFalse first =>
    have first := Bool.eq_false_iff.mpr first
    have below := le_of_not first
    have swapped : order.SameOrder [y, x, z] [x, y, z] :=
      overtake [] [x] [z] y (by simpa using apart_of_less first)
    split
    case isTrue second => exact ⟨_, rfl, ascending_three below second, swapped⟩
    case isFalse second =>
    have second := Bool.eq_false_iff.mpr second
    split
    case isTrue third =>
      refine ⟨_, rfl, ascending_three third (le_of_not second), ?_⟩
      exact (overtake [y] [x] [] z (by simpa using apart_of_less second)).trans swapped
    case isFalse third =>
      have third := Bool.eq_false_iff.mpr third
      refine ⟨_, rfl, ascending_three (le_of_not third) below, ?_⟩
      exact (overtake [] [y, x] [] z
        (by simpa using ⟨apart_of_less third, apart_of_less second⟩)).trans swapped

theorem two_sorts : Sorts order (if order.le x y then some [x, y] else some [y, x]) [x, y] := by
  split
  case isTrue first => exact ⟨_, rfl, ascending_two first, .refl _⟩
  case isFalse first =>
    have first := Bool.eq_false_iff.mpr first
    refine ⟨_, rfl, ascending_two (le_of_not first), ?_⟩
    exact overtake [] [x] [] y (by simpa using apart_of_less first)

theorem one_sorts : Sorts order (some [x]) [x] := ⟨_, rfl, pairwise_singleton _ _, .refl _⟩

theorem none_sorts : Sorts order (some []) [] := ⟨_, rfl, .nil, .refl _⟩

theorem sort_orders : Orders order (sort order.le l) l := by
  match l with
  | [] => exact none_sorts.orders
  | [x] => exact (one_sorts).orders
  | [x, y] => exact (two_sorts).orders
  | [x, y, z] => exact (three_sorts).orders
  | x :: y :: z :: w :: l =>
    simp only [sort]
    split
    case isTrue first =>
      split
      case isTrue both =>
        have level : Level order [y, x] := by
          simpa [Level] using (same_comm order y x).trans both
        exact sort_1_orders y (z :: w :: l) [x] level
      case isFalse =>
        have run : order.Descending [y, x] := by simpa [Descending] using first
        exact split_1_orders x y (z :: w :: l) [] run
    case isFalse first =>
      have below := le_of_not (Bool.eq_false_iff.mpr first)
      obtain ⟨out, shape, kept, ascending⟩ :=
        split_2_orders x y (z :: w :: l) [] (ascending_two below)
      exact ⟨out, shape, kept.trans (.swap x y _), ascending⟩

theorem fsplit_1_sorts (first : order.le x y = true) :
    Sorts order (fsplit_1 order.le y x l [] []) (x :: y :: l) := by
  have run : order.Descending [y, x] := by simpa [Descending] using first
  obtain ⟨rs, shape, some, down, kept⟩ :=
    splitUp_splits (fun rs => rfmergel order.le rs [] .asc) x y l [] [] run (by simp)
  have sorts := sorts_of_ends (((fmergel_passes order .asc).ends rs some).2 down)
  rw [fsplit_1, shape]
  exact sorts.same (by simpa [sequence, RunOrder.front] using kept)

theorem fsplit_2_sorts (first : order.le x y = false) :
    Sorts order (fsplit_2 order.le y x l [] []) (x :: y :: l) := by
  obtain ⟨rs, shape, some, up, shuffle⟩ :=
    splitDown_splits (fun rs => fmergel order.le rs [] .desc) lowers_not_le x y l [] []
      (ascending_two (le_of_not first)) (by simp)
  have sorts := sorts_of_ends (((fmergel_passes order .desc).ends rs some).1 up)
  have kept := shuffle.sameOrder order fun item other passes => by
    exact apart_of_less (by simpa using passes)
  rw [fsplit_2, shape]
  refine (sorts.same (by simpa [sequence, RunOrder.front] using kept)).same ?_
  exact overtake [] [x] l y (by simpa using apart_of_less first)

theorem sortFun_sorts : Sorts order (sortFun order.le l) l := by
  match l with
  | [] => exact none_sorts
  | [x] => exact one_sorts
  | x :: y :: l =>
    rw [sortFun]
    split
    case isTrue first => exact fsplit_1_sorts first
    case isFalse first => exact fsplit_2_sorts (Bool.eq_false_iff.mpr first)

/-- `sort/1` puts every list in the order of `=<`, and `sort/2` sorts it by any total
preorder so that equivalent elements keep their places. -/
theorem sort_ordered_and_stable (term order : TotalPreorder Item) (l : List Item) :
    (∃ out, sort term.le l = some out ∧ out.Perm l ∧ term.Ascending out) ∧
      ∃ out, sortFun order.le l = some out ∧ out.Perm l ∧ order.Ascending out ∧
      order.SameOrder out l := by
  obtain ⟨out, shape, ascending, kept⟩ := sortFun_sorts
  exact ⟨sort_orders, out, shape, kept.perm, ascending, kept⟩

end Otp.Lists
