import Otp.Library.StableOrder

/-! The first item of each class of a total preorder: lists that begin every class with the
same item, lists without equivalent items, and the union of two such lists in order. -/

namespace Otp.Library.TotalPreorder

open List

variable {Item : Type} (order : TotalPreorder Item)

/-- No two items are equivalent. -/
def Apart (items : List Item) : Prop :=
  items.Pairwise fun first second => order.same first second = false

def Increasing (items : List Item) : Prop :=
  items.Pairwise fun first second => order.le second first = false

def Decreasing (items : List Item) : Prop :=
  items.Pairwise fun first second => order.le first second = false

/-- The first item of every class is the same in both lists. -/
def KeepsFirst (first second : List Item) : Prop :=
  ∀ item, first.find? (order.same item) = second.find? (order.same item)

/-- The items of a list that have no equivalent item before them, there or in `seen`. -/
def firstsAfter : List Item → List Item → List Item
  | _, [] => []
  | seen, item :: items =>
    if seen.any (order.same item) then firstsAfter (item :: seen) items
    else item :: firstsAfter (item :: seen) items

/-- The items that have no equivalent item before them. -/
def firsts (items : List Item) : List Item := order.firstsAfter [] items

/-- How two items stand to each other. -/
def compare (first second : Item) : Ordering :=
  if order.le first second then if order.le second first then .eq else .lt else .gt

/-- The union of two increasing lists; of two equivalent items the first list's is taken. -/
def union : List Item → List Item → List Item
  | [], second => second
  | first, [] => first
  | a :: first, b :: second =>
    if order.le b a = false then a :: union first (b :: second)
    else if order.le a b = false then b :: union (a :: first) second
    else a :: union first second
termination_by first second => first.length + second.length

variable {order} {first second : List Item} {item other : Item}

theorem flip_le (order : TotalPreorder Item) (item other : Item) :
    order.flip.le item other = order.le other item := rfl

theorem le_of_compare_gt (greater : order.compare item other = .gt) :
    order.le item other = false := by
  revert greater
  rw [compare]
  cases order.le item other <;> cases order.le other item <;> simp

theorem le_of_compare_lt (less : order.compare item other = .lt) : order.le other item = false := by
  revert less
  rw [compare]
  cases order.le item other <;> cases order.le other item <;> simp

theorem same_of_compare_eq (equal : order.compare item other = .eq) :
    order.same item other = true := by
  revert equal
  rw [compare, same]
  cases order.le item other <;> cases order.le other item <;> simp

theorem increasing_flip : order.flip.Increasing first ↔ order.Decreasing first := Iff.rfl

theorem decreasing_flip : order.flip.Decreasing first ↔ order.Increasing first := Iff.rfl

theorem increasing_reverse : order.Increasing first.reverse ↔ order.Decreasing first :=
  pairwise_reverse

theorem decreasing_reverse : order.Decreasing first.reverse ↔ order.Increasing first :=
  pairwise_reverse

theorem Increasing.apart (increasing : order.Increasing first) : order.Apart first :=
  increasing.imp fun less => apart_of_less less

theorem Decreasing.apart (decreasing : order.Decreasing first) : order.Apart first :=
  decreasing.imp fun less => not_same_of_not less

theorem same_of_le (below : order.le item other = true) (above : order.le other item = true) :
    order.same item other = true := by
  simp [same, below, above]

/-- Equivalent items are equivalent to the same items. -/
theorem same_congr (equal : order.same item other = true) : order.same item = order.same other := by
  funext third
  rw [Bool.eq_iff_iff]
  exact ⟨same_trans ((same_comm order other item).trans equal), same_trans equal⟩

/-- An item below one that is not above a third is below that. -/
theorem less_trans (less : order.le other item = false) (below : order.le other third = true) :
    order.le third item = false := above_trans less below

theorem less_trans' (below : order.le item other = true) (less : order.le third other = false) :
    order.le third item = false := above_trans' less below

namespace KeepsFirst

theorem refl (items : List Item) : order.KeepsFirst items items := fun _ => rfl

theorem symm (keeps : order.KeepsFirst first second) : order.KeepsFirst second first :=
  fun item => (keeps item).symm

theorem trans (keeps : order.KeepsFirst first second) (then' : order.KeepsFirst second third) :
    order.KeepsFirst first third := fun item => (keeps item).trans (then' item)

theorem append (left : order.KeepsFirst first second) (right : order.KeepsFirst first' second') :
    order.KeepsFirst (first ++ first') (second ++ second') := fun item => by
  rw [find?_append, find?_append, left item, right item]

theorem cons (item : Item) (keeps : order.KeepsFirst first second) :
    order.KeepsFirst (item :: first) (item :: second) := append (refl [item]) keeps

theorem of_sameOrder (same : order.SameOrder first second) : order.KeepsFirst first second :=
  fun item => by
  rw [← head?_filter, ← head?_filter, same item]

/-- An item with an equivalent one before it does not count. -/
theorem drop (before after : List Item) (early : other ∈ before)
    (equal : order.same item other = true) :
    order.KeepsFirst (before ++ after) (before ++ item :: after) := by
  intro third
  rw [find?_append, find?_append, find?_cons]
  cases here : order.same third item with
  | false => rfl
  | true =>
    have found : (before.find? (order.same third)).isSome :=
      find?_isSome.mpr ⟨other, early, same_trans here equal⟩
    obtain ⟨kept, is⟩ := Option.isSome_iff_exists.mp found
    rw [is]
    rfl

theorem flip_iff : order.flip.KeepsFirst first second ↔ order.KeepsFirst first second := by
  have same (item : Item) : order.flip.same item = order.same item :=
    funext fun other => flip_same order item other
  simp only [KeepsFirst, same]

end KeepsFirst

theorem find?_same_of_apart (apart : order.Apart first) (member : item ∈ first) :
    first.find? (order.same item) = some item := by
  induction first with
  | nil => cases member
  | cons head tail ih =>
    obtain ⟨differs, rest⟩ := pairwise_cons.mp apart
    rcases mem_cons.mp member with rfl | later
    · simp [same_refl]
    · have away : order.same item head = false :=
        (same_comm order item head).trans (differs item later)
      rw [find?_cons, away]
      exact ih rest later

/-- The order does not matter in a list without equivalent items. -/
theorem keepsFirst_of_perm (perm : first.Perm second) (apart : order.Apart second) :
    order.KeepsFirst first second := by
  intro item
  cases found : first.find? (order.same item) with
  | none =>
    refine (find?_eq_none.mpr fun other member => ?_).symm
    exact find?_eq_none.mp found other (perm.mem_iff.mpr member)
  | some other =>
    have reached : order.same item other = true := find?_some found
    have inside := perm.mem_iff.mp (mem_of_find?_eq_some found)
    rw [same_congr reached, find?_same_of_apart apart inside]

theorem KeepsFirst.of_reverse (apart : order.Apart first) : order.KeepsFirst first.reverse first :=
  keepsFirst_of_perm (reverse_perm first) apart

theorem count_of_apart [DecidableEq Item] (apart : order.Apart first) (item : Item) :
    first.count item = if first.find? (order.same item) = some item then 1 else 0 := by
  have once : first.Nodup := apart.imp fun differ equal => by
    rw [equal, same_refl] at differ
    cases differ
  split
  case isTrue found => exact count_eq_one_of_mem once (mem_of_find?_eq_some found)
  case isFalse missing =>
    exact count_eq_zero.mpr fun member => missing (find?_same_of_apart apart member)

/-- Lists without equivalent items that begin the classes alike have the same items. -/
theorem KeepsFirst.perm (keeps : order.KeepsFirst first second) (apart : order.Apart first)
    (apart' : order.Apart second) : first.Perm second := by
  classical
  refine perm_iff_count.mpr fun item => ?_
  rw [count_of_apart apart, count_of_apart apart', keeps item]

theorem find?_firstsAfter (order : TotalPreorder Item) (seen items : List Item) (item : Item) :
    (order.firstsAfter seen items).find? (order.same item) =
      if seen.any (order.same item) then none else items.find? (order.same item) := by
  induction items generalizing seen with
  | nil => simp [firstsAfter]
  | cons head tail ih =>
    rw [firstsAfter]
    cases here : order.same item head with
    | false => split <;> simp [ih, here]
    | true =>
      rw [← same_congr here]
      split
      · simp [ih, here]
      · simp [here]

theorem firsts_keepsFirst (items : List Item) : order.KeepsFirst (order.firsts items) items :=
  fun item => by
  rw [firsts, find?_firstsAfter]
  rfl

theorem firstsAfter_apart (seen items : List Item) :
    order.Apart (order.firstsAfter seen items) := by
  induction items generalizing seen with
  | nil => exact .nil
  | cons head tail ih =>
    rw [firstsAfter]
    split
    · exact ih (head :: seen)
    · refine pairwise_cons.mpr ⟨fun later member => ?_, ih (head :: seen)⟩
      have missing := find?_firstsAfter order (head :: seen) tail head
      rw [if_pos (by simp [same_refl])] at missing
      simpa using find?_eq_none.mp missing later member

@[simp] theorem union_nil_left (second : List Item) : order.union [] second = second := by
  rw [union]

@[simp] theorem union_nil_right (first : List Item) : order.union first [] = first := by
  cases first <;> simp [union]

theorem union_less (less : order.le b a = false) (first second : List Item) :
    order.union (a :: first) (b :: second) = a :: order.union first (b :: second) := by
  rw [union, if_pos less]

theorem union_greater (greater : order.le a b = false) (first second : List Item) :
    order.union (a :: first) (b :: second) = b :: order.union (a :: first) second := by
  rw [union, if_neg (by simp [le_of_not greater]), if_pos greater]

theorem union_same (equal : order.same a b = true) (first second : List Item) :
    order.union (a :: first) (b :: second) = a :: order.union first second := by
  obtain ⟨below, above⟩ := Bool.and_eq_true_iff.mp equal
  rw [union, if_neg (by simp [above]), if_neg (by simp [below])]

theorem mem_union (member : item ∈ order.union first second) : item ∈ first ∨ item ∈ second := by
  fun_induction union order first second with
  | case1 second => exact .inr member
  | case2 first => exact .inl member
  | case3 a first b second less ih =>
    rcases mem_cons.mp member with rfl | later
    · exact .inl mem_cons_self
    · exact (ih later).imp_left (mem_cons_of_mem a)
  | case4 a first b second _ less ih =>
    rcases mem_cons.mp member with rfl | later
    · exact .inr mem_cons_self
    · exact (ih later).imp_right (mem_cons_of_mem b)
  | case5 a first b second _ _ ih =>
    rcases mem_cons.mp member with rfl | later
    · exact .inl mem_cons_self
    · exact (ih later).imp (mem_cons_of_mem a) (mem_cons_of_mem b)

theorem union_increasing (up : order.Increasing first) (up' : order.Increasing second) :
    order.Increasing (order.union first second) := by
  fun_induction union order first second with
  | case1 second => exact up'
  | case2 first => exact up
  | case3 a first b second less ih =>
    obtain ⟨above, rest⟩ := pairwise_cons.mp up
    refine pairwise_cons.mpr ⟨fun other member => ?_, ih rest up'⟩
    rcases mem_union member with own | their
    · exact above other own
    · rcases mem_cons.mp their with rfl | later
      · exact less
      · exact less_trans less (le_of_not ((pairwise_cons.mp up').1 other later))
  | case4 a first b second _ less ih =>
    obtain ⟨above, rest⟩ := pairwise_cons.mp up'
    refine pairwise_cons.mpr ⟨fun other member => ?_, ih up rest⟩
    rcases mem_union member with own | their
    · rcases mem_cons.mp own with rfl | later
      · exact less
      · exact less_trans less (le_of_not ((pairwise_cons.mp up).1 other later))
    · exact above other their
  | case5 a first b second notLess notGreater ih =>
    obtain ⟨above, rest⟩ := pairwise_cons.mp up
    obtain ⟨above', rest'⟩ := pairwise_cons.mp up'
    refine pairwise_cons.mpr ⟨fun other member => ?_, ih rest rest'⟩
    rcases mem_union member with own | their
    · exact above other own
    · exact less_trans' (Bool.eq_true_of_not_eq_false notGreater) (above' other their)

theorem union_keepsFirst (up : order.Increasing first) (second : List Item) :
    order.KeepsFirst (order.union first second) (first ++ second) := by
  fun_induction union order first second with
  | case1 second => exact .refl _
  | case2 first =>
    rw [append_nil]
    exact .refl _
  | case3 a first b second less ih => exact (ih (pairwise_cons.mp up).2).cons a
  | case4 a first b second _ less ih =>
    refine ((ih up).cons b).trans
      (.of_sameOrder (SameOrder.move (a :: first) second fun other member => ?_))
    rw [same_comm]
    rcases mem_cons.mp member with rfl | later
    · exact not_same_of_not less
    · exact not_same_of_not (less_trans less (le_of_not ((pairwise_cons.mp up).1 other later)))
  | case5 a first b second notLess notGreater ih =>
    have equal : order.same b a = true :=
      same_of_le (Bool.eq_true_of_not_eq_false notLess) (Bool.eq_true_of_not_eq_false notGreater)
    refine ((ih (pairwise_cons.mp up).2).cons a).trans ?_
    exact KeepsFirst.drop (a :: first) second mem_cons_self equal

end Otp.Library.TotalPreorder
