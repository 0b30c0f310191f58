import Otp.Lists.UniqueSort
import Otp.Library.UniqueOrder

/-! The merging functions of `usort` give the union of their lists, the one that keeps the
element of the first list where two compare equal. -/

namespace Otp.Lists

open List
open Otp.Library TotalPreorder

variable {Item : Type} {order : TotalPreorder Item} {le : Item → Item → Bool}

/-- A list from its first element on, which is left out if it compares equal to the last one
that was moved. -/
def unlessEqual (order : TotalPreorder Item) (hdM : Option Item) (h : Item) (t : List Item) :
    List Item :=
  if equalHd order.le h hdM then t else h :: t

/-- The last element moved is below all of the list. -/
def Past (order : TotalPreorder Item) (hdM : Option Item) (items : List Item) : Prop :=
  ∀ hd, hdM = some hd → ∀ item ∈ items, order.le item hd = false

theorem past_none : Past order none items := nofun

theorem past_some (up : order.Increasing (h :: t)) : Past order (some h) t := by
  intro hd same item member
  cases same
  exact (pairwise_cons.mp up).1 item member

theorem Past.above (past : Past order hdM (h1 :: t1)) (below : order.le h1 h2 = true) :
    equalHd order.le h2 hdM = false := by
  cases hdM with
  | none => rfl
  | some hd =>
    have less : order.le h2 hd = false := above_trans (past hd rfl h1 mem_cons_self) below
    simp [equalHd, less]

theorem Past.keeps (past : Past order hdM (h1 :: t1)) (below : order.le h1 h2 = true)
    (t : List Item) : unlessEqual order hdM h2 t = h2 :: t := by
  rw [unlessEqual, past.above below]
  rfl

theorem past_of_less (up : order.Increasing (h2 :: t2)) (less : order.le h2 h = false) :
    Past order (some h) (h2 :: t2) := by
  intro hd same item member
  cases same
  rcases mem_cons.mp member with rfl | later
  · exact less
  · exact above_trans less (le_of_not ((pairwise_cons.mp up).1 item later))

theorem unlessEqual_pos (equal : equalHd order.le h hdM = true) : unlessEqual order hdM h t = t :=
  if_pos equal

theorem unlessEqual_neg (differ : ¬equalHd order.le h hdM = true) :
    unlessEqual order hdM h t = h :: t := if_neg differ

/-- The first of two elements in order is taken, and the second is left out if it is equal. -/
theorem union_le (below : order.le h1 h2 = true) :
    order.union (h1 :: t1) (h2 :: t2) =
      h1 :: order.union t1 (unlessEqual order (some h1) h2 t2) := by
  cases less : order.le h2 h1 with
  | false =>
    rw [union_less less, unlessEqual_neg]
    simp [equalHd, less]
  | true =>
    rw [union_same (same_of_le below less), unlessEqual_pos]
    simp [equalHd, below, less]

theorem union_not_le (above : ¬order.le h1 h2 = true) :
    order.union (h1 :: t1) (h2 :: t2) = h2 :: order.union (h1 :: t1) t2 :=
  union_greater (Bool.eq_false_iff.mpr above) t1 t2

/-- Nothing was moved. -/
theorem umerge2_2_cons : umerge2_2 le t1 (h2 :: t2) m h1 =
    umerge2_1 le (h1 :: t1) t2 m none h2 := by
  rw [umerge2_2, umerge2_1]
  rfl

mutual

theorem umerge2_1_eq (up : order.Increasing t1) (past : Past order hdM t1) :
    umerge2_1 order.le t1 t2 m hdM h2 =
      (order.union t1 (unlessEqual order hdM h2 t2)).reverse ++ m := by
  match t1 with
  | [] =>
    rw [umerge2_1, union_nil_left, unlessEqual]
    split <;> simp
  | h1 :: t1 =>
    rw [umerge2_1]
    split
    case isTrue below =>
      rw [umerge2_1_eq (pairwise_cons.mp up).2 (past_some up), past.keeps below, union_le below]
      simp
    case isFalse above =>
    split
    case isTrue equal => rw [umerge2_2_eq up, unlessEqual_pos equal]
    case isFalse differ =>
      rw [umerge2_2_eq up, unlessEqual_neg differ, union_not_le above]
      simp

theorem umerge2_2_eq (up : order.Increasing (h1 :: t1)) :
    umerge2_2 order.le t1 t2 m h1 = (order.union (h1 :: t1) t2).reverse ++ m := by
  match t2 with
  | [] => simp [umerge2_2]
  | h2 :: t2 =>
    rw [umerge2_2_cons, umerge2_1_eq up past_none]
    rfl

end

/-! The fun is only asked whether `H2` is below the last element moved. -/

mutual

theorem ufmerge2_1_same
    (before : le hdM h2 = true) :
    ufmerge2_1 le t1 h2 t2 m hdM = umerge2_1 le t1 t2 m (some hdM) h2 := by
  have equal : equalHd le h2 (some hdM) = le h2 hdM := by simp [equalHd, before]
  match t1 with
  | [] => rw [ufmerge2_1, umerge2_1, equal]
  | h1 :: t1 =>
    rw [ufmerge2_1, umerge2_1, equal, ufmerge2_2_same, ufmerge2_2_same]
    split
    case isTrue below => exact ufmerge2_1_same below
    case isFalse => rfl

theorem ufmerge2_2_same : ufmerge2_2 le h1 t1 t2 m = umerge2_2 le t1 t2 m h1 := by
  match t2 with
  | [] => rw [ufmerge2_2, umerge2_2]
  | h2 :: t2 =>
    rw [ufmerge2_2, umerge2_2, ufmerge2_2_same]
    split
    case isTrue below => exact ufmerge2_1_same below
    case isFalse => rfl

end

/-- The union of decreasing lists. -/
abbrev unionDown (order : TotalPreorder Item) : List Item → List Item → List Item :=
  order.flip.union

@[simp] theorem unionDown_nil_left : unionDown order [] t2 = t2 := order.flip.union_nil_left t2

@[simp] theorem unionDown_nil_right : unionDown order t1 [] = t1 := order.flip.union_nil_right t1

theorem unionDown_greater (greater : order.le h1 h2 = false) :
    unionDown order (h1 :: t1) (h2 :: t2) = h1 :: unionDown order t1 (h2 :: t2) :=
  order.flip.union_less greater t1 t2

theorem unionDown_less (less : order.le h2 h1 = false) :
    unionDown order (h1 :: t1) (h2 :: t2) = h2 :: unionDown order (h1 :: t1) t2 :=
  order.flip.union_greater less t1 t2

theorem unionDown_equal (same : equal order.le h1 h2 = true) :
    unionDown order (h1 :: t1) (h2 :: t2) = h1 :: unionDown order t1 t2 :=
  order.flip.union_same ((flip_same order h1 h2).trans same) t1 t2

theorem less_of_le (below : order.le h1 h2 = true) (differ : ¬equal order.le h1 h2 = true) :
    order.le h2 h1 = false := by
  simpa [below] using differ

/-- An element equal to the first is above the second. -/
theorem second_below (down : order.Decreasing (h2M :: h2 :: t2))
    (same : equal order.le h1 h2M = true) :
    order.le h1 h2 = false ∧ order.Decreasing (h2 :: t2) := by
  obtain ⟨top, rest⟩ := pairwise_cons.mp down
  exact ⟨above_trans (top h2 mem_cons_self) (Bool.and_eq_true_iff.mp same).2, rest⟩

/-- The waiting element is not in the first list. -/
theorem rumerge2_2_cons (differ : ¬equal le h1 h2M = true) :
    rumerge2_2 le t1 (h2 :: t2) m h2M h1 = rumerge2_1 le (h1 :: t1) t2 (h2M :: m) h2 := by
  rw [rumerge2_2, rumerge2_1, if_neg differ]

mutual

theorem rumerge2_1_eq (down : order.Decreasing (h2 :: t2)) :
    rumerge2_1 order.le t1 t2 m h2 = (unionDown order t1 (h2 :: t2)).reverse ++ m := by
  match t1 with
  | [] => simp [rumerge2_1]
  | h1 :: t1 =>
    rw [rumerge2_1]
    split
    case isTrue below => exact rumerge2_2_eq below down
    case isFalse above =>
      rw [rumerge2_1_eq down, unionDown_greater (Bool.eq_false_iff.mpr above)]
      simp

theorem rumerge2_2_eq (below : order.le h1 h2M = true) (down : order.Decreasing (h2M :: t2)) :
    rumerge2_2 order.le t1 t2 m h2M h1 = (unionDown order (h1 :: t1) (h2M :: t2)).reverse ++ m := by
  by_cases same : equal order.le h1 h2M = true
  · rw [unionDown_equal same]
    match t2 with
    | [] => simp [rumerge2_2, same]
    | h2 :: t2 =>
      obtain ⟨above, rest⟩ := second_below down same
      rw [rumerge2_2, if_neg (Bool.eq_false_iff.mp above), if_pos same, rumerge2_1_eq rest]
      simp
  · rw [unionDown_less (less_of_le below same)]
    match t2 with
    | [] => simp [rumerge2_2, same]
    | h2 :: t2 =>
      rw [rumerge2_2_cons same, rumerge2_1_eq (pairwise_cons.mp down).2]
      simp

end

mutual

theorem rufmerge2_1_same : rufmerge2_1 le t1 h2 t2 m = rumerge2_1 le t1 t2 m h2 := by
  match t1 with
  | [] => rw [rufmerge2_1, rumerge2_1]
  | h1 :: t1 =>
    rw [rufmerge2_1, rumerge2_1, rufmerge2_1_same]
    split
    case isTrue below => exact rufmerge2_2_same below
    case isFalse => rfl

theorem rufmerge2_2_same (below : le h1 h2M = true) :
    rufmerge2_2 le h1 t1 t2 m h2M = rumerge2_2 le t1 t2 m h2M h1 := by
  have equal : equal le h1 h2M = le h2M h1 := by simp [below]
  match t2 with
  | [] => rw [rufmerge2_2, rumerge2_2, equal]
  | h2 :: t2 =>
    rw [rufmerge2_2, rumerge2_2, equal, rufmerge2_1_same, rufmerge2_1_same]
    split
    case isTrue next => exact rufmerge2_2_same next
    case isFalse => rfl

end

/-- The union of three lists, the first two first. -/
abbrev union3 (order : TotalPreorder Item) (first second third : List Item) : List Item :=
  order.union (order.union first second) third

/-- The element passed on compares equal to the last one moved. -/
def PassesEqual (order : TotalPreorder Item) (passed : Option Item → Item → Option Item) : Prop :=
  ∀ hdM h2, equalHd order.le h2 hdM = true → passed hdM h2 = some h2 ∨ passed hdM h2 = hdM

theorem equalHd_passed (passes : PassesEqual order passed)
    (equal : equalHd order.le h2 hdM = true) :
    equalHd order.le h (passed hdM h2) = equalHd order.le h hdM := by
  rcases passes hdM h2 equal with same | same
  · cases hdM with
    | none => cases equal
    | some hd =>
      rw [same, Bool.eq_iff_iff]
      have back : order.same hd h2 = true := (same_comm order hd h2).trans equal
      exact ⟨fun here => same_trans here equal, fun here => same_trans here back⟩
  · rw [same]

theorem Past.passed {passed : Option Item → Item → Option Item} (past : Past order hdM items)
    (passes : PassesEqual order passed)
    (equal : equalHd order.le h2 hdM = true) : Past order (passed hdM h2) items := by
  rcases passes hdM h2 equal with same | same
  · cases hdM with
    | none => cases equal
    | some hd =>
      rw [same]
      intro next is item member
      cases is
      exact above_trans' (past hd rfl item member) (Bool.and_eq_true_iff.mp equal).1
  · rw [same]
    exact past

/-- What is above the element that waits is above the last one moved. -/
theorem past_of_equal (equal : equalHd order.le h2 hdM = true) (up : order.Increasing (h2 :: t2)) :
    Past order hdM t2 := by
  intro hd same item member
  subst same
  exact above_trans' ((pairwise_cons.mp up).1 item member) (Bool.and_eq_true_iff.mp equal).2

/-- The last element moved is not above the next. -/
def NotAbove (order : TotalPreorder Item) (hdM : Option Item) (h : Item) : Prop :=
  ∀ hd, hdM = some hd → order.le hd h = true

theorem NotAbove.past (not : NotAbove order hdM h2) (differ : ¬equalHd order.le h2 hdM = true)
    (up : order.Increasing (h2 :: t2)) : Past order hdM (h2 :: t2) := by
  cases hdM with
  | none => exact past_none
  | some hd =>
    have below := not hd rfl
    refine past_of_less up ?_
    simpa [equalHd, below] using differ

theorem umerge3_12_3_cons : umerge3_12_3 le passed t1 h1 t2 h2 m (h3 :: t3) =
    umerge3_12 le passed t1 h1 t2 h2 m t3 h3 none := by
  rw [umerge3_12_3, umerge3_12]
  rfl

theorem umerge3_21_3_cons : umerge3_21_3 le passed t1 h1 t2 h2 m (h3 :: t3) =
    umerge3_21 le passed t1 h1 t2 h2 m t3 h3 none := by
  rw [umerge3_21_3, umerge3_21]
  rfl

mutual

theorem umerge3_1_eq (passes : PassesEqual order passed)
    (up : order.Increasing t1) (up2 : order.Increasing (h2 :: t2)) (past : Past order hdM t1)
    (not : NotAbove order hdM h2) :
    umerge3_1 order.le passed t1 hdM t2 h2 m t3 h3 =
      (union3 order t1 (unlessEqual order hdM h2 t2) (unlessEqual order hdM h3 t3)).reverse ++
        m := by
  match t1 with
  | [] =>
    rw [umerge3_1, ← umerge2_1, union3, union_nil_left]
    split
    case isTrue equal =>
      rw [umerge2_1_eq (pairwise_cons.mp up2).2 (past_of_equal equal up2), unlessEqual_pos equal]
    case isFalse differ => rw [umerge2_1_eq up2 (not.past differ up2), unlessEqual_neg differ]
  | h1 :: t1 =>
    rw [umerge3_1]
    split
    case isTrue below => rw [umerge3_12_eq passes below up up2 past, past.keeps below]
    case isFalse above =>
    split
    case isTrue equal =>
      rw [umerge3_2_eq passes up (pairwise_cons.mp up2).2 (past.passed passes equal)
        ((past_of_equal equal up2).passed passes equal), unlessEqual_pos equal, unlessEqual,
        equalHd_passed passes equal, ← unlessEqual]
    case isFalse differ =>
      rw [umerge3_21_eq passes above up up2 (not.past differ up2), unlessEqual_neg differ]
termination_by (t1, t2, t3, 0)

theorem umerge3_2_eq (passes : PassesEqual order passed) (up : order.Increasing (h1 :: t1))
    (up2 : order.Increasing t2) (past : Past order hdM (h1 :: t1)) (past2 : Past order hdM t2) :
    umerge3_2 order.le passed t1 h1 t2 hdM m t3 h3 =
      (union3 order (h1 :: t1) t2 (unlessEqual order hdM h3 t3)).reverse ++ m := by
  match t2 with
  | [] => rw [umerge3_2, ← umerge2_1, umerge2_1_eq up past, union3, union_nil_right]
  | h2 :: t2 =>
    rw [umerge3_2]
    split
    case isTrue below => exact umerge3_12_eq passes below up up2 past
    case isFalse above => exact umerge3_21_eq passes above up up2 past2
termination_by (t1, t2, t3, 0)

theorem umerge3_12_eq (passes : PassesEqual order passed)
    (below : order.le h1 h2 = true) (up : order.Increasing (h1 :: t1))
    (up2 : order.Increasing (h2 :: t2)) (past : Past order hdM (h1 :: t1)) :
    umerge3_12 order.le passed t1 h1 t2 h2 m t3 h3 hdM =
      (union3 order (h1 :: t1) (h2 :: t2) (unlessEqual order hdM h3 t3)).reverse ++ m := by
  rw [umerge3_12]
  split
  case isTrue next =>
    rw [umerge3_1_eq passes (pairwise_cons.mp up).2 up2 (past_some up)
      (by rintro hd ⟨⟩; exact below), past.keeps next, union3, union3, union_le below,
        union_le next]
    simp
  case isFalse last =>
  split
  case isTrue equal => rw [umerge3_12_3_eq passes below up up2, unlessEqual_pos equal]
  case isFalse differ =>
    rw [umerge3_12_3_eq passes below up up2, unlessEqual_neg differ, union3, union3, union_le below,
      union_not_le last]
    simp
termination_by (t1, t2, t3, 2)

theorem umerge3_12_3_eq (passes : PassesEqual order passed)
    (below : order.le h1 h2 = true) (up : order.Increasing (h1 :: t1))
    (up2 : order.Increasing (h2 :: t2)) :
    umerge3_12_3 order.le passed t1 h1 t2 h2 m t3 =
      (union3 order (h1 :: t1) (h2 :: t2) t3).reverse ++ m := by
  match t3 with
  | [] =>
    rw [umerge3_12_3, umerge2_1_eq (pairwise_cons.mp up).2 (past_some up), union3,
      union_nil_right, union_le below]
    simp
  | h3 :: t3 => exact umerge3_12_3_cons.trans (umerge3_12_eq passes below up up2 past_none)
termination_by (t1, t2, t3, 1)

theorem umerge3_21_eq (passes : PassesEqual order passed)
    (above : ¬order.le h1 h2 = true) (up : order.Increasing (h1 :: t1))
    (up2 : order.Increasing (h2 :: t2)) (past : Past order hdM (h2 :: t2)) :
    umerge3_21 order.le passed t1 h1 t2 h2 m t3 h3 hdM =
      (union3 order (h1 :: t1) (h2 :: t2) (unlessEqual order hdM h3 t3)).reverse ++ m := by
  rw [umerge3_21]
  split
  case isTrue next =>
    rw [umerge3_2_eq passes up (pairwise_cons.mp up2).2
      (past_of_less up (Bool.eq_false_iff.mpr above)) (past_some up2),
      past.keeps next, union3, union3, union_not_le above, union_le next]
    simp
  case isFalse last =>
  split
  case isTrue equal => rw [umerge3_21_3_eq passes above up up2, unlessEqual_pos equal]
  case isFalse differ =>
    rw [umerge3_21_3_eq passes above up up2, unlessEqual_neg differ, union3, union3,
      union_not_le above, union_not_le last]
    simp
termination_by (t1, t2, t3, 2)

theorem umerge3_21_3_eq (passes : PassesEqual order passed)
    (above : ¬order.le h1 h2 = true) (up : order.Increasing (h1 :: t1))
    (up2 : order.Increasing (h2 :: t2)) :
    umerge3_21_3 order.le passed t1 h1 t2 h2 m t3 =
      (union3 order (h1 :: t1) (h2 :: t2) t3).reverse ++ m := by
  match t3 with
  | [] =>
    rw [umerge3_21_3, umerge2_2_eq up, union3, union_nil_right, union_not_le above]
    simp
  | h3 :: t3 => exact umerge3_21_3_cons.trans (umerge3_21_eq passes above up up2 past_none)
termination_by (t1, t2, t3, 1)

end

abbrev unionDown3 (order : TotalPreorder Item) (first second third : List Item) : List Item :=
  unionDown order (unionDown order first second) third

/-- The first element of a union is one of the two that are not below the other. -/
theorem unionDown_head (below : order.le h1 h2 = true) :
    ∃ h t, unionDown order (h1 :: t1) (h2 :: t2) = h :: t ∧ order.same h h2 = true := by
  cases less : order.le h2 h1 with
  | false => exact ⟨_, _, unionDown_less less, order.same_refl h2⟩
  | true => exact ⟨_, _, unionDown_equal (same_of_le below less), same_of_le below less⟩

/-- A third element above both is taken. -/
theorem unionDown3_third (below : order.le h1 h2 = true) (less : order.le h3 h2 = false) :
    unionDown3 order (h1 :: t1) (h2 :: t2) (h3 :: t3) =
      h3 :: unionDown3 order (h1 :: t1) (h2 :: t2) t3 := by
  obtain ⟨h, t, shape, same⟩ := unionDown_head below
  rw [unionDown3, unionDown3, shape,
    unionDown_less (above_trans' less (Bool.and_eq_true_iff.mp same).1)]

/-- A third element that compares equal to the greater one is left out. -/
theorem unionDown3_equal (below : order.le h1 h2 = true) (same : equal order.le h2 h3 = true)
    (down : order.Decreasing (h3 :: t3)) :
    unionDown3 order (h1 :: t1) (h2 :: t2) (h3 :: t3) =
      unionDown3 order (h1 :: t1) (h2 :: t2) t3 := by
  obtain ⟨h, t, shape, near⟩ := unionDown_head below
  have equal : order.same h h3 = true := same_trans near same
  rw [unionDown3, unionDown3, shape, unionDown_equal equal]
  match t3 with
  | [] => simp
  | _ :: _ => rw [unionDown_greater (second_below down equal).1]

theorem rumerge3_12b_eq :
    rumerge3_12b le t1 h1 t2 h2 m t3 h3 h2M = rumerge3_12a le t1 h1 t2 h2 (h2M :: m) t3 h3 := by
  rw [rumerge3_12b, rumerge3_12a]

/-! The waiting element is moved where the element beside it is not its equal. -/

theorem rumerge3_2_nil (differ : ¬equal le h1 h2M = true) :
    rumerge3_2 le t1 [] h2M m t3 h3 h1 = rumerge2_1 le (h1 :: t1) t3 (h2M :: m) h3 := by
  rw [rumerge3_2, rumerge2_1, if_neg differ]

theorem rumerge3_2_cons (differ : ¬equal le h1 h2M = true) :
    rumerge3_2 le t1 (h2 :: t2) h2M m t3 h3 h1 =
      rumerge3_1 le (h1 :: t1) t2 h2 (h2M :: m) t3 h3 := by
  rw [rumerge3_2, rumerge3_1, if_neg differ, rumerge3_12b_eq]

theorem rumerge3_12_3_cons (differ : ¬equal le h2 h3M = true) :
    rumerge3_12_3 le t1 t2 h2 m (h3 :: t3) h3M h1 =
      rumerge3_12a le t1 h1 t2 h2 (h3M :: m) t3 h3 := by
  rw [rumerge3_12_3, rumerge3_12a, if_neg differ]

theorem rumerge3_21_3_cons (above : le h1 h2 = false) (differ : ¬equal le h1 h3M = true) :
    rumerge3_21_3 le t1 t2 h2 m (h3 :: t3) h3M h1 =
      rumerge3_1 le (h1 :: t1) t2 h2 (h3M :: m) t3 h3 := by
  rw [rumerge3_21_3, rumerge3_1, if_neg differ, if_neg (Bool.eq_false_iff.mp above)]

mutual

theorem rumerge3_1_eq (down2 : order.Decreasing (h2 :: t2)) (down3 : order.Decreasing (h3 :: t3)) :
    rumerge3_1 order.le t1 t2 h2 m t3 h3 =
      (unionDown3 order t1 (h2 :: t2) (h3 :: t3)).reverse ++ m := by
  match t1 with
  | [] => rw [rumerge3_1, ← rumerge2_1, rumerge2_1_eq down3, unionDown3, unionDown_nil_left]
  | h1 :: t1 =>
    rw [rumerge3_1]
    split
    case isTrue below => exact rumerge3_12a_eq below down2 down3
    case isFalse above =>
    have above := Bool.eq_false_iff.mpr above
    split
    case isTrue next => exact rumerge3_21_3_eq above next down2 down3
    case isFalse last =>
      rw [rumerge3_1_eq down2 down3, unionDown3, unionDown3, unionDown_greater above,
        unionDown_greater (Bool.eq_false_iff.mpr last)]
      simp
termination_by (t2, t3, t1, 0)

theorem rumerge3_12a_eq
    (below : order.le h1 h2 = true) (down2 : order.Decreasing (h2 :: t2))
    (down3 : order.Decreasing (h3 :: t3)) :
    rumerge3_12a order.le t1 h1 t2 h2 m t3 h3 =
      (unionDown3 order (h1 :: t1) (h2 :: t2) (h3 :: t3)).reverse ++ m := by
  rw [rumerge3_12a]
  split
  case isTrue next => exact rumerge3_12_3_eq below next down2 down3
  case isFalse last => exact rumerge3_2_eq below (Bool.eq_false_iff.mpr last) down2 down3
termination_by (t2, t3, t1, 2)

theorem rumerge3_2_eq (below : order.le h1 h2M = true) (above3 : order.le h2M h3 = false)
    (down2 : order.Decreasing (h2M :: t2)) (down3 : order.Decreasing (h3 :: t3)) :
    rumerge3_2 order.le t1 t2 h2M m t3 h3 h1 =
      (unionDown3 order (h1 :: t1) (h2M :: t2) (h3 :: t3)).reverse ++ m := by
  by_cases same : equal order.le h1 h2M = true
  · rw [unionDown3, unionDown_equal same,
      unionDown_greater (above_trans above3 (Bool.and_eq_true_iff.mp same).2)]
    match t2 with
    | [] =>
      rw [rumerge3_2, if_pos same, rumerge2_1_eq down3, unionDown_nil_right]
      simp
    | h2 :: t2 =>
      obtain ⟨above, rest⟩ := second_below down2 same
      rw [rumerge3_2, if_neg (Bool.eq_false_iff.mp above), if_pos same, rumerge3_1_eq rest down3]
      simp
  · rw [unionDown3, unionDown_less (less_of_le below same), unionDown_greater above3]
    match t2 with
    | [] =>
      rw [rumerge3_2_nil same, rumerge2_1_eq down3, unionDown_nil_right]
      simp
    | h2 :: t2 =>
      rw [rumerge3_2_cons same, rumerge3_1_eq (pairwise_cons.mp down2).2 down3]
      simp
termination_by (t2, t3, t1, 1)

theorem rumerge3_12_3_eq (below : order.le h1 h2 = true) (below3 : order.le h2 h3M = true)
    (down2 : order.Decreasing (h2 :: t2)) (down3 : order.Decreasing (h3M :: t3)) :
    rumerge3_12_3 order.le t1 t2 h2 m t3 h3M h1 =
      (unionDown3 order (h1 :: t1) (h2 :: t2) (h3M :: t3)).reverse ++ m := by
  by_cases same : equal order.le h2 h3M = true
  · rw [unionDown3_equal below same down3]
    match t3 with
    | [] =>
      rw [rumerge3_12_3, if_pos same, rumerge2_2_eq below down2, unionDown3, unionDown_nil_right]
    | h3 :: t3 =>
      obtain ⟨last, rest⟩ := second_below down3 same
      rw [rumerge3_12_3, if_neg (Bool.eq_false_iff.mp last), if_pos same,
        rumerge3_2_eq below last down2 rest]
  · rw [unionDown3_third below (less_of_le below3 same)]
    match t3 with
    | [] =>
      rw [rumerge3_12_3, if_neg same, rumerge2_2_eq below down2, unionDown3, unionDown_nil_right]
      simp
    | h3 :: t3 =>
      rw [rumerge3_12_3_cons same, rumerge3_12a_eq below down2 (pairwise_cons.mp down3).2]
      simp
termination_by (t2, t3, t1, 1)

theorem rumerge3_21_3_eq (above : order.le h1 h2 = false) (below3 : order.le h1 h3M = true)
    (down2 : order.Decreasing (h2 :: t2)) (down3 : order.Decreasing (h3M :: t3)) :
    rumerge3_21_3 order.le t1 t2 h2 m t3 h3M h1 =
      (unionDown3 order (h1 :: t1) (h2 :: t2) (h3M :: t3)).reverse ++ m := by
  rw [unionDown3, unionDown_greater above]
  by_cases same : equal order.le h1 h3M = true
  · rw [unionDown_equal same]
    match t3 with
    | [] =>
      rw [rumerge3_21_3, if_pos same, rumerge2_1_eq down2, unionDown_nil_right]
      simp
    | h3 :: t3 =>
      obtain ⟨last, rest⟩ := second_below down3 same
      rw [rumerge3_21_3, if_neg (Bool.eq_false_iff.mp last), if_pos same, rumerge3_1_eq down2 rest]
      simp
  · rw [unionDown_less (less_of_le below3 same)]
    match t3 with
    | [] =>
      rw [rumerge3_21_3, if_neg same, rumerge2_1_eq down2, unionDown_nil_right]
      simp
    | h3 :: t3 =>
      rw [rumerge3_21_3_cons above same, rumerge3_1_eq down2 (pairwise_cons.mp down3).2, unionDown3,
        unionDown_greater above]
      simp
termination_by (t2, t3, t1, 1)

end

end Otp.Lists
