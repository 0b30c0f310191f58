import Mathlib.Data.List.Sort
import Mathlib.Data.List.Count

/-! Total preorders, lists in order, and lists that differ only in how items that
are not equivalent stand to each other. A list in order that differs so from
another is its stable sort. -/

namespace Otp.Library

open List

/-- An order in which any two items compare; items may be equivalent without
being equal. -/
structure TotalPreorder (Item : Type) where
  le : Item → Item → Bool
  total : ∀ first second, le first second = true ∨ le second first = true
  trans : ∀ first second third, le first second = true → le second third = true →
    le first third = true

namespace TotalPreorder

variable {Item : Type} (order : TotalPreorder Item)

/-- Equivalent items. -/
def same (first second : Item) : Bool := order.le first second && order.le second first

def Ascending (items : List Item) : Prop :=
  items.Pairwise fun first second => order.le first second = true

def Descending (items : List Item) : Prop :=
  items.Pairwise fun first second => order.le second first = true

/-- Equivalent items stand in the same order in both lists. -/
def SameOrder (first second : List Item) : Prop :=
  ∀ item, first.filter (order.same item) = second.filter (order.same item)

/-- The same items from the greatest on. -/
def flip : TotalPreorder Item where
  le first second := order.le second first
  total first second := order.total second first
  trans first second third early late := order.trans third second first late early

variable {order} {first second : List Item} {item other : Item}

section

variable (order : TotalPreorder Item)

@[simp] theorem flip_same (item other : Item) :
    order.flip.same item other = order.same item other := Bool.and_comm _ _

theorem refl (item : Item) : order.le item item = true := (order.total item item).elim id id

theorem same_refl (item : Item) : order.same item item = true := by
  simp [same, order.refl]

theorem same_comm (item other : Item) : order.same item other = order.same other item :=
  Bool.and_comm _ _

end

theorem le_of_not (above : order.le item other = false) : order.le other item = true :=
  (order.total other item).resolve_right (by simp [above])

theorem not_same_of_not (above : order.le item other = false) : order.same item other = false := by
  simp [same, above]

theorem apart_of_less (less : order.le other item = false) : order.same item other = false :=
  (order.same_comm item other).trans (not_same_of_not less)

theorem same_trans (early : order.same item other = true) (late : order.same other third = true) :
    order.same item third = true := by
  simp only [same, Bool.and_eq_true] at *
  exact ⟨order.trans _ _ _ early.1 late.1, order.trans _ _ _ late.2 early.2⟩

/-- What is above an item stays above what is below that item. -/
theorem above_trans (above : order.le item other = false) (below : order.le item third = true) :
    order.le third other = false := by
  by_contra reaches
  rw [order.trans _ _ _ below (Bool.eq_true_of_not_eq_false reaches)] at above
  cases above

theorem above_trans' (above : order.le item other = false) (below : order.le third other = true) :
    order.le item third = false := @above_trans _ order.flip _ _ _ above below

theorem descending_reverse : order.Descending first.reverse ↔ order.Ascending first :=
  pairwise_reverse

theorem ascending_reverse : order.Ascending first.reverse ↔ order.Descending first :=
  pairwise_reverse

namespace SameOrder

theorem refl (items : List Item) : order.SameOrder items items := fun _ => rfl

theorem symm (same : order.SameOrder first second) : order.SameOrder second first :=
  fun item => (same item).symm

theorem trans (same : order.SameOrder first second) (then' : order.SameOrder second third) :
    order.SameOrder first third := fun item => (same item).trans (then' item)

theorem append (left : order.SameOrder first second) (right : order.SameOrder first' second') :
    order.SameOrder (first ++ first') (second ++ second') := fun item => by
  rw [filter_append, filter_append, left item, right item]

theorem cons (item : Item) (same : order.SameOrder first second) :
    order.SameOrder (item :: first) (item :: second) := append (refl [item]) same

theorem reverse (same : order.SameOrder first second) :
    order.SameOrder first.reverse second.reverse := fun item => by
  rw [filter_reverse, filter_reverse, same item]

/-- An item passes items that are not equivalent to it. -/
theorem pass (apart : ∀ other ∈ items, order.same item other = false) :
    order.SameOrder (item :: items) (items ++ [item]) := by
  intro third
  rw [filter_cons]
  split
  case isTrue here =>
    have none : items.filter (order.same third) = [] := by
      refine filter_eq_nil_iff.mpr fun other member reaches => ?_
      have both := same_trans ((same_comm order item third).trans here) reaches
      rw [apart other member] at both
      cases both
    simp [none, here]
  case isFalse away => simp [away]

/-- An item moves between lists of items that are not equivalent to it. -/
theorem move (items rest : List Item) (apart : ∀ other ∈ items, order.same item other = false) :
    order.SameOrder (item :: (items ++ rest)) (items ++ item :: rest) := by
  have step := (pass apart).append (refl rest)
  simpa using step

theorem perm (same : order.SameOrder first second) : first.Perm second := by
  classical
  refine perm_iff_count.mpr fun item => ?_
  have kept (items : List Item) : (items.filter (order.same item)).count item = items.count item :=
    count_filter (same_refl order item)
  rw [← kept first, ← kept second, same item]

end SameOrder

/-- The order of the values a function takes. -/
def comap (order : TotalPreorder Key) (key : Item → Key) : TotalPreorder Item where
  le first second := order.le (key first) (key second)
  total first second := order.total (key first) (key second)
  trans first second third := order.trans (key first) (key second) (key third)

/-- A map that keeps classes keeps the order in each. -/
theorem SameOrder.map {order' : TotalPreorder Item'}
    (f : Item → Item') (lift : Item' → Item) (kept : order.SameOrder first second)
    (agree : ∀ item, ∀ other ∈ second, order'.same item (f other) = order.same (lift item) other) :
    order'.SameOrder (first.map f) (second.map f) := by
  intro item
  rw [filter_map, filter_map]
  have here : second.filter (order'.same item ∘ f) = second.filter (order.same (lift item)) :=
    filter_congr fun other member => agree item other member
  have there : first.filter (order'.same item ∘ f) = first.filter (order.same (lift item)) :=
    filter_congr fun other member => agree item other (kept.perm.mem_iff.mp member)
  rw [here, there, kept (lift item)]

theorem ascending_merge (asc : order.Ascending first) (asc' : order.Ascending second) :
    order.Ascending (first.merge second order.le) :=
  pairwise_merge order.trans
    (fun left right => by simpa using order.total left right) first second asc asc'

theorem sameOrder_merge (asc : order.Ascending first) (second : List Item) :
    order.SameOrder (first.merge second order.le) (first ++ second) := by
  induction first generalizing second with
  | nil =>
    rw [nil_merge]
    exact .refl _
  | cons head tail ih =>
    obtain ⟨below, rest⟩ := pairwise_cons.mp asc
    induction second with
    | nil =>
      rw [merge_right, append_nil]
      exact .refl _
    | cons head' tail' ih' =>
      rw [cons_merge_cons]
      split
      · exact (ih rest (head' :: tail')).cons head
      case isFalse above =>
        have above : order.le head head' = false := Bool.eq_false_iff.mpr above
        refine (ih'.cons head').trans (SameOrder.move (head :: tail) tail' ?_)
        intro other member
        rw [same_comm]
        rcases mem_cons.mp member with rfl | later
        · exact not_same_of_not above
        · exact not_same_of_not (above_trans above (below other later))

/-- The comparison of lists that are merged from their greatest items. -/
def gt (order : TotalPreorder Item) (first second : Item) : Bool := !order.le first second

/-- A merge from the greatest items is one in the flipped order. -/
theorem merge_gt (first second : List Item) :
    first.merge second order.gt = second.merge first order.flip.le := by
  induction first generalizing second with
  | nil => rw [nil_merge, merge_right]
  | cons head tail ih =>
    induction second with
    | nil => rw [nil_merge, merge_right]
    | cons head' tail' ih' =>
      rw [cons_merge_cons, cons_merge_cons, ih, ih']
      change (if (!order.le head head') = true then _ else _) =
        if order.le head head' = true then _ else _
      cases order.le head head' <;> rfl

theorem descending_merge (desc : order.Descending first) (desc' : order.Descending second) :
    order.Descending (first.merge second order.gt) := by
  rw [merge_gt]
  exact @ascending_merge _ order.flip _ _ desc' desc

theorem sameOrder_merge_gt (first : List Item) (desc : order.Descending second) :
    order.SameOrder (first.merge second order.gt) (second ++ first) := by
  intro item
  have same : order.flip.same item = order.same item := funext (flip_same order item)
  rw [merge_gt, ← same]
  exact @sameOrder_merge _ order.flip _ desc first item

/-- Items move to the front one by one, past items they may pass. -/
inductive Shuffle (passes : Item → Item → Prop) : List Item → List Item → Prop where
  | done (items : List Item) : Shuffle passes items items
  | move (before between after : List Item) (item : Item)
      (free : ∀ other ∈ between, passes item other)
      (rest : Shuffle passes (before ++ item :: (between ++ after)) final) :
      Shuffle passes (before ++ (between ++ item :: after)) final

theorem Shuffle.perm (shuffle : Shuffle passes first second) : second.Perm first := by
  induction shuffle with
  | done items => exact .refl items
  | move before between after item free rest ih =>
    exact ih.trans (perm_middle.symm.append_left before)

theorem Shuffle.sameOrder (order : TotalPreorder Item)
    (apart : ∀ item other, passes item other → order.same item other = false)
    (shuffle : Shuffle passes first second) : order.SameOrder second first := by
  induction shuffle with
  | done items => exact .refl items
  | move before between after item free rest ih =>
    refine ih.trans ((SameOrder.refl before).append ?_)
    exact SameOrder.move between after fun other member => apart item other (free other member)

end TotalPreorder

end Otp.Library
