import Mathlib.Data.List.Dedup

/-! Lists in which equal elements stand together, read as a sequence of groups. -/

namespace Otp.Library

open List

variable {Item : Type} {items passed group behind : List Item} {item : Item}

/-- Nothing else stands between two occurrences of an item. -/
def Contiguous (items : List Item) : Prop :=
  ∀ item between, [item, between, item].Sublist items → between = item

theorem contiguous_nil : Contiguous ([] : List Item) := by
  intro item between sub
  cases sub

theorem Contiguous.sublist (contiguous : Contiguous items) (sub : others.Sublist items) :
    Contiguous others := fun item between inner => contiguous item between (inner.trans sub)

/-- Behind its group an item does not come back. -/
theorem Contiguous.not_mem_behind (contiguous : Contiguous (passed ++ group ++ behind))
    (inside : ∀ other ∈ group, other = item) (nonempty : group ≠ [])
    (stop : ∀ other rest, behind = other :: rest → other ≠ item) : item ∉ behind := by
  intro again
  obtain ⟨first, tail, rfl⟩ := exists_cons_of_ne_nil nonempty
  have start : first = item := inside first mem_cons_self
  cases behind with
  | nil => cases again
  | cons other rest =>
    have differs := stop other rest rfl
    have later : item ∈ rest := (mem_cons.mp again).resolve_left fun same => differs same.symm
    apply differs
    apply contiguous item other
    have pair : [other, item].Sublist (other :: rest) :=
      List.Sublist.cons_cons other (singleton_sublist.mpr later)
    have single : [item].Sublist (passed ++ first :: tail) :=
      singleton_sublist.mpr (by simp [start])
    exact single.append pair

/-- Items on both sides of a group differ. -/
theorem Contiguous.disjoint (contiguous : Contiguous (passed ++ group ++ behind))
    (inside : item ∈ group) (outside : item ∉ passed) : passed.Disjoint behind := by
  intro other before after
  have single : [item].Sublist group := singleton_sublist.mpr inside
  have three : [other, item, other].Sublist (passed ++ group ++ behind) :=
    ((singleton_sublist.mpr before).append single).append (singleton_sublist.mpr after)
  exact outside (contiguous other item three ▸ before)

theorem sublist_of_not_mem_left (sub : (item :: others).Sublist (passed ++ behind))
    (outside : item ∉ passed) : (item :: others).Sublist behind := by
  obtain ⟨first, second, split, left, right⟩ := sublist_append_iff.mp sub
  cases first with
  | nil =>
    rw [split]
    exact right
  | cons head tail =>
    rw [cons_append, cons.injEq] at split
    exact absurd (left.subset (split.1 ▸ mem_cons_self)) outside

theorem sublist_of_not_mem_right (sub : (others ++ [item]).Sublist (passed ++ behind))
    (outside : item ∉ behind) : (others ++ [item]).Sublist passed := by
  have turned := reverse_sublist.mpr sub
  rw [reverse_append, reverse_append] at turned
  have kept := sublist_of_not_mem_left turned (by simpa using outside)
  rw [← reverse_sublist]
  simpa using kept

/-- A group may be replaced by another of the same item, in place or at the end. -/
theorem Contiguous.replace (contiguous : Contiguous (passed ++ group ++ behind))
    (before : item ∉ passed) (after : item ∉ behind) (inside : ∀ other ∈ group, other = item)
    (new : ∀ other ∈ group', other = item) (place : group ≠ [] ∨ behind = []) :
    Contiguous (passed ++ group' ++ behind) := by
  classical
  intro outer between sub
  by_cases own : outer = item
  · subst own
    rw [append_assoc] at sub
    have right := sublist_of_not_mem_left sub before
    have middle := @sublist_of_not_mem_right _ _ _ _ [outer, between] right after
    exact new between (middle.subset (by simp))
  by_cases owned : between = item
  · subst owned
    have other : outer ∉ group' := fun member => own (new outer member)
    have front : outer ∈ passed := by
      by_contra missing
      rw [append_assoc] at sub
      have right := sublist_of_not_mem_left (sublist_of_not_mem_left sub missing) other
      exact after (right.subset (by simp))
    have back : outer ∈ behind := by
      by_contra missing
      have left := @sublist_of_not_mem_right _ _ _ _ [outer, between] sub missing
      have first := @sublist_of_not_mem_right _ _ _ _ [outer, between] left other
      exact before (first.subset (by simp))
    rcases place with nonempty | bare
    · obtain ⟨first, tail, rfl⟩ := exists_cons_of_ne_nil nonempty
      have start : between ∈ first :: tail := inside first mem_cons_self ▸ mem_cons_self
      exact absurd back (contiguous.disjoint start before front)
    · rw [bare] at back
      cases back
  · have strip (list : List Item) (all : ∀ other ∈ list, other = item) :
        list.filter (fun other => decide (other ≠ item)) = [] := by
      simpa using all
    have same : [outer, between, outer].filter (fun other => decide (other ≠ item)) =
        [outer, between, outer] := by simp [own, owned]
    have thinned := sub.filter fun other => decide (other ≠ item)
    rw [same, filter_append, filter_append, strip group' new, append_nil] at thinned
    apply contiguous outer between
    refine thinned.trans ?_
    rw [append_assoc]
    exact filter_sublist.append (filter_sublist.trans (sublist_append_right _ _))

/-- Lists without a common item can be joined. -/
theorem Contiguous.append (first : Contiguous items) (second : Contiguous others)
    (disjoint : items.Disjoint others) : Contiguous (items ++ others) := by
  intro item between sub
  by_cases inside : item ∈ others
  · have outside : item ∉ items := fun member => disjoint member inside
    exact second item between (sublist_of_not_mem_left sub outside)
  · have ends : ([item, between] ++ [item]).Sublist (items ++ others) := sub
    exact first item between (sublist_of_not_mem_right ends inside)

/-- In a list without repetitions, at most one item takes the place of a group. -/
theorem nodup_replace (nodup : (passed ++ group ++ behind).Nodup)
    (before : item ∉ passed) (after : item ∉ behind) (new : ∀ other ∈ group', other = item)
    (short : group'.length ≤ 1) : (passed ++ group' ++ behind).Nodup := by
  have outside : (passed ++ behind).Nodup :=
    nodup.sublist ((sublist_append_left passed group).append (List.Sublist.refl behind))
  obtain ⟨first, last, disjoint⟩ := nodup_append'.mp outside
  have alone : group'.Nodup := by
    match group', short with
    | [], _ => exact nodup_nil
    | [other], _ => exact nodup_singleton other
  rw [append_assoc]
  refine first.append (alone.append last ?_) ?_
  · intro other here later
    exact after (new other here ▸ later)
  · intro other early later
    rcases mem_append.mp later with here | late
    · exact before (new other here ▸ early)
    · exact disjoint early late

end Otp.Library
