import Mathlib.Data.List.Pairwise
import Mathlib.Order.Basic

/-! Lists of items sorted strictly by key under a three-way comparison, read as
finite maps. Keys that compare equal need not be the same key. -/

namespace Otp.Library

open List hiding after

variable {Key Item : Type} {cmp : Key → Key → Ordering} {keyOf : Item → Key}

section

variable (cmp : Key → Key → Ordering) (keyOf : Item → Key) (items : List Item)

/-- Strictly increasing keys. -/
def Sorted : Prop :=
  items.Pairwise fun first second => cmp (keyOf first) (keyOf second) = .lt

/-- The item whose key compares equal to `key`. -/
def lookup (key : Key) : Option Item :=
  items.find? fun item => cmp key (keyOf item) == .eq

/-- The items whose keys compare different from `key`. -/
def remove (key : Key) : List Item :=
  items.filter fun item => cmp key (keyOf item) != .eq

/-- The items with one under its key, in place of any other. -/
def put (item : Item) : List Item :=
  (items.filter fun other => cmp (keyOf item) (keyOf other) == .gt) ++
    item :: items.filter fun other => cmp (keyOf item) (keyOf other) == .lt

/-- No two items have keys that compare equal. -/
def Distinct : Prop :=
  items.Pairwise fun first second => cmp (keyOf first) (keyOf second) ≠ .eq

end

/-- `key` separates two lists: above all of the first, below all of the second. -/
structure Splits (cmp : Key → Key → Ordering) (keyOf : Item → Key) (key : Key)
    (before after : List Item) : Prop where
  above : ∀ item ∈ before, cmp key (keyOf item) = .gt
  below : ∀ item ∈ after, cmp key (keyOf item) = .lt

section

variable {key : Key} {before after : List Item} (splits : Splits cmp keyOf key before after)

include splits

theorem Splits.lookup_none : lookup cmp keyOf (before ++ after) key = none := by
  simp only [lookup, find?_eq_none, mem_append]
  rintro item (member | member)
  · simp [splits.above item member]
  · simp [splits.below item member]

theorem Splits.lookup_some (same : cmp key (keyOf item) = .eq) :
    lookup cmp keyOf (before ++ item :: after) key = some item := by
  have skipped : before.find? (fun item => cmp key (keyOf item) == .eq) = none := by
    simp only [find?_eq_none]
    intro item member
    simp [splits.above item member]
  simp [lookup, skipped, same]

theorem Splits.remove_none : remove cmp keyOf (before ++ after) key = before ++ after := by
  apply filter_eq_self.mpr
  intro item member
  rcases mem_append.mp member with member | member
  · simp [splits.above item member]
  · simp [splits.below item member]

theorem Splits.remove_some (same : cmp key (keyOf item) = .eq) :
    remove cmp keyOf (before ++ item :: after) key = before ++ after := by
  have kept := splits.remove_none
  simp only [remove] at kept ⊢
  simpa [same] using kept

end

/-! Items on one side of the key do not matter to what is done under it. -/

theorem lookup_before (below : ∀ item ∈ after, cmp key (keyOf item) = .lt) :
    lookup cmp keyOf (before ++ after) key = lookup cmp keyOf before key := by
  have none : after.find? (fun item => cmp key (keyOf item) == .eq) = none :=
    find?_eq_none.mpr fun item member => by simp [below item member]
  simp [lookup, none]

theorem lookup_after (above : ∀ item ∈ before, cmp key (keyOf item) = .gt) :
    lookup cmp keyOf (before ++ after) key = lookup cmp keyOf after key := by
  have none : before.find? (fun item => cmp key (keyOf item) == .eq) = none :=
    find?_eq_none.mpr fun item member => by simp [above item member]
  simp [lookup, none]

theorem remove_before (below : ∀ item ∈ after, cmp key (keyOf item) = .lt) (before : List Item) :
    remove cmp keyOf (before ++ after) key = remove cmp keyOf before key ++ after := by
  have kept : after.filter (fun item => cmp key (keyOf item) != .eq) = after :=
    filter_eq_self.mpr fun item member => by simp [below item member]
  simp [remove, kept]

theorem remove_after (above : ∀ item ∈ before, cmp key (keyOf item) = .gt) (after : List Item) :
    remove cmp keyOf (before ++ after) key = before ++ remove cmp keyOf after key := by
  have kept : before.filter (fun item => cmp key (keyOf item) != .eq) = before :=
    filter_eq_self.mpr fun item member => by simp [above item member]
  simp [remove, kept]

theorem remove_missing (missing : lookup cmp keyOf items key = none) :
    remove cmp keyOf items key = items :=
  filter_eq_self.mpr fun item member => by
    simpa using find?_eq_none.mp missing item member

theorem put_before (below : ∀ other ∈ after, cmp (keyOf item) (keyOf other) = .lt) :
    put cmp keyOf (before ++ after) item = put cmp keyOf before item ++ after := by
  have kept : after.filter (fun other => cmp (keyOf item) (keyOf other) == .lt) = after :=
    filter_eq_self.mpr fun other member => by simp [below other member]
  have none : after.filter (fun other => cmp (keyOf item) (keyOf other) == .gt) = [] :=
    filter_eq_nil_iff.mpr fun other member => by simp [below other member]
  simp [put, kept, none]

theorem put_after (above : ∀ other ∈ before, cmp (keyOf item) (keyOf other) = .gt) :
    put cmp keyOf (before ++ after) item = before ++ put cmp keyOf after item := by
  have kept : before.filter (fun other => cmp (keyOf item) (keyOf other) == .gt) = before :=
    filter_eq_self.mpr fun other member => by simp [above other member]
  have none : before.filter (fun other => cmp (keyOf item) (keyOf other) == .lt) = [] :=
    filter_eq_nil_iff.mpr fun other member => by simp [above other member]
  simp [put, kept, none]

theorem Sorted.distinct (sorted : Sorted cmp keyOf items) : Distinct cmp keyOf items :=
  List.Pairwise.imp (fun less => by simp [less]) sorted

theorem lookup_map {items : List Other} : lookup cmp keyOf (items.map project) key =
      (lookup cmp (fun item => keyOf (project item)) items key).map project := by
  simp only [lookup, List.find?_map]
  rfl

theorem sorted_remove (sorted : Sorted cmp keyOf (before ++ item :: after)) :
    Sorted cmp keyOf (before ++ after) :=
  List.Pairwise.sublist (by simp) sorted

section Order

variable [Std.TransCmp cmp]

theorem Splits.swap_above (splits : Splits cmp keyOf key before after) (member : item ∈ before) :
    cmp (keyOf item) key = .lt :=
  Std.OrientedCmp.gt_iff_lt.mp (splits.above item member)

theorem sorted_insert (sorted : Sorted cmp keyOf (before ++ after))
    (splits : Splits cmp keyOf (keyOf item) before after) :
    Sorted cmp keyOf (before ++ item :: after) := by
  obtain ⟨sortedBefore, sortedAfter, across⟩ := pairwise_append.mp sorted
  refine pairwise_append.mpr ⟨sortedBefore, ?_, ?_⟩
  · exact pairwise_cons.mpr ⟨splits.below, sortedAfter⟩
  · intro first firstMember second secondMember
    rcases mem_cons.mp secondMember with same | secondMember
    · subst second
      exact splits.swap_above firstMember
    · exact across first firstMember second secondMember

theorem sorted_splits (sorted : Sorted cmp keyOf (before ++ item :: after)) :
    Splits cmp keyOf (keyOf item) before after := by
  obtain ⟨_, sortedAfter, across⟩ := pairwise_append.mp sorted
  refine ⟨?_, (pairwise_cons.mp sortedAfter).1⟩
  intro first member
  exact Std.OrientedCmp.gt_iff_lt.mpr (across first member item (by simp))

theorem Splits.congr (splits : Splits cmp keyOf key before after) (same : cmp other key = .eq) :
    Splits cmp keyOf other before after := by
  refine ⟨fun item member => ?_, fun item member => ?_⟩
  · rw [Std.TransCmp.congr_left same]
    exact splits.above item member
  · rw [Std.TransCmp.congr_left same]
    exact splits.below item member

/-- A key below an item is below all items behind it. -/
theorem Sorted.below (sorted : Sorted cmp keyOf (before ++ item :: after))
    (less : cmp key (keyOf item) = .lt) : ∀ other ∈ item :: after, cmp key (keyOf other) = .lt := by
  refine forall_mem_cons.mpr ⟨less, fun other member => ?_⟩
  exact Std.TransCmp.lt_trans less ((sorted_splits sorted).below other member)

theorem Sorted.above (sorted : Sorted cmp keyOf (before ++ item :: after))
    (greater : cmp key (keyOf item) = .gt) :
    ∀ other ∈ before ++ [item], cmp key (keyOf other) = .gt := by
  refine forall_mem_append.mpr ⟨fun other member => ?_, by simpa using greater⟩
  exact Std.TransCmp.gt_trans greater ((sorted_splits sorted).above other member)

theorem sorted_put (sorted : Sorted cmp keyOf items) :
    Sorted cmp keyOf (put cmp keyOf items item) := by
  refine pairwise_append.mpr ⟨sorted.filter _, ?_, ?_⟩
  · refine pairwise_cons.mpr ⟨fun other member => ?_, sorted.filter _⟩
    simpa using (mem_filter.mp member).2
  · intro first firstMember second secondMember
    have above : cmp (keyOf item) (keyOf first) = .gt := by
      simpa using (mem_filter.mp firstMember).2
    have less := Std.OrientedCmp.gt_iff_lt.mp above
    rcases mem_cons.mp secondMember with rfl | later
    · exact less
    · have below : cmp (keyOf item) (keyOf second) = .lt := by simpa using (mem_filter.mp later).2
      exact Std.TransCmp.lt_trans less below

theorem sorted_replace (sorted : Sorted cmp keyOf (before ++ old :: after))
    (same : cmp (keyOf new) (keyOf old) = .eq) : Sorted cmp keyOf (before ++ new :: after) :=
  sorted_insert (sorted_remove sorted) ((sorted_splits sorted).congr same)

theorem Distinct.unique (distinct : Distinct cmp keyOf items) (first : item ∈ items)
    (second : other ∈ items) (same : cmp (keyOf item) (keyOf other) = .eq) : item = other := by
  induction items with
  | nil => cases first
  | cons head rest ih =>
    obtain ⟨apart, tail⟩ := pairwise_cons.mp distinct
    rcases mem_cons.mp first with firstHead | firstRest
    · rcases mem_cons.mp second with secondHead | secondRest
      · exact firstHead.trans secondHead.symm
      · exact absurd same (firstHead ▸ apart other secondRest)
    · rcases mem_cons.mp second with secondHead | secondRest
      · subst other
        exact absurd (Std.OrientedCmp.eq_comm.mp same) (apart item firstRest)
      · exact ih tail firstRest secondRest

/-- In a list of distinct keys, an item is found under every key equal to its own. -/
theorem Distinct.lookup_eq_some_iff (distinct : Distinct cmp keyOf items) :
    lookup cmp keyOf items key = some item ↔ item ∈ items ∧ cmp key (keyOf item) = .eq := by
  constructor
  · intro found
    exact ⟨mem_of_find?_eq_some found, by simpa using find?_some found⟩
  · rintro ⟨member, same⟩
    cases found : lookup cmp keyOf items key with
    | none => simpa [same] using find?_eq_none.mp found item member
    | some other =>
      have otherSame : cmp key (keyOf other) = .eq := by simpa using find?_some found
      have equal : cmp (keyOf other) (keyOf item) = .eq :=
        Std.TransCmp.eq_trans (Std.OrientedCmp.eq_comm.mp otherSame) same
      rw [distinct.unique (mem_of_find?_eq_some found) member equal]

theorem Distinct.perm (distinct : Distinct cmp keyOf items) (perm : items.Perm others) :
    Distinct cmp keyOf others := by
  refine (perm.pairwise_iff ?_).mp distinct
  intro first second different same
  exact different (Std.OrientedCmp.eq_comm.mp same)

/-- The order of the items does not matter to the map. -/
theorem Distinct.lookup_perm (distinct : Distinct cmp keyOf items) (perm : items.Perm others)
    (key : Key) : lookup cmp keyOf items key = lookup cmp keyOf others key := by
  apply Option.ext
  intro item
  rw [distinct.lookup_eq_some_iff, (distinct.perm perm).lookup_eq_some_iff, perm.mem_iff]

end Order

end Otp.Library
