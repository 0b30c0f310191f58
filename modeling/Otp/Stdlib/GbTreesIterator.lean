import Otp.Stdlib.GbTreesRefinement

/-! Iterators over `gb_trees.erl` go through the contents of the tree, each entry once. -/

namespace Otp.GbTrees

open Otp.Library (Sorted)

variable {Key Value : Type} {cmp : Key → Key → Ordering}

/-- The entries that calls of `next` return, up to `none`. -/
inductive Yields : Iterator Key Value → List (Key × Value) → Prop where
  | done (last : next iter = .ok none) : Yields iter []
  | step (taken : next iter = .ok (some (key, value, iter'))) (rest : Yields iter' items) :
      Yields iter ((key, value) :: items)

/-- An iterator yields one list at most. -/
theorem Yields.unique (first : Yields iter items) (second : Yields iter others) :
    items = others := by
  induction first generalizing others with
  | done last =>
    cases second with
    | done => rfl
    | step taken => rw [last] at taken; cases taken
  | step taken rest ih =>
    cases second with
    | done last => rw [last] at taken; cases taken
    | step taken' rest' =>
      rw [taken] at taken'
      cases taken'
      rw [ih rest']

theorem sorted_of_searchTree [Std.TransCmp cmp] {t : Node Key Value} (search : SearchTree cmp t) :
    t.Proper ∧ Sorted cmp Prod.fst t.entries := by
  induction t with
  | nil => exact ⟨trivial, .nil⟩
  | node key value smaller bigger smallerIh biggerIh =>
    obtain ⟨left, right, below, above⟩ := search
    obtain ⟨proper, sorted⟩ := smallerIh left
    obtain ⟨proper', sorted'⟩ := biggerIh right
    refine ⟨⟨proper, proper'⟩, List.pairwise_append.mpr
      ⟨sorted, List.pairwise_cons.mpr ⟨above, sorted'⟩, fun first member second later => ?_⟩⟩
    rcases List.mem_cons.mp later with rfl | later
    · exact below first member
    · exact Std.TransCmp.lt_trans (below first member) (above second later)
  | triple => exact search.elim

/-- The subtree comes first, whatever is pending behind it. -/
theorem iteratorOnto_yields {t : Node Key Value} (proper : t.Proper) (pending : Yields as items) :
    ∃ iter, iteratorOnto t as = .ok iter ∧ Yields iter (t.entries ++ items) := by
  induction t generalizing as items with
  | nil => exact ⟨as, rfl, pending⟩
  | node key value smaller bigger smallerIh biggerIh =>
    obtain ⟨behind, opened, rest⟩ := biggerIh proper.2 pending
    have here : Yields (.node key value smaller bigger :: as)
      ((key, value) :: (bigger.entries ++ items)) :=
      .step (by rw [next, opened, ok_bind]) rest
    by_cases least : smaller = .nil
    · subst least
      exact ⟨_, rfl, here⟩
    · obtain ⟨iter, first, yields⟩ := smallerIh proper.1 here
      refine ⟨iter, ?_, by simpa [Node.entries] using yields⟩
      rw [iteratorOnto, first]
      exact least
  | triple => exact proper.elim

theorem iteratorFromOnto_smaller (less : cmp k s = .lt) {as : Iterator Key Value} :
    iteratorFromOnto cmp s (.node k value l t) as = iteratorFromOnto cmp s t as := by
  cases l <;> simp [iteratorFromOnto, less]

theorem iteratorFromOnto_other (less : cmp k s ≠ .lt) (some : l ≠ .nil) {as : Iterator Key Value} :
    iteratorFromOnto cmp s (.node k value l t) as =
      iteratorFromOnto cmp s l (.node k value l t :: as) := by
  cases l with
  | nil => exact absurd rfl some
  | node | triple => rw [iteratorFromOnto, if_neg less]; exact some

/-- An iterator over the entries from `s` on, and what is behind the subtree. -/
theorem iteratorFromOnto_yields [Std.TransCmp cmp] {t : Node Key Value} (proper : t.Proper)
    (sorted : Sorted cmp Prod.fst t.entries) (pending : Yields as items) :
    ∃ iter before after, iteratorFromOnto cmp s t as = .ok iter ∧ t.entries = before ++ after ∧
      (∀ e ∈ before, cmp e.1 s = .lt) ∧ (∀ e ∈ after, cmp e.1 s ≠ .lt) ∧
      Yields iter (after ++ items) := by
  induction t generalizing as items with
  | nil => exact ⟨as, [], [], rfl, rfl, by simp, by simp, pending⟩
  | node key value smaller bigger smallerIh biggerIh =>
    obtain ⟨left, right, across⟩ := List.pairwise_append.mp sorted
    obtain ⟨above, right⟩ := List.pairwise_cons.mp right
    by_cases less : cmp key s = .lt
    · obtain ⟨iter, before, after, opened, entries, passed, kept, yields⟩ :=
        biggerIh proper.2 right pending
      refine ⟨iter, smaller.entries ++ (key, value) :: before, after, ?_, ?_, ?_, kept, yields⟩
      · rw [iteratorFromOnto_smaller less, opened]
      · simp [Node.entries, entries]
      · refine List.forall_mem_append.mpr ⟨fun e member => ?_,
          List.forall_mem_cons.mpr ⟨less, passed⟩⟩
        exact Std.TransCmp.lt_trans (across e member (key, value) List.mem_cons_self) less
    · obtain ⟨behind, opened, rest⟩ := iteratorOnto_yields proper.2 pending
      have here : Yields (.node key value smaller bigger :: as)
        ((key, value) :: (bigger.entries ++ items)) :=
        .step (by rw [next, opened, ok_bind]) rest
      have bigger_kept : ∀ e ∈ (key, value) :: bigger.entries, cmp e.1 s ≠ .lt := by
        refine List.forall_mem_cons.mpr ⟨less, fun e member below => less ?_⟩
        exact Std.TransCmp.lt_trans (above e member) below
      by_cases least : smaller = .nil
      · subst least
        refine ⟨_, [], _, ?_, rfl, by simp, bigger_kept, here⟩
        rw [iteratorFromOnto, if_neg less]
      · obtain ⟨iter, before, after, first, entries, passed, kept, yields⟩ :=
          smallerIh proper.1 left here
        refine ⟨iter, before, after ++ (key, value) :: bigger.entries, ?_, ?_, passed,
          List.forall_mem_append.mpr ⟨kept, bigger_kept⟩, by simpa using yields⟩
        · rw [iteratorFromOnto_other less least, first]
        · simp [Node.entries, entries]
  | triple => exact proper.elim

/-- An iterator yields the list of the contents, and one from a key yields the part of it
with the keys that are not less. -/
theorem iterators_unfold_to_list (cmp : Key → Key → Ordering) [Std.TransCmp cmp]
    (tree : Tree Key Value) (search : SearchTree cmp tree.root) (key : Key) :
    ∃ items, toList tree = .ok items ∧ (∃ iter, iterator tree = .ok iter ∧ Yields iter items) ∧
      ∃ iter before after, iteratorFrom cmp key tree = .ok iter ∧ items = before ++ after ∧
        (∀ e ∈ before, cmp e.1 key = .lt) ∧ (∀ e ∈ after, cmp e.1 key ≠ .lt) ∧
        Yields iter after := by
  obtain ⟨proper, sorted⟩ := sorted_of_searchTree search
  have none : Yields ([] : Iterator Key Value) [] := .done rfl
  refine ⟨tree.root.entries, ?_, ?_, ?_⟩
  · rw [toList, toListOnto_eq proper, List.append_nil]
  · simpa [iterator, iterator_1] using iteratorOnto_yields proper none
  · simpa [iteratorFrom, iterator_1From] using iteratorFromOnto_yields proper sorted none

theorem iterators_unfold_a_tree_of_three :
    let tree : Tree Nat String := ⟨3, .node 2 "b" (.node 1 "a" .nil .nil) (.node 3 "c" .nil .nil)⟩
    SearchTree compare tree.root ∧ ∃ items, toList tree = .ok items ∧
      (∃ iter, iterator tree = .ok iter ∧ Yields iter items) ∧
      ∃ iter before after, iteratorFrom compare 2 tree = .ok iter ∧ items = before ++ after ∧
        (∀ e ∈ before, compare e.1 2 = .lt) ∧ (∀ e ∈ after, compare e.1 2 ≠ .lt) ∧
        Yields iter after := by
  intro tree
  have search : SearchTree compare tree.root := by
    have ordered : compare 1 2 = .lt ∧ compare 2 3 = .lt := by decide
    simpa [tree, SearchTree, Node.entries] using ordered
  exact ⟨search, iterators_unfold_to_list compare tree search 2⟩

end Otp.GbTrees
