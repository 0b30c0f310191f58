import Otp.Lists.SortMerge

/-! The passes over the runs end, with one run that holds the elements of all. -/

namespace Otp.Lists

open List
open Otp.Library

variable {Item : Type} {order : TotalPreorder Item}

/-- The elements of all runs in the order of the input: `ls` are the runs still to
be taken in this pass, `acc` what was merged. A pass takes the runs from the
front or from the back of the input. -/
def sequence (front : Bool) (ls acc : List (List Item)) : List Item :=
  if front then acc.reverse.flatten ++ ls.flatten else ls.reverse.flatten ++ acc.flatten

/-- What joining runs means: which runs can be joined, from the least or from the greatest
element, and what is kept of their elements. -/
structure Joining (Item : Type) where
  Fit : List Item → Prop
  Turned : List Item → Prop
  turned : ∀ {l}, Turned l ↔ Fit l.reverse
  inhabited : ∀ {l}, Fit l → l ≠ []
  Keeps : List Item → List Item → Prop
  refl : ∀ l, Keeps l l
  trans : ∀ {a b c}, Keeps a b → Keeps b c → Keeps a c
  append : ∀ {a b c d}, Keeps a b → Keeps c d → Keeps (a ++ c) (b ++ d)

/-- A pass that is over starts another from the other end. -/
theorem sequence_turn (front : Bool) (ls acc : List (List Item)) (last : ls.length ≤ 1) :
    sequence front ls acc = sequence (!front) (ls ++ acc) [] := by
  match ls, last with
  | [], _ => cases front <;> simp [sequence]
  | [l], _ => cases front <;> simp [sequence]

/-- Runs were taken from the list and the joined run was put aside. -/
theorem Joining.sequence_step (j : Joining Item) (front : Bool) (inputs ls acc : List (List Item))
    (keeps : j.Keeps out (sequence front inputs [])) :
    j.Keeps (sequence front ls (out :: acc)) (sequence front (inputs ++ ls) acc) := by
  cases front
  · simpa [sequence] using j.append (j.refl ls.reverse.flatten)
      (j.append keeps (j.refl acc.flatten))
  · simpa [sequence] using j.append (j.refl acc.reverse.flatten)
      (j.append keeps (j.refl ls.flatten))

/-- All runs are joined into one. -/
def Joining.Ends (j : Joining Item) (result : Option (List Item)) (input : List Item) : Prop :=
  ∃ out, result = some out ∧ j.Fit out ∧ j.Keeps out input

section

variable {j : Joining Item} {front : Bool} {view : List Item → List Item}
  {this that : List (List Item) → List (List Item) → Option (List Item)}

/-- Some runs at the front of the list are joined and the result is put aside, turned. The runs
are read through `view`. -/
def Joins (j : Joining Item) (front : Bool) (view : List Item → List Item)
    (this : List (List Item) → List (List Item) → Option (List Item))
    (ls acc : List (List Item)) : Prop :=
  ∃ inputs rest out, ls = inputs ++ rest ∧ 2 ≤ inputs.length ∧
    this ls acc = this rest (out :: acc) ∧ j.Fit (view out.reverse) ∧
    j.Keeps (view out.reverse) (sequence front (inputs.map view) [])

/-- A pass that meets these clauses ends, and leaves about half as many runs. -/
theorem pass_ends (turn : ∀ a acc, this [] (a :: acc) = that (a :: acc) [])
    (one : ∀ l a acc, j.Fit (view l) → this [l] (a :: acc) = that (l.reverse :: a :: acc) [])
    (step : ∀ h1 t1 h2 t2 ls acc, j.Fit (view (h1 :: t1)) → j.Fit (view (h2 :: t2)) →
      (∀ run ∈ ls, j.Fit (view run)) → Joins j front view this ((h1 :: t1) :: (h2 :: t2) :: ls) acc)
    (filled : ∀ l, j.Fit (view l) → l ≠ []) (ls acc : List (List Item))
    (fit : ∀ run ∈ ls, j.Fit (view run)) (aside : ∀ run ∈ acc, j.Fit (view run.reverse))
    (more : 2 ≤ ls.length ∨ acc ≠ []) :
    ∃ a rest, this ls acc = that (a :: rest) [] ∧ 2 * rest.length + 1 ≤ ls.length + 2 * acc.length ∧
      (∀ run ∈ a :: rest, j.Fit (view run.reverse)) ∧
      j.Keeps (sequence (!front) ((a :: rest).map fun run => view run.reverse) [])
        (sequence front (ls.map view) (acc.map fun run => view run.reverse)) := by
  match ls, acc with
  | [], [] => simp at more
  | [_], [] => simp at more
  | [], a :: acc =>
    refine ⟨a, acc, turn a acc, by simp only [length_cons, length_nil]; omega, aside, ?_⟩
    rw [sequence_turn front _ _ (by simp)]
    exact j.refl _
  | [l], a :: acc =>
    have here := fit l mem_cons_self
    refine ⟨l.reverse, a :: acc, one l a acc here, by simp only [length_cons, length_nil]; omega,
      forall_mem_cons.mpr ⟨by simpa using here, aside⟩, ?_⟩
    rw [sequence_turn front _ _ (by simp)]
    simpa using j.refl _
  | first :: second :: ls, acc =>
    obtain ⟨here, later⟩ := forall_mem_cons.mp fit
    obtain ⟨next, others⟩ := forall_mem_cons.mp later
    obtain ⟨h1, t1, rfl⟩ := exists_cons_of_ne_nil (filled first here)
    obtain ⟨h2, t2, rfl⟩ := exists_cons_of_ne_nil (filled second next)
    obtain ⟨inputs, left, out, split, two, joins, joined, keeps⟩ :=
      step h1 t1 h2 t2 ls acc here next others
    have shorter := congrArg length split
    obtain ⟨a, rest, ends, length, rest_fit, kept⟩ :=
      pass_ends turn one step filled left (out :: acc)
      (fun run member => fit run (split ▸ mem_append_right _ member))
      (forall_mem_cons.mpr ⟨joined, aside⟩) (.inr (by simp))
    refine ⟨a, rest, joins.trans ends, by simp at length shorter ⊢; omega, rest_fit,
      j.trans kept ?_⟩
    rw [split, map_append]
    exact j.sequence_step front _ _ _ keeps
termination_by ls.length
decreasing_by simp at shorter ⊢; omega

/-- The clauses of the loops for runs that can be joined: `this` takes them from the least
element and `that` from the greatest. -/
structure Passes (j : Joining Item) (front : Bool)
    (this that : List (List Item) → List (List Item) → Option (List Item)) : Prop where
  last (l) : j.Fit l → this [l] [] = some l
  turn (a acc) : this [] (a :: acc) = that (a :: acc) []
  one (l a acc) : j.Fit l → this [l] (a :: acc) = that (l.reverse :: a :: acc) []
  step (h1 t1 h2 t2 ls acc) : j.Fit (h1 :: t1) → j.Fit (h2 :: t2) → (∀ run ∈ ls, j.Fit run) →
    Joins j front (fun run => run) this ((h1 :: t1) :: (h2 :: t2) :: ls) acc
  back (a acc) : that [] (a :: acc) = this (a :: acc) []
  backOne (l acc) : that [l] acc = this (l.reverse :: acc) []
  backStep (h1 t1 h2 t2 ls acc) : j.Turned (h1 :: t1) → j.Turned (h2 :: t2) →
    (∀ run ∈ ls, j.Turned run) → Joins j (!front) reverse that ((h1 :: t1) :: (h2 :: t2) :: ls) acc

/-- What was joined of some runs. -/
structure Joining.Joined (j : Joining Item) (out : List Item) (inputs : List (List Item)) :
    Prop where
  fit : j.Fit out
  keeps : j.Keeps out inputs.flatten

theorem Joining.Joined.forth (front : Bool) {first second : List Item}
    (more rest : List (List Item)) (joined : j.Joined out (if front then first :: second :: more
      else (first :: second :: more).reverse))
    (clause : this (first :: second :: (more ++ rest)) acc = this rest (out.reverse :: acc)) :
    Joins j front (fun run => run) this (first :: second :: (more ++ rest)) acc := by
  refine ⟨first :: second :: more, rest, out.reverse, rfl, by simp, clause,
    by simpa using joined.fit, ?_⟩
  cases front <;> simpa [sequence] using joined.keeps

theorem Joining.Joined.back (front : Bool) {first second : List Item} (more rest : List (List Item))
    (joined : j.Joined out (if front then (first :: second :: more).map reverse
      else ((first :: second :: more).map reverse).reverse))
    (clause : this (first :: second :: (more ++ rest)) acc = this rest (out :: acc)) :
    Joins j front reverse this (first :: second :: (more ++ rest)) acc := by
  refine ⟨first :: second :: more, rest, out, rfl, by simp, clause, by simpa using joined.fit, ?_⟩
  cases front <;> simpa [sequence] using joined.keeps

/-- The passes end with one run. -/
theorem Passes.ends (passes : Passes j front this that) (ls : List (List Item)) (some : ls ≠ []) :
    ((∀ run ∈ ls, j.Fit run) → j.Ends (this ls []) (sequence front ls [])) ∧
      ((∀ run ∈ ls, j.Turned run) →
        j.Ends (that ls []) (sequence (!front) (ls.map reverse) [])) := by
  have ends (l : List Item) (front : Bool) (fit : j.Fit l) :
      j.Ends (this [l] []) (sequence front [l] []) := by
    refine ⟨l, passes.last l fit, fit, ?_⟩
    cases front <;> simpa [sequence] using j.refl l
  match ls with
  | [l] =>
    refine ⟨fun up => ends l front (up l mem_cons_self), fun down => ?_⟩
    rw [passes.backOne]
    exact ends l.reverse (!front) (j.turned.mp (down l mem_cons_self))
  | first :: second :: ls =>
    refine ⟨fun up => ?_, fun down => ?_⟩
    · obtain ⟨a, rest, turns, shorter, fit, keeps⟩ := pass_ends passes.turn passes.one passes.step
        (fun _ => j.inhabited) (first :: second :: ls) [] up (by simp) (.inl (by simp))
      obtain ⟨out, result, joined, kept⟩ := (passes.ends (a :: rest) (by simp)).2
        fun run member => j.turned.mpr (fit run member)
      exact ⟨out, turns.trans result, joined, j.trans kept (by simpa using keeps)⟩
    · obtain ⟨a, rest, turns, shorter, fit, keeps⟩ := pass_ends passes.back
        (fun l a acc _ => passes.backOne l (a :: acc))
        (fun h1 t1 h2 t2 ls acc here next later => passes.backStep h1 t1 h2 t2 ls acc
          (j.turned.mpr here) (j.turned.mpr next) fun run member => j.turned.mpr (later run member))
        (fun l fit => by simpa using j.inhabited fit) (first :: second :: ls) []
        (fun run member => j.turned.mp (down run member)) (by simp) (.inl (by simp))
      simp only [reverse_reverse] at fit keeps
      obtain ⟨out, result, joined, kept⟩ := (passes.ends (a :: rest) (by simp)).1 fit
      exact ⟨out, turns.trans result, joined, j.trans kept (by simpa using keeps)⟩
termination_by ls.length
decreasing_by all_goals simp at shorter ⊢; omega

end

/-- All runs are sorted into one. -/
def Sorts (order : TotalPreorder Item) (result : Option (List Item)) (input : List Item) : Prop :=
  ∃ out, result = some out ∧ order.Ascending out ∧ order.SameOrder out input

theorem Sorts.same (sorts : Sorts order result input) (same : order.SameOrder input input') :
    Sorts order result input' := by
  obtain ⟨out, shape, ascending, kept⟩ := sorts
  exact ⟨out, shape, ascending, kept.trans same⟩

/-- Whether a pass from the least elements takes the runs from the front. -/
def RunOrder.front : RunOrder → Bool
  | .asc => true
  | .desc => false

/-- Runs are merged, and equivalent elements stay in order. -/
def merging (order : TotalPreorder Item) : Joining Item where
  Fit := Up order
  Turned := Down order
  turned := ⟨Down.reverse, fun up => by simpa using up.reverse⟩
  inhabited := And.left
  Keeps := order.SameOrder
  refl := .refl
  trans := .trans
  append := .append

theorem Merged.joined (merged : Merged order out inputs) : (merging order).Joined out inputs :=
  ⟨merged.up, merged.same⟩

theorem sorts_of_ends (ends : (merging order).Ends result input) : Sorts order result input := by
  obtain ⟨out, shape, up, same⟩ := ends
  exact ⟨out, shape, up.2, same⟩

/-- The passes of `sort/2`. -/
theorem fmergel_passes (order : TotalPreorder Item) (o : RunOrder) :
    Passes (merging order) o.front (fmergel order.le · · o) (rfmergel order.le · · o) where
  last l _ := by rw [fmergel]
  turn a acc := by rw [fmergel]
  one l a acc _ := by rw [fmergel]
  step h1 t1 h2 t2 ls acc here next _ := by
    cases o with
    | asc =>
      refine (merged_two here.2 next).joined.forth true [] ls ?_
      rw [nil_append, fmergel, fmerge2_1_same, merge2_1_eq, append_nil]
    | desc =>
      refine (merged_two next.2 here).joined.forth false [] ls ?_
      rw [nil_append, fmergel, fmerge2_1_same, merge2_1_eq, append_nil]
  back a acc := by rw [rfmergel]
  backOne l acc := by rw [rfmergel]
  backStep h1 t1 h2 t2 ls acc here next _ := by
    cases o with
    | asc =>
      refine (merged_two_down next.2 here).joined.back false [] ls ?_
      rw [nil_append, rfmergel, rfmerge2_1_same, rmerge2_1_above, merge2_1_eq, append_nil]
    | desc =>
      refine (merged_two_down here.2 next).joined.back true [] ls ?_
      rw [nil_append, rfmergel, rfmerge2_1_same, rmerge2_1_above, merge2_1_eq, append_nil]

/-- The passes of `keysort/2`. -/
theorem keymergel_passes (order : TotalPreorder Item) (o : RunOrder) :
    Passes (merging order) o.front (keymergel order.le · · o) (rkeymergel order.le · · o) where
  last l _ := by rw [keymergel]
  turn a acc := by rw [keymergel]
  one l a acc _ := by rw [keymergel]
  step h1 t1 h2 t2 ls acc here next later := by
    cases ls with
    | nil =>
      cases o with
      | asc =>
        refine (merged_two here.2 next).joined.forth true [] [] ?_
        rw [nil_append, keymergel, keymerge2_1, merge2_1_eq, append_nil]
        simp
      | desc =>
        refine (merged_two next.2 here).joined.forth false [] [] ?_
        rw [nil_append, keymergel, keymerge2_1, merge2_1_eq, append_nil]
        simp
    | cons third ls =>
      cases o with
      | asc =>
        have last := later third mem_cons_self
        obtain ⟨h3, t3, rfl⟩ := exists_cons_of_ne_nil last.1
        refine (merged_three here.2 next last).joined.forth true [h3 :: t3] ls ?_
        rw [singleton_append, keymergel, keymerge3_1, merge3_1_eq, append_nil]
      | desc =>
        refine (merged_three (later third mem_cons_self).2 next here).joined.forth false
          [third] ls ?_
        rw [singleton_append, keymergel, keymerge3_1, merge3_1_eq, append_nil]
  back a acc := by rw [rkeymergel]
  backOne l acc := by rw [rkeymergel]
  backStep h1 t1 h2 t2 ls acc here next later := by
    cases ls with
    | nil =>
      cases o with
      | asc =>
        refine (merged_two_down next.2 here).joined.back false [] [] ?_
        rw [nil_append, rkeymergel, rkeymerge2_1, rmerge2_1_above, merge2_1_eq, append_nil]
        simp
      | desc =>
        refine (merged_two_down here.2 next).joined.back true [] [] ?_
        rw [nil_append, rkeymergel, rkeymerge2_1, rmerge2_1_above, merge2_1_eq, append_nil]
        simp
    | cons third ls =>
      cases o with
      | asc =>
        refine (merged_three_down (later third mem_cons_self).2 next here).joined.back false
          [third] ls ?_
        rw [singleton_append, rkeymergel, rkeymerge3_1, rmerge3_1_above, merge3_1_eq, append_nil]
      | desc =>
        have last := later third mem_cons_self
        obtain ⟨h3, t3, rfl⟩ := exists_cons_of_ne_nil last.1
        refine (merged_three_down here.2 next last).joined.back true [h3 :: t3] ls ?_
        rw [singleton_append, rkeymergel, rkeymerge3_1, rmerge3_1_above, merge3_1_eq, append_nil]

/-- The passes of `sort/1`. With two runs left they turn at once. -/
theorem mergel_passes (order : TotalPreorder Item) :
    Passes (merging order) true (mergel order.le) (rmergel order.le) where
  last l up := by
    obtain ⟨h, t, rfl⟩ := exists_cons_of_ne_nil up.1
    rw [mergel]
    simp
  turn a acc := by rw [mergel]
  one l a acc up := by
    obtain ⟨h, t, rfl⟩ := exists_cons_of_ne_nil up.1
    rw [mergel]
    simp
  step h1 t1 h2 t2 ls acc here next later := by
    cases ls with
    | nil =>
      refine (merged_two here.2 next).joined.forth true [] [] ?_
      rw [nil_append, mergel, mergel, merge2_1_eq, append_nil]
      simp
    | cons third ls =>
      have last := later third mem_cons_self
      obtain ⟨h3, t3, rfl⟩ := exists_cons_of_ne_nil last.1
      refine (merged_three here.2 next last).joined.forth true [h3 :: t3] ls ?_
      rw [singleton_append, mergel, merge3_1_eq, append_nil]
      simp
  back a acc := by rw [rmergel]
  backOne l acc := by rw [rmergel]
  backStep h1 t1 h2 t2 ls acc here next later := by
    cases ls with
    | nil =>
      refine (merged_two_down next.2 here).joined.back false [] [] ?_
      rw [nil_append, rmergel, rmergel, rmerge2_1_above, merge2_1_eq, append_nil]
    | cons third ls =>
      refine (merged_three_down (later third mem_cons_self).2 next here).joined.back false
        [third] ls ?_
      rw [singleton_append, rmergel, rmerge3_1_above, merge3_1_eq, append_nil]

end Otp.Lists
