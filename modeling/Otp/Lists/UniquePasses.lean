import Otp.Lists.UniqueMerge
import Otp.Lists.SortPasses

/-! The passes of `usort` over the runs end, with one run that begins every class as the runs
do. -/

namespace Otp.Lists

open List
open Otp.Library TotalPreorder

variable {Item : Type} {order : TotalPreorder Item}

/-- A run without equal elements, from its least or from its greatest one. -/
def UniqueUp (order : TotalPreorder Item) (run : List Item) : Prop :=
  run ≠ [] ∧ order.Increasing run

def UniqueDown (order : TotalPreorder Item) (run : List Item) : Prop :=
  run ≠ [] ∧ order.Decreasing run

theorem UniqueUp.reverse (up : UniqueUp order items) : UniqueDown order items.reverse :=
  ⟨by simpa using up.1, decreasing_reverse.mpr up.2⟩

theorem UniqueDown.reverse (down : UniqueDown order items) : UniqueUp order items.reverse :=
  ⟨by simpa using down.1, increasing_reverse.mpr down.2⟩

/-- What the union of some runs has to be: a run that begins the classes as they do. -/
structure Joined (order : TotalPreorder Item) (out : List Item) (inputs : List (List Item)) :
    Prop where
  up : UniqueUp order out
  keeps : order.KeepsFirst out inputs.flatten

theorem union_ne_nil (some : t2 ≠ []) : order.union t1 t2 ≠ [] := by
  obtain ⟨h2, t2, rfl⟩ := exists_cons_of_ne_nil some
  cases t1 with
  | nil => simp
  | cons h1 t1 =>
    rw [union]
    split
    · simp
    · split <;> simp

theorem joined_two (first : order.Increasing t1) (second : UniqueUp order t2) :
    Joined order (order.union t1 t2) [t1, t2] :=
  ⟨⟨union_ne_nil second.1, union_increasing first second.2⟩,
    by simpa using union_keepsFirst first t2⟩

theorem joined_three (first : order.Increasing t1) (second : UniqueUp order t2)
    (third : UniqueUp order t3) : Joined order (union3 order t1 t2 t3) [t1, t2, t3] := by
  have two := joined_two first second
  refine ⟨(joined_two two.up.2 third).up, ?_⟩
  have keeps := (union_keepsFirst two.up.2 t3).trans (two.keeps.append (.refl t3))
  simpa using keeps

theorem joined_two_down (first : order.Decreasing t1) (second : UniqueDown order t2) :
    Joined order (unionDown order t1 t2).reverse [t1.reverse, t2.reverse] := by
  have down : order.Decreasing (unionDown order t1 t2) :=
    increasing_flip.mp (union_increasing (increasing_flip.mpr first) (increasing_flip.mpr second.2))
  refine ⟨UniqueDown.reverse ⟨union_ne_nil second.1, down⟩, ?_⟩
  have keeps : order.KeepsFirst (unionDown order t1 t2) (t1 ++ t2) :=
    KeepsFirst.flip_iff.mp (union_keepsFirst (increasing_flip.mpr first) t2)
  have turned :=
    (KeepsFirst.of_reverse first.apart).symm.append (KeepsFirst.of_reverse second.2.apart).symm
  simpa using ((KeepsFirst.of_reverse down.apart).trans keeps).trans turned

theorem joined_three_down (first : order.Decreasing t1) (second : UniqueDown order t2)
    (third : UniqueDown order t3) :
    Joined order (unionDown3 order t1 t2 t3).reverse [t1.reverse, t2.reverse, t3.reverse] := by
  have two := joined_two_down first second
  have three := joined_two_down (increasing_reverse.mp two.up.2) third
  refine ⟨three.up, ?_⟩
  have last := three.keeps
  have inner := two.keeps
  simp only [flatten_cons, flatten_nil, append_nil] at last inner ⊢
  rw [← append_assoc]
  exact last.trans (inner.append (.refl t3.reverse))

/-- All runs are joined into one. -/
def Uniques (order : TotalPreorder Item) (result : Option (List Item)) (input : List Item) : Prop :=
  ∃ out, result = some out ∧ order.Increasing out ∧ order.KeepsFirst out input

theorem Uniques.keeps (uniques : Uniques order result input)
    (keeps : order.KeepsFirst input input') : Uniques order result input' := by
  obtain ⟨out, shape, up, kept⟩ := uniques
  exact ⟨out, shape, up, kept.trans keeps⟩

/-- Runs without equal elements are joined, and the first of equal elements stays. -/
def joining (order : TotalPreorder Item) : Joining Item where
  Fit := UniqueUp order
  Turned := UniqueDown order
  turned := ⟨UniqueDown.reverse, fun up => by simpa using up.reverse⟩
  inhabited := And.left
  Keeps := order.KeepsFirst
  refl := .refl
  trans := .trans
  append := .append

theorem Joined.joined (joined : Joined order out inputs) : (joining order).Joined out inputs :=
  ⟨joined.up, joined.keeps⟩

theorem uniques_of_ends (ends : (joining order).Ends result input) :
    Uniques order result input := by
  obtain ⟨out, shape, up, keeps⟩ := ends
  exact ⟨out, shape, up.2, keeps⟩

theorem passes_item : PassesEqual order fun _ => some := fun _ _ _ => .inl rfl

theorem passes_head : PassesEqual order fun hdM _ => hdM := fun _ _ _ => .inr rfl

/-- Three runs, with no element moved before. -/
theorem umerge3_none (passes : PassesEqual order passed) (first : UniqueUp order t1)
    (second : UniqueUp order (h2 :: t2)) :
    umerge3_1 order.le passed t1 none t2 h2 [] t3 h3 =
      (union3 order t1 (h2 :: t2) (h3 :: t3)).reverse := by
  rw [umerge3_1_eq passes first.2 second.2 past_none nofun, append_nil]
  rfl

-- the clauses of `umergel` for runs that are not empty

section

variable (le : Item → Item → Bool) (h1 h2 h3 : Item) (t1 t2 t3 : List Item)
  (ls acc : List (List Item))

theorem umergel_last : umergel le [h1 :: t1] [] o = some (h1 :: t1) := by
  rw [umergel]
  simp

theorem umergel_one : umergel le [h1 :: t1] (a :: acc) o =
    rumergel le ((h1 :: t1).reverse :: a :: acc) [] o := by
  rw [umergel]
  simp

theorem umergel_two_asc : umergel le [h1 :: t1, h2 :: t2] acc .asc =
    umergel le [] (umerge2_2 le t1 (h2 :: t2) [] h1 :: acc) .asc := by
  rw [umergel] <;> simp

theorem umergel_two_desc : umergel le [h1 :: t1, h2 :: t2] acc .desc =
    umergel le [] (umerge2_2 le t2 (h1 :: t1) [] h2 :: acc) .desc := by
  rw [umergel] <;> simp

theorem umergel_three_asc : umergel le ((h1 :: t1) :: (h2 :: t2) :: (h3 :: t3) :: ls) acc .asc =
    umergel le ls (umerge3_1 le (fun _ => some) (h1 :: t1) none t2 h2 [] t3 h3 :: acc) .asc := by
  rw [umergel]
  simp

theorem umergel_three_desc : umergel le ((h1 :: t1) :: (h2 :: t2) :: (h3 :: t3) :: ls) acc .desc =
    umergel le ls (umerge3_1 le (fun _ => some) (h3 :: t3) none t2 h2 [] t1 h1 :: acc) .desc := by
  rw [umergel]

end

theorem umergel_passes (order : TotalPreorder Item) (o : RunOrder) :
    Passes (joining order) o.front (umergel order.le · · o) (rumergel order.le · · o) where
  last l up := by
    obtain ⟨h, t, rfl⟩ := exists_cons_of_ne_nil up.1
    rw [umergel_last]
  turn a acc := by rw [umergel]
  one l a acc up := by
    obtain ⟨h, t, rfl⟩ := exists_cons_of_ne_nil up.1
    rw [umergel_one]
  step h1 t1 h2 t2 ls acc here next later := by
    cases ls with
    | nil =>
      cases o with
      | asc =>
        refine (joined_two here.2 next).joined.forth true [] [] ?_
        rw [nil_append, umergel_two_asc, umerge2_2_eq here.2, append_nil]
      | desc =>
        refine (joined_two next.2 here).joined.forth false [] [] ?_
        rw [nil_append, umergel_two_desc, umerge2_2_eq next.2, append_nil]
    | cons third ls =>
      cases o with
      | asc =>
        have last := later third mem_cons_self
        obtain ⟨h3, t3, rfl⟩ := exists_cons_of_ne_nil last.1
        refine (joined_three here.2 next last).joined.forth true [h3 :: t3] ls ?_
        rw [singleton_append, umergel_three_asc, umerge3_none passes_item here next]
      | desc =>
        have last := later third mem_cons_self
        obtain ⟨h3, t3, rfl⟩ := exists_cons_of_ne_nil last.1
        refine (joined_three last.2 next here).joined.forth false [h3 :: t3] ls ?_
        rw [singleton_append, umergel_three_desc, umerge3_none passes_item last next]
  back a acc := by rw [rumergel]
  backOne l acc := by rw [rumergel]
  backStep h1 t1 h2 t2 ls acc here next later := by
    cases ls with
    | nil =>
      cases o with
      | asc =>
        refine (joined_two_down next.2 here).joined.back false [] [] ?_
        rw [nil_append, rumergel, rumerge2_1_eq here.2, append_nil]
        simp
      | desc =>
        refine (joined_two_down here.2 next).joined.back true [] [] ?_
        rw [nil_append, rumergel, rumerge2_1_eq next.2, append_nil]
        simp
    | cons third ls =>
      cases o with
      | asc =>
        refine (joined_three_down (later third mem_cons_self).2 next here).joined.back false
          [third] ls ?_
        rw [singleton_append, rumergel, rumerge3_1_eq next.2 here.2, append_nil]
      | desc =>
        have last := later third mem_cons_self
        obtain ⟨h3, t3, rfl⟩ := exists_cons_of_ne_nil last.1
        refine (joined_three_down here.2 next last).joined.back true [h3 :: t3] ls ?_
        rw [singleton_append, rumergel, rumerge3_1_eq next.2 last.2, append_nil]

/-- The passes of `ukeysort/2`. -/
theorem ukeymergel_passes :
    Passes (joining order) true (ukeymergel order.le) (rukeymergel order.le) where
  last l _ := by rw [ukeymergel]
  turn a acc := by rw [ukeymergel]
  one l a acc _ := by rw [ukeymergel]
  step h1 t1 h2 t2 ls acc here next later := by
    cases ls with
    | nil =>
      refine (joined_two here.2 next).joined.forth true [] [] ?_
      rw [nil_append, ukeymergel, ukeymerge2_2, umerge2_2_eq here.2, append_nil]
      simp
    | cons third ls =>
      have last := later third mem_cons_self
      obtain ⟨h3, t3, rfl⟩ := exists_cons_of_ne_nil last.1
      refine (joined_three here.2 next last).joined.forth true [h3 :: t3] ls ?_
      rw [singleton_append, ukeymergel, ukeymerge3_1, umerge3_none passes_head here next]
  back a acc := by rw [rukeymergel]
  backOne l acc := by rw [rukeymergel]
  backStep h1 t1 h2 t2 ls acc here next later := by
    cases ls with
    | nil =>
      refine (joined_two_down next.2 here).joined.back false [] [] ?_
      rw [nil_append, rukeymergel, rukeymerge2_1, rumerge2_1_eq here.2, append_nil]
      simp
    | cons third ls =>
      refine (joined_three_down (later third mem_cons_self).2 next here).joined.back false
        [third] ls ?_
      rw [singleton_append, rukeymergel, rukeymerge3_1, rumerge3_1_eq next.2 here.2, append_nil]

/-- The passes of `usort/2`. -/
theorem ufmergel_passes : Passes (joining order) true (ufmergel order.le) (rufmergel order.le) where
  last l _ := by rw [ufmergel]
  turn a acc := by rw [ufmergel]
  one l a acc _ := by rw [ufmergel]
  step h1 t1 h2 t2 ls acc here next _ := by
    refine (joined_two here.2 next).joined.forth true [] ls ?_
    rw [nil_append, ufmergel, ufmerge2_2_same, umerge2_2_eq here.2, append_nil]
  back a acc := by rw [rufmergel]
  backOne l acc := by rw [rufmergel]
  backStep h1 t1 h2 t2 ls acc here next _ := by
    refine (joined_two_down next.2 here).joined.back false [] ls ?_
    rw [nil_append, rufmergel, rufmerge2_1_same, rumerge2_1_eq here.2, append_nil]

end Otp.Lists
