import Otp.Lists.UniquePasses
import Otp.Lists.Keysort

/-! What `usort/1`, `ukeysort/2` and `usort/2` return: the elements that have no equal before
them, in order. -/

namespace Otp.Lists

open List
open Otp.Library TotalPreorder

variable {Item Result : Type} {order : TotalPreorder Item}

theorem compareUp_eq (order : TotalPreorder Item) : compareUp order.le = order.compare := by
  funext z y
  rw [compareUp, TotalPreorder.compare]
  cases below : order.le z y <;> cases above : order.le y z <;> simp_all

theorem compareDown_eq (order : TotalPreorder Item) :
    compareDown order.le = order.flip.compare := by
  funext z y
  rw [compareDown, TotalPreorder.compare, flip_le, flip_le]
  cases below : order.le z y <;> cases above : order.le y z <;> simp_all

theorem compareKey_eq (order : TotalPreorder Item) : compareKey order.le = order.compare := by
  funext z y
  rw [compareKey, TotalPreorder.compare]
  cases below : order.le z y <;> cases above : order.le y z <;> simp_all

theorem compareFun_eq : compareFun order.le = order.compare := by
  funext z y
  have total := order.total z y
  rw [compareFun, TotalPreorder.compare]
  cases below : order.le z y <;> cases above : order.le y z <;> simp_all

/-- The input was split into runs that read backwards and begin the classes as it does. -/
def SplitsUnique (order : TotalPreorder Item) (finish : List (List Item) → Result) (result : Result)
    (input : List Item) : Prop :=
  ∃ rs, result = finish rs ∧ rs ≠ [] ∧ (∀ run ∈ rs, UniqueDown order run) ∧
    order.KeepsFirst (rs.map reverse).reverse.flatten input

theorem SplitsUnique.keeps (splits : SplitsUnique order finish result input)
    (keeps : order.KeepsFirst input input') : SplitsUnique order finish result input' := by
  obtain ⟨rs, shape, some, down, kept⟩ := splits
  exact ⟨rs, shape, some, down, kept.trans keeps⟩

/-- An element that moved past others that are not equal to it. -/
theorem SplitsUnique.move (before passed after : List Item) (z : Item)
    (apart : ∀ other ∈ passed, order.same z other = false)
    (splits : SplitsUnique order finish result (before ++ z :: (passed ++ after))) :
    SplitsUnique order finish result (before ++ (passed ++ z :: after)) :=
  splits.keeps (.of_sameOrder (overtake before passed after z apart))

/-- An element that was left out. -/
theorem SplitsUnique.drop (before after : List Item) (early : other ∈ before)
    (same : order.same z other = true)
    (splits : SplitsUnique order finish result (before ++ after)) :
    SplitsUnique order finish result (before ++ z :: after) :=
  splits.keeps (.drop before after early same)

theorem decreasing_top (run : order.Decreasing (y :: r)) (next : order.le z y = false) :
    order.Decreasing (z :: y :: r) := by
  refine pairwise_cons.mpr ⟨forall_mem_cons.mpr ⟨next, fun other member => ?_⟩, run⟩
  exact above_trans' next (le_of_not ((pairwise_cons.mp run).1 other member))

theorem decreasing_second (run : order.Decreasing (y :: x :: r)) (below : order.le y z = false)
    (next : order.le z x = false) : order.Decreasing (y :: z :: x :: r) := by
  obtain ⟨top, lower⟩ := pairwise_cons.mp run
  exact pairwise_cons.mpr ⟨forall_mem_cons.mpr ⟨below, top⟩, decreasing_top lower next⟩

theorem usplit_cons {compare : Item → Item → Ordering} {finish : List (List Item) → Result} :
    usplit compare finish x y (z :: l) r rs =
      match compare z y with
      | .gt => usplit compare finish y z l (x :: r) rs
      | .eq => usplit compare finish x y l r rs
      | .lt =>
        match compare z x with
        | .gt => usplit compare finish z y l (x :: r) rs
        | .eq => usplit compare finish x y l r rs
        | .lt =>
          if r.isEmpty then usplit compare finish x y l [z] rs
          else usplitStash compare finish x y l r rs z := by
  cases r with
  | nil => rw [usplit]; rfl
  | cons head tail =>
    rw [usplit]
    · rfl
    · simp

section

variable (finish : List (List Item) → Result)

mutual

theorem usplit_splits (x y : Item) (l r : List Item) (rs : List (List Item))
    (run : order.Decreasing (y :: x :: r)) (down : ∀ run ∈ rs, UniqueDown order run) :
    SplitsUnique order finish (usplit order.compare finish x y l r rs)
      (readBack rs ++ (r.reverse ++ x :: y :: l)) := by
  match l with
  | [] =>
    refine ⟨_, by rw [usplit], by simp, forall_mem_cons.mpr ⟨⟨by simp, run⟩, down⟩, ?_⟩
    simpa using KeepsFirst.refl _
  | z :: l =>
    -- `z` is left out next to its equal `w`
    have equal (w : Item) (member : w = x ∨ w = y) (same : order.same z w = true) :
        SplitsUnique order finish (usplit order.compare finish x y l r rs)
          (readBack rs ++ (r.reverse ++ x :: y :: z :: l)) := by
      have rest := usplit_splits x y l r rs run down
      have dropped := SplitsUnique.drop (readBack rs ++ (r.reverse ++ [x, y])) l
        (by simpa using .inr (.inr member)) same (by simpa using rest)
      simpa using dropped
    rw [usplit_cons]
    split
    case h_1 greater =>
      simpa using usplit_splits y z l (x :: r) rs
        (decreasing_top run (le_of_compare_gt greater)) down
    case h_2 same => exact equal y (.inr rfl) (same_of_compare_eq same)
    case h_3 less =>
    have below := le_of_compare_lt less
    have apart := apart_of_less below
    split
    case h_1 greater =>
      have rest := usplit_splits z y l (x :: r) rs
        (decreasing_second run below (le_of_compare_gt greater)) down
      have moved := SplitsUnique.move (readBack rs ++ (r.reverse ++ [x])) [y] l z
        (by simpa using apart) (by simpa using rest)
      simpa using moved
    case h_2 same => exact equal x (.inl rfl) (same_of_compare_eq same)
    case h_3 lower =>
    have under := le_of_compare_lt lower
    split
    case isTrue first =>
      obtain rfl := isEmpty_iff.mp first
      have grown : order.Decreasing [y, x, z] := by
        have top := (pairwise_cons.mp run).1 x mem_cons_self
        simp [Decreasing, top, below, under]
      have rest := usplit_splits x y l [z] rs grown down
      have moved := SplitsUnique.move (readBack rs) [x, y] l z
        (by simpa using ⟨apart_of_less under, apart⟩) (by simpa using rest)
      simpa using moved
    case isFalse => exact usplitStash_splits x y l r rs z run down under

theorem usplitStash_splits (x y : Item) (l r : List Item) (rs : List (List Item)) (s : Item)
    (run : order.Decreasing (y :: x :: r)) (down : ∀ run ∈ rs, UniqueDown order run)
    (under : order.le x s = false) :
    SplitsUnique order finish (usplitStash order.compare finish x y l r rs s)
      (readBack rs ++ (r.reverse ++ x :: y :: s :: l)) := by
  have pushed : ∀ run ∈ (y :: x :: r) :: rs, UniqueDown order run :=
    forall_mem_cons.mpr ⟨⟨by simp, run⟩, down⟩
  match l with
  | [] =>
    refine ⟨_, by rw [usplitStash], by simp,
      forall_mem_cons.mpr ⟨⟨by simp, pairwise_singleton _ _⟩, pushed⟩, ?_⟩
    simpa using KeepsFirst.refl _
  | z :: l =>
    have equal (w : Item) (member : w = x ∨ w = y ∨ w = s) (same : order.same z w = true) :
        SplitsUnique order finish (usplitStash order.compare finish x y l r rs s)
          (readBack rs ++ (r.reverse ++ x :: y :: s :: z :: l)) := by
      have rest := usplitStash_splits x y l r rs s run down under
      have dropped := SplitsUnique.drop (readBack rs ++ (r.reverse ++ [x, y, s])) l
        (by simpa using .inr (.inr member)) same (by simpa using rest)
      simpa using dropped
    have top := (pairwise_cons.mp run).1 x mem_cons_self
    rw [usplitStash]
    split
    case h_1 greater =>
      -- `z` is above the run, and so above `s`
      have greater := le_of_compare_gt greater
      have above : order.le y s = false := above_trans under (le_of_not top)
      have rest := usplitStash_splits y z l (x :: r) rs s (decreasing_top run greater) down above
      have moved := SplitsUnique.move (readBack rs ++ (r.reverse ++ [x, y])) [s] l z
        (by simpa using not_same_of_not (above_trans above (le_of_not greater)))
          (by simpa using rest)
      simpa using moved
    case h_2 same => exact equal y (.inr (.inl rfl)) (same_of_compare_eq same)
    case h_3 less =>
    have below := le_of_compare_lt less
    have apart := apart_of_less below
    split
    case h_1 greater =>
      have greater := le_of_compare_gt greater
      have above : order.le z s = false := above_trans under (le_of_not greater)
      have rest :=
        usplitStash_splits z y l (x :: r) rs s (decreasing_second run below greater) down above
      have moved := SplitsUnique.move (readBack rs ++ (r.reverse ++ [x])) [y, s] l z
        (by simpa using ⟨apart, not_same_of_not above⟩) (by simpa using rest)
      simpa using moved
    case h_2 same => exact equal x (.inl rfl) (same_of_compare_eq same)
    case h_3 =>
    split
    case h_1 greater =>
      have started : order.Decreasing [z, s] := by
        simpa [Decreasing] using le_of_compare_gt greater
      simpa using usplit_splits s z l [] ((y :: x :: r) :: rs) started pushed
    case h_2 same => exact equal s (.inr (.inr rfl)) (same_of_compare_eq same)
    case h_3 lower =>
      have lower := le_of_compare_lt lower
      have started : order.Decreasing [s, z] := by simpa [Decreasing] using lower
      have rest := usplit_splits z s l [] ((y :: x :: r) :: rs) started pushed
      have moved := SplitsUnique.move (readBack rs ++ (r.reverse ++ [x, y])) [s] l z
        (by simpa using apart_of_less lower) (by simpa using rest)
      simpa using moved

end

end

/-- The runs are merged into one. -/
def Finishes (order : TotalPreorder Item) (finish : List (List Item) → Option (List Item)) : Prop :=
  ∀ rs, rs ≠ [] → (∀ run ∈ rs, UniqueDown order run) →
    Uniques order (finish rs) (rs.map reverse).reverse.flatten

theorem SplitsUnique.uniques (finishes : Finishes order finish)
    (splits : SplitsUnique order finish result input) : Uniques order result input := by
  obtain ⟨rs, rfl, some, down, keeps⟩ := splits
  exact (finishes rs some down).keeps keeps

theorem usplit_uniques (finishes : Finishes order finish) (first : order.le y x = false)
    (l : List Item) :
    Uniques order (usplit order.compare finish x y l [] []) (x :: y :: l) := by
  have splits :=
    usplit_splits finish x y l [] []
      (show order.Decreasing [y, x] by simpa [Decreasing] using first) (by simp)
  simpa using splits.uniques finishes

theorem finishes_key (order : TotalPreorder Item) :
    Finishes order fun rs => rukeymergel order.le rs [] := by
  intro rs some down
  simpa [sequence] using uniques_of_ends (((ukeymergel_passes).ends rs some).2 down)

theorem finishes_fun (order : TotalPreorder Item) :
    Finishes order fun rs => rufmergel order.le rs [] := by
  intro rs some down
  simpa [sequence] using uniques_of_ends (((ufmergel_passes).ends rs some).2 down)

theorem finishes_up (order : TotalPreorder Item) :
    Finishes order fun rs => rumergel order.le rs [] .asc := by
  intro rs some down
  simpa [sequence, RunOrder.front]
    using uniques_of_ends (((umergel_passes order .asc).ends rs some).2 down)

theorem keepsFirst_runs {runs : List (List Item)} (apart : ∀ run ∈ runs, order.Apart run) :
    order.KeepsFirst (runs.map reverse).flatten runs.flatten := by
  induction runs with
  | nil => exact .refl _
  | cons run runs ih =>
    obtain ⟨here, rest⟩ := forall_mem_cons.mp apart
    exact (KeepsFirst.of_reverse here).append (ih rest)

/-- Down from `x` and `y`, and from there on down or up. -/
theorem usplitDown_uniques (finishes : Finishes order finish)
    (y : Item) (l r : List Item) (some : r ≠ []) (run : order.Increasing (y :: r)) :
    Uniques order (usplitDown order.compare finish y l r) (r.reverse ++ y :: l) := by
  induction l generalizing y r with
  | nil =>
    refine ⟨_, rfl, run, ?_⟩
    simpa using (KeepsFirst.of_reverse run.apart).symm
  | cons z l ih =>
    rw [usplitDown]
    split
    case h_1 same =>
      have dropped := KeepsFirst.drop (r.reverse ++ [y]) l (by simp) (same_of_compare_eq same)
      exact (ih y r some run).keeps (by simpa using dropped)
    case h_2 greater =>
      have upper : order.Increasing r := (pairwise_cons.mp run).2
      have started : order.Decreasing [z, y] := by simpa [Decreasing] using le_of_compare_gt greater
      have splits := usplit_splits finish y z l [] [r.reverse] started
        (by simpa using UniqueUp.reverse ⟨some, upper⟩)
      refine (splits.uniques finishes).keeps ?_
      simpa using (KeepsFirst.of_reverse upper.apart).symm.append (.refl (y :: z :: l))
    case h_3 less =>
      have next := le_of_compare_lt less
      have grown : order.Increasing (z :: y :: r) := by
        refine pairwise_cons.mpr ⟨forall_mem_cons.mpr ⟨next, fun other member => ?_⟩, run⟩
        exact above_trans next (le_of_not ((pairwise_cons.mp run).1 other member))
      simpa using ih z (y :: r) (by simp) grown

section

variable {x y : Item} (first : order.le y x = false)

include first

theorem increasing_two : order.Increasing [x, y] := by
  simpa [Increasing] using first

theorem increasing_three (second : order.le z y = false) : order.Increasing [x, y, z] := by
  have third := above_trans' second (le_of_not first)
  simp [Increasing, first, second, third]

theorem uniques_two : Uniques order (some [x, y]) [x, y] := ⟨_, rfl, increasing_two first, .refl _⟩

/-! A third element beside two in order -/

theorem three_last (last : order.le z y = false) : Uniques order (some [x, y, z]) [x, y, z] :=
  ⟨_, rfl, increasing_three first last, .refl _⟩

theorem three_same (member : other ∈ [x, y]) (same : order.same z other = true) :
    Uniques order (some [x, y]) [x, y, z] :=
  ⟨_, rfl, increasing_two first, .drop [x, y] [] member same⟩

theorem three_first (less : order.le x z = false) : Uniques order (some [z, x, y]) [x, y, z] := by
  refine ⟨_, rfl, increasing_three less first, .of_sameOrder (overtake [] [x, y] [] z ?_)⟩
  have lower := above_trans less (le_of_not first)
  simpa using ⟨apart_of_less less, apart_of_less lower⟩

end

theorem three_middle (less : order.le y z = false) (greater : order.le z x = false) :
    Uniques order (some [x, z, y]) [x, y, z] :=
  ⟨_, rfl, increasing_three greater less,
    .of_sameOrder (overtake [x] [y] [] z (by simpa using apart_of_less less))⟩

/-- The first two elements may change places. -/
theorem Uniques.swap (first : order.le x y = false) (uniques : Uniques order result (y :: x :: l)) :
    Uniques order result (x :: y :: l) :=
  uniques.keeps (.of_sameOrder (overtake [] [x] l y (by simpa using apart_of_less first)))

theorem uniques_one : Uniques order (some [x]) [x] := ⟨_, rfl, pairwise_singleton _ _, .refl _⟩

theorem uniques_nil : Uniques order (some []) [] := ⟨_, rfl, .nil, .refl _⟩

/-- The second element is left out. -/
theorem Uniques.second (same : equal order.le x y = true)
    (uniques : Uniques order result (x :: l)) : Uniques order result (x :: y :: l) :=
  uniques.keeps (.drop [x] l (by simp) ((order.same_comm y x).trans same))

theorem less_of_not (notLess : ¬order.le y x = false) (differ : ¬equal order.le x y = true) :
    order.le x y = false :=
  less_of_le (Bool.eq_true_of_not_eq_false notLess) (by simpa [and_comm] using differ)

theorem usplit_1_uniques (first : order.le y x = false) (l : List Item) :
    Uniques order (usplit_1 order.le x y l [] []) (x :: y :: l) := by
  rw [usplit_1, compareUp_eq]
  exact usplit_uniques (finishes_up order) first l

theorem usplit_2_uniques (first : order.le x y = false) (l : List Item) :
    Uniques order (usplit_2 order.le x y l [] []) (x :: y :: l) := by
  rw [usplit_2, compareDown_eq]
  obtain ⟨rs, shape, some, down, keeps⟩ :=
    usplit_splits (fun rs => umergel order.le rs [] .desc) x y l [] []
    (show order.flip.Decreasing [y, x] by simpa [Decreasing, flip_le] using first) (by simp)
  have up : ∀ run ∈ rs, UniqueUp order run := fun run member =>
    ⟨(down run member).1, decreasing_flip.mp (down run member).2⟩
  rw [shape]
  refine (uniques_of_ends (((umergel_passes order .desc).ends rs some).1 up)).keeps ?_
  have turned : order.KeepsFirst (rs.map reverse).reverse.flatten rs.reverse.flatten := by
    rw [← map_reverse]
    exact keepsFirst_runs fun run member => (up run (mem_reverse.mp member)).2.apart
  simpa [sequence, RunOrder.front] using turned.symm.trans (KeepsFirst.flip_iff.mp keeps)

theorem usort_1_uniques : Uniques order (usort_1 order.le x l) (x :: l) := by
  induction l with
  | nil => exact uniques_one
  | cons y l ih =>
    rw [usort_1]
    split
    case isTrue same => exact ih.second same
    case isFalse differ =>
    split
    case isTrue less => exact usplit_1_uniques less l
    case isFalse notLess => exact usplit_2_uniques (less_of_not notLess differ) l

/-- Three elements as `usort/1` compares them. -/
theorem usort_three (first : order.le y x = false) (z : Item) : Uniques order
      (if order.le z y = false then some [x, y, z]
        else if equal order.le y z then some [x, y]
        else if order.le x z = false then some [z, x, y]
        else if equal order.le z x then some [x, y]
        else some [x, z, y]) [x, y, z] := by
  split
  case isTrue last => exact three_last first last
  case isFalse notLast =>
  split
  case isTrue same => exact three_same first (by simp) ((order.same_comm z y).trans same)
  case isFalse differ =>
  have less : order.le y z = false := less_of_not notLast differ
  split
  case isTrue lower => exact three_first first lower
  case isFalse notLower =>
  split
  case isTrue same => exact three_same first (by simp) same
  case isFalse differ =>
    have greater : order.le z x = false := less_of_not notLower differ
    exact three_middle less greater

theorem usort_uniques (order : TotalPreorder Item) (l : List Item) :
    Uniques order (usort order.le l) l := by
  match l with
  | [] => exact uniques_nil
  | [x] => exact uniques_one
  | x :: y :: l =>
    rw [usort.eq_def]
    dsimp only
    split
    case isTrue first =>
      split
      · exact uniques_two first
      · exact usort_three first _
      · exact usplit_1_uniques first l
    case isFalse notLess =>
    split
    case isTrue first =>
      split
      · exact (uniques_two first).swap first
      · exact (usort_three first _).swap first
      · exact usplit_2_uniques first l
    case isFalse notGreater =>
      have same : equal order.le x y = true :=
        same_of_le (Bool.eq_true_of_not_eq_false notGreater) (Bool.eq_true_of_not_eq_false notLess)
      exact (usort_1_uniques).second same

theorem ukeysplit_1_uniques (first : order.le y x = false) (l : List Item) :
    Uniques order (ukeysplit_1 order.le x y l [] []) (x :: y :: l) := by
  rw [ukeysplit_1, compareKey_eq]
  exact usplit_uniques (finishes_key order) first l

theorem ukeysplit_2_uniques (first : order.le x y = false) (l : List Item) :
    Uniques order (ukeysplit_2 order.le y l [x]) (x :: y :: l) := by
  rw [ukeysplit_2, compareKey_eq]
  exact usplitDown_uniques (finishes_key order) y l [x] (by simp) (increasing_two first)

theorem ukeysort_1_uniques : Uniques order (ukeysort_1 order.le x l) (x :: l) := by
  induction l with
  | nil => exact uniques_one
  | cons y l ih =>
    rw [ukeysort_1]
    split
    case isTrue same => exact ih.second same
    case isFalse differ =>
    split
    case isTrue less => exact ukeysplit_1_uniques less l
    case isFalse notLess => exact ukeysplit_2_uniques (less_of_not notLess differ) l

/-- Three elements as `ukeysort/2` compares them. -/
theorem ukeysort_three (first : order.le y x = false) (z : Item) : Uniques order
      (if equal order.le y z then some [x, y]
        else if order.le z y = false then some [x, y, z]
        else if equal order.le z x then some [x, y]
        else if order.le x z then some [x, z, y]
        else some [z, x, y]) [x, y, z] := by
  split
  case isTrue same => exact three_same first (by simp) ((order.same_comm z y).trans same)
  case isFalse differ =>
  split
  case isTrue last => exact three_last first last
  case isFalse notLast =>
  have less : order.le y z = false := less_of_not notLast differ
  split
  case isTrue same => exact three_same first (by simp) same
  case isFalse differ =>
  split
  case isTrue reaches =>
    have greater : order.le z x = false := less_of_le reaches (by simpa [and_comm] using differ)
    exact three_middle less greater
  case isFalse lower => exact three_first first (Bool.eq_false_iff.mpr lower)

theorem ukeysort_uniques (order : TotalPreorder Item) (l : List Item) :
    Uniques order (ukeysort order.le l) l := by
  match l with
  | [] => exact uniques_nil
  | [x] => exact uniques_one
  | x :: y :: l =>
    rw [ukeysort.eq_def]
    dsimp only
    split
    case isTrue same => exact (ukeysort_1_uniques).second same
    case isFalse differ =>
    split
    case isTrue first =>
      split
      · exact uniques_two first
      · exact ukeysort_three first _
      · exact ukeysplit_1_uniques first l
    case isFalse notLess =>
      have first : order.le x y = false := less_of_not notLess differ
      split
      · exact (uniques_two first).swap first
      · rename_i z
        -- here the source writes `EY == EZ`, in the other branch `EZ == EX`
        rw [show equal order.le y z = equal order.le z y from order.same_comm y z]
        exact (ukeysort_three first z).swap first
      · exact ukeysplit_2_uniques first l

theorem usortFun_1_uniques (some : l ≠ []) : Uniques order (usortFun_1 order.le x l) (x :: l) := by
  induction l with
  | nil => exact absurd rfl some
  | cons y l ih =>
    rw [usortFun_1.eq_def]
    dsimp only
    split
    case isTrue below =>
      split
      case isTrue above =>
        have same : equal order.le x y = true := same_of_le below above
        split
        · exact (uniques_one).second same
        · rename_i more
          exact (ih more).second same
      case isFalse less =>
        rw [ufsplit_1, compareFun_eq]
        exact usplit_uniques (finishes_fun order) (Bool.eq_false_iff.mpr less) l
    case isFalse above =>
      rw [ufsplit_2, compareFun_eq]
      exact usplitDown_uniques (finishes_fun order) y l [x] (by simp)
        (increasing_two (Bool.eq_false_iff.mpr above))

theorem usortFun_uniques (order : TotalPreorder Item) (l : List Item) :
    Uniques order (usortFun order.le l) l := by
  match l with
  | [] => exact uniques_nil
  | [x] => exact uniques_one
  | x :: y :: l => exact usortFun_1_uniques (by simp)

theorem Uniques.firsts (uniques : Uniques order result input) :
    ∃ out, result = some out ∧ order.Increasing out ∧ out.Perm (order.firsts input) := by
  obtain ⟨out, shape, up, keeps⟩ := uniques
  refine ⟨out, shape, up, (keeps.trans (firsts_keepsFirst input).symm).perm up.apart ?_⟩
  exact firstsAfter_apart [] input

/-- `usort/1`, `ukeysort/2` and `usort/2` return the elements that have no equal before them,
each greater than the one before it. -/
theorem usort_keeps_firsts {Term : Type} {i : Nat} (term : TotalPreorder Term)
    (order : TotalPreorder Item) (l : List Term) (tuples : List (Tuple Term i))
    (items : List Item) : (∃ out, usort term.le l = some out ∧ term.Increasing out ∧
      out.Perm (term.firsts l)) ∧
    (∃ out, ukeysort (elementLe term.le) tuples = some out ∧ (onElement term).Increasing out ∧
      out.Perm ((onElement term).firsts tuples)) ∧
    ∃ out, usortFun order.le items = some out ∧ order.Increasing out ∧
    out.Perm (order.firsts items) :=
  ⟨(usort_uniques term l).firsts, (ukeysort_uniques (onElement term) tuples).firsts,
    (usortFun_uniques order items).firsts⟩

end Otp.Lists
