import Otp.Lists.SortPasses

/-! The runs an input is split into, and what `sort/1`, `sort/2` and `keysort/2`
make of them. -/

namespace Otp.Lists

open List
open Otp.Library
open TotalPreorder hiding le

variable {Item Result : Type} {order : TotalPreorder Item} {finish : List (List Item) → Result}

/-- The runs as they were read. -/
@[simp]
def readBack (rs : List (List Item)) : List Item := (rs.map reverse).reverse.flatten

/-- The input was split into runs that read backwards. -/
def SplitsUp (order : TotalPreorder Item) (finish : List (List Item) → Result) (result : Result)
    (input : List Item) : Prop :=
  ∃ rs, result = finish rs ∧ rs ≠ [] ∧ (∀ run ∈ rs, Down order run) ∧
    order.SameOrder (rs.map reverse).reverse.flatten input

theorem SplitsUp.same (splits : SplitsUp order finish result input)
    (same : order.SameOrder input input') : SplitsUp order finish result input' := by
  obtain ⟨rs, shape, some, down, kept⟩ := splits
  exact ⟨rs, shape, some, down, kept.trans same⟩

/-- `z` overtakes the elements of `passed`. -/
theorem overtake (before passed after : List Item) (z : Item)
    (apart : ∀ other ∈ passed, order.same z other = false) :
    order.SameOrder (before ++ z :: (passed ++ after)) (before ++ (passed ++ z :: after)) :=
  (SameOrder.refl before).append (.move passed after apart)

theorem splitUp_cons : splitUp le finish x y (z :: l) r rs =
      if le y z then splitUp le finish y z l (x :: r) rs
      else if le x z then splitUp le finish z y l (x :: r) rs
      else if r.isEmpty then splitUp le finish x y l [z] rs
      else splitUpStash le finish x y l r rs z := by
  cases r <;> simp [splitUp]

/-- The run with another element on top. -/
theorem descending_top (run : order.Descending (y :: r)) (next : order.le y z = true) :
    order.Descending (z :: y :: r) := by
  refine pairwise_cons.mpr ⟨forall_mem_cons.mpr ⟨next, fun other member => ?_⟩, run⟩
  exact order.trans _ _ _ ((pairwise_cons.mp run).1 other member) next

/-- The run with another element under the top. -/
theorem descending_second (run : order.Descending (y :: x :: r)) (below : order.le y z = false)
    (next : order.le x z = true) : order.Descending (y :: z :: x :: r) := by
  obtain ⟨top, lower⟩ := pairwise_cons.mp run
  refine pairwise_cons.mpr ⟨?_, descending_top lower next⟩
  exact forall_mem_cons.mpr ⟨le_of_not below, top⟩

section

variable (finish)

mutual

theorem splitUp_splits (x y : Item) (l r : List Item) (rs : List (List Item))
    (run : order.Descending (y :: x :: r)) (down : ∀ run ∈ rs, Down order run) :
    SplitsUp order finish (splitUp order.le finish x y l r rs)
      (readBack rs ++ (r.reverse ++ x :: y :: l)) := by
  match l with
  | [] =>
    refine ⟨_, by rw [splitUp], by simp, forall_mem_cons.mpr ⟨⟨by simp, run⟩, down⟩, ?_⟩
    simpa using SameOrder.refl _
  | z :: l =>
    rw [splitUp_cons]
    split
    case isTrue next => simpa using splitUp_splits y z l (x :: r) rs (descending_top run next) down
    case isFalse below =>
    have below : order.le y z = false := Bool.eq_false_iff.mpr below
    have apart := apart_of_less below
    split
    case isTrue next =>
      refine (splitUp_splits z y l (x :: r) rs (descending_second run below next) down).same ?_
      have step := overtake (readBack rs ++ (r.reverse ++ [x])) [y] l z
        (by simpa using apart)
      simpa using step
    case isFalse under =>
    have under : order.le x z = false := Bool.eq_false_iff.mpr under
    split
    case isTrue first =>
      obtain rfl := isEmpty_iff.mp first
      have grown : order.Descending [y, x, z] := by
        refine pairwise_cons.mpr ⟨?_, by simpa using le_of_not under⟩
        have top := (pairwise_cons.mp run).1 x (by simp)
        simpa using ⟨top, le_of_not below⟩
      refine (splitUp_splits x y l [z] rs grown down).same ?_
      have step := overtake (readBack rs) [x, y] l z
        (by simpa using ⟨apart_of_less under, apart⟩)
      simpa using step
    case isFalse => exact splitUpStash_splits x y l r rs z run down under

theorem splitUpStash_splits (x y : Item) (l r : List Item) (rs : List (List Item)) (s : Item)
    (run : order.Descending (y :: x :: r)) (down : ∀ run ∈ rs, Down order run)
    (under : order.le x s = false) :
    SplitsUp order finish (splitUpStash order.le finish x y l r rs s)
      (readBack rs ++ (r.reverse ++ x :: y :: s :: l)) := by
  have pushed : ∀ run ∈ (y :: x :: r) :: rs, Down order run :=
    forall_mem_cons.mpr ⟨⟨by simp, run⟩, down⟩
  match l with
  | [] =>
    refine ⟨_, by rw [splitUpStash], by simp,
      forall_mem_cons.mpr ⟨⟨by simp, pairwise_singleton _ _⟩, pushed⟩, ?_⟩
    simpa using SameOrder.refl _
  | z :: l =>
    rw [splitUpStash]
    split
    case isTrue next =>
      have above :=
        above_trans under (order.trans _ _ _ ((pairwise_cons.mp run).1 x (by simp)) next)
      refine (splitUpStash_splits y z l (x :: r) rs s (descending_top run next) down ?_).same ?_
      · exact above_trans under ((pairwise_cons.mp run).1 x (by simp))
      · have step := overtake (readBack rs ++ (r.reverse ++ [x, y])) [s] l z
          (by simpa using not_same_of_not above)
        simpa using step
    case isFalse below =>
    have below : order.le y z = false := Bool.eq_false_iff.mpr below
    split
    case isTrue next =>
      have above := above_trans under next
      refine (splitUpStash_splits z y l (x :: r) rs s
        (descending_second run below next) down above).same ?_
      have step := overtake (readBack rs ++ (r.reverse ++ [x])) [y, s] l z
        (by simpa using ⟨apart_of_less below, not_same_of_not above⟩)
      simpa using step
    case isFalse =>
    split
    case isTrue next =>
      have started : order.Descending [z, s] := by
        simpa [Descending] using next
      simpa using splitUp_splits s z l [] ((y :: x :: r) :: rs) started pushed
    case isFalse other =>
      have other : order.le s z = false := Bool.eq_false_iff.mpr other
      have started : order.Descending [s, z] := by
        simpa [Descending] using le_of_not other
      refine (splitUp_splits z s l [] ((y :: x :: r) :: rs) started pushed).same ?_
      have step := overtake (readBack rs ++ (r.reverse ++ [x, y])) [s] l z
        (by simpa using apart_of_less other)
      simpa using step

end

end

/-- `down y z` puts `z` below `y`; between equivalent elements it may go either way. -/
structure Lowers (order : TotalPreorder Item) (down : Item → Item → Bool) : Prop where
  below : down y z = true → order.le z y = true
  above : down y z = false → order.le y z = true
  far : down y z = true → order.le y x = true → down x z = true
  lower : order.le y z = false → down y z = true

/-- `split_2` puts elements that compare equal below. -/
theorem lowers_le : Lowers order fun y z => order.le z y where
  below := id
  above := fun above => le_of_not above
  far := fun below reaches => order.trans _ _ _ below reaches
  lower := fun lower => le_of_not lower

theorem lowers_not_le : Lowers order fun y z => !order.le y z where
  below := fun below => le_of_not (by simpa using below)
  above := fun above => by simpa using above
  far := fun below reaches => by
    rw [above_trans (by simpa using below) reaches]
    rfl
  lower := fun lower => by simpa using lower

/-- The input was split into runs, the last one first; elements moved to the front
past those that `down` puts above them. -/
def SplitsDown (order : TotalPreorder Item) (down : Item → Item → Bool)
    (finish : List (List Item) → Result) (result : Result) (input : List Item) : Prop :=
  ∃ rs, result = finish rs ∧ rs ≠ [] ∧ (∀ run ∈ rs, Up order run) ∧
    Shuffle (fun z other => down other z = true) input rs.reverse.flatten

variable {down : Item → Item → Bool}

theorem SplitsDown.move (before between after : List Item) (z : Item)
    (splits : SplitsDown order down finish result (before ++ z :: (between ++ after)))
    (free : ∀ other ∈ between, down other z = true) :
    SplitsDown order down finish result (before ++ (between ++ z :: after)) := by
  obtain ⟨rs, shape, some, up, shuffle⟩ := splits
  exact ⟨rs, shape, some, up, .move before between after z free shuffle⟩

theorem splitDown_cons : splitDown le finish down x y (z :: l) r rs =
      if down y z then splitDown le finish down y z l (x :: r) rs
      else if down x z then splitDown le finish down z y l (x :: r) rs
      else if r.isEmpty then splitDown le finish down x y l [z] rs
      else splitDownStash le finish down x y l r rs z := by
  cases r <;> simp [splitDown]

/-- What goes below the first element of a run goes below all. -/
theorem Lowers.all (lowers : Lowers order down) (run : order.Ascending (y :: r))
    (next : down y z = true) : ∀ other ∈ y :: r, down other z = true := by
  refine forall_mem_cons.mpr ⟨next, fun other member => ?_⟩
  exact lowers.far next ((pairwise_cons.mp run).1 other member)

theorem Lowers.first (lowers : Lowers order down) (run : order.Ascending (y :: r))
    (next : down y z = true) : order.Ascending (z :: y :: r) :=
  pairwise_cons.mpr ⟨fun other member => lowers.below (lowers.all run next other member), run⟩

theorem Lowers.second (lowers : Lowers order down) (run : order.Ascending (y :: x :: r))
    (stays : down y z = false) (next : down x z = true) : order.Ascending (y :: z :: x :: r) := by
  obtain ⟨bottom, upper⟩ := pairwise_cons.mp run
  refine pairwise_cons.mpr ⟨?_, lowers.first upper next⟩
  exact forall_mem_cons.mpr ⟨lowers.above stays, bottom⟩

section

variable (finish)

mutual

theorem splitDown_splits (lowers : Lowers order down) (x y : Item) (l r : List Item)
    (rs : List (List Item)) (run : order.Ascending (y :: x :: r)) (up : ∀ run ∈ rs, Up order run) :
    SplitsDown order down finish (splitDown order.le finish down x y l r rs)
      (rs.reverse.flatten ++ (y :: x :: r ++ l)) := by
  have upper := (pairwise_cons.mp run).2
  match l with
  | [] =>
    refine ⟨_, by rw [splitDown], by simp, forall_mem_cons.mpr ⟨⟨by simp, run⟩, up⟩, ?_⟩
    simpa using Shuffle.done _
  | z :: l =>
    rw [splitDown_cons]
    split
    case isTrue next =>
      refine .move _ (y :: x :: r) l z ?_ (lowers.all run next)
      exact splitDown_splits lowers y z l (x :: r) rs (lowers.first run next) up
    case isFalse stays =>
    have stays : down y z = false := Bool.eq_false_iff.mpr stays
    split
    case isTrue next =>
      have rest := splitDown_splits lowers z y l (x :: r) rs (lowers.second run stays next) up
      have moved := SplitsDown.move (rs.reverse.flatten ++ [y]) (x :: r) l z
        (by simpa using rest) (lowers.all upper next)
      simpa using moved
    case isFalse past =>
    have past : down x z = false := Bool.eq_false_iff.mpr past
    split
    case isTrue first =>
      obtain rfl := isEmpty_iff.mp first
      have grown : order.Ascending [y, x, z] := by
        refine pairwise_cons.mpr ⟨?_, by simpa using lowers.above past⟩
        have bottom := (pairwise_cons.mp run).1 x (by simp)
        simpa using ⟨bottom, lowers.above stays⟩
      simpa using splitDown_splits lowers x y l [z] rs grown up
    case isFalse => simpa using splitDownStash_splits lowers x y l r rs z run up (lowers.above past)

theorem splitDownStash_splits (lowers : Lowers order down) (x y : Item) (l r : List Item)
    (rs : List (List Item)) (s : Item) (run : order.Ascending (y :: x :: r))
    (up : ∀ run ∈ rs, Up order run) (past : order.le x s = true) :
    SplitsDown order down finish (splitDownStash order.le finish down x y l r rs s)
      (rs.reverse.flatten ++ (y :: x :: r ++ s :: l)) := by
  obtain ⟨bottom, upper⟩ := pairwise_cons.mp run
  have pushed : ∀ run ∈ (y :: x :: r) :: rs, Up order run :=
    forall_mem_cons.mpr ⟨⟨by simp, run⟩, up⟩
  match l with
  | [] =>
    refine ⟨_, by rw [splitDownStash], by simp,
      forall_mem_cons.mpr ⟨⟨by simp, pairwise_singleton _ _⟩, pushed⟩, ?_⟩
    simpa using Shuffle.done _
  | z :: l =>
    rw [splitDownStash]
    split
    case isTrue next =>
      have stash := lowers.far next (order.trans _ _ _ (bottom x (by simp)) past)
      have rest := splitDownStash_splits lowers y z l (x :: r) rs s (lowers.first run next) up
        (order.trans _ _ _ (bottom x (by simp)) past)
      have moved :=
        SplitsDown.move rs.reverse.flatten (y :: x :: r ++ [s]) l z (by simpa using rest)
        (forall_mem_append.mpr ⟨lowers.all run next, by simpa using stash⟩)
      simpa using moved
    case isFalse stays =>
    have stays : down y z = false := Bool.eq_false_iff.mpr stays
    split
    case isTrue next =>
      have stash := lowers.far next past
      have rest :=
        splitDownStash_splits lowers z y l (x :: r) rs s (lowers.second run stays next) up
        (lowers.below stash)
      have moved :=
        SplitsDown.move (rs.reverse.flatten ++ [y]) (x :: r ++ [s]) l z (by simpa using rest)
        (forall_mem_append.mpr ⟨lowers.all upper next, by simpa using stash⟩)
      simpa using moved
    case isFalse =>
    split
    case isTrue next =>
      have started : order.Ascending [z, s] := by
        simpa [Ascending] using le_of_not next
      have rest := splitDown_splits lowers s z l [] ((y :: x :: r) :: rs) started pushed
      have moved := SplitsDown.move (rs.reverse.flatten ++ (y :: x :: r)) [s] l z
        (by simpa using rest) (by simpa using lowers.lower next)
      simpa using moved
    case isFalse other =>
      have started : order.Ascending [s, z] := by
        simpa [Ascending] using other
      simpa using splitDown_splits lowers z s l [] ((y :: x :: r) :: rs) started pushed

end

end

end Otp.Lists
