import Mathlib.Data.Nat.Bitwise
import Mathlib.Algebra.Order.Group.Nat
import Mathlib.Tactic.Ring

/-! Linear hashing: a table of `count` slots, between two powers of two, that
grows and shrinks by one slot at a time. -/

namespace Otp.Library

/-- The number of slots lies between the powers of two of a level. -/
structure Sized (level count : Nat) : Prop where
  positive : 0 < level
  above : 2 ^ (level - 1) < count
  below : count ≤ 2 ^ level

/-- The slot of a hash value. -/
def slotOf (level count hval : Nat) : Nat :=
  if hval % 2 ^ level < count then hval % 2 ^ level else hval % 2 ^ (level - 1)

variable {level count hval : Nat}

theorem Sized.double (sized : Sized level count) : 2 ^ level = 2 * 2 ^ (level - 1) := by
  obtain ⟨lower, rfl⟩ : ∃ lower, level = lower + 1 := ⟨level - 1, by have := sized.positive; omega⟩
  rw [Nat.add_sub_cancel]
  ring

theorem slotOf_lt (sized : Sized level count) : slotOf level count hval < count := by
  unfold slotOf
  split
  · assumption
  · exact (Nat.mod_lt _ (Nat.two_pow_pos _)).trans sized.above

/-- The remainder by half the size is the remainder, less half the size at most once. -/
theorem mod_half (half hval : Nat) (positive : 0 < half) :
    hval % (2 * half) = hval % half ∨ hval % (2 * half) = hval % half + half := by
  have inner : hval % (2 * half) % half = hval % half := Nat.mod_mod_of_dvd _ (Dvd.intro_left 2 rfl)
  have bound : hval % (2 * half) < 2 * half := Nat.mod_lt _ (by omega)
  by_cases small : hval % (2 * half) < half
  · left
    rw [← inner, Nat.mod_eq_of_lt small]
  · right
    have shifted : hval % (2 * half) % half = hval % (2 * half) - half := by
      rw [Nat.mod_eq_sub_mod (Nat.le_of_not_lt small), Nat.mod_eq_of_lt (by omega)]
    rw [← inner, shifted, Nat.sub_add_cancel (Nat.le_of_not_lt small)]

section

variable (sized : Sized level count)

include sized

theorem slotOf_mod : hval % 2 ^ level = slotOf level count hval ∨
      hval % 2 ^ level = slotOf level count hval + 2 ^ (level - 1) := by
  unfold slotOf
  split
  · exact .inl rfl
  · rw [sized.double]
    exact mod_half _ hval (Nat.two_pow_pos _)

/-- The level of a table with one slot more. -/
def growLevel (level count : Nat) : Nat := if count < 2 ^ level then level else level + 1

theorem Sized.grow : Sized (growLevel level count) (count + 1) := by
  have above := sized.above
  have below := sized.below
  unfold growLevel
  split
  case isTrue room => exact ⟨sized.positive, by omega, room⟩
  case isFalse full =>
    refine ⟨Nat.succ_pos level, ?_, ?_⟩
    · rw [Nat.add_sub_cancel]
      omega
    · have := Nat.two_pow_pos level
      omega

/-- With one slot more, the values of the new slot leave their old one. -/
theorem slotOf_grow : slotOf (growLevel level count) (count + 1) hval =
      if hval % 2 ^ growLevel level count = count then count else slotOf level count hval := by
  unfold growLevel
  split
  case isTrue room =>
    unfold slotOf
    by_cases here : hval % 2 ^ level = count
    · rw [if_pos (by omega), if_pos here, here]
    · by_cases inside : hval % 2 ^ level < count
      · rw [if_pos (by omega), if_neg here, if_pos inside]
      · rw [if_neg (by omega), if_neg here, if_neg inside]
  case isFalse full =>
    have same : count = 2 ^ level := Nat.le_antisymm sized.below (Nat.le_of_not_lt full)
    subst same
    have halves := mod_half (2 ^ level) hval (Nat.two_pow_pos _)
    rw [← pow_succ'] at halves
    have bound : hval % 2 ^ level < 2 ^ level := Nat.mod_lt _ (Nat.two_pow_pos _)
    rw [slotOf, slotOf]
    by_cases here : hval % 2 ^ (level + 1) = 2 ^ level
    · rw [if_pos (by omega), if_pos here, here]
    · split
      · omega
      · rfl

/-- The slot that a new slot is split from. -/
def splitSlot (level count : Nat) : Nat := count % 2 ^ (growLevel level count - 1)

theorem Sized.splitSlot_eq : splitSlot level count = count - 2 ^ (growLevel level count - 1) := by
  have above := sized.grow.above
  have below := sized.grow.below
  have double := sized.grow.double
  rw [splitSlot, Nat.mod_eq_sub_mod (by omega), Nat.mod_eq_of_lt (by omega)]

theorem Sized.splitSlot_lt : splitSlot level count < count := by
  have above := sized.grow.above
  have := Nat.two_pow_pos (growLevel level count - 1)
  rw [sized.splitSlot_eq]
  omega

/-- A value in the slot that is split stays there or goes to the new slot. -/
theorem slotOf_split (here : slotOf level count hval = splitSlot level count) :
    hval % 2 ^ growLevel level count = splitSlot level count ∨
    hval % 2 ^ growLevel level count = count := by
  have above := sized.grow.above
  have grown := @slotOf_grow level count hval sized
  by_cases new : hval % 2 ^ growLevel level count = count
  · exact .inr new
  · rw [if_neg new, here] at grown
    left
    rcases @slotOf_mod _ _ hval sized.grow with same | more
    · rw [same, grown]
    · rw [grown, sized.splitSlot_eq] at more
      omega

/-- The values of a new slot come from the slot that is split. -/
theorem slotOf_new (new : hval % 2 ^ growLevel level count = count) :
    slotOf level count hval = splitSlot level count := by
  have lower : hval % 2 ^ (growLevel level count - 1) = splitSlot level count := by
    have inner : hval % 2 ^ growLevel level count % 2 ^ (growLevel level count - 1) =
        hval % 2 ^ (growLevel level count - 1) := by
      rw [sized.grow.double, Nat.mod_mod_of_dvd _ (Dvd.intro_left 2 rfl)]
    rw [← inner, new, splitSlot]
  unfold growLevel at new lower
  split at new
  case isTrue room =>
    rw [if_pos room] at lower
    rw [slotOf, if_neg (by omega), lower]
  case isFalse full =>
    rw [if_neg full, Nat.add_sub_cancel] at lower
    have same : count = 2 ^ level := Nat.le_antisymm sized.below (Nat.le_of_not_lt full)
    have bound : hval % 2 ^ level < 2 ^ level := Nat.mod_lt _ (Nat.two_pow_pos _)
    rw [slotOf, if_pos (bound.trans_eq same.symm), lower]

end

/-- The level of a table with one slot less. -/
def shrinkLevel (level count : Nat) : Nat :=
  if (count - 1) % 2 ^ (level - 1) = 0 then level - 1 else level

theorem Sized.shrink (sized : Sized level (count + 1)) (large : 1 < count) :
    Sized (shrinkLevel level (count + 1)) count ∧
      growLevel (shrinkLevel level (count + 1)) count = level := by
  have above := sized.above
  have below := sized.below
  have double := sized.double
  have positive := sized.positive
  unfold shrinkLevel growLevel
  rw [Nat.add_sub_cancel]
  split
  case isTrue edge =>
    have same : count = 2 ^ (level - 1) := by
      have left : count - 2 ^ (level - 1) < 2 ^ (level - 1) := by omega
      rw [Nat.mod_eq_sub_mod (by omega), Nat.mod_eq_of_lt left] at edge
      omega
    obtain ⟨lower, rfl⟩ : ∃ lower, level = lower + 2 := by
      refine ⟨level - 2, ?_⟩
      by_contra short
      have : level = 1 := by omega
      subst this
      omega
    refine ⟨⟨by omega, ?_, same.le⟩, ?_⟩
    · rw [same]
      exact Nat.pow_lt_pow_right (by decide) (by omega)
    · rw [if_neg (by omega)]
      omega
  case isFalse inner =>
    have strict : 2 ^ (level - 1) ≠ count := by
      intro same
      rw [← same, Nat.mod_self] at inner
      exact inner rfl
    refine ⟨⟨positive, by omega, by omega⟩, ?_⟩
    rw [if_pos (by omega)]

end Otp.Library
