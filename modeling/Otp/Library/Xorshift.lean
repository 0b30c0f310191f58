import Mathlib.Data.Nat.Bitwise
import Mathlib.Dynamics.PeriodicPts.Lemmas

/-! Numbers that are combined with shifted copies of themselves by exclusive or. -/

namespace Otp.Library.Xorshift

open Function

/-- A map that respects exclusive or is injective if only zero becomes zero. -/
theorem injective_of_kernel {f : Nat → Nat} (additive : ∀ x y, f (x ^^^ y) = f x ^^^ f y)
    (kernel : ∀ z, f z = 0 → z = 0) : Injective f := by
  intro x y same
  have zero : f (x ^^^ y) = 0 := by rw [additive, same, Nat.xor_self]
  exact Nat.xor_eq_zero_iff.mp (kernel _ zero)

/-- With a copy shifted to the right. -/
def right (k x : Nat) : Nat := x ^^^ (x >>> k)

/-- With a copy of the low `a` bits shifted to the left. -/
def left (a b x : Nat) : Nat := x ^^^ ((x % 2 ^ a) <<< b)

theorem right_injective (positive : 0 < k) : Injective (right k) := by
  refine injective_of_kernel (fun x y => ?_) fun z zero => ?_
  · simp only [right, Nat.shiftRight_xor_distrib]
    ac_rfl
  · have same : z = z >>> k := Nat.xor_eq_zero_iff.mp zero
    by_contra nonzero
    rw [Nat.shiftRight_eq_div_pow] at same
    exact absurd same (Nat.div_lt_self (Nat.pos_of_ne_zero nonzero)
      (Nat.one_lt_two_pow positive.ne')).ne'

/-- A number that is its own low part shifted to the left has only zeros. -/
theorem eq_zero_of_shifted (positive : 0 < b) (same : z = (z % 2 ^ a) <<< b) : z = 0 := by
  rw [Nat.shiftLeft_eq] at same
  have divides (j : Nat) (within : j ≤ a) : 2 ^ j ∣ z := by
    induction j with
    | zero => exact Nat.one_dvd z
    | succ j ih =>
      -- the low part has `j` zeros at its end, so the shifted one has more
      have low : 2 ^ j ∣ z % 2 ^ a :=
        (Nat.dvd_mod_iff (Nat.pow_dvd_pow 2 (by omega))).mpr (ih (by omega))
      rw [same]
      exact (Nat.pow_dvd_pow 2 (by omega)).trans (Nat.pow_add 2 j b ▸ Nat.mul_dvd_mul_right low _)
  rw [same, Nat.mod_eq_zero_of_dvd (divides a le_rfl), Nat.zero_mul]

theorem left_injective (positive : 0 < b) : Injective (left a b) := by
  refine injective_of_kernel (fun x y => ?_) fun z zero => ?_
  · simp only [left, Nat.xor_mod_two_pow, Nat.shiftLeft_xor_distrib]
    ac_rfl
  · exact eq_zero_of_shifted positive (Nat.xor_eq_zero_iff.mp zero)

theorem right_lt (small : x < 2 ^ w) : right k x < 2 ^ w :=
  Nat.xor_lt_two_pow small ((Nat.shiftRight_le x k).trans_lt small)

theorem left_lt (small : x < 2 ^ (a + b)) : left a b x < 2 ^ (a + b) := by
  refine Nat.xor_lt_two_pow small ?_
  rw [Nat.shiftLeft_eq, Nat.pow_add]
  exact Nat.mul_lt_mul_of_pos_right (Nat.mod_lt _ (Nat.two_pow_pos a)) (Nat.two_pow_pos b)

/-- A shift that is cut off is a shift of the low part. -/
theorem left_eq (small : x < 2 ^ (a + b)) : (x ^^^ (x <<< b)) % 2 ^ (a + b) = left a b x := by
  rw [left, Nat.xor_mod_two_pow, Nat.mod_eq_of_lt small, Nat.shiftLeft_eq, Nat.pow_add,
    Nat.mul_mod_mul_right, ← Nat.shiftLeft_eq]

/-- On a finite set that it keeps, an injective map comes back to where it starts. -/
theorem returns_of_injOn {f : State → State} (finite : s.Finite) (keeps : Set.MapsTo f s s)
    (injOn : s.InjOn f) (member : x ∈ s) : ∃ n > 0, f^[n] x = x := by
  have : Finite s := finite
  obtain ⟨n, positive, back⟩ := Injective.mem_periodicPts (keeps.restrict_inj.mpr injOn) ⟨x, member⟩
  rw [IsPeriodicPt, keeps.iterate_restrict] at back
  exact ⟨n, positive, congrArg Subtype.val back⟩

end Otp.Library.Xorshift
