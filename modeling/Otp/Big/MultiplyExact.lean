import Otp.Big.MultiplyValue

/-! Multiplication gives the product in normal form. -/

namespace Otp.Big

open List
open Library.Digits
open Nat (ofDigits)

theorem ofDigits_zeros (zeros : ∀ d ∈ digits, d = 0) : ofDigits dBase digits = 0 := by
  rw [eq_replicate_of_mem zeros, Nat.ofDigits_replicate_zero]

theorem Normal.le_value (normal : Normal dBase x) (two : 2 ≤ x.length) :
    dBase ^ (x.length - 1) ≤ ofDigits dBase x :=
  (normal.bounded.leading dBase_large normal.nonempty).mp (normal.leading (by omega))

theorem product_large (first : Normal dBase x) (second : Normal dBase y) (twoX : 2 ≤ x.length)
    (twoY : 2 ≤ y.length) :
    dBase ^ (x.length + y.length - 2) ≤ ofDigits dBase x * ofDigits dBase y := by
  have size : x.length + y.length - 2 = (x.length - 1) + (y.length - 1) := by omega
  rw [size, Nat.pow_add]
  exact Nat.mul_le_mul (Normal.le_value first twoX) (Normal.le_value second twoY)

/-- The memory under `y` is part of the memory under `x`, which is zero. -/
theorem iMul_spec (first : Normal dBase x) (second : Normal dBase y) (twoX : 2 ≤ x.length)
    (twoY : 2 ≤ y.length) (longer : y.length ≤ x.length) (memory : Bounded dBase r)
    (room : x.length + y.length ≤ r.length) (zeros : ∀ d ∈ r.take x.length, d = 0) :
    Normal dBase (iMul x y r) ∧
    ofDigits dBase (iMul x y r) = ofDigits dBase x * ofDigits dBase y := by
  have loop := iMulLoop_spec x y r first.bounded second.bounded memory room
  have under : ofDigits dBase (r.take y.length) = 0 := by
    apply ofDigits_zeros
    intro d member
    exact zeros d (take_subset_take_left r longer member)
  have value := loop.eq
  rw [under] at value
  have result :=
    product_spec loop.bounded (by omega) (loop.length ▸ room)
      (value ▸ product_large first second twoX twoY)
  rw [value] at result
  exact result

/-- The square fits in the memory. -/
theorem iSqrLoop_zeros (first : Normal dBase x) (memory : Bounded dBase r)
    (room : x.length + x.length ≤ r.length) (zeros : ∀ d ∈ r.take (x.length + 1), d = 0) :
    SqrLoopSpec x r (iSqrLoop x r) := by
  have below := first.bounded.lt dBase_large
  apply iSqrLoop_spec x r first.nonempty first.bounded memory room
  rw [ofDigits_zeros zeros, Nat.pow_add]
  exact Nat.mul_lt_mul'' below below

theorem iSqr_spec (first : Normal dBase x) (two : 2 ≤ x.length) (memory : Bounded dBase r)
    (room : x.length + x.length ≤ r.length) (zeros : ∀ d ∈ r.take (x.length + 1), d = 0) :
    Normal dBase (iSqr x r) ∧ ofDigits dBase (iSqr x r) = ofDigits dBase x * ofDigits dBase x := by
  have loop := iSqrLoop_zeros first memory room zeros
  have value := loop.eq
  rw [ofDigits_zeros zeros] at value
  have result :=
    product_spec loop.bounded (by omega) (loop.length ▸ room)
      (value ▸ product_large first first two two)
  rw [value] at result
  exact result

/-- `I_mul` with a first operand that is not the shorter one, and `I_sqr`. -/
theorem multiplication (x y r s t : List Nat) (first : Normal dBase x) (second : Normal dBase y)
    (twoX : 2 ≤ x.length) (twoY : 2 ≤ y.length) (longer : y.length ≤ x.length)
    (memory : Bounded dBase r) (room : x.length + y.length ≤ r.length)
    (zeros : ∀ d ∈ r.take x.length, d = 0) (sqrMemory : Bounded dBase s)
    (sqrRoom : x.length + x.length ≤ s.length) (sqrZeros : ∀ d ∈ s.take (x.length + 1), d = 0)
    (mulMemory : Bounded dBase t) (mulRoom : x.length + x.length ≤ t.length)
    (mulZeros : ∀ d ∈ t.take x.length, d = 0) :
    ofDigits dBase (iMul x y r) = ofDigits dBase x * ofDigits dBase y ∧ Normal dBase (iMul x y r) ∧
      iSqr x s = iMul x x t ∧ (∀ c ∈ (iMulLoop y x r).2, c < dBase) ∧ ∀ c ∈ (iSqrLoop x s).2,
        c < dBase := by
  obtain ⟨normal, value⟩ := iMul_spec first second twoX twoY longer memory room zeros
  obtain ⟨sqrNormal, sqrValue⟩ := iSqr_spec first twoX sqrMemory sqrRoom sqrZeros
  obtain ⟨mulNormal, mulValue⟩ :=
    iMul_spec first first twoX twoX (Nat.le_refl _) mulMemory mulRoom mulZeros
  refine ⟨value, normal, sqrNormal.unique mulNormal dBase_large (sqrValue.trans mulValue.symm),
    ?_, ?_⟩
  · exact (iMulLoop_spec x y r first.bounded second.bounded memory room).carries
  · exact (iSqrLoop_zeros first sqrMemory sqrRoom sqrZeros).carries

/-- The square and the product of 2^128 - 1 and 2^128 - 1. -/
theorem multiplication_masks :
    iMul [dMask, dMask] [dMask, dMask] [0, 0, 5, 6] = [1, 0, dMask - 1, dMask] ∧
      ofDigits dBase (iMul [dMask, dMask] [dMask, dMask] [0, 0, 5, 6]) =
        (2 ^ 128 - 1) * (2 ^ 128 - 1) ∧
      iSqr [dMask, dMask] [0, 0, 0, 6] = iMul [dMask, dMask] [dMask, dMask] [0, 0, 5, 6] := by
  have masks : Normal dBase [dMask, dMask] := ⟨by decide, by decide, by decide⟩
  obtain ⟨value, -, same, -, -⟩ :=
    multiplication [dMask, dMask] [dMask, dMask] [0, 0, 5, 6] [0, 0, 0, 6] [0, 0, 5, 6]
    masks masks (by decide) (by decide) (by decide) (by decide) (by decide) (by decide)
      (by decide) (by decide)
    (by decide) (by decide) (by decide) (by decide)
  exact ⟨by decide +kernel, value.trans (by decide +kernel), same⟩

/-- With a longer second operand, a digit above those that were zeroed is added to the product. -/
theorem mul_reads_memory : Normal dBase [1, 1] ∧ Normal dBase [0, 0, 1] ∧
    (∀ d ∈ [0, 0, 7, 0, 0].take [1, 1].length, d = 0) ∧
    ofDigits dBase (iMul [1, 1] [0, 0, 1] [0, 0, 7, 0, 0]) =
      ofDigits dBase [1, 1] * ofDigits dBase [0, 0, 1] + 7 * 2 ^ 128 ∧
    ofDigits dBase (iMul [1, 1] [0, 0, 1] [0, 0, 7, 0, 0]) ≠
      ofDigits dBase [1, 1] * ofDigits dBase [0, 0, 1] := by
  refine ⟨⟨by decide, by decide, by decide⟩, ⟨by decide, by decide, by decide⟩, by decide, ?_, ?_⟩
  · decide +kernel
  · decide +kernel

theorem dMulLoop_spec (digit : d < dBase) (bounded : Bounded dBase x) (carry : c < dBase) :
    Bounded dBase (dMulLoop d x c) ∧ ofDigits dBase (dMulLoop d x c) = d * ofDigits dBase x + c ∧
      ((dMulLoop d x c).length = x.length ∨ ∃ low top, dMulLoop d x c = low ++ [top] ∧
        top ≠ 0) := by
  induction x generalizing c with
  | nil =>
    unfold dMulLoop
    split
    case isTrue zero => exact ⟨Bounded.nil, by simp [zero], Or.inl rfl⟩
    case isFalse some =>
      exact ⟨bounded_cons.mpr ⟨carry, Bounded.nil⟩, by simp, Or.inr ⟨[], c, rfl, some⟩⟩
  | cons e x ih =>
    obtain ⟨first, rest⟩ := bounded_cons.mp bounded
    obtain ⟨out, equal, step⟩ : ∃ out, (if d = 2 then dsumc e e c else dmulc d e c) = out ∧
      Carries (d * e + c) out := by
      refine ⟨_, rfl, ?_⟩
      split
      case isTrue two =>
        rw [two, Nat.two_mul]
        exact dsumc_spec first first carry
      case isFalse => exact dmulc_spec digit first carry
    have unfolded : dMulLoop d (e :: x) c = out.2 :: dMulLoop d x out.1 := by
      simp only [dMulLoop, equal]
    obtain ⟨restBounded, value, length⟩ := ih rest (step.lt_base digit first carry)
    rw [unfolded]
    refine ⟨bounded_cons.mpr ⟨step.lt, restBounded⟩, ?_, ?_⟩
    · have eq := step.eq
      rw [Nat.ofDigits_cons, Nat.ofDigits_cons, value]
      linarith
    · rcases length with same | ⟨low, top, last, some⟩
      · exact Or.inl (congrArg Nat.succ same)
      · exact Or.inr ⟨out.2 :: low, top, by rw [last, cons_append], some⟩

theorem dMul_spec (normal : Normal dBase x) (digit : d < dBase) :
    Normal dBase (dMul x d) ∧ ofDigits dBase (dMul x d) = ofDigits dBase x * d := by
  unfold dMul
  split_ifs with zero one
  · exact ⟨⟨by decide, by decide, by decide⟩, by simp [zero]⟩
  · exact ⟨normal, by rw [one, Nat.mul_one]⟩
  · obtain ⟨bounded, value, length⟩ := dMulLoop_spec digit normal.bounded dBase_pos
    refine ⟨?_, value.trans (Nat.mul_comm _ _)⟩
    rcases length with same | ⟨low, top, last, some⟩
    · obtain ⟨-, -, size⟩ := (normal_iff dBase_large).mp normal
      have positive := length_pos_iff.mpr normal.nonempty
      refine (normal_iff dBase_large).mpr ⟨bounded, length_pos_iff.mp (same ▸ positive), ?_⟩
      rw [same, value]
      exact size.imp_right fun reached =>
        Nat.le_trans reached (Nat.le_mul_of_pos_left _ (Nat.pos_of_ne_zero zero))
    · rw [last] at bounded ⊢
      exact ⟨bounded, by simp, fun _ => by simpa using some⟩

theorem value_mul (product : ofDigits dBase r = ofDigits dBase x * ofDigits dBase y) :
    value (s != t) r = value s x * value t y := by
  cases s <;> cases t <;> simp [value, product]

theorem times_represents {x y : Bignum} (normal : Normal dBase r)
    (product : ofDigits dBase r = ofDigits dBase x.digits * ofDigits dBase y.digits) :
    Represents (bigNorm r (x.sign != y.sign)) v ↔ v = x.toInt * y.toInt ∧ Fits v := by
  rw [represents_bigNorm normal, value_mul product]
  rfl

/-- Memory after `ZERO_DIGITS`. -/
theorem zero_digits (memory : Bounded dBase m) (inside : n ≤ m.length) :
    Bounded dBase (replicate n 0 ++ m.drop n) ∧ (replicate n 0 ++ m.drop n).length = m.length ∧
      ∀ d ∈ (replicate n 0 ++ m.drop n).take n, d = 0 := by
  refine ⟨bounded_append.mpr ⟨?_, memory.drop n⟩, ?_, ?_⟩
  · intro d member
    rw [eq_of_mem_replicate member]
    exact dBase_pos
  · simp [inside]
  · intro d member
    rw [take_append_of_le_length (by simp), take_of_length_le (by simp)] at member
    exact eq_of_mem_replicate member

/-- The product is represented, if it can be. -/
theorem bigTimes_represents (one : same = true → x = y)
    (memory : Bounded dBase m) (room : x.digits.length + y.digits.length ≤ m.length) :
    Represents (bigTimes x y same m) v ↔ v = x.toInt * y.toInt ∧ Fits v := by
  have someX := length_pos_iff.mpr x.normal.nonempty
  have someY := length_pos_iff.mpr y.normal.nonempty
  unfold bigTimes
  simp only
  split_ifs with shortY shortX equal longer
  · obtain ⟨e, single⟩ := length_eq_one_iff.mp shortY
    have digit : e < dBase := y.normal.bounded e (single ▸ mem_singleton_self e)
    obtain ⟨normal, product⟩ := dMul_spec x.normal digit
    rw [single, headD_cons]
    exact times_represents normal (by rw [product, single, Nat.ofDigits_singleton])
  · obtain ⟨e, single⟩ := length_eq_one_iff.mp shortX
    have digit : e < dBase := x.normal.bounded e (single ▸ mem_singleton_self e)
    obtain ⟨normal, product⟩ := dMul_spec y.normal digit
    rw [single, headD_cons]
    exact times_represents normal (by rw [product, single, Nat.ofDigits_singleton, Nat.mul_comm])
  · obtain rfl := one equal
    obtain ⟨bounded, length, zeros⟩ := @zero_digits m (x.digits.length + 1) memory (by omega)
    obtain ⟨normal, product⟩ := iSqr_spec x.normal (by omega) bounded (by omega) zeros
    exact times_represents normal product
  · obtain ⟨bounded, length, zeros⟩ := @zero_digits m x.digits.length memory (by omega)
    obtain ⟨normal, product⟩ :=
      iMul_spec x.normal y.normal (by omega) (by omega) longer bounded (by omega) zeros
    exact times_represents normal product
  · obtain ⟨bounded, length, zeros⟩ := @zero_digits m y.digits.length memory (by omega)
    obtain ⟨normal, product⟩ :=
      iMul_spec y.normal x.normal (by omega) (by omega) (by omega) bounded (by omega) zeros
    exact times_represents normal (by rw [product, Nat.mul_comm])

/-- The square of 2^64 in memory that is not zero. -/
theorem bigTimes_represents_square : ∃ x : Bignum,
    Represents (bigTimes x x true [5, 6, 7, 8]) (value false [0, 0, 1]) := by
  have normal : Normal dBase [0, 0, 1] := ⟨by decide, by decide, by decide⟩
  refine ⟨⟨false, [0, 1], ⟨by decide, by decide, by decide⟩, nofun⟩, ?_⟩
  exact (bigTimes_represents (fun _ => rfl) (by decide) (by decide)).mpr
    ⟨by decide +kernel, (fits_value normal).mpr (by decide)⟩

end Otp.Big
