import Otp.Big.BitwiseInteger

/-! When the bitwise operations are right. A borrow that goes past the shorter operand is lost in
`big_band` and `big_bxor`. -/

namespace Otp.Big

open Library.Digits Library.TwosComplement
open Nat (ofDigits)

/-- A borrow is left only in the longer operand. -/
theorem Bignum.BorrowLeft.lt {x : Bignum} (left : x.BorrowLeft n) : n < x.digits.length := by
  by_contra short
  obtain ⟨negative, zeros⟩ := left
  rw [List.take_of_length_le (Nat.le_of_not_lt short)] at zeros
  apply x.signed negative
  rw [List.eq_replicate_of_mem zeros, Nat.ofDigits_replicate_zero]

theorem land_comm : Int.land m n = Int.land n m :=
  testBit_ext fun i => by rw [Int.testBit_land, Int.testBit_land, Bool.and_comm]

theorem lor_comm : Int.lor m n = Int.lor n m :=
  testBit_ext fun i => by rw [Int.testBit_lor, Int.testBit_lor, Bool.or_comm]

theorem xor_comm : Int.xor m n = Int.xor n m :=
  testBit_ext fun i => by rw [Int.testBit_lxor, Int.testBit_lxor, Bool.xor_comm]

/-- An operation that keeps the high digits shows whether the borrow was lost. -/
theorem kept_iff {op : Int → Int → Int} {f : Bool → Bool → Bool} {x y : Bignum}
    (fits : y.digits.length ≤ x.digits.length)
    (bits : ∀ m n i, (op m n).testBit i = f (m.testBit i) (n.testBit i))
    (injective : ∀ a b, f a y.sign = f b y.sign → a = b) :
    op x.toInt y.toInt = op (twos 64 x.sign (x.kept y.digits.length)) y.toInt ↔
    ¬ x.BorrowLeft y.digits.length := by
  rw [← x.kept_eq]
  constructor
  · intro equal
    rw [← x.toInt_eq, ← y.toInt_eq, x.digits_split y.digits.length] at equal
    have first := @signedDigits_bounded _ x.sign 1 x.normal.bounded
    rw [x.digits_split y.digits.length] at first
    have low : (signedDigits y.sign y.digits 1).length ≤
        (signedDigits x.sign (x.digits.take y.digits.length) 1).length := by
      simpa using fits
    have same := twos_high_inj (by decide) bits injective low first (x.kept_bounded _)
      (signedDigits_bounded y.normal.bounded) equal
    rw [← x.toInt_eq, x.digits_split y.digits.length]
    exact same.symm
  · intro same
    rw [same]

theorem band_longer {x y : Bignum} (fits : y.digits.length ≤ x.digits.length) :
    Represents (bigNorm (iBand x.digits x.sign y.digits y.sign) (x.sign && y.sign))
      (Int.land x.toInt y.toInt) ↔
      ¬ (y.sign = true ∧ x.BorrowLeft y.digits.length) ∧ Fits (Int.land x.toInt y.toInt) := by
  obtain ⟨normal, result⟩ := iBand_spec fits
  rw [represents_bigNorm normal, result]
  refine and_congr_left fun _ => ?_
  by_cases both : (x.sign && y.sign) = true
  · obtain ⟨-, negative⟩ := Bool.and_eq_true_iff.mp both
    rw [if_pos both, kept_iff fits Int.testBit_land fun a b same => by simpa [negative] using same]
    simp [negative]
  · rw [if_neg both]
    refine iff_of_true rfl fun left => both ?_
    rw [left.1, left.2.1]
    rfl

theorem bor_longer {x y : Bignum} (fits : y.digits.length ≤ x.digits.length) :
    Represents (bigNorm (iBor x.digits x.sign y.digits y.sign) (x.sign || y.sign))
      (Int.lor x.toInt y.toInt) ↔
      Fits (Int.lor x.toInt y.toInt) := by
  obtain ⟨normal, result⟩ := iBor_spec fits
  rw [represents_bigNorm normal, result, and_iff_right rfl]

theorem bxor_longer {x y : Bignum} (fits : y.digits.length ≤ x.digits.length) :
    Represents (bigNorm (iBxor x.digits x.sign y.digits y.sign) (x.sign != y.sign))
      (Int.xor x.toInt y.toInt) ↔
      ¬ x.BorrowLeft y.digits.length ∧ Fits (Int.xor x.toInt y.toInt) := by
  obtain ⟨normal, result⟩ := iBxor_spec fits
  rw [represents_bigNorm normal, result,
    kept_iff fits Int.testBit_lxor fun a b same => by simpa using same]

/-- The operations give the representation of the result in two's complement, if there is one,
exactly when no borrow is lost. -/
theorem bitwise_exact (x y : Bignum) : (Represents (bigBand x y) (Int.land x.toInt y.toInt) ↔
      ¬ (x.sign = true ∧ y.sign = true ∧
        (x.BorrowLeft y.digits.length ∨ y.BorrowLeft x.digits.length)) ∧
        Fits (Int.land x.toInt y.toInt)) ∧
    (Represents (bigBor x y) (Int.lor x.toInt y.toInt) ↔ Fits (Int.lor x.toInt y.toInt)) ∧
    (Represents (bigBxor x y) (Int.xor x.toInt y.toInt) ↔
      ¬ (x.BorrowLeft y.digits.length ∨ y.BorrowLeft x.digits.length) ∧
        Fits (Int.xor x.toInt y.toInt)) ∧
    (Represents (bigBnot x) (Int.lnot x.toInt) ↔ Fits (Int.lnot x.toInt)) := by
  refine ⟨?_, ?_, ?_, ?_⟩
  · unfold bigBand bigBitop
    split
    case isTrue longer =>
      have other : ¬ y.BorrowLeft x.digits.length := fun left => Nat.not_lt.mpr longer left.lt
      rw [band_longer longer]
      refine and_congr_left fun _ =>
        not_congr ⟨fun left => ⟨left.2.1, left.1, Or.inl left.2⟩, fun left => ?_⟩
      exact ⟨left.2.1, left.2.2.resolve_right other⟩
    case isFalse shorter =>
      have longer : x.digits.length ≤ y.digits.length := Nat.le_of_not_le shorter
      have other : ¬ x.BorrowLeft y.digits.length := fun left => Nat.not_lt.mpr longer left.lt
      rw [Bool.and_comm, land_comm, band_longer longer]
      refine and_congr_left fun _ =>
        not_congr ⟨fun left => ⟨left.1, left.2.1, Or.inr left.2⟩, fun left => ?_⟩
      exact ⟨left.1, left.2.2.resolve_left other⟩
  · unfold bigBor bigBitop
    split
    case isTrue longer => exact bor_longer longer
    case isFalse shorter =>
      rw [Bool.or_comm, lor_comm]
      exact bor_longer (Nat.le_of_not_le shorter)
  · unfold bigBxor bigBitop
    split
    case isTrue longer =>
      have other : ¬ y.BorrowLeft x.digits.length := fun left => Nat.not_lt.mpr longer left.lt
      rw [bxor_longer longer, or_iff_left other]
    case isFalse shorter =>
      have longer : x.digits.length ≤ y.digits.length := Nat.le_of_not_le shorter
      have other : ¬ x.BorrowLeft y.digits.length := fun left => Nat.not_lt.mpr longer left.lt
      have signs : (x.sign != y.sign) = (y.sign != x.sign) := by
        cases x.sign <;> cases y.sign <;> rfl
      beta_reduce
      rw [signs, xor_comm, bxor_longer longer, or_iff_right other]
  · obtain ⟨normal, result⟩ := iBnot_spec
    unfold bigBnot
    rw [represents_bigNorm normal, result, and_iff_right rfl]

/-- -2^128 -/
def negPower : Bignum := ⟨true, [0, 0, 1], ⟨by decide, by decide, by decide⟩, by decide⟩

def minusOne : Bignum := ⟨true, [1], ⟨by decide, by decide, by decide⟩, by decide⟩

/-- `-2^128 band -1` is `-(2^128 + 2^64)`. -/
theorem band_loses_borrow : Int.land negPower.toInt minusOne.toInt = -(2 ^ 128) ∧
    bigBand negPower minusOne = .big true [0, 1, 1] ∧ value true [0, 1, 1] = -(2 ^ 128 + 2 ^ 64) ∧
    ¬ Represents (bigBand negPower minusOne) (Int.land negPower.toInt minusOne.toInt) := by
  have expected : Int.land negPower.toInt minusOne.toInt = -(2 ^ 128) := by decide +kernel
  have result : bigBand negPower minusOne = .big true [0, 1, 1] := by decide +kernel
  have wrong : value true [0, 1, 1] = -(2 ^ 128 + 2 ^ 64) := by decide +kernel
  refine ⟨expected, result, wrong, ?_⟩
  intro represents
  have equal := represents.value_eq
  exact absurd equal (by decide)

end Otp.Big
