import Mathlib.Data.Nat.Log
import Mathlib.Data.Int.Order.Lemmas

/-! Numbers written as bytes, the most significant byte first. -/

namespace Otp.Library

open List

section

variable (bytes : List UInt8)

/-- The number that the bytes write. -/
def ofBytes : Nat :=
  bytes.foldl (fun n byte => n * 256 + byte.toNat) 0

/-- The last `width` bytes of a number. -/
def toBytes : Nat → Nat → List UInt8
  | 0, _ => []
  | width + 1, n => toBytes width (n / 256) ++ [UInt8.ofNat n]

/-- How many bytes a number needs; one for zero. -/
def byteSize (n : Nat) : Nat :=
  Nat.log 256 n + 1

/-- The sign of a two's complement number. -/
def signBit : List UInt8 → Bool
  | [] => false
  | byte :: _ => 128 ≤ byte.toNat

/-- The bytes as a two's complement number. -/
def signedOf : Int :=
  if signBit bytes then (ofBytes bytes : Int) - (256 ^ bytes.length : Nat) else ofBytes bytes

@[simp]
theorem ofBytes_nil : ofBytes [] = 0 := rfl

theorem foldl_ofBytes (n : Nat) :
    bytes.foldl (fun n byte => n * 256 + byte.toNat) n =
      n * 256 ^ bytes.length + ofBytes bytes := by
  induction bytes generalizing n with
  | nil => simp
  | cons byte bytes ih =>
    rw [ofBytes, foldl_cons, foldl_cons, ih, ih (0 * 256 + byte.toNat), length_cons,
      Nat.pow_succ', Nat.zero_add, Nat.add_mul, Nat.mul_assoc, Nat.add_assoc]

theorem ofBytes_cons (byte : UInt8) (bytes : List UInt8) :
    ofBytes (byte :: bytes) = byte.toNat * 256 ^ bytes.length + ofBytes bytes := by
  rw [ofBytes, foldl_cons, foldl_ofBytes, Nat.zero_add]

theorem ofBytes_append (bytes more : List UInt8) :
    ofBytes (bytes ++ more) = ofBytes bytes * 256 ^ more.length + ofBytes more := by
  rw [ofBytes, foldl_append, foldl_ofBytes]
  rfl

theorem ofBytes_lt : ofBytes bytes < 256 ^ bytes.length := by
  induction bytes with
  | nil => simp
  | cons byte bytes ih =>
    have small : byte.toNat + 1 ≤ 256 := byte.toNat_lt
    calc ofBytes (byte :: bytes)
        = byte.toNat * 256 ^ bytes.length + ofBytes bytes := ofBytes_cons byte bytes
      _ < byte.toNat * 256 ^ bytes.length + 256 ^ bytes.length := Nat.add_lt_add_left ih _
      _ = (byte.toNat + 1) * 256 ^ bytes.length := (Nat.succ_mul _ _).symm
      _ ≤ 256 * 256 ^ bytes.length := Nat.mul_le_mul_right _ small
      _ = 256 ^ (byte :: bytes).length := Nat.pow_succ'.symm

@[simp]
theorem ofBytes_replicate_zero (count : Nat) : ofBytes (replicate count 0) = 0 := by
  induction count with
  | zero => rfl
  | succ count ih => simp [replicate_succ, ofBytes_cons, ih]

@[simp]
theorem length_toBytes (width n : Nat) : (toBytes width n).length = width := by
  induction width generalizing n with
  | zero => rfl
  | succ width ih => simp [toBytes, ih]

theorem ofBytes_toBytes (width n : Nat) : ofBytes (toBytes width n) = n % 256 ^ width := by
  induction width generalizing n with
  | zero => simp [toBytes, Nat.mod_one]
  | succ width ih =>
    rw [toBytes, ofBytes_append, ih, Nat.pow_succ', Nat.mod_mul, ofBytes_cons]
    simp
    omega

theorem lt_pow_byteSize (n : Nat) : n < 256 ^ byteSize n := Nat.lt_pow_succ_log_self (by decide) n

theorem pow_le_of_byteSize (n : Nat) (positive : n ≠ 0) : 256 ^ (byteSize n - 1) ≤ n :=
  Nat.pow_log_le_self 256 positive

theorem byteSize_le (n width : Nat) (positive : n ≠ 0) (small : n < 256 ^ width) :
    byteSize n ≤ width := by
  by_contra wide
  have enough : 256 ^ width ≤ 256 ^ (byteSize n - 1) := Nat.pow_le_pow_right (by decide) (by omega)
  have := pow_le_of_byteSize n positive
  omega

theorem signBit_iff (some : bytes ≠ []) :
    signBit bytes = true ↔ 128 * 256 ^ (bytes.length - 1) ≤ ofBytes bytes := by
  cases bytes with
  | nil => exact absurd rfl some
  | cons byte bytes =>
    have rest := ofBytes_lt bytes
    rw [ofBytes_cons, length_cons, Nat.add_sub_cancel, signBit, decide_eq_true_eq]
    constructor
    · intro high
      have := Nat.mul_le_mul_right (256 ^ bytes.length) high
      omega
    · by_contra low
      have := Nat.mul_le_mul_right (256 ^ bytes.length) (show byte.toNat + 1 ≤ 128 by omega)
      rw [Nat.add_mul] at this
      omega

end

end Otp.Library
