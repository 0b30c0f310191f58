import Otp.Beam.OperandLoad

/-! What the encoder writes: the shape of the first byte, and the bytes of a long operand
as a two's complement number that is no longer than it must be. -/

namespace Otp.Beam

open Otp.Library

/-- The bytes of a long operand. A byte more than the number needs is there for the sign. -/
structure Writes (n : Int) (bytes : List UInt8) : Prop where
  two : 2 ≤ bytes.length
  value : signedOf bytes = n
  size : 8 < bytes.length → bytes.length = byteSize n.natAbs ∨
    bytes.length = byteSize n.natAbs + 1 ∧
      (n < -(128 * 256 ^ (byteSize n.natAbs - 1) : Nat) ∨
        (128 * 256 ^ (byteSize n.natAbs - 1) : Nat) ≤ n)

theorem signedOf_neg_iff : signedOf bytes < 0 ↔ signBit bytes = true := by
  have small := ofBytes_lt bytes
  rw [signedOf]
  split
  · rename_i negative
    exact iff_of_true (by omega) negative
  · rename_i positive
    exact iff_of_false (by omega) positive

theorem signedOf_cons (positive : byte.toNat < 128) :
    signedOf (byte :: bytes) = byte.toNat * (256 ^ bytes.length : Nat) + ofBytes bytes := by
  have clear : signBit (byte :: bytes) = false := by
    rw [signBit, decide_eq_false_iff_not]
    omega
  rw [signedOf, clear, ofBytes_cons]
  rfl

theorem ofBytes_encodeUnsigned (n : Nat) : ofBytes (encodeUnsigned n) = n := by
  rw [encodeUnsigned, ofBytes_toBytes, Nat.mod_eq_of_lt (lt_pow_byteSize n)]

theorem length_encodeUnsigned (n : Nat) : (encodeUnsigned n).length = byteSize n :=
  length_toBytes _ _

theorem two_le_byteSize (large : 256 ≤ n) : 2 ≤ byteSize n := by
  by_contra one
  have small := lt_pow_byteSize n
  have bound : 256 ^ byteSize n ≤ 256 ^ 1 := Nat.pow_le_pow_right (by decide) (by omega)
  omega

theorem positiveToBytes_writes {n : Nat} (large : 256 ≤ n) : Writes n (positiveToBytes n) := by
  have size := two_le_byteSize large
  have length := length_encodeUnsigned n
  have value := ofBytes_encodeUnsigned n
  have high := signBit_iff (encodeUnsigned n) (List.ne_nil_of_length_pos (by omega))
  rw [positiveToBytes]
  split
  · rename_i top
    refine ⟨by rw [List.length_cons]; omega, ?_, fun _ => .inr ⟨by simp [length], .inr ?_⟩⟩
    · rw [signedOf_cons (by decide), value]
      simp
    · rw [length, value] at high
      exact Int.ofNat_le.mpr (high.mp top)
  · rename_i clear
    refine ⟨by omega, ?_, fun _ => .inl (by simp [length])⟩
    rw [signedOf, if_neg clear, value]

/-- The bytes of a negative number that fits in them. -/
theorem intBytes_spec (some : 0 < width) (negative : n < 0) (fits : n.natAbs ≤ 256 ^ width) :
    (ofBytes (intBytes width n) : Int) = n + (256 ^ width : Nat) ∧
      (signBit (intBytes width n) = true ↔ n.natAbs ≤ 128 * 256 ^ (width - 1)) := by
  have shifted : n % (256 ^ width : Nat) = n + (256 ^ width : Nat) := by
    rw [← Int.add_emod_right, Int.emod_eq_of_lt (by omega) (by omega)]
  have value : (ofBytes (intBytes width n) : Int) = n + (256 ^ width : Nat) := by
    rw [intBytes, ofBytes_toBytes, Nat.mod_eq_of_lt (by omega)]
    omega
  have length : (intBytes width n).length = width := length_toBytes _ _
  rw [signBit_iff _ (List.ne_nil_of_length_pos (by omega)), length]
  obtain ⟨below, rfl⟩ : ∃ below, width = below + 1 := ⟨width - 1, by omega⟩
  rw [Nat.add_sub_cancel]
  omega

theorem signedOf_intBytes (some : 0 < width) (negative : n < 0)
    (fits : n.natAbs ≤ 128 * 256 ^ (width - 1)) : signedOf (intBytes width n) = n := by
  have room : 128 * 256 ^ (width - 1) ≤ 256 ^ width := by
    obtain ⟨below, rfl⟩ : ∃ below, width = below + 1 := ⟨width - 1, by omega⟩
    rw [Nat.add_sub_cancel]
    omega
  obtain ⟨value, top⟩ := intBytes_spec some negative (fits.trans room)
  rw [signedOf, if_pos (top.mpr fits), value, intBytes, length_toBytes]
  omega

theorem negativeToBytes_writes (negative : n < 0) : Writes n (negativeToBytes n) := by
  have length (width : Nat) : (intBytes width n).length = width := length_toBytes _ _
  rw [negativeToBytes]
  split
  · refine ⟨by rw [length], signedOf_intBytes (by decide) negative (by omega), ?_⟩
    intro long
    rw [length] at long
    omega
  · have size := two_le_byteSize (n := n.natAbs) (by omega)
    have fits := lt_pow_byteSize n.natAbs
    obtain ⟨value, top⟩ := intBytes_spec (by omega) negative fits.le
    rw [show (-n).toNat = n.natAbs by omega]
    dsimp only
    split
    · rename_i set
      refine ⟨by rw [length]; omega, ?_, fun _ => .inl (length _)⟩
      exact signedOf_intBytes (by omega) negative (top.mp set)
    · rename_i clear
      rw [top] at clear
      refine ⟨by rw [List.length_cons, length]; omega, ?_, fun _ => .inr ⟨?_, .inl (by omega)⟩⟩
      · have set : signBit (0xff :: intBytes (byteSize n.natAbs) n) = true := rfl
        rw [signedOf, if_pos set, ofBytes_cons, List.length_cons, length]
        push_cast at value ⊢
        omega
      · rw [List.length_cons, length]

/-- What the decoders take from the first byte of a short, a middle and a long operand. -/
structure FirstByte (byte : UInt8) (tag : Tag) (short middle : Bool) (high : Nat) : Prop where
  tag_eq : decodeTag (byte.toNat &&& 7) = tag
  short_iff : (byte.toNat &&& 0x08 = 0) ↔ short
  middle_iff : (byte.toNat &&& 0x10 = 0) ↔ middle
  high_eq : byte.toNat >>> (if short then 4 else 5) = high

instance : Decidable (FirstByte byte tag short middle high) :=
  decidable_of_iff (decodeTag (byte.toNat &&& 7) = tag ∧ ((byte.toNat &&& 0x08 = 0) ↔ short) ∧
      ((byte.toNat &&& 0x10 = 0) ↔ middle) ∧ byte.toNat >>> (if short then 4 else 5) = high)
    ⟨fun ⟨tag, short, middle, high⟩ => ⟨tag, short, middle, high⟩,
      fun ⟨tag, short, middle, high⟩ => ⟨tag, short, middle, high⟩⟩

theorem firstByte_short (tag : Tag) (n : Nat) (small : n < 16) :
    ∃ middle, FirstByte (UInt8.ofNat (n <<< 4 ||| tag.code)) tag true middle n := by
  revert n
  cases tag <;> decide +kernel

theorem shiftRight_and_eq : ∀ n < 0x800, (n >>> 3) &&& 0xe0 = (n / 256) <<< 5 := by
  decide +kernel

theorem firstByte_middle (small : n < 0x800) :
    FirstByte (UInt8.ofNat (((n >>> 3) &&& 0xe0) ||| tag.code ||| 0x08)) tag false true
      (n / 256) := by
  rw [shiftRight_and_eq n small]
  have eighth : n / 256 < 8 := by omega
  generalize n / 256 = high at eighth
  revert high
  cases tag <;> decide +kernel

theorem firstByte_long (tag : Tag) (high : Nat) (small : high < 8) :
    FirstByte (UInt8.ofNat (high <<< 5 ||| 0x18 ||| tag.code)) tag false false high := by
  revert high
  cases tag <;> decide +kernel

inductive Shape (tag : Tag) (n : Int) : List UInt8 → Prop
  | short (small : 0 ≤ n ∧ n < 16)
      (first : FirstByte byte tag true middle n.toNat) : Shape tag n [byte]
  | middle (small : 0 ≤ n ∧ n < 0x800)
      (first : FirstByte byte tag false true (n.toNat / 256))
      (low : next.toNat = n.toNat % 256) : Shape tag n [byte, next]
  | long (writes : Writes n bytes) (length : bytes.length ≤ 8)
      (first : FirstByte byte tag false false (bytes.length - 2)) : Shape tag n (byte :: bytes)
  | longer (writes : Writes n bytes) (length : 8 < bytes.length)
      (less : bytes.length - 9 < n.natAbs)
      (first : FirstByte byte tag false false 7) :
      Shape tag n (byte :: (encode .u (bytes.length - 9 : Nat) ++ bytes))

theorem encode1_shape (writes : Writes n bytes)
    (less : 8 < bytes.length → bytes.length - 9 < n.natAbs) : Shape tag n (encode1 tag bytes) := by
  rw [encode1]
  have two := writes.two
  by_cases length : bytes.length ≤ 8
  · rw [if_pos ⟨two, length⟩]
    exact .long writes length (firstByte_long tag _ (by omega))
  · rw [if_neg (fun h => length h.2), if_pos (by omega)]
    exact .longer writes (by omega) (less (by omega)) (firstByte_long tag 7 (by decide))

theorem encode_shape (tag : Tag) (n : Int) : Shape tag n (encode tag n) := by
  rw [encode]
  split
  · rename_i negative
    refine encode1_shape (negativeToBytes_writes negative) fun long => ?_
    have := length_negativeToBytes_le n
    have := byteSize_le_self n.natAbs
    omega
  · split
    · obtain ⟨middle, first⟩ := firstByte_short tag n.toNat (by omega)
      exact .short (by omega) first
    · split
      · refine .middle (by omega) (firstByte_middle (by omega)) ?_
        have mask : n.toNat &&& 0xff = n.toNat % 256 := Nat.and_two_pow_sub_one_eq_mod n.toNat 8
        rw [UInt8.toNat_ofNat']
        omega
      · have writes := positiveToBytes_writes (n := n.toNat) (by omega)
        rw [show ((n.toNat : Nat) : Int) = n by omega] at writes
        refine encode1_shape writes fun long => ?_
        have := length_positiveToBytes_le n.toNat
        have := byteSize_le_self n.toNat
        omega

end Otp.Beam
