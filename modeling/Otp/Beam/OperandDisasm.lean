import Otp.Beam.OperandEncode

/-! The disassembler reads back what the encoder wrote. -/

namespace Otp.Beam

open List Otp.Library

variable {Atom Term : Type}

theorem takeBytes_append : takeBytes bytes.length (bytes ++ rest) = some (bytes, rest) := by
  simp [takeBytes]

theorem shift_or (n : Nat) (byte : UInt8) : n * 2 ^ 8 ||| byte.toNat = n * 256 + byte.toNat := by
  rw [← Nat.shiftLeft_eq, ← Nat.shiftLeft_add_eq_or_of_lt byte.toNat_lt]

/-- No shift on the way exceeds the result. -/
theorem buildArg_eq (bytes : List UInt8) (n : Nat)
    (fits : n * 256 ^ bytes.length + ofBytes bytes < bigLimit) :
    buildArg bytes n = some (n * 256 ^ bytes.length + ofBytes bytes) := by
  induction bytes generalizing n with
  | nil => simp [buildArg]
  | cons byte bytes ih =>
    have next : (n * 256 + byte.toNat) * 256 ^ bytes.length + ofBytes bytes =
        n * 256 ^ (byte :: bytes).length + ofBytes (byte :: bytes) := by
      rw [ofBytes_cons, length_cons, Nat.pow_succ', Nat.add_mul, Nat.mul_assoc, Nat.add_assoc]
    have grows : n * 2 ^ 8 ≤ (n * 256 + byte.toNat) * 256 ^ bytes.length :=
      calc n * 2 ^ 8 ≤ n * 256 + byte.toNat := Nat.le_add_right _ _
        _ ≤ (n * 256 + byte.toNat) * 256 ^ bytes.length :=
          Nat.le_mul_of_pos_right _ (Nat.pow_pos (by decide))
    have shifted : bsl n 8 = some (n * 2 ^ 8) := if_pos (by omega)
    rw [buildArg, shifted, ← next]
    simp only [bind, Option.bind_some]
    rw [shift_or]
    exact ih _ (by omega)

/-- Numbers from here on are read back. -/
@[irreducible]
def disasmMin : Int :=
  -(2 ^ (64 * bigArityMax - 9) : Nat)

/-! The limits as powers of 256. They are derived for any number of digits: with the
actual one an evaluation of the power would not end. -/

theorem limit_eq : 2 ^ (64 * digits) = 256 ^ (8 * digits) := by
  rw [show (256 : Nat) = 2 ^ 8 by decide, ← Nat.pow_mul, ← Nat.mul_assoc]

theorem half_limit_eq (two : 2 ≤ digits) :
    2 ^ (64 * digits - 9) = 128 * 256 ^ (8 * digits - 2) := by
  rw [show (256 : Nat) = 2 ^ 8 by decide, show (128 : Nat) = 2 ^ 7 by decide, ← Nat.pow_mul,
    ← Nat.pow_add, show 64 * digits - 9 = 7 + 8 * (8 * digits - 2) by omega]

theorem two_le_bigArityMax : 2 ≤ bigArityMax := by
  rw [bigArityMax]
  decide

theorem bigLimit_eq : bigLimit = 256 ^ (8 * bigArityMax) := by
  rw [bigLimit, limit_eq]

theorem disasmMin_eq : disasmMin = -(128 * 256 ^ (8 * bigArityMax - 2) : Nat) := by
  rw [disasmMin, half_limit_eq two_le_bigArityMax]

theorem disasmMin_le : disasmMin ≤ -128 := by
  have : 0 < 256 ^ (8 * bigArityMax - 2) := Nat.pow_pos (by decide)
  rw [disasmMin_eq]
  omega

/-- A negative number that is not too low has fewer bytes than the limit. -/
theorem Writes.length_lt (writes : Writes n bytes) (two : 2 ≤ digits)
    (low : -(128 * 256 ^ (8 * digits - 2) : Nat) ≤ n) (negative : n < 0) :
    bytes.length < 8 * digits := by
  by_contra wide
  have least := pow_le_of_byteSize n.natAbs (by omega)
  rcases writes.size (by omega) with plain | ⟨padded, beyond | above⟩
  · have : 256 ^ (8 * digits - 2 + 1) ≤ 256 ^ (byteSize n.natAbs - 1) :=
      Nat.pow_le_pow_right (by decide) (by omega)
    omega
  · have : 256 ^ (8 * digits - 2) ≤ 256 ^ (byteSize n.natAbs - 1) :=
      Nat.pow_le_pow_right (by decide) (by omega)
    omega
  · omega

/-- A number that is too low has as many. -/
theorem Writes.le_length (writes : Writes n bytes) (two : 2 ≤ digits)
    (low : n < -(128 * 256 ^ (8 * digits - 2) : Nat)) :
    signBit bytes = true ∧ 8 * digits ≤ bytes.length := by
  have negative : signBit bytes = true := signedOf_neg_iff.mp (writes.value.trans_lt (by omega))
  have filled := writes.two
  have high := (signBit_iff bytes (ne_nil_of_length_pos (by omega))).mp negative
  have value := writes.value
  rw [signedOf, if_pos negative] at value
  refine ⟨negative, ?_⟩
  by_contra short
  have bound : 256 ^ (bytes.length - 1) ≤ 256 ^ (8 * digits - 2) :=
    Nat.pow_le_pow_right (by decide) (by omega)
  obtain ⟨below, length⟩ : ∃ below, bytes.length = below + 1 := ⟨bytes.length - 1, by omega⟩
  rw [length, Nat.add_sub_cancel] at high bound
  rw [length, Nat.pow_succ] at value
  omega

/-- The value that the disassembler computes from the bytes of a long operand. The power of a
number that is too low is no integer of the system. -/
theorem decode_value {tag : Tag} (writes : Writes n bytes) (fits : n.natAbs < bigLimit)
    (sign : tag ≠ .i → 0 ≤ n) : (do
      let number ← buildArg bytes 0
      if signBit bytes ∧ tag = .i then decodeNegative number bytes.length
        else some (number : Int)) =
      if disasmMin ≤ n then some n else none := by
  by_cases low : disasmMin ≤ n
  case neg =>
    obtain ⟨negative, wide⟩ :=
      writes.le_length two_le_bigArityMax (disasmMin_eq ▸ Int.not_le.mp low)
    have integer : tag = .i := by
      by_contra other
      have := sign other
      have := signedOf_neg_iff.mpr negative
      have := writes.value
      omega
    have shifted : bsl 1 (bytes.length * 8) = none := by
      rw [bsl, if_neg]
      rw [Nat.one_mul, Nat.mul_comm, Nat.pow_mul, bigLimit_eq]
      exact Nat.not_lt.mpr (Nat.pow_le_pow_right (by decide) wide)
    simp [negative, integer, decodeNegative, shifted, low]
  rw [if_pos low]
  have value := writes.value
  rw [signedOf] at value
  by_cases negative : signBit bytes = true
  · have below : n < 0 := writes.value ▸ (signedOf_neg_iff).mpr negative
    have integer : tag = .i := by
      by_contra other
      have := sign other
      omega
    have room : 256 ^ bytes.length < bigLimit :=
      bigLimit_eq ▸ Nat.pow_lt_pow_right (by decide)
        (writes.length_lt two_le_bigArityMax (disasmMin_eq ▸ low) below)
    rw [buildArg_eq bytes 0 (by omega), Nat.zero_mul, Nat.zero_add]
    have power : 1 * 2 ^ (bytes.length * 8) = 256 ^ bytes.length := by
      rw [Nat.one_mul, Nat.mul_comm, Nat.pow_mul]
    have shifted : bsl 1 (bytes.length * 8) = some (256 ^ bytes.length) := by
      rw [bsl, power, if_pos room]
    rw [if_pos negative] at value
    simp only [bind, Option.bind_some, decodeNegative, shifted]
    rw [if_pos ⟨negative, integer⟩, ← value]
    rfl
  · rw [if_neg negative] at value
    rw [buildArg_eq bytes 0 (by omega), Nat.zero_mul, Nat.zero_add]
    simp only [bind, Option.bind_some]
    rw [if_neg (fun h => negative h.1), value]

/-- The two masks of the first byte of a middle operand. -/
theorem highBits_shift {byte : UInt8} : (byte.toNat &&& 0xe0) <<< 3 = (byte.toNat >>> 5) <<< 8 := by
  have all : ∀ n < 256, (n &&& 0xe0) <<< 3 = (n >>> 5) <<< 8 := by decide +kernel
  exact all _ byte.toNat_lt

section Recursion

variable {next : List UInt8 → Option (Arg Atom Term × List UInt8)}

theorem decodeInt_short (first : FirstByte byte tag true middle high) :
    decodeInt next tag byte bs = some (.tagged tag high, bs) := by
  rw [decodeInt.eq_def, if_pos (first.short_iff.mpr rfl), ← first.high_eq]
  rfl

theorem decodeInt_middle (first : FirstByte byte tag false true high) :
    decodeInt next tag byte (low :: bs) =
      some (.tagged tag (high * 256 + low.toNat : Nat), bs) := by
  have top : (byte.toNat &&& 0xe0) <<< 3 = high <<< 8 := by
    rw [← first.high_eq]
    exact highBits_shift
  rw [decodeInt, if_neg (by simp [first.short_iff]), if_pos (first.middle_iff.mpr rfl)]
  rw [top, Nat.shiftLeft_eq, shift_or]

theorem decodeInt_long (first : FirstByte byte tag false false high)
    (length : decodeIntLength next byte bs = some (bytes.length, bytes ++ rest))
    (writes : Writes n bytes) (fits : n.natAbs < bigLimit) (sign : tag ≠ .i → 0 ≤ n) :
    decodeInt next tag byte bs = if disasmMin ≤ n then some (.tagged tag n, rest) else none := by
  have value := decode_value writes fits sign
  rw [decodeInt.eq_def, if_neg (by simp [first.short_iff]), if_neg (by simp [first.middle_iff]),
    length]
  simp only [bind, Option.bind_some] at value ⊢
  rw [takeBytes_append]
  have returned : (if disasmMin ≤ n then some (.tagged tag n, rest) else none : Option
    (Arg Atom Term × List UInt8)) =
      (if disasmMin ≤ n then some n else none).bind fun n => some (.tagged tag n, rest) := by
    split <;> rfl
  rw [returned, ← value, Option.bind_assoc, Option.bind_some]
  congr 1
  funext number
  split <;> rfl

theorem decodeIntLength_short (first : FirstByte byte tag false middle high) (short : high < 7) :
    decodeIntLength next byte bs = some (high + 2, bs) := by
  have value : byte.toNat >>> 5 = high := first.high_eq
  rw [decodeIntLength, value]
  split
  · omega
  · rfl

theorem decodeIntLength_long (first : FirstByte byte tag false middle 7)
    (read : next bs = some (.tagged .u (num : Nat), rest)) :
    decodeIntLength next byte bs = some (num + 9, rest) := by
  have value : byte.toNat >>> 5 = 7 := first.high_eq
  rw [decodeIntLength, value]
  rw [read]
  congr 1

/-- One operand is read if the length of a longer one, an operand before later bytes, is. -/
theorem decodeInt_encode (tag : Tag) (n : Int) (rest : List UInt8) (fits : n.natAbs < bigLimit)
    (sign : tag ≠ .i → 0 ≤ n) (reads : ∀ (k : Nat) more, k < n.natAbs →
      (encode .u k ++ more).length < (encode tag n ++ rest).length →
      next (encode .u k ++ more) = some (.tagged .u k, more)) :
    ∃ byte bs, encode tag n ++ rest = byte :: bs ∧ decodeTag (byte.toNat &&& 7) = tag ∧
      decodeInt next tag byte bs = if disasmMin ≤ n then some (.tagged tag n, rest) else none := by
  have minimum := disasmMin_le
  have shape := encode_shape tag n
  generalize encode tag n = bytes at shape reads
  cases shape with
  | short small first =>
    refine ⟨_, _, cons_append, first.tag_eq, ?_⟩
    rw [nil_append, decodeInt_short first, Int.toNat_of_nonneg small.1, if_pos (by omega)]
  | middle small first lowByte =>
    refine ⟨_, _, cons_append, first.tag_eq, ?_⟩
    rw [singleton_append, decodeInt_middle first, lowByte, Nat.div_add_mod',
      Int.toNat_of_nonneg small.1, if_pos (by omega)]
  | long writes length first =>
    have two := writes.two
    refine ⟨_, _, cons_append, first.tag_eq, decodeInt_long first ?_ writes fits sign⟩
    rw [decodeIntLength_short first (by omega), Nat.sub_add_cancel two]
  | longer writes length less first =>
    refine ⟨_, _, cons_append, first.tag_eq, decodeInt_long first ?_ writes fits sign⟩
    rw [append_assoc, decodeIntLength_long first (reads _ _ less (by simp)),
      Nat.sub_add_cancel length]

end Recursion

/-- `decode_arg/1` returns the tag and the number and reads the bytes of the operand. -/
theorem decodeArgWithin_encode (tag : Tag) (n : Int) (rest : List UInt8) (depth : Nat)
    (plain : tag ≠ .z) (fits : n.natAbs < bigLimit) (sign : tag ≠ .i → 0 ≤ n)
    (enough : (encode tag n ++ rest).length ≤
      depth) : (decodeArgWithin depth (encode tag n ++ rest) : Option
      (Arg Atom Term × List UInt8)) =
      if disasmMin ≤ n then some (.tagged tag n, rest) else none := by
  have minimum := disasmMin_le
  induction depth generalizing tag n rest with
  | zero =>
    have shape := encode_shape tag n
    generalize encode tag n = bytes at shape enough
    cases shape <;> simp at enough
  | succ depth ih =>
    obtain ⟨byte, bs, split, tag_eq, read⟩ := decodeInt_encode tag n rest fits sign
      fun k more less shorter =>
        (ih .u k more (by decide) (by omega) (by omega) (by omega)).trans (if_pos (by omega))
    rw [split, decodeArgWithin, tag_eq, ← read]
    cases tag <;> first | rfl | exact absurd rfl plain

theorem decodeArg_encode (plain : tag ≠ .z) (fits : n.natAbs < bigLimit) (sign : tag ≠ .i → 0 ≤ n) :
    (decodeArg (encode tag n ++ rest) : Option (Arg Atom Term × List UInt8)) =
      if disasmMin ≤ n then some (.tagged tag n, rest) else none :=
  decodeArgWithin_encode tag n rest _ plain fits sign (Nat.le_refl _)

theorem decodeInt_tagged {next : List UInt8 → Option (Arg Atom Term × List UInt8)}
    (read : decodeInt next tag byte bs = some (arg, rest)) : ∃ n, arg = .tagged tag n := by
  rw [decodeInt.eq_def] at read
  split at read
  · cases read
    exact ⟨_, rfl⟩
  · split at read
    · cases bs with
      | nil => cases read
      | cons _ _ => cases read; exact ⟨_, rfl⟩
    · simp only [bind, Option.bind_eq_some_iff] at read
      obtain ⟨_, _, _, _, _, _, read⟩ := read
      split at read
      · obtain ⟨_, _, same⟩ := Option.bind_eq_some_iff.mp read
        cases same
        exact ⟨_, rfl⟩
      · cases read
        exact ⟨_, rfl⟩

theorem decodeAllocList_alloc {next : List UInt8 → Option (Arg Atom Term × List UInt8)}
    (read : decodeAllocList next literals k bs acc = some (arg, rest)) :
    ∃ list, arg = .alloc list := by
  induction k generalizing bs acc with
  | zero =>
    cases read
    exact ⟨_, rfl⟩
  | succ k ih =>
    simp only [decodeAllocList, bind, Option.bind_eq_some_iff] at read
    obtain ⟨_, _, _, _, _, _, _, _, read⟩ := read
    split at read
    · exact ih read
    · exact ih read
    · split at read
      · exact ih read
      · cases read
    · cases read

/-- Of the tag `z` only the number 1 is returned as it is. -/
theorem decodeArg_extended_one
    (read : (decodeArg bs : Option (Arg Atom Term × List UInt8)) = some (.tagged .z n, rest)) :
    n = 1 := by
  rw [decodeArg] at read
  cases bs with
  | nil => cases read
  | cons b bs =>
    rw [length_cons, decodeArgWithin] at read
    split at read
    · rw [decodeZTagged] at read
      split at read
      · split at read
        · simp only [decodeFloat, bind, Option.bind_eq_some_iff] at read
          obtain ⟨_, _, read⟩ := read
          split at read <;> cases read
        · cases read
          rfl
        · simp only [bind, Option.bind_eq_some_iff] at read
          obtain ⟨_, _, _, _, same⟩ := read
          cases same
        · simp only [bind, Option.bind_eq_some_iff] at read
          obtain ⟨_, _, read⟩ := read
          split at read
          · obtain ⟨_, same⟩ := decodeAllocList_alloc read
            cases same
          · cases read
        · simp only [bind, Option.bind_eq_some_iff] at read
          obtain ⟨_, _, read⟩ := read
          split at read
          · obtain ⟨_, _, same⟩ := Option.map_eq_some_iff.mp read
            cases same
          · cases read
        · cases read
      · cases read
    · rename_i other
      obtain ⟨_, same⟩ := decodeInt_tagged read
      exact absurd (Arg.tagged.inj same).1.symm other

/-- `decode_arg/3` differs for the index of an atom only. -/
theorem decodeArg_3_encode (plain : tag ≠ .z)
    (fits : n.natAbs < bigLimit) (low : disasmMin ≤ n) (sign : tag ≠ .i → 0 ≤ n)
    {atoms : Int → Option Atom} {literals : Int → Option (Literal Term)} :
    decodeArg_3 atoms literals (encode tag n ++ rest) =
      if tag = .a then
        if n = 0 then some (.nil, rest) else (atoms n).map fun name => (.atom name, rest)
      else some (.tagged tag n, rest) := by
  have minimum := disasmMin_le
  have reads (k : Nat) (more : List UInt8) (less : k < n.natAbs) :
      (decodeArg (encode .u k ++ more) : Option (Arg Atom Term × List UInt8)) =
        some (.tagged .u k, more) :=
    (decodeArg_encode (by decide) (by omega) (by omega)).trans (if_pos (by omega))
  obtain ⟨byte, bs, split, tag_eq, read⟩ :=
    decodeInt_encode tag n rest fits sign fun k more less _ => reads k more less
  rw [if_pos low] at read
  rw [split, decodeArg_3, tag_eq]
  cases tag with
  | z => exact absurd rfl plain
  | a =>
    rw [read]
    by_cases zero : n = 0
    · rw [zero]
      rfl
    · split <;> simp_all
  | _ => exact read

/-- The second atom. -/
theorem decodeArg_3_encode_atom : decodeArg_3 (fun i => if i = 2 then some "ok" else none)
    (fun _ => (none : Option (Literal Unit))) (encode .a 2 ++ [7]) = some (.atom "ok", [7]) := by
  have large : 2 < bigLimit := by
    rw [bigLimit]
    have := two_le_bigArityMax
    exact (show 2 < 2 ^ 64 by decide).trans_le (Nat.pow_le_pow_right (by decide) (by omega))
  exact decodeArg_3_encode (n := 2) (by decide) large (by rw [disasmMin_eq]; omega) (by decide)

end Otp.Beam
