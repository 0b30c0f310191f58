import Otp.Beam.OperandDisasm

/-! The loader reads back what the encoder wrote: a word, or a bignum in a new literal. -/

namespace Otp.Beam

open List
open Otp.Library

theorem word_step {byte : UInt8} : BitVec.ofNat 64 n <<< 8 ||| byte.toBitVec.setWidth 64 =
      BitVec.ofNat 64 (n * 256 + byte.toNat) := by
  have small := byte.toNat_lt
  apply BitVec.eq_of_toNat_eq
  rw [BitVec.toNat_or, BitVec.toNat_shiftLeft, BitVec.toNat_ofNat, BitVec.toNat_setWidth,
    BitVec.toNat_ofNat, UInt8.toNat_toBitVec, Nat.shiftLeft_eq,
    show (n % 2 ^ 64 * 2 ^ 8) % 2 ^ 64 = 2 ^ 8 * (n % 2 ^ 56) by omega,
    Nat.mod_eq_of_lt (show byte.toNat < 2 ^ 64 by omega), ← Nat.two_pow_add_eq_or_of_lt small]
  omega

theorem foldl_word {bytes : List UInt8} :
    bytes.foldl (fun (result : Word) byte => result <<< 8 ||| byte.toBitVec.setWidth 64)
      (BitVec.ofNat 64 n) =
      BitVec.ofNat 64 (bytes.foldl (fun n byte => n * 256 + byte.toNat) n) := by
  induction bytes generalizing n with
  | nil => rfl
  | cons byte bytes ih => rw [foldl_cons, foldl_cons, word_step, ih]

theorem getInt_append {count : Nat} (length : bytes.length = count) :
    getInt count (bytes ++ rest) = some (BitVec.ofNat 64 (ofBytes bytes), rest) := by
  subst length
  rw [getInt, if_neg (by simp), take_left, drop_left]
  congr 2
  exact foldl_word

theorem digit_eq : digit xp = BitVec.ofNat 64 (ofBytes xp.reverse) := by
  rw [digit, foldr_eq_foldl_reverse]
  exact foldl_word

theorem ofBytes_of_nonneg (writes : Writes n bytes) (nonneg : 0 ≤ n) :
    (ofBytes bytes : Int) = n ∧ signBit bytes = false := by
  have positive : ¬signBit bytes = true := by
    rw [← signedOf_neg_iff, writes.value]
    omega
  have value := writes.value
  rw [signedOf, if_neg positive] at value
  exact ⟨value, Bool.eq_false_iff.mpr positive⟩

theorem and_power_eq_zero {x : Word} (low : x.toNat < 2 ^ k) (room : k < 64) :
    x &&& ((1 : Word) <<< k) = 0 := by
  apply BitVec.eq_of_toNat_eq
  have power : ((1 : Word) <<< k).toNat = 2 ^ k := by
    rw [BitVec.toNat_shiftLeft, Nat.shiftLeft_eq]
    have : 2 ^ k < 2 ^ 64 := Nat.pow_lt_pow_right (by decide) room
    simpa using this
  rw [BitVec.toNat_and, power]
  apply Nat.eq_of_testBit_eq
  intro i
  by_cases same : k = i
  · subst same
    simp [Nat.testBit_lt_two_pow low]
  · simp [Nat.testBit_two_pow_of_ne same]

/-- The bytes of an unsigned operand are at most nine, and the first of nine is zero. -/
theorem getValue_unsigned (writes : Writes n bytes) (unsigned : tag ≠ .i)
    (range : 0 ≤ n ∧ n < 2 ^ 64) :
    getValue tag bytes.length (bytes ++ rest) literals =
      some ⟨.file tag, BitVec.ofInt 64 n, rest, literals⟩ := by
  obtain ⟨value, clear⟩ := ofBytes_of_nonneg writes range.1
  have two := writes.two
  have nine : bytes.length ≤ 9 := by
    by_contra long
    have size : byteSize n.natAbs ≤ 8 := by
      by_cases zero : n.natAbs = 0
      · rw [zero]
        decide
      · exact byteSize_le _ 8 zero (by omega)
    have := writes.size (by omega)
    omega
  have word : BitVec.ofNat 64 (ofBytes bytes) = BitVec.ofInt 64 n := by
    rw [← value, BitVec.ofInt_natCast]
  rw [getValue.eq_def, if_pos unsigned]
  by_cases last : bytes.length = 9
  · obtain ⟨msb, more, rfl⟩ := exists_cons_of_length_pos (show 0 < bytes.length by omega)
    have eight : more.length = 8 := by simpa using last
    rw [ofBytes_cons, eight] at value word
    have zero : msb.toNat = 0 := by omega
    rw [if_pos last, cons_append]
    dsimp only
    rw [getInt_append eight]
    dsimp only
    rw [if_neg (not_not.mpr (UInt8.toNat_inj.mp zero)), ← word, zero, Nat.zero_mul, Nat.zero_add]
  · rw [if_neg last, getInt_append rfl, word]
    dsimp only
    by_cases full : bytes.length = 8
    · rw [if_pos full]
    · have below : ofBytes bytes < 2 ^ (bytes.length * 8 - 1) := by
        have low : ¬signBit bytes = true := by simp [clear]
        rw [signBit_iff bytes (ne_nil_of_length_pos (by omega))] at low
        have half : 2 ^ (bytes.length * 8 - 1) = 128 * 256 ^ (bytes.length - 1) := by
          rw [show bytes.length * 8 - 1 = 7 + 8 * (bytes.length - 1) by omega, Nat.pow_add,
            Nat.pow_mul]
        omega
      rw [if_neg full, if_pos (by omega), if_neg]
      rw [not_not]
      refine and_power_eq_zero ?_ (by omega)
      rw [← word]
      exact lt_of_le_of_lt (Nat.mod_le _ _) below

/-- The shifts of `get_tag_and_value` extend the sign. -/
theorem toInt_extend (some : 0 < bytes.length) (room : bytes.length ≤ 8) :
    ((BitVec.ofNat 64 (ofBytes bytes) <<< (8 * (8 - bytes.length))).sshiftRight
      (8 * (8 - bytes.length))).toInt = signedOf bytes := by
  have top := signBit_iff bytes (ne_nil_of_length_pos some)
  have small := ofBytes_lt bytes
  rw [BitVec.toInt_sshiftRight, BitVec.toInt_shiftLeft, BitVec.toNat_ofNat, signedOf,
    Int.shiftRight_eq_div_pow]
  generalize bytes.length = count at top small some room
  have counts : count = 1 ∨ count = 2 ∨ count = 3 ∨ count = 4 ∨ count = 5 ∨ count = 6 ∨ count = 7 ∨
    count = 8 := by omega
  split
  · rename_i set
    have high := top.mp set
    rcases counts with rfl | rfl | rfl | rfl | rfl | rfl | rfl | rfl <;>
      simp only [Int.bmod_def] <;> omega
  · rename_i clear
    have low := mt top.mpr clear
    rcases counts with rfl | rfl | rfl | rfl | rfl | rfl | rfl | rfl <;>
      simp only [Int.bmod_def] <;> omega

def magnitude (digits : List Word) : Nat :=
  digits.foldr (fun digit n => digit.toNat + 2 ^ 64 * n) 0

/-- A literal that is the bignum of a number: the sign, and no leading zero digit. -/
structure Constant.Is (constant : Constant) (n : Int) : Prop where
  value : constant.value = n
  normal : ∃ neg digits, constant = .big neg digits ∧ digits.getLastD 0 ≠ 0

theorem big_is (value : magnitude digits = n.natAbs) (sign : neg = true ↔ n < 0)
    (normal : digits.getLastD 0 ≠ 0) : (Constant.big neg digits).Is n := by
  refine ⟨?_, neg, digits, rfl, normal⟩
  change (if neg then -(magnitude digits : Int) else magnitude digits) = n
  split
  · rename_i set
    have := sign.mp set
    omega
  · rename_i clear
    have := mt sign.mpr clear
    omega

theorem smallToBig_is (zero : x.toInt ≠ 0) : (smallToBig x).Is x.toInt := by
  rw [smallToBig]
  split
  · rename_i nonneg
    refine big_is ?_ (by simpa using nonneg) ?_
    · rw [magnitude, foldr_cons, foldr_nil, BitVec.toInt_eq_toNat_cond] at *
      omega
    · rintro rfl
      exact zero rfl
  · have below : x.toInt < 0 := by omega
    refine big_is ?_ (by simpa using below) ?_
    · rw [magnitude, foldr_cons, foldr_nil, BitVec.toNat_neg]
      rw [BitVec.toInt_eq_toNat_cond] at *
      omega
    · intro same
      rw [BitVec.neg_eq_zero_iff.mp same] at zero
      exact zero rfl

/-- The number of bytes with the least significant one first. -/
theorem ofBytes_reverse_cons (byte : UInt8) (bytes : List UInt8) :
    ofBytes (byte :: bytes).reverse = byte.toNat + 256 * ofBytes bytes.reverse := by
  rw [reverse_cons, ofBytes_append, ofBytes_cons]
  simp
  omega

@[simp]
theorem length_negate : (negate bytes carry).length = bytes.length := by
  induction bytes generalizing carry with
  | nil => rfl
  | cons byte bytes ih => simp [negate, ih]

/-- One byte of the negation: the byte and the carry out of it. -/
theorem negate_byte (byte carry : UInt8) (bit : carry = 0 ∨ carry = 1) :
    (~~~byte + carry).toNat + 256 * (if ~~~byte + carry = 0 ∧
      carry = 1 then 1 else 0 : UInt8).toNat =
      255 - byte.toNat + carry.toNat := by
  have sum (c : UInt8) : (~~~byte + c).toNat = (255 - byte.toNat + c.toNat) % 256 := by
    rw [UInt8.toNat_add, UInt8.toNat_not]
    rfl
  have zero : ~~~byte + carry = 0 ↔ (255 - byte.toNat + carry.toNat) % 256 = 0 := by
    rw [← UInt8.toNat_inj, sum]
    rfl
  simp only [zero, sum]
  rcases bit with rfl | rfl
  · simp
    omega
  · split
    · simp at *
      omega
    · simp at *
      omega

/-- The loop computes the two's complement. -/
theorem ofBytes_negate (bytes : List UInt8) (carry : UInt8) (bit : carry = 0 ∨ carry = 1) :
    ofBytes (negate bytes carry).reverse =
      (256 ^ bytes.length - 1 - ofBytes bytes.reverse + carry.toNat) % 256 ^ bytes.length := by
  induction bytes generalizing carry with
  | nil => simp [negate, Nat.mod_one]
  | cons byte bytes ih =>
    have step := negate_byte byte carry bit
    have small := ofBytes_lt bytes.reverse
    have low := (~~~byte + carry).toNat_lt
    have high := byte.toNat_lt
    rw [negate, ofBytes_reverse_cons, ofBytes_reverse_cons, ih _ (by split <;> simp), length_cons,
      Nat.pow_succ', Nat.mod_mul]
    rw [length_reverse] at small
    generalize ofBytes bytes.reverse = rest at small
    generalize (~~~byte + carry).toNat = result at low step ⊢
    generalize (if ~~~byte + carry = 0 ∧ carry = 1 then (1 : UInt8) else 0).toNat = out at step ⊢
    generalize 256 ^ bytes.length = power at small
    have whole : 256 * power - 1 - (byte.toNat + 256 * rest) + carry.toNat =
        result + 256 * (power - 1 - rest + out) := by omega
    rw [whole, Nat.add_mul_mod_self_left, Nat.mod_eq_of_lt low,
      Nat.add_mul_div_left _ _ (by decide), Nat.div_eq_of_lt low, Nat.zero_add]

theorem magnitude_lt (digits : List Word) : magnitude digits < 2 ^ (64 * digits.length) := by
  induction digits with
  | nil => simp [magnitude]
  | cons digit digits ih =>
    have split : magnitude (digit :: digits) = digit.toNat + 2 ^ 64 * magnitude digits := rfl
    rw [length_cons, Nat.mul_succ, Nat.pow_add]
    omega

/-- A leading zero digit makes the number smaller than its digits allow. -/
theorem getLastD_ne_zero (least : 2 ^ (64 * (digits.length - 1)) ≤ magnitude digits) :
    digits.getLastD 0 ≠ 0 := by
  intro zero
  rcases eq_nil_or_concat digits with rfl | ⟨front, last, rfl⟩
  · simp [magnitude] at least
  · rw [concat_eq_append, getLastD_concat] at zero
    subst zero
    have same : magnitude (front.concat 0) = magnitude front := by
      simp [magnitude]
    have small := magnitude_lt front
    rw [length_concat, Nat.add_sub_cancel] at least
    omega

theorem bigDigits_spec :
    magnitude (bigDigits xp) = ofBytes xp.reverse ∧
    (bigDigits xp).length = (xp.length + 7) / 8 := by
  fun_induction bigDigits xp with
  | case1 xp long ih =>
    obtain ⟨value, length⟩ := ih
    have eight : (xp.take 8).length = 8 := by simp; omega
    have small := ofBytes_lt (xp.take 8).reverse
    rw [length_reverse, eight] at small
    refine ⟨?_, ?_⟩
    · have split : magnitude (digit (xp.take 8) :: bigDigits (xp.drop 8)) =
          (digit (xp.take 8)).toNat + 2 ^ 64 * magnitude (bigDigits (xp.drop 8)) := rfl
      conv_rhs => rw [← take_append_drop 8 xp]
      rw [split, digit_eq, BitVec.toNat_ofNat, reverse_append, ofBytes_append,
        length_reverse, eight]
      omega
    · rw [length_cons, length, length_drop]
      omega
  | case2 xp short some =>
    have small := ofBytes_lt xp.reverse
    have bound : 256 ^ xp.length ≤ 256 ^ 8 := Nat.pow_le_pow_right (by decide) (by omega)
    rw [length_reverse] at small
    refine ⟨?_, by simp; omega⟩
    have split : magnitude [digit xp] = (digit xp).toNat := rfl
    rw [split, digit_eq, BitVec.toNat_ofNat, Nat.mod_eq_of_lt (by omega)]
  | case3 xp short none =>
    obtain rfl : xp = [] := eq_nil_of_length_eq_zero (by omega)
    exact ⟨rfl, rfl⟩

/-- A magnitude of no more bytes than it needs that is no small. -/
theorem bytesToBig_is (neg : Bool) (value : ofBytes xp.reverse = n.natAbs)
    (sign : neg = true ↔ n < 0) (large : 2 ^ 63 ≤ n.natAbs) (fits : n.natAbs < bigLimit)
    (length : xp.length = (byteSize n.natAbs + 7) / 8 * 8) :
    ∃ constant, bytesToBig xp neg = some constant ∧ constant.Is n := by
  obtain ⟨sum, count⟩ := bigDigits_spec
  rw [value] at sum
  have least := pow_le_of_byteSize n.natAbs (by omega)
  have size : byteSize n.natAbs ≤ 8 * bigArityMax := byteSize_le _ _ (by omega) (bigLimit_eq ▸ fits)
  have normal : (bigDigits xp).getLastD 0 ≠ 0 := by
    apply getLastD_ne_zero
    rw [sum, limit_eq]
    refine le_trans (Nat.pow_le_pow_right (by decide) ?_) least
    omega
  have is := big_is sum sign normal
  refine ⟨_, ?_, is⟩
  rw [bytesToBig]
  split
  · rename_i d single
    rw [single] at sum
    have whole : d.toNat = n.natAbs := by simpa [magnitude] using sum
    rw [single]
    rw [isUSmall]
    split <;> simp <;> omega
  · rw [if_neg (by omega)]

theorem headD_eq_zero_iff (some : bytes ≠ []) :
    bytes.headD 0 = 0 ↔ ofBytes bytes < 256 ^ (bytes.length - 1) := by
  cases bytes with
  | nil => exact absurd rfl some
  | cons byte bytes =>
    have rest := ofBytes_lt bytes
    rw [headD_cons, ofBytes_cons, length_cons, Nat.add_sub_cancel, ← UInt8.toNat_inj]
    constructor
    · intro zero
      simpa [zero] using rest
    · intro small
      by_contra positive
      have := Nat.le_mul_of_pos_left (256 ^ bytes.length) (Nat.pos_of_ne_zero positive)
      omega

/-- One zero byte in front is dropped, and then there is none. -/
theorem trim_spec (value : ofBytes bytes = m) (positive : m ≠ 0)
    (length : bytes.length = byteSize m ∨ bytes.length = byteSize m + 1) :
    ∃ trimmed, (if bytes.headD 0 = 0 then bytes.tail else bytes) = trimmed ∧
      ofBytes trimmed = m ∧ trimmed.length = byteSize m ∧ trimmed.headD 0 ≠ 0 := by
  have least := pow_le_of_byteSize m positive
  have most := lt_pow_byteSize m
  have size : 0 < byteSize m := Nat.succ_pos _
  have full (bytes : List UInt8) (value : ofBytes bytes = m) (length : bytes.length = byteSize m) :
      bytes.headD 0 ≠ 0 := by
    rw [ne_eq, headD_eq_zero_iff (ne_nil_of_length_pos (by omega)), length]
    omega
  rcases length with same | more
  · exact ⟨bytes, if_neg (full bytes value same), value, same, full bytes value same⟩
  · have zero : bytes.headD 0 = 0 := by
      rw [headD_eq_zero_iff (ne_nil_of_length_pos (by omega)), value, more]
      exact most
    have shorter : bytes.tail.length = byteSize m := by simp [more]
    have kept : ofBytes bytes.tail = m := by
      cases bytes with
      | nil => exact absurd value.symm positive
      | cons byte bytes =>
        rw [headD_cons] at zero
        rw [← value, ofBytes_cons, zero]
        simp
    exact ⟨bytes.tail, if_pos zero, kept, shorter, full _ kept shorter⟩

theorem signBit_iff_and (bytes : List UInt8) : (bytes.headD 0).toNat &&& 0x80 ≠ 0 ↔
    signBit bytes = true := by
  cases bytes with
  | nil => simp [signBit]
  | cons byte bytes =>
    have all : ∀ n < 256, n &&& 0x80 ≠ 0 ↔ 128 ≤ n := by decide +kernel
    rw [signBit, decide_eq_true_eq]
    exact all _ byte.toNat_lt

theorem getLastD_reverse (bytes : List UInt8) : bytes.reverse.getLastD 0 = bytes.headD 0 := by
  cases bytes with
  | nil => rfl
  | cons byte bytes => rw [reverse_cons, getLastD_concat, headD_cons]

/-- The buffer after the negation, the most significant byte first. -/
theorem magnitude_bytes (writes : Writes n bytes) :
    ∃ buffer : List UInt8, (if signBit bytes = true then negate bytes.reverse 1
      else bytes.reverse) =
        buffer.reverse ∧ ofBytes buffer = n.natAbs ∧ buffer.length = bytes.length := by
  have value := writes.value
  have small := ofBytes_lt bytes
  rw [signedOf] at value
  split
  · rename_i negative
    refine ⟨(negate bytes.reverse 1).reverse, by simp, ?_, by simp⟩
    rw [if_pos negative] at value
    have top :=
      (signBit_iff bytes (ne_nil_of_length_pos (by have := writes.two; omega))).mp negative
    have some : 0 < 128 * 256 ^ (bytes.length - 1) :=
      Nat.mul_pos (by decide) (Nat.pow_pos (by decide))
    rw [ofBytes_negate _ 1 (.inr rfl), Nat.mod_eq_of_lt]
    · simp
      omega
    · simp
      omega
  · rename_i positive
    rw [if_neg positive] at value
    exact ⟨bytes, rfl, by omega, rfl⟩

/-- More than eight bytes are written only for numbers beyond a word with a sign. -/
theorem Writes.large (writes : Writes n bytes) (long : 8 < bytes.length) : 2 ^ 63 ≤ n.natAbs := by
  rcases writes.size long with plain | ⟨padded, beyond⟩
  · have zero : n.natAbs ≠ 0 := by
      intro zero
      rw [zero] at plain
      have one : byteSize 0 = 1 := by decide
      omega
    have bound : 256 ^ 8 ≤ 256 ^ (byteSize n.natAbs - 1) :=
      Nat.pow_le_pow_right (by decide) (by omega)
    have := pow_le_of_byteSize n.natAbs zero
    omega
  · have bound : 256 ^ 7 ≤ 256 ^ (byteSize n.natAbs - 1) :=
      Nat.pow_le_pow_right (by decide) (by omega)
    omega

theorem getBig_append (writes : Writes n bytes) (long : 8 < bytes.length)
    (fits : n.natAbs < bigLimit) :
    ∃ constant, constant.Is n ∧ getBig bytes.length (bytes ++ rest) literals =
      some ⟨.q, BitVec.ofNat 64 literals.length, rest, literals ++ [constant]⟩ := by
  obtain ⟨buffer, negated, value, length⟩ := magnitude_bytes writes
  have size := writes.size long
  have large := writes.large long
  obtain ⟨trimmed, trim, kept, short, top⟩ := trim_spec value (by omega)
    (by rw [length]; exact size.imp id And.left)
  have padded :
      ofBytes ((trimmed.reverse.rightpad ((trimmed.reverse.length + 7) / 8 * 8) 0)).reverse =
      n.natAbs := by
    rw [rightpad, reverse_append, reverse_replicate, reverse_reverse, ofBytes_append,
      kept, ofBytes_replicate_zero, Nat.zero_mul, Nat.zero_add]
  obtain ⟨constant, made, is⟩ := bytesToBig_is (decide (signBit bytes = true)) padded
    (by rw [decide_eq_true_eq, ← signedOf_neg_iff, writes.value]) large fits
    (by rw [length_rightpad, length_reverse]; omega)
  refine ⟨constant, is, ?_⟩
  rw [getBig, if_neg (by simp), take_left, drop_left]
  simp only [getLastD_reverse, signBit_iff_and, negated, dropLast_reverse,
    ← apply_ite reverse, trim]
  rw [if_neg top, made]

/-- What the loader returns for an operand: the tag and the word, or a new literal. -/
def Reads (tag : Tag) (n : Int) (rest : List UInt8) (literals : List Constant)
    (loaded : Loaded) : Prop :=
  if tag = .i ∧ isSmall n = false then
    ∃ constant, constant.Is n ∧
      loaded = ⟨.q, BitVec.ofNat 64 literals.length, rest, literals ++ [constant]⟩
  else loaded = ⟨.file tag, BitVec.ofInt 64 n, rest, literals⟩

/-- The integers of the system for the tag `i`, and the words for the others. -/
def InRange (tag : Tag) (n : Int) : Prop :=
  if tag = .i then n.natAbs < bigLimit else 0 ≤ n ∧ n < 2 ^ 64

theorem reads_word (small : tag = .i → isSmall n = true) :
    Reads tag n rest literals ⟨.file tag, BitVec.ofInt 64 n, rest, literals⟩ := by
  rw [Reads, if_neg]
  rintro ⟨integer, large⟩
  rw [small integer] at large
  cases large

theorem reads_literal (large : ¬isSmall n = true) (is : constant.Is n) :
    Reads .i n rest literals ⟨.q, BitVec.ofNat 64 literals.length, rest,
      literals ++ [constant]⟩ := by
  rw [Reads, if_pos ⟨rfl, Bool.eq_false_iff.mpr large⟩]
  exact ⟨constant, is, rfl⟩

theorem getValue_append (writes : Writes n bytes) (range : InRange tag n)
    (rest : List UInt8) (literals : List Constant) :
    ∃ loaded, getValue tag bytes.length (bytes ++ rest) literals = some loaded ∧
      Reads tag n rest literals loaded := by
  have two := writes.two
  by_cases integer : tag = .i
  · subst integer
    rw [getValue.eq_def, if_neg (by simp)]
    by_cases short : bytes.length ≤ 8
    · have value := toInt_extend (by omega) short
      rw [writes.value] at value
      rw [if_pos short, getInt_append rfl]
      dsimp only
      rw [value]
      split
      · rename_i small
        refine ⟨_, rfl, ?_⟩
        have word : Reads .i n rest literals _ := reads_word fun _ => small
        rwa [← value, BitVec.ofInt_toInt, value] at word
      · rename_i large
        refine ⟨_, rfl, reads_literal large ?_⟩
        have zero : n ≠ 0 := by
          rintro rfl
          exact large rfl
        have is := smallToBig_is (value.symm ▸ zero)
        rwa [value] at is
    · have far := writes.large (by omega)
      obtain ⟨constant, is, read⟩ := getBig_append writes (by omega) range
      rw [if_neg short, read]
      refine ⟨_, rfl, reads_literal ?_ is⟩
      rw [isSmall, decide_eq_true_eq]
      omega
  · rw [InRange, if_neg integer] at range
    exact ⟨_, getValue_unsigned writes integer range, reads_word fun h => absurd h integer⟩

theorem two_pow_64_le_bigLimit : 2 ^ 64 ≤ bigLimit := by
  rw [bigLimit]
  have := two_le_bigArityMax
  exact Nat.pow_le_pow_right (by decide) (by omega)

theorem InRange.natAbs_lt (range : InRange tag n) : n.natAbs < bigLimit := by
  rw [InRange] at range
  split at range
  · exact range
  · have := two_pow_64_le_bigLimit
    omega

/-- The length of the bytes is itself a word. -/
theorem Writes.length_lt_word (writes : Writes n bytes) (fits : n.natAbs < bigLimit) :
    bytes.length < 2 ^ 64 := by
  by_contra long
  have far := writes.large (by omega)
  have size : byteSize n.natAbs ≤ 8 * bigArityMax := byteSize_le _ _ (by omega) (bigLimit_eq ▸ fits)
  have arity : bigArityMax < 2 ^ 19 := by
    rw [bigArityMax]
    decide
  have := writes.size (by omega)
  omega

theorem length_word {count : Nat} (long : 8 < count) (word : count < 2 ^ 64) :
    (BitVec.ofInt 64 (count - 9 : Nat) + 9).toNat = count := by
  change ((count - 9) % 2 ^ 64 + 9) % 2 ^ 64 = count
  omega

theorem getTagAndValue_encode (tag : Tag) (n : Int) (range : InRange tag n) (rest : List UInt8)
    (literals : List Constant) :
    ∃ loaded, getTagAndValue literals (encode tag n ++ rest) = some loaded ∧
      Reads tag n rest literals loaded := by
  -- on the magnitude, as for the disassembler
  induction size : n.natAbs using Nat.strong_induction_on generalizing tag n rest with
  | _ magnitude ih =>
    have shape := encode_shape tag n
    generalize encode tag n = bytes at shape
    cases shape with
    | short small first =>
      refine ⟨_, ?_, reads_word fun _ => decide_eq_true (by omega)⟩
      rw [singleton_append, getTagAndValue.eq_def]
      dsimp only
      rw [first.tag_eq, if_pos (first.short_iff.mpr rfl), show _ >>> 4 = _ from first.high_eq,
        ← BitVec.ofInt_natCast, Int.toNat_of_nonneg small.1]
    | middle small first lowByte =>
      refine ⟨_, ?_, reads_word fun _ => decide_eq_true (by omega)⟩
      rw [cons_append, singleton_append, getTagAndValue.eq_def]
      dsimp only
      rw [first.tag_eq, if_neg (by simp [first.short_iff]), if_pos (first.middle_iff.mpr rfl),
        show _ >>> 5 = _ from first.high_eq, Nat.shiftLeft_eq, shift_or, lowByte, Nat.div_add_mod',
        ← BitVec.ofInt_natCast, Int.toNat_of_nonneg small.1]
    | long writes length first =>
      have two := writes.two
      rw [cons_append, getTagAndValue.eq_def]
      dsimp only
      rw [first.tag_eq, if_neg (by simp [first.short_iff]), if_neg (by simp [first.middle_iff]),
        show _ >>> 5 = _ from first.high_eq, if_pos (by omega), Nat.sub_add_cancel two]
      exact getValue_append writes range rest literals
    | longer writes length less first =>
      have word := writes.length_lt_word range.natAbs_lt
      obtain ⟨loaded, read, reads⟩ :=
        ih _ (size ▸ less) .u _ ⟨Int.natCast_nonneg _, by omega⟩ (_ ++ rest) rfl
      rw [cons_append, getTagAndValue.eq_def]
      dsimp only
      rw [first.tag_eq, if_neg (by simp [first.short_iff]), if_neg (by simp [first.middle_iff]),
        show _ >>> 5 = _ from first.high_eq, append_assoc, read]
      subst reads
      dsimp only
      rw [length_word length word]
      exact getValue_append writes range rest literals

/-- The loader reads back every operand that the encoder wrote, with its tag and value, and leaves
the bytes after it. So does the disassembler, unless the number is too low or stands for another
operand: the tag `z` announces the operand that follows, with every number but 1. -/
theorem operand_round_trip {Atom Term : Type} (tag : Tag) (n : Int) (range : InRange tag n)
    (rest : List UInt8) (literals : List Constant) :
    (∃ loaded, getTagAndValue literals (encode tag n ++ rest) = some loaded ∧
      Reads tag n rest literals loaded) ∧
    ((decodeArg (encode tag n ++ rest) : Option (Arg Atom Term × List UInt8)) =
      some (.tagged tag n, rest) ↔
      disasmMin ≤ n ∧ (tag ≠ .z ∨ n = 1)) := by
  refine ⟨getTagAndValue_encode tag n range rest literals, ?_⟩
  have sign (unsigned : tag ≠ .i) : 0 ≤ n := by
    rw [InRange, if_neg unsigned] at range
    exact range.1
  have minimum := disasmMin_le
  by_cases plain : tag = .z
  · subst plain
    refine ⟨fun read => ⟨by have := sign nofun; omega, .inr (decodeArg_extended_one read)⟩, ?_⟩
    rintro ⟨-, tagged | rfl⟩
    · exact absurd rfl tagged
    · have bytes : encode .z 1 = [0x17] := by
        rw [encode]
        rfl
      rw [bytes]
      rfl
  · rw [decodeArg_encode plain range.natAbs_lt sign]
    split <;> simp [*]

theorem operand_round_trip_minus_one :
    (∃ loaded, getTagAndValue [] (encode .i (-1) ++ [7]) = some loaded ∧
      Reads .i (-1) [7] [] loaded) ∧
    (decodeArg (encode .i (-1) ++ [7]) : Option (Arg Unit Unit × List UInt8)) =
      some (.tagged .i (-1), [7]) := by
  have range : InRange .i (-1) := by
    have := two_pow_64_le_bigLimit
    rw [InRange, if_pos rfl]
    omega
  have low := disasmMin_le
  obtain ⟨loaded, decoded⟩ := operand_round_trip .i (-1) range [7] []
  exact ⟨loaded, decoded.mpr ⟨by omega, .inl nofun⟩⟩

/-- The tag `z` with a number that announces no operand. -/
theorem decodeArg_extended :
    (decodeArg (encode .z 5) : Option (Arg Unit Unit × List UInt8)) ≠ some (.tagged .z 5, []) := by
  have bytes : encode .z 5 = [0x57] := by
    rw [encode]
    rfl
  rw [bytes]
  intro same
  cases same

end Otp.Beam
