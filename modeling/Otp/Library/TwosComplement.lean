import Otp.Library.Digits

/-! Integers in two's complement, as vectors of digits that are extended by their sign. -/

namespace Otp.Library.TwosComplement

open List hiding tail
open Digits
open Nat (ofDigits)

theorem testBit_ext {m n : Int} (same : ∀ i, m.testBit i = n.testBit i) : m = n := by
  have apart (k l : Nat) : ∃ i, k.testBit i = false ∧ l.testBit i = false := by
    refine ⟨max k l, ?_, ?_⟩
    · exact Nat.testBit_lt_two_pow (Nat.lt_of_le_of_lt (Nat.le_max_left k l) Nat.lt_two_pow_self)
    · exact Nat.testBit_lt_two_pow (Nat.lt_of_le_of_lt (Nat.le_max_right k l) Nat.lt_two_pow_self)
  cases m with
  | ofNat m =>
    cases n with
    | ofNat n => exact congrArg Int.ofNat (Nat.eq_of_testBit_eq same)
    | negSucc n =>
      obtain ⟨i, first, second⟩ := apart m n
      have bit : m.testBit i = !n.testBit i := same i
      simp [first, second] at bit
  | negSucc m =>
    cases n with
    | ofNat n =>
      obtain ⟨i, first, second⟩ := apart m n
      have bit : (!m.testBit i) = n.testBit i := same i
      simp [first, second] at bit
    | negSucc n =>
      refine congrArg Int.negSucc (Nat.eq_of_testBit_eq fun i => ?_)
      have bit : (!m.testBit i) = !n.testBit i := same i
      simpa using bit

section Width

variable (w : Nat)

/-- The digit with all its bits inverted. -/
def invert (d : Nat) : Nat := 2 ^ w - 1 - d

/-- The integer whose digits are those of the vector, and ones or zeros above. -/
def twos (sign : Bool) (digits : List Nat) : Int :=
  if sign then Int.negSucc (ofDigits (2 ^ w) (digits.map (invert w)))
  else (ofDigits (2 ^ w) digits : Nat)

/-- The digit at a place. -/
def extended (sign : Bool) (digits : List Nat) (k : Nat) : Nat :=
  digits.getD k (if sign then 2 ^ w - 1 else 0)

variable {w}

theorem invert_lt (d : Nat) : invert w d < 2 ^ w := by
  have positive : 0 < 2 ^ w := Nat.two_pow_pos w
  unfold invert
  omega

theorem testBit_invert (small : d < 2 ^ w) (inside : i < w) :
    (invert w d).testBit i = !d.testBit i := by
  have same : invert w d = 2 ^ w - (d + 1) := by
    unfold invert
    omega
  rw [same, Nat.testBit_two_pow_sub_succ small]
  simp [inside]

/-- Digits are determined by their bits. -/
theorem digit_ext (first : d < 2 ^ w) (second : e < 2 ^ w)
    (bits : ∀ i < w, d.testBit i = e.testBit i) : d = e := by
  apply Nat.eq_of_testBit_eq
  intro i
  by_cases inside : i < w
  · exact bits i inside
  · have power : 2 ^ w ≤ 2 ^ i := Nat.pow_le_pow_right (by decide) (Nat.le_of_not_lt inside)
    rw [Nat.testBit_lt_two_pow (Nat.lt_of_lt_of_le first power),
      Nat.testBit_lt_two_pow (Nat.lt_of_lt_of_le second power)]

theorem and_ones (small : d < 2 ^ w) : d &&& (2 ^ w - 1) = d := by
  rw [Nat.and_two_pow_sub_one_eq_mod, Nat.mod_eq_of_lt small]

theorem or_ones (small : d < 2 ^ w) : d ||| (2 ^ w - 1) = 2 ^ w - 1 := by
  have ones : 2 ^ w - 1 < 2 ^ w := Nat.sub_one_lt (Nat.two_pow_pos w).ne'
  refine digit_ext (Nat.or_lt_two_pow small ones) ones fun i inside => ?_
  simp [inside]

theorem xor_ones (small : d < 2 ^ w) : d ^^^ (2 ^ w - 1) = invert w d := by
  have ones : 2 ^ w - 1 < 2 ^ w := Nat.sub_one_lt (Nat.two_pow_pos w).ne'
  refine digit_ext (Nat.xor_lt_two_pow small ones) (invert_lt d) fun i inside => ?_
  rw [Nat.testBit_xor, testBit_invert small inside]
  simp [inside]

theorem invert_invert (small : d < 2 ^ w) : invert w (invert w d) = d := by
  unfold invert
  omega

theorem map_invert_bounded (digits : List Nat) : Bounded (2 ^ w) (digits.map (invert w)) := by
  intro d member
  obtain ⟨e, -, rfl⟩ := mem_map.mp member
  exact invert_lt e

theorem map_invert_invert (bounded : Bounded (2 ^ w) digits) :
    (digits.map (invert w)).map (invert w) = digits := by
  rw [map_map]
  conv_rhs => rw [← map_id digits]
  exact map_congr_left fun d member => invert_invert (bounded d member)

theorem testBit_twos (positive : 0 < w) (bounded : Bounded (2 ^ w) digits) (i : Nat) :
    (twos w sign digits).testBit i = (extended w sign digits (i / w)).testBit (i % w) := by
  have inside : i % w < w := Nat.mod_lt _ positive
  cases sign with
  | false => exact testBit_ofDigits positive bounded i
  | true =>
    show (!(ofDigits (2 ^ w) (digits.map (invert w))).testBit i) = _
    rw [testBit_ofDigits positive (map_invert_bounded digits), extended]
    by_cases here : i / w < digits.length
    · have small := bounded _ (getElem_mem here)
      rw [getD_eq_getElem _ _ (by simpa using here), getD_eq_getElem _ _ here, getElem_map,
        testBit_invert small inside, Bool.not_not]
    · have outside : digits.length ≤ i / w := Nat.le_of_not_lt here
      rw [getD_eq_default _ _ (by simpa using outside), getD_eq_default _ _ outside]
      simp [inside]

/-- An operation on the bits can be done digit by digit. -/
theorem twos_bitwise (positive : 0 < w) {op : Int → Int → Int} {dop : Nat → Nat → Nat}
    {f : Bool → Bool → Bool} (bits : ∀ m n i, (op m n).testBit i = f (m.testBit i) (n.testBit i))
    (digitBits : ∀ d e i, (dop d e).testBit i = f (d.testBit i) (e.testBit i))
    (first : Bounded (2 ^ w) x) (second : Bounded (2 ^ w) y) (result : Bounded (2 ^ w) r)
    (digits : ∀ k, extended w sign r k = dop (extended w xsgn x k) (extended w ysgn y k)) :
    twos w sign r = op (twos w xsgn x) (twos w ysgn y) := by
  apply testBit_ext
  intro i
  rw [bits, testBit_twos positive result, testBit_twos positive first, testBit_twos positive second,
    digits, digitBits]

theorem extended_lt (bounded : Bounded (2 ^ w) digits) (k : Nat) :
    extended w sign digits k < 2 ^ w := by
  have positive : 0 < 2 ^ w := Nat.two_pow_pos w
  unfold extended
  by_cases here : k < digits.length
  · rw [getD_eq_getElem _ _ here]
    exact bounded _ (getElem_mem here)
  · rw [getD_eq_default _ _ (Nat.le_of_not_lt here)]
    split <;> omega

theorem extended_nil (sign : Bool) (k : Nat) :
    extended w sign [] k = if sign then 2 ^ w - 1 else 0 := rfl

theorem extended_low (here : k < low.length) : extended w sign (low ++ high) k = low.getD k 0 := by
  rw [extended, getD_append _ _ _ _ here, getD_eq_getElem _ _ here, getD_eq_getElem _ _ here]

theorem extended_high (above : low.length ≤ k) :
    extended w sign (low ++ high) k = extended w sign high (k - low.length) :=
  getD_append_right _ _ _ _ above

theorem extended_map_invert (sign : Bool) (digits : List Nat) (k : Nat) :
    extended w (!sign) (digits.map (invert w)) k = invert w (extended w sign digits k) := by
  unfold extended
  by_cases here : k < digits.length
  · rw [getD_eq_getElem _ _ (by simpa using here), getD_eq_getElem _ _ here, getElem_map]
  · have outside : digits.length ≤ k := Nat.le_of_not_lt here
    rw [getD_eq_default _ _ (by simpa using outside), getD_eq_default _ _ outside]
    cases sign <;> simp [invert]

section Operation

variable {op : Int → Int → Int} {dop : Nat → Nat → Nat} {f : Bool → Bool → Bool}

/-- Above the digits of the second operand, only its sign counts. -/
theorem twos_combine (positive : 0 < w)
    (bits : ∀ m n i, (op m n).testBit i = f (m.testBit i) (n.testBit i))
    (digitBits : ∀ d e i, (dop d e).testBit i = f (d.testBit i) (e.testBit i))
    (same : low.length = y.length) (first : Bounded (2 ^ w) (low ++ high))
    (second : Bounded (2 ^ w) y) (result : Bounded (2 ^ w) (zipWith dop low y ++ tail))
    (above : ∀ k, extended w sign tail k = dop (extended w xsgn high k) (extended w ysgn [] k)) :
    twos w sign (zipWith dop low y ++ tail) = op (twos w xsgn (low ++ high)) (twos w ysgn y) := by
  apply twos_bitwise positive bits digitBits first second result
  intro k
  have length : (zipWith dop low y).length = low.length := by simp [same]
  by_cases here : k < low.length
  · have inside : k < y.length := same ▸ here
    have digit : extended w ysgn y k = y.getD k 0 := by
      rw [extended, getD_eq_getElem _ _ inside, getD_eq_getElem _ _ inside]
    rw [extended_low (length.symm ▸ here), extended_low here, digit,
      getD_eq_getElem _ _ (length.symm ▸ here),
      getElem_zipWith, getD_eq_getElem _ _ here, getD_eq_getElem _ _ inside]
  · have outside : low.length ≤ k := Nat.le_of_not_lt here
    have digit : extended w ysgn y k = extended w ysgn [] (k - low.length) := by
      rw [extended_nil, extended, getD_eq_default _ _ (same ▸ outside)]
    rw [extended_high (length.symm ▸ outside), extended_high outside, digit, length, above]

/-- The operation keeps what the first operand has above the digits of the second one. -/
theorem twos_high_inj (positive : 0 < w)
    (bits : ∀ m n i, (op m n).testBit i = f (m.testBit i) (n.testBit i))
    (injective : ∀ a b, f a ysgn = f b ysgn → a = b) (fits : y.length ≤ low.length)
    (first : Bounded (2 ^ w) (low ++ high)) (other : Bounded (2 ^ w) (low ++ high'))
    (second : Bounded (2 ^ w) y)
    (equal : op (twos w xsgn (low ++ high)) (twos w ysgn y) =
      op (twos w xsgn (low ++ high')) (twos w ysgn y)) :
    twos w xsgn (low ++ high) = twos w xsgn (low ++ high') := by
  apply testBit_ext
  intro i
  by_cases here : i / w < low.length
  · rw [testBit_twos positive first, testBit_twos positive other, extended_low here,
      extended_low here]
  · have outside : low.length ≤ i / w := Nat.le_of_not_lt here
    have signBit : (twos w ysgn y).testBit i = ysgn := by
      rw [testBit_twos positive second, extended, getD_eq_default _ _ (Nat.le_trans fits outside)]
      cases ysgn <;> simp [Nat.mod_lt _ positive]
    have bit := congrArg (Int.testBit · i) equal
    simp only [bits, signBit] at bit
    exact injective _ _ bit

end Operation

end Width

end Otp.Library.TwosComplement
