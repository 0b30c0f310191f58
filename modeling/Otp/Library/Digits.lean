import Mathlib

/-! Numbers as vectors of digits, the least significant digit first. -/

namespace Otp.Library.Digits

open List
open Nat (ofDigits)

/-- The digits are digits of the base. -/
def Bounded (base : Nat) (digits : List Nat) : Prop := ∀ d ∈ digits, d < base

instance : Decidable (Bounded base digits) := inferInstanceAs (Decidable (∀ d ∈ digits, d < base))

theorem Bounded.nil : Bounded base [] := fun _ member => absurd member not_mem_nil

theorem bounded_cons : Bounded base (d :: digits) ↔ d < base ∧ Bounded base digits :=
  forall_mem_cons

theorem bounded_append : Bounded base (low ++ high) ↔ Bounded base low ∧ Bounded base high :=
  forall_mem_append

theorem bounded_zipWith (closed : ∀ d e, d < base → e < base → op d e < base)
    (first : Bounded base x) (second : Bounded base y) : Bounded base (zipWith op x y) := by
  induction x generalizing y with
  | nil => exact Bounded.nil
  | cons d x ih =>
    cases y with
    | nil => exact Bounded.nil
    | cons e y =>
      obtain ⟨digit, rest⟩ := bounded_cons.mp first
      obtain ⟨other, others⟩ := bounded_cons.mp second
      exact bounded_cons.mpr ⟨closed d e digit other, ih rest others⟩

theorem Bounded.take (bounded : Bounded base digits) (n : Nat) : Bounded base (digits.take n) :=
  fun d member => bounded d (mem_of_mem_take member)

theorem Bounded.drop (bounded : Bounded base digits) (n : Nat) : Bounded base (digits.drop n) :=
  fun d member => bounded d (mem_of_mem_drop member)

theorem Bounded.lt (bounded : Bounded base digits) (large : 1 < base) :
    ofDigits base digits < base ^ digits.length :=
  Nat.ofDigits_lt_base_pow_length large bounded

/-- No leading zero, unless it is the only digit. -/
structure Normal (base : Nat) (digits : List Nat) : Prop where
  bounded : Bounded base digits
  nonempty : digits ≠ []
  leading : digits.length ≠ 1 → digits.getLast nonempty ≠ 0

theorem Normal.eq_digits (normal : Normal base digits) (large : 1 < base) :
    digits = if ofDigits base digits = 0 then [0] else Nat.digits base (ofDigits base digits) := by
  by_cases last : digits.getLast normal.nonempty = 0
  · have one : digits.length = 1 := by
      by_contra more
      exact normal.leading more last
    obtain ⟨d, rfl⟩ := length_eq_one_iff.mp one
    have zero : d = 0 := last
    simp [zero]
  · have back := Nat.digits_ofDigits base large digits normal.bounded fun _ => last
    have positive : ofDigits base digits ≠ 0 := by
      intro zero
      rw [zero, Nat.digits_zero] at back
      exact normal.nonempty back.symm
    rw [if_neg positive, back]

/-- A number has one normal vector. -/
theorem Normal.unique (first : Normal base digits) (second : Normal base others) (large : 1 < base)
    (same : ofDigits base digits = ofDigits base others) : digits = others := by
  rw [first.eq_digits large, second.eq_digits large, same]

theorem Bounded.leading (bounded : Bounded base digits) (large : 1 < base)
    (nonempty : digits ≠ []) :
    digits.getLast nonempty ≠ 0 ↔ base ^ (digits.length - 1) ≤ ofDigits base digits := by
  obtain ⟨low, d, rfl⟩ := (eq_nil_or_concat' digits).resolve_left nonempty
  have below := (bounded_append.mp bounded).1.lt large
  have value : ofDigits base (low ++ [d]) = ofDigits base low + base ^ low.length * d := by
    rw [Nat.ofDigits_append, Nat.ofDigits_singleton]
  simp only [getLast_append_singleton, length_append, length_singleton, Nat.add_sub_cancel]
  constructor
  · intro positive
    have one : base ^ low.length * 1 ≤ base ^ low.length * d :=
      Nat.mul_le_mul_left _ (Nat.pos_of_ne_zero positive)
    omega
  · rintro reached rfl
    omega

theorem normal_iff (large : 1 < base) : Normal base digits ↔ Bounded base digits ∧ digits ≠ [] ∧
    (digits.length = 1 ∨ base ^ (digits.length - 1) ≤ ofDigits base digits) := by
  constructor
  · intro normal
    refine ⟨normal.bounded, normal.nonempty, ?_⟩
    by_cases one : digits.length = 1
    · exact Or.inl one
    · exact Or.inr ((normal.bounded.leading large normal.nonempty).mp (normal.leading one))
  · rintro ⟨bounded, nonempty, one | reached⟩
    · exact ⟨bounded, nonempty, fun more => absurd one more⟩
    · exact ⟨bounded, nonempty, fun _ => (bounded.leading large nonempty).mpr reached⟩

/-- The vector without the digits `top` at its high end; one digit is kept. -/
def trimTop (top : Nat) (digits : List Nat) : List Nat :=
  if digits.rdropWhile (· = top) = [] then digits.take 1 else digits.rdropWhile (· = top)

/-- The vector without its leading zeros. -/
def trim (digits : List Nat) : List Nat := trimTop 0 digits

theorem ofDigits_rdropWhile (base : Nat) (digits : List Nat) :
    ofDigits base (digits.rdropWhile (· = 0)) = ofDigits base digits := by
  induction digits using reverseRecOn with
  | nil => rfl
  | append_singleton low d ih =>
    by_cases zero : d = 0
    · rw [rdropWhile_concat_pos _ _ _ (by simpa using zero), ih, zero, Nat.ofDigits_append_zero]
    · rw [rdropWhile_concat_neg _ _ _ (by simpa using zero)]

theorem ofDigits_trim (base : Nat) (digits : List Nat) :
    ofDigits base (trim digits) = ofDigits base digits := by
  unfold trim trimTop
  split
  case isTrue empty =>
    have zero := ofDigits_rdropWhile base digits
    rw [empty] at zero
    cases digits with
    | nil => rfl
    | cons d digits =>
      have all := rdropWhile_eq_nil_iff.mp empty
      have first : d = 0 := by simpa using all d mem_cons_self
      rw [take_succ_cons, ← zero, first]
      simp
  case isFalse => exact ofDigits_rdropWhile base digits

theorem trim_normal (bounded : Bounded base digits) (nonempty : digits ≠ []) :
    Normal base (trim digits) := by
  unfold trim trimTop
  split
  case isTrue empty =>
    cases digits with
    | nil => exact absurd rfl nonempty
    | cons d digits =>
      refine ⟨fun e member => bounded e (mem_of_mem_take member), by simp, fun more => ?_⟩
      exact absurd rfl more
  case isFalse some =>
    have shorter : digits.rdropWhile (· = 0) <+: digits := rdropWhile_prefix _ _
    refine ⟨fun d member => bounded d (shorter.subset member), some, fun _ => ?_⟩
    simpa using rdropWhile_last_not _ _ some

theorem map_rdropWhile {digits : List Nat} (f : Nat → Nat)
    (same : ∀ d ∈ digits, f d = f top ↔ d = top) : (digits.map f).rdropWhile (· = f top) =
      (digits.rdropWhile (· = top)).map f := by
  induction digits using reverseRecOn with
  | nil => rfl
  | append_singleton low d ih =>
    have last := same d (by simp)
    rw [map_append, map_singleton]
    by_cases equal : d = top
    · rw [rdropWhile_concat_pos _ _ _ (by simpa using last.mpr equal),
        rdropWhile_concat_pos _ _ _ (by simpa using equal),
        ih fun e member => same e (mem_append_left _ member)]
    · rw [rdropWhile_concat_neg _ _ _ (by simpa using mt last.mp equal),
        rdropWhile_concat_neg _ _ _ (by simpa using equal), map_append, map_singleton]

/-- Digits that are mapped one to one are trimmed at the same place. -/
theorem map_trimTop (f : Nat → Nat) (same : ∀ d ∈ digits, f d = f top ↔ d = top) :
    (trimTop top digits).map f = trimTop (f top) (digits.map f) := by
  unfold trimTop
  rw [map_rdropWhile f same]
  simp only [map_eq_nil_iff]
  split
  · rw [map_take]
  · rfl

/-- The bits of a number in digits of `w` bits. -/
theorem testBit_ofDigits (positive : 0 < w) (bounded : Bounded (2 ^ w) digits) (i : Nat) :
    (ofDigits (2 ^ w) digits).testBit i = (digits.getD (i / w) 0).testBit (i % w) := by
  induction digits generalizing i with
  | nil => simp
  | cons d digits ih =>
    obtain ⟨small, rest⟩ := bounded_cons.mp bounded
    rw [Nat.ofDigits_cons, Nat.add_comm]
    have split : (2 ^ w * ofDigits (2 ^ w) digits + d).testBit i =
        if i < w then d.testBit i else (ofDigits (2 ^ w) digits).testBit (i - w) :=
      Nat.testBit_two_pow_mul_add _ small i
    rw [split]
    by_cases low : i < w
    · rw [if_pos low, Nat.div_eq_of_lt low, Nat.mod_eq_of_lt low]
      rfl
    · have high : w ≤ i := Nat.le_of_not_lt low
      have shift : i / w = (i - w) / w + 1 := by
        rw [← Nat.add_div_right _ positive, Nat.sub_add_cancel high]
      rw [if_neg low, ih rest, shift, Nat.mod_eq_sub_mod high]
      rfl

end Otp.Library.Digits
