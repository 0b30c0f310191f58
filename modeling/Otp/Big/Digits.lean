import Otp.Library.Digits

/-! The digits of `big.c`: a word of 64 bits, without a type for two words. The macros with a
carry give the carry and the digit, in this order. -/

namespace Otp.Big

open List Library.Digits
open Nat (ofDigits)

/-- The digits have `D_EXP` bits. -/
def dBase : Nat := 2 ^ 64

def dMask : Nat := dBase - 1

def hExp : Nat := 32

def loMask : Nat := 2 ^ 32 - 1

def hiMask : Nat := loMask <<< 32

theorem dBase_eq : dBase = 2 ^ 64 := rfl

theorem dBase_large : 1 < dBase := by decide

theorem dBase_pos : 0 < dBase := by decide

def dsum (a b : Nat) : Nat × Nat :=
  let xr := (b + a) % dBase
  (if xr < b then 1 else 0, xr)

def dsumc (a b c : Nat) : Nat × Nat :=
  let xr := (a + c) % dBase
  let cr := if xr < c then 1 else 0
  let xr := (b + xr) % dBase
  (cr + if xr < b then 1 else 0, xr)

def dsub (a b : Nat) : Nat × Nat :=
  let yr := (dBase + a - b) % dBase
  (if yr > a then 1 else 0, yr)

def dsubb (a b r : Nat) : Nat × Nat :=
  let yr := (b + r) % dBase
  let cr := if yr < r then 1 else 0
  let yr := (dBase + a - yr) % dBase
  (cr + if yr > a then 1 else 0, yr)

/-- `a * b + d1`. -/
def dmulc (a b d1 : Nat) : Nat × Nat :=
  let a0 := a % 2 ^ hExp
  let a1 := (a >>> hExp) % 2 ^ hExp
  let b0 := b % 2 ^ hExp
  let b1 := (b >>> hExp) % 2 ^ hExp
  let a0b0 := a0 * b0
  let a0b1 := a0 * b1
  let a1b0 := a1 * b0
  let a1b1 := a1 * b1
  let (c0, p0) := dsum a0b0 d1
  let (p2, p1) := dsum ((c0 <<< hExp) % dBase) (p0 >>> hExp)
  let (c0, p1) := dsum p1 a0b1
  let p2 := p2 + c0
  let (c0, p1) := dsum p1 a1b0
  let p2 := p2 + c0
  let (c0, p1) := dsum p1 ((a1b1 <<< hExp) % dBase)
  let p2 := p2 + c0
  let (_, p2) := dsum a1b1 ((p2 <<< hExp) % dBase)
  ((p2 &&& hiMask) ||| (p1 >>> hExp), ((p1 <<< hExp) % dBase) ||| (p0 &&& loMask))

def dmul (a b : Nat) : Nat × Nat := dmulc a b 0

/-- A number as a carry and a digit. -/
structure Carries (total : Nat) (out : Nat × Nat) : Prop where
  eq : out.2 + dBase * out.1 = total
  lt : out.2 < dBase

/-- A difference as a borrow and a digit. -/
structure Borrows (a b : Nat) (out : Nat × Nat) : Prop where
  eq : a + dBase * out.1 = b + out.2
  lt : out.2 < dBase

theorem Carries.carry_lt (carries : Carries total out) (small : total < dBase * bound) :
    out.1 < bound := by
  have le : dBase * out.1 < dBase * bound :=
    Nat.lt_of_le_of_lt (Nat.le_add_left _ _) (carries.eq ▸ small)
  exact Nat.lt_of_mul_lt_mul_left le

theorem dsum_spec (first : a < dBase) (second : b < dBase) : Carries (a + b) (dsum a b) := by
  rw [dBase_eq] at first second
  constructor
  · simp only [dsum]
    rw [dBase_eq]
    split_ifs <;> omega
  · exact Nat.mod_lt _ dBase_pos

theorem dsumc_spec (first : a < dBase) (second : b < dBase) (carry : c < dBase) :
    Carries (a + b + c) (dsumc a b c) := by
  rw [dBase_eq] at first second carry
  constructor
  · simp only [dsumc]
    rw [dBase_eq]
    split_ifs <;> omega
  · exact Nat.mod_lt _ dBase_pos

theorem dsumc_carry (first : a < dBase) (second : b < dBase) (carry : c ≤ 1) :
    (dsumc a b c).1 ≤ 1 := by
  have below : c < dBase := Nat.lt_of_le_of_lt carry dBase_large
  have bound : (dsumc a b c).1 < 2 := (dsumc_spec first second below).carry_lt (by omega)
  exact Nat.le_of_lt_succ bound

theorem dsub_spec (first : a < dBase) (second : b < dBase) : Borrows a b (dsub a b) := by
  rw [dBase_eq] at first second
  constructor
  · simp only [dsub]
    rw [dBase_eq]
    split_ifs <;> omega
  · exact Nat.mod_lt _ dBase_pos

theorem and_hiMask (small : p < dBase) : p &&& hiMask = 2 ^ 32 * (p / 2 ^ 32) := by
  apply Nat.eq_of_testBit_eq
  intro i
  have high : hiMask = 2 ^ 32 * (2 ^ 32 - 1) := by decide
  have bits : p < 2 ^ 64 := small
  rw [high, Nat.testBit_and, Nat.testBit_two_pow_mul, Nat.testBit_two_pow_mul,
    Nat.testBit_div_two_pow, Nat.testBit_two_pow_sub_one]
  by_cases low : 32 ≤ i
  · rw [Nat.sub_add_cancel low]
    by_cases inside : i < 64
    · simp [low, show i - 32 < 32 by omega]
    · have outside : p.testBit i = false :=
        Nat.testBit_lt_two_pow (Nat.lt_of_lt_of_le bits
          (Nat.pow_le_pow_right (by decide) (Nat.le_of_not_lt inside)))
      simp [outside]
  · simp [low]

/-- A product of halves is one digit. -/
theorem half_mul_lt (first : a < 2 ^ 32) (second : b < 2 ^ 32) : a * b < 2 ^ 64 := by
  have bound : a * b < 2 ^ 32 * 2 ^ 32 := Nat.mul_lt_mul'' first second
  exact bound

theorem shiftLeft_half : (p <<< 32) % dBase = 2 ^ 32 * (p % 2 ^ 32) := by
  have two : dBase = 2 ^ 32 * 2 ^ 32 := by decide
  rw [Nat.shiftLeft_eq, two, Nat.mul_comm, Nat.mul_mod_mul_left]

theorem dsum_bits (first : a < 2 ^ 64) (second : b < 2 ^ 64) :
    (dsum a b).2 + 2 ^ 64 * (dsum a b).1 = a + b ∧ (dsum a b).2 < 2 ^ 64 :=
  ⟨(dsum_spec first second).eq, (dsum_spec first second).lt⟩

/-- The carries of the middle digit are counted in `k`. -/
theorem mul_recompose (low : p0 + 2 ^ 64 * c0 = a0b0 + d)
    (mid : p1 + 2 ^ 64 * k = 2 ^ 32 * c0 + p0 / 2 ^ 32 + a0b1 + a1b0 + 2 ^ 32 * (a1b1 % 2 ^ 32)) :
    a0b0 + 2 ^ 32 * a0b1 + 2 ^ 32 * a1b0 + 2 ^ 64 * a1b1 + d =
      p0 % 2 ^ 32 + 2 ^ 32 * p1 + 2 ^ 96 * (k + a1b1 / 2 ^ 32) := by
  omega

theorem mul_high (small : 2 ^ 96 * (k + a1b1 / 2 ^ 32) < 2 ^ 128) (digit : p2 < 2 ^ 64)
    (high : p2 + 2 ^ 64 * c = a1b1 + 2 ^ 32 * k) : p2 / 2 ^ 32 = k + a1b1 / 2 ^ 32 := by
  omega

theorem mul_total (first : a < 2 ^ 64) (second : b < 2 ^ 64) (third : d < 2 ^ 64) :
    a * b + d < 2 ^ 128 := by
  have bound : a * b ≤ (2 ^ 64 - 1) * (2 ^ 64 - 1) := Nat.mul_le_mul (by omega) (by omega)
  omega

theorem mul_halves : a * b = a % 2 ^ 32 * (b % 2 ^ 32) + 2 ^ 32 * (a % 2 ^ 32 * (b / 2 ^ 32)) +
    2 ^ 32 * (a / 2 ^ 32 * (b % 2 ^ 32)) + 2 ^ 64 * (a / 2 ^ 32 * (b / 2 ^ 32)) := by
  conv_lhs => rw [← Nat.mod_add_div a (2 ^ 32), ← Nat.mod_add_div b (2 ^ 32)]
  ring

theorem dmulc_spec (first : a < dBase) (second : b < dBase) (third : d < dBase) :
    Carries (a * b + d) (dmulc a b d) := by
  rw [dBase_eq] at first second third
  have total := mul_total first second third
  have highA : a / 2 ^ 32 < 2 ^ 32 := by omega
  have highB : b / 2 ^ 32 < 2 ^ 32 := by omega
  have lowA : a % 2 ^ 32 < 2 ^ 32 := Nat.mod_lt _ (by decide)
  have lowB : b % 2 ^ 32 < 2 ^ 32 := Nat.mod_lt _ (by decide)
  simp only [dmulc, hExp, shiftLeft_half, Nat.shiftRight_eq_div_pow, Nat.mod_eq_of_lt highA,
    Nat.mod_eq_of_lt highB]
  rw [mul_halves] at total ⊢
  have bound00 := half_mul_lt lowA lowB
  have bound01 := half_mul_lt lowA highB
  have bound10 := half_mul_lt highA lowB
  have bound11 := half_mul_lt highA highB
  generalize a % 2 ^ 32 * (b % 2 ^ 32) = a0b0 at *
  generalize a % 2 ^ 32 * (b / 2 ^ 32) = a0b1 at *
  generalize a / 2 ^ 32 * (b % 2 ^ 32) = a1b0 at *
  generalize a / 2 ^ 32 * (b / 2 ^ 32) = a1b1 at *
  obtain ⟨sum0, small0⟩ := dsum_bits bound00 third
  generalize dsum a0b0 d = out0 at *
  rw [Nat.mod_eq_of_lt (show out0.1 < 2 ^ 32 by omega)]
  obtain ⟨sum1, small1⟩ := @dsum_bits (2 ^ 32 * out0.1) (out0.2 / 2 ^ 32) (by omega) (by omega)
  generalize dsum (2 ^ 32 * out0.1) (out0.2 / 2 ^ 32) = out1 at *
  obtain ⟨sum2, small2⟩ := dsum_bits small1 bound01
  generalize dsum out1.2 a0b1 = out2 at *
  obtain ⟨sum3, small3⟩ := dsum_bits small2 bound10
  generalize dsum out2.2 a1b0 = out3 at *
  obtain ⟨sum4, small4⟩ := @dsum_bits out3.2 (2 ^ 32 * (a1b1 % 2 ^ 32)) small3 (by omega)
  generalize dsum out3.2 (2 ^ 32 * (a1b1 % 2 ^ 32)) = out4 at *
  have mid : out4.2 + 2 ^ 64 * (out1.1 + out2.1 + out3.1 + out4.1) =
      2 ^ 32 * out0.1 + out0.2 / 2 ^ 32 + a0b1 + a1b0 + 2 ^ 32 * (a1b1 % 2 ^ 32) := by
    linarith
  have carries : out1.1 + out2.1 + out3.1 + out4.1 < 2 ^ 32 := by
    omega
  generalize out1.1 + out2.1 + out3.1 + out4.1 = k at *
  rw [mul_recompose sum0 mid] at total ⊢
  rw [Nat.mod_eq_of_lt carries]
  obtain ⟨sum5, small5⟩ := @dsum_bits a1b1 (2 ^ 32 * k) bound11 (by omega)
  generalize dsum a1b1 (2 ^ 32 * k) = out5 at *
  have top := mul_high (show 2 ^ 96 * (k + a1b1 / 2 ^ 32) < 2 ^ 128 by omega) small5 sum5
  have high :=
    Nat.two_pow_add_eq_or_of_lt (show out4.2 / 2 ^ 32 < 2 ^ 32 by omega) (out5.2 / 2 ^ 32)
  have low := Nat.two_pow_add_eq_or_of_lt (show out0.2 % 2 ^ 32 < 2 ^ 32 by omega) (out4.2 % 2 ^ 32)
  rw [and_hiMask small5, ← high, loMask, Nat.and_two_pow_sub_one_eq_mod, ← low, top]
  generalize k + a1b1 / 2 ^ 32 = h at *
  clear high low top sum5 small5
  constructor
  · show 2 ^ 32 * (out4.2 % 2 ^ 32) + out0.2 % 2 ^ 32 + 2 ^ 64 * (2 ^ 32 * h + out4.2 / 2 ^ 32) = _
    omega
  · show 2 ^ 32 * (out4.2 % 2 ^ 32) + out0.2 % 2 ^ 32 < 2 ^ 64
    omega

theorem mul_add_lt (first : d < dBase) (second : y < dBase) (third : c < dBase) :
    d * y + c < dBase * dBase :=
  mul_total first second third

theorem Carries.lt_base (carries : Carries (d * y + c) out) (first : d < dBase) (second : y < dBase)
    (third : c < dBase) : out.1 < dBase :=
  carries.carry_lt (mul_add_lt first second third)

/-- Without a digit in the second operand, the two ways to subtract are the same. -/
theorem dsubb_zero (borrow : r < dBase) : dsubb a 0 r = dsub a r := by
  simp only [dsubb, dsub, Nat.zero_add, Nat.mod_eq_of_lt borrow, Nat.lt_irrefl, if_false]

/-- The carry left over is written as 1. -/
def dAdd : List Nat → Nat → List Nat
  | [], c => if c ≠ 0 then [1] else []
  | x :: xs, c =>
    let xr := (x + c) % dBase
    xr :: dAdd xs (if xr < c then 1 else 0)

/-- The loop of `D_sub`: the borrow and the digits. -/
def dSubLoop : List Nat → Nat → Nat × List Nat
  | [], c => (c, [])
  | x :: xs, c =>
    let (b, yr) := dsub x c
    let (b, r) := dSubLoop xs b
    (b, yr :: r)

def dSub (x : List Nat) (c : Nat) : List Nat := trim (dSubLoop x c).2

@[simp] theorem dSubLoop_length (x : List Nat) (c : Nat) : (dSubLoop x c).2.length = x.length := by
  induction x generalizing c with
  | nil => rfl
  | cons d x ih => simp [dSubLoop, ih]

theorem dSubLoop_zero (bounded : Bounded dBase x) : dSubLoop x 0 = (0, x) := by
  induction x with
  | nil => rfl
  | cons d x ih =>
    obtain ⟨digit, rest⟩ := bounded_cons.mp bounded
    have none : dsub d 0 = (0, d) := by simp [dsub, Nat.mod_eq_of_lt digit]
    simp only [dSubLoop, none, ih rest]

theorem dSubLoop_append : dSubLoop (low ++ high) c = ((dSubLoop high (dSubLoop low c).1).1,
      (dSubLoop low c).2 ++ (dSubLoop high (dSubLoop low c).1).2) := by
  induction low generalizing c with
  | nil => rfl
  | cons d low ih => simp [dSubLoop, ih]

section

variable (x : List Nat)

theorem dSubLoop_bounded (c : Nat) : Bounded dBase (dSubLoop x c).2 := by
  induction x generalizing c with
  | nil => exact Bounded.nil
  | cons d x ih => exact bounded_cons.mpr ⟨Nat.mod_lt _ dBase_pos, ih _⟩

theorem dsub_borrow : (dsub a b).1 ≤ 1 := by
  simp only [dsub]
  split_ifs <;> decide

theorem dSubLoop_value (bounded : Bounded dBase x) (digit : c < dBase) :
    ofDigits dBase x + dBase ^ x.length * (dSubLoop x c).1 =
      ofDigits dBase (dSubLoop x c).2 + c := by
  induction x generalizing c with
  | nil => simp [dSubLoop]
  | cons d x ih =>
    obtain ⟨first, rest⟩ := bounded_cons.mp bounded
    have step := (dsub_spec first digit).eq
    have below : (dsub d c).1 < dBase := Nat.lt_of_le_of_lt dsub_borrow dBase_large
    have tail := congrArg (dBase * ·) (ih rest below)
    simp only [Nat.mul_add] at tail
    calc d + dBase * ofDigits dBase x + dBase ^ x.length * dBase * (dSubLoop x (dsub d c).1).1
      _ = d + (dBase * ofDigits dBase x + dBase *
        (dBase ^ x.length * (dSubLoop x (dsub d c).1).1)) := by ring
      _ = (d + dBase * (dsub d c).1) + dBase * ofDigits dBase (dSubLoop x (dsub d c).1).2 := by
        rw [tail]; ring
      _ = (dsub d c).2 + dBase * ofDigits dBase (dSubLoop x (dsub d c).1).2 + c := by
        rw [step]; ring

theorem dSubLoop_borrow (borrow : c ≤ 1) : (dSubLoop x c).1 ≤ 1 := by
  induction x generalizing c with
  | nil => exact borrow
  | cons d x ih => exact ih dsub_borrow

theorem dAdd_bounded (c : Nat) : Bounded dBase (dAdd x c) := by
  induction x generalizing c with
  | nil =>
    intro d member
    rw [dAdd] at member
    split_ifs at member
    · rw [mem_singleton.mp member]
      exact dBase_large
    · exact absurd member not_mem_nil
  | cons d x ih => exact bounded_cons.mpr ⟨Nat.mod_lt _ dBase_pos, ih _⟩

/-- The sum, if the carry is not lost at the end. -/
theorem dAdd_value (bounded : Bounded dBase x) (digit : c < dBase) (kept : x = [] → c ≤ 1) :
    ofDigits dBase (dAdd x c) = ofDigits dBase x + c := by
  induction x generalizing c with
  | nil => rcases Nat.le_one_iff_eq_zero_or_eq_one.mp (kept rfl) with rfl | rfl <;> simp [dAdd]
  | cons d x ih =>
    obtain ⟨first, rest⟩ := bounded_cons.mp bounded
    have step := (dsum_spec first digit).eq
    have carry : (dsum d c).1 ≤ 1 := by
      simp only [dsum]
      split_ifs <;> decide
    have same : dAdd (d :: x) c = (dsum d c).2 :: dAdd x (dsum d c).1 := by
      simp only [dAdd, dsum, Nat.add_comm c d]
    rw [same, Nat.ofDigits_cons, Nat.ofDigits_cons,
      ih rest (Nat.lt_of_le_of_lt carry dBase_large) fun _ => carry]
    linarith

/-- A carry out of the vector makes a new digit. -/
theorem dAdd_cases (c : Nat) :
    (dAdd x c).length = x.length ∨ ∃ low, dAdd x c = low ++ [1] ∧ low.length = x.length := by
  induction x generalizing c with
  | nil =>
    rw [dAdd]
    split_ifs
    · exact Or.inr ⟨[], rfl, rfl⟩
    · exact Or.inl rfl
  | cons d x ih =>
    rw [dAdd]
    rcases ih (if (d + c) % dBase < c then 1 else 0) with same | ⟨low, eq, length⟩
    · exact Or.inl (congrArg Nat.succ same)
    · exact Or.inr ⟨(d + c) % dBase :: low, by simp only [eq, cons_append],
        congrArg Nat.succ length⟩

end

theorem dAdd_normal (normal : Normal dBase x) (digit : c < dBase) : Normal dBase (dAdd x c) := by
  have sum := dAdd_value x normal.bounded digit fun empty => absurd empty normal.nonempty
  have positive := length_pos_iff.mpr normal.nonempty
  rcases dAdd_cases x c with same | ⟨low, eq, -⟩
  · obtain ⟨-, -, size⟩ := (normal_iff dBase_large).mp normal
    refine (normal_iff dBase_large).mpr ⟨dAdd_bounded x c, length_pos_iff.mp (same ▸ positive), ?_⟩
    rw [same, sum]
    rcases size with one | reached
    · exact Or.inl one
    · exact Or.inr (Nat.le_add_right_of_le reached)
  · have bounded := dAdd_bounded x c
    rw [eq] at bounded ⊢
    exact ⟨bounded, by simp, fun _ => by simp⟩

theorem dSub_normal (nonempty : x ≠ []) : Normal dBase (dSub x c) := by
  apply trim_normal (dSubLoop_bounded x c)
  rw [← length_pos_iff, dSubLoop_length]
  exact length_pos_iff.mpr nonempty

theorem dSubLoop_enough (bounded : Bounded dBase x) (digit : c < dBase)
    (enough : c ≤ ofDigits dBase x) : ofDigits dBase (dSubLoop x c).2 + c = ofDigits dBase x := by
  have loop := dSubLoop_value x bounded digit
  have below := (dSubLoop_bounded x c).lt dBase_large
  rw [dSubLoop_length] at below
  have none : (dSubLoop x c).1 = 0 := by
    by_contra some
    have one : dBase ^ x.length * 1 ≤ dBase ^ x.length * (dSubLoop x c).1 :=
      Nat.mul_le_mul_left _ (Nat.pos_of_ne_zero some)
    omega
  rw [none, Nat.mul_zero] at loop
  exact loop.symm

theorem dSub_value (bounded : Bounded dBase x) (digit : c < dBase) (enough : c ≤ ofDigits dBase x) :
    ofDigits dBase (dSub x c) + c = ofDigits dBase x := by
  rw [dSub, ofDigits_trim, dSubLoop_enough bounded digit enough]

end Otp.Big
