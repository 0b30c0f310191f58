import Otp.Big.Digits

/-! Integers as terms: `big_norm`. -/

namespace Otp.Big

open List Library.Digits
open Nat (ofDigits)

/-- `NIL` tells that the number is too big. -/
inductive Eterm where
  | small (value : Int)
  | big (sign : Bool) (digits : List Nat)
  | nil
deriving DecidableEq, Repr

def maxSmall : Nat := 2 ^ 59 - 1

def bigArityMax : Nat := 2 ^ 19 - 1

def isUsmall (sgn : Bool) (x : Nat) : Bool := if sgn then x ≤ maxSmall + 1 else x ≤ maxSmall

def bigNorm (x : List Nat) (sign : Bool) : Eterm :=
  let y := x.headD 0
  if x.length = 1 ∧ isUsmall sign y then .small (if sign then -(y : Int) else y)
  else if x.length > bigArityMax then .nil
  else .big sign x

/-- The integer with a sign and a magnitude. -/
def value (sign : Bool) (digits : List Nat) : Int :=
  if sign then -((ofDigits dBase digits : Nat) : Int) else (ofDigits dBase digits : Nat)

def IsSmall (v : Int) : Prop := -(2 ^ 59) ≤ v ∧ v ≤ 2 ^ 59 - 1

instance (v : Int) : Decidable (IsSmall v) := inferInstanceAs (Decidable (_ ∧ _))

/-- The normalized representation of an integer. -/
inductive Represents : Eterm → Int → Prop where
  | small (fits : IsSmall v) : Represents (.small v) v
  | big (normal : Normal dBase digits) (large : ¬ IsSmall (value sign digits))
      (arity : digits.length ≤ bigArityMax) : Represents (.big sign digits) (value sign digits)

theorem Represents.value_eq (represents : Represents (.big sign digits) v) :
    v = value sign digits := by
  cases represents
  rfl

/-- The integer has a representation. -/
def Fits (v : Int) : Prop := (Nat.digits dBase v.natAbs).length ≤ bigArityMax

@[simp] theorem value_natAbs : (value sign digits).natAbs = ofDigits dBase digits := by
  cases sign <;> simp [value]

theorem fits_value (normal : Normal dBase digits) :
    Fits (value sign digits) ↔ digits.length ≤ bigArityMax := by
  unfold Fits
  rw [value_natAbs]
  have same := normal.eq_digits dBase_large
  by_cases zero : ofDigits dBase digits = 0
  · rw [if_pos zero] at same
    rw [same]
    simp [bigArityMax]
  · rw [if_neg zero] at same
    rw [← same]

theorem value_singleton : value sign [y] = if sign then -(y : Int) else y := by
  simp [value]

theorem isUsmall_iff : isUsmall sign y = true ↔ IsSmall (value sign [y]) := by
  rw [value_singleton]
  have max : maxSmall = 2 ^ 59 - 1 := rfl
  cases sign <;> simp only [isUsmall, IsSmall, if_true, Bool.false_eq_true, if_false,
    decide_eq_true_eq] <;> omega

/-- More than one digit is not small. -/
theorem Normal.length_of_small (normal : Normal dBase digits)
    (small : IsSmall (value sign digits)) : digits.length = 1 := by
  by_contra more
  have reached := (normal.bounded.leading dBase_large normal.nonempty).mp (normal.leading more)
  have nonempty := length_pos_iff.mpr normal.nonempty
  have power : dBase ^ 1 ≤ dBase ^ (digits.length - 1) := Nat.pow_le_pow_right dBase_pos (by omega)
  rw [Nat.pow_one] at power
  have bound : (value sign digits).natAbs ≤ 2 ^ 59 := by
    unfold IsSmall at small
    omega
  rw [value_natAbs] at bound
  have base := dBase_eq
  omega

theorem bigNorm_small (normal : Normal dBase digits) (small : IsSmall (value sign digits)) :
    bigNorm digits sign = .small (value sign digits) := by
  obtain ⟨y, rfl⟩ := length_eq_one_iff.mp (Normal.length_of_small normal small)
  rw [bigNorm, headD_cons, if_pos ⟨rfl, (isUsmall_iff).mpr small⟩, value_singleton]

theorem bigNorm_large (large : ¬ IsSmall (value sign digits)) :
    bigNorm digits sign = if digits.length > bigArityMax then .nil else .big sign digits := by
  unfold bigNorm
  rw [if_neg]
  rintro ⟨one, small⟩
  obtain ⟨y, rfl⟩ := length_eq_one_iff.mp one
  exact large ((isUsmall_iff).mp small)

/-- A normal vector gives the representation of its value, if there is one. -/
theorem represents_bigNorm (normal : Normal dBase digits) :
    Represents (bigNorm digits sign) v ↔ v = value sign digits ∧ Fits v := by
  by_cases small : IsSmall (value sign digits)
  · rw [bigNorm_small normal small]
    constructor
    · rintro ⟨⟩
      refine ⟨rfl, (fits_value normal).mpr ?_⟩
      rw [Normal.length_of_small normal small]
      decide
    · rintro ⟨rfl, -⟩
      exact .small small
  · rw [bigNorm_large small]
    split
    case isTrue long =>
      constructor
      · rintro ⟨⟩
      · rintro ⟨rfl, fits⟩
        exact absurd ((fits_value normal).mp fits) (Nat.not_le.mpr long)
    case isFalse short =>
      constructor
      · rintro ⟨⟩
        exact ⟨rfl, (fits_value normal).mpr (Nat.le_of_not_lt short)⟩
      · rintro ⟨rfl, -⟩
        exact .big normal small (Nat.le_of_not_lt short)

/-- An integer in normalized form, with a sign and a magnitude. -/
structure Bignum where
  sign : Bool
  digits : List Nat
  normal : Normal dBase digits
  signed : sign = true → ofDigits dBase digits ≠ 0

def Bignum.toInt (x : Bignum) : Int := value x.sign x.digits

end Otp.Big
