import Otp.Big.Bitwise

/-! The bitwise operations compute on integers in two's complement. -/

namespace Otp.Big

open List hiding tail
open Library.Digits Library.TwosComplement
open Nat (ofDigits)

theorem dNot_eq (d : Nat) : dNot d = invert 64 d := rfl

theorem map_dNot_bounded (digits : List Nat) : Bounded dBase (digits.map dNot) :=
  map_invert_bounded (w := 64) digits

theorem maskLoop_subset (d steps prev mask : Nat) (subset : d &&& prev = prev) :
    d &&& maskLoop d steps prev mask = maskLoop d steps prev mask := by
  induction steps generalizing prev mask with
  | zero => exact subset
  | succ steps ih =>
    rw [maskLoop]
    split
    case isTrue more => exact ih _ _ more
    case isFalse => exact subset

theorem btrailHigh_eq (digit : d < dBase) : btrailHigh d = dNot d := by
  unfold btrailHigh
  split
  case isTrue full =>
    rw [full]
    rfl
  case isFalse =>
    have subset := maskLoop_subset d 64 0 (2 ^ 63) (Nat.and_zero d)
    generalize maskLoop d 64 0 (2 ^ 63) = prev at subset
    have below : prev < 2 ^ 64 := by
      rw [← subset, Nat.and_comm]
      exact Nat.and_lt_two_pow prev digit
    refine digit_ext (w := 64) (Nat.and_lt_two_pow _ (invert_lt prev)) (invert_lt d) fun i inside =>
      ?_
    have bit := congrArg (Nat.testBit · i) subset
    simp only [Nat.testBit_and] at bit
    rw [Nat.testBit_and, dNot_eq, dNot_eq, testBit_invert digit inside, testBit_invert below inside]
    cases first : d.testBit i <;> cases second : prev.testBit i <;> simp_all

theorem iBtrail_signed (bounded : Bounded dBase r) :
    iBtrail r true = dAdd (trim (r.map dNot)) 1 := by
  have kept : Bounded dBase (trimTop dMask r) := by
    intro d member
    apply bounded
    unfold trimTop at member
    split at member
    · exact mem_of_mem_take member
    · have shorter : r.rdropWhile (· = dMask) <+: r := rdropWhile_prefix _ _
      exact shorter.subset member
  have high : ((trimTop dMask r).drop ((trimTop dMask r).length - 1)).map btrailHigh =
      ((trimTop dMask r).drop ((trimTop dMask r).length - 1)).map dNot :=
    map_congr_left fun d member => btrailHigh_eq (kept d (mem_of_mem_drop member))
  have same (d : Nat) (member : d ∈ r) : dNot d = dNot dMask ↔ d = dMask := by
    have digit := bounded d member
    have mask : dMask = dBase - 1 := rfl
    unfold dNot
    omega
  simp only [iBtrail]
  rw [high, dropLast_eq_take, ← map_append, take_append_drop, map_trimTop dNot same]
  rfl

/-- The digits left are a normal vector of the integer. -/
theorem iBtrail_spec (bounded : Bounded dBase r) (nonempty : r ≠ []) :
    Normal dBase (iBtrail r sign) ∧ value sign (iBtrail r sign) = twos 64 sign r := by
  cases sign with
  | false => exact ⟨trim_normal bounded nonempty, congrArg Nat.cast (ofDigits_trim dBase r)⟩
  | true =>
    have normal : Normal dBase (trim (r.map dNot)) :=
      trim_normal (map_dNot_bounded r) (by simpa using nonempty)
    rw [iBtrail_signed bounded]
    refine ⟨dAdd_normal normal dBase_large, ?_⟩
    rw [value, dAdd_value _ normal.bounded dBase_large fun empty => absurd empty normal.nonempty,
      ofDigits_trim, twos]
    rfl

/-- The digits of an operand in two's complement. -/
def signedDigits (sgn : Bool) (x : List Nat) (b : Nat) : List Nat :=
  if sgn then (dSubLoop x b).2.map dNot else x

theorem signedDigits_bounded (bounded : Bounded dBase x) :
    Bounded dBase (signedDigits sgn x b) := by
  unfold signedDigits
  split
  · exact map_dNot_bounded _
  · exact bounded

@[simp] theorem signedDigits_length : (signedDigits sgn x b).length = x.length := by
  unfold signedDigits
  split <;> simp

theorem Bignum.toInt_eq (x : Bignum) :
    twos 64 x.sign (signedDigits x.sign x.digits 1) = x.toInt := by
  unfold twos signedDigits Bignum.toInt value
  by_cases negative : x.sign = true
  · have positive := Nat.pos_of_ne_zero (x.signed negative)
    have subtracted := dSubLoop_enough x.normal.bounded dBase_large positive
    have double := map_invert_invert (dSubLoop_bounded x.digits 1)
    rw [if_pos negative, if_pos negative, if_pos negative]
    change Int.negSucc (ofDigits dBase
      (((dSubLoop x.digits 1).2.map (invert 64)).map (invert 64))) = _
    rw [double]
    omega
  · rw [if_neg negative, if_neg negative, if_neg negative]
    rfl

theorem operand_signed (b : Option Nat) (d : Nat) (borrow : b.getD 1 ≤ 1) :
    operand true b d = (some (dsub d (b.getD 1)).1, dNot (dsub d (b.getD 1)).2) := by
  cases b with
  | none => rfl
  | some b =>
    have below : b < dBase := Nat.lt_of_le_of_lt borrow dBase_large
    simp only [operand, if_true, dsubb_zero below, Option.getD_some]

theorem borrowLoop_eq (x : List Nat) (b : Option Nat) (borrow : b.getD 1 ≤ 1) :
    borrowLoop x b = signedDigits true x (b.getD 1) := by
  induction x generalizing b with
  | nil => rfl
  | cons d x ih =>
    rw [borrowLoop, operand_signed b d borrow]
    exact congrArg _ (ih (some _) dsub_borrow)

theorem operand_digit (borrow : b.getD 1 ≤ 1) :
    (operand sgn b d).2 :: signedDigits sgn x ((operand sgn b d).1.getD 1) =
      signedDigits sgn (d :: x) (b.getD 1) := by
  cases sgn with
  | false => rfl
  | true =>
    rw [operand_signed b d borrow]
    rfl

theorem operand_borrow (borrow : b.getD 1 ≤ 1) : (operand sgn b d).1.getD 1 ≤ 1 := by
  cases sgn with
  | false => exact borrow
  | true =>
    rw [operand_signed b d borrow]
    exact dsub_borrow

/-- The loop over both operands combines their digits in two's complement. -/
theorem bitLoop_eq (op : Nat → Nat → Nat) (xs ys : List Nat) (b1 b2 : Option Nat)
    (fits : ys.length ≤ xs.length) (first : b1.getD 1 ≤ 1) (second : b2.getD 1 ≤ 1) :
    (bitLoop op xsgn ysgn xs ys b1 b2).1 =
        zipWith op (signedDigits xsgn (xs.take ys.length) (b1.getD 1))
          (signedDigits ysgn ys (b2.getD 1)) ∧
      (bitLoop op xsgn ysgn xs ys b1 b2).2.1 = xs.drop ys.length ∧
      (xsgn = true → (bitLoop op xsgn ysgn xs ys b1 b2).2.2.getD 1 =
        (dSubLoop (xs.take ys.length) (b1.getD 1)).1) := by
  induction ys generalizing xs b1 b2 with
  | nil => cases xs <;> simp [bitLoop, signedDigits, dSubLoop]
  | cons y ys ih =>
    cases xs with
    | nil => exact absurd fits (by simp)
    | cons x xs =>
      obtain ⟨digits, rest, borrow⟩ :=
        ih xs (operand xsgn b1 x).1 (operand ysgn b2 y).1 (Nat.le_of_succ_le_succ fits)
        (operand_borrow first) (operand_borrow second)
      refine ⟨?_, rest, ?_⟩
      · rw [length_cons, take_succ_cons, ← operand_digit first,
          ← operand_digit second, zipWith_cons_cons, ← digits]
        rfl
      · rintro rfl
        refine (borrow rfl).trans ?_
        rw [operand_signed b1 x first]
        rfl

theorem signedDigits_append :
    signedDigits sgn (low ++ high) b = signedDigits sgn low b ++ signedDigits sgn high
      (dSubLoop low b).1 := by
  cases sgn with
  | false => rfl
  | true => simp [signedDigits, dSubLoop_append]

/-- The low digits of a negative operand take a borrow, the other ones are only inverted. -/
def Bignum.kept (x : Bignum) (n : Nat) : List Nat :=
  signedDigits x.sign (x.digits.take n) 1 ++ signedDigits x.sign (x.digits.drop n) 0

/-- The operand is negative and its low digits are zeros, so that a borrow is left. -/
def Bignum.BorrowLeft (x : Bignum) (n : Nat) : Prop := x.sign = true ∧ ∀ d ∈ x.digits.take n, d = 0

instance (x : Bignum) (n : Nat) : Decidable (x.BorrowLeft n) := inferInstanceAs (Decidable (_ ∧ _))

theorem Bignum.kept_bounded (x : Bignum) (n : Nat) : Bounded dBase (x.kept n) :=
  bounded_append.mpr ⟨signedDigits_bounded (x.normal.bounded.take n),
    signedDigits_bounded (x.normal.bounded.drop n)⟩

theorem Bignum.digits_split (x : Bignum) (n : Nat) : signedDigits x.sign x.digits 1 =
    signedDigits x.sign (x.digits.take n) 1 ++
      signedDigits x.sign (x.digits.drop n) (dSubLoop (x.digits.take n) 1).1 := by
  rw [← signedDigits_append, take_append_drop]

/-- All the digits are zeros, or the borrow ends. -/
theorem dSubLoop_one (bounded : Bounded dBase x) :
    (dSubLoop x 1).1 = if ∀ d ∈ x, d = 0 then 1 else 0 := by
  induction x with
  | nil => rfl
  | cons d x ih =>
    obtain ⟨digit, rest⟩ := bounded_cons.mp bounded
    by_cases zero : d = 0
    · have borrow : (dsub d 1).1 = 1 := by
        rw [zero]
        decide
      have all : (∀ e ∈ d :: x, e = 0) ↔ ∀ e ∈ x, e = 0 := by
        rw [forall_mem_cons]
        exact and_iff_right zero
      simp only [dSubLoop, borrow, ih rest, all]
    · have borrow : (dsub d 1).1 = 0 := by
        have step := dsub_spec digit dBase_large
        rcases Nat.le_one_iff_eq_zero_or_eq_one.mp dsub_borrow with none | one
        · exact none
        · have eq := step.eq
          have lt := step.lt
          rw [one] at eq
          omega
      have all : ¬ ∀ e ∈ d :: x, e = 0 := fun all => zero (all d mem_cons_self)
      simp only [dSubLoop, borrow, dSubLoop_zero rest, if_neg all]

theorem ofDigits_map_signed :
    ofDigits dBase ((signedDigits true x b).map (invert 64)) = ofDigits dBase (dSubLoop x b).2 :=
  congrArg (ofDigits dBase) (map_invert_invert (dSubLoop_bounded x b))

/-- The borrow that is left makes a difference. -/
theorem Bignum.kept_ne (x : Bignum) (n : Nat) (left : x.BorrowLeft n) :
    twos 64 x.sign (x.kept n) ≠ x.toInt := by
  obtain ⟨negative, zeros⟩ := left
  have some : x.digits.drop n ≠ [] := by
    intro none
    have all := take_append_drop n x.digits
    rw [none, append_nil] at all
    rw [all] at zeros
    apply x.signed negative
    rw [eq_replicate_of_mem zeros, Nat.ofDigits_replicate_zero]
  rw [← x.toInt_eq, x.digits_split n, dSubLoop_one (x.normal.bounded.take n), if_pos zeros,
    Bignum.kept, negative]
  intro equal
  have inner := Int.negSucc.inj equal
  have bounded := x.normal.bounded.drop n
  have positive : 0 < dBase ^ (signedDigits true (x.digits.take n) 1).length :=
    Nat.pow_pos dBase_pos
  simp only [map_append, Nat.ofDigits_append, length_map, ← dBase_eq, ofDigits_map_signed] at inner
  have same := Nat.eq_of_mul_eq_mul_left positive (Nat.add_left_cancel inner)
  have loop := dSubLoop_value (x.digits.drop n) bounded dBase_large
  rw [← same, dSubLoop_zero bounded] at loop
  have one : dBase ^ (x.digits.drop n).length = 1 :=
    Nat.eq_one_of_mul_eq_one_right (Nat.add_left_cancel loop)
  have large := Nat.one_lt_pow (length_pos_iff.mpr some).ne' dBase_large
  omega

theorem Bignum.kept_eq (x : Bignum) (n : Nat) : twos 64 x.sign (x.kept n) = x.toInt ↔
    ¬ x.BorrowLeft n := by
  constructor
  · exact fun equal left => x.kept_ne n left equal
  · intro kept
    rw [← x.toInt_eq, x.digits_split n, Bignum.kept]
    by_cases negative : x.sign = true
    · have some : ¬ ∀ d ∈ x.digits.take n, d = 0 := fun zeros => kept ⟨negative, zeros⟩
      rw [dSubLoop_one (x.normal.bounded.take n), if_neg some]
    · simp [signedDigits, negative]

section Operation

variable {op : Int → Int → Int} {dop : Nat → Nat → Nat} {f : Bool → Bool → Bool}

/-- What the operations have in common: `high` is what they take for the high digits of `x`. -/
theorem bitop_spec (x y : Bignum) (fits : y.digits.length ≤ x.digits.length)
    (bits : ∀ m n i, (op m n).testBit i = f (m.testBit i) (n.testBit i))
    (digitBits : ∀ d e i, (dop d e).testBit i = f (d.testBit i) (e.testBit i))
    (closed : ∀ d e, d < dBase → e < dBase → dop d e < dBase) (highBounded : Bounded dBase high)
    (tailBounded : Bounded dBase tail)
    (above : ∀ k, extended 64 sign tail k =
      dop (extended 64 x.sign high k) (extended 64 y.sign [] k))
    (digits : r = zipWith dop (signedDigits x.sign (x.digits.take y.digits.length) 1)
      (signedDigits y.sign y.digits 1) ++ tail) :
    Normal dBase (iBtrail r sign) ∧ value sign (iBtrail r sign) =
      op (twos 64 x.sign (signedDigits x.sign (x.digits.take y.digits.length) 1 ++
        high)) y.toInt := by
  have low := @signedDigits_bounded _ x.sign 1 (x.normal.bounded.take y.digits.length)
  have second := @signedDigits_bounded _ y.sign 1 y.normal.bounded
  have same : (signedDigits x.sign (x.digits.take y.digits.length) 1).length =
    (signedDigits y.sign y.digits 1).length := by
    simpa using fits
  have bounded : Bounded dBase r :=
    digits ▸ bounded_append.mpr ⟨bounded_zipWith closed low second, tailBounded⟩
  have nonempty : r ≠ [] := by
    rw [digits, ← length_pos_iff, length_append, length_zipWith, same, Nat.min_self,
      signedDigits_length]
    exact Nat.add_pos_left (length_pos_iff.mpr y.normal.nonempty) _
  obtain ⟨normal, result⟩ := @iBtrail_spec r sign bounded nonempty
  refine ⟨normal, ?_⟩
  rw [result, ← y.toInt_eq, digits]
  exact twos_combine (by decide) bits digitBits same (bounded_append.mpr ⟨low, highBounded⟩) second
    (digits ▸ bounded) above

end Operation

theorem signedDigits_zero (bounded : Bounded dBase x) : signedDigits true x 0 = x.map dNot := by
  rw [signedDigits, if_pos rfl, dSubLoop_zero bounded]

theorem bitLoop_start (op : Nat → Nat → Nat) (x y : Bignum)
    (fits : y.digits.length ≤ x.digits.length) :
    ∃ b, bitLoop op x.sign y.sign x.digits y.digits none none =
        (zipWith op (signedDigits x.sign (x.digits.take y.digits.length) 1)
          (signedDigits y.sign y.digits 1),
          x.digits.drop y.digits.length, b) ∧
      (x.sign = true → b.getD 1 = (dSubLoop (x.digits.take y.digits.length) 1).1) := by
  obtain ⟨digits, rest, borrow⟩ :=
    @bitLoop_eq x.sign y.sign op x.digits y.digits none none fits (Nat.le_refl 1) (Nat.le_refl 1)
  exact ⟨_, Prod.ext digits (Prod.ext rest rfl), borrow⟩

theorem bandTail_above (rest : Bounded dBase high) (borrow : (xsgn && ysgn) = true → b = 0)
    (k : Nat) :
    extended 64 (xsgn && ysgn) (bandTail xsgn ysgn high) k =
      extended 64 xsgn (signedDigits xsgn high b) k &&& extended 64 ysgn [] k := by
  cases xsgn <;> cases ysgn
  · exact (Nat.and_zero _).symm
  · exact (and_ones (extended_lt rest k)).symm
  · exact (Nat.and_zero _).symm
  · rw [borrow rfl, signedDigits_zero rest]
    exact (and_ones (extended_lt (map_dNot_bounded high) k)).symm

theorem bandTail_bounded (rest : Bounded dBase high) : Bounded dBase (bandTail xsgn ysgn high) := by
  cases xsgn <;> cases ysgn
  · exact Bounded.nil
  · exact rest
  · exact Bounded.nil
  · exact map_dNot_bounded high

/-- If both operands are negative, the borrow of the longer one is dropped where the shorter one
ends. -/
theorem iBand_spec {x y : Bignum} (fits : y.digits.length ≤ x.digits.length) :
    Normal dBase (iBand x.digits x.sign y.digits y.sign) ∧
      value (x.sign && y.sign) (iBand x.digits x.sign y.digits y.sign) =
        Int.land (if x.sign && y.sign then twos 64 x.sign (x.kept y.digits.length)
          else x.toInt) y.toInt := by
  have rest := x.normal.bounded.drop y.digits.length
  obtain ⟨b, loop, -⟩ := bitLoop_start (· &&& ·) x y fits
  have closed (d e : Nat) (digit : d < dBase) (_ : e < dBase) : d &&& e < dBase :=
    Nat.lt_of_le_of_lt Nat.and_le_left digit
  have spec (c : Nat) (borrow : (x.sign && y.sign) = true → c = 0) :=
    bitop_spec x y fits Int.testBit_land Nat.testBit_and closed
      (@signedDigits_bounded _ x.sign c rest)
      (@bandTail_bounded _ x.sign y.sign rest) (bandTail_above rest borrow) rfl
  simp only [iBand, loop]
  by_cases both : (x.sign && y.sign) = true
  · rw [if_pos both]
    exact spec 0 fun _ => rfl
  · rw [if_neg both, ← x.toInt_eq, x.digits_split y.digits.length]
    exact spec _ fun yes => absurd yes both

theorem borTail_above (rest : Bounded dBase high) (known : xsgn = true → b.getD 1 = c)
    (bound : c ≤ 1) (k : Nat) :
    extended 64 (xsgn || ysgn) (borTail xsgn ysgn high b) k =
      extended 64 xsgn (signedDigits xsgn high c) k ||| extended 64 ysgn [] k := by
  have bounded := @signedDigits_bounded _ xsgn c rest
  cases xsgn <;> cases ysgn
  · exact (Nat.or_zero _).symm
  · exact (or_ones (extended_lt bounded k)).symm
  · rw [borTail, borrowLoop_eq _ _ (known rfl ▸ bound), known rfl]
    exact (Nat.or_zero _).symm
  · exact (or_ones (extended_lt bounded k)).symm

theorem borTail_bounded (rest : Bounded dBase high) (bound : xsgn = true → b.getD 1 ≤ 1) :
    Bounded dBase (borTail xsgn ysgn high b) := by
  cases xsgn <;> cases ysgn
  · exact rest
  · exact Bounded.nil
  · rw [borTail, borrowLoop_eq _ _ (bound rfl)]
    exact signedDigits_bounded rest
  · exact Bounded.nil

theorem iBor_spec {x y : Bignum} (fits : y.digits.length ≤ x.digits.length) :
    Normal dBase (iBor x.digits x.sign y.digits y.sign) ∧
      value (x.sign || y.sign) (iBor x.digits x.sign y.digits y.sign) =
        Int.lor x.toInt y.toInt := by
  have rest := x.normal.bounded.drop y.digits.length
  obtain ⟨b, loop, known⟩ := bitLoop_start (· ||| ·) x y fits
  have bound := dSubLoop_borrow (x.digits.take y.digits.length) (Nat.le_refl 1)
  have closed (d e : Nat) (digit : d < dBase) (other : e < dBase) : d ||| e < dBase :=
    Nat.or_lt_two_pow (n := 64) digit other
  simp only [iBor, loop]
  rw [← x.toInt_eq, x.digits_split y.digits.length]
  exact bitop_spec x y fits Int.testBit_lor Nat.testBit_or closed (signedDigits_bounded rest)
    (borTail_bounded rest fun negative => known negative ▸ bound)
      (borTail_above rest known bound) rfl

theorem bxorTail_above (rest : Bounded dBase high) (k : Nat) :
    extended 64 (xsgn != ysgn) (bxorTail xsgn ysgn high) k =
      extended 64 xsgn (signedDigits xsgn high 0) k ^^^ extended 64 ysgn [] k := by
  have inverted := map_dNot_bounded high
  cases xsgn <;> cases ysgn
  · exact (Nat.xor_zero _).symm
  · exact (extended_map_invert false high k).trans (xor_ones (extended_lt rest k)).symm
  · rw [signedDigits_zero rest]
    exact (Nat.xor_zero _).symm
  · rw [signedDigits_zero rest]
    refine Eq.trans ?_ (xor_ones (extended_lt inverted k)).symm
    exact (congrArg (extended 64 false · k) (map_invert_invert rest).symm).trans
      (extended_map_invert true _ k)

theorem bxorTail_bounded (rest : Bounded dBase high) : Bounded dBase (bxorTail xsgn ysgn high) := by
  cases xsgn <;> cases ysgn
  · exact rest
  · exact map_dNot_bounded high
  · exact map_dNot_bounded high
  · exact rest

/-- The borrow of the longer operand is dropped where the shorter one ends. -/
theorem iBxor_spec {x y : Bignum} (fits : y.digits.length ≤ x.digits.length) :
    Normal dBase (iBxor x.digits x.sign y.digits y.sign) ∧
      value (x.sign != y.sign) (iBxor x.digits x.sign y.digits y.sign) =
        Int.xor (twos 64 x.sign (x.kept y.digits.length)) y.toInt := by
  have rest := x.normal.bounded.drop y.digits.length
  obtain ⟨b, loop, -⟩ := bitLoop_start (· ^^^ ·) x y fits
  have closed (d e : Nat) (digit : d < dBase) (other : e < dBase) : d ^^^ e < dBase :=
    Nat.xor_lt_two_pow (n := 64) digit other
  simp only [iBxor, loop]
  exact bitop_spec x y fits Int.testBit_lxor Nat.testBit_xor closed (signedDigits_bounded rest)
    (bxorTail_bounded rest) (bxorTail_above rest) rfl

theorem iBnot_spec {x : Bignum} : Normal dBase (iBnot x.digits (!x.sign)) ∧
    value (!x.sign) (iBnot x.digits (!x.sign)) = Int.lnot x.toInt := by
  unfold iBnot Bignum.toInt
  cases negative : x.sign with
  | false =>
    have sum :=
      dAdd_value x.digits x.normal.bounded dBase_large fun empty => absurd empty x.normal.nonempty
    refine ⟨dAdd_normal x.normal dBase_large, ?_⟩
    show -((ofDigits dBase (dAdd x.digits 1) : Nat) : Int) = _
    rw [sum]
    exact (Int.negSucc_eq _).symm
  | true =>
    have positive := Nat.pos_of_ne_zero (x.signed negative)
    have difference := dSub_value x.normal.bounded dBase_large positive
    refine ⟨dSub_normal x.normal.nonempty, ?_⟩
    have magnitude : value true x.digits = Int.negSucc (ofDigits dBase (dSub x.digits 1)) := by
      rw [value, ← difference]
      rfl
    rw [magnitude]
    rfl

end Otp.Big
