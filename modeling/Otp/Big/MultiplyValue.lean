import Otp.Big.Multiply

/-! The products have the value of the product, and no carry is lost. -/

namespace Otp.Big

open List hiding sum
open Library.Digits
open Nat (ofDigits)

structure StepSpec (d y r cp c : Nat) (out : Nat × Nat × Nat) : Prop where
  eq : out.2.2 + dBase * (out.1 + out.2.1) = d * y + r + cp + c
  digit : out.2.2 < dBase
  carry : out.1 < dBase
  sum : out.2.1 ≤ 1
  one : d = 1 → out.1 = 0

theorem rowStep_default (step : Carries (d * y + cp) out) (first : d < dBase) (second : y < dBase)
    (third : r < dBase) (carry : cp < dBase) (sum : c ≤ 1) (more : d ≠ 1) :
    StepSpec d y r cp c (out.1, (dsumc out.2 r c).1, (dsumc out.2 r c).2) := by
  have added := dsumc_spec step.lt third (Nat.lt_of_le_of_lt sum dBase_large)
  refine ⟨?_, added.lt, step.lt_base first second carry, dsumc_carry step.lt third sum,
    fun equal => absurd equal more⟩
  have product := step.eq
  have total := added.eq
  linarith

theorem rowStep_spec (positive : d ≠ 0) (first : d < dBase) (second : y < dBase) (third : r < dBase)
    (carry : cp < dBase) (sum : c ≤ 1) (one : d = 1 → cp = 0) :
    StepSpec d y r cp c (rowStep d y r cp c) := by
  have below := Nat.lt_of_le_of_lt sum dBase_large
  unfold rowStep
  split
  · have added := dsumc_spec second third below
    refine ⟨?_, added.lt, carry, dsumc_carry second third sum, one⟩
    have total := added.eq
    have none := one rfl
    simp only [none]
    linarith
  · have double := dsumc_spec second second carry
    have twice : 2 * y + cp = y + y + cp := by omega
    exact rowStep_default (twice ▸ double) first second third carry sum (by decide)
  · rename_i other _
    exact rowStep_default (dmulc_spec first second carry) first second third carry sum other

structure RowSpec (d : Nat) (y r : List Nat) (cp c : Nat) (out : List Nat × Nat × Nat × List Nat) :
    Prop where
  eq : ofDigits dBase out.1 + dBase ^ y.length * (out.2.1 + out.2.2.1) =
    d * ofDigits dBase y + ofDigits dBase (r.take y.length) + cp + c
  length : out.1.length = y.length
  bounded : Bounded dBase out.1
  carries : Bounded dBase out.2.2.2

theorem rowLoop_spec (positive : d ≠ 0) (digit : d < dBase) (y r : List Nat)
    (first : Bounded dBase y) (second : Bounded dBase r) (room : y.length ≤ r.length)
    (carry : cp < dBase) (sum : c ≤ 1) (one : d = 1 → cp = 0) :
    RowSpec d y r cp c (rowLoop d y r cp c) := by
  induction y generalizing r cp c with
  | nil =>
    refine ⟨?_, rfl, Bounded.nil, Bounded.nil⟩
    simp [rowLoop]
  | cons e y ih =>
    cases r with
    | nil => exact absurd room (by simp)
    | cons s r =>
      obtain ⟨digitY, restY⟩ := bounded_cons.mp first
      obtain ⟨digitR, restR⟩ := bounded_cons.mp second
      have step := rowStep_spec positive digit digitY digitR carry sum one
      have rest := ih r restY restR (Nat.le_of_succ_le_succ room) step.carry step.sum step.one
      refine ⟨?_, congrArg Nat.succ rest.length, bounded_cons.mpr ⟨step.digit, rest.bounded⟩, ?_⟩
      · have low := step.eq
        have high := congrArg (dBase * ·) rest.eq
        simp only [rowLoop, Nat.ofDigits_cons, length_cons, take_succ_cons, Nat.pow_succ] at *
        linarith
      · exact bounded_cons.mpr ⟨step.carry, bounded_cons.mpr
          ⟨Nat.lt_of_le_of_lt step.sum dBase_large, rest.carries⟩⟩

/-- The sum above a row is one digit. -/
theorem row_sum_lt (eq : low + dBase ^ n * sum = d * y + r) (digit : d < dBase)
    (first : y < dBase ^ n) (second : r < dBase ^ n) : sum < dBase := by
  have positive : 0 < dBase ^ n := Nat.pow_pos dBase_pos
  have product : d * y ≤ (dBase - 1) * (dBase ^ n - 1) :=
    Nat.mul_le_mul (Nat.le_sub_one_of_lt digit) (Nat.le_sub_one_of_lt first)
  have split : (dBase - 1) * (dBase ^ n - 1) + (dBase ^ n - 1) = dBase * (dBase ^ n - 1) := by
    rw [← Nat.succ_mul, Nat.succ_eq_add_one, Nat.sub_add_cancel dBase_pos]
  have less : dBase * (dBase ^ n - 1) < dBase * dBase ^ n :=
    Nat.mul_lt_mul_of_pos_left (Nat.sub_one_lt positive.ne') dBase_pos
  have bound : dBase ^ n * sum < dBase ^ n * dBase := by
    rw [Nat.mul_comm (dBase ^ n) dBase]
    omega
  exact Nat.lt_of_mul_lt_mul_left bound

structure MulRowSpec (d : Nat) (y r : List Nat) (out : List Nat × Nat × List Nat) : Prop where
  eq : ofDigits dBase out.1 + dBase ^ y.length * out.2.1 =
    d * ofDigits dBase y + ofDigits dBase (r.take y.length)
  length : out.1.length = y.length
  bounded : Bounded dBase out.1
  sum : out.2.1 < dBase
  carries : Bounded dBase out.2.2

theorem mulRow_spec (digit : d < dBase) (first : Bounded dBase y) (second : Bounded dBase r)
    (room : y.length ≤ r.length) : MulRowSpec d y r (mulRow d y r) := by
  have below := (second.take y.length).lt dBase_large
  rw [length_take_of_le room] at below
  unfold mulRow
  split
  case isTrue zero =>
    exact ⟨by simp [zero], length_take_of_le room, second.take _, dBase_pos, Bounded.nil⟩
  case isFalse positive =>
    have row :=
      @rowLoop_spec d 0 0 positive digit y r first second room dBase_pos (Nat.zero_le 1) fun _ =>
      rfl
    have eq := row.eq
    rw [Nat.add_comm (rowLoop d y r 0 0).2.1] at eq
    exact ⟨eq, row.length, row.bounded, row_sum_lt eq digit (first.lt dBase_large) below,
      row.carries⟩

structure LoopSpec (x y r : List Nat) (out : List Nat × List Nat) : Prop where
  eq : ofDigits dBase (out.1.take (x.length + y.length)) =
    ofDigits dBase x * ofDigits dBase y + ofDigits dBase (r.take y.length)
  length : out.1.length = r.length
  bounded : Bounded dBase out.1
  carries : Bounded dBase out.2

/-- The rows add up: what the memory has under `y` at the start is added to the product. -/
theorem iMulLoop_spec (x y r : List Nat) (first : Bounded dBase x) (second : Bounded dBase y)
    (memory : Bounded dBase r) (room : x.length + y.length ≤ r.length) :
    LoopSpec x y r (iMulLoop y x r) := by
  induction x generalizing r with
  | nil =>
    refine ⟨?_, rfl, memory, Bounded.nil⟩
    simp [iMulLoop]
  | cons d x ih =>
    obtain ⟨digit, rest⟩ := bounded_cons.mp first
    rw [length_cons] at room
    have row := mulRow_spec digit second memory (by omega)
    have small := Nat.mod_eq_of_lt row.sum
    rcases shape : (mulRow d y r).1 ++ (mulRow d y r).2.1 % dBase :: r.drop (y.length + 1)
      with _ | ⟨p, tail⟩
    · exact absurd shape (by simp)
    have all : Bounded dBase (p :: tail) := shape ▸ bounded_append.mpr
      ⟨row.bounded, bounded_cons.mpr ⟨Nat.mod_lt _ dBase_pos, memory.drop _⟩⟩
    have size : tail.length + 1 = r.length := by
      have lengths := congrArg length shape
      simp only [length_append, length_cons, length_drop, row.length] at lengths
      omega
    have window : p :: tail.take y.length = (mulRow d y r).1 ++ [(mulRow d y r).2.1] := by
      have taken := congrArg (take (y.length + 1)) shape
      rw [← row.length, take_length_add_append, row.length, small] at taken
      exact taken.symm
    have value := congrArg (ofDigits dBase) window
    rw [Nat.ofDigits_cons, Nat.ofDigits_append, Nat.ofDigits_singleton, row.length, row.eq] at value
    have later := ih tail rest (bounded_cons.mp all).2 (by omega)
    have unfolded : iMulLoop y (d :: x) r = (p :: (iMulLoop y x tail).1,
        (mulRow d y r).2.1 :: (mulRow d y r).2.2 ++ (iMulLoop y x tail).2) := by
      simp only [iMulLoop, shape]
    rw [unfolded]
    refine ⟨?_, (congrArg Nat.succ later.length).trans size,
      bounded_cons.mpr ⟨(bounded_cons.mp all).1, later.bounded⟩, ?_⟩
    · have eq := congrArg (dBase * ·) later.eq
      simp only [length_cons, Nat.add_right_comm _ 1, take_succ_cons, Nat.ofDigits_cons]
      linarith
    · exact bounded_append.mpr ⟨bounded_cons.mpr ⟨row.sum, row.carries⟩, later.carries⟩

/-- A product has at most one leading zero. -/
theorem product_spec (bounded : Bounded dBase memory) (two : 2 ≤ n) (room : n ≤ memory.length)
    (large : dBase ^ (n - 2) ≤ ofDigits dBase (memory.take n)) :
    Normal dBase (product memory n) ∧ ofDigits dBase (product memory n) =
      ofDigits dBase (memory.take n) := by
  have last : memory.take n = memory.take (n - 1) ++ [memory.getD (n - 1) 0] := by
    have inside : n - 1 < memory.length := by omega
    conv_lhs => rw [show n = n - 1 + 1 by omega]
    rw [take_succ_eq_append_getElem inside, getD_eq_getElem _ _ inside]
  have length : (memory.take (n - 1)).length = n - 1 := length_take_of_le (by omega)
  unfold product
  split
  case isTrue zero =>
    have value : ofDigits dBase (memory.take (n - 1)) = ofDigits dBase (memory.take n) := by
      rw [last, zero, Nat.ofDigits_append_zero]
    refine ⟨(normal_iff dBase_large).mpr ⟨bounded.take _, ?_, Or.inr ?_⟩, value⟩
    · rw [← length_pos_iff]
      omega
    · rw [length, value]
      exact large
  case isFalse some =>
    refine ⟨⟨bounded.take _, ?_, fun _ => ?_⟩, rfl⟩
    · rw [last]
      simp
    · simp only [last, getLast_append_singleton]
      exact some

structure SqrCarry.Small (k : SqrCarry) : Prop where
  y0 : k.y0 ≤ 1
  y1 : k.y1 ≤ 1
  y2 : k.y2 ≤ 1
  y3 : k.y3 ≤ 1
  z1 : k.z1 < dBase

/-- What a row still has to add. -/
def SqrCarry.pending (k : SqrCarry) : Nat := k.z1 + k.y0 + k.y2 + k.y3 + dBase * k.y1

structure SqrSpec (total n : Nat) (out : List Nat × Nat × List Nat) : Prop where
  eq : ofDigits dBase out.1 + dBase ^ n * out.2.1 = total
  length : out.1.length = n
  bounded : Bounded dBase out.1
  sum : out.2.1 ≤ 3
  carries : Bounded dBase out.2.2

theorem carry_lt (small : c ≤ 1) : c < dBase := Nat.lt_of_le_of_lt small dBase_large

/-- Addition with a carry, as an equation between the digits. -/
theorem dsumc_out (first : a < dBase) (second : b < dBase) (carry : c ≤ 1) :
    ∃ c' s, dsumc a b c = (c', s) ∧ s + dBase * c' = a + b + c ∧ s < dBase ∧ c' ≤ 1 :=
  ⟨_, _, rfl, (dsumc_spec first second (carry_lt carry)).eq,
    (dsumc_spec first second (carry_lt carry)).lt, dsumc_carry first second carry⟩

theorem dmul_out (first : a < dBase) (second : b < dBase) :
    ∃ b1 b0, dmul a b = (b1, b0) ∧ b0 + dBase * b1 = a * b ∧ b0 < dBase ∧ b1 < dBase :=
  ⟨_, _, rfl, (dmulc_spec first second dBase_pos).eq, (dmulc_spec first second dBase_pos).lt,
    (dmulc_spec first second dBase_pos).lt_base first second dBase_pos⟩

theorem sqrLoop_spec (digit : d < dBase) (y r : List Nat) (k : SqrCarry) (first : Bounded dBase y)
    (second : Bounded dBase r) (room : y.length + 1 ≤ r.length) (small : k.Small) :
    SqrSpec (2 * d * ofDigits dBase y + ofDigits dBase (r.take (y.length + 1)) + k.pending)
      (y.length + 1)
      (sqrLoop d y r k) := by
  induction y generalizing r k with
  | nil =>
    cases r with
    | nil => exact absurd room (by simp)
    | cons s r =>
      obtain ⟨y2, z2, sum2, eq2, lt2, carry2⟩ := dsumc_out (carry_lt small.y0) small.z1 small.y2
      obtain ⟨y3, t, sum3, eq3, lt3, carry3⟩ := dsumc_out (bounded_cons.mp second).1 lt2 small.y3
      have unfolded : sqrLoop d [] (s :: r) k = ([t], k.y1 + y2 + y3, [y2, y3]) := by
        simp only [sqrLoop, headD_cons, sum2, sum3]
      have one := small.y1
      rw [unfolded]
      refine ⟨?_, rfl, bounded_cons.mpr ⟨lt3, Bounded.nil⟩, show k.y1 + y2 + y3 ≤ 3 by omega, ?_⟩
      · simp only [SqrCarry.pending, Nat.ofDigits_singleton, length_nil, Nat.zero_add,
          take_succ_cons, take_zero, Nat.ofDigits_nil]
        linarith
      · exact bounded_cons.mpr ⟨carry_lt carry2, bounded_cons.mpr ⟨carry_lt carry3, Bounded.nil⟩⟩
  | cons e y ih =>
    cases r with
    | nil => exact absurd room (by simp)
    | cons s r =>
      obtain ⟨digitY, restY⟩ := bounded_cons.mp first
      obtain ⟨digitR, restR⟩ := bounded_cons.mp second
      obtain ⟨b1, b0, prod, eqp, low, high⟩ := dmul_out digit digitY
      obtain ⟨y0, z0, sum0, eq0, lt0, carry0⟩ := dsumc_out low low small.y0
      obtain ⟨y2, z2, sum2, eq2, lt2, carry2⟩ := dsumc_out lt0 small.z1 small.y2
      obtain ⟨y3, t, sum3, eq3, lt3, carry3⟩ := dsumc_out digitR lt2 small.y3
      obtain ⟨y1, z1, sum1, eq1, lt1, carry1⟩ := dsumc_out high high small.y1
      have later := ih r ⟨y0, y1, y2, y3, z1⟩ restY restR (Nat.le_of_succ_le_succ room)
        ⟨carry0, carry1, carry2, carry3, lt1⟩
      have unfolded : sqrLoop d (e :: y) (s :: r) k = (t :: (sqrLoop d y r ⟨y0, y1, y2, y3, z1⟩).1,
          (sqrLoop d y r ⟨y0, y1, y2, y3, z1⟩).2.1,
          y0 :: y1 :: y2 :: y3 :: (sqrLoop d y r ⟨y0, y1, y2, y3, z1⟩).2.2) := by
        simp only [sqrLoop, headD_cons, tail_cons, prod, sum0, sum1, sum2, sum3]
      rw [unfolded]
      refine ⟨?_, congrArg Nat.succ later.length, bounded_cons.mpr ⟨lt3, later.bounded⟩,
        later.sum, ?_⟩
      · have eq := congrArg (dBase * ·) later.eq
        simp only [SqrCarry.pending, Nat.ofDigits_cons, length_cons, take_succ_cons,
          Nat.pow_succ] at eq ⊢
        have shifted := congrArg (dBase * ·) eq1
        linarith
      · exact bounded_cons.mpr ⟨carry_lt carry0,
          bounded_cons.mpr ⟨carry_lt carry1, bounded_cons.mpr ⟨carry_lt carry2,
          bounded_cons.mpr ⟨carry_lt carry3, later.carries⟩⟩⟩⟩

theorem sqrRow_spec (digit : d < dBase) (first : Bounded dBase y) (second : Bounded dBase r)
    (room : y.length + 2 ≤ r.length) :
    SqrSpec (d * d + dBase * (2 * d * ofDigits dBase y) + ofDigits dBase (r.take (y.length + 2)))
      (y.length + 2)
      (sqrRow d y r) := by
  cases r with
  | nil => exact absurd room (by simp)
  | cons s r =>
    obtain ⟨digitR, restR⟩ := bounded_cons.mp second
    obtain ⟨b1, b0, prod, eqp, low, high⟩ := dmul_out digit digit
    obtain ⟨y3, t, sum3, eq3, lt3, carry3⟩ := dsumc_out digitR low (Nat.zero_le 1)
    have later := sqrLoop_spec digit y r ⟨0, 0, 0, y3, b1⟩ first restR (Nat.le_of_succ_le_succ room)
      ⟨Nat.zero_le 1, Nat.zero_le 1, Nat.zero_le 1, carry3, high⟩
    have unfolded : sqrRow d y (s :: r) = (t :: (sqrLoop d y r ⟨0, 0, 0, y3, b1⟩).1,
        (sqrLoop d y r ⟨0, 0, 0, y3, b1⟩).2.1, y3 :: (sqrLoop d y r ⟨0, 0, 0, y3, b1⟩).2.2) := by
      simp only [sqrRow, headD_cons, tail_cons, prod, sum3]
    rw [unfolded]
    refine ⟨?_, congrArg Nat.succ later.length, bounded_cons.mpr ⟨lt3, later.bounded⟩, later.sum,
      bounded_cons.mpr ⟨carry_lt carry3, later.carries⟩⟩
    have eq := congrArg (dBase * ·) later.eq
    simp only [SqrCarry.pending, Nat.ofDigits_cons, take_succ_cons, Nat.pow_succ] at eq ⊢
    linarith

structure SqrLoopSpec (x r : List Nat) (out : List Nat × List Nat) : Prop where
  eq : ofDigits dBase (out.1.take (x.length + x.length)) =
    ofDigits dBase x * ofDigits dBase x + ofDigits dBase (r.take (x.length + 1))
  length : out.1.length = r.length
  bounded : Bounded dBase out.1
  carries : Bounded dBase out.2

/-- The last row has no carry, as the square fits. -/
theorem iSqrLoop_last (digit : d < dBase) (memory : Bounded dBase r) (room : 2 ≤ r.length)
    (fits : d * d + ofDigits dBase (r.take 2) < dBase ^ 2) :
    SqrLoopSpec [d] r (iSqrLoop [d] r) := by
  have row := sqrRow_spec digit Bounded.nil memory room
  have eq := row.eq
  simp only [Nat.ofDigits_nil, Nat.mul_zero, Nat.add_zero, length_nil, Nat.zero_add] at eq
  have none : (sqrRow d [] r).2.1 = 0 := by
    by_contra some
    have one : dBase ^ 2 * 1 ≤ dBase ^ 2 * (sqrRow d [] r).2.1 :=
      Nat.mul_le_mul_left _ (Nat.pos_of_ne_zero some)
    omega
  rw [none, Nat.mul_zero, Nat.add_zero] at eq
  have length : (sqrRow d [] r).1.length = 2 := row.length
  have written : iSqrLoop [d] r =
    ((sqrRow d [] r).1 ++ r.drop 2, (sqrRow d [] r).2.1 :: (sqrRow d [] r).2.2 ++ []) := by
    simp only [iSqrLoop, if_true, take_append_drop]
  rw [written]
  refine ⟨?_, ?_, bounded_append.mpr ⟨row.bounded, memory.drop 2⟩, ?_⟩
  · simp only [length_singleton, Nat.ofDigits_singleton]
    rw [take_append_of_le_length length.ge, take_of_length_le length.le, eq]
  · simp only [length_append, length_drop]
    omega
  · exact bounded_cons.mpr ⟨Nat.lt_of_le_of_lt row.sum (by decide), row.carries⟩

theorem iSqrLoop_spec (x r : List Nat) (nonempty : x ≠ []) (first : Bounded dBase x)
    (memory : Bounded dBase r) (room : x.length + x.length ≤ r.length)
    (fits : ofDigits dBase x * ofDigits dBase x + ofDigits dBase (r.take (x.length + 1)) <
      dBase ^ (x.length + x.length)) :
    SqrLoopSpec x r (iSqrLoop x r) := by
  induction x generalizing r with
  | nil => exact absurd rfl nonempty
  | cons d x ih =>
    obtain ⟨digit, rest⟩ := bounded_cons.mp first
    by_cases empty : x = []
    · subst empty
      exact iSqrLoop_last digit memory room (by simpa using fits)
    · have positive := length_pos_iff.mpr empty
      rw [length_cons] at room
      have row := sqrRow_spec digit rest memory (by omega)
      have sum : (sqrRow d x r).2.1 < dBase := Nat.lt_of_le_of_lt row.sum (by decide)
      obtain ⟨m, written⟩ : ∃ m,
        m = (sqrRow d x r).1 ++ (sqrRow d x r).2.1 % dBase :: r.drop (x.length + 3) := ⟨_, rfl⟩
      have all : Bounded dBase m := written ▸ bounded_append.mpr
        ⟨row.bounded, bounded_cons.mpr ⟨Nat.mod_lt _ dBase_pos, memory.drop _⟩⟩
      have size : m.length = r.length := by
        rw [written]
        simp only [length_append, length_cons, length_drop, row.length]
        omega
      have low : (m.take 2).length = 2 := length_take_of_le (by omega)
      have window : m.take 2 ++ (m.drop 2).take (x.length + 1) =
        (sqrRow d x r).1 ++ [(sqrRow d x r).2.1] := by
        rw [← take_add, show 2 + (x.length + 1) = x.length + 2 + 1 by omega, written, ← row.length,
          take_length_add_append, Nat.mod_eq_of_lt sum]
        rfl
      have value := congrArg (ofDigits dBase) window
      rw [Nat.ofDigits_append, low, Nat.ofDigits_append, Nat.ofDigits_singleton, row.length,
        row.eq] at value
      have square : ofDigits dBase (d :: x) * ofDigits dBase (d :: x) +
          ofDigits dBase (r.take (x.length + 2)) =
          ofDigits dBase (m.take 2) + dBase ^ 2 *
            (ofDigits dBase x * ofDigits dBase x +
              ofDigits dBase ((m.drop 2).take (x.length + 1))) := by
        have expanded : (d + dBase * ofDigits dBase x) * (d + dBase * ofDigits dBase x) =
            d * d + dBase * (2 * d * ofDigits dBase x) + dBase ^ 2 *
              (ofDigits dBase x * ofDigits dBase x) := by ring
        rw [Nat.ofDigits_cons, Nat.mul_add (dBase ^ 2)]
        omega
      have fits' : ofDigits dBase x * ofDigits dBase x + ofDigits dBase
        ((m.drop 2).take (x.length + 1)) <
          dBase ^ (x.length + x.length) := by
        rw [length_cons, square] at fits
        have power : dBase ^ (x.length + 1 + (x.length + 1)) =
          dBase ^ 2 * dBase ^ (x.length + x.length) := by ring
        rw [power] at fits
        exact Nat.lt_of_mul_lt_mul_left (Nat.lt_of_le_of_lt (Nat.le_add_left _ _) fits)
      have later := ih (m.drop 2) empty rest (all.drop 2) (by rw [length_drop]; omega) fits'
      have unfolded : iSqrLoop (d :: x) r = (m.take 2 ++ (iSqrLoop x (m.drop 2)).1,
          (sqrRow d x r).2.1 :: (sqrRow d x r).2.2 ++ (iSqrLoop x (m.drop 2)).2) := by
        simp only [iSqrLoop, if_neg empty, ← written]
      rw [unfolded]
      refine ⟨?_, ?_, bounded_append.mpr ⟨all.take 2, later.bounded⟩, ?_⟩
      · have length : (d :: x).length + (d :: x).length =
          (m.take 2).length + (x.length + x.length) := by
          rw [length_cons]
          omega
        rw [length, take_length_add_append, Nat.ofDigits_append, low, later.eq]
        exact square.symm
      · rw [length_append, later.length, length_drop]
        omega
      · exact bounded_append.mpr ⟨bounded_cons.mpr ⟨sum, row.carries⟩, later.carries⟩

end Otp.Big
