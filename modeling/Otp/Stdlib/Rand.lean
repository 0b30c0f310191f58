import Mathlib.Data.Finite.Prod
import Mathlib.Data.Nat.Prime.Basic
import Otp.Library.Xorshift

/-! The generators of `rand.erl`: seeding and the next state. -/

namespace Otp.Rand

open List Function Otp.Library.Xorshift

/-- The masks `?UINT64MASK` and so on. -/
def mask (bits : Nat) : Nat := 2 ^ bits - 1

/-- An integer, which may be negative, `band` a mask. -/
def low (bits : Nat) (a : Int) : Nat := (a % 2 ^ bits).toNat

def exs64Next (r : Nat) : Nat × Nat :=
  let r1 := r ^^^ (r >>> 12)
  let r2 := r1 ^^^ ((r1 &&& mask 39) <<< 25)
  let r3 := r2 ^^^ (r2 >>> 27)
  ((r3 * 2685821657736338717) &&& mask 64, r3)

def exs64Seed (a1 a2 a3 : Int) : Nat :=
  let v1 := (exs64Next (low 32 a1 * 4294967197 + 1)).1
  let v2 := (exs64Next (low 32 a2 * 4294967231 + 1)).1
  let v3 := (exs64Next (low 32 a3 * 4294967279 + 1)).1
  (v1 * v2 * v3) % (mask 64 - 1) + 1

/-- The state `[S1|S0]` is a pair. -/
def exsplusNext (s : Nat × Nat) : Nat × (Nat × Nat) :=
  let (s1, s0) := s
  let s11 := (s1 ^^^ (s1 <<< 24)) &&& mask 58
  let s12 := s11 ^^^ s0 ^^^ (s11 >>> 11) ^^^ (s0 >>> 41)
  ((s0 + s12) &&& mask 58, (s0, s12))

def exsplusSeed (a1 a2 a3 : Int) : Nat × Nat :=
  let r1 := (exsplusNext (low 58 (a1 * 4294967197 + 1), low 58 (a2 * 4294967231 + 1))).2
  (exsplusNext (low 58 (a3 * 4294967279 + 1), r1.2)).2

def exs1024Gen1024 : Nat → Nat → List Nat → List Nat
  | 0, _, l => l
  | n + 1, r, l => exs1024Gen1024 n (exs64Next r).2 ((exs64Next r).1 :: l)

def exs1024Seed (a1 a2 a3 : Int) : List Nat × List Nat :=
  let b1 := ((low 21 a1 + 1) * 2097131) &&& mask 21
  let b2 := ((low 21 a2 + 1) * 2097133) &&& mask 21
  let b3 := ((low 21 a3 + 1) * 2097143) &&& mask 21
  (exs1024Gen1024 16 ((b1 <<< 43) ||| (b2 <<< 22) ||| (b3 <<< 1) ||| 1) [], [])

def exs1024Calc (s0 s1 : Nat) : Nat × Nat :=
  let s11 := s1 ^^^ ((s1 &&& mask 33) <<< 31)
  let s12 := s11 ^^^ (s11 >>> 11)
  let s01 := s0 ^^^ (s0 >>> 30)
  let ns1 := s01 ^^^ s12
  ((ns1 * 1181783497276652981) &&& mask 64, ns1)

/-- The first list is never empty. With one number in all the source calls itself for ever. -/
def exs1024Next : List Nat × List Nat → Option (Nat × (List Nat × List Nat))
  | (s0 :: s1 :: l3, rl) =>
    let (x, ns1) := exs1024Calc s0 s1
    some (x, (ns1 :: l3, s0 :: rl))
  | ([h], rl) =>
    match rl.reverse with
    | s1 :: l3 =>
      let (x, ns1) := exs1024Calc h s1
      some (x, (ns1 :: l3, [h]))
    | [] => none
  | ([], _) => none

theorem and_mask (x bits : Nat) : x &&& mask bits = x % 2 ^ bits :=
  Nat.and_two_pow_sub_one_eq_mod x bits

theorem low_lt (bits : Nat) (a : Int) : low bits a < 2 ^ bits := by
  have positive : (0 : Int) < 2 ^ bits := Int.pow_pos (by decide)
  have below := Int.emod_lt_of_pos a positive
  rw [low, Int.toNat_lt (Int.emod_nonneg a positive.ne')]
  simpa using below

theorem exs64Next_eq (r : Nat) : (exs64Next r).2 = right 27 (left 39 25 (right 12 r)) := by
  simp only [exs64Next, and_mask, right, left]

theorem exs64Next_injective : Injective fun r => (exs64Next r).2 := by
  intro r r' same
  simp only [exs64Next_eq] at same
  exact right_injective (by decide) (left_injective (by decide) (right_injective (by decide) same))

/-- Within 64 bits, and not zero. -/
def Exs64Ok (r : Nat) : Prop := r < 2 ^ 64 ∧ r ≠ 0

theorem exs64Next_ok (ok : Exs64Ok r) : Exs64Ok (exs64Next r).2 := by
  refine ⟨?_, fun zero => ok.2 (exs64Next_injective zero)⟩
  rw [exs64Next_eq]
  exact right_lt (left_lt (right_lt ok.1))

theorem exs64Seed_ok (a1 a2 a3 : Int) : Exs64Ok (exs64Seed a1 a2 a3) :=
  ⟨(Nat.succ_lt_succ (Nat.mod_lt _ (by decide))).trans (show mask 64 - 1 + 1 < 2 ^ 64 by decide),
    Nat.succ_ne_zero _⟩

/-- The number that goes out is not zero either: the factor is odd. -/
theorem exs64Next_number (ok : Exs64Ok r) : Exs64Ok (exs64Next r).1 := by
  have next := exs64Next_ok ok
  have number : (exs64Next r).1 = (exs64Next r).2 * 2685821657736338717 % 2 ^ 64 := and_mask _ 64
  rw [number]
  refine ⟨Nat.mod_lt _ (by decide), fun zero => next.2 ?_⟩
  have divides : 2 ^ 64 ∣ (exs64Next r).2 :=
    (show Nat.Coprime (2 ^ 64) 2685821657736338717 by decide).dvd_of_dvd_mul_right
      (Nat.dvd_of_mod_eq_zero zero)
  exact Nat.eq_zero_of_dvd_of_lt divides next.1

/-- Both within 58 bits, and not both zero. -/
def ExsplusOk (s : Nat × Nat) : Prop := s.1 < 2 ^ 58 ∧ s.2 < 2 ^ 58 ∧ s ≠ (0, 0)

theorem exsplusNext_eq (small : s1 < 2 ^ 58) :
    (exsplusNext (s1, s0)).2 = (s0, right 11 (left 34 24 s1) ^^^ right 41 s0) := by
  simp only [exsplusNext, and_mask]
  rw [show (58 : Nat) = 34 + 24 from rfl, left_eq small, right, right]
  congr 1
  ac_rfl

theorem exsplusNext_injOn : Set.InjOn (fun s => (exsplusNext s).2) {s | s.1 < 2 ^ 58} := by
  rintro ⟨s1, s0⟩ small ⟨s1', s0'⟩ small' same
  simp only [exsplusNext_eq small, exsplusNext_eq small', Prod.mk.injEq] at same
  obtain ⟨rfl, same⟩ := same
  have first := Nat.xor_left_injective same
  rw [left_injective (by decide) (right_injective (by decide) first)]

theorem exsplusNext_lt (small : s.1 < 2 ^ 58) (small' : s.2 < 2 ^ 58) :
    (exsplusNext s).2.1 < 2 ^ 58 ∧ (exsplusNext s).2.2 < 2 ^ 58 := by
  rw [exsplusNext_eq small]
  exact ⟨small', Nat.xor_lt_two_pow (right_lt (left_lt small)) (right_lt small')⟩

theorem exsplusNext_ok (ok : ExsplusOk s) : ExsplusOk (exsplusNext s).2 := by
  obtain ⟨small, small', nonzero⟩ := ok
  obtain ⟨first, second⟩ := exsplusNext_lt small small'
  exact ⟨first, second, fun zero =>
    nonzero (exsplusNext_injOn small (show 0 < 2 ^ 58 by decide) zero)⟩

/-- The state after seeding is zero if the third number becomes zero and the first two ones cancel
out. -/
theorem exsplusSeed_zero : exsplusSeed a1 a2 a3 = (0, 0) ↔ low 58 (a3 * 4294967279 + 1) = 0 ∧
    right 11 (left 34 24 (low 58 (a1 * 4294967197 + 1))) =
      right 41 (low 58 (a2 * 4294967231 + 1)) := by
  have small : low 58 (a3 * 4294967279 + 1) < 2 ^ 58 := low_lt _ _
  have before : (exsplusNext (low 58 (a1 * 4294967197 + 1), low 58 (a2 * 4294967231 + 1))).2.2 = 0 ↔
      right 11 (left 34 24 (low 58 (a1 * 4294967197 + 1))) =
        right 41 (low 58 (a2 * 4294967231 + 1)) := by
    rw [exsplusNext_eq (low_lt _ _), Nat.xor_eq_zero_iff]
  rw [← before, exsplusSeed]
  refine ⟨fun zero => ?_, fun ⟨third, cancel⟩ => ?_⟩
  · exact Prod.mk.inj (exsplusNext_injOn small (show 0 < 2 ^ 58 by decide) zero)
  · rw [third, cancel]
    rfl

theorem exsplusSeed_lt (a1 a2 a3 : Int) : (exsplusSeed a1 a2 a3).1 < 2 ^ 58 ∧
    (exsplusSeed a1 a2 a3).2 < 2 ^ 58 :=
  exsplusNext_lt (low_lt _ _)
    (exsplusNext_lt (s := (low 58 _, low 58 _)) (low_lt _ _) (low_lt _ _)).2

theorem exsplus_keeps_going :
    (∀ n, ExsplusOk ((fun s => (exsplusNext s).2)^[n] (exsplusSeed a1 a2 a3))) ↔
    exsplusSeed a1 a2 a3 ≠ (0, 0) := by
  obtain ⟨small, small'⟩ := exsplusSeed_lt a1 a2 a3
  exact ⟨fun ok => (ok 0).2.2,
    fun nonzero => Iterate.rec ExsplusOk ⟨small, small', nonzero⟩ fun _ => exsplusNext_ok⟩

/-- The numbers from the present one on; the second list has those passed, the last one first. -/
def register (s : List Nat × List Nat) : List Nat := s.1 ++ s.2.reverse

/-- Two numbers or more, within 64 bits and not all zero. -/
def Exs1024Ok (s : List Nat × List Nat) : Prop :=
  s.1 ≠ [] ∧ 2 ≤ (register s).length ∧ (∀ x ∈ register s, x < 2 ^ 64) ∧ ∃ x ∈ register s, x ≠ 0

theorem exs1024Calc_eq (s0 s1 : Nat) :
    (exs1024Calc s0 s1).2 = right 30 s0 ^^^ right 11 (left 33 31 s1) := by
  simp only [exs1024Calc, and_mask, right, left]

theorem exs1024Calc_injective (same : (exs1024Calc s0 s1).2 = (exs1024Calc s0 s1').2) :
    s1 = s1' := by
  rw [exs1024Calc_eq, exs1024Calc_eq] at same
  exact left_injective (by decide) (right_injective (by decide) (Nat.xor_right_injective same))

theorem exs1024Next_cases (ok : Exs1024Ok s) : ∃ s0 s1 l rl,
    exs1024Next s = some ((exs1024Calc s0 s1).1, ((exs1024Calc s0 s1).2 :: l, s0 :: rl)) ∧
      (s = (s0 :: s1 :: l, rl) ∨ s = ([s0], (s1 :: l).reverse) ∧ rl = []) := by
  obtain ⟨present, two, -⟩ := ok
  match s with
  | (s0 :: s1 :: l, rl) => exact ⟨s0, s1, l, rl, rfl, .inl rfl⟩
  | ([s0], rl) =>
    match back : rl.reverse with
    | [] => simp [register, back] at two
    | s1 :: l =>
      refine ⟨s0, s1, l, [], by simp only [exs1024Next, back], .inr ⟨?_, rfl⟩⟩
      rw [← back, reverse_reverse]
  | ([], _) => exact absurd rfl present

theorem exs1024Next_ok (ok : Exs1024Ok s) :
    ∃ x next, exs1024Next s = some (x, next) ∧ Exs1024Ok next ∧
    (register next).length = (register s).length := by
  obtain ⟨s0, s1, l, rl, stepped, form⟩ := exs1024Next_cases ok
  obtain ⟨-, -, small, x, member, nonzero⟩ := ok
  have shape : register s = s0 :: s1 :: (l ++ rl.reverse) := by
    rcases form with rfl | ⟨rfl, rfl⟩ <;> simp [register]
  have shape' : register ((exs1024Calc s0 s1).2 :: l, s0 :: rl) =
      (exs1024Calc s0 s1).2 :: (l ++ rl.reverse ++ [s0]) := by
    simp [register]
  generalize l ++ rl.reverse = rest at shape shape'
  rw [shape] at small member
  obtain ⟨small0, small1, later⟩ := by simpa only [forall_mem_cons] using small
  refine ⟨_, _, stepped, ⟨cons_ne_nil _ _, by simp [shape'], ?_, ?_⟩, by simp [shape, shape']⟩
  · rw [shape', exs1024Calc_eq]
    have new : right 30 s0 ^^^ right 11 (left 33 31 s1) < 2 ^ 64 :=
      Nat.xor_lt_two_pow (right_lt small0) (right_lt (left_lt small1))
    refine forall_mem_cons.mpr ⟨new, forall_mem_append.mpr ⟨later, ?_⟩⟩
    exact forall_mem_singleton.mpr small0
  · rw [shape']
    by_cases zero : s0 = 0
    · subst zero
      -- the number passed is zero, so the second or a later one is not
      rcases mem_cons.mp member with rfl | member
      · exact absurd rfl nonzero
      rcases mem_cons.mp member with rfl | member
      · refine ⟨_, mem_cons_self, fun gone => nonzero ?_⟩
        have zero : (exs1024Calc 0 0).2 = 0 := rfl
        exact exs1024Calc_injective (gone.trans zero.symm)
      · exact ⟨x, by simp [member], nonzero⟩
    · exact ⟨s0, by simp, zero⟩

/-- Two ways to write one state: with a single number in the first list, and with all of them in
it. -/
def Turned (s s' : List Nat × List Nat) : Prop := s.1.length = 1 ∧ s' = (register s, [])

theorem exs1024Next_turned (turned : Turned s s') : exs1024Next s = exs1024Next s' := by
  obtain ⟨l, rl⟩ := s
  obtain ⟨single, rfl⟩ := turned
  obtain ⟨h, rfl⟩ := length_eq_one_iff.mp single
  cases back : rl.reverse <;> simp [register, exs1024Next, back]

theorem exs1024Next_same (ok : Exs1024Ok s) (ok' : Exs1024Ok s') :
    (exs1024Next s).map Prod.snd = (exs1024Next s').map Prod.snd ↔ s = s' ∨ Turned s s' ∨
    Turned s' s := by
  obtain ⟨s0, s1, l, rl, next, form⟩ := exs1024Next_cases ok
  obtain ⟨s0', s1', l', rl', next', form'⟩ := exs1024Next_cases ok'
  constructor
  · intro same
    simp only [next, next', Option.map_some, Option.some.injEq, Prod.mk.injEq, cons.injEq] at same
    obtain ⟨⟨number, rfl⟩, rfl, rfl⟩ := same
    obtain rfl := exs1024Calc_injective number
    rcases form with rfl | ⟨rfl, rfl⟩ <;> rcases form' with rfl | ⟨rfl, none⟩
    · exact .inl rfl
    · exact .inr (.inr ⟨rfl, by simp [register, none]⟩)
    · exact .inr (.inl ⟨rfl, by simp [register]⟩)
    · exact .inl rfl
  · rintro (rfl | turned | turned)
    · rfl
    · rw [exs1024Next_turned turned]
    · rw [exs1024Next_turned turned]

theorem exs1024Gen1024_spec (n : Nat) (ok : Exs64Ok r) (small : ∀ x ∈ l, Exs64Ok x) :
    (∀ x ∈ exs1024Gen1024 n r l, Exs64Ok x) ∧ (exs1024Gen1024 n r l).length = n + l.length := by
  induction n generalizing r l with
  | zero => exact ⟨small, (Nat.zero_add _).symm⟩
  | succ n ih =>
    obtain ⟨all, length⟩ := ih (exs64Next_ok ok) (forall_mem_cons.mpr ⟨exs64Next_number ok, small⟩)
    refine ⟨all, length.trans ?_⟩
    rw [length_cons]
    omega

theorem exs1024Seed_ok (a1 a2 a3 : Int) :
    Exs1024Ok (exs1024Seed a1 a2 a3) ∧ (register (exs1024Seed a1 a2 a3)).length = 16 := by
  have part (x shift : Nat) (fits : shift ≤ 43) : (x &&& mask 21) <<< shift < 2 ^ 64 := by
    rw [and_mask]
    exact (Nat.shiftLeft_lt (Nat.mod_lt x (by decide))).trans_le
      (Nat.pow_le_pow_right (by decide) (by omega))
  obtain ⟨all, length⟩ :=
    exs1024Gen1024_spec 16 (l := []) (r := (_ <<< 43) ||| (_ <<< 22) ||| (_ <<< 1) ||| 1)
    ⟨Nat.or_lt_two_pow (Nat.or_lt_two_pow
      (Nat.or_lt_two_pow (part _ 43 (by decide)) (part _ 22 (by decide)))
      (part _ 1 (by decide))) (by decide),
        fun zero => absurd (Nat.or_eq_zero_iff.mp zero).2 (by decide)⟩ nofun
  have whole : register (exs1024Seed a1 a2 a3) = (exs1024Seed a1 a2 a3).1 := append_nil _
  obtain ⟨x, member⟩ := exists_mem_of_length_pos (Nat.lt_of_lt_of_eq (by decide) length.symm)
  rw [Exs1024Ok, whole]
  exact ⟨⟨ne_nil_of_mem member, length.symm ▸ (by decide), fun x member => (all x member).1, x,
    member, (all x member).2⟩, length⟩

/-- The states of `exs1024` after some steps. -/
def exs1024Steps : Nat → List Nat × List Nat → Option (List Nat × List Nat)
  | 0, s => some s
  | n + 1, s => (exs1024Next s).bind fun next => exs1024Steps n next.2

theorem exs1024Steps_ok (ok : Exs1024Ok s) (n : Nat) :
    ∃ last, exs1024Steps n s = some last ∧ Exs1024Ok last ∧
    (register last).length = (register s).length := by
  induction n generalizing s with
  | zero => exact ⟨s, rfl, ok, rfl⟩
  | succ n ih =>
    obtain ⟨x, next, stepped, nextOk, same⟩ := exs1024Next_ok ok
    obtain ⟨last, steps, lastOk, length⟩ := ih nextOk
    exact ⟨last, by rw [exs1024Steps, stepped]; exact steps, lastOk, length.trans same⟩

/-- No generator gets stuck, unless the seed of `exsplus` becomes zero. A step loses nothing, but
for the two ways to write a state of `exs1024`. -/
theorem generators_keep_going (a1 a2 a3 : Int) :
    (∀ n, Exs64Ok ((fun r => (exs64Next r).2)^[n] (exs64Seed a1 a2 a3))) ∧
      ((∀ n, ExsplusOk ((fun s => (exsplusNext s).2)^[n] (exsplusSeed a1 a2 a3))) ↔
        ¬(low 58 (a3 * 4294967279 + 1) = 0 ∧
          right 11 (left 34 24 (low 58 (a1 * 4294967197 + 1))) =
            right 41 (low 58 (a2 * 4294967231 + 1)))) ∧
      (∀ n, ∃ s, exs1024Steps n (exs1024Seed a1 a2 a3) = some s ∧ Exs1024Ok s ∧
        (register s).length = 16) ∧
      Set.InjOn (fun r => (exs64Next r).2) {r | Exs64Ok r} ∧
      Set.InjOn (fun s => (exsplusNext s).2) {s | ExsplusOk s} ∧
      ∀ s s', Exs1024Ok s → Exs1024Ok s' →
        ((exs1024Next s).map Prod.snd = (exs1024Next s').map Prod.snd ↔ s = s' ∨ Turned s s' ∨
          Turned s' s) := by
  obtain ⟨seeded, sixteen⟩ := exs1024Seed_ok a1 a2 a3
  refine ⟨Iterate.rec Exs64Ok (exs64Seed_ok a1 a2 a3) (fun _ => exs64Next_ok), ?_, fun n => ?_,
    exs64Next_injective.injOn, exsplusNext_injOn.mono fun s ok => ok.1,
      fun s s' => exs1024Next_same⟩
  · rw [exsplus_keeps_going, ne_eq, exsplusSeed_zero]
  · obtain ⟨last, steps, ok, length⟩ := exs1024Steps_ok seeded n
    exact ⟨last, steps, ok, length.trans sixteen⟩

/-- The third number becomes zero, but the first two do not cancel out. -/
theorem generators_keep_going_one :
    ExsplusOk ((fun s => (exsplusNext s).2)^[3] (exsplusSeed 1 2 258310267915530481)) :=
  (generators_keep_going 1 2 258310267915530481).2.1.mpr (by decide) 3

/-- Three numbers that `exsplus` makes zeros of, and two states of `exs1024` with the same next
one. -/
theorem generators_stuck :
    exsplusSeed 279025590136897867 49868971590815681 258310267915530481 = (0, 0) ∧
      exsplusNext (0, 0) = (0, (0, 0)) ∧ exs1024Next ([1], [2]) = exs1024Next ([1, 2], []) := by
  decide

/-- The states of `exs64` and `exsplus` go round in a circle that the seed is on. -/
theorem generators_return (a1 a2 a3 : Int) :
    (∃ n > 0, (fun r => (exs64Next r).2)^[n] (exs64Seed a1 a2 a3) = exs64Seed a1 a2 a3) ∧
      ∃ n > 0, (fun s => (exsplusNext s).2)^[n] (exsplusSeed a1 a2 a3) = exsplusSeed a1 a2 a3 := by
  have finite (bits : Nat) : Set.Finite {x : Nat | x < 2 ^ bits} := Set.finite_lt_nat _
  constructor
  · exact returns_of_injOn (s := {r | Exs64Ok r}) ((finite 64).subset fun _ ok => ok.1)
      (fun _ => exs64Next_ok)
      exs64Next_injective.injOn (exs64Seed_ok a1 a2 a3)
  · refine returns_of_injOn ((finite 58).prod (finite 58))
      (fun s small => exsplusNext_lt small.1 small.2)
      (exsplusNext_injOn.mono fun s small => small.1) ?_
    exact exsplusSeed_lt a1 a2 a3

end Otp.Rand
