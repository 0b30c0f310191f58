import Otp.Library.BigEndian

/-! `mime_decode` of `base64.erl`. A bit string is its size and its value; every failure is
`none`. -/

namespace Otp.Base64

open Otp.Library

abbrev Bytes := List UInt8

structure Bits where
  size : Nat
  value : Nat
deriving DecidableEq, Repr

namespace Bits

/-- `<<Bits/bits,Sextet:6>>`. -/
def push (bits : Bits) (sextet : Nat) : Bits := ⟨bits.size + 6, bits.value * 64 + sextet⟩

/-- What `is_binary` lets through. -/
def bytes (bits : Bits) : Option Bytes :=
  if bits.size % 8 = 0 then some (toBytes (bits.size / 8) bits.value) else none

/-- All bytes but the last, which has `width` bits. -/
def drop (bits : Bits) (width : Nat) : Option Bytes :=
  let split := (bits.size + 7) / 8 - 1
  if bits.size = 8 * split + width then some (toBytes split (bits.value / 2 ^ width)) else none

end Bits

/-- An element of `?DECODE_MAP`. -/
inductive Code where
  | bits (sextet : Nat)
  | eq
  | ws
  | bad
deriving DecidableEq, Repr

def decodeMap (c : UInt8) : Code :=
  if c = 9 ∨ c = 10 ∨ c = 13 ∨ c = 32 then .ws
  else if c = 43 then .bits 62
  else if c = 47 then .bits 63
  else if 48 ≤ c ∧ c ≤ 57 then .bits (c.toNat - 48 + 52)
  else if c = 61 then .eq
  else if 65 ≤ c ∧ c ≤ 90 then .bits (c.toNat - 65)
  else if 97 ≤ c ∧ c ≤ 122 then .bits (c.toNat - 97 + 26)
  else .bad

/-- The map has no element zero. -/
def element (c : UInt8) : Option Code := if c = 0 then none else some (decodeMap c)

def tailContainsMore : Bytes → Bool → Option (Bytes × Bool)
  | [], eq => some ([], eq)
  | c :: t, eq => do
    match ← element c with
    | .bad | .ws => tailContainsMore t eq
    | .eq => tailContainsMore t true
    | .bits _ => some (c :: t, eq)

theorem tailContainsMore_length (found : tailContainsMore t eq = some (more, again)) :
    more.length ≤ t.length := by
  induction t generalizing eq with
  | nil =>
    cases found
    exact Nat.le_refl _
  | cons c t ih =>
    obtain ⟨code, _, rest⟩ := Option.bind_eq_some_iff.mp found
    cases code with
    | bits sextet =>
      cases rest
      exact Nat.le_refl _
    | eq | ws | bad => exact Nat.le_succ_of_le (ih rest)

/-- No more valid data behind a pad: the clauses `0`, `4 when Eq` and `2`. -/
def Bits.noMore (result : Bits) (eq : Bool) : Option Bytes :=
  if result.size % 8 = 0 then result.bytes
  else if result.size % 8 = 4 ∧ eq = true then result.drop 4
  else if result.size % 8 = 2 then result.drop 2
  else none

def mimeDecodeBinary (result : Bits) : Bytes → Option Bytes
  | [] => result.bytes
  | c :: t =>
    if c = 0 then mimeDecodeBinary result t
    else
      match decodeMap c with
      | .bits sextet => mimeDecodeBinary (result.push sextet) t
      | .eq =>
        match _found : tailContainsMore t false with
        | none => none
        | some ([], eq) => result.noMore eq
        | some (more :: rest, _) => mimeDecodeBinary result (more :: rest)
      | _ => mimeDecodeBinary result t
termination_by s => s.length
decreasing_by all_goals first
  | exact Nat.lt_succ_self _
  | exact Nat.lt_succ_of_le (tailContainsMore_length _found)

def mimeDecode (s : Bytes) : Option Bytes := mimeDecodeBinary ⟨0, 0⟩ s

/-- Neither in the alphabet nor the pad character. -/
def Illegal (c : UInt8) : Prop := decodeMap c = .ws ∨ decodeMap c = .bad

/-- Illegal bytes are put into a string. -/
inductive Inserts : Bytes → Bytes → Prop where
  | nil : Inserts [] []
  | insert : Illegal c → Inserts s s' → Inserts s (c :: s')
  | keep : Inserts s s' → Inserts (c :: s) (c :: s')

/-- A zero stands behind a pad, with no character of the alphabet in between. -/
def zeroBehindPad : Bool → Bytes → Bool
  | _, [] => false
  | padded, c :: t =>
    if c = 0 then padded || zeroBehindPad padded t
    else
      match decodeMap c with
      | .eq => zeroBehindPad true t
      | .bits _ => zeroBehindPad false t
      | _ => zeroBehindPad padded t

theorem tailContainsMore_illegal (illegal : Illegal c) (positive : c ≠ 0) :
    tailContainsMore (c :: t) eq = tailContainsMore t eq := by
  rcases illegal with space | other
  · simp [tailContainsMore, element, positive, space]
  · simp [tailContainsMore, element, positive, other]

theorem mimeDecodeBinary_illegal (illegal : Illegal c) :
    mimeDecodeBinary result (c :: t) = mimeDecodeBinary result t := by
  rw [mimeDecodeBinary]
  split
  · rfl
  · rcases illegal with space | other
    · rw [space]
    · rw [other]

theorem positive_of_code (other : decodeMap c ≠ .bad) : c ≠ 0 := by
  rintro rfl
  exact other rfl

theorem mimeDecodeBinary_pad (pad : decodeMap c = .eq) : mimeDecodeBinary result (c :: t) =
    (tailContainsMore t false).bind fun found =>
      if found.1 = [] then result.noMore found.2 else mimeDecodeBinary result found.1 := by
  rw [mimeDecodeBinary, if_neg (positive_of_code (by simp [pad]))]
  simp only [pad]
  split
  case h_1 found => simp [found]
  case h_2 found => simp [found]
  case h_3 found => simp [found]

/-- The scan behind a pad fails at a zero, and otherwise stops at a character of the alphabet or
at the end. -/
theorem zeroBehindPad_pad (eq : Bool) : zeroBehindPad true t =
    ((tailContainsMore t eq).map fun found => zeroBehindPad false found.1).getD true := by
  induction t generalizing eq with
  | nil => rfl
  | cons c t ih =>
    by_cases zero : c = 0
    · simp [zeroBehindPad, tailContainsMore, element, zero]
    · cases code : decodeMap c with
      | bits sextet => simp [zeroBehindPad, tailContainsMore, element, zero, code]
      | eq => simp [zeroBehindPad, tailContainsMore, element, zero, code, ih true]
      | ws | bad => simp [zeroBehindPad, tailContainsMore, element, zero, code, ih eq]

theorem mimeDecodeBinary_zero (zero : zeroBehindPad false s = true) :
    mimeDecodeBinary result s = none := by
  fun_induction mimeDecodeBinary result s with
  | case1 => cases zero
  | case2 result t ih => exact ih (by simpa [zeroBehindPad] using zero)
  | case3 result c t positive sextet code ih =>
    exact ih (by simpa [zeroBehindPad, positive, code] using zero)
  | case4 => rfl
  | case5 result c t positive code eq found =>
    simp [zeroBehindPad, positive, code, zeroBehindPad_pad false, found] at zero
  | case6 result c t positive code more rest eq found ih =>
    exact ih (by simpa [zeroBehindPad, positive, code, zeroBehindPad_pad false, found] using zero)
  | case7 result c t positive noBits noPad ih =>
    refine ih ?_
    rw [zeroBehindPad, if_neg positive] at zero
    cases code : decodeMap c with
    | bits sextet => exact absurd code (noBits sextet)
    | eq => exact absurd code noPad
    | ws | bad => rwa [code] at zero

theorem zeroBehindPad_illegal (illegal : Illegal c)
    (clear : zeroBehindPad padded (c :: t) = false) :
    zeroBehindPad padded t = false := by
  rw [zeroBehindPad] at clear
  split at clear
  · exact (Bool.or_eq_false_iff.mp clear).2
  · rcases illegal with space | other
    · rwa [space] at clear
    · rwa [other] at clear

/-- Both scans behind a pad stop at the end or at the same character of the alphabet. -/
theorem tailContainsMore_inserts (inserts : Inserts s s') (clear : zeroBehindPad true s' = false)
    (eq : Bool) :
    ∃ more more' again, tailContainsMore s eq = some (more, again) ∧
    tailContainsMore s' eq = some (more', again) ∧
      (more = [] ↔ more' = []) ∧ Inserts more more' := by
  induction inserts generalizing eq with
  | nil => exact ⟨[], [], eq, rfl, rfl, Iff.rfl, .nil⟩
  | @insert c s s' illegal _ ih =>
    have positive : c ≠ 0 := by
      rintro rfl
      simp [zeroBehindPad] at clear
    rw [tailContainsMore_illegal illegal positive]
    exact ih (zeroBehindPad_illegal illegal clear) eq
  | @keep s s' c inserts ih =>
    have positive : c ≠ 0 := by
      rintro rfl
      simp [zeroBehindPad] at clear
    simp only [zeroBehindPad, positive, if_false] at clear
    simp only [tailContainsMore, element, positive, if_false, Option.bind_eq_bind, Option.bind_some]
    cases code : decodeMap c with
    | bits sextet => exact ⟨_, _, eq, rfl, rfl, by simp, .keep inserts⟩
    | eq => exact ih (by simpa [code] using clear) true
    | ws | bad => exact ih (by simpa [code] using clear) eq

theorem mimeDecodeBinary_inserts (inserts : Inserts s s') (clear : zeroBehindPad false s' = false) :
    mimeDecodeBinary result s = mimeDecodeBinary result s' := by
  match inserts with
  | .nil => rfl
  | .insert (c := c) illegal inserts =>
    rw [mimeDecodeBinary_illegal illegal]
    exact mimeDecodeBinary_inserts inserts (zeroBehindPad_illegal illegal clear)
  | @Inserts.keep s s' c inserts =>
    cases code : decodeMap c with
    | bits sextet =>
      have positive := positive_of_code (c := c) (by simp [code])
      simp only [mimeDecodeBinary, positive, code, if_false]
      exact mimeDecodeBinary_inserts inserts (by simpa [zeroBehindPad, positive, code] using clear)
    | eq =>
      have positive := positive_of_code (c := c) (by simp [code])
      have behind : zeroBehindPad true s' = false := by
        simpa [zeroBehindPad, positive, code] using clear
      obtain ⟨more, more', again, first, second, ends, further⟩ :=
        tailContainsMore_inserts inserts behind false
      have shorter := tailContainsMore_length second
      rw [mimeDecodeBinary_pad code, mimeDecodeBinary_pad code, first, second]
      simp only [Option.bind_some, ends]
      rw [mimeDecodeBinary_inserts further]
      rwa [zeroBehindPad_pad false, second] at behind
    | ws =>
      rw [mimeDecodeBinary_illegal (.inl code), mimeDecodeBinary_illegal (.inl code)]
      exact mimeDecodeBinary_inserts inserts (zeroBehindPad_illegal (.inl code) clear)
    | bad =>
      rw [mimeDecodeBinary_illegal (.inr code), mimeDecodeBinary_illegal (.inr code)]
      exact mimeDecodeBinary_inserts inserts (zeroBehindPad_illegal (.inr code) clear)
termination_by s'.length

/-- Inserted bytes that are no data do not change what is decoded, unless a zero gets behind a
pad: then nothing is decoded. -/
theorem mime_decode_ignores_illegal (s s' : Bytes) (inserts : Inserts s s') :
    (mimeDecode s' = mimeDecode s ↔ mimeDecode s = none ∨ zeroBehindPad false s' = false) ∧
      (zeroBehindPad false s' = true → mimeDecode s' = none) := by
  have fails : zeroBehindPad false s' = true → mimeDecode s' = none := mimeDecodeBinary_zero
  refine ⟨⟨fun same => ?_, ?_⟩, fails⟩
  · cases zero : zeroBehindPad false s' with
    | false => exact .inr rfl
    | true => exact .inl (same.symm.trans (fails zero))
  · rintro (none | clear)
    · cases zero : zeroBehindPad false s' with
      | false => exact (mimeDecodeBinary_inserts inserts zero).symm
      | true => exact (fails zero).trans none.symm
    · exact (mimeDecodeBinary_inserts inserts clear).symm

theorem mime_decode_ignores_illegal_breaks :
    mimeDecode [81, 81, 61, 13, 10, 61] = mimeDecode [81, 81, 61, 61] :=
  (mime_decode_ignores_illegal [81, 81, 61, 61] _ (.keep (.keep (.keep (.insert (.inl rfl)
    (.insert (.inl rfl) (.keep .nil))))))).1.mpr (.inr (by decide))

/-- A zero between two pads stops the scan. -/
theorem mime_decode_stops_at_zero :
    Illegal 0 ∧ mimeDecode [81, 81, 61, 61] = some [65] ∧
    mimeDecode [81, 81, 61, 0, 61] = none := by
  refine ⟨.inr rfl, ?_, ?_⟩
  · decide +kernel
  · decide +kernel

end Otp.Base64
