import Otp.Library.BigEndian

/-! The BER decoder of `asn1rtt_ber.erl`. A clause that no input matches, and a match that fails,
are `none`. -/

namespace Otp.Asn1

open Otp.Library (ofBytes)
open Option (bind_eq_some_iff)

/-- `{Tag, Value}`, where the value is a binary or the list of the values inside. -/
inductive Tlv where
  | primitive (tagNo : Nat) (value : List UInt8)
  | constructed (tagNo : Nat) (values : List Tlv)

/-- `<<V:Length/binary, Rest/binary>>` -/
def binary (length : Nat) (bin : List UInt8) : Option (List UInt8 × List UInt8) :=
  if length ≤ bin.length then some (bin.take length, bin.drop length) else none

/-- Whether the value is `constructed` or not, or of indefinite length. -/
inductive Form where
  | primitive
  | constructed
  | indefinite
deriving DecidableEq, Repr

def decodeLength : List UInt8 → Option (Option Nat × List UInt8)
  | [] => none
  | first :: t =>
    if first.toNat = 128 then some (none, t)
    else if first.toNat < 128 then some (some first.toNat, t)
    else do
      let (length, t) ← binary (first.toNat - 128) t
      return (some (ofBytes length), t)

def decodeTag : List UInt8 → Nat → Option (Nat × List UInt8)
  | [], _ => none
  | partialTag :: buffer, tagAck =>
    if partialTag.toNat < 128 then some ((tagAck <<< 7) ||| partialTag.toNat, buffer)
    else decodeTag buffer ((tagAck <<< 7) ||| (partialTag.toNat % 128))

/-- The three clauses for a tag of one byte, and the three for a tag of two, from the length on. -/
def lengthAndValue (cls form tagNo : Nat) :
    List UInt8 → Option (Form × Nat × List UInt8 × List UInt8)
  | [] => none
  | first :: t =>
    if first.toNat < 128 then do
      let (v, restBuffer) ← binary first.toNat t
      return (if form = 1 then .constructed else .primitive, (cls <<< 16) ||| tagNo, v, restBuffer)
    else if form = 1 ∧ first.toNat = 128 then some (.indefinite, (cls <<< 16) ||| tagNo, t, [])
    else do
      let (length, t) ← binary (first.toNat - 128) t
      let (v, t) ← binary (ofBytes length) t
      return (if form = 1 then .constructed else .primitive, (cls <<< 16) ||| tagNo, v, t)

/-- The clause for tags of any length. -/
def longTag (cls form : Nat) (buffer : List UInt8) :
    Option (Form × Nat × List UInt8 × List UInt8) := do
  let (tagNo, buffer1) ← decodeTag buffer 0
  let (length, restBuffer) ← decodeLength buffer1
  match length with
  | some length =>
    let (v, restBuffer2) ← binary length restBuffer
    return (if form = 1 then .constructed else .primitive, (cls <<< 16) ||| tagNo, v, restBuffer2)
  | none => none

/-- The clause with `TagPartLast` matches nothing: it takes 25 bits off before the last binary. -/
def decodeTagAndLength : List UInt8 → Option (Form × Nat × List UInt8 × List UInt8)
  | [] => none
  | first :: buffer =>
    let cls := first.toNat / 64
    let form := first.toNat / 32 % 2
    let tagNo := first.toNat % 32
    if tagNo < 31 then lengthAndValue cls form tagNo buffer
    else
      let oneByte :=
        match buffer with
        | tag :: bin => if tag.toNat < 128 then lengthAndValue cls form tag.toNat bin else none
        | [] => none
      oneByte.or (longTag cls form buffer)

mutual

/-- `fuel` is more than the calls inside one another. -/
def decodePrimitive : Nat → List UInt8 → Option (Tlv × List UInt8)
  | 0, _ => none
  | fuel + 1, bin => do
    let (form, tagNo, v, rest) ← decodeTagAndLength bin
    match form with
    | .constructed => return (.constructed tagNo (← decodeConstructed fuel v), rest)
    | .primitive => return (.primitive tagNo v, rest)
    | .indefinite =>
      let (vlist, rest2) ← decodeConstructedIndefinite fuel v []
      return (.constructed tagNo vlist, rest2)

def decodeConstructed : Nat → List UInt8 → Option (List Tlv)
  | 0, _ => none
  | _ + 1, [] => some []
  | fuel + 1, bin => do
    let (tlv, rest) ← decodePrimitive fuel bin
    return tlv :: (← decodeConstructed fuel rest)

def decodeConstructedIndefinite : Nat → List UInt8 → List Tlv → Option (List Tlv × List UInt8)
  | 0, _, _ => none
  | fuel + 1, bin, acc =>
    match bin with
    | 0 :: 0 :: rest => some (acc.reverse, rest)
    | bin => do
      let (tlv, rest) ← decodePrimitive fuel bin
      decodeConstructedIndefinite fuel rest (tlv :: acc)

end

def berDecodeErlang (bin : List UInt8) : Option (Tlv × List UInt8) :=
  decodePrimitive (bin.length + 1) bin

theorem binary_length (split : binary length bin = some (v, rest)) :
    v.length + rest.length = bin.length := by
  unfold binary at split
  split at split
  · cases split
    simp only [List.length_take, List.length_drop]
    omega
  · cases split

theorem decodeLength_length (found : decodeLength bin = some (length, rest)) :
    rest.length < bin.length := by
  cases bin with
  | nil => cases found
  | cons first t =>
    rw [decodeLength] at found
    split at found
    · cases found
      exact Nat.lt_succ_self _
    split at found
    · cases found
      exact Nat.lt_succ_self _
    · obtain ⟨⟨field, t'⟩, split, found⟩ := bind_eq_some_iff.mp found
      cases found
      have size := binary_length split
      rw [List.length_cons]
      omega

theorem decodeTag_length (found : decodeTag bin tagAck = some (tagNo, rest)) :
    rest.length < bin.length := by
  induction bin generalizing tagAck with
  | nil => cases found
  | cons partialTag buffer ih =>
    rw [decodeTag] at found
    split at found
    · cases found
      exact Nat.lt_succ_self _
    · exact Nat.lt_succ_of_lt (ih found)

theorem lengthAndValue_length
    (found : lengthAndValue cls bit number bin = some (form, tagNo, v, rest)) :
    v.length + rest.length < bin.length := by
  cases bin with
  | nil => cases found
  | cons first t =>
    rw [lengthAndValue] at found
    split at found
    · obtain ⟨⟨v', rest'⟩, split, found⟩ := bind_eq_some_iff.mp found
      cases found
      exact Nat.lt_succ_of_le (Nat.le_of_eq (binary_length split))
    split at found
    · cases found
      exact Nat.lt_succ_self _
    · obtain ⟨⟨field, t'⟩, lengthField, found⟩ := bind_eq_some_iff.mp found
      obtain ⟨⟨v', rest'⟩, valueField, found⟩ := bind_eq_some_iff.mp found
      cases found
      have first := binary_length lengthField
      have second := binary_length valueField
      rw [List.length_cons]
      omega

theorem longTag_length (found : longTag cls bit bin = some (form, tagNo, v, rest)) :
    v.length + rest.length + 1 < bin.length := by
  obtain ⟨⟨tag, buffer1⟩, tagField, found⟩ := bind_eq_some_iff.mp found
  obtain ⟨⟨length, restBuffer⟩, lengthField, found⟩ := bind_eq_some_iff.mp found
  cases length with
  | none => cases found
  | some length =>
    obtain ⟨⟨v', rest'⟩, valueField, found⟩ := bind_eq_some_iff.mp found
    cases found
    have first := decodeTag_length tagField
    have second := decodeLength_length lengthField
    have third := binary_length valueField
    omega

/-- Tag and length take two bytes at least. -/
theorem decodeTagAndLength_length (found : decodeTagAndLength bin = some (form, tagNo, v, rest)) :
    v.length + rest.length + 1 < bin.length := by
  cases bin with
  | nil => cases found
  | cons first buffer =>
    rw [decodeTagAndLength.eq_def] at found
    dsimp only at found
    split at found
    · exact Nat.succ_lt_succ (lengthAndValue_length found)
    · rcases Option.or_eq_some_iff.mp found with found | ⟨-, found⟩
      · split at found
        · split at found
          · exact Nat.succ_lt_succ (Nat.lt_succ_of_lt (lengthAndValue_length found))
          · cases found
        · cases found
      · exact Nat.lt_succ_of_lt (longTag_length found)

/-- What is left is shorter. -/
theorem decode_shorter (fuel : Nat) :
    (∀ bin tlv rest, decodePrimitive fuel bin = some (tlv, rest) → rest.length < bin.length) ∧
    ∀ bin acc values rest, decodeConstructedIndefinite fuel bin acc = some (values, rest) →
      rest.length < bin.length := by
  induction fuel with
  | zero =>
    refine ⟨?_, ?_⟩
    · intro bin tlv rest found
      cases found
    · intro bin acc values rest found
      cases found
  | succ fuel ih =>
    refine ⟨?_, ?_⟩
    · intro bin tlv rest found
      obtain ⟨⟨form, tagNo, v, left⟩, header, found⟩ := bind_eq_some_iff.mp found
      have size := decodeTagAndLength_length header
      cases form with
      | primitive =>
        cases found
        omega
      | constructed =>
        obtain ⟨values, -, found⟩ := bind_eq_some_iff.mp found
        cases found
        omega
      | indefinite =>
        obtain ⟨⟨values, rest2⟩, inside, found⟩ := bind_eq_some_iff.mp found
        cases found
        have shorter := ih.2 _ _ _ _ inside
        omega
    · intro bin acc values rest found
      rw [decodeConstructedIndefinite.eq_def] at found
      dsimp only at found
      split at found
      · cases found
        exact Nat.lt_succ_of_lt (Nat.lt_succ_self _)
      · obtain ⟨⟨tlv, left⟩, here, others⟩ := bind_eq_some_iff.mp found
        exact Nat.lt_trans (ih.2 _ _ _ _ others) (ih.1 _ _ _ here)

/-- With fuel for the length of the input, more of it changes nothing. -/
theorem decode_fuel (fuel : Nat) :
    (∀ bin, bin.length ≤ fuel → decodePrimitive (fuel + 1) bin = decodePrimitive fuel bin) ∧
    (∀ bin, bin.length < fuel → decodeConstructed (fuel + 1) bin = decodeConstructed fuel bin) ∧
    ∀ bin acc, bin.length < fuel →
      decodeConstructedIndefinite (fuel + 1) bin acc =
        decodeConstructedIndefinite fuel bin acc := by
  induction fuel with
  | zero =>
    refine ⟨?_, fun _ below => absurd below (Nat.not_lt_zero _),
      fun _ _ below => absurd below (Nat.not_lt_zero _)⟩
    intro bin empty
    cases bin with
    | nil => rfl
    | cons first bin => cases empty
  | succ fuel ih =>
    obtain ⟨primitive, constructed, indefinite⟩ := ih
    refine ⟨?_, ?_, ?_⟩
    · intro bin below
      rw [decodePrimitive, decodePrimitive]
      cases header : decodeTagAndLength bin with
      | none => rfl
      | some found =>
        obtain ⟨form, tagNo, v, rest⟩ := found
        have size := decodeTagAndLength_length header
        simp only [Option.bind_eq_bind, Option.bind_some]
        rw [constructed v (by omega), indefinite v [] (by omega)]
    · intro bin below
      cases bin with
      | nil => rw [decodeConstructed, decodeConstructed]
      | cons first bin =>
        have some : first :: bin = [] → False := by simp
        rw [decodeConstructed.eq_3 _ _ some, decodeConstructed.eq_3 _ _ some,
          primitive _ (Nat.le_of_lt_succ below)]
        cases here : decodePrimitive fuel (first :: bin) with
        | none => rfl
        | some found =>
          have shorter := (decode_shorter fuel).1 _ _ _ here
          simp only [Option.bind_eq_bind, Option.bind_some]
          rw [constructed found.2 (by omega)]
    · intro bin acc below
      rw [decodeConstructedIndefinite.eq_def, decodeConstructedIndefinite.eq_def (fuel + 1)]
      dsimp only
      split
      · rfl
      · rw [primitive _ (Nat.le_of_lt_succ below)]
        cases here : decodePrimitive fuel bin with
        | none => rfl
        | some found =>
          have shorter := (decode_shorter fuel).1 _ _ _ here
          exact indefinite _ _ (by omega)

/-- The decoder does not depend on how much fuel there is. -/
theorem berDecodeErlang_fuel (bin : List UInt8) (enough : bin.length ≤ fuel) :
    decodePrimitive fuel bin = berDecodeErlang bin := by
  have same : ∀ more, decodePrimitive (bin.length + more) bin = decodePrimitive bin.length bin := by
    intro more
    induction more with
    | zero => rfl
    | succ more ih => rw [← Nat.add_assoc, (decode_fuel (bin.length + more)).1 bin (by omega), ih]
  obtain ⟨more, rfl⟩ := Nat.exists_eq_add_of_le enough
  rw [same more, berDecodeErlang, same 1]

end Otp.Asn1
