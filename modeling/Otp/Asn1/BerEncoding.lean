import Otp.Asn1.Ber

/-! The encodings of X.690 and what the decoder returns on them. -/

namespace Otp.Asn1

open List hiding length
open Option (bind_eq_bind bind_some)
open Otp.Library (ofBytes toBytes ofBytes_toBytes length_toBytes)

/-- How a length is written: in one octet, or in `width` octets after the first. -/
inductive LengthForm where
  | short
  | long (width : Nat)
deriving DecidableEq, Repr

def LengthForm.octets : LengthForm → Nat → List UInt8
  | .short, length => [UInt8.ofNat length]
  | .long width, length => UInt8.ofNat (128 + width) :: toBytes width length

/-- The first octet 255 is reserved. -/
def LengthForm.Fits : LengthForm → Nat → Prop
  | .short, length => length < 128
  | .long width, length => 1 ≤ width ∧ width ≤ 126 ∧ length < 256 ^ width

/-- The octets of a tag number before the last one. -/
def continued (number : Nat) : List UInt8 :=
  if number = 0 then [] else continued (number / 128) ++ [UInt8.ofNat (128 + number % 128)]
termination_by number

/-- Identifier octets; `form` is 1 for a constructed value. -/
def identifier (cls : Fin 4) (form number : Nat) : List UInt8 :=
  if number < 31 then [UInt8.ofNat (cls * 64 + form * 32 + number)]
  else UInt8.ofNat (cls * 64 + form * 32 + 31) ::
    (continued (number / 128) ++ [UInt8.ofNat (number % 128)])

/-- A tree of values, each with its tag and with the length it is written with. -/
inductive Encoding where
  | primitive (cls : Fin 4) (number : Nat) (form : LengthForm) (value : List UInt8)
  | definite (cls : Fin 4) (number : Nat) (form : LengthForm) (values : List Encoding)
  | indefinite (cls : Fin 4) (number : Nat) (values : List Encoding)

namespace Encoding

mutual

def octets : Encoding → List UInt8
  | .primitive cls number form value => identifier cls 0 number ++ form.octets value.length ++ value
  | .definite cls number form values =>
    identifier cls 1 number ++ form.octets (contents values).length ++ contents values
  | .indefinite cls number values => identifier cls 1 number ++ 128 :: contents values ++ [0, 0]

def contents : List Encoding → List UInt8
  | [] => []
  | value :: values => octets value ++ contents values

end

/-- Identifier octets. -/
def ident : Encoding → List UInt8
  | .primitive cls number _ _ => identifier cls 0 number
  | .definite cls number _ _ => identifier cls 1 number
  | .indefinite cls number _ => identifier cls 1 number

/-- Length and value. -/
def body : Encoding → List UInt8
  | .primitive _ _ form value => form.octets value.length ++ value
  | .definite _ _ form values => form.octets (contents values).length ++ contents values
  | .indefinite _ _ values => 128 :: (contents values ++ [0, 0])

/-- Class and number. -/
def tag : Encoding → Fin 4 × Nat
  | .primitive cls number _ _ => (cls, number)
  | .definite cls number _ _ => (cls, number)
  | .indefinite cls number _ => (cls, number)

mutual

/-- Lengths fit, and no value inside one of indefinite length has the tag of the end marker. -/
def WellFormed : Encoding → Prop
  | .primitive _ _ form value => form.Fits value.length
  | .definite _ _ form values => form.Fits (contents values).length ∧ AllWellFormed values
  | .indefinite _ _ values => (∀ value ∈ values, value.tag ≠ (0, 0)) ∧ AllWellFormed values

def AllWellFormed : List Encoding → Prop
  | [] => True
  | value :: values => WellFormed value ∧ AllWellFormed values

end

mutual

/-- The values of indefinite length have tag numbers of at most one octet beside the first. -/
def LowIndefinite : Encoding → Prop
  | .primitive _ _ _ _ => True
  | .definite _ _ _ values => AllLowIndefinite values
  | .indefinite _ number values => number < 128 ∧ AllLowIndefinite values

def AllLowIndefinite : List Encoding → Prop
  | [] => True
  | value :: values => LowIndefinite value ∧ AllLowIndefinite values

end

end Encoding

/-- The tag value that the decoder returns. -/
def tagValue (tag : Fin 4 × Nat) : Nat := (tag.1.val <<< 16) ||| tag.2

namespace Encoding

mutual

/-- The tree without the lengths. -/
def tlv : Encoding → Tlv
  | .primitive cls number _ value => .primitive (tagValue (cls, number)) value
  | .definite cls number _ values => .constructed (tagValue (cls, number)) (tlvs values)
  | .indefinite cls number values => .constructed (tagValue (cls, number)) (tlvs values)

def tlvs : List Encoding → List Tlv
  | [] => []
  | value :: values => tlv value :: tlvs values

end

end Encoding

theorem binary_append (v rest : List UInt8) : binary v.length (v ++ rest) = some (v, rest) := by
  simp [binary]

theorem binary_toBytes (width n : Nat) (rest : List UInt8) :
    binary width (toBytes width n ++ rest) = some (toBytes width n, rest) := by
  simpa using binary_append (toBytes width n) rest

theorem shift_or (number : Nat) : (number / 128) <<< 7 ||| number % 128 = number := by
  rw [← Nat.shiftLeft_add_eq_or_of_lt (Nat.mod_lt number (by decide : 0 < 2 ^ 7))]
  omega

theorem decodeTag_continued :
    decodeTag (continued number ++ buffer) 0 = decodeTag buffer number := by
  induction number using Nat.strongRecOn generalizing buffer with
  | ind number ih =>
    rw [continued]
    split
    case isTrue zero => rw [zero]; rfl
    case isFalse positive =>
      have octet := UInt8.toNat_ofNat_of_lt' (show 128 + number % 128 < 256 by omega)
      rw [append_assoc, singleton_append, ih (number / 128) (by omega), decodeTag, octet,
        if_neg (by omega), Nat.add_mod_left, Nat.mod_mod, shift_or]

theorem decodeTag_number :
    decodeTag (continued (number / 128) ++ UInt8.ofNat (number % 128) :: buffer) 0 =
      some (number, buffer) := by
  have octet := UInt8.toNat_ofNat_of_lt' (show number % 128 < 256 by omega)
  rw [decodeTag_continued, decodeTag, octet, if_pos (Nat.mod_lt _ (by decide)), shift_or]

theorem lengthAndValue_octets (fits : form.Fits v.length) (cls bit tagNo : Nat)
    (rest : List UInt8) :
    lengthAndValue cls bit tagNo (LengthForm.octets form v.length ++ (v ++ rest)) =
      some (if bit = 1 then .constructed else .primitive, (cls <<< 16) ||| tagNo, v, rest) := by
  cases form with
  | short =>
    have small : v.length < 128 := fits
    have octet := UInt8.toNat_ofNat_of_lt' (show v.length < 256 by omega)
    rw [LengthForm.octets, singleton_append, lengthAndValue, octet, if_pos small, binary_append]
    rfl
  | long width =>
    obtain ⟨positive, small, below⟩ := fits
    have octet := UInt8.toNat_ofNat_of_lt' (show 128 + width < 256 by omega)
    have field := binary_toBytes width v.length (v ++ rest)
    rw [LengthForm.octets, cons_append, lengthAndValue, octet, if_neg (by omega), if_neg (by omega),
      Nat.add_sub_cancel_left, field]
    simp only [bind_eq_bind, bind_some]
    rw [ofBytes_toBytes, Nat.mod_eq_of_lt below, binary_append]
    rfl

theorem decodeLength_octets (fits : form.Fits length) :
    decodeLength (LengthForm.octets form length ++ rest) = some (some length, rest) := by
  cases form with
  | short =>
    have small : length < 128 := fits
    have octet := UInt8.toNat_ofNat_of_lt' (show length < 256 by omega)
    rw [LengthForm.octets, singleton_append, decodeLength, octet, if_neg (by omega), if_pos small]
  | long width =>
    obtain ⟨positive, small, below⟩ := fits
    have octet := UInt8.toNat_ofNat_of_lt' (show 128 + width < 256 by omega)
    have field := binary_toBytes width length rest
    rw [LengthForm.octets, cons_append, decodeLength, octet, if_neg (by omega), if_neg (by omega),
      Nat.add_sub_cancel_left, field]
    simp only [bind_eq_bind, bind_some]
    rw [ofBytes_toBytes, Nat.mod_eq_of_lt below]
    rfl

/-- The fields of the first octet. -/
theorem firstOctet (cls : Fin 4) (bit number : Nat) (flag : bit ≤ 1) (small : number < 32) :
    (UInt8.ofNat (cls * 64 + bit * 32 + number)).toNat / 64 = cls ∧
    (UInt8.ofNat (cls * 64 + bit * 32 + number)).toNat / 32 % 2 = bit ∧
    (UInt8.ofNat (cls * 64 + bit * 32 + number)).toNat % 32 = number := by
  rw [UInt8.toNat_ofNat']
  omega

theorem continued_high (number : Nat) : ∀ octet ∈ continued number, ¬ octet.toNat < 128 := by
  induction number using Nat.strongRecOn with
  | ind number ih =>
    rw [continued]
    split
    case isTrue => exact forall_mem_nil _
    case isFalse positive =>
      rw [forall_mem_append, forall_mem_singleton,
        UInt8.toNat_ofNat_of_lt' (show 128 + number % 128 < 256 by omega)]
      exact ⟨ih (number / 128) (by omega), by omega⟩

/-- A number of 128 or more goes on after its first octet. -/
theorem continued_cons (positive : 0 < number) :
    ∃ octet more, continued number = octet :: more ∧ ¬ octet.toNat < 128 := by
  have high := continued_high number
  cases shape : continued number with
  | nil =>
    rw [continued, if_neg (by omega)] at shape
    simp at shape
  | cons octet more =>
    rw [shape] at high
    exact ⟨octet, more, rfl, high octet mem_cons_self⟩

theorem identifier_low (low : number < 31) (cls : Fin 4) (flag : bit ≤ 1) (buffer : List UInt8) :
    decodeTagAndLength (identifier cls bit number ++ buffer) =
      lengthAndValue cls bit number buffer := by
  obtain ⟨clsField, formField, tagField⟩ := firstOctet cls bit number flag (by omega)
  rw [identifier, if_pos low, singleton_append, decodeTagAndLength.eq_def]
  simp only [clsField, formField, tagField, if_pos low]

theorem identifier_middle (high : ¬ number < 31) (low : number < 128) {cls : Fin 4} (flag : bit ≤ 1)
    (found : lengthAndValue cls bit number buffer = some result) :
    decodeTagAndLength (identifier cls bit number ++ buffer) = some result := by
  obtain ⟨clsField, formField, tagField⟩ := firstOctet cls bit 31 flag (by omega)
  have octet := UInt8.toNat_ofNat_of_lt' (show number < 256 by omega)
  have single : continued (number / 128) ++ [UInt8.ofNat (number % 128)] =
    [UInt8.ofNat number] := by
    rw [Nat.div_eq_of_lt low, Nat.mod_eq_of_lt low, continued]
    rfl
  rw [identifier, if_neg high, single, cons_append, decodeTagAndLength.eq_def]
  simp only [clsField, formField, tagField, singleton_append, octet, if_pos low, found]
  rfl

theorem identifier_high (high : ¬ number < 128) (cls : Fin 4) (flag : bit ≤ 1)
    (buffer : List UInt8) :
    decodeTagAndLength (identifier cls bit number ++ buffer) =
      longTag cls bit (continued (number / 128) ++ UInt8.ofNat (number % 128) :: buffer) := by
  obtain ⟨clsField, formField, tagField⟩ := firstOctet cls bit 31 flag (by omega)
  obtain ⟨octet, more, shape, large⟩ := continued_cons (show 0 < number / 128 by omega)
  rw [identifier, if_neg (by omega), cons_append, append_assoc, decodeTagAndLength.eq_def]
  simp only [clsField, formField, tagField]
  rw [shape]
  simp only [cons_append, if_neg large]
  rfl

theorem decodeTagAndLength_definite (fits : form.Fits v.length) (cls : Fin 4) (number bit : Nat)
    (flag : bit ≤ 1) (rest : List UInt8) :
    decodeTagAndLength (identifier cls bit number ++
      (LengthForm.octets form v.length ++ (v ++ rest))) =
      some (if bit = 1 then .constructed else .primitive, tagValue (cls, number), v, rest) := by
  have found := lengthAndValue_octets fits cls bit number rest
  by_cases low : number < 31
  · rw [identifier_low low cls flag, found]
    rfl
  by_cases middle : number < 128
  · rw [identifier_middle low middle flag found]
    rfl
  · rw [identifier_high middle cls flag, longTag, decodeTag_number]
    simp only [bind_eq_bind, bind_some]
    rw [decodeLength_octets fits]
    simp only [bind_some]
    rw [binary_append]
    rfl

theorem decodeTagAndLength_indefinite (low : number < 128) (cls : Fin 4) (t : List UInt8) :
    decodeTagAndLength (identifier cls 1 number ++ 128 :: t) =
      some (.indefinite, tagValue (cls, number), t, []) := by
  have found : lengthAndValue cls 1 number (128 :: t) = some (.indefinite, tagValue (cls, number),
    t, []) := rfl
  by_cases short : number < 31
  · rw [identifier_low short cls (by decide), found]
  · exact identifier_middle short low (by decide) found

namespace Encoding

theorem identifier_length (cls : Fin 4) (bit number : Nat) :
    1 ≤ (identifier cls bit number).length := by
  unfold identifier
  split <;> simp

theorem octets_length (form : LengthForm) (length : Nat) : 1 ≤ (form.octets length).length := by
  cases form <;> simp [LengthForm.octets]

theorem identifier_first (cls : Fin 4) (bit number : Nat) (flag : bit ≤ 1)
    (other : bit = 1 ∨ (cls, number) ≠ (0, 0)) :
    ∃ first more, identifier cls bit number = first :: more ∧ first ≠ 0 := by
  have some : ∀ low, low < 32 → bit = 1 ∨ cls ≠ 0 ∨ low ≠ 0 →
    UInt8.ofNat (cls * 64 + bit * 32 + low) ≠ 0 := by
    intro low small which same
    obtain ⟨clsField, formField, tagField⟩ := firstOctet cls bit low flag small
    rw [same] at clsField formField tagField
    rcases which with set | class_ | number
    · simp [set] at formField
    · exact class_ (Fin.ext clsField.symm)
    · exact number tagField.symm
  unfold identifier
  split
  case isTrue low =>
    refine ⟨_, [], rfl, some number (by omega) (other.imp_right fun differ => ?_)⟩
    by_contra both
    simp only [not_or, not_not] at both
    exact differ (Prod.ext both.1 both.2)
  case isFalse => exact ⟨_, _, rfl, some 31 (by decide) (.inr (.inr (by decide)))⟩

section

variable (value : Encoding)

theorem octets_eq : value.octets = value.ident ++ value.body := by
  cases value <;> simp [octets, ident, body]

theorem ident_length : 1 ≤ value.ident.length := by
  cases value <;> exact identifier_length _ _ _

theorem body_length : 1 ≤ value.body.length := by
  cases value with
  | indefinite => exact Nat.le_add_left _ _
  | _ => exact length_append ▸ Nat.le_add_right_of_le (octets_length _ _)

/-- A value does not start as the end marker does. -/
theorem ident_first (open_ : value.tag ≠ (0, 0)) : ∃ first more, value.ident = first :: more ∧
    first ≠ 0 := by
  cases value with
  | primitive cls number => exact identifier_first cls 0 number (by decide) (.inr open_)
  | _ => exact identifier_first _ 1 _ (by decide) (.inl rfl)

theorem octets_not_end (open_ : value.tag ≠ (0, 0)) (rest : List UInt8) :
    ∃ first more, value.octets ++ rest = first :: more ∧ first ≠ 0 := by
  obtain ⟨first, more, shape, some⟩ := ident_first value open_
  exact ⟨first, _, by rw [octets_eq, shape]; rfl, some⟩

theorem two_le_octets : 2 ≤ value.octets.length := by
  rw [octets_eq, length_append]
  exact Nat.add_le_add value.ident_length value.body_length

end

theorem decodeConstructedIndefinite_cons (some : first ≠ 0) (fuel : Nat) (more : List UInt8)
    (acc : List Tlv) :
    decodeConstructedIndefinite (fuel + 1) (first :: more) acc = (do
      let (tlv, rest) ← decodePrimitive fuel (first :: more)
      decodeConstructedIndefinite fuel rest (tlv :: acc)) := by
  rw [decodeConstructedIndefinite.eq_def]
  dsimp only
  split
  case h_1 same =>
    cases same
    exact absurd rfl some
  case h_2 => rfl

mutual

theorem decodePrimitive_octets (value : Encoding) (wellFormed : value.WellFormed)
    (low : value.LowIndefinite) (rest : List UInt8) (fuel : Nat)
    (enough : value.octets.length ≤ fuel) :
    decodePrimitive fuel (value.octets ++ rest) = some (value.tlv, rest) := by
  have size := two_le_octets value
  obtain ⟨fuel, rfl⟩ := Nat.exists_eq_add_of_le' (show 1 ≤ fuel by omega)
  match value with
  | .primitive cls number form v =>
    have found := decodeTagAndLength_definite wellFormed cls number 0 (by decide) rest
    rw [octets, append_assoc, append_assoc, decodePrimitive, found]
    rfl
  | .definite cls number form values =>
    have first := identifier_length cls 1 number
    have second := octets_length form (contents values).length
    simp only [octets, length_append] at enough
    have found := decodeTagAndLength_definite wellFormed.1 cls number 1 (by decide) rest
    rw [octets, append_assoc, append_assoc, decodePrimitive, found]
    have inside := decodeConstructed_contents values wellFormed.2 low fuel (by omega)
    simp only [if_true, bind_eq_bind, bind_some, inside, tlv]
    rfl
  | .indefinite cls number values =>
    have first := identifier_length cls 1 number
    simp only [octets, length_append, length_cons] at enough
    have found := decodeTagAndLength_indefinite low.1 cls (contents values ++ 0 :: 0 :: rest)
    have shape : octets (.indefinite cls number values) ++ rest =
        identifier cls 1 number ++ 128 :: (contents values ++ 0 :: 0 :: rest) := by simp [octets]
    have inside :=
      decodeConstructedIndefinite_contents values wellFormed.2 low.2 wellFormed.1 rest [] fuel
      (by omega)
    rw [shape, decodePrimitive, found]
    simp only [bind_eq_bind, bind_some, inside, tlv]
    rfl

theorem decodeConstructed_contents (values : List Encoding) (wellFormed : AllWellFormed values)
    (low : AllLowIndefinite values) (fuel : Nat) (enough : (contents values).length < fuel) :
    decodeConstructed fuel (contents values) = some (tlvs values) := by
  obtain ⟨fuel, rfl⟩ := Nat.exists_eq_add_of_le' (show 1 ≤ fuel by omega)
  match values with
  | [] => rw [contents, decodeConstructed, tlvs]
  | value :: values =>
    have size := two_le_octets value
    rw [contents, length_append] at enough
    have here := decodePrimitive_octets value wellFormed.1 low.1 (contents values) fuel (by omega)
    have others := decodeConstructed_contents values wellFormed.2 low.2 fuel (by omega)
    rw [contents, decodeConstructed, here]
    · simp only [bind_eq_bind, bind_some, others, tlvs]
      rfl
    · intro empty
      rw [append_eq_nil_iff] at empty
      simp [empty.1] at size

theorem decodeConstructedIndefinite_contents (values : List Encoding)
    (wellFormed : AllWellFormed values) (low : AllLowIndefinite values)
    (open_ : ∀ value ∈ values, value.tag ≠ (0, 0)) (rest : List UInt8) (acc : List Tlv) (fuel : Nat)
    (enough : (contents values).length < fuel) :
    decodeConstructedIndefinite fuel (contents values ++ 0 :: 0 :: rest) acc =
      some (acc.reverse ++ tlvs values, rest) := by
  obtain ⟨fuel, rfl⟩ := Nat.exists_eq_add_of_le' (show 1 ≤ fuel by omega)
  match values with
  | [] => rw [contents, nil_append, decodeConstructedIndefinite, tlvs, append_nil]
  | value :: values =>
    have size := two_le_octets value
    obtain ⟨mine, theirs⟩ := forall_mem_cons.mp open_
    rw [contents, length_append] at enough
    have here :=
      decodePrimitive_octets value wellFormed.1 low.1 (contents values ++ 0 :: 0 :: rest) fuel
        (by omega)
    have others :=
      decodeConstructedIndefinite_contents values wellFormed.2 low.2 theirs rest
        (value.tlv :: acc) fuel
      (by omega)
    obtain ⟨first, more, shape, some⟩ :=
      octets_not_end value mine (contents values ++ 0 :: 0 :: rest)
    rw [contents, append_assoc, shape, decodeConstructedIndefinite_cons some, ← shape, here]
    simp only [bind_eq_bind, bind_some, others, tlvs]
    simp

end

end Encoding

theorem berDecodeErlang_append (value : Encoding) (wellFormed : value.WellFormed)
    (low : value.LowIndefinite) (rest : List UInt8) :
    berDecodeErlang (value.octets ++ rest) = some (value.tlv, rest) :=
  value.decodePrimitive_octets wellFormed low rest _ (by rw [length_append]; omega)

theorem tagValue_injective (firstSmall : first.2 < 2 ^ 16) (secondSmall : second.2 < 2 ^ 16)
    (same : tagValue first = tagValue second) : first = second := by
  rw [tagValue, tagValue, ← Nat.shiftLeft_add_eq_or_of_lt firstSmall,
    ← Nat.shiftLeft_add_eq_or_of_lt secondSmall] at same
  exact Prod.ext (Fin.ext (by omega)) (by omega)

/-- An encoding is decoded to its tree, and what stands behind it is left. Below 65536, tags are
told apart. -/
theorem berDecodeErlang_octets (value : Encoding) (wellFormed : value.WellFormed)
    (low : value.LowIndefinite) (rest : List UInt8) :
    berDecodeErlang (value.octets ++ rest) = some (value.tlv, rest) ∧
      ∀ first second : Fin 4 × Nat, first.2 < 2 ^ 16 → second.2 < 2 ^ 16 → first ≠ second →
        tagValue first ≠ tagValue second := by
  refine ⟨berDecodeErlang_append value wellFormed low rest, ?_⟩
  exact fun first second firstSmall secondSmall differ same =>
    differ (tagValue_injective firstSmall secondSmall same)

/-- A sequence of indefinite length inside a context tag of number 127, and a long length. -/
theorem berDecodeErlang_octets_nested :
    berDecodeErlang ((Encoding.indefinite 2 127
      [.definite 0 16 (.long 2) [.primitive 0 2 .short [5]]]).octets ++ [7]) =
      some (.constructed (tagValue (2, 127)) [.constructed 16 [.primitive 2 [5]]], [7]) :=
  (berDecodeErlang_octets (.indefinite 2 127 [.definite 0 16 (.long 2) [.primitive 0 2 .short [5]]])
    (by simp [Encoding.WellFormed, Encoding.AllWellFormed, Encoding.tag, LengthForm.Fits, Encoding.contents,
      Encoding.octets, identifier, LengthForm.octets])
    (by simp [Encoding.LowIndefinite, Encoding.AllLowIndefinite]) [7]).1

/-- Number 65536 of the universal class and number 0 of the application class have one tag value. -/
theorem tag_values_collide :
    (Encoding.primitive 0 65536 .short []).WellFormed ∧
    (Encoding.primitive 1 0 .short []).WellFormed ∧
    (Encoding.primitive 0 65536 .short []).tag ≠ (Encoding.primitive 1 0 .short []).tag ∧
    berDecodeErlang (Encoding.primitive 0 65536 .short []).octets = some (.primitive 65536 [], []) ∧
    berDecodeErlang (Encoding.primitive 1 0 .short []).octets = some (.primitive 65536 [], []) := by
  have short : LengthForm.short.Fits 0 := by simp [LengthForm.Fits]
  have decoded :=
    fun (cls : Fin 4) (number : Nat) =>
    Encoding.decodePrimitive_octets (.primitive cls number .short [])
    short trivial [] _ (Nat.le_succ _)
  simp only [append_nil] at decoded
  exact ⟨short, short, by decide, decoded 0 65536, decoded 1 0⟩

end Otp.Asn1
