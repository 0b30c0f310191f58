import Otp.Asn1.BerEncoding

/-! Selective decoding in `asn1rtt_ber.erl`: a pattern of steps leads to one component of an
encoded message. -/

namespace Otp.Asn1

open List hiding length
open Option (bind_eq_bind bind_some)
open Otp.Library (ofBytes toBytes ofBytes_toBytes length_toBytes)

def skipLongTag : List UInt8 → Option (List UInt8)
  | [] => none
  | first :: rest => if first.toNat < 128 then some rest else skipLongTag rest

def skipTag : List UInt8 → Option (List UInt8)
  | [] => none
  | first :: rest => if first.toNat % 32 = 31 then skipLongTag rest else some rest

/-- `none` is `missing`. -/
def skipOptionalTag : List UInt8 → List UInt8 → Option (List UInt8)
  | [], bin => some bin
  | _ :: _, [] => none
  | tag :: restTag, first :: rest => if tag = first then skipOptionalTag restTag rest else none

mutual

/-- `fuel` is more than the calls inside one another. -/
def skipLengthAndValue : Nat → List UInt8 → Option (List UInt8)
  | 0, _ => none
  | fuel + 1, bin => do
    match ← decodeLength bin with
    | (none, restBinary) => skipIndefiniteValue fuel restBinary
    | (some length, restBinary) =>
      let (_, rest) ← binary length restBinary
      return rest

def skipIndefiniteValue : Nat → List UInt8 → Option (List UInt8)
  | 0, _ => none
  | fuel + 1, bin =>
    match bin with
    | 0 :: 0 :: rest => some rest
    | bin => do
      let restBinary ← skipTag bin
      let restBinary2 ← skipLengthAndValue fuel restBinary
      skipIndefiniteValue fuel restBinary2

end

def getLongTag : List UInt8 → List UInt8 → Option (List UInt8 × List UInt8)
  | [], _ => none
  | h :: rest, acc =>
    if h.toNat < 128 then some ((h :: acc).reverse, rest) else getLongTag rest (h :: acc)

def getTag : List UInt8 → Option (List UInt8 × List UInt8)
  | [] => none
  | h :: rest => if h.toNat % 32 = 31 then getLongTag rest [h] else some ([h], rest)

mutual

def getLengthAndValue : Nat → List UInt8 → Option (List UInt8 × List UInt8)
  | 0, _ => none
  | _ + 1, [] => none
  | fuel + 1, len :: t =>
    if len.toNat < 128 then do
      let (val, rest) ← binary len.toNat t
      return (len :: val, rest)
    else if len.toNat = 128 then getIndefiniteLengthAndValue fuel t [[len]]
    else do
      let (length, rest) ← binary (len.toNat - 128) t
      let (value, rest2) ← binary (ofBytes length) rest
      return (len :: (toBytes (len.toNat - 128) (ofBytes length) ++ value), rest2)

def getIndefiniteLengthAndValue :
    Nat → List UInt8 → List (List UInt8) → Option (List UInt8 × List UInt8)
  | 0, _, _ => none
  | fuel + 1, bin, acc =>
    match bin with
    | 0 :: 0 :: rest => some (acc.reverse.flatten, rest)
    | bin => do
      let (tag, restBinary) ← getTag bin
      let (lenVal, restBinary2) ← getLengthAndValue fuel restBinary
      getIndefiniteLengthAndValue fuel restBinary2 (lenVal :: tag :: acc)

end

def getIndefiniteValue : Nat → List UInt8 → List (List UInt8) → Option (List UInt8)
  | 0, _, _ => none
  | fuel + 1, bin, acc =>
    match bin with
    | 0 :: 0 :: _ => some acc.reverse.flatten
    | bin => do
      let (tag, restBinary) ← getTag bin
      let (lenVal, restBinary2) ← getLengthAndValue fuel restBinary
      getIndefiniteValue fuel restBinary2 (lenVal :: tag :: acc)

def getValue (bin : List UInt8) : Option (List UInt8) := do
  match ← decodeLength bin with
  | (none, restBinary) => getIndefiniteValue (restBinary.length + 1) restBinary []
  | (some length, restBinary) =>
    let (value, _) ← binary length restBinary
    return value

def returnValue (tag bin : List UInt8) : Option (List UInt8) := do
  let (tag', restBinary) ← getTag bin
  if tag = tag' then
    let (lenVal, _) ← getLengthAndValue (restBinary.length + 1) restBinary
    return tag ++ lenVal
  else none

/-- `other` is any other term. -/
inductive Step where
  | skip
  | skipOptional (tag : List UInt8)
  | choosen (tag : List UInt8)
  | other
deriving DecidableEq, Repr

inductive Selected where
  | ok (value : List UInt8)
  | badPattern (pattern : List Step)
deriving DecidableEq, Repr

def decodeSelective : List Step → List UInt8 → Option Selected
  | [], bin => some (.ok bin)
  | .skip :: restPattern, bin => do
    let restBinary ← skipTag bin
    let restBinary2 ← skipLengthAndValue (restBinary.length + 1) restBinary
    decodeSelective restPattern restBinary2
  | .skipOptional tag :: restPattern, bin =>
    match skipOptionalTag tag bin with
    | some restBinary => do
      let restBinary2 ← skipLengthAndValue (restBinary.length + 1) restBinary
      decodeSelective restPattern restBinary2
    | none => decodeSelective restPattern bin
  | [.choosen tag], bin => do return .ok (← returnValue tag bin)
  | .choosen tag :: restPattern, bin =>
    match skipOptionalTag tag bin with
    | some restBinary => do
      let value ← getValue restBinary
      decodeSelective restPattern value
    | none => some (.ok [])
  | .other :: restPattern, _ => some (.badPattern (.other :: restPattern))

namespace Encoding

def parts : Encoding → Option (List Encoding)
  | .primitive _ _ _ _ => none
  | .definite _ _ _ values => some values
  | .indefinite _ _ values => some values

/-- The value is of indefinite length. -/
def endMarked : Encoding → Bool
  | .indefinite _ _ _ => true
  | _ => false

mutual

/-- Length and value as `get_length_and_value` returns them, without end markers. -/
def kept : Encoding → List UInt8
  | .indefinite _ _ values => 128 :: keptContents values
  | .primitive cls number form value => (Encoding.primitive cls number form value).body
  | .definite cls number form values => (Encoding.definite cls number form values).body

def keptContents : List Encoding → List UInt8
  | [] => []
  | value :: values => value.ident ++ kept value ++ keptContents values

end

end Encoding

open Encoding (contents keptContents tlvs AllWellFormed AllLowIndefinite)

/-- A pattern selects a component among `values`, which are the contents of a component of
indefinite length if `cut`. Those in `needed` must have a definite length for that: they stand
before an end that is not there. -/
inductive Selects : Bool → List Step → List Encoding → List Encoding → Encoding → Prop where
  | skip (value : Encoding) : Selects cut pattern values needed chosen →
      Selects cut (.skip :: pattern) (value :: values)
        (if cut then value :: needed else needed) chosen
  | present (value : Encoding) : Selects cut pattern values needed chosen →
      Selects cut (.skipOptional value.ident :: pattern) (value :: values)
        (if cut then value :: needed else needed) chosen
  | missing (other : Encoding) (absent : ∀ value ∈ values.head?, value.ident ≠ other.ident) :
      Selects cut pattern values needed chosen →
      Selects cut (.skipOptional other.ident :: pattern) values needed chosen
  | here (value : Encoding)
  (values : List Encoding) : Selects cut [.choosen value.ident] (value :: values) [value] value
  | enter (value : Encoding) (values : List Encoding) (inside : value.parts = some parts) :
      Selects value.endMarked pattern parts needed chosen →
      Selects cut (.choosen value.ident :: pattern) (value :: values)
        (if cut then value :: needed else needed) chosen

theorem longTag_octets (high : ∀ octet ∈ tags, ¬ octet.toNat < 128) (low : last.toNat < 128)
    (buffer acc : List UInt8) :
    skipLongTag (tags ++ last :: buffer) = some buffer ∧
      getLongTag (tags ++ last :: buffer) acc = some (acc.reverse ++ (tags ++ [last]), buffer) := by
  induction tags generalizing acc with
  | nil => simp [skipLongTag, getLongTag, low]
  | cons octet tags ih =>
    obtain ⟨large, others⟩ := forall_mem_cons.mp high
    simpa [skipLongTag, getLongTag, large] using ih others (octet :: acc)

theorem tag_identifier (cls : Fin 4) (number : Nat) (flag : bit ≤ 1) (buffer : List UInt8) :
    skipTag (identifier cls bit number ++ buffer) = some buffer ∧
      getTag (identifier cls bit number ++ buffer) = some (identifier cls bit number, buffer) := by
  rw [identifier]
  split
  case isTrue low =>
    have field := (firstOctet cls bit number flag (by omega)).2.2
    rw [singleton_append, skipTag, getTag, if_neg (by omega), if_neg (by omega)]
    exact ⟨rfl, rfl⟩
  case isFalse =>
    have field := (firstOctet cls bit 31 flag (by decide)).2.2
    have low : (UInt8.ofNat (number % 128)).toNat < 128 := by
      rw [UInt8.toNat_ofNat']
      omega
    rw [cons_append, skipTag, getTag, if_pos field, if_pos field, append_assoc]
    exact longTag_octets (continued_high _) low buffer [_]

theorem tag_ident (value : Encoding) (rest : List UInt8) :
    skipTag (value.ident ++ rest) = some rest ∧
    getTag (value.ident ++ rest) = some (value.ident, rest) := by
  cases value <;> exact tag_identifier _ _ (by decide) rest

theorem skipOptionalTag_iff : skipOptionalTag tag bin = some rest ↔ bin = tag ++ rest := by
  induction tag generalizing bin with
  | nil => simp [skipOptionalTag]
  | cons first tag ih =>
    cases bin with
    | nil => simp [skipOptionalTag]
    | cons other bin =>
      rw [skipOptionalTag]
      split
      case isTrue same => simp [ih, same]
      case isFalse differ => simp [Ne.symm differ]

/-- The octets that selection has at hand for contents; those of a component of indefinite length
have been through `get_indefinite_value`. -/
def level (cut : Bool) (values : List Encoding) : List UInt8 :=
  if cut then keptContents values else contents values

theorem level_cons (cut : Bool) (value : Encoding) (values : List Encoding) :
    level cut (value :: values) =
    value.ident ++ ((if cut then value.kept else value.body) ++ level cut values) := by
  cases cut with
  | false =>
    rw [level, level, if_neg nofun, if_neg nofun, if_neg nofun, contents, Encoding.octets_eq,
      append_assoc]
  | true => rw [level, level, if_pos rfl, if_pos rfl, if_pos rfl, keptContents, append_assoc]

/-- No tag is the start of another. -/
theorem skipOptionalTag_absent (other : Encoding)
    (absent : ∀ value ∈ values.head?, value.ident ≠ other.ident) :
    skipOptionalTag other.ident (level cut values) = none := by
  rw [Option.eq_none_iff_forall_ne_some]
  intro rest found
  have theirs := (tag_ident other rest).2
  rw [← skipOptionalTag_iff.mp found] at theirs
  cases values with
  | nil => cases cut <;> cases theirs
  | cons value values =>
    rw [level_cons, (tag_ident value _).2] at theirs
    exact absent value rfl (congrArg Prod.fst (Option.some.inj theirs))

theorem getLengthAndValue_octets (fits : LengthForm.Fits form v.length) (fuel : Nat)
    (rest : List UInt8) :
    getLengthAndValue (fuel + 1) (form.octets v.length ++ v ++ rest) =
      some (form.octets v.length ++ v, rest) := by
  rw [append_assoc]
  cases form with
  | short =>
    have small : v.length < 128 := fits
    have octet := UInt8.toNat_ofNat_of_lt' (show v.length < 256 by omega)
    rw [LengthForm.octets, singleton_append, getLengthAndValue, octet, if_pos small, binary_append]
    rfl
  | long width =>
    obtain ⟨positive, small, below⟩ := fits
    have octet := UInt8.toNat_ofNat_of_lt' (show 128 + width < 256 by omega)
    rw [LengthForm.octets, cons_append, getLengthAndValue, octet, if_neg (by omega),
      if_neg (by omega), Nat.add_sub_cancel_left, binary_toBytes]
    simp only [bind_eq_bind, bind_some]
    rw [ofBytes_toBytes, Nat.mod_eq_of_lt below, binary_append]
    rfl

theorem skipLongTag_eq (acc : List UInt8) :
    skipLongTag bin = (getLongTag bin acc).map Prod.snd := by
  induction bin generalizing acc with
  | nil => rfl
  | cons first bin ih =>
    rw [skipLongTag, getLongTag]
    split
    · rfl
    · exact ih _

theorem skipTag_eq : skipTag bin = (getTag bin).map Prod.snd := by
  cases bin with
  | nil => rfl
  | cons first bin =>
    rw [skipTag, getTag]
    split
    · exact skipLongTag_eq _
    · rfl

/-- The walkers go the same way. -/
theorem skip_eq (fuel : Nat) :
    (∀ bin, skipLengthAndValue fuel bin = (getLengthAndValue fuel bin).map Prod.snd) ∧
    (∀ bin acc, skipIndefiniteValue fuel bin =
      (getIndefiniteLengthAndValue fuel bin acc).map Prod.snd) ∧
    ∀ bin acc, getIndefiniteValue fuel bin acc =
      (getIndefiniteLengthAndValue fuel bin acc).map Prod.fst := by
  induction fuel with
  | zero => exact ⟨fun _ => rfl, fun _ _ => rfl, fun _ _ => rfl⟩
  | succ fuel ih =>
    obtain ⟨value, indefinite, collected⟩ := ih
    refine ⟨fun bin => ?_, fun bin acc => ?_, fun bin acc => ?_⟩
    · cases bin with
      | nil => rfl
      | cons len t =>
        rw [skipLengthAndValue, getLengthAndValue, decodeLength]
        by_cases short : len.toNat < 128
        · rw [if_neg (by omega), if_pos short, if_pos short]
          cases read : binary len.toNat t <;> simp [read]
        by_cases marked : len.toNat = 128
        · rw [if_pos marked, if_neg short, if_pos marked]
          exact indefinite _ _
        · rw [if_neg marked, if_neg short, if_neg short, if_neg marked]
          cases read : binary (len.toNat - 128) t with
          | none => rfl
          | some field => cases value : binary (ofBytes field.1) field.2 <;> simp [value]
    · rw [skipIndefiniteValue.eq_def, getIndefiniteLengthAndValue.eq_def]
      dsimp only
      split
      · rfl
      · rw [skipTag_eq]
        cases getTag bin with
        | none => rfl
        | some tag =>
          simp only [Option.map_some, bind_eq_bind, bind_some, value]
          cases getLengthAndValue fuel tag.2 with
          | none => rfl
          | some read => exact indefinite _ _
    · rw [getIndefiniteValue.eq_def, getIndefiniteLengthAndValue.eq_def]
      dsimp only
      split
      · rfl
      · cases getTag bin with
        | none => rfl
        | some tag =>
          simp only [bind_eq_bind, bind_some]
          cases getLengthAndValue fuel tag.2 with
          | none => rfl
          | some read => exact collected _ _

theorem getIndefiniteLengthAndValue_ident {value : Encoding} (open_ : value.tag ≠ (0, 0))
    (fuel : Nat) (rest : List UInt8) (acc : List (List UInt8)) :
    getIndefiniteLengthAndValue (fuel + 1) (value.ident ++ rest) acc =
      (getLengthAndValue fuel rest).bind fun read =>
        getIndefiniteLengthAndValue fuel read.2 (read.1 :: value.ident :: acc) := by
  obtain ⟨first, more, shape, some⟩ := value.ident_first open_
  rw [getIndefiniteLengthAndValue.eq_def]
  dsimp only
  split
  case h_1 same =>
    rw [shape, cons_append] at same
    exact absurd (cons.inj same).1 some
  case h_2 =>
    rw [(tag_ident value rest).2]
    rfl

theorem kept_eq {value : Encoding} (definite : value.endMarked = false) :
    value.kept = value.body := by
  cases value with
  | indefinite => cases definite
  | _ => rw [Encoding.kept]

theorem getLengthAndValue_definite {value : Encoding} (definite : value.endMarked = false)
    (wellFormed : value.WellFormed) (fuel : Nat) (rest : List UInt8) :
    getLengthAndValue (fuel + 1) (value.body ++ rest) = some (value.body, rest) := by
  cases value with
  | primitive => exact getLengthAndValue_octets wellFormed fuel rest
  | definite => exact getLengthAndValue_octets wellFormed.1 fuel rest
  | indefinite => cases definite

mutual

/-- A value is consumed, of definite length or not. -/
theorem getLengthAndValue_body (value : Encoding) (wellFormed : value.WellFormed)
    (rest : List UInt8) (fuel : Nat) (enough : value.body.length ≤ fuel) :
    getLengthAndValue fuel (value.body ++ rest) = some (value.kept, rest) := by
  have size := value.body_length
  obtain ⟨fuel, rfl⟩ := Nat.exists_eq_add_of_le' (show 1 ≤ fuel by omega)
  match value with
  | .primitive _ _ _ _ => rw [getLengthAndValue_definite rfl wellFormed fuel rest, kept_eq rfl]
  | .definite _ _ _ _ => rw [getLengthAndValue_definite rfl wellFormed fuel rest, kept_eq rfl]
  | .indefinite _ _ values =>
    simp only [Encoding.body, length_cons, length_append] at enough
    have inside :=
      getIndefiniteLengthAndValue_contents values wellFormed.2 wellFormed.1 rest fuel
        [[128]] (by omega)
    simpa [Encoding.body, Encoding.kept, getLengthAndValue] using inside

theorem getIndefiniteLengthAndValue_contents (values : List Encoding)
    (wellFormed : AllWellFormed values) (open_ : ∀ value ∈ values, value.tag ≠ (0, 0))
    (rest : List UInt8) (fuel : Nat) (acc : List (List UInt8))
    (enough : (contents values).length < fuel) :
    getIndefiniteLengthAndValue fuel (contents values ++ 0 :: 0 :: rest) acc =
      some (acc.reverse.flatten ++ keptContents values, rest) := by
  obtain ⟨fuel, rfl⟩ := Nat.exists_eq_add_of_le' (show 1 ≤ fuel by omega)
  match values with
  | [] => rw [contents, nil_append, getIndefiniteLengthAndValue, keptContents, append_nil]
  | value :: values =>
    have size := value.ident_length
    obtain ⟨mine, theirs⟩ := forall_mem_cons.mp open_
    rw [contents, Encoding.octets_eq, length_append, length_append] at enough
    have here :=
      getLengthAndValue_body value wellFormed.1 (contents values ++ 0 :: 0 :: rest) fuel (by omega)
    have others := getIndefiniteLengthAndValue_contents values wellFormed.2 theirs rest fuel
      (value.kept :: value.ident :: acc) (by omega)
    rw [contents, Encoding.octets_eq, append_assoc, append_assoc,
      getIndefiniteLengthAndValue_ident mine, here]
    simp [others, keptContents]

end

theorem keptContents_append (values others : List Encoding) :
    keptContents (values ++ others) = keptContents values ++ keptContents others := by
  induction values with
  | nil => rfl
  | cons value values ih => rw [cons_append, keptContents, keptContents, ih, ← append_assoc]

theorem allWellFormed_append (values : List Encoding) (wellFormed : AllWellFormed values)
    (others : AllWellFormed more) : AllWellFormed (values ++ more) := by
  induction values with
  | nil => exact others
  | cons value values ih => exact ⟨wellFormed.1, ih wellFormed.2⟩

/-- An end marker that has been taken away is missed. -/
theorem getIndefiniteLengthAndValue_kept (values : List Encoding)
    (wellFormed : AllWellFormed values) (open_ : ∀ value ∈ values, value.tag ≠ (0, 0)) (fuel : Nat)
    (acc : List (List UInt8)) :
    getIndefiniteLengthAndValue fuel (keptContents values) acc = none := by
  induction fuel using Nat.strongRecOn generalizing values acc with
  | ind fuel ih =>
  match fuel, values with
  | 0, _ => rfl
  | _ + 1, [] => rfl
  | 1, value :: values =>
    rw [keptContents, append_assoc, getIndefiniteLengthAndValue_ident (open_ value mem_cons_self)]
    rfl
  | fuel + 2, value :: values =>
    obtain ⟨mine, theirs⟩ := forall_mem_cons.mp open_
    rw [keptContents, append_assoc, getIndefiniteLengthAndValue_ident mine]
    cases marked : value.endMarked with
    | false =>
      rw [kept_eq marked, getLengthAndValue_definite marked wellFormed.1]
      exact ih (fuel + 1) (by omega) values wellFormed.2 theirs _
    | true =>
      cases value with
      | indefinite cls number inside =>
        rw [Encoding.kept, cons_append, ← keptContents_append]
        have missed := ih fuel (by omega) (inside ++ values)
          (allWellFormed_append inside wellFormed.1.2 wellFormed.2)
            (forall_mem_append.mpr ⟨wellFormed.1.1, theirs⟩) [[128]]
        simp [getLengthAndValue, missed]
      | _ => cases marked

theorem parts_ok {value : Encoding} (wellFormed : value.WellFormed)
    (inside : value.parts = some parts) :
    AllWellFormed parts ∧ (value.endMarked = true → ∀ other ∈ parts, other.tag ≠ (0, 0)) ∧
      (value.LowIndefinite → AllLowIndefinite parts) ∧
      value.tlv = .constructed (tagValue value.tag) (tlvs parts) := by
  cases value with
  | primitive => cases inside
  | definite =>
    cases inside
    exact ⟨wellFormed.2, nofun, id, rfl⟩
  | indefinite =>
    cases inside
    exact ⟨wellFormed.2, fun _ => wellFormed.1, And.right, rfl⟩

theorem skip_value (value : Encoding) (wellFormed : value.WellFormed) (rest : List UInt8) :
    skipLengthAndValue ((value.body ++ rest).length + 1) (value.body ++ rest) = some rest := by
  rw [(skip_eq _).1, getLengthAndValue_body value wellFormed rest _ (by rw [length_append]; omega)]
  rfl

theorem decodeSelective_skip (value : Encoding) (wellFormed : value.WellFormed)
    (pattern : List Step) (rest : List UInt8) :
    decodeSelective (.skip :: pattern) (value.octets ++ rest) = decodeSelective pattern rest := by
  rw [value.octets_eq, append_assoc, decodeSelective, (tag_ident value _).1]
  simp only [bind_eq_bind, bind_some, skip_value value wellFormed rest]

/-- A value whose end marker has been taken away does not end. -/
theorem kept_missed (wellFormed : AllWellFormed values)
    (open_ : ∀ value ∈ values, value.tag ≠ (0, 0)) (fuel : Nat) :
    getLengthAndValue fuel (128 :: keptContents values) = none ∧
      skipLengthAndValue fuel (128 :: keptContents values) = none ∧
      getValue (128 :: keptContents values) = none := by
  have missed := getIndefiniteLengthAndValue_kept values wellFormed open_
  have taken : getLengthAndValue fuel (128 :: keptContents values) = none := by
    cases fuel with
    | zero => rfl
    | succ fuel => exact missed fuel [[128]]
  refine ⟨taken, by rw [(skip_eq fuel).1, taken]; rfl, ?_⟩
  exact ((skip_eq _).2.2 _ _).trans (congrArg _ (missed _ _))

theorem kept_iff {value : Encoding} (wellFormed : value.WellFormed) :
    value.kept = value.body ↔ value.endMarked = false := by
  refine ⟨fun same => ?_, kept_eq⟩
  cases value with
  | indefinite cls number values =>
    have read := getLengthAndValue_body _ wellFormed [] _ (Nat.le_refl _)
    rw [append_nil, ← same, Encoding.kept, (kept_missed wellFormed.2 wellFormed.1 _).1] at read
    cases read
  | _ => rfl

/-- What selection has of the first value: all of it, or nothing that ends. -/
theorem level_cases (cut : Bool) (value : Encoding) (wellFormed : AllWellFormed (value :: values))
    (open_ : cut = true → ∀ other ∈ value :: values, other.tag ≠ (0, 0)) :
    ((cut = true → value.endMarked = false) ∧
        level cut (value :: values) = value.ident ++ (value.body ++ level cut values)) ∨
      (cut = true ∧ value.endMarked = true) ∧ ∃ others, AllWellFormed others ∧
      (∀ other ∈ others, other.tag ≠ (0, 0)) ∧
        level cut (value :: values) = value.ident ++ 128 :: keptContents others := by
  rw [level_cons]
  cases cut with
  | false => exact .inl ⟨nofun, rfl⟩
  | true =>
    cases value with
    | indefinite cls number inside =>
      refine .inr ⟨⟨rfl, rfl⟩, inside ++ values,
        allWellFormed_append inside wellFormed.1.2 wellFormed.2,
        forall_mem_append.mpr ⟨wellFormed.1.1, (forall_mem_cons.mp (open_ rfl)).2⟩, ?_⟩
      rw [keptContents_append]
      rfl
    | _ => exact .inl ⟨fun _ => rfl, by rw [if_pos rfl, kept_eq rfl]⟩

theorem needed_iff {value : Encoding} (fine : cut = true → value.endMarked = false) :
    (∀ other ∈ (if cut then value :: needed else needed), Encoding.endMarked other = false) ↔
      ∀ other ∈ needed, Encoding.endMarked other = false := by
  cases cut with
  | false => rfl
  | true => simp [fine rfl]

theorem needed_not {value : Encoding} (broken : cut = true ∧ value.endMarked = true)
    (definite : ∀ other ∈ (if cut then value :: needed else needed), Encoding.endMarked other =
      false) : False := by
  rw [if_pos broken.1] at definite
  have := definite value mem_cons_self
  rw [broken.2] at this
  cases this

theorem getValue_body {value : Encoding} (wellFormed : value.WellFormed)
    (inside : value.parts = some parts) (rest : List UInt8) :
    getValue (value.body ++ rest) = some (level value.endMarked parts) := by
  cases value with
  | primitive => cases inside
  | definite cls number form values =>
    cases inside
    rw [Encoding.body, append_assoc, getValue, decodeLength_octets wellFormed.1]
    simp [binary_append, level, Encoding.endMarked]
  | indefinite cls number values =>
    cases inside
    have collected := getIndefiniteLengthAndValue_contents parts wellFormed.2 wellFormed.1 rest
      ((contents parts ++ 0 :: 0 :: rest).length + 1) [] (by rw [length_append]; omega)
    have value :=
      (skip_eq ((contents parts ++ 0 :: 0 :: rest).length + 1)).2.2
        (contents parts ++ 0 :: 0 :: rest) []
    rw [collected] at value
    simpa [Encoding.body, getValue, decodeLength, level, Encoding.endMarked] using value

theorem selects_octets (selects : Selects cut pattern values needed chosen)
    (wellFormed : AllWellFormed values)
    (open_ : cut = true → ∀ value ∈ values, value.tag ≠ (0, 0)) :
    decodeSelective pattern (level cut values) = some (.ok chosen.octets) ↔
      ∀ value ∈ needed, value.endMarked = false := by
  induction selects with
  | skip value _ ih =>
    rcases level_cases _ value wellFormed open_
      with ⟨fine, shape⟩ | ⟨broken, others, all, ends, shape⟩
    · rw [shape, ← append_assoc, ← value.octets_eq, decodeSelective_skip value wellFormed.1,
        needed_iff fine]
      exact ih wellFormed.2 fun inside => (forall_mem_cons.mp (open_ inside)).2
    · rw [shape, decodeSelective, (tag_ident value _).1]
      simp only [bind_eq_bind, bind_some, (kept_missed all ends _).2.1]
      exact ⟨nofun, fun definite => (needed_not broken definite).elim⟩
  | present value _ ih =>
    rcases level_cases _ value wellFormed open_
      with ⟨fine, shape⟩ | ⟨broken, others, all, ends, shape⟩
    · rw [shape, decodeSelective, skipOptionalTag_iff.mpr rfl, needed_iff fine]
      simp only [bind_eq_bind, bind_some, skip_value value wellFormed.1]
      exact ih wellFormed.2 fun inside => (forall_mem_cons.mp (open_ inside)).2
    · rw [shape, decodeSelective, skipOptionalTag_iff.mpr rfl]
      simp only [bind_eq_bind, (kept_missed all ends _).2.1]
      exact ⟨nofun, fun definite => (needed_not broken definite).elim⟩
  | missing other absent _ ih =>
    rw [decodeSelective, skipOptionalTag_absent other absent]
    exact ih wellFormed open_
  | @here cut value values =>
    rw [forall_mem_singleton]
    rcases level_cases _ value wellFormed open_
      with ⟨fine, shape⟩ | ⟨broken, others, all, ends, shape⟩
    · rw [shape, decodeSelective, returnValue, (tag_ident value _).2]
      simp only [bind_eq_bind, bind_some, if_true]
      rw [getLengthAndValue_body value wellFormed.1 _ _ (by rw [length_append]; omega),
        ← kept_iff wellFormed.1, value.octets_eq]
      simp
    · rw [shape, decodeSelective, returnValue, (tag_ident value _).2]
      simp only [bind_eq_bind, bind_some, if_true, (kept_missed all ends _).1]
      exact ⟨nofun, fun definite => absurd (broken.2.symm.trans definite) nofun⟩
  | @enter _ pattern _ _ cut value values inside rest ih =>
    have left : pattern ≠ [] := by
      rintro rfl
      cases rest
    rcases level_cases _ value wellFormed open_
      with ⟨fine, shape⟩ | ⟨broken, others, all, ends, shape⟩
    · rw [shape, decodeSelective, skipOptionalTag_iff.mpr rfl, needed_iff fine]
      · simp only [bind_eq_bind, getValue_body wellFormed.1 inside, bind_some]
        obtain ⟨all, ends, -⟩ := parts_ok wellFormed.1 inside
        exact ih all ends
      · exact left
    · rw [shape, decodeSelective, skipOptionalTag_iff.mpr rfl]
      · simp only [bind_eq_bind, (kept_missed all ends 0).2.2]
        exact ⟨nofun, fun definite => (needed_not broken definite).elim⟩
      · exact left

/-- A value somewhere in decoded values. -/
inductive Within (part : Tlv) : List Tlv → Prop where
  | here (values : List Tlv) : Within part (part :: values)
  | later (value : Tlv) : Within part values → Within part (value :: values)
  | inside (tagNo : Nat) (values : List Tlv) : Within part parts →
    Within part (.constructed tagNo parts :: values)

theorem selects_within (selects : Selects cut pattern values needed chosen)
    (wellFormed : AllWellFormed values) (low : AllLowIndefinite values) : chosen.WellFormed ∧
    chosen.LowIndefinite ∧ Within chosen.tlv (tlvs values) := by
  induction selects with
  | skip value _ ih | present value _ ih =>
    exact (ih wellFormed.2 low.2).imp_right (And.imp_right (.later _))
  | missing other absent _ ih => exact ih wellFormed low
  | here value values => exact ⟨wellFormed.1, low.1, .here _⟩
  | enter value values inside _ ih =>
    obtain ⟨all, -, lows, shape⟩ := parts_ok wellFormed.1 inside
    rw [tlvs, shape]
    exact (ih all (lows low.1)).imp_right (And.imp_right (.inside _ _))

/-- Selection returns the octets of the component exactly if it has a definite length and, where
it lies in a component of indefinite length, so have those before it. They are decoded as in the
whole message. Any component is skipped up to where the decoder leaves off. -/
theorem decodeSelective_component (wellFormed : AllWellFormed values)
    (selects : Selects false pattern values needed chosen) :
    (decodeSelective pattern (contents values) = some (.ok chosen.octets) ↔
      ∀ value ∈ needed, value.endMarked = false) ∧
    (AllLowIndefinite values →
      decodeConstructed ((contents values).length + 1) (contents values) = some (tlvs values) ∧
      berDecodeErlang chosen.octets = some (chosen.tlv, []) ∧ Within chosen.tlv (tlvs values)) ∧
    ∀ (value : Encoding) (pattern : List Step) (rest : List UInt8), value.WellFormed →
      decodeSelective (.skip :: pattern) (value.octets ++ rest) = decodeSelective pattern rest ∧
      (value.LowIndefinite → berDecodeErlang (value.octets ++ rest) = some (value.tlv, rest)) := by
  refine ⟨selects_octets selects wellFormed nofun, ?_, ?_⟩
  · intro low
    obtain ⟨mine, lowest, within⟩ := selects_within selects wellFormed low
    have decoded := berDecodeErlang_append chosen mine lowest []
    rw [append_nil] at decoded
    exact ⟨Encoding.decodeConstructed_contents values wellFormed low _ (Nat.lt_succ_self _),
      decoded, within⟩
  · intro value pattern rest wellFormed
    exact ⟨decodeSelective_skip value wellFormed pattern rest,
      fun low => berDecodeErlang_append value wellFormed low rest⟩

/-- Past an optional value that is missing and a sequence, out of a sequence of indefinite
length. -/
theorem decodeSelective_component_nested :
    decodeSelective [.choosen [48], .skipOptional [1], .skip, .choosen [2]]
      [48, 128, 160, 7, 48, 128, 2, 1, 5, 0, 0, 2, 1, 7, 0, 0] = some (.ok [2, 1, 7]) :=
  (@decodeSelective_component
    [.indefinite 0 16 [.definite 2 0 .short [.indefinite 0 16 [.primitive 0 2 .short [5]]],
      .primitive 0 2 .short [7]]] _ _ (.primitive 0 2 .short [7])
    (by simp [Encoding.WellFormed, AllWellFormed, Encoding.tag, LengthForm.Fits, contents, Encoding.octets, identifier,
      LengthForm.octets])
    (.enter (.indefinite 0 16 _) _ rfl
      (.missing (.primitive 0 1 .short []) (by simp [Encoding.ident, identifier])
      (.skip (.definite 2 0 .short _) (.here (.primitive 0 2 .short _) _))))).1.mpr
    (by simp [Encoding.endMarked])

/-- A sequence of indefinite length comes back without its end marker. -/
theorem decodeSelective_unterminated :
    (Encoding.indefinite 0 16 [.primitive 0 2 .short [5]]).WellFormed ∧
    Selects false [.choosen [48]] [.indefinite 0 16 [.primitive 0 2 .short [5]]]
      [.indefinite 0 16 [.primitive 0 2 .short [5]]]
        (.indefinite 0 16 [.primitive 0 2 .short [5]]) ∧
    (Encoding.indefinite 0 16 [.primitive 0 2 .short [5]]).octets = [48, 128, 2, 1, 5, 0, 0] ∧
    decodeSelective [.choosen [48]] [48, 128, 2, 1, 5, 0, 0] = some (.ok [48, 128, 2, 1, 5]) ∧
    (berDecodeErlang [48, 128, 2, 1, 5]).isNone := by
  refine ⟨?_, .here (.indefinite 0 16 _) _, by decide, by decide, by decide⟩
  simp [Encoding.WellFormed, AllWellFormed, Encoding.tag, LengthForm.Fits]

end Otp.Asn1
