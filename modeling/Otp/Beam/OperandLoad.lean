import Otp.Beam.Operand

/-! How the loader reads an operand: `GetTagAndValue` and `get_tag_and_value` of
`beam_load.c`. A word has 64 bits; `none` is a load error. -/

namespace Otp.Beam

open Otp.Library (signBit)

abbrev Word := BitVec 64

/-- The tags of operands in the loader; `q` is a literal and `o` an overflow. -/
inductive LoadTag where
  | file (tag : Tag)
  | q
  | o
  deriving DecidableEq, Repr

/-- The term of a literal: a bignum, or memory that nothing was written to. -/
inductive Constant where
  | big (neg : Bool) (digits : List Word)
  | unset
  deriving DecidableEq, Repr

def Constant.value : Constant → Int
  | .big neg digits =>
    let magnitude : Nat := digits.foldr (fun digit n => digit.toNat + 2 ^ 64 * n) 0
    if neg then -magnitude else magnitude
  | .unset => 0

/-- The tag and the value, and the part of the loader state that reading changes. -/
structure Loaded where
  tag : LoadTag
  value : Word
  file : List UInt8
  literals : List Constant
  deriving DecidableEq, Repr

/-- `GetInt` -/
def getInt (n : Nat) (file : List UInt8) : Option (Word × List UInt8) :=
  if file.length < n then none
  else some ((file.take n).foldl (fun result byte => result <<< 8 ||| byte.toBitVec.setWidth 64) 0,
    file.drop n)

/-- `small_to_big` -/
def smallToBig (x : Word) : Constant :=
  if 0 ≤ x.toInt then .big false [x] else .big true [-x]

/-- The loop of `get_tag_and_value` that negates the bytes, the least significant first. -/
def negate : List UInt8 → UInt8 → List UInt8
  | [], _ => []
  | byte :: bigbuf, carry =>
    let byte := ~~~byte + carry
    byte :: negate bigbuf (if byte = 0 ∧ carry = 1 then 1 else 0)

/-- One digit of `bytes_to_big`. -/
def digit (xp : List UInt8) : Word :=
  xp.foldr (fun byte d => d <<< 8 ||| byte.toBitVec.setWidth 64) 0

/-- The digits that `bytes_to_big` writes. -/
def bigDigits (xp : List UInt8) : List Word :=
  if 8 < xp.length then digit (xp.take 8) :: bigDigits (xp.drop 8)
  else if 0 < xp.length then [digit xp]
  else []
termination_by xp.length
decreasing_by
  rw [List.length_drop]
  omega

/-- `IS_USMALL` -/
def isUSmall (neg : Bool) (x : Word) : Bool :=
  if neg then x.toNat ≤ 2 ^ 59 else x.toNat ≤ 2 ^ 59 - 1

/-- `bytes_to_big`. A small is returned and not written; too many digits give `NIL`. -/
def bytesToBig (xp : List UInt8) (neg : Bool) : Option Constant :=
  match bigDigits xp with
  | [d] => if isUSmall neg d then some .unset else some (.big neg [d])
  | digits => if bigArityMax < digits.length then none else some (.big neg digits)

/-- An integer of more bytes than a word, the end of `get_tag_and_value`. -/
def getBig (count : Nat) (file : List UInt8) (literals : List Constant) : Option Loaded :=
  if file.length < count then none
  else
    let bigbuf := (file.take count).reverse
    let neg := (bigbuf.getLastD 0).toNat &&& 0x80 ≠ 0
    let bigbuf := if neg then negate bigbuf 1 else bigbuf
    let bigbuf := if bigbuf.getLastD 0 = 0 then bigbuf.dropLast else bigbuf
    if bigbuf.getLastD 0 = 0 then none
    else
      -- align to a word boundary
      let bigbuf := bigbuf.rightpad ((bigbuf.length + 7) / 8 * 8) 0
      match bytesToBig bigbuf neg with
      | none => none
      | some constant =>
        some ⟨.q, BitVec.ofNat 64 literals.length, file.drop count, literals ++ [constant]⟩

/-- `get_tag_and_value` once the size of the value is known. -/
def getValue (tag : Tag) (count : Nat) (file : List UInt8) (literals : List Constant) :
    Option Loaded :=
  if tag ≠ .i then
    if count = 9 then
      match file with
      | [] => none
      | msb :: file =>
        match getInt 8 file with
        | none => none
        | some (result, file) =>
          if msb ≠ 0 then some ⟨.o, result, file, literals⟩
          else some ⟨.file tag, result, file, literals⟩
    else
      match getInt count file with
      | none => none
      | some (result, file) =>
        if count = 8 then some ⟨.file tag, result, file, literals⟩
        else if count < 8 then
          if result &&& ((1 : Word) <<< (count * 8 - 1)) ≠ 0 then some ⟨.o, result, file, literals⟩
          else some ⟨.file tag, result, file, literals⟩
        else some ⟨.o, result, file, literals⟩
  else if count ≤ 8 then
    match getInt count file with
    | none => none
    | some (val, file) =>
      let val := (val <<< (8 * (8 - count))).sshiftRight (8 * (8 - count))
      if isSmall val.toInt then some ⟨.file .i, val, file, literals⟩
      else some ⟨.q, BitVec.ofNat 64 literals.length, file, literals ++ [smallToBig val]⟩
  else getBig count file literals

/-- `GetTagAndValue`, and `get_tag_and_value` for its long operands. -/
def getTagAndValue (literals : List Constant) : List UInt8 → Option Loaded
  | [] => none
  | w :: file =>
    let tag := decodeTag (w.toNat &&& 7)
    if w.toNat &&& 0x08 = 0 then some ⟨.file tag, BitVec.ofNat 64 (w.toNat >>> 4), file, literals⟩
    else if w.toNat &&& 0x10 = 0 then
      match file with
      | [] => none
      | w1 :: file =>
        some ⟨.file tag, BitVec.ofNat 64 ((w.toNat >>> 5) <<< 8 ||| w1.toNat), file, literals⟩
    else
      let lenCode := w.toNat >>> 5
      if lenCode < 7 then getValue tag (lenCode + 2) file literals
      else
        match getTagAndValue literals file with
        | none => none
        | some len =>
          if len.tag = .file .u then getValue tag (len.value + 9).toNat len.file len.literals
          else none

end Otp.Beam
