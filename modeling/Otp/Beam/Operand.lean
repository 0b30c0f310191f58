import Otp.Library.BigEndian

/-! The compact operands of a BEAM file: the encoder of `beam_asm.erl`, the decoder of
`beam_disasm.erl` and the one of the loader, `beam_load.c`, on a system of 64 bits. -/

namespace Otp.Beam

open Otp.Library (toBytes byteSize signBit)

inductive Tag where
  | u | i | a | x | y | f | h | z
  deriving DecidableEq, Repr

def Tag.code : Tag → Nat
  | .u => 0 | .i => 1 | .a => 2 | .x => 3 | .y => 4 | .f => 5 | .h => 6 | .z => 7

def decodeTag : Nat → Tag
  | 0 => .u | 1 => .i | 2 => .a | 3 => .x | 4 => .y | 5 => .f | 6 => .h | _ => .z

/-- `BIG_ARITY_MAX`, the digits of the largest bignum. -/
@[irreducible]
def bigArityMax : Nat :=
  2 ^ 19 - 1

/-- Every integer of the system is smaller. -/
@[irreducible]
def bigLimit : Nat :=
  2 ^ (64 * bigArityMax)

/-- `bsl`; a `system_limit` if the result is no integer of the system. -/
def bsl (n width : Nat) : Option Nat :=
  if n * 2 ^ width < bigLimit then some (n * 2 ^ width) else none

/-- `IS_SSMALL`: an integer that needs no bignum. -/
def isSmall (n : Int) : Bool :=
  -2 ^ 59 ≤ n ∧ n ≤ 2 ^ 59 - 1

/-- `binary:encode_unsigned/1` -/
def encodeUnsigned (n : Nat) : List UInt8 :=
  toBytes (byteSize n) n

/-- `<<N:Bytes/unit:8>>` -/
def intBytes (bytes : Nat) (n : Int) : List UInt8 :=
  toBytes bytes (n % (256 ^ bytes : Nat)).toNat

/-- `to_bytes/1` -/
def positiveToBytes (n : Nat) : List UInt8 :=
  let bin := encodeUnsigned n
  if signBit bin then 0 :: bin else bin

def negativeToBytes (n : Int) : List UInt8 :=
  if n ≥ -0x8000 then intBytes 2 n
  else
    let bin := intBytes (byteSize (-n).toNat) n
    if signBit bin then bin else 0xff :: bin

theorem length_positiveToBytes_le (n : Nat) : (positiveToBytes n).length ≤ byteSize n + 1 := by
  rw [positiveToBytes, encodeUnsigned]
  split <;> simp

theorem length_negativeToBytes_le (n : Int) :
    (negativeToBytes n).length ≤ byteSize n.natAbs + 2 := by
  rw [negativeToBytes, intBytes]
  split
  · simp
  · rw [show (-n).toNat = n.natAbs by omega]
    dsimp only
    split <;> simp [intBytes]

theorem byteSize_le_self (n : Nat) : byteSize n ≤ n + 1 := Nat.succ_le_succ (Nat.log_le_self 256 n)

mutual

/-- `encode/2` -/
def encode (tag : Tag) (n : Int) : List UInt8 :=
  if n < 0 then encode1 tag (negativeToBytes n)
  else if n < 16 then [UInt8.ofNat (n.toNat <<< 4 ||| tag.code)]
  else if n < 0x800 then
    [UInt8.ofNat (((n.toNat >>> 3) &&& 0xe0) ||| tag.code ||| 0x08), UInt8.ofNat (n.toNat &&& 0xff)]
  else encode1 tag (positiveToBytes n.toNat)
termination_by 2 * n.natAbs + 10
decreasing_by
  · have := length_negativeToBytes_le n
    have := byteSize_le_self n.natAbs
    omega
  · have := length_positiveToBytes_le n.toNat
    have := byteSize_le_self n.toNat
    omega

/-- `encode1/2`; fewer than two bytes have no clause. -/
def encode1 (tag : Tag) (bytes : List UInt8) : List UInt8 :=
  let num := bytes.length
  if 2 ≤ num ∧ num ≤ 8 then UInt8.ofNat ((num - 2) <<< 5 ||| 0x18 ||| tag.code) :: bytes
  else if 8 < num then UInt8.ofNat (0xf8 ||| tag.code) :: encode .u (num - 9 : Nat) ++ bytes
  else []
termination_by 2 * bytes.length
decreasing_by omega

end

/-- An entry of the constant pool. -/
inductive Literal (Term : Type) where
  | float (value : Term)
  | other (value : Term)

mutual

inductive Alloc (Term : Type) where
  | words (val : Value Term)
  | floats (val : Value Term)
  | literal (value : Literal Term)

/-- What stands beside the tag `u`. -/
inductive Value (Term : Type) where
  | int (n : Int)
  | alloc (list : List (Alloc Term))

end

/-- What `decode_arg` returns besides the rest of the bytes; an allocation list has tag `u`. -/
inductive Arg (Atom Term : Type) where
  | tagged (tag : Tag) (n : Int)
  | alloc (list : List (Alloc Term))
  | float (bytes : List UInt8)
  | fr (val : Value Term)
  | literal (value : Literal Term)
  | nil
  | atom (name : Atom)

variable {Atom Term : Type}

/-- A match of `{u,Value}`. -/
def Arg.u : Arg Atom Term → Option (Value Term)
  | .tagged .u n => some (.int n)
  | .alloc list => some (.alloc list)
  | _ => none

/-- `take_bytes/2` -/
def takeBytes (n : Nat) (bs : List UInt8) : Option (List UInt8 × List UInt8) :=
  if n ≤ bs.length then some (bs.take n, bs.drop n) else none

/-- `build_arg/2` -/
def buildArg : List UInt8 → Nat → Option Nat
  | b :: bs, n => do
    let shifted ← bsl n 8
    buildArg bs (shifted ||| b.toNat)
  | [], n => some n

def decodeNegative (n len : Nat) : Option Int := do
  let power ← bsl 1 (len * 8)
  return n - power

/-- A match of `<<Float:64/float>>`: infinities and what is not a number do not match. -/
def isFloat (bytes : List UInt8) : Bool :=
  match bytes with
  | b0 :: b1 :: _ => ((b0.toNat &&& 0x7f) <<< 4 ||| b1.toNat >>> 4) ≠ 0x7ff
  | _ => false

def decodeFloat (bs : List UInt8) : Option (Arg Atom Term × List UInt8) := do
  let (fl, restBs) ← takeBytes 8 bs
  if isFloat fl then return (.float fl, restBs) else none

section Recursion

/-! The functions that call `decode_arg/1` on later bytes take it as an argument. -/

variable (decodeArg : List UInt8 → Option (Arg Atom Term × List UInt8))

def decodeIntLength (b : UInt8) (bs : List UInt8) : Option (Nat × List UInt8) :=
  match b.toNat >>> 5 with
  | 7 => do
    let (arg, argBs) ← decodeArg bs
    match arg.u with
    | some (.int l) => some ((l + 9).toNat, argBs)
    | _ => none
  | l => some (l + 2, bs)

def decodeInt (tag : Tag) (b : UInt8) (bs : List UInt8) : Option (Arg Atom Term × List UInt8) :=
  if b.toNat &&& 0x08 = 0 then some (.tagged tag (b.toNat >>> 4 : Nat), bs)
  else if b.toNat &&& 0x10 = 0 then
    match bs with
    | [] => none
    | b1 :: bs1 => some (.tagged tag ((b.toNat &&& 0xe0) <<< 3 ||| b1.toNat : Nat), bs1)
  else do
    let (len, bs1) ← decodeIntLength decodeArg b bs
    let (intBs, remBs) ← takeBytes len bs1
    let n ← buildArg intBs 0
    let num ← if signBit intBs ∧ tag = .i then decodeNegative n len else some (n : Int)
    return (.tagged tag num, remBs)

/-- `decode_alloc_list_1/4` -/
def decodeAllocList (literals : Int → Option (Literal Term)) :
    Nat → List UInt8 → List (Alloc Term) → Option (Arg Atom Term × List UInt8)
  | 0, restBs, acc => some (.alloc acc.reverse, restBs)
  | n + 1, bs0, acc => do
    let (arg, bs1) ← decodeArg bs0
    let type ← arg.u
    let (arg, bs) ← decodeArg bs1
    let val ← arg.u
    match type, val with
    | .int 0, val => decodeAllocList literals n bs (.words val :: acc)
    | .int 1, val => decodeAllocList literals n bs (.floats val :: acc)
    | .int 2, .int index =>
      match literals index with
      | some value => decodeAllocList literals n bs (.literal value :: acc)
      | none => none
    | _, _ => none

/-- `decode_z_tagged/4`: the value says what kind of operand follows. -/
def decodeZTagged (literals : Int → Option (Literal Term)) (b : UInt8) (bs : List UInt8) :
    Option (Arg Atom Term × List UInt8) :=
  if b.toNat &&& 0x08 = 0 then
    match b.toNat >>> 4 with
    | 0 => decodeFloat bs
    | 1 => some (.tagged .z 1, bs)
    | 2 => do
      let (arg, restBs) ← decodeArg bs
      let fr ← arg.u
      return (.fr fr, restBs)
    | 3 => do
      let (arg, restBs) ← decodeArg bs
      match arg.u with
      | some (.int n) => decodeAllocList decodeArg literals n.toNat restBs []
      | _ => none
    | 4 => do
      let (arg, restBs) ← decodeArg bs
      match arg.u with
      | some (.int litIndex) => (literals litIndex).map fun value => (.literal value, restBs)
      | _ => none
    | _ => none
  else none

end Recursion

/-- `decode_arg/1`, with a bound on the depth of the calls. -/
def decodeArgWithin : Nat → List UInt8 → Option (Arg Atom Term × List UInt8)
  | _, [] => none
  | 0, _ :: _ => none
  | depth + 1, b :: bs =>
    match decodeTag (b.toNat &&& 7) with
    | .z => decodeZTagged (decodeArgWithin depth) (fun _ => none) b bs
    | tag => decodeInt (decodeArgWithin depth) tag b bs

/-- `decode_arg/1`: each call inside reads later bytes. -/
def decodeArg (bs : List UInt8) : Option (Arg Atom Term × List UInt8) :=
  decodeArgWithin bs.length bs

/-- `decode_arg/3`, which looks up atoms and literals. -/
def decodeArg_3 (atoms : Int → Option Atom) (literals : Int → Option (Literal Term)) :
    List UInt8 → Option (Arg Atom Term × List UInt8)
  | [] => none
  | b :: bs =>
    match decodeTag (b.toNat &&& 7) with
    | .z => decodeZTagged decodeArg literals b bs
    | .a =>
      match (decodeInt decodeArg .a b bs : Option (Arg Atom Term × List UInt8)) with
      | some (.tagged .a 0, bs) => some (.nil, bs)
      | some (.tagged .a i, bs) => (atoms i).map fun name => (.atom name, bs)
      | _ => none
    | tag => decodeInt decodeArg tag b bs

end Otp.Beam
