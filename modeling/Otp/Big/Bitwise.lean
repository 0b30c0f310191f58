import Otp.Big.Term
import Otp.Library.TwosComplement

/-! Bitwise operations on sign and magnitude. The digits of a negative operand are taken in two's
complement as the loops run over them. -/

namespace Otp.Big

open Library.Digits Library.TwosComplement
open Nat (ofDigits)

/-- The operator `~` on a digit. -/
def dNot (d : Nat) : Nat := dMask - d

/-- The next digit of an operand. The first digit of a negative one is decremented, and the later
ones by the borrow. -/
def operand (sgn : Bool) (b : Option Nat) (d : Nat) : Option Nat × Nat :=
  if sgn then
    let (b, c) := match b with
      | none => dsub d 1
      | some b => dsubb d 0 b
    (some b, dNot c)
  else (b, d)

/-- The loop over both operands: the digits, what is left of `x`, and its borrow. -/
def bitLoop (op : Nat → Nat → Nat) (xsgn ysgn : Bool) :
    List Nat → List Nat → Option Nat → Option Nat → List Nat × List Nat × Option Nat
  | x :: xs, y :: ys, b1, b2 =>
    let (b1, c1) := operand xsgn b1 x
    let (b2, c2) := operand ysgn b2 y
    let (r, rest, b) := bitLoop op xsgn ysgn xs ys b1 b2
    (op c1 c2 :: r, rest, b)
  | xs, _, b1, _ => ([], xs, b1)

/-- The loop over what is left of `x` that goes on with the borrow. -/
def borrowLoop : List Nat → Option Nat → List Nat
  | [], _ => []
  | x :: xs, b =>
    let (b, c) := operand true b x
    c :: borrowLoop xs b

/-- The loop on `mask`, with `prev_mask` as its result. -/
def maskLoop (d : Nat) : Nat → Nat → Nat → Nat
  | 0, prevMask, _ => prevMask
  | steps + 1, prevMask, mask =>
    if d &&& mask = mask then maskLoop d steps mask ((mask >>> 1) ||| 2 ^ 63) else prevMask

/-- The high digit; the mask has no more than 64 bits to go through. -/
def btrailHigh (d : Nat) : Nat :=
  if d = dMask then 0 else dNot d &&& dNot (maskLoop d 64 0 (2 ^ 63))

def iBtrail (r : List Nat) (sign : Bool) : List Nat :=
  if sign then
    let r := trimTop dMask r
    dAdd (r.dropLast.map dNot ++ (r.drop (r.length - 1)).map btrailHigh) 1
  else trim r

/-- The loops of `I_band` over what is left of `x`. -/
def bandTail (xsgn ysgn : Bool) (rest : List Nat) : List Nat :=
  match xsgn, ysgn with
  | false, false => []
  | false, true => rest
  | true, false => []
  | true, true => rest.map dNot

def iBand (x : List Nat) (xsgn : Bool) (y : List Nat) (ysgn : Bool) : List Nat :=
  let (r, rest, _) := bitLoop (· &&& ·) xsgn ysgn x y none none
  iBtrail (r ++ bandTail xsgn ysgn rest) (xsgn && ysgn)

def borTail (xsgn ysgn : Bool) (rest : List Nat) (b : Option Nat) : List Nat :=
  match xsgn, ysgn with
  | false, false => rest
  | false, true => []
  | true, false => borrowLoop rest b
  | true, true => []

def iBor (x : List Nat) (xsgn : Bool) (y : List Nat) (ysgn : Bool) : List Nat :=
  let (r, rest, b) := bitLoop (· ||| ·) xsgn ysgn x y none none
  iBtrail (r ++ borTail xsgn ysgn rest b) (xsgn || ysgn)

def bxorTail (xsgn ysgn : Bool) (rest : List Nat) : List Nat :=
  match xsgn, ysgn with
  | false, false => rest
  | false, true => rest.map dNot
  | true, false => rest.map dNot
  | true, true => rest

def iBxor (x : List Nat) (xsgn : Bool) (y : List Nat) (ysgn : Bool) : List Nat :=
  let (r, rest, _) := bitLoop (· ^^^ ·) xsgn ysgn x y none none
  iBtrail (r ++ bxorTail xsgn ysgn rest) (xsgn != ysgn)

def iBnot (x : List Nat) (xsgn : Bool) : List Nat := if xsgn then dAdd x 1 else dSub x 1

/-- The longer operand comes first. -/
def bigBitop (iOp : List Nat → Bool → List Nat → Bool → List Nat) (sign : Bool → Bool → Bool)
    (x y : Bignum) : Eterm :=
  if x.digits.length ≥ y.digits.length then
    bigNorm (iOp x.digits x.sign y.digits y.sign) (sign x.sign y.sign)
  else bigNorm (iOp y.digits y.sign x.digits x.sign) (sign x.sign y.sign)

def bigBand (x y : Bignum) : Eterm := bigBitop iBand and x y

def bigBor (x y : Bignum) : Eterm := bigBitop iBor or x y

def bigBxor (x y : Bignum) : Eterm := bigBitop iBxor (· != ·) x y

def bigBnot (x : Bignum) : Eterm :=
  let sign := !x.sign
  bigNorm (iBnot x.digits sign) sign

end Otp.Big
