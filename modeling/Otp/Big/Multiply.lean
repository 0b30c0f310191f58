import Otp.Big.Term

/-! Multiplication. The digits at `r` are memory: what is not known to be zero is arbitrary. -/

namespace Otp.Big

open Library.Digits
open Nat (ofDigits)

/-- One digit of a row: the carry of the product, the carry of the sum, and the digit. -/
def rowStep (d y r cp c : Nat) : Nat × Nat × Nat :=
  match d with
  | 1 =>
    let (c, p) := dsumc y r c
    (cp, c, p)
  | 2 =>
    let (cp, p) := dsumc y y cp
    let (c, p) := dsumc p r c
    (cp, c, p)
  | d =>
    let (cp, p) := dmulc d y cp
    let (c, p) := dsumc p r c
    (cp, c, p)

/-- The loops over `y`. The last part has every carry. -/
def rowLoop (d : Nat) : List Nat → List Nat → Nat → Nat → List Nat × Nat × Nat × List Nat
  | y :: ys, r :: rs, cp, c =>
    let (cp, c, p) := rowStep d y r cp c
    let (ps, cp', c', carries) := rowLoop d ys rs cp c
    (p :: ps, cp', c', cp :: c :: carries)
  | _, _, cp, c => ([], cp, c, [])

/-- The digits of a row, the sum `c + cp` above them, and the carries. -/
def mulRow (d : Nat) (y r : List Nat) : List Nat × Nat × List Nat :=
  if d = 0 then (r.take y.length, 0, [])
  else
    let (ps, cp, c, carries) := rowLoop d y r 0 0
    (ps, c + cp, carries)

/-- The memory at `r` when all rows are added, with all carries and sums. -/
def iMulLoop (y : List Nat) : List Nat → List Nat → List Nat × List Nat
  | [], r => (r, [])
  | d :: xs, r =>
    let (ps, sum, carries) := mulRow d y r
    match ps ++ sum % dBase :: r.drop (y.length + 1) with
    | [] => ([], [])
    | p :: rest =>
      let (memory, later) := iMulLoop y xs rest
      (p :: memory, sum :: carries ++ later)

/-- The digits up to the last one that was written. -/
def product (memory : List Nat) (n : Nat) : List Nat :=
  if memory.getD (n - 1) 0 = 0 then memory.take (n - 1) else memory.take n

def iMul (x y r : List Nat) : List Nat := product (iMulLoop y x r).1 (x.length + y.length)

/-- The carries of a row of `I_sqr`. -/
structure SqrCarry where
  y0 : Nat
  y1 : Nat
  y2 : Nat
  y3 : Nat
  z1 : Nat

/-- The loop over `y`, and the two digits above it; the second one is the sum of the carries. -/
def sqrLoop (d : Nat) : List Nat → List Nat → SqrCarry → List Nat × Nat × List Nat
  | [], r, k =>
    let (y2, z2) := dsumc k.y0 k.z1 k.y2
    let (y3, t) := dsumc (r.headD 0) z2 k.y3
    ([t], k.y1 + y2 + y3, [y2, y3])
  | y :: ys, r, k =>
    let (b1, b0) := dmul d y
    let (y0, z0) := dsumc b0 b0 k.y0
    let (y2, z2) := dsumc z0 k.z1 k.y2
    let (y3, t) := dsumc (r.headD 0) z2 k.y3
    let (y1, z1) := dsumc b1 b1 k.y1
    let (ts, sum, carries) := sqrLoop d ys r.tail ⟨y0, y1, y2, y3, z1⟩
    (t :: ts, sum, y0 :: y1 :: y2 :: y3 :: carries)

def sqrRow (d : Nat) (y r : List Nat) : List Nat × Nat × List Nat :=
  let (b1, b0) := dmul d d
  let (y3, t) := dsumc (r.headD 0) b0 0
  let (ts, sum, carries) := sqrLoop d y r.tail ⟨0, 0, 0, y3, b1⟩
  (t :: ts, sum, y3 :: carries)

/-- The vectors `x` and `r` are apart. The sum of the carries is not written for the last digit of
`x`. -/
def iSqrLoop : List Nat → List Nat → List Nat × List Nat
  | [], r => (r, [])
  | d :: xs, r =>
    let (ts, sum, carries) := sqrRow d xs r
    let memory := if xs = [] then ts ++ r.drop 2 else ts ++ sum % dBase :: r.drop (xs.length + 3)
    let (high, later) := iSqrLoop xs (memory.drop 2)
    (memory.take 2 ++ high, sum :: carries ++ later)

def iSqr (x r : List Nat) : List Nat := product (iSqrLoop x r).1 (x.length + x.length)

def dMulLoop (d : Nat) : List Nat → Nat → List Nat
  | [], c => if c = 0 then [] else [c]
  | x :: xs, c =>
    let (c, p) := if d = 2 then dsumc x x c else dmulc d x c
    p :: dMulLoop d xs c

def dMul (x : List Nat) (d : Nat) : List Nat :=
  if d = 0 then [0] else if d = 1 then x else dMulLoop d x 0

/-- The memory for the result has `BIG_NEED_SIZE(xsz+ysz)` words; `same` tells that the terms are
one. -/
def bigTimes (x y : Bignum) (same : Bool) (memory : List Nat) : Eterm :=
  let sign := x.sign != y.sign
  let xsz := x.digits.length
  let ysz := y.digits.length
  let zero n := List.replicate n 0 ++ memory.drop n
  if ysz = 1 then bigNorm (dMul x.digits (y.digits.headD 0)) sign
  else if xsz = 1 then bigNorm (dMul y.digits (x.digits.headD 0)) sign
  else if same then bigNorm (iSqr x.digits (zero (xsz + 1))) sign
  else if xsz ≥ ysz then bigNorm (iMul x.digits y.digits (zero xsz)) sign
  else bigNorm (iMul y.digits x.digits (zero ysz)) sign

end Otp.Big
