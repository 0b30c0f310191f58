import Otp.Library.BigEndian
import Otp.Library.Framing

/-! `packet_get_length` of `packet_parser.c`. Buffers are shorter than `2 ^ 31` bytes: in larger
ones the `int` variables of the function overflow. -/

namespace Otp.Inet

inductive PacketParseType where
  | raw | pb1 | pb2 | pb4 | asn1 | rm | cdr | fcgi | lineLf | tpkt | http | httph | sslTls | httpBin | httphBin
deriving DecidableEq, Repr

section

variable (ptr : List UInt8)

/-- The byte at a place that has been read. -/
def byteAt (i : Nat) : Nat := (ptr.getD i 0).toNat

def getInt8 (i : Nat) : Nat := byteAt ptr i

def getInt16 (i : Nat) : Nat := (byteAt ptr i <<< 8) ||| byteAt ptr (i + 1)

def getInt24 (i : Nat) : Nat :=
  (byteAt ptr i <<< 16) ||| (byteAt ptr (i + 1) <<< 8) ||| byteAt ptr (i + 2)

def getInt32 (i : Nat) : Nat :=
  (byteAt ptr i <<< 24) ||| (byteAt ptr (i + 1) <<< 16) ||| (byteAt ptr (i + 2) <<< 8) |||
    byteAt ptr (i + 3)

def getLittleInt32 (i : Nat) : Nat :=
  (byteAt ptr (i + 3) <<< 24) ||| (byteAt ptr (i + 2) <<< 16) ||| (byteAt ptr (i + 1) <<< 8) |||
    byteAt ptr i

/-- An `unsigned` as an `int`. -/
def toInt (n : Nat) : Int :=
  if n % 2 ^ 32 < 2 ^ 31 then (n % 2 ^ 32 : Nat) else (n % 2 ^ 32 : Nat) - 2 ^ 32

/-- A difference of `unsigned`s. -/
def minus (n less : Nat) : Nat := (n + (2 ^ 32 - less)) % 2 ^ 32

/-- Where the cases with a header go: `more`, `error` or `remain`, there with `hlen` and `plen`. -/
inductive Header where
  | more
  | error
  | remain (hlen plen : Nat)

def Header.length (maxPlen : Nat) : Header → Int
  | .more => 0
  | .error => -1
  | .remain hlen plen =>
    let tlen := toInt (hlen + plen)
    if (maxPlen ≠ 0 ∧ plen > maxPlen) ∨ tlen < toInt hlen then -1 else tlen

def pb1 : Header :=
  if ptr.length < 1 then .more else .remain 1 (getInt8 ptr 0)

def pb2 : Header :=
  if ptr.length < 2 then .more else .remain 2 (getInt16 ptr 0)

def pb4 : Header :=
  if ptr.length < 4 then .more else .remain 4 (getInt32 ptr 0)

def rm : Header :=
  if ptr.length < 4 then .more else .remain 4 (getInt32 ptr 0 &&& 0x7fffffff)

/-- From the length field on; `n` bytes have been read in all. -/
def asn1Length (n : Nat) : List UInt8 → Header
  | [] => .more
  | tptr :: rest =>
    let length := tptr.toNat &&& 0x7f
    if tptr.toNat &&& 0x80 = 0x80 then
      if rest.length < length then .more
      else
        match length with
        | 0 => .remain (n - rest.length) 0
        | 1 => .remain (n - rest.length + 1) (getInt8 rest 0)
        | 2 => .remain (n - rest.length + 2) (getInt16 rest 0)
        | 3 => .remain (n - rest.length + 3) (getInt24 rest 0)
        | 4 => .remain (n - rest.length + 4) (getInt32 rest 0)
        | _ => .error
    else .remain (n - rest.length) length

def asn1 : Header :=
  match ptr with
  | [] => .more
  | first :: rest =>
    if ptr.length < 2 then .more
    else if first.toNat &&& 0x1f = 0x1f then
      let rest := rest.dropWhile fun byte => byte.toNat &&& 0x80 = 0x80
      if rest.length < 2 then .more else asn1Length ptr.length rest.tail
    else asn1Length ptr.length rest

/-- `CDR_MAGIC` is `GIOP`. -/
def cdr : Header :=
  if ptr.length < 12 then .more
  else if ptr.take 4 ≠ [71, 73, 79, 80] then .error
  else if byteAt ptr 6 &&& 0x01 ≠ 0 then .remain 12 (getLittleInt32 ptr 8)
  else .remain 12 (getInt32 ptr 8)

def fcgi : Header :=
  if ptr.length < 8 then .more
  else if byteAt ptr 0 ≠ 1 then .error
  else .remain 8 (((byteAt ptr 4 <<< 8) ||| byteAt ptr 5) + byteAt ptr 6)

def tpkt : Header :=
  if ptr.length < 4 then .more
  else if byteAt ptr 0 = 3 then .remain 4 (minus (getInt16 ptr 2) 4)
  else .error

def sslTls : Header :=
  if ptr.length < 5 then .more
  else if byteAt ptr 0 &&& 0x80 ≠ 0 ∧ byteAt ptr 2 = 1 then
    .remain 5 (minus (getInt16 ptr 0 &&& 0x7fff) 3)
  else .remain 5 (getInt16 ptr 3)

def memchr (c : UInt8) (ptr : List UInt8) : Option Nat := ptr.findIdx? (· == c)

def lineLf (maxPlen truncLen : Nat) (delimiter : UInt8) : Int :=
  match memchr delimiter ptr with
  | none =>
    if ptr.length > maxPlen ∧ maxPlen ≠ 0 then -1
    else if ptr.length ≥ truncLen ∧ truncLen ≠ 0 then toInt truncLen
    else 0
  | some place =>
    let len := place + 1
    if len > maxPlen ∧ maxPlen ≠ 0 then -1
    else if len > truncLen ∧ truncLen ≠ 0 then toInt truncLen
    else toInt len

def sp (i : Nat) : Bool := byteAt ptr i = 32 ∨ byteAt ptr i = 9

/-- The loop over the lines of a header field; `seen` bytes stand before `ptr1`. -/
def httpLoop (maxPlen : Nat) (state : Bool) (seen : Nat) (ptr1 : List UInt8) : Int :=
  match found : memchr 10 ptr1 with
  | none => if maxPlen ≠ 0 ∧ seen + ptr1.length ≥ maxPlen then -1 else 0
  | some place =>
    let plen := seen + place + 1
    if state = false then if maxPlen ≠ 0 ∧ plen > maxPlen then -1 else toInt plen
    else if plen < seen + ptr1.length then
      if sp ptr1 (place + 1) ∧ plen > 2 then httpLoop maxPlen state plen (ptr1.drop (place + 1))
      else if maxPlen ≠ 0 ∧ plen > maxPlen then -1
      else toInt plen
    else if maxPlen ≠ 0 ∧ plen > maxPlen then -1
    else 0
termination_by ptr1.length
decreasing_by
  rw [List.length_drop]
  omega

/-- Without a maximal length, the length of lines is the limit. -/
def httpLimit (maxPlen truncLen : Nat) : Nat := if maxPlen = 0 then truncLen else maxPlen

def http (maxPlen truncLen : Nat) (state : Bool) : Int :=
  if ptr = [10] ∨ ptr = [13, 10] then toInt ptr.length
  else httpLoop (httpLimit maxPlen truncLen) state 0 ptr

end

/-- The length and the state afterwards; `state` is whether `*statep` is not zero. -/
def packetGetLength (htype : PacketParseType) (ptr : List UInt8) (maxPlen truncLen : Nat)
    (delimiter : UInt8) (state : Bool) : Int × Bool :=
  match htype with
  | .raw => (if ptr.length = 0 then 0 else toInt ptr.length, state)
  | .pb1 => ((pb1 ptr).length maxPlen, state)
  | .pb2 => ((pb2 ptr).length maxPlen, state)
  | .pb4 => ((pb4 ptr).length maxPlen, state)
  | .rm => ((rm ptr).length maxPlen, state)
  | .lineLf => (lineLf ptr maxPlen truncLen delimiter, state)
  | .asn1 => ((asn1 ptr).length maxPlen, state)
  | .cdr => ((cdr ptr).length maxPlen, state)
  | .fcgi => ((fcgi ptr).length maxPlen, state)
  | .httph | .httphBin => (http ptr maxPlen truncLen true, true)
  | .http | .httpBin => (http ptr maxPlen truncLen state, state)
  | .tpkt => ((tpkt ptr).length maxPlen, state)
  | .sslTls => ((sslTls ptr).length maxPlen, state)

end Otp.Inet
