import Otp.Library.TailCalls
import Mathlib.Data.Nat.Digits.Defs

/-! Chunked bodies: `http_chunk.erl`. The functions of the decoder end in a call of another one,
in an answer, or in the function and arguments to go on with when more has arrived. -/

namespace Otp.Inets

open Otp.Library.TailCalls

abbrev Bytes := List UInt8

def cr : UInt8 := 13

def lf : UInt8 := 10

def zero : UInt8 := 48

def semicolon : UInt8 := 59

def crlf : Bytes := [cr, lf]

def text (string : String) : Bytes := string.toList.map fun char => char.toNat.toUInt8

def digit (d : Nat) : UInt8 := if d < 10 then .ofNat (48 + d) else .ofNat (55 + d)

/-- `integer_to_list/2`. -/
def integerToList (n : Int) (base : Nat) : Bytes :=
  if n < 0 then 45 :: (Nat.digits base n.natAbs).reverse.map digit
  else if n = 0 then [zero]
  else (Nat.digits base n.natAbs).reverse.map digit

def digitValue (char : UInt8) : Option Nat :=
  let c := char.toNat
  if 48 ≤ c ∧ c ≤ 57 then some (c - 48)
  else if 65 ≤ c ∧ c ≤ 90 then some (c - 55)
  else if 97 ≤ c ∧ c ≤ 122 then some (c - 87)
  else none

/-- The digits of a number in a base, the first ones first. -/
def digitsValue (base : Nat) : Nat → Bytes → Option Nat
  | ui, [] => some ui
  | ui, char :: chars => do
    let d ← digitValue char
    if d < base then digitsValue base (ui * base + d) chars else none

/-- `list_to_integer/2`; `none` is `badarg`. -/
def listToInteger (list : Bytes) (base : Nat) : Option Int :=
  let number := fun list => if list = [] then none else (digitsValue base 0 list).map Int.ofNat
  match list with
  | 45 :: list => (number list).map (- ·)
  | 43 :: list => number list
  | list => number list

def hexlistToInteger (list : Bytes) : Option Int := listToInteger list 16

def integerToHexlist (int : Int) : Bytes := integerToList int 16

/-- A chunk is a binary, or a list of binaries. -/
inductive Chunk where
  | binary (bytes : Bytes)
  | list (parts : List Bytes)
deriving DecidableEq, Repr

def Chunk.bytes : Chunk → Bytes
  | .binary bytes => bytes
  | .list parts => parts.flatten

def encode : Chunk → Bytes
  | .binary chunk => integerToHexlist chunk.length ++ crlf ++ chunk ++ crlf
  | .list parts =>
    if parts = [[]] then []
    else integerToHexlist parts.flatten.length ++ crlf ++ parts.flatten ++ crlf

def encodeTrailersLoop (trailers : List (Bytes × Bytes)) (acc : Bytes) : Bytes :=
  match trailers with
  | [] => acc ++ crlf ++ crlf
  | (header, value) :: rest => encodeTrailersLoop rest (header ++ text ":" ++ value ++ crlf ++ acc)

def encodeTrailers (trailers : List (Bytes × Bytes)) : Bytes := encodeTrailersLoop trailers []

def encodeLast (trailers0 : List (Bytes × Bytes)) : Bytes :=
  if trailers0 = [] then zero :: crlf ++ crlf
  else zero :: crlf ++ encodeTrailers trailers0

/-- A number, or `nolimit`. -/
abbrev Limit := Option Int

def remaingSize (total : Limit) (consumed : Int) : Limit := total.map (· - consumed)

structure Info where
  maxBodySize : Limit
  body : Bytes
  accLength : Int
  maxHeaderSize : Limit
deriving DecidableEq, Repr

/-- The function to go on with behind the extensions of a chunk. -/
inductive NextFunction where
  | decodeSize (rest hexList : Bytes) (accHeaderSize : Nat) (info : Info)
  | decodeTrailer (rest header : Bytes) (headers : List Bytes) (body bodyLength : Bytes)
deriving DecidableEq, Repr

inductive Call where
  | decodeSize (data hexList : Bytes) (accHeaderSize : Nat) (info : Info)
  | ignoreExtensions (data : Bytes) (remainingSize totalMaxHeaderSize : Limit)
  (nextFunction : NextFunction)
  | decodeData (chunkSize : Int) (totalChunk : Bytes) (info : Info)
  | decodeTrailer (data header : Bytes) (headers : List Bytes) (body bodyLength : Bytes)
      (remainingSize totalMaxHeaderSize : Limit)
deriving DecidableEq, Repr

/-- What `{Module, Function, Args}` calls, once the new data is appended to the data in `Args`; or
two arguments too few for `ignore_extensions`. -/
inductive Mfa where
  | call (call : Call)
  | ignoreExtensions (rest : Bytes) (nextFunction : NextFunction)
deriving DecidableEq, Repr

inductive Error where
  | headerTooLong (max : Limit)
  | chunkSize (hexList : Bytes)
  | bodyTooBig (max : Limit)
deriving DecidableEq, Repr

inductive Outcome where
  | ok (headers : List Bytes) (body : Bytes)
  | mfa (mfa : Mfa)
  | throw (error : Error)
  | functionClause
deriving DecidableEq, Repr

abbrev Step := Call ⊕ Outcome

def Step.mfa (call : Call) : Step := .inr (.mfa (.call call))

def Step.throw (error : Error) : Step := .inr (.throw error)

def decodeSize (data hexList : Bytes) (accHeaderSize : Nat) (info : Info) : Step :=
  if info.maxHeaderSize.any fun max => (accHeaderSize : Int) > max then
    .throw (.headerTooLong info.maxHeaderSize)
  else
    match data with
    | [] => .mfa (.decodeSize data hexList accHeaderSize info)
    | octet :: rest =>
      if crlf <+: data then
        match hexlistToInteger (hexList.dropWhile (· = 32)).reverse with
        | none => .throw (.chunkSize hexList.reverse)
        | some chunkSize =>
          if chunkSize = 0 then
            .inl (.ignoreExtensions data
              (remaingSize info.maxHeaderSize accHeaderSize) info.maxHeaderSize
              (.decodeTrailer [] [] [] info.body (integerToList info.accLength 10)))
          else .inl (.decodeData chunkSize
            (data.drop 2) { info with accLength := chunkSize + info.accLength })
      else if octet = semicolon then
        .inl (.ignoreExtensions rest
          (remaingSize info.maxHeaderSize accHeaderSize) info.maxHeaderSize
          (.decodeSize [] hexList accHeaderSize info))
      else if data = [cr] then .mfa (.decodeSize data hexList accHeaderSize info)
      else .inl (.decodeSize rest (octet :: hexList) (accHeaderSize + 1) info)

def ignoreExtensions (data : Bytes) (remainingSize totalMaxHeaderSize : Limit)
    (nextFunction : NextFunction) : Step :=
  if remainingSize = some 0 then .throw (.headerTooLong totalMaxHeaderSize)
  else
    match data with
    | [] => .mfa (.ignoreExtensions data remainingSize totalMaxHeaderSize nextFunction)
    | _ :: tail =>
      if crlf <+: data then
        match nextFunction with
        | .decodeTrailer rest header headers body bodyLength =>
          .inl (.decodeTrailer (rest ++
            data) header headers body bodyLength remainingSize totalMaxHeaderSize)
        | .decodeSize rest hexList accHeaderSize info =>
          .inl (.decodeSize (rest ++ data) hexList accHeaderSize info)
      else if data = [cr] then .mfa
        (.ignoreExtensions data remainingSize totalMaxHeaderSize nextFunction)
      else .inl (.ignoreExtensions tail
        (remaingSize remainingSize 1) totalMaxHeaderSize nextFunction)

/-- `Data:ChunkSize` fits no binary if the size is negative. -/
def decodeData (chunkSize : Int) (totalChunk : Bytes) (info : Info) : Step :=
  if 0 ≤ chunkSize ∧ chunkSize ≤ totalChunk.length then
    let body := info.body ++ totalChunk.take chunkSize.toNat
    let tail := totalChunk.drop chunkSize.toNat
    let next := NextFunction.decodeTrailer [] [] [] body (integerToList info.accLength 10)
    if tail = crlf ++ [zero, semicolon] then .inr (.mfa (.ignoreExtensions [] next))
    else if crlf ++ [zero, semicolon] <+: tail then
      .inl (.ignoreExtensions (tail.drop 4) info.maxHeaderSize info.maxHeaderSize next)
    else if tail = crlf ++ zero :: crlf then
      .mfa (.decodeTrailer crlf [] [] body
        (integerToList info.accLength 10) info.maxHeaderSize info.maxHeaderSize)
    else if crlf ++ zero :: crlf <+: tail then
      .inl (.decodeTrailer (crlf ++ tail.drop 5) [] [] body
        (integerToList info.accLength 10) info.maxHeaderSize
        info.maxHeaderSize)
    else if tail = crlf then .mfa (.decodeSize [] [] 0 { info with body := body })
    else if crlf <+: tail then
      if info.maxBodySize.all fun max => info.accLength < max then
        .inl (.decodeSize (tail.drop 2) [] 0 { info with body := body })
      else .throw (.bodyTooBig info.maxBodySize)
    else .mfa (.decodeData chunkSize totalChunk info)
  else .mfa (.decodeData chunkSize totalChunk info)

def decodeTrailer (data header : Bytes) (headers : List Bytes) (body bodyLength : Bytes)
    (remainingSize totalMaxHeaderSize : Limit) : Step :=
  if remainingSize = some 0 then .throw (.headerTooLong totalMaxHeaderSize)
  else
    match data with
    | [] =>
      .mfa (.decodeTrailer data header headers body bodyLength remainingSize totalMaxHeaderSize)
    | octet :: rest =>
      if crlf ++ crlf <+: data then
        if header = [] ∧ headers = [] then
          .inr (.ok [text "content-length:" ++ bodyLength] (body ++ data.drop 4))
        else
          let newHeaders := if header = [] then headers else header.reverse :: headers
          .inr (.ok ((text "content-length:" ++ bodyLength) :: newHeaders) (body ++ data.drop 4))
      else if data = crlf ++ [cr] ∨ data = crlf ∨ data = [cr] then
        .mfa (.decodeTrailer data header headers body bodyLength remainingSize totalMaxHeaderSize)
      else if crlf <+: data then
        .inl (.decodeTrailer (data.drop 2) []
          (header.reverse :: headers) body bodyLength remainingSize
          totalMaxHeaderSize)
      else
        .inl (.decodeTrailer rest (octet :: header) headers body bodyLength
          (remaingSize remainingSize 1)
          totalMaxHeaderSize)

def step : Call → Step
  | .decodeSize data hexList accHeaderSize info => decodeSize data hexList accHeaderSize info
  | .ignoreExtensions data remainingSize totalMaxHeaderSize nextFunction =>
    ignoreExtensions data remainingSize totalMaxHeaderSize nextFunction
  | .decodeData chunkSize totalChunk info => decodeData chunkSize totalChunk info
  | .decodeTrailer data header headers body bodyLength remainingSize totalMaxHeaderSize =>
    decodeTrailer data header headers body bodyLength remainingSize totalMaxHeaderSize

/-- The data that is left, and which function may call which without reading. -/
def Call.size : Call → Nat
  | .decodeSize data .. => 4 * data.length + 2
  | .ignoreExtensions data _ _ (.decodeSize rest ..) => 4 * (data.length + rest.length) + 3
  | .ignoreExtensions data _ _ (.decodeTrailer rest ..) => 4 * (data.length + rest.length) + 1
  | .decodeData _ totalChunk _ => 4 * totalChunk.length
  | .decodeTrailer data .. => 4 * data.length

theorem decodeSize_smaller (called : decodeSize data hexList accHeaderSize info = .inl next) :
    next.size < (Call.decodeSize data hexList accHeaderSize info).size := by
  unfold decodeSize at called
  repeat' split at called
  all_goals cases called
  all_goals simp only [Call.size, List.length_cons, List.length_drop, List.length_nil]
  all_goals omega

theorem ignoreExtensions_smaller
    (called : ignoreExtensions data remainingSize totalMaxHeaderSize nextFunction = .inl next) :
    next.size <
      (Call.ignoreExtensions data remainingSize totalMaxHeaderSize nextFunction).size := by
  unfold ignoreExtensions at called
  cases nextFunction
  all_goals
    dsimp only at called
    repeat' split at called
  all_goals cases called
  all_goals simp only [Call.size, List.length_cons, List.length_append]
  all_goals omega

theorem decodeData_smaller (called : decodeData chunkSize totalChunk info = .inl next) :
    next.size < (Call.decodeData chunkSize totalChunk info).size := by
  unfold decodeData at called
  dsimp only at called
  repeat' split at called
  all_goals cases called
  all_goals
    have long := List.IsPrefix.length_le ‹_ <+: _›
    simp only [Call.size, crlf, List.length_append, List.length_cons, List.length_drop,
      List.length_nil] at long ⊢
    omega

theorem decodeTrailer_smaller
    (called : decodeTrailer data header headers body bodyLength remainingSize totalMaxHeaderSize =
      .inl next) :
    next.size <
      (Call.decodeTrailer data header headers body bodyLength remainingSize totalMaxHeaderSize).size := by
  unfold decodeTrailer at called
  repeat' split at called
  all_goals cases called
  all_goals simp only [Call.size, List.length_cons, List.length_drop]
  all_goals omega

/-- The decoder. -/
def decoder : Program Call Outcome where
  step := step
  size := Call.size
  smaller := by
    intro call next called
    cases call with
    | decodeSize => exact decodeSize_smaller called
    | ignoreExtensions => exact ignoreExtensions_smaller called
    | decodeData => exact decodeData_smaller called
    | decodeTrailer => exact decodeTrailer_smaller called

def decode (chunkedBody : Bytes) (maxBodySize maxHeaderSize : Limit) : Outcome :=
  decoder.run (.decodeSize chunkedBody [] 0 ⟨maxBodySize, [], 0, maxHeaderSize⟩)

def Call.append (data : Bytes) : Call → Call
  | .decodeSize rest hexList accHeaderSize info =>
    .decodeSize (rest ++ data) hexList accHeaderSize info
  | .ignoreExtensions rest remainingSize totalMaxHeaderSize nextFunction =>
    .ignoreExtensions (rest ++ data) remainingSize totalMaxHeaderSize nextFunction
  | .decodeData chunkSize totalChunk info => .decodeData chunkSize (totalChunk ++ data) info
  | .decodeTrailer rest header headers body bodyLength remainingSize totalMaxHeaderSize =>
    .decodeTrailer (rest ++ data) header headers body bodyLength remainingSize totalMaxHeaderSize

/-- `Module:Function([Data | Args])`. Data behind an answer is appended to the body, where the
decoder puts what follows the chunks. -/
def Outcome.resume (outcome : Outcome) (data : Bytes) : Outcome :=
  match outcome with
  | .mfa (.call call) => decoder.run (call.append data)
  | .mfa (.ignoreExtensions ..) => .functionClause
  | .ok headers body => .ok headers (body ++ data)
  | .throw error => .throw error
  | .functionClause => .functionClause

end Otp.Inets
