import Otp.Library.BigEndian
import Mathlib.Data.List.Infix

/-! Internal logs: the writing and the reading half of `disk_log_1.erl`. The file system does what
it is told, writes go to the end of the file, and the write cache is an iolist that is kept
flat. -/

namespace Otp.DiskLog

open Otp.Library

abbrev Bytes := List UInt8

/-- The result of `erlang:md5/1`. -/
abbrev Digest := { digest : Bytes // digest.length = 16 }

def headSz : Nat := 8

def sizeSz : Nat := 4

def magicSz : Nat := 4

def headerSz : Nat := 8

def magicInt : Nat := 203500599

def bigMagicHead : Bytes := [98, 87, 76, 65]

def bigMagicInt : Nat := 1649888321

def minMd5Term : Nat := 65528

def maxChunkSize : Nat := 65536

def logMagic : Bytes := [1, 2, 3, 4]

def opened : Bytes := [6, 7, 8, 9]

/-- `MAX`, the bytes in the cache. -/
def maxCache : Nat := 16384

section Writing

variable (md5 : Bytes → Digest)

def logl : List Bytes → Bytes → Nat → Bytes × Nat
  | x :: t, bs, size =>
    let sz := x.length
    let bSz := toBytes sizeSz sz
    let nBs :=
      if sz < minMd5Term then bs ++ bSz ++ bigMagicHead ++ x
      else bs ++ bSz ++ bigMagicHead ++ (md5 bSz).1 ++ x
    logl t nBs (size + headerSz + sz)
  | [], bs, size => (bs, size)

/-- `fd` is what the file holds. -/
structure Cache where
  fd : Bytes
  sz : Nat
  c : Bytes
deriving DecidableEq, Repr

def writeCache (fdC : Cache) : Cache :=
  if fdC.c = [] then ⟨fdC.fd, 0, []⟩ else ⟨fdC.fd ++ fdC.c, 0, []⟩

def fwrite (fdC : Cache) (b : Bytes) (size : Nat) : Cache :=
  if fdC.c = [] then { fdC with sz := size, c := b }
  else if fdC.sz < maxCache then { fdC with sz := fdC.sz + size, c := fdC.c ++ b }
  else writeCache { fdC with c := fdC.c ++ b }

def log (fdC : Cache) (x : List Bytes) : Cache :=
  let (bs, size) := logl md5 x [] 0
  fwrite fdC bs size

/-- Without a head. -/
def newIntFile : Cache := ⟨logMagic ++ opened, 0, []⟩

end Writing

/-- Bytes that have been read, or how many are to be read. -/
inductive Buffer where
  | binary (b : Bytes)
  | noBytes (noBytes : Option Nat)
deriving DecidableEq, Repr

structure Continuation where
  pos : Nat
  b : Buffer
deriving DecidableEq, Repr

/-- `none` is `eof`. -/
def pread (fdC : Cache) (position maxBytes : Nat) : Cache × Option Bytes :=
  let fdC := writeCache fdC
  let bin := (fdC.fd.drop position).take maxBytes
  (fdC, if bin = [] then none else some bin)

/-- The position goes back to the end of the file. -/
def readChunk (fdC : Cache) (pos maxBytes : Nat) : Cache × Option Bytes :=
  let (fdC1, r) := pread fdC (pos + headSz) maxBytes
  (writeCache fdC1, r)

def readChunkRo (fdC : Cache) (pos maxBytes : Nat) : Cache × Option Bytes :=
  pread fdC (pos + headSz) maxBytes

section Chunks

variable (md5 : Bytes → Digest)

/-- `none` is `corrupt`. -/
def handleChunk (b : Bytes) (pos n : Nat) (ack : List Bytes) : Option (Continuation × List Bytes) :=
  if b.length < headerSz then some (⟨pos - b.length, .noBytes none⟩, ack)
  else if n = 0 then some (⟨pos, .binary b⟩, ack)
  else
    let size := ofBytes (b.take sizeSz)
    let magic := ofBytes ((b.drop sizeSz).take magicSz)
    let tail := b.drop headerSz
    if magic = bigMagicInt ∧ size < minMd5Term then
      if size ≤ tail.length then handleChunk (tail.drop size) pos (n - 1) (tail.take size :: ack)
      else some (⟨pos - b.length, .noBytes (some (size + headerSz))⟩, ack)
    else if magic = bigMagicInt then
      if (md5 (toBytes sizeSz size)).1 <+: tail then
        if tail.length = 16 + size then some (⟨pos, .noBytes none⟩, tail.drop 16 :: ack)
        else some (⟨pos - b.length, .noBytes (some (size + headerSz + 16))⟩, ack)
      else if 16 ≤ tail.length then none
      else some (⟨pos - b.length, .noBytes none⟩, ack)
    else if magic = magicInt then
      if size ≤ tail.length then handleChunk (tail.drop size) pos (n - 1) (tail.take size :: ack)
      else some (⟨pos - b.length, .noBytes (some (size + headerSz))⟩, ack)
    else none
termination_by b.length
decreasing_by all_goals simp only [List.length_drop, headerSz] at *; omega

/-- `bad` counts the bytes that were skipped. -/
def handleChunkRo (b : Bytes) (pos n : Nat) (ack : List Bytes) (bad : Nat) :
    Continuation × List Bytes × Nat :=
  if b.length < headerSz then (⟨pos - b.length, .noBytes none⟩, ack, bad)
  else if n = 0 then (⟨pos, .binary b⟩, ack, bad)
  else
    let size := ofBytes (b.take sizeSz)
    let magic := ofBytes ((b.drop sizeSz).take magicSz)
    let tail := b.drop headerSz
    if magic = bigMagicInt ∧ size < minMd5Term then
      if size ≤ tail.length then
        handleChunkRo (tail.drop size) pos (n - 1) (tail.take size :: ack) bad
      else (⟨pos - b.length, .noBytes (some (size + headerSz))⟩, ack, bad)
    else if magic = bigMagicInt then
      if (md5 (toBytes sizeSz size)).1 <+: tail then
        if tail.length = 16 + size then (⟨pos, .noBytes none⟩, tail.drop 16 :: ack, bad)
        else (⟨pos - b.length, .noBytes (some (size + headerSz + 16))⟩, ack, bad)
      else if 17 ≤ tail.length then handleChunkRo (tail.drop 17) pos (n - 1) ack (bad + 1)
      else (⟨pos - b.length, .noBytes none⟩, ack, bad)
    else if magic = magicInt then
      if size ≤ tail.length then
        handleChunkRo (tail.drop size) pos (n - 1) (tail.take size :: ack) bad
      else (⟨pos - b.length, .noBytes (some (size + headerSz))⟩, ack, bad)
    else handleChunkRo (b.drop 1) pos (n - 1) ack (bad + 1)
termination_by b.length
decreasing_by all_goals simp only [List.length_drop, headerSz] at *; omega

inductive Reply where
  | ok (c : Continuation) (ack : List Bytes)
  | corruptLogFile
  | eof
  | badmatch
deriving DecidableEq, Repr

inductive ReplyRo where
  | ok (c : Continuation) (ack : List Bytes) (bad : Nat)
  | eof
  | badmatch
deriving DecidableEq, Repr

/-- `again` is `chunk`. -/
def doHandleChunk (again : Cache → Nat → Buffer → Nat → Option (Cache × Reply)) (fdC : Cache)
    (pos : Nat) (b : Bytes) (n : Nat) : Option (Cache × Reply) :=
  match handleChunk md5 b pos n [] with
  | none => some (fdC, .corruptLogFile)
  | some (c, []) => again fdC c.pos c.b n
  | some (c, ack) => some (fdC, .ok c ack)

def maxNoBytes (noBytes : Option Nat) : Nat := noBytes.elim maxChunkSize (max · maxChunkSize)

/-- `chunk` reads again until there is an item, which may go on for ever on a broken file: `none`
is no answer after so many calls. -/
def chunk : Nat → Cache → Nat → Buffer → Nat → Option (Cache × Reply)
  | 0, _, _, _, _ => none
  | calls + 1, fdC, pos, .binary b, n =>
    if b.length < headerSz then some (fdC, .badmatch)
    else doHandleChunk md5 (chunk calls) fdC pos b n
  | calls + 1, fdC, pos, .noBytes noBytes, n =>
    match readChunk fdC pos (maxNoBytes noBytes) with
    | (newFdC, some bin) =>
      if bin.length < headerSz then some (newFdC, .corruptLogFile)
      else if noBytes.all (· ≤ bin.length) then
        doHandleChunk md5 (chunk calls) newFdC (pos + bin.length) bin n
      else some (newFdC, .corruptLogFile)
    | (newFdC, none) =>
      if noBytes.isSome then some (newFdC, .corruptLogFile) else some (newFdC, .eof)

/-- `again` is `do_chunk_read_only`. -/
def doHandleChunkRo (again : Cache → Nat → Buffer → Nat → Option (Cache × ReplyRo))
    (fdC : Cache) (pos : Nat) (b : Bytes) (n : Nat) : Option (Cache × ReplyRo) :=
  match handleChunkRo md5 b pos n [] 0 with
  | (c, [], 0) => again fdC c.pos c.b n
  | (c, ack, bad) => some (fdC, .ok c ack bad)

def chunkReadOnly : Nat → Cache → Nat → Buffer → Nat → Option (Cache × ReplyRo)
  | 0, _, _, _, _ => none
  | calls + 1, fdC, pos, .binary b, n =>
    if b.length < headerSz then some (fdC, .badmatch)
    else doHandleChunkRo md5 (chunkReadOnly calls) fdC pos b n
  | calls + 1, fdC, pos, .noBytes noBytes, n =>
    match readChunkRo fdC pos (maxNoBytes noBytes) with
    | (newFdC, some bin) =>
      if bin.length < headerSz then
        some (newFdC, .ok ⟨pos + bin.length, .noBytes none⟩ [] bin.length)
      else if noBytes.all (· ≤ bin.length) then
        doHandleChunkRo md5 (chunkReadOnly calls) newFdC (pos + bin.length) bin n
      else some (newFdC, .ok ⟨pos + bin.length, .noBytes none⟩ [] (bin.length - headerSz))
    | (newFdC, none) => some (newFdC, .eof)

end Chunks

end Otp.DiskLog
