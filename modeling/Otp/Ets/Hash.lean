import Mathlib
import Otp.Ets.Db

/-! The linear hash tables behind `set`, `bag` and `duplicate_bag` tables
(`erl_db_hash.c`). A bucket is the list of its nodes, a `HashDbTerm **` into it
the list before and the list from there on. Calls run one after the other, so a
resize is never in progress when another one starts. -/

namespace Otp.Ets

/-- What a table takes from terms: `GETKEY`, the hash of a key before the
modulus, and a tuple with another key. `EQ` is equality. -/
structure HashOps (Key Obj : Type) where
  getKey : Obj → Key
  hash : Key → Nat
  setKey : Obj → Key → Obj
  getKey_setKey : ∀ obj key, getKey (setKey obj key) = key

structure HashDbTerm (Obj : Type) where
  hvalue : Nat
  dbterm : Obj
  deriving DecidableEq, Repr

inductive HashType where
  | set | bag | duplicateBag
  deriving DecidableEq, Repr

inductive Access where
  | dbPublic | dbProtected | dbPrivate
  deriving DecidableEq, Repr

/-- The segments of the bucket array are left out: `bucket` is defined for every
index, and `nslots` is the number of buckets that exist. -/
structure DbTableHash (Obj : Type) where
  type : HashType
  access : Access
  fineLocked : Bool
  owner : Nat
  nitems : Int
  /-- The number of fixations, by processes and local. -/
  ref : Nat
  /-- The processes that fixed the table, with their counters. -/
  fixations : List (Nat × Nat)
  szm : Nat
  nactive : Nat
  nslots : Nat
  bucket : Nat → List (HashDbTerm Obj)
  /-- The slots with objects deleted while the table was fixed. -/
  fixdel : List Nat

def chainLen : Nat := 6
def segsz : Nat := 256
def segszMask : Nat := 255
def dbHashLockCnt : Nat := 64
def maxHash : Nat := 0xEFFFFFFF
def invalidHash : Nat := 0xFFFFFFFF

variable {Key Obj : Type}

section

variable (tb : DbTableHash Obj)

def isFixed : Bool := tb.ref != 0

/-- Whether the slots need no locks of their own, in a call that does not lock the
whole table for itself. `smp` tells whether the emulator has locks at all. -/
def isThreadSafe (smp : Bool) (tb : DbTableHash Obj) : Bool := !(smp && tb.fineLocked)

def onlyWriter (pid : Nat) (tb : DbTableHash Obj) : Bool :=
  (tb.access == .dbPrivate || tb.access == .dbProtected) && tb.owner == pid

def makeHash (ops : HashOps Key Obj) (key : Key) : Nat := ops.hash key % maxHash

def hashToIx (hval : Nat) : Nat :=
  let ix := hval &&& tb.szm
  if ix ≥ tb.nactive then ix &&& (tb.szm >>> 1) else ix

/-- The slot after `ix`, or `0` at the end of the table. With locks (`smp`), all
slots of one lock come before those of the next. -/
def nextSlot (smp : Bool) (nactive ix : Nat) : Nat :=
  if smp then
    let ix := ix + dbHashLockCnt
    if ix < nactive then ix else (ix + 1) &&& (dbHashLockCnt - 1)
  else if ix + 1 < nactive then ix + 1 else 0

/-- The slots that a loop over `next_slot` visits, from `ix` on. -/
def slotWalk (smp : Bool) (nactive : Nat) : Nat → Nat → List Nat
  | 0, _ => []
  | turns + 1, ix =>
    ix :: if nextSlot smp nactive ix = 0 then
      [] else slotWalk smp nactive turns (nextSlot smp nactive ix)

def setBucket (ix : Nat) (chain : List (HashDbTerm Obj)) : DbTableHash Obj :=
  { tb with bucket := Function.update tb.bucket ix chain }

/-- Not pseudo-deleted. -/
def HashDbTerm.isLive (b : HashDbTerm Obj) : Bool := b.hvalue != invalidHash

/-- `b` with its hash value overwritten: pseudo-deleted. -/
def HashDbTerm.pseudoDelete (b : HashDbTerm Obj) : HashDbTerm Obj :=
  { b with hvalue := invalidHash }

/-- Remember a slot with a pseudo-deleted object, unless only the caller has
fixed the table. -/
def addFixedDeletion (nfixed ix fixatedByMe : Nat) (fixdel : List Nat) : Option (List Nat) :=
  if nfixed ≤ fixatedByMe then none else some (ix :: fixdel)

def dbCreateHash : DbTableHash Obj :=
  { tb with szm := segszMask, nactive := segsz, nslots := segsz, bucket := fun _ => [], fixdel := [] }

/-- One more segment, with empty buckets. -/
def allocSeg : DbTableHash Obj :=
  { tb with
    nslots := tb.nslots + segsz
    bucket := fun ix => if tb.nslots ≤ ix ∧ ix < tb.nslots + segsz then [] else tb.bucket ix }

/-- The loop of `grow` over the bucket that is split. `walked` is the chain that
`p` is in and `other` the one that `to_pnext` ends; they change places
(`swapped`) with every node that does not stay with the one before it. -/
def splitBucket (szm : Nat) : Nat → Bool → List (HashDbTerm Obj) → List (HashDbTerm Obj) →
    List (HashDbTerm Obj) → List (HashDbTerm Obj) × List (HashDbTerm Obj)
  | _, swapped, walked, other, [] => if swapped then (other, walked) else (walked, other)
  | fromIx, swapped, walked, other, p :: rest =>
    if p.hvalue = invalidHash then splitBucket szm fromIx swapped walked other rest
    else
      let ix := p.hvalue &&& szm
      if ix ≠ fromIx then splitBucket szm ix (!swapped) (other ++ [p]) walked rest
      else splitBucket szm fromIx swapped (walked ++ [p]) other rest

/-- Ensure that the slot `nactive` exists. -/
def ensureSlot (nactive : Nat) : DbTableHash Obj :=
  if nactive = tb.nslots then allocSeg tb else tb

/-- The bucket to split, and the mask from then on. -/
def splitSource (nactive : Nat) : Nat × Nat :=
  if nactive ≤ tb.szm then (nactive &&& (tb.szm >>> 1), tb.szm) else (0, tb.szm <<< 1 ||| 1)

def splitInto (nactive fromIx szm : Nat) : DbTableHash Obj :=
  let parts := splitBucket szm fromIx false [] [] (tb.bucket fromIx)
  { setBucket (setBucket tb fromIx parts.1) nactive parts.2 with
    nactive := nactive + 1
    szm := if fromIx = 0 then szm else tb.szm }

/-- Grow the table by one bucket. `room` tells whether a segment can be allocated. -/
def grow (nactive : Nat) (room : Bool) : DbTableHash Obj :=
  if tb.nactive ≠ nactive then tb
  else if nactive = tb.nslots ∧ room = false then tb
  else
    let tb := ensureSlot tb nactive
    let (fromIx, szm) := splitSource tb nactive
    if isFixed tb then tb else splitInto tb nactive fromIx szm

/-- Shrink the table by joining its top bucket to a lower one. -/
def shrink (nactive : Nat) : DbTableHash Obj :=
  if tb.nactive ≠ nactive then tb
  else
    let srcIx := nactive - 1
    let lowSzm := tb.szm >>> 1
    let dstIx := srcIx &&& lowSzm
    if isFixed tb then tb
    else
      let joined := (tb.bucket srcIx).filter HashDbTerm.isLive ++ tb.bucket dstIx
      let tb := setBucket (setBucket tb dstIx joined) srcIx []
      { tb with
        nactive := srcIx
        szm := if dstIx = 0 then lowSzm else tb.szm
        nslots := if tb.nslots - srcIx ≥ segsz then tb.nslots - segsz else tb.nslots }

def tryShrink : DbTableHash Obj :=
  if tb.nactive > segsz ∧ cInt tb.nitems < cInt (tb.nactive * chainLen) ∧ isFixed tb = false then
    shrink tb tb.nactive
  else tb

/-- The growth check after a new object. -/
def tryGrow (room : Bool) : DbTableHash Obj :=
  if cInt tb.nitems > cInt (tb.nactive * (chainLen + 1)) ∧ isFixed tb = false then
    grow tb tb.nactive room
  else tb

/-- How the deleting functions end. -/
def addNitems (nitemsDiff : Int) : DbTableHash Obj :=
  if nitemsDiff ≠ 0 then tryShrink { tb with nitems := tb.nitems + nitemsDiff } else tb

/-- Free the pseudo-deleted objects of one slot. -/
def purgeSlot (ix : Nat) : DbTableHash Obj :=
  if ix < tb.nactive then setBucket tb ix ((tb.bucket ix).filter HashDbTerm.isLive) else tb

def dbUnfixTableHash : DbTableHash Obj :=
  if isFixed tb then tb else { tb.fixdel.foldl purgeSlot tb with fixdel := [] }

def localFixTable : DbTableHash Obj := { tb with ref := tb.ref + 1 }

def localUnfixTable : DbTableHash Obj :=
  let tb := { tb with ref := tb.ref - 1 }
  if tb.ref = 0 then dbUnfixTableHash tb else tb

def addFixation (pid : Nat) : List (Nat × Nat) → Option (List (Nat × Nat))
  | [] => none
  | (other, counter) :: rest =>
    if other = pid then some ((other, counter + 1) :: rest)
    else (addFixation pid rest).map ((other, counter) :: ·)

def fixTableLocked (pid : Nat) : DbTableHash Obj :=
  { tb with
    ref := tb.ref + 1
    fixations := (addFixation pid tb.fixations).getD ((pid, 1) :: tb.fixations) }

/-- One fixation less of a process, `none` if it has none. -/
def dropFixation (pid : Nat) : List (Nat × Nat) → Option (List (Nat × Nat))
  | [] => none
  | (other, counter) :: rest =>
    if other = pid then some (if counter - 1 > 0 then (other, counter - 1) :: rest else rest)
    else (dropFixation pid rest).map ((other, counter) :: ·)

def releaseFixation (pid : Nat) : DbTableHash Obj :=
  match dropFixation pid tb.fixations with
  | some fixations => { tb with ref := tb.ref - 1, fixations }
  | none => tb

def unfixTableLocked (pid : Nat) : DbTableHash Obj :=
  let tb := releaseFixation tb pid
  if isFixed tb = false ∧ tb.fixdel ≠ [] then dbUnfixTableHash tb else tb

/-- `ets:safe_fixtable/2`. -/
def etsSafeFixtable (pid : Nat) (fix : Bool) : DbTableHash Obj :=
  if fix then fixTableLocked tb pid
  else if isFixed tb then unfixTableLocked tb pid
  else tb

end

section

variable [DecidableEq Key] (ops : HashOps Key Obj)

def hasLiveKey (b : HashDbTerm Obj) (key : Key) (hval : Nat) : Bool :=
  if b.hvalue ≠ hval then false else key = ops.getKey b.dbterm

def hasKey (b : HashDbTerm Obj) (key : Key) (hval : Nat) : Bool :=
  if b.hvalue ≠ hval ∧ b.hvalue ≠ invalidHash then false else key = ops.getKey b.dbterm

/-- Copies of the live objects, each before those copied earlier. -/
def buildTermList (nodes : List (HashDbTerm Obj)) : List Obj :=
  nodes.foldl (fun list ptr => if ptr.hvalue ≠ invalidHash then ptr.dbterm :: list else list) []

/-- The nodes from the first live object of a key to `bend`, and the rest. -/
def keyRange (type : HashType) (key : Key) (hval : Nat) (b1 : HashDbTerm Obj)
    (rest : List (HashDbTerm Obj)) : List (HashDbTerm Obj) × List (HashDbTerm Obj) :=
  if type = .set then ([b1], rest)
  else
    let (more, bend) := rest.span fun b2 => hasKey ops b2 key hval
    (b1 :: more, bend)

def getTermList (type : HashType) (key : Key) (hval : Nat) (b1 : HashDbTerm Obj)
    (rest : List (HashDbTerm Obj)) : List Obj :=
  buildTermList (keyRange ops type key hval b1 rest).1

section

variable (tb : DbTableHash Obj)

def dbGetHash (key : Key) : List Obj :=
  let hval := makeHash ops key
  match (tb.bucket (hashToIx tb hval)).dropWhile fun b => !hasLiveKey ops b key hval with
  | [] => []
  | b :: rest => getTermList ops tb.type key hval b rest

/-- A bucket after a deleting loop, with the change of `nitems` and `fixdel`. -/
structure Deletion (Obj : Type) where
  chain : List (HashDbTerm Obj)
  nitemsDiff : Int
  fixdel : List Nat

def Deletion.keep (deletion : Deletion Obj) (b : HashDbTerm Obj) : Deletion Obj :=
  { deletion with chain := b :: deletion.chain }

/-- Store what a deleting loop left of a bucket. -/
def finishDeletion (ix : Nat) (deletion : Deletion Obj) : DbTableHash Obj :=
  addNitems { setBucket tb ix deletion.chain with fixdel := deletion.fixdel } deletion.nitemsDiff

/-- The loop of `db_erase_hash`. `IS_FIXED` is part of the test in
`add_fixed_deletion`. -/
def eraseLoop (nfixed ix : Nat) (key : Key) (hval : Nat) :
    List (HashDbTerm Obj) → Int → List Nat → Deletion Obj
  | [], nitemsDiff, fixdel => ⟨[], nitemsDiff, fixdel⟩
  | b :: rest, nitemsDiff, fixdel =>
    if hasLiveKey ops b key hval then
      -- only the first object of the key is kept, pseudo-deleted
      match if nitemsDiff - 1 = -1 then addFixedDeletion nfixed ix 0 fixdel else none with
      | some fixdel =>
        (eraseLoop nfixed ix key hval rest (nitemsDiff - 1) fixdel).keep b.pseudoDelete
      | none => eraseLoop nfixed ix key hval rest (nitemsDiff - 1) fixdel
    else if nitemsDiff ≠ 0 ∧ b.hvalue ≠ invalidHash then ⟨b :: rest, nitemsDiff, fixdel⟩
    else (eraseLoop nfixed ix key hval rest nitemsDiff fixdel).keep b

def dbEraseHash (key : Key) : DbTableHash Obj :=
  let hval := makeHash ops key
  let ix := hashToIx tb hval
  finishDeletion tb ix (eraseLoop ops tb.ref ix key hval (tb.bucket ix) 0 tb.fixdel)

/-- The loop of `db_take_hash` from the first live object to `bend`. -/
def takeLoop (nfixed ix : Nat) : List (HashDbTerm Obj) → Int → List Nat → Deletion Obj
  | [], nitemsDiff, fixdel => ⟨[], nitemsDiff, fixdel⟩
  | b :: rest, nitemsDiff, fixdel =>
    match if nitemsDiff - 1 = -1 then addFixedDeletion nfixed ix 0 fixdel else none with
    | some fixdel => (takeLoop nfixed ix rest (nitemsDiff - 1) fixdel).keep b.pseudoDelete
    | none => takeLoop nfixed ix rest (nitemsDiff - 1) fixdel

def dbTakeHash (key : Key) : DbTableHash Obj × List Obj :=
  let hval := makeHash ops key
  let ix := hashToIx tb hval
  match (tb.bucket ix).span fun b => !hasLiveKey ops b key hval with
  | (_, []) => (tb, [])
  | (passed, b :: rest) =>
    let (range, bend) := keyRange ops tb.type key hval b rest
    let taken := takeLoop tb.ref ix range 0 tb.fixdel
    (finishDeletion tb ix { taken with chain := passed ++ taken.chain ++ bend },
      getTermList ops tb.type key hval b rest)

end

variable [DecidableEq Obj]

/-- The loop of `db_erase_object_hash`. -/
def eraseObjectLoop (type : HashType) (nfixed ix : Nat) (object : Obj) (key : Key) (hval : Nat) :
    List (HashDbTerm Obj) → Nat → Int → List Nat → Deletion Obj
  | [], _, nitemsDiff, fixdel => ⟨[], nitemsDiff, fixdel⟩
  | b :: rest, nkeys, nitemsDiff, fixdel =>
    if hasLiveKey ops b key hval then
      if b.dbterm = object then
        match if nkeys + 1 = 1 then addFixedDeletion nfixed ix 0 fixdel else none with
        | some fixdel =>
          if type = .duplicateBag then
            (eraseObjectLoop type nfixed ix object key hval rest (nkeys + 1) (nitemsDiff - 1)
              fixdel).keep b.pseudoDelete
          else ⟨b.pseudoDelete :: rest, nitemsDiff - 1, fixdel⟩
        | none =>
          if type = .duplicateBag then
            eraseObjectLoop type nfixed ix object key hval rest (nkeys + 1) (nitemsDiff - 1) fixdel
          else ⟨rest, nitemsDiff - 1, fixdel⟩
      else
        (eraseObjectLoop type nfixed ix object key hval rest (nkeys + 1) nitemsDiff fixdel).keep b
    else if nitemsDiff ≠ 0 ∧ b.hvalue ≠ invalidHash then ⟨b :: rest, nitemsDiff, fixdel⟩
    else (eraseObjectLoop type nfixed ix object key hval rest nkeys nitemsDiff fixdel).keep b

def dbEraseObjectHash (tb : DbTableHash Obj) (object : Obj) : DbTableHash Obj :=
  let key := ops.getKey object
  let hval := makeHash ops key
  let ix := hashToIx tb hval
  finishDeletion tb ix (eraseObjectLoop ops tb.type tb.ref ix object key hval
    (tb.bucket ix) 0 0 tb.fixdel)

/-- `Lnew`: a new node between `passed` and `rest`. -/
def linkNew (tb : DbTableHash Obj) (ix hval : Nat) (obj : Obj)
    (passed rest : List (HashDbTerm Obj)) (room : Bool) : DbTableHash Obj :=
  let tb := setBucket tb ix (passed ++ ⟨hval, obj⟩ :: rest)
  tryGrow { tb with nitems := tb.nitems + 1 } room

def dbPutHash (tb : DbTableHash Obj) (obj : Obj) (keyClashFail room : Bool) :
    DbTableHash Obj × DbError :=
  let key := ops.getKey obj
  let hval := makeHash ops key
  let ix := hashToIx tb hval
  match (tb.bucket ix).span fun b => !hasKey ops b key hval with
  | (passed, []) => (linkNew tb ix hval obj passed [] room, .none)
  | (passed, b :: bnext) =>
    let (group, behind) := (b :: bnext).span fun q => hasKey ops q key hval
    match tb.type with
    | .set =>
      let replaced := setBucket tb ix (passed ++ ⟨hval, obj⟩ :: bnext)
      if b.hvalue = invalidHash then ({ replaced with nitems := tb.nitems + 1 }, .none)
      else if keyClashFail then (tb, .badKey)
      else (replaced, .none)
    | type =>
      if keyClashFail then
        if group.any HashDbTerm.isLive then (tb, .badKey)
        else (linkNew tb ix hval obj passed (b :: bnext) room, .none)
      else if type = .bag then
        match group.span fun q => decide (q.dbterm ≠ obj) with
        | (_, []) => (linkNew tb ix hval obj passed (b :: bnext) room, .none)
        | (newer, q :: older) =>
          if q.hvalue = invalidHash then
            -- revived, and moved to the front to preserve key insertion order
            let chain := passed ++ { q with hvalue := hval } :: newer ++ older ++ behind
            ({ setBucket tb ix chain with nitems := tb.nitems + 1 }, .none)
          else (tb, .none)
      else (linkNew tb ix hval obj passed (b :: bnext) room, .none)

end

end Otp.Ets
