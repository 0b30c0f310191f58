import Otp.Ets.Hash

/-! The operations on hash tables that reach further than one key, the update of
an object in place, and the steps a table can take. -/

namespace Otp.Ets

variable {Key Obj : Type}

/-- What a head of a match specification says about the key. -/
inductive HeadKey (Key : Type) where
  | unbound
  | missing
  | bound (key : Key)

/-- A compiled match specification. -/
structure MatchSpec (Key Obj : Type) where
  heads : List (HeadKey Key)
  accept : Obj → Bool

structure HashMpInfo where
  keyGiven : Bool
  somethingCanMatch : Bool
  lists : List Nat

section

variable [DecidableEq Key] (ops : HashOps Key Obj) (smp : Bool)

/-- Whether the slot of a key is to be searched. Under locks, other writers may
bring the key in before the search. -/
def searchSlot (tb : DbTableHash Obj) (key : Key) : Bool :=
  if isThreadSafe smp tb then
    (tb.bucket (hashToIx tb (makeHash ops key))).any fun b =>
      hasLiveKey ops b key (makeHash ops key)
  else true

def analyzeHeadHash (tb : DbTableHash Obj) (mpi : HashMpInfo) (head : HeadKey Key) : HashMpInfo :=
  if !mpi.keyGiven then mpi
  else match head with
    | .unbound => { mpi with keyGiven := false, somethingCanMatch := true }
    | .missing => mpi
    | .bound key =>
      let ix := hashToIx tb (makeHash ops key)
      if searchSlot ops smp tb key then
        { mpi with
          somethingCanMatch := true
          lists := if ix ∈ mpi.lists then mpi.lists else mpi.lists ++ [ix] }
      else mpi

def analyzePatternHash (tb : DbTableHash Obj) (heads : List (HeadKey Key)) : HashMpInfo :=
  heads.foldl (analyzeHeadHash ops smp tb) ⟨true, false, []⟩

end

/-- The counters of a running `select_delete`. -/
structure Scan where
  numLeft : Int
  got : Nat
  lastPseudoDelete : Option Nat
  fixdel : List Nat

/-- Whether the object is kept as pseudo-deleted: then with the slot registered,
once for all deletions in it. -/
def pseudoDeleteIn (nfixed fixatedByMe slotIx : Nat) (scan : Scan) : Option Scan :=
  if nfixed > fixatedByMe then
    if scan.lastPseudoDelete ≠ some slotIx then
      (addFixedDeletion nfixed slotIx fixatedByMe scan.fixdel).map fun fixdel =>
        { scan with fixdel, lastPseudoDelete := some slotIx }
    else some scan
  else none

/-- The loop of `select_delete` over one bucket. -/
def deleteChain (accept : Obj → Bool) (nfixed fixatedByMe slotIx : Nat) :
    List (HashDbTerm Obj) → Scan → List (HashDbTerm Obj) × Scan
  | [], scan => ([], scan)
  | b :: rest, scan =>
    if b.hvalue = invalidHash then
      let (chain, scan) := deleteChain accept nfixed fixatedByMe slotIx rest scan
      (b :: chain, scan)
    else if accept b.dbterm then
      match pseudoDeleteIn nfixed fixatedByMe slotIx scan with
      | some scan =>
        let (chain, scan) := deleteChain accept nfixed fixatedByMe slotIx rest
          { scan with got := scan.got + 1, numLeft := scan.numLeft - 1 }
        (b.pseudoDelete :: chain, scan)
      | none =>
        deleteChain accept nfixed fixatedByMe slotIx rest
          { scan with got := scan.got + 1, numLeft := scan.numLeft - 1 }
    else
      let (chain, scan) := deleteChain accept nfixed fixatedByMe slotIx rest
        { scan with numLeft := scan.numLeft - 1 }
      (b :: chain, scan)

/-- The search of one slot. -/
def deleteSlot (accept : Obj → Bool) (fixatedByMe : Nat) (tb : DbTableHash Obj) (scan : Scan)
    (slotIx : Nat) : DbTableHash Obj × Scan :=
  let after := deleteChain accept tb.ref fixatedByMe slotIx (tb.bucket slotIx) scan
  ({ setBucket tb slotIx after.1 with
      fixdel := after.2.fixdel
      nitems := tb.nitems - (after.2.got - scan.got : Int) }, after.2)

/-- The loop over the slots. A search of the whole table (`trapping`) gives up
before a slot once `numLeft` is used up, and returns this slot. -/
def deleteSlots (accept : Obj → Bool) (fixatedByMe : Nat) (trapping : Bool) :
    List Nat → DbTableHash Obj → Scan → DbTableHash Obj × Scan × Option Nat
  | [], tb, scan => (tb, scan, none)
  | slotIx :: rest, tb, scan =>
    let after := deleteSlot accept fixatedByMe tb scan slotIx
    match rest with
    | [] => (after.1, after.2, none)
    | nextIx :: _ =>
      if trapping ∧ after.2.numLeft ≤ 0 then (after.1, after.2, some nextIx)
      else deleteSlots accept fixatedByMe trapping rest after.1 after.2

/-- What a call answers. -/
inductive HashReply (Obj : Type) where
  | done
  | error (code : DbError)
  | objects (list : List Obj)
  | deleted (got : Nat)
  | trap (slotIx got : Nat)

/-- How both functions below end. -/
def finishSelectDelete (result : DbTableHash Obj × Scan × Option Nat) :
    DbTableHash Obj × HashReply Obj :=
  match result with
  | (tb, scan, some slotIx) => (tb, .trap slotIx scan.got)
  | (tb, scan, none) => (if scan.got ≠ 0 then tryShrink tb else tb, .deleted scan.got)

section

variable [DecidableEq Key] (ops : HashOps Key Obj) (smp : Bool)

/-- `db_select_delete_hash`; `none` for a match specification that does not compile. -/
def dbSelectDeleteHash (tb : DbTableHash Obj) (spec : Option (MatchSpec Key Obj)) :
    DbTableHash Obj × HashReply Obj :=
  match spec with
  | none => (tb, .error .badParam)
  | some spec =>
    let fixatedByMe := if isThreadSafe smp tb then 0 else 1
    let mpi := analyzePatternHash ops smp tb spec.heads
    if !mpi.somethingCanMatch then (tb, .deleted 0)
    else
      let slots := if mpi.keyGiven then mpi.lists else slotWalk smp tb.nactive tb.nactive 0
      finishSelectDelete
        (deleteSlots spec.accept fixatedByMe (!mpi.keyGiven) slots tb ⟨1000, 0, none, tb.fixdel⟩)

end

/-- `db_select_delete_continue_hash`, with the program, slot and count of the
continuation. -/
def dbSelectDeleteContinueHash (smp : Bool) (pid : Nat) (tb : DbTableHash Obj)
    (accept : Obj → Bool) (slotIx got : Nat) : DbTableHash Obj × HashReply Obj :=
  let fixatedByMe := if onlyWriter pid tb then 0 else 1
  if slotIx ≥ tb.nactive then (if got ≠ 0 then tryShrink tb else tb, .deleted got)
  else
    finishSelectDelete (deleteSlots accept fixatedByMe true
      (slotWalk smp tb.nactive tb.nactive slotIx) tb
        ⟨1000, got, none, tb.fixdel⟩)

inductive DbIterSafety where
  | iterUnsafe | iterSafeLocked | iterSafe
  deriving DecidableEq, Repr

def iterationSafety (smp : Bool) (pid : Nat) (tb : DbTableHash Obj) : DbIterSafety :=
  if onlyWriter pid tb then .iterSafe
  else if smp && tb.fineLocked then .iterUnsafe
  else .iterSafeLocked

def HashReply.didTrap : HashReply Obj → Bool
  | .trap _ _ => true
  | _ => false

/-- `ets_select_delete_2`. -/
def etsSelectDelete [DecidableEq Key] (ops : HashOps Key Obj) (smp : Bool) (tb : DbTableHash Obj)
    (pid : Nat) (spec : Option (MatchSpec Key Obj)) : DbTableHash Obj × HashReply Obj :=
  let safety := iterationSafety smp pid tb
  let tb := if safety = .iterUnsafe then localFixTable tb else tb
  let (tb, reply) := dbSelectDeleteHash ops smp tb spec
  let tb := if reply.didTrap ∧ safety ≠ .iterSafe then fixTableLocked tb pid else tb
  (if safety = .iterUnsafe then localUnfixTable tb else tb, reply)

/-- `ets_select_delete_1`, where a trapped `select_delete` goes on. -/
def etsSelectDeleteContinue (smp : Bool) (tb : DbTableHash Obj) (pid : Nat) (accept : Obj → Bool)
    (slotIx got : Nat) : DbTableHash Obj × HashReply Obj :=
  let safety := iterationSafety smp pid tb
  let (tb, reply) := dbSelectDeleteContinueHash smp pid tb accept slotIx got
  (if reply.didTrap = false ∧ safety ≠ .iterSafe then unfixTableLocked tb pid else tb, reply)

def markSlotDeleted (tb : DbTableHash Obj) (ix : Nat) : DbTableHash Obj :=
  if tb.bucket ix = [] then tb
  else { setBucket tb ix ((tb.bucket ix).map HashDbTerm.pseudoDelete) with
    fixdel := (addFixedDeletion tb.ref ix 0 tb.fixdel).getD tb.fixdel }

def dbMarkAllDeletedHash (tb : DbTableHash Obj) : DbTableHash Obj :=
  { (List.range tb.nactive).foldl markSlotDeleted tb with nitems := 0 }

def dbDeleteAllObjectsHash (tb : DbTableHash Obj) : DbTableHash Obj :=
  if isFixed tb then dbMarkAllDeletedHash tb else { dbCreateHash tb with nitems := 0 }

/-- The node under update, in its bucket, and the flags `DB_NEW_OBJECT` and
`DB_INC_TRY_GROW`. -/
structure DbUpdateHandle (Obj : Type) where
  ix : Nat
  before : List (HashDbTerm Obj)
  node : HashDbTerm Obj
  behind : List (HashDbTerm Obj)
  newObject : Bool
  incTryGrow : Bool

section

variable [DecidableEq Key] (ops : HashOps Key Obj)

/-- `db_lookup_dbterm_hash`: the object under `key`, or the default with this key. -/
def dbLookupDbtermHash (tb : DbTableHash Obj) (key : Key) (obj : Option Obj) :
    Option (DbTableHash Obj × DbUpdateHandle Obj) :=
  let hval := makeHash ops key
  let ix := hashToIx tb hval
  match (tb.bucket ix).span (fun b => !hasKey ops b key hval), obj with
  | (before, []), some obj =>
    let q := ⟨hval, ops.setKey obj key⟩
    some (setBucket tb ix (before ++ [q]), ⟨ix, before, q, [], true, true⟩)
  | (_, []), none => none
  | (before, b :: behind), obj =>
    if b.hvalue ≠ invalidHash then some (tb, ⟨ix, before, b, behind, false, false⟩)
    else match obj with
      | none => none
      | some obj =>
        let q := ⟨hval, ops.setKey obj key⟩
        some ({ setBucket tb ix (before ++ q :: behind) with nitems := tb.nitems + 1 },
          ⟨ix, before, q, behind, true, false⟩)

end

/-- `db_finalize_dbterm_hash`: the outcome of the update and the object it left. -/
def dbFinalizeDbtermHash (tb : DbTableHash Obj) (cret : DbError) (dbterm : Obj)
    (handle : DbUpdateHandle Obj) (room : Bool) : DbTableHash Obj :=
  let b := { handle.node with dbterm }
  if handle.newObject ∧ cret ≠ .none then
    let tb := match addFixedDeletion tb.ref (hashToIx tb b.hvalue) 0 tb.fixdel with
      | some fixdel =>
        { setBucket tb handle.ix (handle.before ++ b.pseudoDelete :: handle.behind) with fixdel }
      | none => setBucket tb handle.ix (handle.before ++ handle.behind)
    tryShrink { tb with nitems := tb.nitems - 1 }
  else
    let tb := setBucket tb handle.ix (handle.before ++ b :: handle.behind)
    if handle.incTryGrow then tryGrow { tb with nitems := tb.nitems + 1 } room else tb

/-- The calls on a table. An update computes the object and the outcome from the
object that was found. -/
inductive HashOp (Key Obj : Type) where
  | put (obj : Obj) (keyClashFail room : Bool)
  | get (key : Key)
  | erase (key : Key)
  | eraseObject (obj : Obj)
  | take (key : Key)
  | selectDelete (pid : Nat) (spec : Option (MatchSpec Key Obj))
  | selectDeleteContinue (pid : Nat) (accept : Obj → Bool) (slotIx got : Nat)
  | update (key : Key) (default : Option Obj) (change : Obj → Obj × DbError) (room : Bool)
  | deleteAllObjects
  | markAllDeleted
  | fixTable (pid : Nat)
  | unfixTable (pid : Nat)
  | grow (room : Bool)
  | shrink

section

variable [DecidableEq Key] [DecidableEq Obj] (ops : HashOps Key Obj) (smp : Bool)

/-- An update of the object under a key, as the calls that are for `set` tables only
make it. -/
def dbUpdateHash (tb : DbTableHash Obj) (key : Key) (default : Option Obj)
    (change : Obj → Obj × DbError) (room : Bool) : DbTableHash Obj × HashReply Obj :=
  if tb.type ≠ .set then (tb, .error .badParam)
  else match dbLookupDbtermHash ops tb key default with
  | none => (tb, .error .badKey)
  | some (tb, handle) =>
    let (dbterm, cret) := change handle.node.dbterm
    (dbFinalizeDbtermHash tb cret dbterm handle room, if cret = .none then .done else .error cret)

def hashStep (tb : DbTableHash Obj) : HashOp Key Obj → DbTableHash Obj × HashReply Obj
  | .put obj keyClashFail room =>
    let (tb, code) := dbPutHash ops tb obj keyClashFail room
    (tb, if code = .none then .done else .error code)
  | .get key => (tb, .objects (dbGetHash ops tb key))
  | .erase key => (dbEraseHash ops tb key, .done)
  | .eraseObject obj => (dbEraseObjectHash ops tb obj, .done)
  | .take key =>
    let (tb, list) := dbTakeHash ops tb key
    (tb, .objects list)
  | .selectDelete pid spec => etsSelectDelete ops smp tb pid spec
  | .selectDeleteContinue pid accept slotIx got =>
    etsSelectDeleteContinue smp tb pid accept slotIx got
  | .update key default change room => dbUpdateHash ops tb key default change room
  | .deleteAllObjects => (dbDeleteAllObjectsHash tb, .done)
  | .markAllDeleted => (dbMarkAllDeletedHash tb, .done)
  | .fixTable pid => (etsSafeFixtable tb pid true, .done)
  | .unfixTable pid => (etsSafeFixtable tb pid false, .done)
  | .grow room => (grow tb tb.nactive room, .done)
  | .shrink => (if tb.nactive > segsz then shrink tb tb.nactive else tb, .done)

end

/-- A new table. -/
def newHashTable (type : HashType) (access : Access) (fineLocked : Bool) (owner : Nat) :
    DbTableHash Obj :=
  dbCreateHash ⟨type, access, fineLocked, owner, 0, 0, [], 0, 0, 0, fun _ => [], []⟩

end Otp.Ets
