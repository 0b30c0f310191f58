import Mathlib

/-! Fragmented tables: `mnesia_frag.erl` with its hash module `mnesia_frag_hash.erl`. A fragment
is known by the number in its name, and a record by its elements. -/

namespace Otp.Mnesia.Frag

/-- `phash2(K, 2 * R)` is `phash2(K, R)` modulo `R`. -/
structure Hashes (Term : Type) where
  phash : Term → Nat → Nat
  phash2 : Term → Nat → Nat
  phash2_lt (key : Term) (range : Nat) : 0 < range → phash2 key range < range
  phash2_double (key : Term) (range : Nat) : 0 < range →
    phash2 key (2 * range) % range = phash2 key range

inductive HashFunction where
  | phash
  | phash2
deriving DecidableEq, Repr

structure HashState where
  nFragments : Nat
  nextNToSplit : Nat
  nDoubles : Nat
  function : HashFunction
deriving DecidableEq, Repr

def power2 (y : Nat) : Nat := 2 ^ y

def initState : HashState := ⟨1, 1, 0, .phash2⟩

/-- The new state, the fragments to split, and the others to write to. -/
def HashState.addFrag (state : HashState) : HashState × List Nat × List Nat :=
  let p := state.nextNToSplit + 1
  let newN := state.nFragments + 1
  let state2 :=
    if power2 state.nDoubles + 1 = p then
      { state with nFragments := newN, nDoubles := state.nDoubles + 1, nextNToSplit := 1 }
    else { state with nFragments := newN, nextNToSplit := p }
  (state2, [state.nextNToSplit], [newN])

def HashState.delFrag (state : HashState) : HashState × List Nat × List Nat :=
  let p := state.nextNToSplit - 1
  if p < 1 then
    let l2 := state.nDoubles - 1
    let mergeN := power2 l2
    ({ state with nFragments := state.nFragments - 1, nextNToSplit := mergeN, nDoubles := l2 },
      [state.nFragments], [mergeN])
  else
    ({ state with nFragments := state.nFragments - 1, nextNToSplit := p }, [state.nFragments], [p])

variable {Term Rec : Type}

def HashState.keyToFragNumber (hashes : Hashes Term) (state : HashState) (key : Term) : Nat :=
  let a :=
    match state.function with
    | .phash => hashes.phash key (power2 (state.nDoubles + 1))
    | .phash2 => hashes.phash2 key (power2 (state.nDoubles + 1)) + 1
  if a > state.nFragments then a - power2 state.nDoubles else a

/-- The foreign key is the position of a field; the name of the other table is left out. -/
structure FragState where
  foreignKey : Option Nat
  nFragments : Nat
  hashState : HashState
deriving DecidableEq, Repr

inductive Abort where
  | fragmentNotLocked (n : Nat)
  | fragmentNumbersOutOfRange (bad : List Nat) (last : Nat)
  | fragmentNumberOutOfRange (n last : Nat)
  | lastFragmentNumberNotIncluded (n : Nat)
  | noExists
  | combineError
deriving DecidableEq, Repr

def keyPos (fh : FragState) : Nat := fh.foreignKey.getD 2

def keyToN (hashes : Hashes Term) (fh : FragState) (key : Term) : Except Abort Nat :=
  let n := fh.hashState.keyToFragNumber hashes key
  if 1 ≤ n ∧ n ≤ fh.nFragments then .ok n else .error (.fragmentNumberOutOfRange n fh.nFragments)

inductive TableType where
  | set
  | bag
deriving DecidableEq, Repr

section Records

variable [DecidableEq Term] [DecidableEq Rec] (element : Nat → Rec → Term) (type : TableType)

/-- Write a record to a fragment. -/
def insert (recs : List Rec) (rec : Rec) : List Rec :=
  match type with
  | .set => rec :: recs.filter fun other => element 2 other ≠ element 2 rec
  | .bag => if rec ∈ recs then recs else rec :: recs

def delete (recs : List Rec) (key : Term) : List Rec := recs.filter fun rec => element 2 rec ≠ key

/-- The operations on records in a schema transaction; a fragment is given by its number. -/
inductive RecOp (Term Rec : Type) where
  | write (frag : Nat) (rec : Rec)
  | delete (frag : Nat) (key : Term)
deriving DecidableEq, Repr

def RecOp.apply (frags : Nat → List Rec) : RecOp Term Rec → Nat → List Rec
  | .write frag rec => Function.update frags frag (insert element type (frags frag) rec)
  | .delete frag key => Function.update frags frag (Frag.delete element (frags frag) key)

end Records

/-- A fragmented table. -/
structure Table (Rec : Type) where
  type : TableType
  fh : FragState
  frags : Nat → List Rec

/-- A table with one fragment. -/
def create (type : TableType) (foreignKey : Option Nat) : Table Rec :=
  ⟨type, ⟨foreignKey, 1, initState⟩, fun _ => []⟩

section Access

variable [DecidableEq Term] [DecidableEq Rec] (hashes : Hashes Term) (element : Nat → Rec → Term)

def recordToFrag (fh : FragState) (rec : Rec) : Except Abort Nat :=
  keyToN hashes fh (element (keyPos fh) rec)

/-- The table, or `{Tab, ForeignKey}`. -/
def keyToFrag (fh : FragState) (foreignKey : Option Term) (key : Term) : Except Abort Nat :=
  match foreignKey with
  | none => keyToN hashes fh key
  | some foreignKey =>
    if fh.foreignKey.isSome then keyToN hashes fh foreignKey else .error .combineError

section

variable (table : Table Rec)

def write (rec : Rec) : Except Abort (Table Rec) := do
  let n ← recordToFrag hashes element table.fh rec
  .ok { table with frags := Function.update table.frags n (insert element table.type (table.frags n) rec) }

def deleteKey (foreignKey : Option Term) (key : Term) : Except Abort (Table Rec) := do
  let n ← keyToFrag hashes table.fh foreignKey key
  .ok { table with frags := Function.update table.frags n (delete element (table.frags n) key) }

def deleteObject (rec : Rec) : Except Abort (Table Rec) := do
  let n ← recordToFrag hashes element table.fh rec
  .ok { table with frags := Function.update table.frags n ((table.frags n).filter (· ≠ rec)) }

/-- The names of the fragments that are locked. -/
def makeFragNamesAndAcquireLocks (n : Nat) (fragIndecies : List Nat) : List (Option Nat) :=
  fragIndecies.foldl (fun names index => names.set (index - 1) (some index)) (List.replicate n none)

def locked (fragNames : List (Option Nat)) (n : Nat) : Bool := (fragNames.getD (n - 1) none).isSome

def sortFrags (frags : List Nat) : List Nat := frags.mergeSort

def mergeFrags (frags others : List Nat) : List Nat := List.merge frags others

def adjustBeforeSplit (fh : FragState) : Except Abort (FragState × List Nat × List Nat) :=
  let (hashState2, fromFrags, additionalWriteFrags) := fh.hashState.addFrag
  let n := fh.nFragments + 1
  let fromFrags2 := sortFrags fromFrags
  let unionFrags := mergeFrags fromFrags2 (sortFrags additionalWriteFrags)
  let bad := unionFrags.filter fun f => ¬ (1 ≤ f ∧ f ≤ n)
  if bad = [] then .ok ({ fh with nFragments := n, hashState := hashState2 },
    fromFrags2, unionFrags)
  else .error (.fragmentNumbersOutOfRange bad n)

def doSplit (fh : FragState) (oldN : Nat) (fragNames : List (Option Nat)) :
    List Rec → List (RecOp Term Rec) → Except Abort (List (RecOp Term Rec))
  | [], ops => .ok ops
  | rec :: recs, ops => do
    let newN ← keyToN hashes fh (element (keyPos fh) rec)
    if newN = oldN then doSplit fh oldN fragNames recs ops
    else if locked fragNames newN then
      doSplit fh oldN fragNames recs (.write newN rec :: .delete oldN (element 2 rec) :: ops)
    else .error (.fragmentNotLocked newN)

def split (fh : FragState) (fragNames : List (Option Nat)) (frags : Nat → List Rec) :
    List Nat → List (RecOp Term Rec) → Except Abort (List (RecOp Term Rec))
  | [], ops => .ok ops
  | splitN :: splitNs, ops => do
    let ops2 ← doSplit hashes element fh splitN fragNames (frags splitN) ops
    split fh fragNames frags splitNs ops2

/-- `make_add_frag`, with its operations performed. -/
def addFrag : Except Abort (Table Rec) := do
  let (fh2, fromIndecies, writeIndecies) ← adjustBeforeSplit table.fh
  let n := fh2.nFragments
  let fragNames := makeFragNamesAndAcquireLocks n writeIndecies
  let ops ← split hashes element fh2 fragNames table.frags fromIndecies []
  let created := Function.update table.frags n []
  .ok { table with fh := fh2, frags := ops.foldl (RecOp.apply element table.type) created }

def adjustBeforeMerge (fh : FragState) : Except Abort (FragState × List Nat × List Nat) :=
  let (hashState2, fromFrags, additionalWriteFrags) := fh.hashState.delFrag
  let n := fh.nFragments
  let fromFrags2 := sortFrags fromFrags
  let unionFrags := mergeFrags fromFrags2 (sortFrags additionalWriteFrags)
  let bad := unionFrags.filter fun f => ¬ (1 ≤ f ∧ f ≤ n)
  if bad = [] then
    if n ∈ fromFrags2 then .ok ({ fh with nFragments := n - 1, hashState := hashState2 },
      fromFrags2, unionFrags)
    else .error (.lastFragmentNumberNotIncluded n)
  else .error (.fragmentNumbersOutOfRange bad n)

def doMerge (fh : FragState) (oldN : Nat) (fragNames : List (Option Nat)) :
    List Rec → List (RecOp Term Rec) → Except Abort (List (RecOp Term Rec))
  | [], ops => .ok ops
  | rec :: recs, ops => do
    let lastN := fh.nFragments + 1
    let newN ← keyToN hashes fh (element (keyPos fh) rec)
    if newN = lastN then .error (.fragmentNumberOutOfRange newN lastN)
    else if newN = oldN then doMerge fh oldN fragNames recs ops
    else if oldN = lastN then
      if locked fragNames newN then doMerge fh oldN fragNames recs (.write newN rec :: ops)
      else .error (.fragmentNotLocked newN)
    else if locked fragNames newN then
      doMerge fh oldN fragNames recs (.write newN rec :: .delete oldN (element 2 rec) :: ops)
    else .error (.fragmentNotLocked newN)

def merge (fh : FragState) (fragNames : List (Option Nat)) (frags : Nat → List Rec) :
    List Nat → List (RecOp Term Rec) → Except Abort (List (RecOp Term Rec))
  | [], ops => .ok ops
  | fromN :: fromNs, ops => do
    let ops2 ← doMerge hashes element fh fromN fragNames (frags fromN) ops
    merge fh fragNames frags fromNs ops2

/-- `make_del_frag`, with its operations performed. -/
def delFrag : Except Abort (Table Rec) :=
  let n := table.fh.nFragments
  if n > 1 then do
    let (fh2, fromIndecies, writeIndecies) ← adjustBeforeMerge table.fh
    let fragNames := makeFragNamesAndAcquireLocks n writeIndecies
    let ops ← merge hashes element fh2 fragNames table.frags fromIndecies []
    let deleted := Function.update table.frags n []
    .ok { table with fh := fh2, frags := ops.foldl (RecOp.apply element table.type) deleted }
  else .error .noExists

inductive Op (Term Rec : Type) where
  | write (rec : Rec)
  | delete (foreignKey : Option Term) (key : Term)
  | deleteObject (rec : Rec)
  | addFrag
  | delFrag

def Op.run : Op Term Rec → Except Abort (Table Rec)
  | .write rec => Frag.write hashes element table rec
  | .delete foreignKey key => deleteKey hashes element table foreignKey key
  | .deleteObject rec => Frag.deleteObject hashes element table rec
  | .addFrag => Frag.addFrag hashes element table
  | .delFrag => Frag.delFrag hashes element table

end

end Access

end Otp.Mnesia.Frag
