import Otp.Library.Buddy
import Mathlib.Data.Finset.Max
import Mathlib.Data.Nat.Bitwise
import Mathlib.Logic.Function.Basic

/-! The free lists of `dets_utils.erl` and the fixing of a table in `dets.erl`. The B+ tree of the
free areas of one size is the ordered set of its keys here; `BplusRefinement` relates the two. -/

namespace Otp.Dets

/-- `?MAXBUD`. -/
def maxBud : Nat := 32

/-- `?MAXFREELISTS`, bytes reserved for the free lists at the end. -/
def maxFreeLists : Nat := 50000000

inductive Failure where
  | noMoreSpaceOnFile
  | badarg
  | functionClause
deriving DecidableEq, Repr

abbrev PosTab := Finset Nat

def bplusLookup (tree : PosTab) (key : Nat) : Option Nat :=
  if key ∈ tree then some key else none

def bplusLookupFirst (tree : PosTab) : Option Nat :=
  if some : tree.Nonempty then Option.some (tree.min' some) else none

def bplusInsert (tree : PosTab) (key : Nat) : PosTab := insert key tree

def bplusDelete (tree : PosTab) (key : Nat) : PosTab := tree.erase key

/-- A tuple of `?MAXBUD` elements, read through `element` and `setelement` only. -/
abbrev Ftab := Nat → PosTab

def element (pos : Nat) (ftab : Ftab) : Except Failure PosTab :=
  if 1 ≤ pos ∧ pos ≤ maxBud then .ok (ftab pos) else .error .badarg

def setelement (pos : Nat) (ftab : Ftab) (posTab : PosTab) : Except Failure Ftab :=
  if 1 ≤ pos ∧ pos ≤ maxBud then .ok (Function.update ftab pos posTab) else .error .badarg

theorem element_range (found : element pos ftab = .ok posTab) : 1 ≤ pos ∧ pos ≤ maxBud := by
  unfold element at found
  split at found
  · assumption
  · cases found

def emptyFreeLists : Ftab := fun _ => ∅

def initAlloc (base : Nat) : Ftab :=
  Function.update emptyFreeLists maxBud (bplusInsert ∅ base)

/-- The `i` with `2 ^ (i - 1) < n ≤ 2 ^ i`, for `n` above one. -/
def log2 (n : Nat) : Nat :=
  if n > 2 ^ 8 then
    if n > 2 ^ 10 then
      if n > 2 ^ 11 then
        if n > 2 ^ 12 then
          12 + (if n &&& (2 ^ 12 - 1) = 0 then log2 (n >>> 12) else log2 (1 + (n >>> 12)))
        else 12
      else 11
    else if n > 2 ^ 9 then 10
    else 9
  else if n > 2 ^ 4 then
    if n > 2 ^ 6 then
      if n > 2 ^ 7 then 8
      else 7
    else if n > 2 ^ 5 then 6
    else 5
  else if n > 2 ^ 2 then
    if n > 2 ^ 3 then 4
    else 3
  else if n > 2 ^ 1 then 2
  else if n ≥ 2 ^ 0 then 1
  else 0
termination_by n
decreasing_by all_goals
  rw [Nat.shiftRight_eq_div_pow]
  omega

def sz2pos (n : Nat) : Except Failure Nat :=
  if n > 0 then .ok (1 + log2 (n + 1)) else .error .functionClause

/-- The buddy and the address of the two together. No address is below `base`. -/
def myBuddy (addr sz base : Nat) : Nat × Nat :=
  if (addr - base) &&& sz = 0 then (addr + sz, addr)
  else (addr - sz, addr - sz)

def findFirstFree (ftab : Ftab) (pos pos0 : Nat) : Except Failure (Nat × Nat) :=
  if pos > maxBud then .error .noMoreSpaceOnFile
  else do
    match bplusLookupFirst (← element pos ftab) with
    | none => findFirstFree ftab (pos + 1) pos0
    | some addr =>
      -- some of the area reserved for the free lists would be occupied
      if addr + 2 ^ (pos0 - 1) > 2 ^ (maxBud - 1) - maxFreeLists then .error .noMoreSpaceOnFile
      else return (pos, addr)
termination_by maxBud + 1 - pos

/-- Finds the block that the block at `addr` has become part of. -/
def undoFree (ftab : Ftab) (pos addr base : Nat) : Except Failure Ftab :=
  match _found : element pos ftab with
  | .error failure => .error failure
  | .ok posTab =>
    match bplusLookup posTab addr with
    | none => do
      let (buddyAddr, moveUpAddr) := myBuddy addr (2 ^ (pos - 1)) base
      let newFtab ← setelement pos ftab (bplusInsert posTab buddyAddr)
      undoFree newFtab (pos + 1) moveUpAddr base
    | some _ => setelement pos ftab (bplusDelete posTab addr)
termination_by maxBud + 1 - pos
decreasing_by
  have range := element_range _found
  omega

def moveDown (ftab : Ftab) (pos pos0 addr : Nat) : Except Failure Ftab :=
  if pos = pos0 then .ok ftab
  else
    match pos with
    | 0 => .error .badarg
    | pos_1 + 1 => do
      let size := 2 ^ pos_1
      let highBuddy := addr + (size >>> 1)
      let newFtab ← setelement pos_1 ftab (bplusInsert (← element pos_1 ftab) highBuddy)
      moveDown newFtab pos_1 pos0 addr

def reserveBuddy (ftab : Ftab) (pos pos0 addr : Nat) : Except Failure Ftab := do
  let newPosTab := bplusDelete (← element pos ftab) addr
  moveDown (← setelement pos ftab newPosTab) pos pos0 addr

def freeInPos (ftab : Ftab) (addr pos base : Nat) : Except Failure Ftab :=
  if pos > maxBud then .ok ftab
  else do
    let posTab ← element pos ftab
    let (buddyAddr, moveUpAddr) := myBuddy addr (2 ^ (pos - 1)) base
    match bplusLookup posTab buddyAddr with
    | none => setelement pos ftab (bplusInsert posTab addr)
    | some _ =>
      let posTab1 := bplusDelete posTab addr
      let posTab2 := bplusDelete posTab1 buddyAddr
      freeInPos (← setelement pos ftab posTab2) moveUpAddr (pos + 1) base
termination_by maxBud + 1 - pos

variable {Pid Stamp : Type}

/-- `fixed` and `freelists` of a head: `{Frozen, Ftab}` while the table is fixed. -/
inductive Freelists (Pid Stamp : Type) where
  | single (ftab : Ftab)
  | fixed (since : Stamp) (counters : List (Pid × Nat)) (frozen ftab : Ftab)

structure Head (Pid Stamp : Type) where
  base : Nat
  freelists : Freelists Pid Stamp

section

variable (head : Head Pid Stamp)

/-- The new head, the address and the position of the allocated block. -/
def alloc (sz : Nat) : Except Failure (Head Pid Stamp × Nat × Nat) :=
  match head.freelists with
  | .fixed since counters frozen ftab => do
    let pos ← sz2pos sz
    let (fPos, addr) ← findFirstFree frozen pos pos
    let newFrozen ← reserveBuddy frozen fPos pos addr
    let ftab1 ← undoFree ftab fPos addr head.base
    let newFtab ← moveDown ftab1 fPos pos addr
    return ({ head with freelists := .fixed since counters newFrozen newFtab }, addr, pos)
  | .single ftab => do
    let pos ← sz2pos sz
    let (fPos, addr) ← findFirstFree ftab pos pos
    let newFtab ← reserveBuddy ftab fPos pos addr
    return ({ head with freelists := .single newFtab }, addr, pos)

def getFreelists : Ftab :=
  match head.freelists with
  | .single ftab => ftab
  | .fixed _ _ _ current => current

def setFreelists (ftab : Ftab) : Head Pid Stamp :=
  match head.freelists with
  | .single _ => { head with freelists := .single ftab }
  | .fixed since counters frozen _ => { head with freelists := .fixed since counters frozen ftab }

def free (addr sz : Nat) : Except Failure (Head Pid Stamp × Nat) := do
  let ftab := getFreelists head
  let pos ← sz2pos sz
  return (setFreelists head (← freeInPos ftab addr pos head.base), pos)

end

section

variable [DecidableEq Pid]

def keysearch (pid : Pid) (counters : List (Pid × Nat)) : Option (Pid × Nat) :=
  counters.find? fun counter => counter.1 = pid

def keyreplace (pid : Pid) (new : Pid × Nat) : List (Pid × Nat) → List (Pid × Nat)
  | [] => []
  | counter :: counters =>
    if counter.1 = pid then new :: counters else counter :: keyreplace pid new counters

def keydelete (pid : Pid) (counters : List (Pid × Nat)) : List (Pid × Nat) :=
  counters.eraseP fun counter => counter.1 = pid

inductive How where
  | unfix
  | close
deriving DecidableEq

def removeFix (head : Head Pid Stamp) (pid : Pid) (how : How) : Head Pid Stamp :=
  match head.freelists with
  | .single _ => head
  | .fixed since counters frozen ftab =>
    match keysearch pid counters with
    | some (_, counter) =>
      if counter = 1 ∨ how = .close then
        match keydelete pid counters with
        | [] => { head with freelists := .single (getFreelists head) }
        | newCounters => { head with freelists := .fixed since newCounters frozen ftab }
      else { head with freelists := .fixed since (keyreplace pid (pid, counter - 1) counters) frozen ftab }
    | none => head

/-- `now` is what `monotonic_time` and `time_offset` return. -/
def doSafeFixtable (head : Head Pid Stamp) (pid : Pid) (now : Stamp) (fix : Bool) :
    Head Pid Stamp :=
  if fix then
    match head.freelists with
    | .single _ =>
      let ftab := getFreelists head
      { head with freelists := .fixed now [(pid, 1)] ftab ftab }
    | .fixed since counters frozen ftab =>
      match keysearch pid counters with
      | some (_, counter) =>
        { head with freelists := .fixed since (keyreplace pid (pid, counter + 1) counters) frozen ftab }
      | none => { head with freelists := .fixed since ((pid, 1) :: counters) frozen ftab }
  else removeFix head pid .unfix

end

def unlinkFixingProcs (head : Head Pid Stamp) : Head Pid Stamp :=
  match head.freelists with
  | .single _ => head
  | .fixed _ _ _ _ => { head with freelists := .single (getFreelists head) }

/-- A block of `2 ^ (pos - 1)` bytes. -/
structure Area where
  addr : Nat
  pos : Nat
deriving DecidableEq, Repr

/-- The table's head, with the blocks that were allocated and not freed, the last one first, and the
free table when the table was fixed. -/
structure State (Pid Stamp : Type) where
  head : Head Pid Stamp
  allocated : List Area
  mapped : Ftab

def start (base : Nat) : State Pid Stamp := ⟨⟨base, .single (initAlloc base)⟩, [], initAlloc base⟩

/-- What `mapped` is after fixing. -/
def mapAfterFix (head : Head Pid Stamp) (mapped : Ftab) : Ftab :=
  match head.freelists with
  | .single ftab => ftab
  | .fixed _ _ _ _ => mapped

variable [DecidableEq Pid]

/-- An allocation that throws leaves the head as it was. -/
inductive Step : State Pid Stamp → State Pid Stamp → Prop where
  | alloc : alloc state.head sz = .ok (head, addr, pos) →
      Step state { state with head := head, allocated := ⟨addr, pos⟩ :: state.allocated }
  | free : ⟨addr, pos⟩ ∈ state.allocated → sz2pos sz = .ok pos →
    free state.head addr sz = .ok (head, pos) →
      Step state { state with head := head, allocated := state.allocated.erase ⟨addr, pos⟩ }
  | fix : Step state { state with
      head := doSafeFixtable state.head pid now true,
        mapped := mapAfterFix state.head state.mapped }
  | unfix : Step state { state with head := doSafeFixtable state.head pid now false }
  | close : Step state { state with head := removeFix state.head pid .close }
  | stop : Step state { state with head := unlinkFixingProcs state.head }

inductive Reachable (base : Nat) : State Pid Stamp → Prop where
  | start : Reachable base (start base)
  | step : Reachable base state → Step state next → Reachable base next

end Otp.Dets
