import Otp.Ets.Tree

/-! Traversal of an `ordered_set` table through its cached stack: `first`,
`last`, `next`, `prev`, `slot`, `lookup`, and the in-place updates made between
`db_lookup_dbterm_tree` and `db_finalize_dbterm_tree`. The stack has addresses;
reading one that is no longer in the tree yields `none`. -/

namespace Otp.Ets

namespace TreeDbTerm

/-- The pointer to a subtree. -/
def ptr : TreeDbTerm Obj → Option Nat
  | .null => none
  | .node addr _ _ _ _ => some addr

def leftPtr : TreeDbTerm Obj → Option Nat
  | .null => none
  | .node _ left _ _ _ => left.ptr

def rightPtr : TreeDbTerm Obj → Option Nat
  | .null => none
  | .node _ _ right _ _ => right.ptr

/-- The node at an address, with what hangs below it. -/
def deref : TreeDbTerm Obj → Nat → Option (TreeDbTerm Obj)
  | .null, _ => none
  | .node addr left right balance dbterm, target =>
    if addr = target then some (.node addr left right balance dbterm)
    else (left.deref target).or (right.deref target)

end TreeDbTerm

open TreeDbTerm

/-- `++` and `--` on a 64-bit `Uint`. -/
def uintInc (slot : Nat) : Nat := (slot + 1) % 2 ^ 64

def uintDec (slot : Nat) : Nat := (slot + (2 ^ 64 - 1)) % 2 ^ 64

/-- `NITEMS`: the count cast to a C `int`. -/
def nitems (tb : DbTableTree Obj) : Int := (tb.nitems : Int).bmod (2 ^ 32)

/-- Push a node and its chain of left children. -/
def pushLeft : TreeDbTerm Obj → List Nat → List Nat
  | .null, stack => stack
  | .node addr left _ _ _, stack => pushLeft left (addr :: stack)

/-- Push a node and its chain of right children. -/
def pushRight : TreeDbTerm Obj → List Nat → List Nat
  | .null, stack => stack
  | .node addr _ right _ _, stack => pushRight right (addr :: stack)

/-- The loops that pop the stack, `tmp = POP_NODE(stack); this = TOP_NODE(stack)`,
until `stop` holds of the node `this` and `tmp`, or the top becomes `NULL`. -/
def popLoop (root : TreeDbTerm Obj) (stop : TreeDbTerm Obj → Nat → Bool) :
    List Nat → Option (List Nat)
  | [] => some []
  | [_] => some []
  | tmp :: this :: rest => do
    let node ← root.deref this
    if stop node tmp then some (this :: rest) else popLoop root stop (this :: rest)

/-- The slot is only counted while it is recorded. -/
def bumpSlot (change : Nat → Nat) (slot : Nat) : Nat := if slot > 0 then change slot else slot

/-- The second half of `find_next`: from `this`, the top of the stack, to its successor. -/
def nextFrom (root this : TreeDbTerm Obj) (stack : DbTreeStack) :
    Option (DbTreeStack × Option Nat) :=
  match this with
  | .null => none
  | .node _ _ .null _ _ => do
    match ← popLoop root (fun this tmp => this.rightPtr ≠ some tmp) stack.array with
    | [] => some ({ array := [], slot := 0 }, none)
    | this :: rest =>
      some ({ array := this :: rest, slot := bumpSlot uintInc stack.slot }, some this)
  | .node _ _ right _ _ =>
    let array := pushLeft right stack.array
    some ({ array, slot := bumpSlot uintInc stack.slot }, array.head?)

/-- The second half of `find_prev`. -/
def prevFrom (root this : TreeDbTerm Obj) (stack : DbTreeStack) :
    Option (DbTreeStack × Option Nat) :=
  match this with
  | .null => none
  | .node _ .null _ _ _ => do
    match ← popLoop root (fun this tmp => this.leftPtr ≠ some tmp) stack.array with
    | [] => some ({ array := [], slot := 0 }, none)
    | this :: rest =>
      some ({ array := this :: rest, slot := bumpSlot uintDec stack.slot }, some this)
  | .node _ left _ _ _ =>
    let array := pushRight left stack.array
    some ({ array, slot := bumpSlot uintDec stack.slot }, array.head?)

/-- The search of `find_next` from the root, pushing every node on the way. A
node is returned when the loop breaks there; without one, the top of the stack
is the answer already. -/
def findNextDown (order : KeyOrder Key Obj) (key : Key) :
    TreeDbTerm Obj → List Nat → List Nat × Option (TreeDbTerm Obj)
  | .null, stack => (stack, none)
  | .node addr left right balance dbterm, stack =>
    match order.cmp key (order.getKey dbterm) with
    | .gt =>
      match right with
      | .null => (addr :: stack, some (.node addr left .null balance dbterm))
      | right => findNextDown order key right (addr :: stack)
    | .lt =>
      match left with
      | .null => (addr :: stack, none)
      | left => findNextDown order key left (addr :: stack)
    | .eq => (addr :: stack, some (.node addr left right balance dbterm))

def findPrevDown (order : KeyOrder Key Obj) (key : Key) :
    TreeDbTerm Obj → List Nat → List Nat × Option (TreeDbTerm Obj)
  | .null, stack => (stack, none)
  | .node addr left right balance dbterm, stack =>
    match order.cmp key (order.getKey dbterm) with
    | .lt =>
      match left with
      | .null => (addr :: stack, some (.node addr .null right balance dbterm))
      | left => findPrevDown order key left (addr :: stack)
    | .gt =>
      match right with
      | .null => (addr :: stack, none)
      | right => findPrevDown order key right (addr :: stack)
    | .eq => (addr :: stack, some (.node addr left right balance dbterm))

section

variable (order : KeyOrder Key Obj) (tb : DbTableTree Obj)

/-- The part `find_next` and `find_prev` share: go on from the top of the stack
if it is at the key, else search for the key from the root. -/
def findFrom (stack : DbTreeStack) (key : Key)
    (down : TreeDbTerm Obj → List Nat → List Nat × Option (TreeDbTerm Obj))
    (step : TreeDbTerm Obj → TreeDbTerm Obj → DbTreeStack → Option (DbTreeStack × Option Nat)) :
    Option (DbTreeStack × Option Nat) :=
  let rebuild (stack : DbTreeStack) : Option (DbTreeStack × Option Nat) :=
    match tb.root with
    | .null => some (stack, none)
    | root =>
      match down root stack.array with
      | (array, none) => some ({ stack with array }, array.head?)
      | (array, some this) => step root this { stack with array }
  match stack.array with
  | [] => rebuild stack
  | top :: _ =>
    match tb.root.deref top with
    | some (.node addr left right balance dbterm) =>
      if order.cmp key (order.getKey dbterm) = .eq then
        step tb.root (.node addr left right balance dbterm) stack
      else rebuild { array := [], slot := 0 }
    | _ => none

def findNext (stack : DbTreeStack) (key : Key) : Option (DbTreeStack × Option Nat) :=
  findFrom order tb stack key (findNextDown order key) nextFrom

def findPrev (stack : DbTreeStack) (key : Key) : Option (DbTreeStack × Option Nat) :=
  findFrom order tb stack key (findPrevDown order key) prevFrom

/-- What a method hands back besides its return code. -/
inductive TreeAnswer (Key Obj : Type) where
  | none
  | endOfTable
  | key (key : Key)
  | objects (objects : List Obj)
  deriving DecidableEq, Repr

/-- Read the object a pointer leads to. -/
def readObject (this : Nat) : Option Obj :=
  match tb.root.deref this with
  | some (.node _ _ _ _ dbterm) => some dbterm
  | _ => none

def keyAnswer : Option Nat → Option (TreeAnswer Key Obj)
  | .none => some .endOfTable
  | some this => do
    let dbterm ← readObject tb this
    some (.key (order.getKey dbterm))

/-- `get_any_stack`: an empty dynamic stack when another reader has the static one. -/
def getAnyStack (busy : Bool) : DbTreeStack :=
  if busy then { array := [], slot := 0 } else tb.staticStack

/-- A dynamic stack is freed on release. -/
def releaseStack (busy : Bool) (stack : DbTreeStack) : DbTableTree Obj :=
  if busy then tb else { tb with staticStack := stack }

def dbFirstTree (busy : Bool) : Option (DbTableTree Obj × DbError × TreeAnswer Key Obj) :=
  match tb.root with
  | .null => some (tb, .none, .endOfTable)
  | root => do
    let array := pushLeft root []
    let answer ← keyAnswer order tb array.head?
    some (releaseStack tb busy { array, slot := 1 }, .none, answer)

def dbLastTree (busy : Bool) : Option (DbTableTree Obj × DbError × TreeAnswer Key Obj) :=
  match tb.root with
  | .null => some (tb, .none, .endOfTable)
  | root => do
    let array := pushRight root []
    let answer ← keyAnswer order tb array.head?
    some (releaseStack tb busy { array, slot := (nitems tb % 2 ^ 64).toNat }, .none, answer)

/-- `isEot` recognises the atom `'$end_of_table'`. -/
def dbNextTree (isEot : Key → Bool) (tb : DbTableTree Obj) (key : Key) (busy : Bool) :
    Option (DbTableTree Obj × DbError × TreeAnswer Key Obj) :=
  if isEot key then some (tb, .badKey, .none)
  else do
    let (stack, this) ← findNext order tb (getAnyStack tb busy) key
    let answer ← keyAnswer order tb this
    some (releaseStack tb busy stack, .none, answer)

def dbPrevTree (isEot : Key → Bool) (tb : DbTableTree Obj) (key : Key) (busy : Bool) :
    Option (DbTableTree Obj × DbError × TreeAnswer Key Obj) :=
  if isEot key then some (tb, .badKey, .none)
  else do
    let (stack, this) ← findPrev order tb (getAnyStack tb busy) key
    let answer ← keyAnswer order tb this
    some (releaseStack tb busy stack, .none, answer)

/-- One turn of the loop of `slot_search`: one node up or down in key order. -/
def slotTurn (slot : Nat) (stack : DbTreeStack) : Option DbTreeStack :=
  match stack.array with
  | [] => none
  | top :: rest => do
    match ← tb.root.deref top with
    | .null => none
    | .node _ left right _ _ =>
      if slot > stack.slot then
        let array ← match right with
          | .null => popLoop tb.root (fun this tmp => this.leftPtr = some tmp) (top :: rest)
          | right => some (pushLeft right (top :: rest))
        some { array, slot := uintInc stack.slot }
      else
        let array ← match left with
          | .null => popLoop tb.root (fun this tmp => this.rightPtr = some tmp) (top :: rest)
          | left => some (pushRight left (top :: rest))
        some { array, slot := uintDec stack.slot }

/-- `while (stack->slot != slot && this != NULL)`. Every turn brings the two
closer, so their distance bounds the number of turns. -/
def slotLoop (tb : DbTableTree Obj) (slot : Nat) : Nat → DbTreeStack → Option DbTreeStack
  | 0, stack => some stack
  | turns + 1, stack =>
    if stack.slot ≠ slot ∧ stack.array ≠ [] then do
      let stack ← slotTurn tb slot stack
      slotLoop tb slot turns stack
    else some stack

/-- The distance of two slots. -/
def slotDistance (slot other : Nat) : Nat := (slot - other) + (other - slot)

def slotSearch (slot : Nat) (stack : DbTreeStack) : Option DbTreeStack :=
  let stack := if slot = 1 then { stack with slot := 0 } else stack
  let stack := if stack.slot = 0 then { stack with array := [] } else stack
  match stack.array with
  | [] =>
    match tb.root with
    | .null => some stack
    | root =>
      slotLoop tb slot (slotDistance slot 1) { array := pushLeft root stack.array, slot := 1 }
  | _ => slotLoop tb slot (slotDistance slot stack.slot) stack

/-- `slot_term` is `none` when it is not a small integer. -/
def dbSlotTree (slotTerm : Option Int) (busy : Bool) :
    Option (DbTableTree Obj × DbError × TreeAnswer Key Obj) :=
  match slotTerm with
  | .none => some (tb, .badParam, .none)
  | some slot =>
    if slot < 0 ∨ slot > nitems tb then some (tb, .badParam, .none)
    else if slot = nitems tb then some (tb, .none, .endOfTable)
    else do
      let stack ← slotSearch tb (slot + 1).toNat (getAnyStack tb busy)
      match stack.array with
      | [] => some (releaseStack tb busy stack, .unspec, .none)
      | this :: _ =>
        let dbterm ← readObject tb this
        some (releaseStack tb busy stack, .none, .objects [dbterm])

/-- The search from the root of `find_node` and `find_node2`. -/
def searchNode (order : KeyOrder Key Obj) (key : Key) : TreeDbTerm Obj → Option (Nat × Obj)
  | .null => none
  | .node addr left right _ dbterm =>
    match order.cmp key (order.getKey dbterm) with
    | .lt => searchNode order key left
    | .gt => searchNode order key right
    | .eq => some (addr, dbterm)

/-- `find_node` looks at the top of the static stack first. The outer `Option`
is a dangling read. -/
def findNode (key : Key) (busy : Bool) : Option (Option Obj) :=
  let search := (searchNode order key tb.root).map Prod.snd
  match busy, tb.staticStack.array with
  | false, top :: _ => do
    let dbterm ← readObject tb top
    some (if order.cmp key (order.getKey dbterm) = .eq then some dbterm else search)
  | _, _ => some search

def dbGetTree (key : Key) (busy : Bool) :
    Option (DbTableTree Obj × DbError × TreeAnswer Key Obj) := do
  let found ← findNode order tb key busy
  some (tb, .none, .objects found.toList)

/-- Overwrite the node that `find_node2` found for a key, at a possibly new address. -/
def overwrite (order : KeyOrder Key Obj) (key : Key) (update : Nat × Obj → Nat × Obj) :
    TreeDbTerm Obj → TreeDbTerm Obj
  | .null => .null
  | .node addr left right balance dbterm =>
    match order.cmp key (order.getKey dbterm) with
    | .lt => .node addr (overwrite order key update left) right balance dbterm
    | .gt => .node addr left (overwrite order key update right) balance dbterm
    | .eq => .node (update (addr, dbterm)).1 left right balance (update (addr, dbterm)).2

/-- An update between `db_lookup_dbterm_tree` and `db_finalize_dbterm_tree`: what
the caller wrote into the object, whether that needed a resize (and where the
new copy went), and the return code it ends with. -/
structure DbUpdate (order : KeyOrder Key Obj) where
  modify : Obj → Obj
  keepsKey : ∀ obj, order.getKey (modify obj) = order.getKey obj
  resize : Option Nat
  cret : DbError

/-- `db_finalize_dbterm_tree` for the node of a key: `new` is `DB_NEW_OBJECT`. -/
def dbFinalizeDbtermTree (key : Key) (new : Bool) (update : DbUpdate order) :
    Option (DbTableTree Obj) :=
  if new ∧ update.cret ≠ .none then do
    let (tb, _) ← dbEraseTree order tb key
    some tb
  else
    match update.resize with
    | some addr => some (resetStaticStack { tb with
        root := overwrite order key (fun entry => (addr, update.modify entry.2)) tb.root })
    | none => some { tb with
        root := overwrite order key (fun entry => (entry.1, update.modify entry.2)) tb.root }

/-- `db_lookup_dbterm_tree` followed by the update and its finalization. The
default object, if there is one, already has the key; it is stored at `addr`. -/
def dbUpdateTree (key : Key) (default : Option { obj : Obj // order.getKey obj = key }) (addr : Nat)
    (update : DbUpdate order) : Option (DbTableTree Obj × DbError × TreeAnswer Key Obj) :=
  match searchNode order key tb.root with
  | some _ => do
    let tb ← dbFinalizeDbtermTree order tb key false update
    some (tb, update.cret, .none)
  | .none =>
    match default with
    | .none => some (tb, .badKey, .none)
    | some obj => do
      match ← dbPutTree order tb obj.val true addr with
      | (tb, .none) =>
        let tb ← dbFinalizeDbtermTree order tb key true update
        some (tb, update.cret, .none)
      | (tb, code) => some (tb, code, .none)

end

end Otp.Ets
