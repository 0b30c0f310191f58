import Mathlib
import Otp.Ets.Db

/-! The AVL tree behind `ordered_set` tables (`erl_db_tree.c`): the nodes, the
table and the operations that change it. A `TreeDbTerm **` on the direction
stacks is a frame of a zipper: the node that owns the slot, with a hole where
the walk went on. -/

namespace Otp.Ets

/-- The parts of a table that order its objects: the sign of `CMP` on keys and
`GETKEY`. Any total preorder on keys will do. -/
structure KeyOrder (Key Obj : Type) where
  cmp : Key → Key → Ordering
  getKey : Obj → Key
  trans : Std.TransCmp cmp

/-- A `TreeDbTerm *`: `NULL`, or a node at the address its allocator returned. -/
inductive TreeDbTerm (Obj : Type) where
  | null
  | node (addr : Nat) (left right : TreeDbTerm Obj) (balance : Int) (dbterm : Obj)
  deriving DecidableEq, Repr

/-- `array[0 .. pos-1]` from the top down, and the rank of the top node (a
64-bit `Uint`), `0` when it is not recorded. -/
structure DbTreeStack where
  array : List Nat
  slot : Nat
  deriving DecidableEq, Repr

structure DbTableTree (Obj : Type) where
  root : TreeDbTerm Obj
  nitems : Nat
  staticStack : DbTreeStack
  deriving DecidableEq, Repr

/-- `TREE_MAX_ELEMENTS`. -/
def treeMaxElements : Nat := 0xFFFFFFFF

def dbCreateTree : DbTableTree Obj :=
  { root := .null, nitems := 0, staticStack := { array := [], slot := 0 } }

def resetStaticStack (tb : DbTableTree Obj) : DbTableTree Obj :=
  { tb with staticStack := { array := [], slot := 0 } }

/-- `DIR_LEFT` and `DIR_RIGHT`; `DIR_END` is the bottom of the frame list. -/
inductive Dir where
  | left | right
  deriving DecidableEq, Repr

/-- One level of the direction stacks: the direction taken and the node it was
taken from, less the child it leads to. -/
structure Frame (Obj : Type) where
  dir : Dir
  addr : Nat
  sibling : TreeDbTerm Obj
  balance : Int
  dbterm : Obj
  deriving DecidableEq, Repr

/-- The node of a frame with its child slot filled. -/
def Frame.attach (frame : Frame Obj) (child : TreeDbTerm Obj) : TreeDbTerm Obj :=
  match frame.dir with
  | .left => .node frame.addr child frame.sibling frame.balance frame.dbterm
  | .right => .node frame.addr frame.sibling child frame.balance frame.dbterm

/-- The search loop shared by `db_put_tree` and `linkout_tree`: it stops at an
empty slot or at the node with an equal key. -/
def descend (order : KeyOrder Key Obj) (key : Key) :
    TreeDbTerm Obj → List (Frame Obj) → TreeDbTerm Obj × List (Frame Obj)
  | .null, frames => (.null, frames)
  | .node addr left right balance dbterm, frames =>
    match order.cmp key (order.getKey dbterm) with
    | .lt => descend order key left (⟨.left, addr, right, balance, dbterm⟩ :: frames)
    | .gt => descend order key right (⟨.right, addr, left, balance, dbterm⟩ :: frames)
    | .eq => (.node addr left right balance dbterm, frames)

/-- One turn of the rebalancing loop of `db_put_tree`: the child of `*this` in
the given direction has grown. The flag is the new `state`; `none` would be a
dereference of `NULL`. -/
def putBalance : Dir → TreeDbTerm Obj → Option (TreeDbTerm Obj × Bool)
  | _, .null => none
  | .left, .node addr p1 right balance dbterm =>
    if balance = 1 then some (.node addr p1 right 0 dbterm, false)
    else if balance = 0 then some (.node addr p1 right (-1) dbterm, true)
    else if balance = -1 then
      match p1 with
      | .null => none
      | .node addr1 left1 p2 balance1 dbterm1 =>
        if balance1 = -1 then -- single LL rotation
          some (.node addr1 left1 (.node addr p2 right 0 dbterm) 0 dbterm1, false)
        else
          match p2 with -- double rotation
          | .null => none
          | .node addr2 left2 right2 balance2 dbterm2 =>
            some (.node addr2 (.node addr1 left1 left2 (if balance2 = 1 then -1 else 0) dbterm1)
              (.node addr right2 right (if balance2 = -1 then 1 else 0) dbterm) 0 dbterm2, false)
    else some (.node addr p1 right balance dbterm, true)
  | .right, .node addr left p1 balance dbterm =>
    if balance = -1 then some (.node addr left p1 0 dbterm, false)
    else if balance = 0 then some (.node addr left p1 1 dbterm, true)
    else if balance = 1 then
      match p1 with
      | .null => none
      | .node addr1 p2 right1 balance1 dbterm1 =>
        if balance1 = 1 then -- single RR rotation
          some (.node addr1 (.node addr left p2 0 dbterm) right1 0 dbterm1, false)
        else
          match p2 with -- double RL rotation
          | .null => none
          | .node addr2 left2 right2 balance2 dbterm2 =>
            some (.node addr2 (.node addr left left2 (if balance2 = 1 then -1 else 0) dbterm)
              (.node addr1 right2 right1 (if balance2 = -1 then 1 else 0) dbterm1) 0 dbterm2, false)
    else some (.node addr left p1 balance dbterm, true)

/-- The loop `while (state && (dir = dstack[--dpos]) != DIR_END)` over either
per-node step. Once `state` is clear the nodes above are left as they are. -/
def unwind (step : Dir → TreeDbTerm Obj → Option (TreeDbTerm Obj × Bool)) :
    Bool → TreeDbTerm Obj → List (Frame Obj) → Option (TreeDbTerm Obj × Bool)
  | state, this, [] => some (this, state)
  | false, this, frame :: frames => unwind step false (frame.attach this) frames
  | true, this, frame :: frames => do
    let (this, state) ← step frame.dir (frame.attach this)
    unwind step state this frames

section

variable (order : KeyOrder Key Obj) (tb : DbTableTree Obj)

/-- Insert an object. `addr` is where the allocator put the new node, or where
`replace_dbterm` left the replaced one. -/
def dbPutTree (obj : Obj) (keyClashFail : Bool) (addr : Nat) : Option (DbTableTree Obj × DbError) :=
  let key := order.getKey obj
  let tb := resetStaticStack tb
  match descend order key tb.root [] with
  | (.null, frames) =>
    if tb.nitems + 1 ≥ treeMaxElements then some (tb, .sysres)
    else do
      let (root, _) ← unwind putBalance true (.node addr .null .null 0 obj) frames
      some ({ tb with root, nitems := tb.nitems + 1 }, .none)
  | (.node _ left right balance _, frames) =>
    if keyClashFail then some (tb, .badKey)
    else do
      let (root, _) ← unwind putBalance false (.node addr left right balance obj) frames
      some ({ tb with root }, .none)

/-- The left subtree of `*this` has become one lower. -/
def balanceLeft : TreeDbTerm Obj → Option (TreeDbTerm Obj × Bool)
  | .null => none
  | .node addr left p1 balance dbterm =>
    if balance = -1 then some (.node addr left p1 0 dbterm, true)
    else if balance = 0 then some (.node addr left p1 1 dbterm, false)
    else if balance = 1 then
      match p1 with
      | .null => none
      | .node addr1 p2 right1 b1 dbterm1 =>
        if b1 ≥ 0 then -- single RR rotation
          if b1 = 0 then
            some (.node addr1 (.node addr left p2 1 dbterm) right1 (-1) dbterm1, false)
          else
            some (.node addr1 (.node addr left p2 0 dbterm) right1 0 dbterm1, true)
        else
          match p2 with -- double RL rotation
          | .null => none
          | .node addr2 left2 right2 b2 dbterm2 =>
            some (.node addr2 (.node addr left left2 (if b2 = 1 then -1 else 0) dbterm)
              (.node addr1 right2 right1 (if b2 = -1 then 1 else 0) dbterm1) 0 dbterm2, true)
    else some (.node addr left p1 balance dbterm, true)

/-- The right subtree of `*this` has become one lower. -/
def balanceRight : TreeDbTerm Obj → Option (TreeDbTerm Obj × Bool)
  | .null => none
  | .node addr p1 right balance dbterm =>
    if balance = 1 then some (.node addr p1 right 0 dbterm, true)
    else if balance = 0 then some (.node addr p1 right (-1) dbterm, false)
    else if balance = -1 then
      match p1 with
      | .null => none
      | .node addr1 left1 p2 b1 dbterm1 =>
        if b1 ≤ 0 then -- single LL rotation
          if b1 = 0 then
            some (.node addr1 left1 (.node addr p2 right (-1) dbterm) 1 dbterm1, false)
          else
            some (.node addr1 left1 (.node addr p2 right 0 dbterm) 0 dbterm1, true)
        else
          match p2 with -- double LR rotation
          | .null => none
          | .node addr2 left2 right2 b2 dbterm2 =>
            some (.node addr2 (.node addr1 left1 left2 (if b2 = 1 then -1 else 0) dbterm1)
              (.node addr right2 right (if b2 = -1 then 1 else 0) dbterm) 0 dbterm2, true)
    else some (.node addr p1 right balance dbterm, true)

/-- The deletion loops call `balance_left` or `balance_right` by direction. -/
def linkoutBalance : Dir → TreeDbTerm Obj → Option (TreeDbTerm Obj × Bool)
  | .left, this => balanceLeft this
  | .right, this => balanceRight this

/-- The walk of `delsub` down the right children. It returns the address and
object of the node without a right child, that node's left subtree, which
takes its slot, and the stacked slots above. -/
def delsubWalk : TreeDbTerm Obj → List (Frame Obj) →
    Option ((Nat × Obj) × TreeDbTerm Obj × List (Frame Obj))
  | .null, _ => none
  | .node addr left .null _ dbterm, frames => some ((addr, dbterm), left, frames)
  | .node addr left right balance dbterm, frames =>
    delsubWalk right (⟨.right, addr, left, balance, dbterm⟩ :: frames)

/-- Move the predecessor of `q = *this` into its place. The bottom entry of the
stack is re-pointed to the left slot of the moved node, so that the loop
leaves its result there. -/
def delsub : TreeDbTerm Obj → Option (TreeDbTerm Obj × Bool)
  | .null => none
  | .node _ left right balance _ => do
    let ((addr, dbterm), rest, frames) ← delsubWalk left []
    let (left, h) ← unwind linkoutBalance true rest frames
    some (.node addr left right balance dbterm, h)

/-- The first turn of the loop after `delsub`: `this` itself was pushed with
`DIR_LEFT` before the call. -/
def delsubTurn (state : Bool) (this : TreeDbTerm Obj) : Option (TreeDbTerm Obj × Bool) :=
  if state then balanceLeft this else some (this, state)

/-- Unlink the node found at `*this` and rebalance from there. -/
def linkoutNode (this : TreeDbTerm Obj) (frames : List (Frame Obj)) :
    Option (TreeDbTerm Obj × Bool) :=
  match this with
  | .null => none
  | .node _ left .null _ _ => unwind linkoutBalance true left frames
  | .node _ .null right _ _ => unwind linkoutBalance true right frames
  | this => do
    let (this, state) ← delsub this
    let (this, state) ← delsubTurn state this
    unwind linkoutBalance state this frames

/-- `linkout_tree` and `linkout_object_tree`: `accept` is the test made on the
object found under an equal key. The result carries the unlinked object. -/
def linkout (key : Key) (accept : Obj → Bool) : Option (DbTableTree Obj × Option Obj) :=
  let tb := resetStaticStack tb
  match descend order key tb.root [] with
  | (.null, _) => some (tb, .none)
  | (.node addr left right balance dbterm, frames) =>
    if accept dbterm then do
      let (root, _) ← linkoutNode (.node addr left right balance dbterm) frames
      some ({ tb with root, nitems := tb.nitems - 1 }, some dbterm)
    else some (tb, .none)

def linkoutTree (key : Key) : Option (DbTableTree Obj × Option Obj) :=
  linkout order tb key fun _ => true

def linkoutObjectTree [DecidableEq Obj] (object : Obj) : Option (DbTableTree Obj × Option Obj) :=
  linkout order tb (order.getKey object) fun dbterm => object = dbterm

def dbEraseTree (key : Key) : Option (DbTableTree Obj × DbError) := do
  let (tb, _) ← linkoutTree order tb key
  some (tb, .none)

def dbEraseObjectTree [DecidableEq Obj] (object : Obj) : Option (DbTableTree Obj × DbError) := do
  let (tb, _) ← linkoutObjectTree order tb object
  some (tb, .none)

/-- The list returned by `db_take_tree` has the removed object, if any. -/
def dbTakeTree (key : Key) : Option (DbTableTree Obj × DbError × List Obj) := do
  let (tb, taken) ← linkoutTree order tb key
  some (tb, .none, taken.toList)

end

end Otp.Ets
