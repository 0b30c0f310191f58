import Otp.Library.SortedList

/-! General balanced trees (`gb_trees.erl`). A term that stands for a tree is `nil`,
a tuple of four, or the tuple of three by which `insert_1` reports a leaf that
is too deep; no function but `insert_1` has a clause for the last. -/

namespace Otp.GbTrees

variable {Key Value : Type}

inductive Node (Key Value : Type) where
  | nil
  | node (key : Key) (value : Value) (smaller bigger : Node Key Value)
  | triple (tree : Node Key Value) (height size : Int)
  deriving Repr

/-- How a call fails. -/
inductive Failure (Key : Type) where
  | keyExists (key : Key)
  | functionClause
  | badmatch
  deriving DecidableEq, Repr

/-- The tuple of the size and the tree. -/
structure Tree (Key Value : Type) where
  size : Int
  root : Node Key Value

abbrev Outcome (Key Result : Type) := Except (Failure Key) Result

def empty : Tree Key Value := ⟨0, .nil⟩

/-- `to_list/2`. -/
def toListOnto : Node Key Value → List (Key × Value) → Outcome Key (List (Key × Value))
  | .node key value small big, l => do
    let rest ← toListOnto big l
    toListOnto small ((key, value) :: rest)
  | .nil, l => .ok l
  | .triple .., _ => .error .functionClause

def toList_1 (t : Node Key Value) : Outcome Key (List (Key × Value)) := toListOnto t []

section

variable (tree : Tree Key Value)

def toList : Outcome Key (List (Key × Value)) := toListOnto tree.root []

/-- `keys/2`. -/
def keysOnto : Node Key Value → List Key → Outcome Key (List Key)
  | .node key _ small big, l => do
    let rest ← keysOnto big l
    keysOnto small (key :: rest)
  | .nil, l => .ok l
  | .triple .., _ => .error .functionClause

def keys : Outcome Key (List Key) := keysOnto tree.root []

/-- Two to the height, and the number of nodes. -/
def count : Node Key Value → Outcome Key (Int × Int)
  | .node _ _ .nil .nil => .ok (1, 1)
  | .node _ _ sm bi => do
    let (h1, s1) ← count sm
    let (h2, s2) ← count bi
    .ok (2 * max h1 h2, s1 + s2 + 1)
  | .nil => .ok (1, 0)
  | .triple .. => .error .functionClause

def balanceList_1 (l : List (Key × Value)) (s : Int) :
    Outcome Key (Node Key Value × List (Key × Value)) :=
  if s > 1 then do
    let sm := s - 1
    let s2 := sm / 2
    let s1 := sm - s2
    match ← balanceList_1 l s1 with
    | (t1, (k, v) :: l1) =>
      let (t2, l2) ← balanceList_1 l1 s2
      .ok (.node k v t1 t2, l2)
    | (_, []) => .error .badmatch
  else if s = 1 then
    match l with
    | (key, val) :: l => .ok (.node key val .nil .nil, l)
    | [] => .error .functionClause
  else if s = 0 then .ok (.nil, l)
  else .error .functionClause
termination_by s.toNat
decreasing_by all_goals omega

def balanceList (l : List (Key × Value)) (s : Int) : Outcome Key (Node Key Value) := do
  match ← balanceList_1 l s with
  | (t, []) => .ok t
  | (_, _ :: _) => .error .badmatch

/-- `balance/2`. -/
def balanceTree (t : Node Key Value) (s : Int) : Outcome Key (Node Key Value) := do
  let l ← toList_1 t
  balanceList l s

/-- `balance/1`. -/
def balance : Outcome Key (Tree Key Value) := do
  let t ← balanceTree tree.root tree.size
  .ok ⟨tree.size, t⟩

def fromOrddict (l : List (Key × Value)) : Outcome Key (Tree Key Value) := do
  let t ← balanceList l l.length
  .ok ⟨l.length, t⟩

def smallest_1 : Node Key Value → Outcome Key (Key × Value)
  | .node key value .nil _ => .ok (key, value)
  | .node _ _ smaller _ => smallest_1 smaller
  | .nil => .error .functionClause
  | .triple .. => .error .functionClause

def smallest : Outcome Key (Key × Value) := smallest_1 tree.root

def takeSmallest1 : Node Key Value → Outcome Key (Key × Value × Node Key Value)
  | .node key value .nil larger => .ok (key, value, larger)
  | .node key value smaller larger => do
    let (key1, value1, smaller1) ← takeSmallest1 smaller
    .ok (key1, value1, .node key value smaller1 larger)
  | .nil => .error .functionClause
  | .triple .. => .error .functionClause

def takeSmallest : Outcome Key (Key × Value × Tree Key Value) :=
  if 0 ≤ tree.size then do
    let (key, value, larger) ← takeSmallest1 tree.root
    .ok (key, value, ⟨tree.size - 1, larger⟩)
  else .error .functionClause

def largest_1 : Node Key Value → Outcome Key (Key × Value)
  | .node key value _ .nil => .ok (key, value)
  | .node _ _ _ larger => largest_1 larger
  | .nil => .error .functionClause
  | .triple .. => .error .functionClause

def largest : Outcome Key (Key × Value) := largest_1 tree.root

def takeLargest1 : Node Key Value → Outcome Key (Key × Value × Node Key Value)
  | .node key value smaller .nil => .ok (key, value, smaller)
  | .node key value smaller larger => do
    let (key1, value1, larger1) ← takeLargest1 larger
    .ok (key1, value1, .node key value smaller larger1)
  | .nil => .error .functionClause
  | .triple .. => .error .functionClause

def takeLargest : Outcome Key (Key × Value × Tree Key Value) :=
  if 0 ≤ tree.size then do
    let (key, value, smaller) ← takeLargest1 tree.root
    .ok (key, value, ⟨tree.size - 1, smaller⟩)
  else .error .functionClause

end

section

variable (cmp : Key → Key → Ordering)

def lookup_1 (key : Key) : Node Key Value → Outcome Key (Option Value)
  | .node key1 value smaller bigger =>
    match cmp key key1 with
    | .lt => lookup_1 key smaller
    | .gt => lookup_1 key bigger
    | .eq => .ok (some value)
  | .nil => .ok none
  | .triple .. => .error .functionClause

def lookup (key : Key) (tree : Tree Key Value) : Outcome Key (Option Value) :=
  lookup_1 cmp key tree.root

def isDefined_1 (key : Key) : Node Key Value → Outcome Key Bool
  | .node key1 _ smaller bigger =>
    match cmp key key1 with
    | .lt => isDefined_1 key smaller
    | .gt => isDefined_1 key bigger
    | .eq => .ok true
  | .nil => .ok false
  | .triple .. => .error .functionClause

def isDefined (key : Key) (tree : Tree Key Value) : Outcome Key Bool :=
  isDefined_1 cmp key tree.root

def update_1 (key : Key) (value : Value) : Node Key Value → Outcome Key (Node Key Value)
  | .node key1 v smaller bigger =>
    match cmp key key1 with
    | .lt => do .ok (.node key1 v (← update_1 key value smaller) bigger)
    | .gt => do .ok (.node key1 v smaller (← update_1 key value bigger))
    | .eq => .ok (.node key value smaller bigger)
  | .nil => .error .functionClause
  | .triple .. => .error .functionClause

def update (key : Key) (val : Value) (tree : Tree Key Value) : Outcome Key (Tree Key Value) := do
  .ok ⟨tree.size, ← update_1 cmp key val tree.root⟩

/-- The node over a subtree with a leaf that is too deep: balanced when it is too high
for its size, else reported further up. -/
def report (t : Node Key Value) (h1 s1 : Int) (sibling : Node Key Value) :
    Outcome Key (Node Key Value) := do
  let (h2, s2) ← count sibling
  let h := 2 * max h1 h2
  let ss := s1 + s2 + 1
  if h > ss * ss then balanceTree t ss else .ok (.triple t h ss)

def insert_1 (key : Key) (value : Value) : Node Key Value → Int → Outcome Key (Node Key Value)
  | .node key1 v smaller bigger, s =>
    match cmp key key1 with
    | .lt => do
      match ← insert_1 key value smaller (s / 2) with
      | .triple t1 h1 s1 => report (.node key1 v t1 bigger) h1 s1 bigger
      | t1 => .ok (.node key1 v t1 bigger)
    | .gt => do
      match ← insert_1 key value bigger (s / 2) with
      | .triple t1 h1 s1 => report (.node key1 v smaller t1) h1 s1 smaller
      | t1 => .ok (.node key1 v smaller t1)
    | .eq => .error (.keyExists key)
  | .nil, s =>
    if s = 0 then .ok (.triple (.node key value .nil .nil) 1 1) else .ok (.node key value .nil .nil)
  | .triple .., _ => .error (.keyExists key)

def insert (key : Key) (val : Value) (tree : Tree Key Value) : Outcome Key (Tree Key Value) := do
  let s1 := tree.size + 1
  .ok ⟨s1, ← insert_1 cmp key val tree.root (s1 * s1)⟩

def enter (key : Key) (val : Value) (tree : Tree Key Value) : Outcome Key (Tree Key Value) := do
  if ← isDefined cmp key tree then update cmp key val tree else insert cmp key val tree

def merge : Node Key Value → Node Key Value → Outcome Key (Node Key Value)
  | smaller, .nil => .ok smaller
  | .nil, larger => .ok larger
  | smaller, larger => do
    let (key, value, larger1) ← takeSmallest1 larger
    .ok (.node key value smaller larger1)

def delete_1 (key : Key) : Node Key Value → Outcome Key (Node Key Value)
  | .node key1 value smaller larger =>
    match cmp key key1 with
    | .lt => do .ok (.node key1 value (← delete_1 key smaller) larger)
    | .gt => do .ok (.node key1 value smaller (← delete_1 key larger))
    | .eq => merge smaller larger
  | .nil => .error .functionClause
  | .triple .. => .error .functionClause

def delete (key : Key) (tree : Tree Key Value) : Outcome Key (Tree Key Value) :=
  if 0 ≤ tree.size then do .ok ⟨tree.size - 1, ← delete_1 cmp key tree.root⟩
  else .error .functionClause

def deleteAny (key : Key) (tree : Tree Key Value) : Outcome Key (Tree Key Value) := do
  if ← isDefined cmp key tree then delete cmp key tree else .ok tree

end

def map_1 (f : Key → Value → Value) : Node Key Value → Outcome Key (Node Key Value)
  | .nil => .ok .nil
  | .node k v smaller larger => do
    .ok (.node k (f k v) (← map_1 f smaller) (← map_1 f larger))
  | .triple .. => .error .functionClause

def map (f : Key → Value → Value) (tree : Tree Key Value) : Outcome Key (Tree Key Value) := do
  .ok ⟨tree.size, ← map_1 f tree.root⟩

abbrev Iterator (Key Value : Type) := List (Node Key Value)

/-- `iterator/2`. -/
def iteratorOnto : Node Key Value → Iterator Key Value → Outcome Key (Iterator Key Value)
  | .node key value .nil bigger, as => .ok (.node key value .nil bigger :: as)
  | .node key value l bigger, as => iteratorOnto l (.node key value l bigger :: as)
  | .nil, as => .ok as
  | .triple .., _ => .error .functionClause

def iterator_1 (t : Node Key Value) : Outcome Key (Iterator Key Value) := iteratorOnto t []

def iterator (tree : Tree Key Value) : Outcome Key (Iterator Key Value) := iterator_1 tree.root

section

variable (cmp : Key → Key → Ordering)

/-- `iterator_from/3`. -/
def iteratorFromOnto (s : Key) :
    Node Key Value → Iterator Key Value → Outcome Key (Iterator Key Value)
  | .node k value l t, as =>
    if cmp k s = .lt then iteratorFromOnto s t as
    else
      match l with
      | .nil => .ok (.node k value .nil t :: as)
      | l => iteratorFromOnto s l (.node k value l t :: as)
  | .nil, as => .ok as
  | .triple .., _ => .error .functionClause

def iterator_1From (s : Key) (t : Node Key Value) : Outcome Key (Iterator Key Value) :=
  iteratorFromOnto cmp s t []

def iteratorFrom (s : Key) (tree : Tree Key Value) : Outcome Key (Iterator Key Value) :=
  iterator_1From cmp s tree.root

end

def next : Iterator Key Value → Outcome Key (Option (Key × Value × Iterator Key Value))
  | .node x v _ t :: as => do .ok (some (x, v, ← iteratorOnto t as))
  | [] => .ok none
  | .nil :: _ => .error .functionClause
  | .triple .. :: _ => .error .functionClause

end Otp.GbTrees
