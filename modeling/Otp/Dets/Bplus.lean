import Otp.Library.Separated
import Otp.Dets.Alloc

/-! The B+ tree of `dets_utils.erl`. Where the source walks through a tuple by
position, the functions here take what lies before the position, the nearest
first, and what lies behind it. -/

namespace Otp.Dets.Bplus

open Otp.Library.Separated

def maxSize : Nat := 16

def minSize : Nat := 8

/-- `{l, K1, ..., Kn}`. -/
structure Leaf where
  keys : List Nat

/-- `{n, T1, K1, T2, ..., Tn}`, every subtree but the last with the key on its right. -/
structure Node (SubTree : Type) where
  init : List (SubTree × Nat)
  last : SubTree

/-- The leaves of a tree are at one depth. -/
def Tree : Nat → Type
  | 0 => Leaf
  | height + 1 => Node (Tree height)

/-- `bplus_empty_tree` is `v`. -/
inductive Root where
  | v
  | tree {height : Nat} (tree : Tree height)

variable {height : Nat}

def bplusGetSize : {height : Nat} → Tree height → Nat
  | 0, ⟨keys⟩ => keys.length
  | _ + 1, ⟨init, _⟩ => init.length + 1

abbrev Full (tree : Tree height) : Prop := bplusGetSize tree ≥ maxSize

abbrev OverFull (tree : Tree height) : Prop := bplusGetSize tree > maxSize

abbrev UnderFilled (tree : Tree height) : Prop := bplusGetSize tree < minSize

abbrev LowFilled (tree : Tree height) : Prop := bplusGetSize tree ≤ minSize

def bplusMkLeaf (keyList : List Nat) : Tree 0 := ⟨keyList⟩

def bplusMkNode (before : List (Tree height × Nat)) (subTree : Tree height)
    (after : List (Nat × Tree height)) : Tree (height + 1) :=
  ⟨(close before subTree after).1, (close before subTree after).2⟩

section

variable (key : Nat)

/-- From the last subtree to the first. -/
def bplusSelectSubTree2 : List (Tree height × Nat) → Tree height → List (Nat × Tree height) →
    List (Tree height × Nat) × Tree height × List (Nat × Tree height)
  | [], subTree, after => ([], subTree, after)
  | (tree, k) :: before, subTree, after =>
    if k > key then bplusSelectSubTree2 before tree ((k, subTree) :: after)
    else ((tree, k) :: before, subTree, after)

def bplusSelectSubTree (init : List (Tree height × Nat)) (last : Tree height) :
    List (Tree height × Nat) × Tree height × List (Nat × Tree height) :=
  bplusSelectSubTree2 key init.reverse last []

def bplusLookupLeaf2 : List Nat → Option Nat
  | [] => none
  | k :: below => if k = key then some key else bplusLookupLeaf2 below

def lookupIn : {height : Nat} → Tree height → Option Nat
  | 0, ⟨keys⟩ => bplusLookupLeaf2 key keys.reverse
  | _ + 1, ⟨init, last⟩ => lookupIn (bplusSelectSubTree key init last).2.1

def bplusLookup : Root → Option Nat
  | .v => none
  | .tree tree => lookupIn key tree

end

def lookupFirstIn : {height : Nat} → Tree height → Except Failure Nat
  | 0, ⟨[]⟩ => .error .badarg
  | 0, ⟨key :: _⟩ => .ok key
  | _ + 1, ⟨[], last⟩ => lookupFirstIn last
  | _ + 1, ⟨(first, _) :: _, _⟩ => lookupFirstIn first

def bplusLookupFirst : Root → Except Failure (Option Nat)
  | .v => .ok none
  | .tree tree => do return some (← lookupFirstIn tree)

/-- A leaf of fewer than two keys makes `element` fail at position zero. -/
def bplusSplitLeaf2 : List Nat → Nat → List Nat → Except Failure (Tree 0 × Nat × Tree 0)
  | k :: below, 1, accum => .ok (bplusMkLeaf below.reverse, k, bplusMkLeaf (k :: accum))
  | k :: below, n + 2, accum => bplusSplitLeaf2 below (n + 1) (k :: accum)
  | _, _, _ => .error .badarg

def bplusSplitLeaf (leaf : List Nat) : Except Failure (Tree 0 × Nat × Tree 0) :=
  bplusSplitLeaf2 leaf.reverse (leaf.length / 2) []

def bplusSplitNode2 : List (Tree height × Nat) → Tree height → Nat → List (Nat × Tree height) →
    Except Failure (Tree (height + 1) × Nat × Tree (height + 1))
  | (tree, k) :: before, subTree, 1, accum =>
    .ok (⟨before.reverse, tree⟩, k, bplusMkNode [] subTree accum)
  | (tree, k) :: before, subTree, n + 2, accum =>
    bplusSplitNode2 before tree (n + 1) ((k, subTree) :: accum)
  | _, _, _, _ => .error .badarg

def bplusSplitNode (init : List (Tree height × Nat)) (last : Tree height) :
    Except Failure (Tree (height + 1) × Nat × Tree (height + 1)) :=
  bplusSplitNode2 init.reverse last ((init.length + 1) / 2) []

/-- The two calls by `?NODE_TYPE`. -/
def split : {height : Nat} → Tree height → Except Failure (Tree height × Nat × Tree height)
  | 0, ⟨keys⟩ => bplusSplitLeaf keys
  | _ + 1, ⟨init, last⟩ => bplusSplitNode init last

/-- The appended lists of two neighbours, with the key between two nodes. -/
def append : {height : Nat} → Tree height → Nat → Tree height → Tree height
  | 0, ⟨keys⟩, _, ⟨keys'⟩ => ⟨keys ++ keys'⟩
  | _ + 1, ⟨init, last⟩, key, ⟨init', last'⟩ => ⟨init ++ (last, key) :: init', last'⟩

section

variable (before : List (Tree height × Nat)) (after : List (Nat × Tree height))

/-- `before` ends to the left of `lTree`, whose right key is `lKey`. The answer tagged
`left` is put into the node at once, and so are the other answers below. -/
def bplusReorganizeTreeL (lTree : Tree height) (lKey : Nat) (newSubTree : Tree height) :
    Except Failure (Tree (height + 1)) := do
  let (leftT, dKey, middleT) ← split (append lTree lKey newSubTree)
  return bplusMkNode ((leftT, dKey) :: before) middleT after

def bplusReorganizeTreeR (newSubTree : Tree height) (rKey : Nat) (rTree : Tree height) :
    Except Failure (Tree (height + 1)) := do
  let (middleT, dKey, rightT) ← split (append newSubTree rKey rTree)
  return bplusMkNode before middleT ((dKey, rightT) :: after)

def bplusReorganizeTreeS (newSubTree : Tree height) : Except Failure (Tree (height + 1)) := do
  let (leftT, dKey, rightT) ← split newSubTree
  return bplusMkNode before leftT ((dKey, rightT) :: after)

def bplusReorganizeTreeJl (lTree : Tree height) (lKey : Nat) (newSubTree : Tree height) :
    Except Failure (Tree (height + 1)) :=
  .ok (bplusMkNode before (append lTree lKey newSubTree) after)

def bplusReorganizeTreeJr (newSubTree : Tree height) (rKey : Nat) (rTree : Tree height) :
    Except Failure (Tree (height + 1)) :=
  .ok (bplusMkNode before (append newSubTree rKey rTree) after)

end

/-- A single subtree has no neighbour at position two. -/
def bplusReorganizeTreeIns (newSubTree : Tree height) :
    List (Tree height × Nat) → List (Nat × Tree height) → Except Failure (Tree (height + 1))
  | [], [] => .error .badarg
  | [], (rKey, rTree) :: after =>
    if Full rTree then bplusReorganizeTreeS [] ((rKey, rTree) :: after) newSubTree
    else bplusReorganizeTreeR [] after newSubTree rKey rTree
  | (lTree, lKey) :: before, [] =>
    if Full lTree then bplusReorganizeTreeS ((lTree, lKey) :: before) [] newSubTree
    else bplusReorganizeTreeL before [] lTree lKey newSubTree
  | (lTree, lKey) :: before, (rKey, rTree) :: after =>
    if bplusGetSize lTree > bplusGetSize rTree then
      bplusReorganizeTreeR ((lTree, lKey) :: before) after newSubTree rKey rTree
    else if bplusGetSize lTree < bplusGetSize rTree then
      bplusReorganizeTreeL before ((rKey, rTree) :: after) lTree lKey newSubTree
    else if Full lTree then
      bplusReorganizeTreeS ((lTree, lKey) :: before) ((rKey, rTree) :: after) newSubTree
    else bplusReorganizeTreeL before ((rKey, rTree) :: after) lTree lKey newSubTree

def bplusReorganizeTreeDel (newSubTree : Tree height) :
    List (Tree height × Nat) → List (Nat × Tree height) → Except Failure (Tree (height + 1))
  | [], [] => .error .badarg
  | [], (rKey, rTree) :: after =>
    if LowFilled rTree then bplusReorganizeTreeJr [] after newSubTree rKey rTree
    else bplusReorganizeTreeR [] after newSubTree rKey rTree
  | (lTree, lKey) :: before, [] =>
    if LowFilled lTree then bplusReorganizeTreeJl before [] lTree lKey newSubTree
    else bplusReorganizeTreeL before [] lTree lKey newSubTree
  | (lTree, lKey) :: before, (rKey, rTree) :: after =>
    if bplusGetSize lTree > bplusGetSize rTree then
      bplusReorganizeTreeL before ((rKey, rTree) :: after) lTree lKey newSubTree
    else if bplusGetSize lTree < bplusGetSize rTree then
      bplusReorganizeTreeR ((lTree, lKey) :: before) after newSubTree rKey rTree
    else if LowFilled lTree then
      bplusReorganizeTreeJl before ((rKey, rTree) :: after) lTree lKey newSubTree
    else bplusReorganizeTreeL before ((rKey, rTree) :: after) lTree lKey newSubTree

section

variable (key : Nat)

/-- The rest of the leaf is copied, as by `bplus_insert_in_leaf_3`. -/
def bplusInsertInLeaf2 : List Nat → List Nat → List Nat
  | [], accum => key :: accum
  | k :: below, accum =>
    if key < k then bplusInsertInLeaf2 below (k :: accum)
    else if k < key then below.reverse ++ k :: key :: accum
    else below.reverse ++ key :: accum

def bplusInsertInLeaf (leaf : List Nat) : List Nat := bplusInsertInLeaf2 key leaf.reverse []

def bplusInsertIn : {height : Nat} → Tree height → Except Failure (Tree height)
  | 0, ⟨keys⟩ => .ok (bplusMkLeaf (bplusInsertInLeaf key keys))
  | _ + 1, ⟨init, last⟩ => do
    let (before, subTree, after) := bplusSelectSubTree key init last
    let newSubTree ← bplusInsertIn subTree
    if OverFull newSubTree then bplusReorganizeTreeIns newSubTree before after
    else return bplusMkNode before newSubTree after

/-- A root that is too large is split, and the tree grows. -/
def bplusInsert : Root → Except Failure Root
  | .v => .ok (.tree (bplusMkLeaf [key]))
  | .tree tree => do
    let newTree ← bplusInsertIn key tree
    if OverFull newTree then
      let (lTree, dKey, rTree) ← split newTree
      return .tree (bplusMkNode [] lTree [(dKey, rTree)])
    else return .tree newTree

/-- A key that is not there leaves the leaf as it is. -/
def bplusDeleteInLeaf2 (leaf : List Nat) : List Nat → List Nat → List Nat
  | [], _ => leaf
  | k :: below, accum =>
    if key = k then below.reverse ++ accum else bplusDeleteInLeaf2 leaf below (k :: accum)

def bplusDeleteInLeaf (leaf : List Nat) : List Nat := bplusDeleteInLeaf2 key leaf leaf.reverse []

def bplusDeleteIn : {height : Nat} → Tree height → Except Failure (Tree height)
  | 0, ⟨keys⟩ => .ok (bplusMkLeaf (bplusDeleteInLeaf key keys))
  | _ + 1, ⟨init, last⟩ => do
    let (before, subTree, after) := bplusSelectSubTree key init last
    let newSubTree ← bplusDeleteIn subTree
    if UnderFilled newSubTree then bplusReorganizeTreeDel newSubTree before after
    else return bplusMkNode before newSubTree after

/-- The empty leaf becomes `v`, and a node with one subtree becomes that subtree. -/
def shrink : {height : Nat} → Tree height → Root
  | 0, ⟨[]⟩ => .v
  | _ + 1, ⟨[], last⟩ => .tree last
  | _, tree => .tree tree

def bplusDelete : Root → Except Failure Root
  | .v => .ok .v
  | .tree tree => do return shrink (← bplusDeleteIn key tree)

end

end Otp.Dets.Bplus
