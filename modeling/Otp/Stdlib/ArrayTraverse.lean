import Mathlib
import Otp.Stdlib.Array

/-! Reading and mapping whole arrays (`array.erl`). Each function has a twin
`sparse_…` that leaves out entries equal to the default; the twins share one
definition, which the flag `sparse` tells apart. -/

namespace Otp.Arrays

variable {Value Acc : Type} [DecidableEq Value]

/-- Does a traversal visit this entry? The sparse ones match it against `D`. -/
def visits (sparse : Bool) (d value : Value) : Bool := !sparse || value != d

def push : Nat → Item → List Item → List Item
  | 0, _, l => l
  | n + 1, e, l => push n e (e :: l)

/-- `push_tuple/3` and `sparse_push_tuple/4`. -/
def pushTuple (sparse : Bool) (d : Value) (t : Fin 10 → Value) :
    Nat → List Value → Outcome Value (List Value)
  | 0, l => .ok l
  | n + 1, l => do
    let e ← element t (n + 1)
    pushTuple sparse d t n (if visits sparse d e then e :: l else l)

/-- Entries that were never set, put in front of the list. -/
def pushUnexpanded (sparse : Bool) (n : Nat) (d : Value) (l : List Value) : List Value :=
  if sparse then l else push n d l

/-- `to_list_3/4`, where `visit N` is `to_list_2` on `element(N, E)`. -/
def toList_3 (visit : Nat → List Value → Outcome Value (List Value)) :
    Nat → List Value → Outcome Value (List Value)
  | 0, l => .ok l
  | n + 1, l => do
    let l ← visit (n + 1) l
    toList_3 visit n l

/-- `to_list_2/3` and `sparse_to_list_2/3`. -/
def toList_2 (sparse : Bool) (d : Value) : Elements Value → List Value → Outcome Value (List Value)
  | .node children s, l =>
    toList_3 (fun n l => atElement (fun c => toList_2 sparse d (children c) l)
      (.ok (pushUnexpanded sparse s d l)) n) 10 l
  | .unexpanded e, l => .ok (pushUnexpanded sparse e d l)
  | .leaf values, l => pushTuple sparse d values 10 l

/-- `to_list_1/3` and `sparse_to_list_1/3`: the entries up to `I`. -/
def toList_1 (sparse : Bool) (d : Value) : Elements Value → Nat → Outcome Value (List Value)
  | .node children s, i => do
    let n := i / s
    let l ← atElement (fun c => toList_1 sparse d (children c) (i % s))
      (.ok (pushUnexpanded sparse (i % s + 1) d [])) (n + 1)
    toList_3 (fun n l => atElement (fun c => toList_2 sparse d (children c) l)
      (.ok (pushUnexpanded sparse s d l)) n) n l
  | .unexpanded _, i => .ok (pushUnexpanded sparse (i + 1) d [])
  | .leaf values, i => pushTuple sparse d values (i + 1) []

def toListBy (sparse : Bool) (a : ArrayRecord Value) : Outcome Value (List Value) :=
  if a.size = 0 then .ok [] else toList_1 sparse a.default a.elements (a.size - 1)

def toList (a : ArrayRecord Value) : Outcome Value (List Value) := toListBy false a

def sparseToList (a : ArrayRecord Value) : Outcome Value (List Value) := toListBy true a

/-! The index of the last entry of a subtree goes down by the walk; past the first
entry of the array it is `-1`. -/

def pushPairs : Nat → Int → Value → List (Int × Value) → List (Int × Value)
  | 0, _, _, l => l
  | n + 1, i, e, l => pushPairs n (i - 1) e ((i, e) :: l)

/-- `push_tuple_pairs/4` and `sparse_push_tuple_pairs/5`. -/
def pushTuplePairs (sparse : Bool) (d : Value) (t : Fin 10 → Value) :
    Nat → Int → List (Int × Value) → Outcome Value (List (Int × Value))
  | 0, _, l => .ok l
  | n + 1, i, l => do
    let e ← element t (n + 1)
    pushTuplePairs sparse d t n (i - 1) (if visits sparse d e then (i, e) :: l else l)

/-- Entries that were never set, put in front of the list with their indices. -/
def pushUnexpandedPairs (sparse : Bool) (n : Nat) (r : Int) (d : Value) (l : List (Int × Value)) :
    List (Int × Value) :=
  if sparse then l else pushPairs n r d l

/-- `to_orddict_3/6`, where `visit N` is `to_orddict_2` on `element(N, E)`. -/
def toOrddict_3 (visit : Nat → Int → List (Int × Value) → Outcome Value (List (Int × Value)))
    (s : Nat) : Nat → Int → List (Int × Value) → Outcome Value (List (Int × Value))
  | 0, _, l => .ok l
  | n + 1, r, l => do
    let l ← visit (n + 1) r l
    toOrddict_3 visit s n (r - s) l

/-- `to_orddict_2/4` and `sparse_to_orddict_2/4`. -/
def toOrddict_2 (sparse : Bool) (d : Value) :
    Elements Value → Int → List (Int × Value) → Outcome Value (List (Int × Value))
  | .node children s, r, l =>
    toOrddict_3 (fun n r l => atElement (fun c => toOrddict_2 sparse d (children c) r l)
      (.ok (pushUnexpandedPairs sparse s r d l)) n) s 10 r l
  | .unexpanded e, r, l => .ok (pushUnexpandedPairs sparse e r d l)
  | .leaf values, r, l => pushTuplePairs sparse d values 10 r l

/-- `to_orddict_1/4` and `sparse_to_orddict_1/4`. -/
def toOrddict_1 (sparse : Bool) (d : Value) :
    Elements Value → Int → Nat → Outcome Value (List (Int × Value))
  | .node children s, r, i => do
    let n := i / s
    let i1 := i % s
    let l ← atElement (fun c => toOrddict_1 sparse d (children c) r i1)
      (.ok (pushUnexpandedPairs sparse (i1 + 1) r d [])) (n + 1)
    toOrddict_3 (fun n r l => atElement (fun c => toOrddict_2 sparse d (children c) r l)
      (.ok (pushUnexpandedPairs sparse s r d l)) n) s n (r - i1 - 1) l
  | .unexpanded _, r, i => .ok (pushUnexpandedPairs sparse (i + 1) r d [])
  | .leaf values, r, i => pushTuplePairs sparse d values (i + 1) r []

def toOrddictBy (sparse : Bool) (a : ArrayRecord Value) : Outcome Value (List (Int × Value)) :=
  if a.size = 0 then .ok []
  else
    let i := a.size - 1
    toOrddict_1 sparse a.default a.elements i i

def toOrddict (a : ArrayRecord Value) : Outcome Value (List (Int × Value)) := toOrddictBy false a

def sparseToOrddict (a : ArrayRecord Value) : Outcome Value (List (Int × Value)) :=
  toOrddictBy true a

/-! A fold descends into entries that were never set by unfolding the integer that
stands for them; the depth of the unfolded tree bounds the walk. -/

/-- The depth of the tree that an integer unfolds to, counting the unfolding. -/
def unexpandedDepth (s : Nat) : Nat := if 10 < s then unexpandedDepth (s / 10) + 2 else 1

def Elements.depth : Elements Value → Nat
  | .unexpanded s => unexpandedDepth s
  | .leaf _ => 0
  | .node children s =>
    Nat.max (Finset.univ.sup fun c => (children c).depth) (unexpandedDepth s) + 1

omit [DecidableEq Value] in
theorem depth_child {children : Fin 10 → Elements Value} {s : Nat} {c : Fin 10} :
    (children c).depth < (Elements.node children s).depth := by
  have below : (children c).depth ≤ Finset.univ.sup fun c => (children c).depth :=
    Finset.le_sup (f := fun c => (children c).depth) (Finset.mem_univ c)
  exact Nat.lt_succ_of_le (below.trans (Nat.le_max_left _ _))

omit [DecidableEq Value] in
theorem depth_last {children : Fin 10 → Elements Value} {s : Nat} :
    (Elements.unexpanded s : Elements Value).depth < (Elements.node children s).depth :=
  Nat.lt_succ_of_le (Nat.le_max_right _ _)

omit [DecidableEq Value] in
theorem depth_unfold {s : Nat} {d : Value} :
    (unfold s d).depth < (Elements.unexpanded s : Elements Value).depth := by
  by_cases large : 10 < s
  · rw [unfold, if_pos large, Elements.depth, unexpandedDepth, if_pos large, newNode]
    simp [Elements.depth]
  · simp [unfold, large, Elements.depth, newLeaf, unexpandedDepth]

/-- What a fold does at an entry; the sparse ones skip the default. -/
def visiting (sparse : Bool) (d : Value) (f : Int → Value → Acc → Outcome Value Acc) (ix : Int)
    (e : Value) (a : Acc) : Outcome Value Acc :=
  if visits sparse d e then f ix e a else .ok a

/-- `foldl_3/6` and `sparse_foldl_3/7`, `left` places before the end. -/
def foldl_3 (f : Int → Value → Acc → Outcome Value Acc) (e : Fin 10 → Value) :
    (left i : Nat) → Acc → Int → Outcome Value Acc
  | 0, _, a, _ => .ok a
  | left + 1, i, a, ix => do
    let value ← element e i
    let a ← f ix value a
    foldl_3 f e left (i + 1) a (ix + 1)

/-- `foldl_2/9` and `sparse_foldl_2/9`, `left` subtrees before the last one, where
`visit I N` is `foldl_1` on `element(I, E)` up to `N`. -/
def foldl_2 (visit : Nat → Nat → Acc → Int → Outcome Value Acc) (r s : Nat) :
    (left i : Nat) → Acc → Int → Outcome Value Acc
  | 0, i, a, ix => visit i r a ix
  | left + 1, i, a, ix => do
    let a ← visit i (s - 1) a ix
    foldl_2 visit r s left (i + 1) a (ix + s)

/-- `foldl_1/6` and `sparse_foldl_1/6`. -/
def foldl_1 (sparse : Bool) (d : Value) (f : Int → Value → Acc → Outcome Value Acc) :
    Nat → Elements Value → Acc → Int → Outcome Value Acc
  | n, .node children s, a, ix =>
    foldl_2 (fun i n a ix => atElement (fun c => foldl_1 sparse d f n (children c) a ix)
      (foldl_1 sparse d f n (.unexpanded s) a ix) i) (n % s) s (n / s) 1 a ix
  | n, .unexpanded e, a, ix =>
    if sparse then .ok a else foldl_1 sparse d f n (unfold e d) a ix
  | n, .leaf values, a, ix => foldl_3 (visiting sparse d f) values (n + 1) 1 a ix
termination_by _ e => e.depth
decreasing_by
  · exact depth_child
  · exact depth_last
  · exact depth_unfold

def foldlBy (sparse : Bool) (f : Int → Value → Acc → Outcome Value Acc) (a : Acc)
    (array : ArrayRecord Value) : Outcome Value Acc :=
  if 0 < array.size then foldl_1 sparse array.default f (array.size - 1) array.elements a 0
  else .ok a

section

variable (f : Int → Value → Acc → Outcome Value Acc)

def foldl (a : Acc) (array : ArrayRecord Value) : Outcome Value Acc :=
  foldlBy false f a array

def sparseFoldl (a : Acc) (array : ArrayRecord Value) : Outcome Value Acc :=
  foldlBy true f a array

/-- `foldr_3/5` and `sparse_foldr_3/6`. -/
def foldr_3 (f : Int → Value → Acc → Outcome Value Acc) (e : Fin 10 → Value) (ix : Int) :
    Nat → Acc → Outcome Value Acc
  | 0, a => .ok a
  | i + 1, a => do
    let value ← element e (i + 1)
    let a ← f (ix + (i + 1 : Nat)) value a
    foldr_3 f e ix i a

/-- `foldr_2/8` and `sparse_foldr_2/8`, where `visit I R` is `foldr_1` on
`element(I, E)` from `R` down. -/
def foldr_2 (visit : Nat → Nat → Int → Acc → Outcome Value Acc) (r0 : Nat) :
    Nat → Int → Acc → Nat → Outcome Value Acc
  | 0, _, a, _ => .ok a
  | i + 1, ix, a, r => do
    let a ← visit (i + 1) r ix a
    foldr_2 visit r0 i (ix - r - 1) a r0

/-- `foldr_1/6` and `sparse_foldr_1/6`. -/
def foldr_1 (sparse : Bool) (d : Value) (f : Int → Value → Acc → Outcome Value Acc) :
    Nat → Elements Value → Int → Acc → Outcome Value Acc
  | i, .node children s, ix, a =>
    foldr_2 (fun i r ix a => atElement (fun c => foldr_1 sparse d f r (children c) ix a)
      (foldr_1 sparse d f r (.unexpanded s) ix a) i) (s - 1) (i / s + 1) ix a (i % s)
  | i, .unexpanded e, ix, a =>
    if sparse then .ok a else foldr_1 sparse d f i (unfold e d) ix a
  | i, .leaf values, ix, a =>
    let i1 := i + 1
    foldr_3 (visiting sparse d f) values (ix - i1) i1 a
termination_by _ e => e.depth
decreasing_by
  · exact depth_child
  · exact depth_last
  · exact depth_unfold

def foldrBy (sparse : Bool) (f : Int → Value → Acc → Outcome Value Acc) (a : Acc)
    (array : ArrayRecord Value) : Outcome Value Acc :=
  if 0 < array.size then
    let i := array.size - 1
    foldr_1 sparse array.default f i array.elements i a
  else .ok a

def foldr (a : Acc) (array : ArrayRecord Value) : Outcome Value Acc :=
  foldrBy false f a array

def sparseFoldr (a : Acc) (array : ArrayRecord Value) : Outcome Value Acc :=
  foldrBy true f a array

end

/-- The index after the last entry that is not the default. -/
def sparseSize (a : ArrayRecord Value) : Outcome Value Int :=
  match sparseFoldr (fun i _ (_ : List Value) => .error (.value i)) [] a with
  | .ok [] => .ok 0
  | .ok (_ :: _) => .error .functionClause
  | .error (.value i) => .ok (i + 1)
  | .error exit => .error exit

/-- `resize/1`. -/
def resize (a : ArrayRecord Value) : Outcome Value (ArrayRecord Value) := do
  let size ← sparseSize a
  if 0 ≤ size then .ok (resizeTo size.toNat a) else .error .badarg

/-- `map_3/7`: the first `N` entries of a leaf are mapped, the others become the default. -/
def map_3 (f : Int → Value → Outcome Value Value) (d : Value) (e : Fin 10 → Value) (n : Nat) :
    (left i : Nat) → Int → List Value → Outcome Value (List Value)
  | 0, _, _, l => .ok l
  | left + 1, i, ix, l =>
    if i ≤ n then do
      let value ← element e i
      let value ← f ix value
      map_3 f d e n left (i + 1) (ix + 1) (value :: l)
    else map_3 f d e n left (i + 1) (ix + 1) (d :: l)

/-- `sparse_map_3/6`: all entries of a leaf but the defaults. -/
def sparseMap_3 (f : Int → Value → Outcome Value Value) (d : Value) (t : Fin 10 → Value) :
    (left i : Nat) → Int → List Value → Outcome Value (List Value)
  | 0, _, _, l => .ok l
  | left + 1, i, ix, l => do
    let e ← element t i
    if e = d then sparseMap_3 f d t left (i + 1) (ix + 1) (d :: l)
    else
      let value ← f ix e
      sparseMap_3 f d t left (i + 1) (ix + 1) (value :: l)

/-- `map_2_1/3`: the last `left` subtrees stay as they are. -/
def map_2_1 (children : Fin 10 → Elements Value) :
    (left i : Nat) → List (Elements Value) → Outcome Value (List (Elements Value))
  | 0, _, l => .ok l
  | left + 1, i, l => do
    let e ← element children i
    map_2_1 children left (i + 1) (e :: l)

/-- `map_2/9`, `left` subtrees before the last one that is mapped, where
`visit I N Ix` is `map_1` on `element(I, E)`. -/
def map_2 (visit : Nat → Nat → Int → Outcome Value (Elements Value))
    (children : Fin 10 → Elements Value) (r s : Nat) :
    (left i : Nat) → Int → List (Elements Value) → Outcome Value (List (Elements Value))
  | 0, i, ix, l => do
    let e ← visit i r ix
    map_2_1 children (10 - i) (i + 1) (e :: l)
  | left + 1, i, ix, l => do
    let e ← visit i (s - 1) ix
    map_2 visit children r s left (i + 1) (ix + s) (e :: l)

/-- `map_1/5` and `sparse_map_1/5`. -/
def map_1 (sparse : Bool) (d : Value) (f : Int → Value → Outcome Value Value) :
    Nat → Elements Value → Int → Outcome Value (Elements Value)
  | n, .node children s, ix => do
    let l ← map_2 (fun i n ix => atElement (fun c => map_1 sparse d f n (children c) ix)
      (map_1 sparse d f n (.unexpanded s) ix) i) children (n % s) s (n / s) 1 ix []
    let children ← listToTuple l.reverse
    .ok (.node children s)
  | n, .unexpanded e, ix =>
    if sparse then .ok (.unexpanded e) else map_1 sparse d f n (unfold e d) ix
  | n, .leaf values, ix => do
    let l ← if sparse then sparseMap_3 f d values 10 1 ix [] else map_3 f d values (n + 1) 10 1 ix []
    let values ← listToTuple l.reverse
    .ok (.leaf values)
termination_by _ e => e.depth
decreasing_by
  · exact depth_child
  · exact depth_last
  · exact depth_unfold

def mapBy (sparse : Bool) (f : Int → Value → Outcome Value Value) (a : ArrayRecord Value) :
    Outcome Value (ArrayRecord Value) :=
  if 0 < a.size then do
    let e ← map_1 sparse a.default f (a.size - 1) a.elements 0
    .ok { a with elements := e }
  else .ok a

def map (f : Int → Value → Outcome Value Value) (a : ArrayRecord Value) :
    Outcome Value (ArrayRecord Value) :=
  mapBy false f a

def sparseMap (f : Int → Value → Outcome Value Value) (a : ArrayRecord Value) :
    Outcome Value (ArrayRecord Value) :=
  mapBy true f a

end Otp.Arrays
