import Otp.Library.Machine
import Otp.Ets.TreeInvariant

/-! Every sequence of updates of an `ordered_set` table, compared with a finite
map kept as a plain list of objects with pairwise different keys. -/

namespace Otp.Ets

open List hiding after lookup
open Otp.Library TreeDbTerm

variable {Key Obj : Type} {order : KeyOrder Key Obj} {tb : DbTableTree Obj}

/-- What every operation keeps: a balanced search tree and an exact count
below the limit of the table. -/
structure TreeOk (order : KeyOrder Key Obj) (tb : DbTableTree Obj) : Prop where
  balanced : tb.root.Balanced
  sorted : Sorted order.cmp order.entryKey tb.root.entries
  count : tb.nitems = tb.root.entries.length
  room : tb.nitems < treeMaxElements

theorem dbCreateTree_ok (order : KeyOrder Key Obj) : TreeOk order dbCreateTree :=
  ⟨trivial, List.Pairwise.nil, rfl, Nat.succ_pos _⟩

/-- Resetting the traversal stack keeps the tree. -/
theorem TreeOk.reset (ok : TreeOk order tb) : TreeOk order (resetStaticStack tb) :=
  ⟨ok.balanced, ok.sorted, ok.count, ok.room⟩

/-- Where the search for a key ends in a well-formed table. -/
theorem descend_root (ok : TreeOk order tb) (key : Key) :
    Located order key tb.root.entries (descend order key tb.root []) := by
  have located := descend_located order key tb.root [] ok.balanced trivial
    (by simpa [framesBefore, framesAfter] using ok.sorted)
    ⟨by simp [framesBefore], by simp [framesAfter]⟩
  simpa [framesBefore, framesAfter] using located

/-- The possible effects of a `put` on the entries of the table. -/
inductive PutEffect (order : KeyOrder Key Obj) (tb : DbTableTree Obj) (obj : Obj)
    (keyClashFail : Bool) (addr : Nat) : DbTableTree Obj × DbError → Prop where
  | full (splits : Splits order.cmp order.entryKey (order.getKey obj) before after)
      (entries : tb.root.entries = before ++ after) (limit : tb.nitems + 1 ≥ treeMaxElements) :
      PutEffect order tb obj keyClashFail addr (resetStaticStack tb, .sysres)
  | inserted (splits : Splits order.cmp order.entryKey (order.getKey obj) before after)
      (entries : tb.root.entries = before ++ after) (limit : tb.nitems + 1 < treeMaxElements)
      (result : root.entries = before ++ (addr, obj) :: after) :
      PutEffect order tb obj keyClashFail addr
        ({ resetStaticStack tb with root, nitems := tb.nitems + 1 }, .none)
  | clash (entries : tb.root.entries = before ++ (addr', old) :: after)
      (same : order.cmp (order.getKey obj) (order.getKey old) = .eq) (fail : keyClashFail = true) :
      PutEffect order tb obj keyClashFail addr (resetStaticStack tb, .badKey)
  | replaced (entries : tb.root.entries = before ++ (addr', old) :: after)
      (same : order.cmp (order.getKey obj) (order.getKey old) = .eq)
      (replace : keyClashFail = false)
      (result : root.entries = before ++ (addr, obj) :: after) :
      PutEffect order tb obj keyClashFail addr ({ resetStaticStack tb with root }, .none)

theorem dbPutTree_spec (ok : TreeOk order tb) (obj : Obj) (keyClashFail : Bool) (addr : Nat) :
    ∃ result, dbPutTree order tb obj keyClashFail addr = some result ∧ TreeOk order result.1 ∧
      PutEffect order tb obj keyClashFail addr result := by
  have trans := order.trans
  have sorted := ok.sorted
  have found := descend_root ok (order.getKey obj)
  cases located : descend order (order.getKey obj) tb.root [] with
  | mk tree path =>
    rw [located] at found
    obtain ⟨balanced, wf, entries, gap, equal⟩ := found
    cases tree with
    | null =>
      have position := gap rfl
      have around : tb.root.entries = framesBefore path ++ framesAfter path := by
        simpa using entries.symm
      by_cases limit : tb.nitems + 1 ≥ treeMaxElements
      · refine ⟨(resetStaticStack tb, .sysres), ?_, ok.reset, .full position around limit⟩
        simp [dbPutTree, resetStaticStack, located, limit]
      · obtain ⟨root, final, success, rootBalanced, -, kept⟩ := unwind_put true
          (.node addr .null .null 0 obj) path (by simp) wf (by simp [Grown])
        have result : root.entries = framesBefore path ++ (addr, obj) :: framesAfter path := by
          simpa using kept
        rw [around] at sorted
        refine ⟨({ resetStaticStack tb with root, nitems := tb.nitems + 1 }, .none), ?_,
          ⟨rootBalanced, ?_, ?_, Nat.lt_of_not_le limit⟩,
            .inserted position around (by omega) result⟩
        · simp [dbPutTree, resetStaticStack, located, limit, success]
        · rw [result]
          exact sorted_insert sorted position
        · simp [result, ok.count, around]
          omega
    | node addr' left right balance old =>
      have slot : tb.root.entries = (framesBefore path ++ left.entries) ++ (addr', old) ::
          (right.entries ++ framesAfter path) := by
        simpa using entries.symm
      by_cases fail : keyClashFail = true
      · refine ⟨(resetStaticStack tb, .badKey), ?_, ok.reset, .clash slot (equal rfl) fail⟩
        simp [dbPutTree, resetStaticStack, located, fail]
      · obtain ⟨root, final, success, rootBalanced, -, kept⟩ := unwind_put false
          (.node addr left right balance obj) path (by simpa using balanced) wf (by simp [Grown])
        have result : root.entries = (framesBefore path ++ left.entries) ++ (addr, obj) ::
            (right.entries ++ framesAfter path) := by
          simpa using kept
        rw [slot] at sorted
        refine ⟨({ resetStaticStack tb with root }, .none), ?_, ⟨rootBalanced, ?_, ?_, ok.room⟩,
          .replaced slot (equal rfl) (by simpa using fail) result⟩
        · simp [dbPutTree, resetStaticStack, located, fail, success]
        · rw [result]
          exact sorted_replace sorted (equal rfl)
        · simp [result, ok.count, slot, resetStaticStack]

/-- The possible effects of unlinking the object under a key, if it is accepted. -/
inductive LinkoutEffect (order : KeyOrder Key Obj) (tb : DbTableTree Obj) (key : Key)
    (accept : Obj → Bool) : DbTableTree Obj × Option Obj → Prop where
  | missing (splits : Splits order.cmp order.entryKey key before after)
      (entries : tb.root.entries = before ++ after) :
      LinkoutEffect order tb key accept (resetStaticStack tb, .none)
  | refused (entries : tb.root.entries = before ++ (addr, old) :: after)
      (same : order.cmp key (order.getKey old) = .eq) (refuse : accept old = false) :
      LinkoutEffect order tb key accept (resetStaticStack tb, .none)
  | unlinked (entries : tb.root.entries = before ++ (addr, old) :: after)
      (same : order.cmp key (order.getKey old) = .eq) (accepted : accept old = true)
      (result : root.entries = before ++ after) :
      LinkoutEffect order tb key accept ({ resetStaticStack tb with root, nitems := tb.nitems - 1 },
        some old)

theorem linkout_spec (ok : TreeOk order tb) (key : Key) (accept : Obj → Bool) :
    ∃ result, linkout order tb key accept = some result ∧ TreeOk order result.1 ∧
      LinkoutEffect order tb key accept result := by
  have found := descend_root ok key
  cases located : descend order key tb.root [] with
  | mk tree path =>
    rw [located] at found
    obtain ⟨balanced, wf, entries, gap, equal⟩ := found
    cases tree with
    | null =>
      refine ⟨(resetStaticStack tb, .none), ?_, ok.reset,
        .missing (gap rfl) (by simpa using entries.symm)⟩
      simp [linkout, resetStaticStack, located]
    | node addr left right balance old =>
      have slot : tb.root.entries = (framesBefore path ++ left.entries) ++ (addr, old) ::
          (right.entries ++ framesAfter path) := by
        simpa using entries.symm
      by_cases accepted : accept old = true
      · obtain ⟨root, final, success, rootBalanced, kept⟩ := linkoutNode_spec balanced wf
        have result : root.entries = (framesBefore path ++ left.entries) ++
            (right.entries ++ framesAfter path) := by
          simpa using kept
        have sorted := ok.sorted
        rw [slot] at sorted
        refine ⟨({ resetStaticStack tb with root, nitems := tb.nitems - 1 }, some old), ?_,
          ⟨rootBalanced, ?_, ?_, Nat.lt_of_le_of_lt (Nat.sub_le _ 1) ok.room⟩,
          .unlinked slot (equal rfl) accepted result⟩
        · simp [linkout, resetStaticStack, located, accepted, success]
        · rw [result]
          exact sorted_remove sorted
        · simp [result, ok.count, slot]
          omega
      · refine ⟨(resetStaticStack tb, .none), ?_, ok.reset,
          .refused slot (equal rfl) (by simpa using accepted)⟩
        simp [linkout, resetStaticStack, located, accepted]

/-- The operations that change a table, with the address each allocation returns. -/
inductive TreeOp (Key Obj : Type) where
  | put (obj : Obj) (keyClashFail : Bool) (addr : Nat)
  | erase (key : Key)
  | eraseObject (object : Obj)
  | take (key : Key)

/-- A return code, and the objects `take` hands back. -/
abbrev TreeReply (Obj : Type) := DbError × List Obj

def treeStep [DecidableEq Obj] (order : KeyOrder Key Obj) (tb : DbTableTree Obj) :
    TreeOp Key Obj → Option (DbTableTree Obj × TreeReply Obj)
  | .put obj keyClashFail addr => do
    let (tb, code) ← dbPutTree order tb obj keyClashFail addr
    some (tb, code, [])
  | .erase key => do
    let (tb, code) ← dbEraseTree order tb key
    some (tb, code, [])
  | .eraseObject object => do
    let (tb, code) ← dbEraseObjectTree order tb object
    some (tb, code, [])
  | .take key => dbTakeTree order tb key

/-- The reference: a finite map kept as a list of objects. `full` tells at
which sizes it takes no new key. -/
def mapStep [DecidableEq Obj] (order : KeyOrder Key Obj) (full : Nat → Bool) (objs : List Obj) :
    TreeOp Key Obj → List Obj × TreeReply Obj
  | .put obj keyClashFail _ =>
    match lookup order.cmp order.getKey objs (order.getKey obj) with
    | some _ =>
      if keyClashFail then (objs, .badKey, [])
      else (obj :: remove order.cmp order.getKey objs (order.getKey obj), .none, [])
    | none => if full objs.length then (objs, .sysres, []) else (obj :: objs, .none, [])
  | .erase key => (remove order.cmp order.getKey objs key, .none, [])
  | .eraseObject object =>
    if lookup order.cmp order.getKey objs (order.getKey object) = some object then
      (remove order.cmp order.getKey objs (order.getKey object), .none, [])
    else (objs, .none, [])
  | .take key =>
    (remove order.cmp order.getKey objs key, .none, (lookup order.cmp order.getKey objs key).toList)

/-- A table of `TREE_MAX_ELEMENTS - 1` objects takes no new key. -/
def treeFull (size : Nat) : Bool := size + 1 ≥ treeMaxElements

def TreeDbTerm.objects (tree : TreeDbTerm Obj) : List Obj := tree.entries.map Prod.snd

/-- The table is well formed and has exactly the objects of the reference map. -/
structure TreeRelated (order : KeyOrder Key Obj) (tb : DbTableTree Obj) (objs : List Obj) : Prop
    extends TreeOk order tb where
  objects : tb.root.objects.Perm objs

theorem TreeOk.distinct (ok : TreeOk order tb) : Distinct order.cmp order.getKey tb.root.objects :=
  pairwise_map.mpr ok.sorted.distinct

theorem TreeRelated.lookup_eq (related : TreeRelated order tb objs) (key : Key) :
    lookup order.cmp order.getKey objs key =
      (lookup order.cmp order.entryKey tb.root.entries key).map Prod.snd := by
  have trans := order.trans
  rw [← related.distinct.lookup_perm related.objects key]
  exact lookup_map

theorem TreeRelated.remove_perm (related : TreeRelated order tb objs)
    (removed : remove order.cmp order.entryKey tb.root.entries key = rest) :
    (rest.map Prod.snd).Perm (remove order.cmp order.getKey objs key) := by
  subst rest
  have projected : (remove order.cmp order.entryKey tb.root.entries key).map Prod.snd =
      remove order.cmp order.getKey tb.root.objects key := by
    simp only [remove, TreeDbTerm.objects, filter_map]
    rfl
  rw [projected]
  exact related.objects.filter _

theorem TreeRelated.length_eq (related : TreeRelated order tb objs) : objs.length = tb.nitems := by
  rw [related.count, ← related.objects.length_eq, TreeDbTerm.objects, length_map]

/-- A key equal to that of an entry separates the entries around it. -/
theorem TreeOk.splits (ok : TreeOk order tb)
    (entries : tb.root.entries = before ++ (addr, old) :: after)
    (same : order.cmp key (order.getKey old) = .eq) :
    Splits order.cmp order.entryKey key before after := by
  have trans := order.trans
  have sorted := ok.sorted
  rw [entries] at sorted
  exact (sorted_splits sorted).congr same

/-- Resetting the traversal stack is invisible to the map. -/
theorem TreeRelated.reset (related : TreeRelated order tb objs) :
    TreeRelated order (resetStaticStack tb) objs :=
  ⟨related.toTreeOk.reset, related.objects⟩

theorem TreeRelated.lookup_missing (related : TreeRelated order tb objs)
    (splits : Splits order.cmp order.entryKey key before after)
    (entries : tb.root.entries = before ++ after) :
    lookup order.cmp order.getKey objs key = none := by
  rw [related.lookup_eq, entries, splits.lookup_none]
  rfl

theorem TreeRelated.lookup_found (related : TreeRelated order tb objs)
    (entries : tb.root.entries = before ++ (addr, old) :: after)
    (same : order.cmp key (order.getKey old) = .eq) :
    lookup order.cmp order.getKey objs key = some old := by
  have found : lookup order.cmp order.entryKey (before ++ (addr, old) :: after) key =
      some (addr, old) := (related.splits entries same).lookup_some same
  rw [related.lookup_eq, entries, found]
  rfl

/-- Taking out the entry under a key leaves the map without that key. -/
theorem TreeRelated.remove_found (related : TreeRelated order tb objs)
    (entries : tb.root.entries = before ++ (addr, old) :: after)
    (same : order.cmp key (order.getKey old) = .eq) : ((before ++ after).map Prod.snd).Perm
      (remove order.cmp order.getKey objs key) := by
  apply related.remove_perm
  rw [entries]
  exact (related.splits entries same).remove_some same

theorem put_related [DecidableEq Obj] (related : TreeRelated order tb objs) (obj : Obj)
    (keyClashFail : Bool) (addr : Nat) :
    ∃ next, treeStep order tb (.put obj keyClashFail addr) =
        some (next, (mapStep order treeFull objs (.put obj keyClashFail addr)).2) ∧
      TreeRelated order next (mapStep order treeFull objs (.put obj keyClashFail addr)).1 := by
  obtain ⟨⟨next, code⟩, success, kept, effect⟩ :=
    dbPutTree_spec related.toTreeOk obj keyClashFail addr
  refine ⟨next, ?_⟩
  simp only [treeStep, success, mapStep]
  cases effect with
  | full splits entries limit =>
    simp only [related.lookup_missing splits entries, treeFull, related.length_eq, limit,
      decide_true, if_true]
    exact ⟨rfl, related.reset⟩
  | inserted splits entries limit result =>
    have objects := related.objects
    simp only [TreeDbTerm.objects, entries, map_append] at objects
    simp only [related.lookup_missing splits entries, treeFull, related.length_eq,
      Nat.not_le.mpr limit, decide_false, Bool.false_eq_true, if_false]
    refine ⟨rfl, kept, ?_⟩
    simp only [TreeDbTerm.objects, result, map_append]
    exact perm_middle.trans (objects.cons obj)
  | clash entries same fail =>
    simp only [related.lookup_found entries same, fail, if_true]
    exact ⟨rfl, related.reset⟩
  | replaced entries same replace result =>
    have rest := related.remove_found entries same
    simp only [map_append] at rest
    simp only [related.lookup_found entries same, replace, Bool.false_eq_true, if_false]
    refine ⟨rfl, kept, ?_⟩
    simp only [TreeDbTerm.objects, result, map_append]
    exact perm_middle.trans (rest.cons obj)

/-- The reference for `linkout`: the accepted object under the key goes. -/
def mapLinkout (order : KeyOrder Key Obj) (objs : List Obj) (key : Key) (accept : Obj → Bool) :
    List Obj × Option Obj :=
  match lookup order.cmp order.getKey objs key with
  | some old =>
    if accept old then (remove order.cmp order.getKey objs key, some old) else (objs, none)
  | none => (objs, none)

theorem linkout_related (related : TreeRelated order tb objs) (key : Key) (accept : Obj → Bool) :
    ∃ next, linkout order tb key accept = some (next, (mapLinkout order objs key accept).2) ∧
      TreeRelated order next (mapLinkout order objs key accept).1 := by
  obtain ⟨⟨next, taken⟩, success, kept, effect⟩ := linkout_spec related.toTreeOk key accept
  refine ⟨next, ?_⟩
  cases effect with
  | missing splits entries =>
    have answer := related.lookup_missing splits entries
    simp only [mapLinkout, answer]
    exact ⟨success, related.reset⟩
  | refused entries same refuse =>
    have answer := related.lookup_found entries same
    simp only [mapLinkout, answer, refuse]
    exact ⟨success, related.reset⟩
  | unlinked entries same accepted result =>
    have answer := related.lookup_found entries same
    simp only [mapLinkout, answer, accepted]
    refine ⟨success, kept, ?_⟩
    simpa [TreeDbTerm.objects, result] using related.remove_found entries same

/-- Without a test on the object, the reference removes whatever is under the key. -/
theorem mapLinkout_all (order : KeyOrder Key Obj) (objs : List Obj) (key : Key) :
    mapLinkout order objs key (fun _ => true) = (remove order.cmp order.getKey objs key,
      lookup order.cmp order.getKey objs key) := by
  cases found : lookup order.cmp order.getKey objs key with
  | some old => simp [mapLinkout, found]
  | none => simp [mapLinkout, found, remove_missing found]

/-- With the test of `linkout_object_tree`, only an equal object goes. -/
theorem mapLinkout_object [DecidableEq Obj] (order : KeyOrder Key Obj) (objs : List Obj)
    (object : Obj) : (mapLinkout order objs (order.getKey object) fun dbterm =>
      decide (object = dbterm)).1 =
      if lookup order.cmp order.getKey objs (order.getKey object) = some object then
        remove order.cmp order.getKey objs (order.getKey object)
      else objs := by
  cases found : lookup order.cmp order.getKey objs (order.getKey object) with
  | none => simp [mapLinkout, found]
  | some old =>
    by_cases same : object = old
    · subst old
      simp [mapLinkout, found]
    · simp [mapLinkout, found, same, Ne.symm same]

/-- One operation on a related pair answers alike and keeps the pair related. -/
theorem treeStep_related [DecidableEq Obj] (related : TreeRelated order tb objs)
    (op : TreeOp Key Obj) :
    ∃ next, treeStep order tb op = some (next, (mapStep order treeFull objs op).2) ∧
      TreeRelated order next (mapStep order treeFull objs op).1 := by
  cases op with
  | put obj keyClashFail addr => exact put_related related obj keyClashFail addr
  | erase key =>
    obtain ⟨next, success, kept⟩ := linkout_related related key fun _ => true
    rw [mapLinkout_all order] at kept
    exact ⟨next, by simp [treeStep, dbEraseTree, linkoutTree, success, mapStep], kept⟩
  | eraseObject object =>
    obtain ⟨next, success, kept⟩ := linkout_related related (order.getKey object)
      fun dbterm => decide (object = dbterm)
    rw [mapLinkout_object order] at kept
    refine ⟨next, ?_, ?_⟩
    · simp only [treeStep, dbEraseObjectTree, linkoutObjectTree, success, mapStep]
      split <;> rfl
    · rw [mapStep, apply_ite Prod.fst]
      exact kept
  | take key =>
    obtain ⟨next, success, kept⟩ := linkout_related related key fun _ => true
    rw [mapLinkout_all order] at success kept
    exact ⟨next, by simp [treeStep, dbTakeTree, linkoutTree, success, mapStep], kept⟩

/-- A search tree: the keys of a left subtree are below, those of a right
subtree above the key of the node. -/
def IsSearchTree (order : KeyOrder Key Obj) : TreeDbTerm Obj → Prop
  | .null => True
  | .node _ left right _ dbterm => IsSearchTree order left ∧ IsSearchTree order right ∧
      (∀ obj ∈ left.objects, order.cmp (order.getKey obj) (order.getKey dbterm) = .lt) ∧
      ∀ obj ∈ right.objects, order.cmp (order.getKey dbterm) (order.getKey obj) = .lt

theorem isSearchTree_of_sorted (tree : TreeDbTerm Obj)
    (sorted : Sorted order.cmp order.entryKey tree.entries) : IsSearchTree order tree := by
  induction tree with
  | null => trivial
  | node addr left right balance dbterm ihLeft ihRight =>
    obtain ⟨sortedLeft, sortedRest, across⟩ := pairwise_append.mp sorted
    obtain ⟨above, sortedRight⟩ := pairwise_cons.mp sortedRest
    refine ⟨ihLeft sortedLeft, ihRight sortedRight, ?_, ?_⟩
    · intro obj member
      obtain ⟨entry, present, same⟩ := mem_map.mp member
      subst obj
      exact across entry present (addr, dbterm) (by simp)
    · intro obj member
      obtain ⟨entry, present, same⟩ := mem_map.mp member
      subst obj
      exact above entry present

/-- The number of nodes. -/
def TreeDbTerm.nodeCount : TreeDbTerm Obj → Nat
  | .null => 0
  | .node _ left right _ _ => left.nodeCount + right.nodeCount + 1

theorem entries_length (tree : TreeDbTerm Obj) : tree.entries.length = tree.nodeCount := by
  induction tree with
  | null => rfl
  | node addr left right balance dbterm ihLeft ihRight =>
    simp only [entries_node, length_append, length_cons, TreeDbTerm.nodeCount]
    omega

/-- Every sequence of updates from the empty table runs without touching a
`NULL` pointer, answers as the reference map does and leaves a balanced search
tree with the same objects. The table refuses a new key with `SYSRES` once it
has `TREE_MAX_ELEMENTS - 1` objects, and so does the reference. -/
theorem tree_refines_map [DecidableEq Obj] (order : KeyOrder Key Obj)
    (ops : List (TreeOp Key Obj)) :
    ∃ tb, run (treeStep order) dbCreateTree ops =
      some (tb, (runTotal (mapStep order treeFull) [] ops).2) ∧
      IsSearchTree order tb.root ∧ Distinct order.cmp order.getKey tb.root.objects ∧
      tb.root.Balanced ∧ tb.nitems = tb.root.nodeCount ∧
      tb.root.objects.Perm (runTotal (mapStep order treeFull) [] ops).1 ∧
      ∀ key, lookup order.cmp order.getKey tb.root.objects key =
        lookup order.cmp order.getKey (runTotal (mapStep order treeFull) [] ops).1 key := by
  have trans := order.trans
  obtain ⟨tb, success, related⟩ := run_simulates (TreeRelated order)
    (fun _ _ op related => treeStep_related related op) ops ⟨dbCreateTree_ok order, List.Perm.nil⟩
  refine ⟨tb, success, isSearchTree_of_sorted _ related.sorted, related.distinct,
    related.balanced, ?_, related.objects, related.distinct.lookup_perm related.objects⟩
  rw [related.count, entries_length]

/-- Numbers as objects that are their own keys. -/
def natOrder : KeyOrder Nat Nat := ⟨compare, id, inferInstance⟩

/-- Insert the keys `0, …, count - 1`. -/
def fillOps (count : Nat) : List (TreeOp Nat Nat) :=
  (range count).map fun key => .put key false key

private theorem lookup_range_none (count : Nat) :
    lookup natOrder.cmp natOrder.getKey (range count).reverse count = none := by
  apply find?_eq_none.mpr
  intro key member
  have less : key < count := by simpa using member
  simp only [natOrder, id, beq_iff_eq, Nat.compare_eq_eq]
  omega

private theorem lookup_range_some (count : Nat) :
    lookup natOrder.cmp natOrder.getKey (range (count + 1)).reverse count = some count := by
  rw [range_succ, reverse_append]
  simp [lookup, natOrder]

theorem fill_succ (full : Nat → Bool) (count : Nat)
    (previous : (runTotal (mapStep natOrder full) [] (fillOps count)).1 = (range count).reverse) :
    (runTotal (mapStep natOrder full) [] (fillOps (count + 1))).1 =
      if full count then (range count).reverse else (range (count + 1)).reverse := by
  have key : natOrder.getKey count = count := rfl
  rw [fillOps, range_succ, map_append, runTotal_append, ← fillOps, previous]
  cases limit : full count <;>
    simp [runTotal, mapStep, key, lookup_range_none, limit]

theorem fill_range (full : Nat → Bool) (count : Nat) (room : ∀ size < count, full size = false) :
    (runTotal (mapStep natOrder full) [] (fillOps count)).1 = (range count).reverse := by
  induction count with
  | zero => rfl
  | succ count ih =>
    rw [fill_succ full count (ih fun size less => room size (by omega)), room count (by omega)]
    rfl

/-- A finite map without a limit has all of the `TREE_MAX_ELEMENTS` keys; the
table refused the last of them. -/
theorem tree_full_drops_last :
    ∃ tb replies, run (treeStep natOrder) dbCreateTree (fillOps treeMaxElements) =
        some (tb, replies) ∧
      lookup natOrder.cmp natOrder.getKey tb.root.objects (treeMaxElements - 1) ≠
        lookup natOrder.cmp natOrder.getKey
          (runTotal (mapStep natOrder fun _ => false) [] (fillOps treeMaxElements)).1
          (treeMaxElements - 1) := by
  have trans := natOrder.trans
  obtain ⟨last, limit⟩ : ∃ last, treeMaxElements = last + 1 := ⟨0xFFFFFFFE, rfl⟩
  obtain ⟨tb, success, related⟩ := run_simulates (TreeRelated natOrder)
    (fun _ _ op related => treeStep_related related op) (fillOps treeMaxElements)
    ⟨dbCreateTree_ok natOrder, List.Perm.nil⟩
  refine ⟨tb, _, success, ?_⟩
  have unlimited := fill_range (fun _ => false) treeMaxElements (by simp)
  have below := fill_range treeFull last fun size less => by simp [treeFull, limit, less]
  have limited := fill_succ treeFull last below
  have full : treeFull last = true := by simp [treeFull, limit]
  rw [full, ← limit] at limited
  rw [related.distinct.lookup_perm related.objects, limited, unlimited,
    show treeMaxElements - 1 = last by omega, limit, lookup_range_some]
  simp [lookup_range_none]

/-- `STACK_NEED`. -/
def stackNeed : Nat := 50

/-- A balanced tree has at least the nodes of a Fibonacci tree of its height. -/
theorem fib_le_entries {tree : TreeDbTerm Obj} (balanced : tree.Balanced) :
    Nat.fib (tree.height + 2) ≤ tree.entries.length + 1 := by
  induction tree with
  | null => exact le_rfl
  | node addr left right balance dbterm ihLeft ihRight =>
    obtain ⟨leftBalanced, rightBalanced, difference, range⟩ := balanced_node.mp balanced
    have fewer := ihLeft leftBalanced
    have more := ihRight rightBalanced
    have sum (m : Nat) : Nat.fib (m + 1 + 2) = Nat.fib (m + 1) + Nat.fib (m + 2) := Nat.fib_add_two
    rw [height_node, sum, entries_node, length_append, length_cons]
    rcases Nat.le_total left.height right.height with less | less
    · have := Nat.fib_mono (show right.height + 1 ≤ left.height + 2 by omega)
      rw [Nat.max_eq_right less]
      omega
    · have := Nat.fib_mono (show left.height + 1 ≤ right.height + 2 by omega)
      rw [Nat.max_eq_left less]
      omega

theorem descend_length (tree : TreeDbTerm Obj) (frames : List (Frame Obj)) :
    (descend order key tree frames).2.length + (descend order key tree frames).1.height ≤
      frames.length + tree.height := by
  induction tree generalizing frames with
  | null => exact le_rfl
  | node addr left right balance dbterm ihLeft ihRight =>
    rw [descend, height_node]
    split
    · exact (ihLeft _).trans (by rw [length_cons]; omega)
    · exact (ihRight _).trans (by rw [length_cons]; omega)
    · exact le_rfl

/-- However a tree was built, the way to any key and each way on from there fit on the stacks. -/
theorem tree_stacks_suffice [DecidableEq Obj] (order : KeyOrder Key Obj)
    (ops : List (TreeOp Key Obj)) :
    ∃ tb replies, run (treeStep order) dbCreateTree ops = some (tb, replies) ∧ ∀ key,
      (descend order key tb.root []).2.length + (descend order key tb.root []).1.height <
        stackNeed := by
  obtain ⟨tb, success, related⟩ := run_simulates (TreeRelated order)
    (fun _ _ op related => treeStep_related related op) ops ⟨dbCreateTree_ok order, List.Perm.nil⟩
  have low : tb.root.height < stackNeed := by
    by_contra high
    have many := (Nat.fib_mono (Nat.le_of_not_lt high)).trans <|
      (Nat.fib_mono (Nat.le_add_right _ 2)).trans (fib_le_entries related.balanced)
    have limit : treeMaxElements < Nat.fib stackNeed := by decide +kernel
    have := related.count
    have := related.room
    omega
  exact ⟨tb, _, success, fun key => (descend_length tb.root []).trans_lt (by simpa using low)⟩

end Otp.Ets
