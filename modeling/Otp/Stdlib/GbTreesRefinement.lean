import Otp.Library.Machine
import Otp.Stdlib.GbTreesInvariant

/-! Every tree that `gb_trees.erl` makes is a search tree with its size, and holds
what a sorted finite map holds. -/

namespace Otp.GbTrees

open List
open Otp.Library (Sorted put remove runTotal)

variable {Key Value : Type} {cmp : Key → Key → Ordering}

/-- A search tree of tuples of four. -/
def SearchTree (cmp : Key → Key → Ordering) : Node Key Value → Prop
  | .nil => True
  | .node key _ smaller bigger =>
    SearchTree cmp smaller ∧ SearchTree cmp bigger ∧
      (∀ e ∈ smaller.entries, cmp e.1 key = .lt) ∧ ∀ e ∈ bigger.entries, cmp key e.1 = .lt
  | .triple .. => False

theorem searchTree_of_sorted {t : Node Key Value} (proper : t.Proper)
    (sorted : Sorted cmp Prod.fst t.entries) : SearchTree cmp t := by
  induction t with
  | nil => trivial
  | node key value smaller bigger smallerIh biggerIh =>
    obtain ⟨left, right, across⟩ := pairwise_append.mp sorted
    obtain ⟨above, right⟩ := pairwise_cons.mp right
    refine ⟨smallerIh proper.1 left, biggerIh proper.2 right, fun e member => ?_, above⟩
    exact across e member (key, value) mem_cons_self
  | triple => exact proper.elim

/-- The number of tuples of four. -/
def Node.nodes : Node Key Value → Nat
  | .nil => 0
  | .node _ _ smaller bigger => smaller.nodes + bigger.nodes + 1
  | .triple tree _ _ => tree.nodes

theorem nodes_eq (t : Node Key Value) : t.nodes = t.entries.length := by
  induction t with
  | nil => rfl
  | node key value smaller bigger smallerIh biggerIh =>
    simp only [Node.nodes, Node.entries, length_append, length_cons]
    omega
  | triple tree h s ih => exact ih

/-- The operations on a tree; `from_orddict` takes a strictly sorted list. -/
inductive TreeOp (cmp : Key → Key → Ordering) (Value : Type) where
  | empty
  | fromOrddict (items : { items : List (Key × Value) // Sorted cmp Prod.fst items })
  | insert (key : Key) (value : Value)
  | update (key : Key) (value : Value)
  | enter (key : Key) (value : Value)
  | delete (key : Key)
  | deleteAny (key : Key)
  | takeSmallest
  | takeLargest
  | balance
  | map (f : Key → Value → Value)

/-- A failed call leaves the tree as it was; only the taking functions return an entry. -/
abbrev Reply (Key Value : Type) := Outcome Key (Option (Key × Value))

def settle (tree : Tree Key Value) : Outcome Key (Tree Key Value) → Tree Key Value × Reply Key Value
  | .ok tree' => (tree', .ok none)
  | .error failure => (tree, .error failure)

def settleTaken (tree : Tree Key Value) :
    Outcome Key (Key × Value × Tree Key Value) → Tree Key Value × Reply Key Value
  | .ok (key, value, tree') => (tree', .ok (some (key, value)))
  | .error failure => (tree, .error failure)

def treeStep (tree : Tree Key Value) : TreeOp cmp Value → Tree Key Value × Reply Key Value
  | .empty => (GbTrees.empty, .ok none)
  | .fromOrddict items => settle tree (GbTrees.fromOrddict items.1)
  | .insert key value => settle tree (GbTrees.insert cmp key value tree)
  | .update key value => settle tree (GbTrees.update cmp key value tree)
  | .enter key value => settle tree (GbTrees.enter cmp key value tree)
  | .delete key => settle tree (GbTrees.delete cmp key tree)
  | .deleteAny key => settle tree (GbTrees.deleteAny cmp key tree)
  | .takeSmallest => settleTaken tree (GbTrees.takeSmallest tree)
  | .takeLargest => settleTaken tree (GbTrees.takeLargest tree)
  | .balance => settle tree (GbTrees.balance tree)
  | .map f => settle tree (GbTrees.map f tree)

/-- The same on a sorted list of entries. -/
def mapStep (items : List (Key × Value)) : TreeOp cmp Value → List (Key × Value) × Reply Key Value
  | .empty => ([], .ok none)
  | .fromOrddict items => (items.1, .ok none)
  | .insert key value =>
    if (Library.lookup cmp Prod.fst items key).isSome then (items, .error (.keyExists key))
    else (put cmp Prod.fst items (key, value), .ok none)
  | .update key value =>
    if (Library.lookup cmp Prod.fst items key).isSome then
      (put cmp Prod.fst items (key, value), .ok none)
    else (items, .error .functionClause)
  | .enter key value => (put cmp Prod.fst items (key, value), .ok none)
  | .delete key =>
    if (Library.lookup cmp Prod.fst items key).isSome then (remove cmp Prod.fst items key, .ok none)
    else (items, .error .functionClause)
  | .deleteAny key => (remove cmp Prod.fst items key, .ok none)
  | .takeSmallest =>
    match items with
    | e :: items => (items, .ok (some e))
    | [] => ([], .error .functionClause)
  | .takeLargest =>
    match items.getLast? with
    | some e => (items.dropLast, .ok (some e))
    | none => ([], .error .functionClause)
  | .balance => (items, .ok none)
  | .map f => (items.map fun e => (e.1, f e.1 e.2), .ok none)

/-- The tree holds the entries of the list, which is sorted, and has its size. -/
structure Related (cmp : Key → Key → Ordering) (tree : Tree Key Value)
    (items : List (Key × Value)) :
    Prop where
  holds : Holds tree.root items
  size : tree.size = items.length
  sorted : Sorted cmp Prod.fst items

theorem settle_ok (result : outcome = .ok tree') (related : Related cmp tree' items)
    (tree : Tree Key Value) :
    Related cmp (settle tree outcome).1 items ∧ (settle tree outcome).2 = .ok none := by
  subst result
  exact ⟨related, rfl⟩

theorem settle_error (result : outcome = .error reason) (related : Related cmp tree items) :
    Related cmp (settle tree outcome).1 items ∧ (settle tree outcome).2 = .error reason := by
  subst result
  exact ⟨related, rfl⟩

theorem Related.fromOrddict (items : List (Key × Value)) (sorted : Sorted cmp Prod.fst items) :
    ∃ tree, GbTrees.fromOrddict items = .ok tree ∧ Related cmp tree items := by
  obtain ⟨t, built, holds, -⟩ := balanceList_eq
  exact ⟨⟨items.length, t⟩, by simp [GbTrees.fromOrddict, built], holds, rfl, sorted⟩

theorem Related.balance {tree : Tree Key Value} (related : Related cmp tree items) :
    ∃ tree', GbTrees.balance tree = .ok tree' ∧ Related cmp tree' items := by
  obtain ⟨t, built, holds, -⟩ := related.holds.balanceTree
  refine ⟨⟨tree.size, t⟩, ?_, holds, related.size, related.sorted⟩
  rw [GbTrees.balance, related.size, built, ok_bind]

theorem Related.map (related : Related cmp tree items) (f : Key → Value → Value) :
    ∃ tree', GbTrees.map f tree = .ok tree' ∧
    Related cmp tree' (items.map fun e => (e.1, f e.1 e.2)) ∧
      tree'.size = tree.size ∧ tree'.root.levels = tree.root.levels := by
  obtain ⟨t, mapped, holds, levels⟩ := map_1_eq related.holds.proper
  rw [related.holds.entries] at holds
  refine ⟨⟨tree.size, t⟩, by rw [GbTrees.map, mapped, ok_bind], ⟨holds, ?_, ?_⟩, rfl, levels⟩
  · rw [related.size, length_map]
  · exact pairwise_map.mpr related.sorted

section

variable {tree : Tree Key Value}

theorem Related.root_nil (related : Related cmp tree []) : tree.root = .nil :=
  eq_nil_of_entries related.holds.proper related.holds.entries

theorem Related.takeSmallest_nil (related : Related cmp tree []) :
    GbTrees.takeSmallest1 tree.root = .error .functionClause := by
  rw [related.root_nil]
  rfl

theorem Related.takeSmallest (related : Related cmp tree (e :: rest)) :
    ∃ t, GbTrees.takeSmallest1 tree.root = .ok (e.1, e.2, t) ∧
    Related cmp ⟨tree.size - 1, t⟩ rest := by
  obtain ⟨t, taken, holds⟩ := (smallest_1_eq related.holds.proper related.holds.entries).2
  refine ⟨t, taken, holds, ?_, (pairwise_cons.mp related.sorted).2⟩
  simp [related.size]

theorem Related.takeLargest_nil (related : Related cmp tree []) :
    GbTrees.takeLargest1 tree.root = .error .functionClause := by
  rw [related.root_nil]
  rfl

theorem Related.takeLargest (related : Related cmp tree (rest ++ [e])) :
    ∃ t, GbTrees.takeLargest1 tree.root = .ok (e.1, e.2, t) ∧
    Related cmp ⟨tree.size - 1, t⟩ rest := by
  obtain ⟨t, taken, holds⟩ := (largest_1_eq related.holds.proper related.holds.entries).2
  refine ⟨t, taken, holds, ?_, (pairwise_append.mp related.sorted).1⟩
  simp [related.size]

theorem Related.smallest_eq (related : Related cmp tree items) :
    smallest tree = items.head?.elim (.error .functionClause) .ok := by
  cases items with
  | nil => rw [smallest, related.root_nil]; rfl
  | cons e rest => exact (smallest_1_eq related.holds.proper related.holds.entries).1

theorem Related.largest_eq (related : Related cmp tree items) :
    largest tree = items.getLast?.elim (.error .functionClause) .ok := by
  rcases eq_nil_or_concat' items with rfl | ⟨rest, e, rfl⟩
  · rw [largest, related.root_nil]
    rfl
  · rw [getLast?_concat]
    exact (largest_1_eq related.holds.proper related.holds.entries).1

end

section

variable [Std.TransCmp cmp]

theorem Related.descent {tree : Tree Key Value} (related : Related cmp tree items) (key : Key) :
    Descent cmp key tree.root (Library.lookup cmp Prod.fst items key) := by
  obtain ⟨⟨proper, rfl⟩, -, sorted⟩ := related
  exact GbTrees.descent proper sorted key

theorem Related.length_put (related : Related cmp tree items) (key : Key) (value : Value) :
    (put cmp Prod.fst items (key, value)).length =
      items.length + if (Library.lookup cmp Prod.fst items key).isSome then 0 else 1 := by
  have length := (related.descent key).length_put value
  rwa [related.holds.entries] at length

theorem Related.update (related : Related cmp tree items) (key : Key)
    (value : Value) (present : Library.lookup cmp Prod.fst items key = some e) :
    ∃ tree', GbTrees.update cmp key value tree = .ok tree' ∧
      Related cmp tree' (put cmp Prod.fst items (key, value)) ∧
      tree'.size = tree.size ∧ tree'.root.levels = tree.root.levels := by
  obtain ⟨t, updated, holds, levels⟩ := (present ▸ related.descent key).update_1_found
  rw [related.holds.entries] at holds
  refine ⟨⟨tree.size, t⟩, by rw [GbTrees.update, updated, ok_bind],
    ⟨holds, ?_, Library.sorted_put related.sorted⟩, rfl, levels⟩
  simp [related.length_put, present, related.size]

/-- The report of a leaf that is too deep does not get past the root, which is too high
for its size by then. -/
theorem Related.insert (related : Related cmp tree items) (key : Key)
    (value : Value) (absent : Library.lookup cmp Prod.fst items key = none) :
    ∃ tree', GbTrees.insert cmp key value tree = .ok tree' ∧
      Related cmp tree' (put cmp Prod.fst items (key, value)) := by
  have length : ((put cmp Prod.fst items (key, value)).length : Int) = tree.size + 1 := by
    simp [related.length_put, absent, related.size]
  have grown : 0 ≤ tree.size + 1 := by omega
  obtain ⟨t, inserted, outcome, -⟩ := (absent ▸ related.descent key).insert_1_missing value
    ((tree.size + 1) * (tree.size + 1)) (Int.mul_nonneg grown grown)
  rw [related.holds.entries] at outcome
  cases outcome with
  | tree t holds =>
    exact ⟨⟨tree.size + 1, t⟩, by simp [GbTrees.insert, inserted], holds, length.symm,
      Library.sorted_put related.sorted⟩
  | report t h size holds deep low exact =>
    rw [exact, length] at low
    exact absurd low (Int.not_le.mpr deep)

theorem Related.delete {tree : Tree Key Value} (related : Related cmp tree items) (key : Key)
    (present : Library.lookup cmp Prod.fst items key = some e) :
    ∃ tree', GbTrees.delete cmp key tree = .ok tree' ∧
    Related cmp tree' (remove cmp Prod.fst items key) := by
  obtain ⟨t, deleted, holds, length⟩ := (present ▸ related.descent key).delete_1_found
  rw [related.holds.entries] at holds length
  have size := related.size
  refine ⟨⟨tree.size - 1, t⟩, ?_, holds, ?_, related.sorted.filter _⟩
  · rw [GbTrees.delete, if_pos (by omega), deleted, ok_bind]
  · rw [← holds.entries]
    simp only
    omega

theorem Related.step (related : Related cmp tree items) (op : TreeOp cmp Value) :
    Related cmp (treeStep tree op).1 (mapStep items op).1 ∧
    (treeStep tree op).2 = (mapStep items op).2 := by
  have size : 0 ≤ tree.size := by
    rw [related.size]
    exact Int.natCast_nonneg _
  cases op with
  | empty => exact ⟨⟨⟨trivial, rfl⟩, rfl, .nil⟩, rfl⟩
  | fromOrddict items' =>
    obtain ⟨tree', built, kept⟩ := Related.fromOrddict items'.1 items'.2
    exact settle_ok built kept tree
  | insert key value =>
    simp only [mapStep]
    cases found : Library.lookup cmp Prod.fst items key with
    | none =>
      obtain ⟨tree', inserted, kept⟩ := related.insert key value found
      exact settle_ok inserted kept tree
    | some e =>
      have way := related.descent key
      rw [found] at way
      refine settle_error ?_ related
      rw [GbTrees.insert, way.insert_1_found value, error_bind]
  | update key value =>
    simp only [mapStep]
    cases found : Library.lookup cmp Prod.fst items key with
    | none =>
      have way := related.descent key
      rw [found] at way
      refine settle_error ?_ related
      rw [GbTrees.update, way.update_1_missing, error_bind]
    | some e =>
      obtain ⟨tree', updated, kept, -⟩ := related.update key value found
      exact settle_ok updated kept tree
  | enter key value =>
    simp only [treeStep, GbTrees.enter, isDefined, (related.descent key).isDefined_1_eq]
    cases found : Library.lookup cmp Prod.fst items key with
    | none =>
      obtain ⟨tree', inserted, kept⟩ := related.insert key value found
      exact settle_ok inserted kept tree
    | some e =>
      obtain ⟨tree', updated, kept, -⟩ := related.update key value found
      exact settle_ok updated kept tree
  | delete key =>
    simp only [mapStep]
    cases found : Library.lookup cmp Prod.fst items key with
    | none =>
      have way := related.descent key
      rw [found] at way
      refine settle_error ?_ related
      rw [GbTrees.delete, if_pos size, way.delete_1_missing, error_bind]
    | some e =>
      obtain ⟨tree', deleted, kept⟩ := related.delete key found
      exact settle_ok deleted kept tree
  | deleteAny key =>
    simp only [treeStep, mapStep, GbTrees.deleteAny, isDefined,
      (related.descent key).isDefined_1_eq]
    cases found : Library.lookup cmp Prod.fst items key with
    | none =>
      rw [Library.remove_missing found]
      exact settle_ok rfl related tree
    | some e =>
      obtain ⟨tree', deleted, kept⟩ := related.delete key found
      exact settle_ok deleted kept tree
  | takeSmallest =>
    simp only [treeStep, GbTrees.takeSmallest, if_pos size]
    cases items with
    | nil =>
      rw [related.takeSmallest_nil]
      exact ⟨related, rfl⟩
    | cons e rest =>
      obtain ⟨t, taken, kept⟩ := related.takeSmallest
      rw [taken]
      exact ⟨kept, rfl⟩
  | takeLargest =>
    simp only [treeStep, mapStep, GbTrees.takeLargest, if_pos size]
    rcases eq_nil_or_concat' items with rfl | ⟨rest, e, rfl⟩
    · rw [related.takeLargest_nil]
      exact ⟨related, rfl⟩
    · obtain ⟨t, taken, kept⟩ := related.takeLargest
      rw [taken]
      simpa using ⟨kept, rfl⟩
  | balance =>
    obtain ⟨tree', built, kept⟩ := related.balance
    exact settle_ok built kept tree
  | map f =>
    obtain ⟨tree', mapped, kept, -⟩ := related.map f
    exact settle_ok mapped kept tree

/-- After any operations the tree is a search tree of tuples of four with its size, the
replies are those of the sorted finite map, and the contents read the same. -/
theorem gb_trees_refine_map (cmp : Key → Key → Ordering) [Std.TransCmp cmp]
    (ops : List (TreeOp cmp Value)) :
    let tree := (runTotal treeStep empty ops).1
    let items := (runTotal mapStep [] ops).1
    (runTotal treeStep empty ops).2 = (runTotal mapStep [] ops).2 ∧
      SearchTree cmp tree.root ∧ tree.size = tree.root.nodes ∧
      toList tree = .ok items ∧ keys tree = .ok (items.map Prod.fst) ∧
      (∀ key, lookup cmp key tree = .ok ((Library.lookup cmp Prod.fst items key).map Prod.snd)) ∧
      smallest tree = items.head?.elim (.error .functionClause) .ok ∧
      largest tree = items.getLast?.elim (.error .functionClause) .ok := by
  have initial : Related cmp (empty : Tree Key Value) [] := ⟨⟨trivial, rfl⟩, rfl, .nil⟩
  obtain ⟨related, replies⟩ := Library.runTotal_simulates (Related cmp)
    (fun _ _ op related => related.step op) ops initial
  have proper := related.holds.proper
  have entries := related.holds.entries
  refine ⟨replies, searchTree_of_sorted proper (entries ▸ related.sorted), ?_, ?_, ?_,
    fun key => (related.descent key).lookup_1_eq, related.smallest_eq, related.largest_eq⟩
  · rw [related.size, nodes_eq, entries]
  · rw [toList, toListOnto_eq proper, entries, append_nil]
  · rw [keys, keysOnto_eq proper, entries, append_nil]

theorem gb_trees_balance_on_insert : toList (runTotal treeStep (empty : Tree Nat Nat)
        [(.insert 1 10 : TreeOp compare Nat), .insert 2 20, .insert 3 30, .insert 4 40,
          .insert 5 50, .insert 6 60, .delete 1, .insert 7 70]).1 =
      .ok [(2, 20), (3, 30), (4, 40), (5, 50), (6, 60), (7, 70)] :=
  (gb_trees_refine_map compare _).2.2.2.1

end

end Otp.GbTrees
