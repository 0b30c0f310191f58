import Mathlib.Tactic.Linarith
import Mathlib.Data.List.Basic
import Otp.Stdlib.GbTrees

/-! What the functions of `gb_trees.erl` do to the contents of a tree. -/

namespace Otp.GbTrees

open List hiding after
open Otp.Library (Sorted Splits put remove)

variable {Key Value : Type}
variable {t t1 : Node Key Value} {value : Value} {s : Int}

/-- The contents from the least key on. -/
def Node.entries : Node Key Value → List (Key × Value)
  | .nil => []
  | .node key value smaller bigger => smaller.entries ++ (key, value) :: bigger.entries
  | .triple tree _ _ => tree.entries

/-- Made of tuples of four. -/
def Node.Proper : Node Key Value → Prop
  | .nil => True
  | .node _ _ smaller bigger => smaller.Proper ∧ bigger.Proper
  | .triple .. => False

/-- A tree with these entries. -/
structure Holds (t : Node Key Value) (items : List (Key × Value)) : Prop where
  proper : t.Proper
  entries : t.entries = items

/-- The number of nodes on the longest way down. -/
def Node.levels : Node Key Value → Nat
  | .nil => 0
  | .node _ _ smaller bigger => max smaller.levels bigger.levels + 1
  | .triple tree _ _ => tree.levels

/-- The number of edges on the longest way from the root to a leaf. -/
def Node.height (t : Node Key Value) : Nat := t.levels - 1

@[simp] theorem ok_bind (result : Result) (next : Result → Outcome Key Other) :
    (Except.ok result >>= next) = next result := rfl

@[simp] theorem error_bind {failure : Failure Key} {next : Result → Outcome Key Other} :
    (Except.error failure >>= next) = .error failure := rfl

theorem bind_eq_ok {next : Result → Outcome Key Other} :
    (outcome >>= next) = .ok other ↔ ∃ result, outcome = .ok result ∧ next result = .ok other := by
  cases outcome <;> simp

theorem toListOnto_eq (proper : t.Proper) {l : List (Key × Value)} :
    toListOnto t l = .ok (t.entries ++ l) := by
  induction t generalizing l with
  | nil => rfl
  | node key value small big smallIh bigIh =>
    rw [toListOnto, bigIh proper.2, ok_bind, smallIh proper.1]
    simp [Node.entries]
  | triple => exact proper.elim

theorem keysOnto_eq (proper : t.Proper) : keysOnto t l = .ok (t.entries.map Prod.fst ++ l) := by
  induction t generalizing l with
  | nil => rfl
  | node key value small big smallIh bigIh =>
    rw [keysOnto, bigIh proper.2, ok_bind, smallIh proper.1]
    simp [Node.entries]
  | triple => exact proper.elim

theorem levels_eq_zero (proper : t.Proper) : t.levels = 0 ↔ t = .nil := by
  cases t with
  | nil => exact iff_of_true rfl rfl
  | node => simp [Node.levels]
  | triple => exact proper.elim

theorem height_node (key : Key) (value : Value) {smaller bigger : Node Key Value}
    (inner : 0 < max smaller.levels bigger.levels) :
    (Node.node key value smaller bigger).height = max smaller.height bigger.height + 1 := by
  simp only [Node.height, Node.levels]
  omega

theorem two_mul_max_pow (first second : Nat) :
    2 * max ((2 : Int) ^ first) (2 ^ second) = 2 ^ (max first second + 1) := by
  rw [pow_succ, Int.mul_comm]
  rcases Nat.le_total first second with less | less
  · rw [Nat.max_eq_right less, Int.max_eq_right (pow_le_pow_right₀ (by decide) less)]
  · rw [Nat.max_eq_left less, Int.max_eq_left (pow_le_pow_right₀ (by decide) less)]

theorem count_height (proper : t.Proper) :
    count t = .ok (2 ^ t.height, (t.entries.length : Int)) := by
  induction t with
  | nil => rfl
  | node key value sm bi smIh biIh =>
    by_cases leaf : sm = .nil ∧ bi = .nil
    · obtain ⟨rfl, rfl⟩ := leaf
      rfl
    · have inner : 0 < max sm.levels bi.levels := by
        refine Nat.pos_of_ne_zero fun none => leaf ?_
        exact ⟨(levels_eq_zero proper.1).mp (by omega), (levels_eq_zero proper.2).mp (by omega)⟩
      rw [count, smIh proper.1, biIh proper.2]
      · simp only [ok_bind, two_mul_max_pow, height_node key value inner, Node.entries,
          List.length_append]
        congr 2
      · exact fun left right => leaf ⟨left, right⟩
  | triple => exact proper.elim

/-- A balanced tree of fewer than `2 ^ n` nodes has at most `n` levels. -/
theorem balanceList_1_eq (l : List (Key × Value)) (s : Nat) (enough : s ≤ l.length) :
    ∃ t, balanceList_1 l s = .ok (t, l.drop s) ∧ Holds t (l.take s) ∧ ∀ n, s < 2 ^ n →
    t.levels ≤ n := by
  induction s using Nat.strongRecOn generalizing l with
  | _ s ih =>
  rw [balanceList_1.eq_def]
  split
  case isTrue large =>
    -- the parts are of `s1` and `s2` nodes, with one between them
    obtain ⟨s2, half⟩ : ∃ s2 : Nat, s2 = (s - 1) / 2 := ⟨_, rfl⟩
    obtain ⟨s1, part⟩ : ∃ s1 : Nat, s1 = s - 1 - s2 := ⟨_, rfl⟩
    have second : ((s : Int) - 1) / 2 = s2 := by omega
    have first : (s : Int) - 1 - s2 = s1 := by omega
    obtain ⟨t1, left, ⟨proper, entries⟩, low⟩ := ih s1 (by omega) l (by omega)
    obtain ⟨⟨k, v⟩, l1, rest⟩ := exists_cons_of_ne_nil
      (show l.drop s1 ≠ [] from ne_nil_of_length_pos (by rw [length_drop]; omega))
    have size : l1.length + 1 = l.length - s1 := by
      rw [← length_drop, rest, length_cons]
    obtain ⟨t2, right, ⟨proper', entries'⟩, low'⟩ := ih s2 (by omega) l1 (by omega)
    have whole : s = s1 + (s2 + 1) := by omega
    refine ⟨.node k v t1 t2, ?_, ⟨⟨proper, proper'⟩, ?_⟩, ?_⟩
    · simp only [second, first, left, rest, right, ok_bind]
      rw [whole, ← drop_drop, rest, drop_succ_cons]
    · rw [Node.entries, entries, entries', whole, take_add, rest, take_succ_cons]
    · intro n few
      cases n with
      | zero => omega
      | succ n => exact Nat.succ_le_succ (Nat.max_le.mpr ⟨low n (by omega), low' n (by omega)⟩)
  case isFalse small =>
  split
  case isTrue one =>
    obtain rfl : s = 1 := by omega
    cases l with
    | nil => cases enough
    | cons entry l =>
      refine ⟨_, rfl, ⟨⟨trivial, trivial⟩, by simp [Node.entries]⟩, fun n few => ?_⟩
      exact Nat.pos_of_ne_zero fun none => by simp [none] at few
  case isFalse other =>
    obtain rfl : s = 0 := by omega
    exact ⟨.nil, by simp, ⟨trivial, by simp [Node.entries]⟩, fun n _ => Nat.zero_le n⟩

theorem balanceList_eq {l : List (Key × Value)} :
    ∃ t, balanceList l l.length = .ok t ∧ Holds t l ∧ ∀ n, l.length < 2 ^ n → t.levels ≤ n := by
  obtain ⟨t, built, holds, low⟩ := balanceList_1_eq l l.length (Nat.le_refl _)
  refine ⟨t, ?_, by simpa using holds, low⟩
  simp [balanceList, built]

theorem Holds.balanceTree (holds : Holds t items) :
    ∃ t', balanceTree t items.length = .ok t' ∧ Holds t' items ∧ ∀ n, items.length < 2 ^ n →
    t'.levels ≤ n := by
  obtain ⟨t', built, kept⟩ := balanceList_eq
  refine ⟨t', ?_, kept⟩
  rw [GbTrees.balanceTree, toList_1, toListOnto_eq holds.proper, ok_bind, append_nil,
    holds.entries, built]

theorem eq_nil_of_entries (proper : t.Proper) (none : t.entries = []) : t = .nil := by
  cases t with
  | nil => rfl
  | node => simp [Node.entries] at none
  | triple => exact proper.elim

theorem smallest_1_eq (proper : t.Proper) (entries : t.entries = e :: rest) :
    smallest_1 t = .ok e ∧ ∃ t', takeSmallest1 t = .ok (e.1, e.2, t') ∧ Holds t' rest := by
  induction t generalizing rest with
  | nil => cases entries
  | node key value smaller larger smallerIh =>
    cases least : smaller.entries with
    | nil =>
      obtain rfl : smaller = .nil := eq_nil_of_entries proper.1 least
      obtain ⟨rfl, rfl⟩ := cons.inj entries
      exact ⟨rfl, larger, rfl, proper.2, rfl⟩
    | cons first others =>
      rw [Node.entries, least] at entries
      obtain ⟨rfl, rfl⟩ := cons.inj entries
      obtain ⟨found, smaller1, taken, proper1, rest1⟩ := smallerIh proper.1 least
      have some : smaller ≠ .nil := by
        rintro rfl
        cases least
      refine ⟨?_, .node key value smaller1 larger, ?_, ⟨proper1, proper.2⟩,
        by rw [Node.entries, rest1]; rfl⟩
      · rw [smallest_1, found]
        exact some
      · rw [takeSmallest1, taken]
        · rfl
        · exact some
  | triple => exact proper.elim

theorem largest_1_eq (proper : t.Proper) (entries : t.entries = rest ++ [e]) :
    largest_1 t = .ok e ∧ ∃ t', takeLargest1 t = .ok (e.1, e.2, t') ∧ Holds t' rest := by
  induction t generalizing rest with
  | nil => simp [Node.entries] at entries
  | node key value smaller larger smallerIh largerIh =>
    rcases eq_nil_or_concat' larger.entries with none | ⟨others, last, greatest⟩
    · obtain rfl : larger = .nil := eq_nil_of_entries proper.2 none
      obtain ⟨rfl, same⟩ := append_inj' entries rfl
      obtain ⟨rfl, -⟩ := cons.inj same
      exact ⟨rfl, smaller, rfl, proper.1, rfl⟩
    · have shape : smaller.entries ++ (key, value) :: others ++ [last] = rest ++ [e] := by
        rw [← entries, Node.entries, greatest]
        simp
      obtain ⟨rfl, same⟩ := append_inj' shape rfl
      obtain ⟨rfl, -⟩ := cons.inj same
      obtain ⟨found, larger1, taken, proper1, rest1⟩ := largerIh proper.2 greatest
      have some : larger ≠ .nil := by
        rintro rfl
        simp [Node.entries] at greatest
      refine ⟨?_, .node key value smaller larger1, ?_, ⟨proper.1, proper1⟩,
        by rw [Node.entries, rest1]⟩
      · rw [largest_1, found]
        exact some
      · rw [takeLargest1, taken]
        · rfl
        · exact some
  | triple => exact proper.elim

section

variable {cmp : Key → Key → Ordering}

/-- The way down from a node to the place of a key, and the entry there. -/
inductive Descent (cmp : Key → Key → Ordering) (key : Key) :
    Node Key Value → Option (Key × Value) → Prop where
  | missing : Descent cmp key .nil none
  | found (key1 : Key) (value : Value) (smaller bigger : Node Key Value)
      (same : cmp key key1 = .eq) (proper : smaller.Proper) (proper' : bigger.Proper)
      (splits : Splits cmp Prod.fst key smaller.entries bigger.entries) :
      Descent cmp key (.node key1 value smaller bigger) (some (key1, value))
  | smaller (key1 : Key) (value : Value) (smaller bigger : Node Key Value)
      (less : cmp key key1 = .lt) (proper : bigger.Proper)
      (behind : ∀ e ∈ (key1, value) :: bigger.entries, cmp key e.1 = .lt)
      (rest : Descent cmp key smaller result) :
      Descent cmp key (.node key1 value smaller bigger) result
  | bigger (key1 : Key) (value : Value) (smaller bigger : Node Key Value)
      (greater : cmp key key1 = .gt) (proper : smaller.Proper)
      (passed : ∀ e ∈ smaller.entries ++ [(key1, value)], cmp key e.1 = .gt)
      (rest : Descent cmp key bigger result) :
      Descent cmp key (.node key1 value smaller bigger) result

theorem descent [Std.TransCmp cmp] (proper : t.Proper) (sorted : Sorted cmp Prod.fst t.entries)
    (key : Key) :
    Descent cmp key t (Library.lookup cmp Prod.fst t.entries key) := by
  induction t with
  | nil => exact .missing
  | node key1 value smaller bigger smallerIh biggerIh =>
    obtain ⟨left, right, -⟩ := pairwise_append.mp sorted
    rw [Node.entries]
    cases side : cmp key key1 with
    | lt =>
      have behind := sorted.below side
      rw [Library.lookup_before behind]
      exact .smaller _ _ _ _ side proper.2 behind (smallerIh proper.1 left)
    | gt =>
      have passed := sorted.above side
      rw [append_cons, Library.lookup_after passed]
      exact .bigger _ _ _ _ side proper.1 passed (biggerIh proper.2 (pairwise_cons.mp right).2)
    | eq =>
      have splits := (Library.sorted_splits sorted).congr side
      rw [splits.lookup_some side]
      exact .found _ _ _ _ side proper.1 proper.2 splits
  | triple => exact proper.elim

theorem Descent.lookup_1_eq (descent : Descent cmp key t result) :
    lookup_1 cmp key t = .ok (result.map Prod.snd) := by
  induction descent with
  | missing => rfl
  | found _ _ _ _ same => simp [lookup_1, same]
  | smaller _ _ _ _ less _ _ _ ih => simpa [lookup_1, less] using ih
  | bigger _ _ _ _ greater _ _ _ ih => simpa [lookup_1, greater] using ih

theorem Descent.isDefined_1_eq (descent : Descent cmp key t result) :
    isDefined_1 cmp key t = .ok result.isSome := by
  induction descent with
  | missing => rfl
  | found _ _ _ _ same => simp [isDefined_1, same]
  | smaller _ _ _ _ less _ _ _ ih => simpa [isDefined_1, less] using ih
  | bigger _ _ _ _ greater _ _ _ ih => simpa [isDefined_1, greater] using ih

theorem put_here (splits : Splits cmp Prod.fst key before after) (same : cmp key e.1 = .eq) :
    put cmp Prod.fst (before ++ e :: after) (key, value) = before ++ (key, value) :: after := by
  rw [Library.put_after splits.above, ← singleton_append, Library.put_before splits.below]
  simp [put, same]

/-- What becomes of the entries on the way becomes of all. -/
theorem put_smaller (behind : ∀ e ∈ (key1, value1) :: bigger.entries, cmp key e.1 = .lt)
    (value : Value) (smaller : Node Key Value) :
    put cmp Prod.fst (Node.node key1 value1 smaller bigger).entries (key, value) =
      put cmp Prod.fst smaller.entries (key, value) ++ (key1, value1) :: bigger.entries :=
  Library.put_before behind

theorem put_bigger (passed : ∀ e ∈ smaller.entries ++ [(key1, value1)], cmp key e.1 = .gt)
    (value : Value) (bigger : Node Key Value) :
    put cmp Prod.fst (Node.node key1 value1 smaller bigger).entries (key, value) =
      smaller.entries ++ (key1, value1) :: put cmp Prod.fst bigger.entries (key, value) := by
  rw [Node.entries, append_cons, Library.put_after passed, ← append_cons]

/-- A new key makes the contents longer by one. -/
theorem Descent.length_put (descent : Descent cmp key t result) (value : Value) :
    (put cmp Prod.fst t.entries (key, value)).length = t.entries.length + if result.isSome then
      0 else 1 := by
  induction descent with
  | missing => rfl
  | found key1 value1 smaller bigger same proper proper' splits =>
    rw [Node.entries, put_here splits same]
    simp
  | smaller key1 value1 smaller bigger less proper behind rest ih =>
    rw [put_smaller behind, length_append]
    simp only [Node.entries, length_append]
    omega
  | bigger key1 value1 smaller bigger greater proper passed rest ih =>
    rw [put_bigger passed, length_append, length_cons]
    simp only [Node.entries, length_append, length_cons]
    omega

theorem Descent.update_1_missing (descent : Descent cmp key t none) :
    update_1 cmp key value t = .error .functionClause := by
  generalize absent : none = result at descent
  induction descent with
  | missing => rfl
  | found => cases absent
  | smaller _ _ _ _ less _ _ _ ih => simp [update_1, less, ih absent]
  | bigger _ _ _ _ greater _ _ _ ih => simp [update_1, greater, ih absent]

theorem Descent.update_1_found (descent : Descent cmp key t (some e)) :
    ∃ t', update_1 cmp key value t = .ok t' ∧ Holds t' (put cmp Prod.fst t.entries (key, value)) ∧
      t'.levels = t.levels := by
  generalize present : some e = result at descent
  induction descent with
  | missing => cases present
  | found key1 value1 smaller bigger same proper proper' splits =>
    refine ⟨.node key value smaller bigger, by simp [update_1, same], ⟨⟨proper, proper'⟩, ?_⟩, rfl⟩
    rw [Node.entries, Node.entries, put_here splits same]
  | smaller key1 value1 smaller bigger less proper behind rest ih =>
    obtain ⟨t', updated, holds, levels⟩ := ih present
    refine ⟨.node key1 value1 t' bigger, by simp [update_1, less, updated],
      ⟨⟨holds.proper, proper⟩, ?_⟩, by rw [Node.levels, levels, Node.levels]⟩
    rw [put_smaller behind, Node.entries, holds.entries]
  | bigger key1 value1 smaller bigger greater proper passed rest ih =>
    obtain ⟨t', updated, holds, levels⟩ := ih present
    refine ⟨.node key1 value1 smaller t', by simp [update_1, greater, updated],
      ⟨⟨proper, holds.proper⟩, ?_⟩, by rw [Node.levels, levels, Node.levels]⟩
    rw [put_bigger passed, Node.entries, holds.entries]

/-- What `insert_1` returns when it may go down `s` halvings deep: a tree, or a report
of one that is too high for `s` but not for its own size. -/
inductive Inserted (items : List (Key × Value)) (s : Int) : Node Key Value → Prop where
  | tree (t : Node Key Value) (holds : Holds t items) : Inserted items s t
  | report (t : Node Key Value) (h size : Int) (holds : Holds t items) (deep : s < h)
  (low : h ≤ size * size)
      (exact : size = items.length) : Inserted items s (.triple t h size)

/-- What an insertion may do to the levels of a subtree that may be `s` halvings deep: no
more of them than there were, or as many as `s` allows, or one more and a report. -/
inductive Grown (t : Node Key Value) (s : Int) : Node Key Value → Prop where
  | tree (t' : Node Key Value) (proper : t'.Proper)
      (low : t'.levels ≤ t.levels ∨ 2 ^ t'.height ≤ s) : Grown t s t'
  | report (t' : Node Key Value) (size : Int) (some : 0 < t'.levels)
      (grown : t'.levels ≤ t.levels + 1) : Grown t s (.triple t' (2 ^ t'.height) size)

/-- A node over a subtree that has not been reported. -/
theorem node_low {whole old : Nat} (sibling : Node Key Value)
    (low : t1.levels ≤ t.levels ∨ 2 ^ t1.height ≤ s / 2)
    (levels : whole = max t1.levels sibling.levels + 1)
    (before : old = max t.levels sibling.levels + 1) : whole ≤ old ∨ 2 ^ (whole - 1) ≤ s := by
  rcases low with low | low
  · omega
  rcases Nat.lt_or_ge sibling.levels t1.levels with deeper | deeper
  · have exponent : whole - 1 = t1.height + 1 := by
      simp only [Node.height]
      omega
    rw [exponent]
    omega
  · omega

/-- A node that is balanced again loses the level it has gained. -/
theorem report_inserted {old whole sibling : Node Key Value} {s1 : Int} (holds : Holds whole items)
    (proper : sibling.Proper) (levels : whole.levels = max t1.levels sibling.levels + 1)
    (some : 0 < t1.levels) (grown : whole.levels ≤ old.levels + 1) (deep : s / 2 < 2 ^ t1.height)
    (exact : s1 + sibling.entries.length + 1 = items.length) :
    ∃ t', report whole (2 ^ t1.height) s1 sibling = .ok t' ∧ Inserted items s t' ∧
    Grown old s t' := by
  have height : max t1.height sibling.height + 1 = whole.height := by
    simp only [Node.height]
    omega
  have deeper : s < 2 * max (2 ^ t1.height) (2 ^ sibling.height) := by omega
  rw [two_mul_max_pow, height] at deeper
  rw [report, count_height proper]
  simp only [ok_bind, exact, two_mul_max_pow, height]
  split
  case isTrue high =>
    obtain ⟨t', built, kept, low⟩ := holds.balanceTree
    have few : (items.length : Int) < 2 ^ whole.height := by nlinarith
    have shorter := low whole.height (by exact_mod_cast few)
    refine ⟨t', built, .tree _ kept, .tree _ kept.proper (.inl ?_)⟩
    simp only [Node.height] at shorter
    omega
  case isFalse low =>
    exact ⟨_, rfl, .report _ _ _ holds deeper (Int.not_lt.mp low) rfl,
      .report whole _ (by omega) grown⟩

/-- What `insert_1` makes of a subtree after the insertion. -/
def above (build : Node Key Value → Node Key Value) (sibling : Node Key Value) :
    Node Key Value → Outcome Key (Node Key Value)
  | .triple t1 h1 s1 => report (build t1) h1 s1 sibling
  | t1 => .ok (build t1)

theorem above_inserted {sibling : Node Key Value} (build : Node Key Value → Node Key Value)
    (holds : ∀ t, Holds t items → Holds (build t) whole)
    (exact : (items.length : Int) + sibling.entries.length + 1 = whole.length)
    (proper : sibling.Proper) (levels : ∀ t, (build t).levels = max t.levels sibling.levels + 1)
    (inserted : Inserted items (s / 2) t1) (grown : Grown t (s / 2) t1) :
    ∃ t', above build sibling t1 = .ok t' ∧ Inserted whole s t' ∧ Grown (build t) s t' := by
  cases inserted with
  | tree t1 kept =>
    have shape : above build sibling t1 = .ok (build t1) := by
      cases t1 with
      | triple => exact kept.proper.elim
      | _ => rfl
    cases grown with
    | tree _ _ low =>
      exact ⟨_, shape, .tree _ (holds _ kept),
        .tree _ (holds _ kept).proper (node_low sibling low (levels _) (levels _))⟩
    | report => exact kept.proper.elim
  | report t1 h size kept deep low same =>
    cases grown with
    | tree _ proper => exact proper.elim
    | report _ _ some grown =>
      refine report_inserted (holds _ kept) proper (levels _) some ?_ deep (by rw [same, exact])
      rw [levels, levels]
      omega

theorem Descent.insert_1_missing (descent : Descent cmp key t none) (value : Value) (s : Int)
    (positive : 0 ≤ s) :
    ∃ t', insert_1 cmp key value t s = .ok t' ∧
      Inserted (put cmp Prod.fst t.entries (key, value)) s t' ∧ Grown t s t' := by
  generalize absent : none = result at descent
  induction descent generalizing s with
  | missing =>
    have leaf : Holds (.node key value .nil .nil) (put cmp Prod.fst [] (key, value)) :=
      ⟨⟨trivial, trivial⟩, rfl⟩
    rw [insert_1]
    split
    case isTrue zero =>
      exact ⟨_, rfl, .report _ _ _ leaf (by omega) (by decide) rfl,
        .report (.node key value .nil .nil) 1 Nat.one_pos (Nat.le_refl 1)⟩
    case isFalse =>
      refine ⟨_, rfl, .tree _ leaf, .tree _ leaf.proper (.inr ?_)⟩
      change (2 : Int) ^ 0 ≤ s
      omega
  | found => cases absent
  | smaller key1 value1 smaller bigger less proper behind rest ih =>
    obtain ⟨t1, below, inserted, grown⟩ := ih (s / 2) (by omega) absent
    rw [insert_1, less, put_smaller behind]
    simp only [below]
    refine above_inserted (.node key1 value1 · bigger) (fun t holds => ?_) ?_ proper (fun _ => rfl)
      inserted grown
    · exact ⟨⟨holds.proper, proper⟩, by rw [Node.entries, holds.entries]⟩
    · simp [Int.add_assoc]
  | bigger key1 value1 smaller bigger greater proper passed rest ih =>
    obtain ⟨t1, below, inserted, grown⟩ := ih (s / 2) (by omega) absent
    rw [insert_1, greater, put_bigger passed]
    simp only [below]
    refine above_inserted (.node key1 value1 smaller) (fun t holds => ?_) ?_ proper
      (fun t => by rw [Node.levels, Nat.max_comm]) inserted grown
    · exact ⟨⟨proper, holds.proper⟩, by rw [Node.entries, holds.entries]⟩
    · simp only [length_append, length_cons]
      omega

theorem Descent.insert_1_found (descent : Descent cmp key t (some e))
    (value : Value) (s : Int) : insert_1 cmp key value t s = .error (.keyExists key) := by
  generalize present : some e = result at descent
  induction descent generalizing s with
  | missing => cases present
  | found _ _ _ _ same => simp [insert_1, same]
  | smaller _ _ _ _ less _ _ _ ih => simp [insert_1, less, ih _ present]
  | bigger _ _ _ _ greater _ _ _ ih => simp [insert_1, greater, ih _ present]

theorem merge_eq {smaller larger : Node Key Value} (proper : smaller.Proper)
    (proper' : larger.Proper) :
    ∃ t, merge smaller larger = .ok t ∧ Holds t (smaller.entries ++ larger.entries) := by
  by_cases none : larger = .nil
  · subst none
    exact ⟨smaller, by rw [merge], proper, by simp [Node.entries]⟩
  · by_cases none' : smaller = .nil
    · subst none'
      exact ⟨larger, by rw [merge]; exact none, proper', rfl⟩
    · obtain ⟨e, rest, entries⟩ := exists_cons_of_ne_nil (mt (eq_nil_of_entries proper') none)
      obtain ⟨larger1, taken, proper1, rest1⟩ := (smallest_1_eq proper' entries).2
      refine ⟨.node e.1 e.2 smaller larger1, ?_, ⟨proper, proper1⟩,
        by rw [Node.entries, rest1, entries]⟩
      rw [merge, taken]
      · rfl
      · exact none'
      · exact none

theorem Descent.delete_1_missing (descent : Descent cmp key t none) :
    delete_1 cmp key t = .error .functionClause := by
  generalize absent : none = result at descent
  induction descent with
  | missing => rfl
  | found => cases absent
  | smaller _ _ _ _ less _ _ _ ih => simp [delete_1, less, ih absent]
  | bigger _ _ _ _ greater _ _ _ ih => simp [delete_1, greater, ih absent]

theorem Descent.delete_1_found (descent : Descent cmp key t (some e)) :
    ∃ t', delete_1 cmp key t = .ok t' ∧ Holds t' (remove cmp Prod.fst t.entries key) ∧
      t'.entries.length + 1 = t.entries.length := by
  generalize present : some e = result at descent
  induction descent with
  | missing => cases present
  | found key1 value1 smaller bigger same proper proper' splits =>
    obtain ⟨t', merged, holds⟩ := merge_eq proper proper'
    refine ⟨t', by simp [delete_1, same, merged], ⟨holds.proper, ?_⟩, ?_⟩
    · rw [Node.entries, holds.entries, splits.remove_some same]
    · simp [holds.entries, Node.entries, Nat.add_assoc]
  | smaller key1 value1 smaller bigger less proper behind rest ih =>
    obtain ⟨t', deleted, holds, size⟩ := ih present
    refine ⟨.node key1 value1 t' bigger, by simp [delete_1, less, deleted],
      ⟨⟨holds.proper, proper⟩, ?_⟩, ?_⟩
    · rw [Node.entries, Node.entries, Library.remove_before behind, holds.entries]
    · simp only [Node.entries, length_append]
      omega
  | bigger key1 value1 smaller bigger greater proper passed rest ih =>
    obtain ⟨t', deleted, holds, size⟩ := ih present
    refine ⟨.node key1 value1 smaller t', by simp [delete_1, greater, deleted],
      ⟨⟨proper, holds.proper⟩, ?_⟩, ?_⟩
    · have kept := Library.remove_after passed bigger.entries
      rw [Node.entries, Node.entries, append_cons smaller.entries, holds.entries, ← kept]
      simp
    · simp only [Node.entries, length_append, length_cons]
      omega

end

theorem map_1_eq {f : Key → Value → Value} (proper : t.Proper) :
    ∃ t', map_1 f t = .ok t' ∧ Holds t' (t.entries.map fun e => (e.1, f e.1 e.2)) ∧
    t'.levels = t.levels := by
  induction t with
  | nil => exact ⟨.nil, rfl, ⟨trivial, rfl⟩, rfl⟩
  | node k v smaller larger smallerIh largerIh =>
    obtain ⟨smaller', left, holds, levels⟩ := smallerIh proper.1
    obtain ⟨larger', right, holds', levels'⟩ := largerIh proper.2
    refine ⟨.node k (f k v) smaller' larger', by simp [map_1, left, right],
      ⟨⟨holds.proper, holds'.proper⟩, ?_⟩, ?_⟩
    · simp [Node.entries, holds.entries, holds'.entries]
    · rw [Node.levels, levels, levels', Node.levels]
  | triple => exact proper.elim

end Otp.GbTrees
