import Mathlib.Order.Compare
import Mathlib.Order.Defs.LinearOrder

/-! Keys of an `ordered_set` table: terms, their order `erts_cmp`, and the
variables of match specifications. Terms are generic in what is neither a list,
a tuple nor an atom. -/

namespace Otp.Ets

/-- The `_DEF` tags of `tag_val_def`. -/
inductive Tag where
  | binary | list | nil | map | tuple | pid | externalPid | port | externalPort
  | exportFun | funThing | ref | externalRef | atom | float | big | small
  deriving DecidableEq, Repr

/-- The values of the tags, against the order of the types. -/
def Tag.value : Tag → Nat
  | binary => 0x0
  | list => 0x1
  | nil => 0x2
  | map => 0x3
  | tuple => 0x4
  | pid => 0x5
  | externalPid => 0x6
  | port => 0x7
  | externalPort => 0x8
  | exportFun => 0x9
  | funThing => 0xa
  | ref => 0xb
  | externalRef => 0xc
  | atom => 0xd
  | float => 0xe
  | big => 0xf
  | small => 0x10

/-- Tags of one type compare by value of the terms, not by tag. -/
def Tag.kind : Tag → Nat
  | .externalPid => Tag.pid.value
  | .externalPort => Tag.port.value
  | .externalRef => Tag.ref.value
  | .float => Tag.small.value
  | .big => Tag.small.value
  | tag => tag.value

inductive Eterm (Leaf : Type) where
  | leaf (leaf : Leaf)
  | atom (name : List UInt8)
  | nil
  | cons (head tail : Eterm Leaf)
  | tuple (elements : List (Eterm Leaf))

/-- What the terms besides lists, tuples and atoms bring along: the tag, the
order `CMP`, whether a map has a variable, and `EQ`. -/
structure LeafOps (Leaf : Type) where
  tag : Leaf → Tag
  simple : ∀ leaf, tag leaf ∉ [Tag.list, .nil, .tuple, .atom]
  cmp : Leaf → Leaf → Ordering
  trans : Std.TransCmp cmp
  mixed : ∀ first second, (tag first).kind ≠ (tag second).kind →
    cmp first second = compare (tag second).kind (tag first).kind
  hasVariable : Leaf → Bool
  ground : ∀ leaf, hasVariable leaf = true → tag leaf = .map

variable {Leaf : Type} (ops : LeafOps Leaf)

/-- `tag_val_def`. -/
def tagValDef : Eterm Leaf → Tag
  | .leaf leaf => ops.tag leaf
  | .atom _ => .atom
  | .nil => .nil
  | .cons _ _ => .list
  | .tuple _ => .tuple

mutual

/-- `CMP`, the arithmetic comparison `erts_cmp`. -/
def cmpTerm : Eterm Leaf → Eterm Leaf → Ordering
  | .leaf first, .leaf second => ops.cmp first second
  | .atom first, .atom second => compare first second
  | .cons head tail, .cons head' tail' => (cmpTerm head head').then (cmpTerm tail tail')
  | .tuple elements, .tuple elements' =>
    (compare elements.length elements'.length).then (cmpElements elements elements')
  | first, second => compare (tagValDef ops second).kind (tagValDef ops first).kind

def cmpElements : List (Eterm Leaf) → List (Eterm Leaf) → Ordering
  | first :: rest, second :: rest' => (cmpTerm first second).then (cmpElements rest rest')
  | _, _ => .eq

end

/-- `'_'`. -/
def amUnderscore : List UInt8 := [95]

/-- The digits of `$N`, read into a C `int`. -/
def variableDigits : List UInt8 → Int → Int
  | [], number => number
  | byte :: rest, number =>
    if 48 ≤ byte ∧ byte ≤ 57 then
      variableDigits rest ((number * 10 + (byte.toNat - 48)).bmod (2 ^ 32))
    else -1

/-- `db_is_variable`: the number of the variable `$N`, or -1. -/
def dbIsVariable : Eterm Leaf → Int
  | .atom (36 :: 48 :: rest) => if rest = [] then 0 else -1
  | .atom (36 :: byte :: rest) =>
    if 49 ≤ byte ∧ byte ≤ 57 then variableDigits rest (byte.toNat - 48) else -1
  | _ => -1

/-- The test for an atom that matches anything. -/
def isVariable (term : Eterm Leaf) : Bool :=
  match term with
  | .atom name => name == amUnderscore || decide (dbIsVariable term ≥ 0)
  | _ => false

mutual

def dbHasVariable : Eterm Leaf → Bool
  | .leaf leaf => ops.hasVariable leaf
  | .atom name => isVariable (.atom name : Eterm Leaf)
  | .nil => false
  | .cons head tail => dbHasVariable head || dbHasVariable tail
  | .tuple elements => dbHasVariableElements elements

def dbHasVariableElements : List (Eterm Leaf) → Bool
  | [] => false
  | first :: rest => dbHasVariable first || dbHasVariableElements rest

end

mutual

def dbHasMap : Eterm Leaf → Bool
  | .leaf leaf => ops.tag leaf == .map
  | .atom _ => false
  | .nil => false
  | .cons head tail => dbHasMap head || dbHasMap tail
  | .tuple elements => dbHasMapElements elements

def dbHasMapElements : List (Eterm Leaf) → Bool
  | [] => false
  | first :: rest => dbHasMap first || dbHasMapElements rest

end

/-- `db_getkey`; positions count from one. -/
def dbGetkey (keypos : Nat) : Eterm Leaf → Option (Eterm Leaf)
  | .tuple elements => if elements.length ≥ keypos then elements[keypos - 1]? else none
  | _ => none

/-- A term written out from left to right. -/
inductive Symbol (Leaf : Type) where
  | leaf (leaf : Leaf)
  | atom (name : List UInt8)
  | nil
  | list
  | tuple (arity : Nat)

mutual

def symbols : Eterm Leaf → List (Symbol Leaf)
  | .leaf leaf => [.leaf leaf]
  | .atom name => [.atom name]
  | .nil => [.nil]
  | .cons head tail => .list :: (symbols head ++ symbols tail)
  | .tuple elements => .tuple elements.length :: symbolsElements elements

def symbolsElements : List (Eterm Leaf) → List (Symbol Leaf)
  | [] => []
  | first :: rest => symbols first ++ symbolsElements rest

end

def Symbol.kind : Symbol Leaf → Nat
  | .leaf value => (ops.tag value).kind
  | .atom _ => Tag.atom.kind
  | .nil => Tag.nil.kind
  | .list => Tag.list.kind
  | .tuple _ => Tag.tuple.kind

def Symbol.cmpWithin : Symbol Leaf → Symbol Leaf → Ordering
  | .leaf first, .leaf second => ops.cmp first second
  | .atom first, .atom second => compare first second
  | .tuple first, .tuple second => compare first second
  | _, _ => .eq

def cmpSymbol (first second : Symbol Leaf) : Ordering :=
  (compare (second.kind ops) (first.kind ops)).then (first.cmpWithin ops second)

theorem Tag.kind_simple (simple : tag ∉ [Tag.list, .nil, .tuple, .atom]) :
    tag.kind ∉ [Tag.list.kind, Tag.nil.kind, Tag.tuple.kind, Tag.atom.kind] := by
  revert simple
  cases tag <;> decide

/-- Symbols of one kind are written alike. -/
inductive Symbol.Alike : Symbol Leaf → Symbol Leaf → Prop where
  | leaf : Alike (.leaf first) (.leaf second)
  | atom : Alike (.atom first) (.atom second)
  | nil : Alike .nil .nil
  | list : Alike .list .list
  | tuple : Alike (.tuple first) (.tuple second)

variable {ops}

theorem Symbol.alike_of_kind {first second : Symbol Leaf}
    (same : first.kind ops = second.kind ops) : first.Alike second := by
  have leafKind (leaf : Leaf) := Tag.kind_simple (ops.simple leaf)
  cases first with
  | leaf leaf =>
    have apart := leafKind leaf
    simp only [kind] at same
    cases second with
    | leaf other => exact .leaf
    | _ => simp [same] at apart
  | _ =>
    cases second with
    | leaf leaf =>
      have apart := leafKind leaf
      simp only [kind] at same
      simp [← same] at apart
    | _ => first | constructor | simp [kind, Tag.kind, Tag.value] at same

theorem cmpSymbol_of_kind (same : first.kind ops = second.kind ops) :
    cmpSymbol ops first second = first.cmpWithin ops second := by
  simp [cmpSymbol, same]

theorem cmpSymbol_isLE : (cmpSymbol ops first second).isLE ↔ second.kind ops < first.kind ops ∨
      (second.kind ops = first.kind ops ∧ (first.cmpWithin ops second).isLE) := by
  simp [cmpSymbol, Ordering.isLE_then_iff_or, Nat.compare_eq_lt]

instance : Std.TransCmp (cmpSymbol ops) where
  eq_swap {first second} := by
    have leafTrans := ops.trans
    rcases Nat.lt_trichotomy (first.kind ops) (second.kind ops) with less | same | greater
    · simp [cmpSymbol, Nat.compare_eq_gt.mpr less, Nat.compare_eq_lt.mpr less]
    · rw [cmpSymbol_of_kind same, cmpSymbol_of_kind same.symm]
      cases Symbol.alike_of_kind same with
      | leaf | atom =>
        simp only [Symbol.cmpWithin]
        exact Std.OrientedCmp.eq_swap
      | nil => rfl
      | list => rfl
      | tuple =>
        simp only [Symbol.cmpWithin]
        exact Std.OrientedCmp.eq_swap
    · simp [cmpSymbol, Nat.compare_eq_gt.mpr greater, Nat.compare_eq_lt.mpr greater]
  isLE_trans {first second third} low high := by
    have leafTrans := ops.trans
    rw [cmpSymbol_isLE] at low high ⊢
    rcases low with low | ⟨same, low⟩
    · left
      rcases high with high | ⟨same', _⟩ <;> omega
    · rcases high with high | ⟨same', high⟩
      · left
        omega
      · refine .inr ⟨same'.trans same, ?_⟩
        cases Symbol.alike_of_kind same.symm <;> cases Symbol.alike_of_kind same'.symm
        case nil.nil => rfl
        case list.list => rfl
        all_goals
          simp only [Symbol.cmpWithin] at low high ⊢
          exact Std.TransCmp.isLE_trans low high

/-- The first symbol of a term. -/
def Eterm.symbol : Eterm Leaf → Symbol Leaf
  | .leaf value => .leaf value
  | .atom name => .atom name
  | .nil => .nil
  | .cons _ _ => .list
  | .tuple elements => .tuple elements.length

theorem Eterm.symbol_kind (term : Eterm Leaf) :
    term.symbol.kind ops = (tagValDef ops term).kind := by
  cases term <;> rfl

theorem symbols_head (term : Eterm Leaf) : ∃ rest, symbols term = term.symbol :: rest := by
  cases term <;> exact ⟨_, by rfl⟩

/-- Terms of one kind have the same outermost shape. -/
inductive Eterm.Alike : Eterm Leaf → Eterm Leaf → Prop where
  | leaf (first second) : Alike (.leaf first) (.leaf second)
  | atom (first second) : Alike (.atom first) (.atom second)
  | nil : Alike .nil .nil
  | cons (head tail head' tail') : Alike (.cons head tail) (.cons head' tail')
  | tuple (elements elements') : Alike (.tuple elements) (.tuple elements')

theorem Eterm.alike_of_kind {first second : Eterm Leaf}
    (same : first.symbol.kind ops = second.symbol.kind ops) : first.Alike second := by
  have alike := Symbol.alike_of_kind same
  cases first <;> cases second <;> first | constructor | cases alike

/-- Terms of different types compare by type. -/
theorem cmpTerm_mixed (differ : (tagValDef ops first).kind ≠ (tagValDef ops second).kind) :
    cmpTerm ops first second = compare (tagValDef ops second).kind (tagValDef ops first).kind := by
  cases first <;> cases second
  case leaf.leaf first second => simpa [cmpTerm, tagValDef] using ops.mixed first second differ
  case atom.atom => exact absurd rfl differ
  case cons.cons => exact absurd rfl differ
  case tuple.tuple => exact absurd rfl differ
  all_goals simp [cmpTerm]

theorem cmpTerm_symbols_mixed (differ : (tagValDef ops first).kind ≠ (tagValDef ops second).kind) :
    List.compareLex (cmpSymbol ops) (symbols first ++ rest) (symbols second ++ rest') =
      (cmpTerm ops first second).then (List.compareLex (cmpSymbol ops) rest rest') := by
  obtain ⟨more, shape⟩ := symbols_head first
  obtain ⟨more', shape'⟩ := symbols_head second
  rw [shape, shape', List.cons_append, List.cons_append, List.compareLex_cons_cons, cmpSymbol,
    Eterm.symbol_kind, Eterm.symbol_kind, cmpTerm_mixed differ]
  rcases Nat.lt_or_gt_of_ne differ with less | greater
  · simp [Nat.compare_eq_gt.mpr less]
  · simp [Nat.compare_eq_lt.mpr greater]

mutual

/-- The order of terms is the lexicographic order of their symbols. -/
theorem cmpTerm_symbols (first second : Eterm Leaf) (rest rest' : List (Symbol Leaf)) :
    List.compareLex (cmpSymbol ops) (symbols first ++ rest) (symbols second ++ rest') =
      (cmpTerm ops first second).then (List.compareLex (cmpSymbol ops) rest rest') := by
  by_cases same : (tagValDef ops first).kind = (tagValDef ops second).kind
  case neg => exact cmpTerm_symbols_mixed same
  rw [← Eterm.symbol_kind, ← Eterm.symbol_kind] at same
  have within := cmpSymbol_of_kind same
  cases Eterm.alike_of_kind same with
  | leaf | atom | nil =>
    simp only [Eterm.symbol, Symbol.cmpWithin] at within
    simp [symbols, List.compareLex_cons_cons, cmpTerm, within]
  | cons head tail head' tail' =>
    simp only [Eterm.symbol, Symbol.cmpWithin] at within
    simp only [symbols, List.cons_append, List.append_assoc, List.compareLex_cons_cons, within,
      Ordering.eq_then, cmpTerm, Ordering.then_assoc]
    rw [cmpTerm_symbols head head', cmpTerm_symbols tail tail']
  | tuple elements elements' =>
    simp only [Eterm.symbol, Symbol.cmpWithin] at within
    simp only [symbols, List.cons_append, List.compareLex_cons_cons, within, cmpTerm,
      Ordering.then_assoc]
    cases arity : compare elements.length elements'.length with
    | lt => rfl
    | gt => rfl
    | eq =>
      rw [Ordering.eq_then, Ordering.eq_then, cmpElements_symbols (Nat.compare_eq_eq.mp arity)]

theorem cmpElements_symbols {elements elements' : List (Eterm Leaf)}
    (length : elements.length = elements'.length) {rest rest' : List (Symbol Leaf)} :
    List.compareLex (cmpSymbol ops) (symbolsElements elements ++ rest)
      (symbolsElements elements' ++ rest') =
      (cmpElements ops elements elements').then (List.compareLex (cmpSymbol ops) rest rest') := by
  match elements, elements' with
  | [], [] => simp [symbolsElements, cmpElements]
  | first :: more, second :: more' =>
    simp only [symbolsElements, List.append_assoc, cmpElements, Ordering.then_assoc]
    rw [cmpTerm_symbols first second, cmpElements_symbols (by simpa using length)]

end

theorem cmpTerm_eq :
    cmpTerm ops first second = List.compareLex (cmpSymbol ops) (symbols first)
      (symbols second) := by
  have whole := @cmpTerm_symbols Leaf ops first second [] []
  rw [List.append_nil, List.append_nil, List.compareLex_nil_nil, Ordering.then_eq] at whole
  exact whole.symm

instance : Std.TransCmp (cmpTerm ops) where
  eq_swap {first second} := by
    rw [cmpTerm_eq, cmpTerm_eq]
    exact Std.OrientedCmp.eq_swap
  isLE_trans {first second third} low high := by
    rw [cmpTerm_eq] at low high ⊢
    exact Std.TransCmp.isLE_trans low high

end Otp.Ets
