import Otp.Ets.KeyTerm
import Otp.Ets.Tree

/-! Match programs: the heads of a match specification against the objects of a
table. -/

namespace Otp.Ets

variable {Leaf : Type}

/-- The variables bound so far by a match. -/
abbrev Bindings (Leaf : Type) := List (Int × Eterm Leaf)

/-- What a compiled match specification uses of the rest of the emulator: `EQ`,
the match of a pattern that is neither list, tuple nor atom (a map pattern also
matches larger maps), and the guards and body of a clause. -/
structure MatchOps (ops : LeafOps Leaf) where
  eq : Eterm Leaf → Eterm Leaf → Bool
  matchLeaf : Leaf → Leaf → Bindings Leaf → Option (Bindings Leaf)
  exact : ∀ pattern leaf bindings result, ops.tag pattern ≠ .map →
    matchLeaf pattern leaf bindings = some result → ops.cmp pattern leaf = .eq
  compile : Eterm Leaf → Eterm Leaf → Eterm Leaf →
    Option (Bindings Leaf → Eterm Leaf → Option (Eterm Leaf))

/-- An object of a table: a tuple with a key. -/
abbrev DbTerm (Leaf : Type) (keypos : Nat) :=
  { tpl : Eterm Leaf // (dbGetkey keypos tpl).isSome = true }

section

variable {ops : LeafOps Leaf} (mops : MatchOps ops)

/-- A variable takes its first value and is compared with it afterwards. -/
def matchVariable (variable' : Int) (term : Eterm Leaf) (bindings : Bindings Leaf) :
    Option (Bindings Leaf) :=
  match bindings.lookup variable' with
  | none => some ((variable', term) :: bindings)
  | some value => if mops.eq value term then some bindings else none

mutual

/-- The match of a head against an object. The compiled program meets the parts
in another order, which does not change whether it matches. -/
def matchTerm : Eterm Leaf → Eterm Leaf → Bindings Leaf → Option (Bindings Leaf)
  | .atom name, term, bindings =>
    if dbIsVariable (.atom name : Eterm Leaf) ≥ 0 then
      matchVariable mops (dbIsVariable (.atom name : Eterm Leaf)) term bindings
    else if name = amUnderscore then some bindings
    else match term with
      | .atom other => if name = other then some bindings else none
      | _ => none
  | .leaf pattern, .leaf leaf, bindings => mops.matchLeaf pattern leaf bindings
  | .nil, .nil, bindings => some bindings
  | .cons head tail, .cons head' tail', bindings => do
    let bindings ← matchTerm head head' bindings
    matchTerm tail tail' bindings
  | .tuple elements, .tuple elements', bindings =>
    if elements.length = elements'.length then matchElements elements elements' bindings else none
  | _, _, _ => none

def matchElements : List (Eterm Leaf) → List (Eterm Leaf) → Bindings Leaf → Option (Bindings Leaf)
  | first :: rest, second :: rest', bindings => do
    let bindings ← matchTerm first second bindings
    matchElements rest rest' bindings
  | _, _, bindings => some bindings

end

/-- One clause of a compiled match specification. -/
structure Clause (Leaf : Type) where
  head : Eterm Leaf
  body : Bindings Leaf → Eterm Leaf → Option (Eterm Leaf)

/-- `db_match_dbterm`: the first clause whose head and guards accept the object. -/
def dbMatchDbterm (program : List (Clause Leaf)) (object : Eterm Leaf) : Option (Eterm Leaf) :=
  program.findSome? fun clause => do
    let bindings ← matchTerm mops clause.head object []
    clause.body bindings object

end

section

variable (ops : LeafOps Leaf) (keypos : Nat)

/-- Keys of a table compare by `CMP`. -/
def tableOrder : KeyOrder (Eterm Leaf) (DbTerm Leaf keypos) where
  cmp := cmpTerm ops
  getKey obj := (dbGetkey keypos obj.1).get obj.2
  trans := inferInstance

def isUnderscore : Eterm Leaf → Bool
  | .atom name => name == amUnderscore
  | _ => false

end

variable {keypos : Nat} {ops : LeafOps Leaf} {mops : MatchOps ops}

theorem matchTerm_atom (plain : isVariable (.atom name : Eterm Leaf) = false)
    (success : matchTerm mops (.atom name) term bindings = some result) : term = .atom name := by
  simp only [isVariable, Bool.or_eq_false_iff, beq_eq_false_iff_ne,
    decide_eq_false_iff_not] at plain
  unfold matchTerm at success
  rw [if_neg plain.2, if_neg plain.1] at success
  cases term with
  | atom other =>
    by_cases same : name = other
    · rw [same]
    · simp [same] at success
  | _ => cases success

theorem matchElements_get (elements elements' : List (Eterm Leaf)) (index : Nat)
    (success : matchElements mops elements elements' bindings = some result)
    (pattern : elements[index]? = some first) (term : elements'[index]? = some second) :
    ∃ bindings result, matchTerm mops first second bindings = some result := by
  induction elements generalizing elements' index bindings with
  | nil => simp at pattern
  | cons head rest ih =>
    cases elements' with
    | nil => simp at term
    | cons head' rest' =>
      rw [matchElements, Option.bind_eq_bind, Option.bind_eq_some_iff] at success
      obtain ⟨middle, matched, later⟩ := success
      cases index with
      | zero =>
        simp only [List.getElem?_cons_zero, Option.some.injEq] at pattern term
        subst first second
        exact ⟨bindings, middle, matched⟩
      | succ index => exact ih rest' index later (by simpa using pattern) (by simpa using term)

/-- A head that matches an object is a variable, or its key matches the key. -/
theorem head_key (success : matchTerm mops head obj.1 bindings = some result) :
    (isUnderscore head = true ∨ dbIsVariable head ≠ -1) ∨
      ∃ key bindings result, dbGetkey keypos head = some key ∧
        matchTerm mops key ((tableOrder ops keypos).getKey obj) bindings = some result := by
  obtain ⟨tpl, keyed⟩ := obj
  cases tpl with
  | tuple elements' =>
    have position : dbGetkey keypos (.tuple elements' : Eterm Leaf) =
        some ((tableOrder ops keypos).getKey ⟨.tuple elements', keyed⟩) :=
          (Option.some_get keyed).symm
    cases head with
    | atom name =>
      left
      cases wildcard : isVariable (.atom name : Eterm Leaf) with
      | false => cases matchTerm_atom wildcard success
      | true =>
        simp only [isVariable, Bool.or_eq_true, decide_eq_true_eq] at wildcard
        exact wildcard.imp id fun number => by omega
    | tuple elements =>
      right
      rw [matchTerm] at success
      split at success
      case isFalse => cases success
      case isTrue arity =>
        simp only [dbGetkey, ← arity] at position ⊢
        split at position
        case isFalse => cases position
        case isTrue wide =>
          rw [if_pos wide]
          have bounded : keypos - 1 < elements'.length := (List.getElem?_eq_some_iff.mp position).1
          have present : elements[keypos - 1]? = some elements[keypos - 1] :=
            List.getElem?_eq_getElem (by omega)
          obtain ⟨bindings, result, matched⟩ :=
            matchElements_get elements elements' (keypos - 1) success present position
          exact ⟨_, bindings, result, present, matched⟩
    | _ => simp [matchTerm] at success
  | _ => simp [dbGetkey] at keyed

end Otp.Ets
