import Otp.Ets.HashSelect
import Otp.Ets.Match

/-! Runs of a hash table against runs of a store, for tables of terms. -/

namespace Otp.Ets

open List Otp.Library

variable {Key Obj : Type}

/-- The calls of one process, with `select_delete` up to its end. -/
inductive StoreOp (Key Obj : Type) where
  | put (obj : Obj) (keyClashFail room : Bool)
  | erase (key : Key)
  | eraseObject (obj : Obj)
  | take (key : Key)
  | selectDelete (pid : Nat) (spec : MatchSpec Key Obj)
  | grow (room : Bool)
  | shrink
  | fix (pid : Nat)
  | unfix (pid : Nat)

section

variable [DecidableEq Key] [DecidableEq Obj] (ops : HashOps Key Obj) (smp : Bool)

def storeStep (tb : DbTableHash Obj) : StoreOp Key Obj → DbTableHash Obj
  | .put obj keyClashFail room => (hashStep ops smp tb (.put obj keyClashFail room)).1
  | .erase key => (hashStep ops smp tb (.erase key)).1
  | .eraseObject obj => (hashStep ops smp tb (.eraseObject obj)).1
  | .take key => (hashStep ops smp tb (.take key)).1
  | .selectDelete pid spec => (selectDelete ops smp tb pid spec).1
  | .grow room => (hashStep ops smp tb (.grow room)).1
  | .shrink => (hashStep ops smp tb .shrink).1
  | .fix pid => (hashStep ops smp tb (.fixTable pid)).1
  | .unfix pid => (hashStep ops smp tb (.unfixTable pid)).1

/-- The same calls on a store. -/
def Store.step (type : HashType) (store : Store Key Obj) : StoreOp Key Obj → Store Key Obj
  | .put obj keyClashFail _ => (store.put ops type obj keyClashFail).1
  | .erase key => store.erase key
  | .eraseObject obj => store.eraseObject ops obj
  | .take key => store.erase key
  | .selectDelete _ spec => store.selectDelete spec.accept
  | .grow _ => store
  | .shrink => store
  | .fix _ => store
  | .unfix _ => store

variable {ops smp} {tb : DbTableHash Obj} {store : Store Key Obj}

/-- The heads of every `select_delete` cover what it accepts. -/
def StoreOp.Covered (ops : HashOps Key Obj) (op : StoreOp Key Obj) : Prop :=
  ∀ pid spec, op = .selectDelete pid spec → spec.Covers ops

theorem Holds.storeStep (holds : Holds ops tb store) (smp : Bool) (op : StoreOp Key Obj)
    (covered : op.Covered ops) :
    Holds ops (storeStep ops smp tb op) (store.step ops tb.type op) := by
  cases op with
  | put obj keyClashFail room => exact (holds.dbPutHash obj keyClashFail room).1
  | erase key => exact holds.dbEraseHash key
  | eraseObject obj => exact holds.dbEraseObjectHash obj
  | take key => exact (holds.dbTakeHash key).1
  | selectDelete pid spec =>
    obtain ⟨tb', got, result, after⟩ := holds.selectDelete smp pid (covered pid spec rfl)
    rw [Ets.storeStep, result]
    exact after
  | grow room => exact holds.grow room
  | shrink =>
    unfold Ets.storeStep hashStep
    dsimp only
    split
    case isTrue large => exact holds.shrink large
    case isFalse => exact holds
  | fix pid => exact holds.etsSafeFixtable pid true
  | unfix pid => exact holds.etsSafeFixtable pid false

omit [DecidableEq Obj] in
/-- A table keeps its type. -/
theorem type_sizeOnly {type : HashType} : SizeOnly fun tb : DbTableHash Obj => tb.type = type := by
  refine ⟨fun _ _ _ _ _ _ same => same, ?_, ?_, fun _ same => same⟩
  · intro tb room same
    unfold grow
    split
    · exact same
    split
    · exact same
    obtain ⟨nslots, bucket, shape⟩ := ensureSlot_same
    rw [shape]
    dsimp only
    split
    · exact same
    · exact same
  · intro tb same _
    unfold shrink
    split
    · exact same
    split
    · exact same
    · exact same

omit [DecidableEq Key] [DecidableEq Obj] in
theorem SizeOnly.selectDeleteLoop {P : DbTableHash Obj → Prop} (only : SizeOnly P) (smp : Bool)
    (pid : Nat) (accept : Obj → Bool) (turns : Nat) (result : DbTableHash Obj × HashReply Obj)
    (holds : P result.1) : P (selectDeleteLoop smp pid accept turns result).1 := by
  induction turns generalizing result with
  | zero => exact holds
  | succ turns ih =>
    obtain ⟨tb, reply⟩ := result
    cases reply with
    | trap slotIx got => exact ih _ (only.etsSelectDeleteContinue smp holds pid accept slotIx got)
    | _ => exact holds

theorem storeStep_type : (storeStep ops smp tb op).type = tb.type := by
  have only : SizeOnly fun tb' : DbTableHash Obj => tb'.type = tb.type := type_sizeOnly
  cases op with
  | selectDelete pid spec =>
    exact only.selectDeleteLoop smp pid _ _ _ (only.etsSelectDelete ops smp rfl pid (some spec))
  | _ => exact only.hashStep ops smp rfl _

theorem Holds.run (holds : Holds ops tb store) (smp : Bool) (run : List (StoreOp Key Obj))
    (covered : ∀ op ∈ run, op.Covered ops) :
    Holds ops (run.foldl (Ets.storeStep ops smp) tb)
      (run.foldl (Store.step ops tb.type) store) := by
  induction run generalizing tb store with
  | nil => exact holds
  | cons op run ih =>
    obtain ⟨here, later⟩ := forall_mem_cons.mp covered
    have next := ih (holds.storeStep smp op here) later
    rwa [storeStep_type] at next

end

section

variable {Leaf : Type} [DecidableEq Leaf]

mutual

/-- `EQ`. -/
def eqTerm : Eterm Leaf → Eterm Leaf → Bool
  | .leaf leaf, .leaf leaf' => leaf = leaf'
  | .atom name, .atom name' => name = name'
  | .nil, .nil => true
  | .cons head tail, .cons head' tail' => eqTerm head head' && eqTerm tail tail'
  | .tuple elements, .tuple elements' => eqElements elements elements'
  | _, _ => false

def eqElements : List (Eterm Leaf) → List (Eterm Leaf) → Bool
  | [], [] => true
  | first :: rest, second :: rest' => eqTerm first second && eqElements rest rest'
  | _, _ => false

end

mutual

theorem eqTerm_iff (first second : Eterm Leaf) : eqTerm first second = true ↔ first = second := by
  cases first with
  | leaf | atom | nil => cases second <;> simp [eqTerm]
  | cons head tail =>
    cases second with
    | cons head' tail' => simp [eqTerm, eqTerm_iff head head', eqTerm_iff tail tail']
    | _ => simp [eqTerm]
  | tuple elements =>
    cases second with
    | tuple elements' => simp [eqTerm, eqElements_iff]
    | _ => simp [eqTerm]

theorem eqElements_iff {first second : List (Eterm Leaf)} : eqElements first second = true ↔
    first = second := by
  match first, second with
  | [], [] => simp [eqElements]
  | [], _ :: _ => simp [eqElements]
  | _ :: _, [] => simp [eqElements]
  | head :: rest, head' :: rest' => simp [eqElements, eqTerm_iff head head', eqElements_iff]

end

instance : DecidableEq (Eterm Leaf) := fun first second =>
  decidable_of_iff _ (eqTerm_iff first second)

end

section

variable {Leaf : Type} {lops : LeafOps Leaf} (mops : MatchOps lops) {keypos : Nat}

/-- What `analyze_pattern` takes from a head. -/
def hashHeadKey (lops : LeafOps Leaf) (keypos : Nat) (tpl : Eterm Leaf) : HeadKey (Eterm Leaf) :=
  if isUnderscore tpl ∨ dbIsVariable tpl ≠ -1 then .unbound
  else match dbGetkey keypos tpl with
    | none => .missing
    | some key => if dbHasVariable lops key then .unbound else .bound key

/-- A match program as `select_delete` uses it: objects with the result `true` go. -/
def hashSpec (keypos : Nat) (program : List (Clause Leaf)) :
    MatchSpec (Eterm Leaf) (DbTerm Leaf keypos) where
  heads := program.map fun clause => hashHeadKey lops keypos clause.head
  accept obj := match dbMatchDbterm mops program obj.1 with
    | some (.atom name) => name == "true".toUTF8.data.toList
    | _ => false

/-- Terms besides maps match only themselves. -/
def MatchOps.Sharp {lops : LeafOps Leaf} (mops : MatchOps lops) : Prop :=
  ∀ pattern leaf bindings result, lops.tag pattern ≠ .map →
    mops.matchLeaf pattern leaf bindings = some result → leaf = pattern

variable {mops}

mutual

theorem matchTerm_ground (sharp : mops.Sharp) (pattern term : Eterm Leaf)
    (ground : dbHasVariable lops pattern = false) (mapless : dbHasMap lops pattern = false)
    (success : matchTerm mops pattern term bindings = some result) : term = pattern := by
  cases pattern with
  | leaf leaf =>
    cases term with
    | leaf leaf' =>
      have plain : lops.tag leaf ≠ .map := by simpa [dbHasMap] using mapless
      rw [matchTerm] at success
      rw [sharp leaf leaf' bindings result plain success]
    | _ => simp [matchTerm] at success
  | atom name => exact matchTerm_atom (by simpa [dbHasVariable] using ground) success
  | nil =>
    cases term with
    | nil => rfl
    | _ => simp [matchTerm] at success
  | cons head tail =>
    cases term with
    | cons head' tail' =>
      simp only [dbHasMap, dbHasVariable, Bool.or_eq_false_iff] at mapless ground
      rw [matchTerm, Option.bind_eq_bind, Option.bind_eq_some_iff] at success
      obtain ⟨middle, first, second⟩ := success
      rw [matchTerm_ground sharp head head' ground.1 mapless.1 first,
        matchTerm_ground sharp tail tail' ground.2 mapless.2 second]
    | _ => simp [matchTerm] at success
  | tuple elements =>
    cases term with
    | tuple elements' =>
      rw [dbHasMap] at mapless
      rw [dbHasVariable] at ground
      rw [matchTerm] at success
      split at success
      case isFalse => cases success
      case isTrue arity => rw [matchElements_ground sharp arity ground mapless success]
    | _ => simp [matchTerm] at success

theorem matchElements_ground (sharp : mops.Sharp) {elements elements' : List (Eterm Leaf)}
    (length : elements.length = elements'.length)
    (ground : dbHasVariableElements lops elements = false)
    (mapless : dbHasMapElements lops elements = false)
    (success : matchElements mops elements elements' bindings = some result) :
    elements' = elements := by
  match elements, elements' with
  | [], [] => rfl
  | first :: rest, second :: rest' =>
    simp only [dbHasMapElements, dbHasVariableElements, Bool.or_eq_false_iff] at mapless ground
    rw [matchElements, Option.bind_eq_bind, Option.bind_eq_some_iff] at success
    obtain ⟨middle, matched, later⟩ := success
    rw [matchTerm_ground sharp first second ground.1 mapless.1 matched,
      matchElements_ground sharp (by simpa using length) ground.2 mapless.2 later]

end

/-- No head has a key without variables that contains a map. -/
def BoundKeysMapless (lops : LeafOps Leaf) (keypos : Nat) (program : List (Clause Leaf)) : Prop :=
  ∀ clause ∈ program, ∀ key, dbGetkey keypos clause.head = some key →
    dbHasVariable lops key = false → dbHasMap lops key = false

/-- Some head leaves the key unbound, so that all buckets are searched. -/
def SomeKeyUnbound (lops : LeafOps Leaf) (keypos : Nat) (program : List (Clause Leaf)) : Prop :=
  ∃ clause ∈ program, hashHeadKey lops keypos clause.head = .unbound

theorem hashSpec_covers (sharp : mops.Sharp)
    (keyed : ∀ obj, ops.getKey obj = (tableOrder lops keypos).getKey obj)
    (clear : SomeKeyUnbound lops keypos program ∨ BoundKeysMapless lops keypos program) :
    (hashSpec mops keypos program).Covers ops := by
  rcases clear with ⟨clause, listed, free⟩ | mapless
  · exact fun _ _ => .inl (mem_map.mpr ⟨clause, listed, free⟩)
  intro obj accepted
  have some : (dbMatchDbterm mops program obj.1).isSome = true := by
    cases result : dbMatchDbterm mops program obj.1 with
    | none => simp [hashSpec, result] at accepted
    | some _ => rfl
  obtain ⟨result, matched⟩ := Option.isSome_iff_exists.mp some
  obtain ⟨clause, listed, success⟩ := exists_of_findSome?_eq_some matched
  rw [Option.bind_eq_bind, Option.bind_eq_some_iff] at success
  obtain ⟨bindings, head, _⟩ := success
  have entry : hashHeadKey lops keypos clause.head ∈ (hashSpec mops keypos program).heads :=
    mem_map_of_mem listed
  unfold hashHeadKey at entry
  rcases head_key head with wild | ⟨key, _, _, found, inner⟩
  · rw [if_pos wild] at entry
    exact .inl entry
  · rw [found] at entry
    split at entry
    · exact .inl entry
    dsimp only at entry
    split at entry
    · exact .inl entry
    case isFalse ground =>
      have ground : dbHasVariable lops key = false := Bool.eq_false_iff.mpr ground
      have same :=
        matchTerm_ground sharp key _ ground (mapless clause listed key found ground) inner
      right
      rwa [keyed, same]

variable (mops) [DecidableEq Leaf]

/-- A hash table refines its abstract type in every run in which no
`select_delete` has a head with a key without variables that contains a map, or
another head leaves the key unbound. -/
theorem hash_refines_store (sharp : mops.Sharp) (ops : HashOps (Eterm Leaf) (DbTerm Leaf keypos))
    (keyed : ∀ obj, ops.getKey obj = (tableOrder lops keypos).getKey obj) (smp : Bool)
    (type : HashType) (access : Access) (fineLocked : Bool) (owner : Nat)
    (run : List (StoreOp (Eterm Leaf) (DbTerm Leaf keypos)))
    (mapless : ∀ pid spec, .selectDelete pid spec ∈ run →
      ∃ program, spec = hashSpec mops keypos program ∧
        (SomeKeyUnbound lops keypos program ∨ BoundKeysMapless lops keypos program)) :
    let tb := run.foldl (storeStep ops smp) (newHashTable type access fineLocked owner)
    (∀ ix < tb.nactive, ∀ b ∈ tb.bucket ix, hashToIx tb (makeHash ops (ops.getKey b.dbterm)) = ix ∧
          (b.isLive = true → b.hvalue = makeHash ops (ops.getKey b.dbterm))) ∧
      (∀ ix < tb.nactive, Contiguous ((tb.bucket ix).map fun b => ops.getKey b.dbterm)) ∧
      ∀ key, dbGetHash ops tb key = run.foldl (Store.step ops type) (fun _ => []) key := by
  have created : Holds ops (newHashTable type access fineLocked owner) fun _ => [] := holds_create
  have final := created.run smp run (by
    intro op member pid spec shape
    obtain ⟨program, rfl, clear⟩ := mapless pid spec (shape ▸ member)
    exact hashSpec_covers sharp keyed clear)
  refine ⟨fun ix active b member => ⟨final.ok.placed ix active b member, ?_⟩,
    fun ix active => (final.ok.chains ix active).contiguous, fun key => ?_⟩
  · exact (final.ok.chains ix active).hashed b member
  · rw [final.ok.dbGetHash_eq, final.same]
    rfl

end

/-- Two maps as terms: `#{}` for `false` and `#{a => 1}` for `true`. -/
def twoMaps : LeafOps Bool where
  tag _ := .map
  simple := by simp
  cmp := compare
  trans := inferInstance
  mixed := by simp
  hasVariable _ := false
  ground := by simp

/-- A map pattern matches every map that has its pairs. -/
def mapMatch : MatchOps twoMaps where
  eq first second := first = second
  matchLeaf pattern leaf bindings :=
    if pattern = false ∨ pattern = leaf then some bindings else none
  exact _ _ _ _ other := absurd rfl other
  compile _ _ _ := some fun _ _ => some (.atom "true".toUTF8.data.toList)

def mapHashOps : HashOps (Eterm Bool) (DbTerm Bool 1) where
  getKey := (tableOrder twoMaps 1).getKey
  hash
    | .leaf true => 1
    | _ => 0
  setKey _ key := ⟨.tuple [key], rfl⟩
  getKey_setKey _ _ := rfl

/-- The object `{#{a => 1}}`. -/
def mapObject : DbTerm Bool 1 := ⟨.tuple [.leaf true], rfl⟩

/-- A clause that deletes the objects with a key that the pattern matches. -/
def deleteKey (pattern : Eterm Bool) : Clause Bool :=
  ⟨.tuple [pattern], fun _ _ => some (.atom "true".toUTF8.data.toList)⟩

/-- Insert the object, and delete what the clauses match. -/
def deleteRun (program : List (Clause Bool)) : List (StoreOp (Eterm Bool) (DbTerm Bool 1)) :=
  [.put mapObject false true, .selectDelete 0 (hashSpec mapMatch 1 program)]

/-- A map as a key is harmless beside a variable. -/
theorem hash_refines_open_head :
    dbGetHash mapHashOps ((deleteRun [deleteKey (.leaf false),
      deleteKey (.atom amUnderscore)]).foldl
      (storeStep mapHashOps false) (newHashTable .set .dbPublic false 0)) (.leaf true) = [] := by
  refine ((hash_refines_store mapMatch (fun _ _ _ _ other => absurd rfl other) mapHashOps
    (fun _ => rfl) false .set .dbPublic false 0 (deleteRun _) ?_).2.2 _).trans rfl
  intro pid spec member
  simp only [deleteRun, mem_cons, not_mem_nil, or_false, reduceCtorEq, false_or,
    StoreOp.selectDelete.injEq] at member
  exact ⟨_, member.2, .inl ⟨deleteKey (.atom amUnderscore), by simp, rfl⟩⟩

/-- The head `{#{}}` matches the object, but only the bucket of `#{}` is searched. -/
theorem hash_keeps_larger_map :
    dbGetHash mapHashOps ((deleteRun [deleteKey (.leaf false)]).foldl (storeStep mapHashOps false)
        (newHashTable .set .dbPublic false 0)) (.leaf true) = [mapObject] ∧
      (deleteRun [deleteKey (.leaf false)]).foldl (Store.step mapHashOps .set) (fun _ => [])
        (.leaf true) = [] := by
  decide +kernel

end Otp.Ets
