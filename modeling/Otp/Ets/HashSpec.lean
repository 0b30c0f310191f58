import Mathlib.Data.List.TakeDrop
import Mathlib.Data.List.TakeWhile
import Otp.Ets.HashUpdate

/-! What the operations on one key do to the bucket of the key. -/

namespace Otp.Ets

open List

variable {Key Obj : Type} [DecidableEq Key] (ops : HashOps Key Obj) (tb : DbTableHash Obj)

def keySlot (key : Key) : Nat := hashToIx tb (makeHash ops key)

/-- The bucket of a key. -/
def keyChain (key : Key) : List (HashDbTerm Obj) := tb.bucket (keySlot ops tb key)

/-- The node of an object. -/
def nodeOf (obj : Obj) : HashDbTerm Obj := ⟨makeHash ops (ops.getKey obj), obj⟩

omit [DecidableEq Key] in
theorem makeHash_valid (key : Key) : makeHash ops key ≠ invalidHash :=
  Nat.ne_of_lt (Nat.lt_trans (Nat.mod_lt _ (by decide : 0 < maxHash)) (by decide))

omit [DecidableEq Key] in
theorem nodeOf_live (obj : Obj) : (nodeOf ops obj).isLive = true :=
  bne_iff_ne.mpr (makeHash_valid ops _)

theorem isLive_iff (b : HashDbTerm Obj) : b.isLive = true ↔ b.hvalue ≠ invalidHash := by
  simp [HashDbTerm.isLive]

theorem isLive_eq_false (b : HashDbTerm Obj) : b.isLive = false ↔ b.hvalue = invalidHash := by
  simp [HashDbTerm.isLive]

@[simp] theorem isLive_pseudoDelete (b : HashDbTerm Obj) : b.pseudoDelete.isLive = false := by
  simp [HashDbTerm.pseudoDelete, HashDbTerm.isLive]

/-- A chain cut behind the first nodes, which all have a property. -/
theorem span_all (p : HashDbTerm Obj → Bool) (chain : List (HashDbTerm Obj)) :
    ∃ group behind, chain.span p = (group, behind) ∧ chain = group ++ behind ∧
      (∀ b ∈ group, p b = true) ∧ ∀ b rest, behind = b :: rest → p b = false := by
  refine ⟨_, _, span_eq_takeWhile_dropWhile _ _, takeWhile_append_dropWhile.symm, ?_, ?_⟩
  · intro b member
    exact mem_takeWhile_imp member
  · intro b behind shape
    have head := head?_dropWhile_not p chain
    rw [shape] at head
    simpa using head

/-- A chain cut before the first node with a property. -/
theorem span_not (p : HashDbTerm Obj → Bool) (chain : List (HashDbTerm Obj)) :
    ∃ passed rest, chain.span (fun b => !p b) = (passed, rest) ∧ chain = passed ++ rest ∧
      (∀ b ∈ passed, p b = false) ∧ ∀ b behind, rest = b :: behind → p b = true := by
  simpa using span_all (fun b => !p b) chain

/-- A node of the key, live or not. -/
abbrev ofKey (key : Key) (b : HashDbTerm Obj) : Bool := hasKey ops b key (makeHash ops key)

/-- A live node of the key. -/
abbrev liveOf (key : Key) (b : HashDbTerm Obj) : Bool := hasLiveKey ops b key (makeHash ops key)

theorem hasLiveKey_live {b : HashDbTerm Obj} (valid : hval ≠ invalidHash)
    (here : hasLiveKey ops b key hval = true) : b.isLive = true := by
  unfold hasLiveKey at here
  split at here
  · cases here
  case isFalse same =>
    rw [isLive_iff, not_not.mp same]
    exact valid

theorem liveOf_live (here : liveOf ops key b = true) : b.isLive = true :=
  hasLiveKey_live ops (makeHash_valid ops key) here

theorem ofKey_eq (key : Key) (b : HashDbTerm Obj) :
    ofKey ops key b = (liveOf ops key b || !b.isLive && key = ops.getKey b.dbterm) := by
  unfold ofKey hasKey liveOf hasLiveKey HashDbTerm.isLive
  by_cases live : b.hvalue = makeHash ops key
  · simp [live]
  · by_cases dead : b.hvalue = invalidHash <;> simp [dead]

/-- The chain of a key around its group of nodes. -/
structure KeySplit (key : Key) (passed group behind : List (HashDbTerm Obj)) : Prop where
  chain : keyChain ops tb key = passed ++ group ++ behind
  before : ∀ b ∈ passed, ofKey ops key b = false
  inside : ∀ b ∈ group, ofKey ops key b = true
  after : ∀ b rest, behind = b :: rest → ofKey ops key b = false

/-- Store a chain under a key. -/
abbrev setKeyChain (key : Key) (chain : List (HashDbTerm Obj)) : DbTableHash Obj :=
  setBucket tb (keySlot ops tb key) chain

/-- The outcomes of `db_put_hash`. -/
inductive PutOutcome (obj : Obj) (keyClashFail room : Bool) : DbTableHash Obj × DbError → Prop where
  /-- The key is new. -/
  | absent (free : ∀ b ∈ keyChain ops tb (ops.getKey obj), ofKey ops (ops.getKey obj) b = false) :
      PutOutcome obj keyClashFail room
        (linkNew tb (keySlot ops tb (ops.getKey obj)) (makeHash ops (ops.getKey obj)) obj
          (keyChain ops tb (ops.getKey obj)) [] room, .none)
  /-- The node of the key takes the object. -/
  | replace (type : tb.type = .set) (passed behind : List (HashDbTerm Obj)) (b : HashDbTerm Obj)
      (chain : keyChain ops tb (ops.getKey obj) = passed ++ b :: behind)
      (before : ∀ b ∈ passed, ofKey ops (ops.getKey obj) b = false)
      (here : ofKey ops (ops.getKey obj) b = true)
      (allowed : b.isLive = true → keyClashFail = false) :
      PutOutcome obj keyClashFail room
        ({ setKeyChain ops tb (ops.getKey obj) (passed ++ nodeOf ops obj :: behind) with
            nitems := if b.isLive then tb.nitems else tb.nitems + 1 }, .none)
  /-- The key has an object. -/
  | clash (clashes : keyClashFail = true) (b : HashDbTerm Obj)
      (member : b ∈ keyChain ops tb (ops.getKey obj)) (here : ofKey ops (ops.getKey obj) b = true)
      (live : b.isLive = true) :
      PutOutcome obj keyClashFail room (tb, .badKey)
  /-- The object goes before the other nodes of the key. -/
  | push (type : tb.type ≠ .set) (passed group behind : List (HashDbTerm Obj))
      (split : KeySplit ops tb (ops.getKey obj) passed group behind) (nonempty : group ≠ [])
      (allowed : (keyClashFail = true ∧ ∀ b ∈ group, b.isLive = false) ∨
        keyClashFail = false ∧ (tb.type = .bag → ∀ b ∈ group, b.dbterm ≠ obj)) :
      PutOutcome obj keyClashFail room
        (linkNew tb (keySlot ops tb (ops.getKey obj)) (makeHash ops (ops.getKey obj)) obj passed
          (group ++ behind) room, .none)
  /-- A `bag` has the object already. -/
  | present (type : tb.type = .bag) (clashes : keyClashFail = false) (b : HashDbTerm Obj)
      (member : b ∈ keyChain ops tb (ops.getKey obj)) (here : ofKey ops (ops.getKey obj) b = true)
      (live : b.isLive = true) (same : b.dbterm = obj) :
      PutOutcome obj keyClashFail room (tb, .none)
  /-- A `bag` has the object pseudo-deleted. -/
  | revive (type : tb.type = .bag) (clashes : keyClashFail = false)
      (passed newer older behind : List (HashDbTerm Obj)) (q : HashDbTerm Obj)
      (split : KeySplit ops tb (ops.getKey obj) passed (newer ++ q :: older) behind)
      (first : ∀ b ∈ newer, b.dbterm ≠ obj) (same : q.dbterm = obj) (dead : q.isLive = false) :
      PutOutcome obj keyClashFail room ({ setKeyChain ops tb (ops.getKey obj)
            (passed ++ (nodeOf ops obj :: newer ++ older) ++ behind) with
            nitems := tb.nitems + 1 }, .none)

theorem putOutcome [DecidableEq Obj] (obj : Obj) (keyClashFail room : Bool) :
    PutOutcome ops tb obj keyClashFail room (dbPutHash ops tb obj keyClashFail room) := by
  obtain ⟨passed, rest, cut, chain, before, head⟩ :=
    span_not (ofKey ops (ops.getKey obj)) (keyChain ops tb (ops.getKey obj))
  unfold dbPutHash
  dsimp only
  rw [show tb.bucket (hashToIx tb (makeHash ops (ops.getKey obj))) =
    keyChain ops tb (ops.getKey obj) from rfl, cut]
  cases rest with
  | nil =>
    rw [append_nil] at chain
    rw [← chain] at before ⊢
    exact .absent before
  | cons b bnext =>
    have here := head b bnext rfl
    obtain ⟨group, behind, grouped, whole, inside, after⟩ :=
      span_all (ofKey ops (ops.getKey obj)) (b :: bnext)
    have split : KeySplit ops tb (ops.getKey obj) passed group behind :=
      ⟨by rw [chain, whole, append_assoc], before, inside, after⟩
    have member : ∀ q ∈ group, q ∈ keyChain ops tb (ops.getKey obj) := by
      intro q listed
      rw [split.chain]
      simp [listed]
    have pushed (type : tb.type ≠ .set)
        (allowed : (keyClashFail = true ∧ ∀ b ∈ group, b.isLive = false) ∨
          keyClashFail = false ∧ (tb.type = .bag → ∀ b ∈ group, b.dbterm ≠ obj)) :
        PutOutcome ops tb obj keyClashFail room (linkNew tb (keySlot ops tb (ops.getKey obj))
          (makeHash ops (ops.getKey obj)) obj passed (b :: bnext) room, .none) := by
      have nonempty : group ≠ [] := by
        rintro rfl
        rw [after b bnext whole.symm] at here
        cases here
      rw [whole]
      exact .push type passed group behind split nonempty allowed
    dsimp only
    rw [grouped]
    -- the branches for `bag` and `duplicate_bag` differ only without `key_clash_fail`
    have clashing (type : tb.type ≠ .set) (clashes : keyClashFail = true) :
        PutOutcome ops tb obj keyClashFail room (if group.any HashDbTerm.isLive then (tb, .badKey)
          else (linkNew tb (keySlot ops tb (ops.getKey obj)) (makeHash ops (ops.getKey obj)) obj
            passed (b :: bnext) room, .none)) := by
      split
      case isTrue some =>
        obtain ⟨q, listed, live⟩ := any_eq_true.mp some
        exact .clash clashes q (member q listed) (inside q listed) live
      case isFalse none =>
        refine pushed type (.inl ⟨clashes, fun q listed => ?_⟩)
        rw [any_eq_true, not_exists] at none
        simpa [listed] using none q
    cases type : tb.type with
    | set =>
      have replaced := @PutOutcome.replace _ _ _ ops tb obj keyClashFail room type passed bnext b
        chain before here
      dsimp only
      split
      case isTrue dead =>
        have invalid := (isLive_eq_false b).mpr dead
        have revived := replaced (by simp [invalid])
        rw [invalid] at revived
        exact revived
      case isFalse valid =>
        have live := (isLive_iff b).mpr valid
        split
        case isTrue clashes =>
          refine .clash clashes b ?_ here live
          rw [chain]
          simp
        case isFalse free =>
          have overwritten := replaced fun _ => by simpa using free
          rw [live] at overwritten
          exact overwritten
    | bag =>
      have bag : tb.type ≠ .set := by simp [type]
      dsimp only
      split
      case isTrue clashes => exact clashing bag clashes
      case isFalse free =>
        have free : keyClashFail = false := by simpa using free
        obtain ⟨newer, found, search, parts, first, same⟩ :=
          span_not (fun q => decide (q.dbterm = obj)) group
        have search : group.span (fun q => decide (q.dbterm ≠ obj)) = (newer, found) := by
          simpa using search
        rw [if_pos rfl, search]
        cases found with
        | nil =>
          refine pushed bag (.inr ⟨free, fun _ q listed => ?_⟩)
          rw [parts, append_nil] at listed
          simpa using first q listed
        | cons q older =>
          have equal : q.dbterm = obj := by simpa using same q older rfl
          rw [parts] at split
          dsimp only
          split_ifs with dead
          · have revived : ({ q with hvalue := makeHash ops (ops.getKey obj) } : HashDbTerm Obj) =
                nodeOf ops obj := by rw [nodeOf, equal]
            have outcome :=
              @PutOutcome.revive _ _ _ ops tb obj keyClashFail room type free passed newer
              older behind q split (fun b listed => by simpa using first b listed) equal
              ((isLive_eq_false q).mpr dead)
            rw [revived]
            simp only [append_assoc] at outcome ⊢
            exact outcome
          · have listed : q ∈ group := by simp [parts]
            exact .present type free q (member q listed) (inside q listed)
              ((isLive_iff q).mpr dead) equal
    | duplicateBag =>
      have bag : tb.type ≠ .set := by simp [type]
      dsimp only
      split
      case isTrue clashes => exact clashing bag clashes
      case isFalse free => exact pushed bag (.inr ⟨by simpa using free, by simp [type]⟩)

/-- The outcomes of `db_take_hash`. -/
inductive TakeOutcome (key : Key) : DbTableHash Obj × List Obj → Prop where
  | absent (free : ∀ b ∈ keyChain ops tb key, liveOf ops key b = false) : TakeOutcome key (tb, [])
  /-- The nodes from the first live one on are taken. -/
  | taken (passed more bend : List (HashDbTerm Obj)) (b : HashDbTerm Obj)
      (chain : keyChain ops tb key = passed ++ (b :: more) ++ bend)
      (before : ∀ q ∈ passed, liveOf ops key q = false) (here : liveOf ops key b = true)
      (inside : ∀ q ∈ more, ofKey ops key q = true)
      (stop : tb.type = .set ∧ more = [] ∨
        tb.type ≠ .set ∧ ∀ q rest, bend = q :: rest → ofKey ops key q = false) :
      TakeOutcome key (finishDeletion tb (keySlot ops tb key)
          { takeLoop tb.ref (keySlot ops tb key) (b :: more) 0 tb.fixdel with
            chain := passed ++ (takeLoop tb.ref (keySlot ops tb key)
              (b :: more) 0 tb.fixdel).chain ++ bend },
          buildTermList (b :: more))

theorem takeOutcome (key : Key) : TakeOutcome ops tb key (dbTakeHash ops tb key) := by
  obtain ⟨passed, rest, cut, chain, before, head⟩ := span_not (liveOf ops key) (keyChain ops tb key)
  unfold dbTakeHash
  dsimp only
  rw [show tb.bucket (hashToIx tb (makeHash ops key)) = keyChain ops tb key from rfl, cut]
  cases rest with
  | nil =>
    rw [append_nil] at chain
    exact .absent (chain ▸ before)
  | cons b rest =>
    have here := head b rest rfl
    dsimp only [getTermList]
    unfold keyRange
    by_cases set : tb.type = .set
    · rw [if_pos set]
      exact .taken passed [] rest b (by rw [chain]; simp) before here (by simp) (.inl ⟨set, rfl⟩)
    · obtain ⟨more, bend, grouped, whole, inside, after⟩ := span_all (ofKey ops key) rest
      rw [if_neg set, grouped]
      refine .taken passed more bend b ?_ before here inside (.inr ⟨set, after⟩)
      rw [chain, whole]
      simp

/-- The outcomes of `db_lookup_dbterm_hash`. -/
inductive LookupOutcome (key : Key) (default : Option Obj) :
    Option (DbTableHash Obj × DbUpdateHandle Obj) → Prop where
  | missing (without : default = none) : LookupOutcome key default none
  /-- The default gets a node of its own. -/
  | fresh (obj : Obj) (given : default = some obj)
      (free : ∀ b ∈ keyChain ops tb key, ofKey ops key b = false) :
      LookupOutcome key default
        (some (setKeyChain ops tb key (keyChain ops tb key ++ [nodeOf ops (ops.setKey obj key)]),
          ⟨keySlot ops tb key, keyChain ops tb key, nodeOf ops (ops.setKey obj key), [],
            true, true⟩))
  | found (before behind : List (HashDbTerm Obj)) (b : HashDbTerm Obj)
      (chain : keyChain ops tb key = before ++ b :: behind) (here : ofKey ops key b = true)
      (live : b.isLive = true) :
      LookupOutcome key default (some (tb, ⟨keySlot ops tb key, before, b, behind, false, false⟩))
  /-- The default takes the node of a pseudo-deleted object. -/
  | revived (obj : Obj) (before behind : List (HashDbTerm Obj)) (b : HashDbTerm Obj)
      (chain : keyChain ops tb key = before ++ b :: behind) (here : ofKey ops key b = true)
      (dead : b.isLive = false) :
      LookupOutcome key default
        (some ({ setKeyChain ops tb key (before ++ nodeOf ops (ops.setKey obj key) :: behind) with
            nitems := tb.nitems + 1 },
          ⟨keySlot ops tb key, before, nodeOf ops (ops.setKey obj key), behind, true, false⟩))

theorem lookupOutcome (key : Key) (default : Option Obj) :
    LookupOutcome ops tb key default (dbLookupDbtermHash ops tb key default) := by
  obtain ⟨before, rest, cut, chain, free, head⟩ := span_not (ofKey ops key) (keyChain ops tb key)
  have node (obj : Obj) : (⟨makeHash ops key, ops.setKey obj key⟩ : HashDbTerm Obj) =
      nodeOf ops (ops.setKey obj key) := by rw [nodeOf, ops.getKey_setKey]
  unfold dbLookupDbtermHash
  dsimp only
  rw [show tb.bucket (hashToIx tb (makeHash ops key)) = keyChain ops tb key from rfl, cut]
  cases rest with
  | nil =>
    rw [append_nil] at chain
    cases default with
    | none => exact .missing rfl
    | some obj =>
      dsimp only
      rw [node, ← chain]
      exact .fresh obj rfl (chain ▸ free)
  | cons b behind =>
    have here := head b behind rfl
    dsimp only
    split
    case isTrue valid => exact .found before behind b chain here ((isLive_iff b).mpr valid)
    case isFalse dead =>
      have dead := (isLive_eq_false b).mpr (not_not.mp dead)
      cases default with
      | none => exact .missing rfl
      | some obj =>
        dsimp only
        rw [node]
        exact .revived obj before behind b chain here dead

end Otp.Ets
