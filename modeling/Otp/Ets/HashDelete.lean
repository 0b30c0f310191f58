import Otp.Ets.HashChain
import Otp.Ets.HashUpdate

/-! What the deleting loops leave of a bucket. -/

namespace Otp.Ets

open List
open Otp.Library

variable {Key Obj : Type}

def liveCount (chain : List (HashDbTerm Obj)) : Nat := chain.countP HashDbTerm.isLive

@[simp] theorem liveCount_nil : liveCount ([] : List (HashDbTerm Obj)) = 0 := rfl

@[simp] theorem liveCount_cons (b : HashDbTerm Obj) (rest : List (HashDbTerm Obj)) :
    liveCount (b :: rest) = (if b.isLive then 1 else 0) + liveCount rest := by
  simp [liveCount, countP_cons, Nat.add_comm]

@[simp] theorem liveCount_append (first second : List (HashDbTerm Obj)) :
    liveCount (first ++ second) = liveCount first + liveCount second := countP_append

theorem liveCount_pseudoDelete (b : HashDbTerm Obj) (rest : List (HashDbTerm Obj)) :
    liveCount (b.pseudoDelete :: rest) = liveCount rest := by
  simp

theorem liveCount_live {b : HashDbTerm Obj} (live : b.isLive = true)
    (rest : List (HashDbTerm Obj)) : liveCount (b :: rest) = liveCount rest + 1 := by
  simp [live, Nat.add_comm]

/-- A loop over a bucket that deletes: it marks nodes only once the slot is in
`fixdel`, and `fixdel` grows only while the table is fixed. -/
structure Deletes (nfixed ix : Nat) (chain : List (HashDbTerm Obj)) (fixdel : List Nat)
    (chain' : List (HashDbTerm Obj)) (fixdel' : List Nat) : Prop where
  thins : Thins (ix ∈ fixdel') chain chain'
  grows : fixdel ⊆ fixdel'
  idle : nfixed = 0 → fixdel' = fixdel

namespace Deletes

variable {nfixed ix : Nat} {chain chain' : List (HashDbTerm Obj)} {fixdel fixdel' : List Nat}

theorem refl (nfixed ix : Nat) (chain : List (HashDbTerm Obj)) (fixdel : List Nat) :
    Deletes nfixed ix chain fixdel chain fixdel :=
  ⟨.refl _ chain, List.Subset.refl _, fun _ => rfl⟩

theorem keep (b : HashDbTerm Obj) (rest : Deletes nfixed ix chain fixdel chain' fixdel') :
    Deletes nfixed ix (b :: chain) fixdel (b :: chain') fixdel' :=
  ⟨.keep b rest.thins, rest.grows, rest.idle⟩

theorem free (b : HashDbTerm Obj) (rest : Deletes nfixed ix chain fixdel chain' fixdel') :
    Deletes nfixed ix (b :: chain) fixdel chain' fixdel' :=
  ⟨.free b rest.thins, rest.grows, rest.idle⟩

theorem mark (b : HashDbTerm Obj) (fixed : nfixed ≠ 0) (registered : ix ∈ between)
    (more : fixdel ⊆ between) (rest : Deletes nfixed ix chain between chain' fixdel') :
    Deletes nfixed ix (b :: chain) fixdel (b.pseudoDelete :: chain') fixdel' :=
  ⟨.mark (rest.grows registered) b rest.thins, fun _ member => rest.grows (more member),
    fun zero => absurd zero fixed⟩

theorem around (passed behind : List (HashDbTerm Obj))
    (inner : Deletes nfixed ix chain fixdel chain' fixdel') :
    Deletes nfixed ix (passed ++ chain ++ behind) fixdel (passed ++ chain' ++ behind) fixdel' :=
  ⟨((Thins.refl _ passed).append inner.thins).append (.refl _ behind), inner.grows, inner.idle⟩

end Deletes

/-- A slot is registered only while the table is fixed by others. -/
theorem addFixedDeletion_some
    (added : addFixedDeletion nfixed ix fixatedByMe fixdel = some fixdel') :
    fixatedByMe < nfixed ∧ fixdel' = ix :: fixdel := by
  unfold addFixedDeletion at added
  split at added
  · cases added
  case isFalse more => exact ⟨Nat.lt_of_not_le more, (Option.some.inj added).symm⟩

/-- The test that `db_erase_hash` and its siblings make before they free a node. -/
theorem register_cases (first : Prop) [Decidable first] (nfixed ix : Nat) (fixdel : List Nat) :
    (if first then addFixedDeletion nfixed ix 0 fixdel else none) = none ∨ nfixed ≠ 0 ∧ first ∧
        (if first then addFixedDeletion nfixed ix 0 fixdel else none) = some (ix :: fixdel) := by
  by_cases first : first
  · cases nfixed with
    | zero => exact .inl (by simp [addFixedDeletion])
    | succ nfixed => exact .inr ⟨Nat.succ_ne_zero _, first, by simp [first, addFixedDeletion]⟩
  · exact .inl (if_neg first)

theorem Deletes.register (b : HashDbTerm Obj) (fixed : nfixed ≠ 0)
    (rest : Deletes nfixed ix chain (ix :: fixdel) chain' fixdel') :
    Deletes nfixed ix (b :: chain) fixdel (b.pseudoDelete :: chain') fixdel' :=
  rest.mark b fixed mem_cons_self (subset_cons_self ..)

/-- `take` counts all nodes, and leaves no live one. -/
theorem takeLoop_deletes (nfixed ix : Nat) (nodes : List (HashDbTerm Obj)) (nitemsDiff : Int)
    (fixdel : List Nat) :
    Deletes nfixed ix nodes fixdel (takeLoop nfixed ix nodes nitemsDiff fixdel).chain
      (takeLoop nfixed ix nodes nitemsDiff fixdel).fixdel ∧
    (takeLoop nfixed ix nodes nitemsDiff fixdel).nitemsDiff = nitemsDiff - nodes.length ∧
    liveCount (takeLoop nfixed ix nodes nitemsDiff fixdel).chain = 0 := by
  induction nodes generalizing nitemsDiff fixdel with
  | nil => exact ⟨.refl .., by simp [takeLoop]⟩
  | cons b rest ih =>
    rw [takeLoop, length_cons]
    rcases register_cases (nitemsDiff - 1 = -1) nfixed ix fixdel with none | ⟨fixed, _, some⟩
    · obtain ⟨deletes, diff, dead⟩ := ih (nitemsDiff - 1) fixdel
      rw [none]
      exact ⟨.free b deletes, by dsimp only; omega, dead⟩
    · obtain ⟨deletes, diff, dead⟩ := ih (nitemsDiff - 1) (ix :: fixdel)
      rw [some]
      exact ⟨.register b fixed deletes, by simp only [Deletion.keep]; omega,
        (liveCount_pseudoDelete ..).trans dead⟩

/-- A loop that deletes live nodes and counts them. -/
structure Erases (nfixed ix : Nat) (chain : List (HashDbTerm Obj)) (fixdel : List Nat)
    (nitemsDiff : Int) (deletion : Deletion Obj) : Prop where
  deletes : Deletes nfixed ix chain fixdel deletion.chain deletion.fixdel
  count : deletion.nitemsDiff - nitemsDiff = liveCount deletion.chain - liveCount chain

namespace Erases

variable {nfixed ix : Nat} {chain : List (HashDbTerm Obj)} {fixdel : List Nat} {nitemsDiff : Int}
  {deletion : Deletion Obj}

theorem stop : Erases nfixed ix chain fixdel nitemsDiff ⟨chain, nitemsDiff, fixdel⟩ :=
  ⟨.refl .., by simp⟩

theorem keep (b : HashDbTerm Obj) (rest : Erases nfixed ix chain fixdel nitemsDiff deletion) :
    Erases nfixed ix (b :: chain) fixdel nitemsDiff (deletion.keep b) := by
  have count := rest.count
  refine ⟨.keep b rest.deletes, ?_⟩
  simp only [Deletion.keep, liveCount_cons]
  omega

theorem free (live : b.isLive = true)
    (rest : Erases nfixed ix chain fixdel (nitemsDiff - 1) deletion) :
    Erases nfixed ix (b :: chain) fixdel nitemsDiff deletion := by
  have count := rest.count
  refine ⟨.free b rest.deletes, ?_⟩
  rw [liveCount_live live]
  omega

theorem register (live : b.isLive = true) (fixed : nfixed ≠ 0)
    (rest : Erases nfixed ix chain (ix :: fixdel) (nitemsDiff - 1) deletion) :
    Erases nfixed ix (b :: chain) fixdel nitemsDiff (deletion.keep b.pseudoDelete) := by
  have count := rest.count
  refine ⟨.register b fixed rest.deletes, ?_⟩
  simp only [Deletion.keep, liveCount_pseudoDelete, liveCount_live live]
  omega

end Erases

section

variable [DecidableEq Key] (ops : HashOps Key Obj)

theorem eraseLoop_erases (nfixed ix : Nat) (key : Key) (chain : List (HashDbTerm Obj))
    (nitemsDiff : Int) (fixdel : List Nat) :
    Erases nfixed ix chain fixdel nitemsDiff
      (eraseLoop ops nfixed ix key (makeHash ops key) chain nitemsDiff fixdel) := by
  induction chain generalizing nitemsDiff fixdel with
  | nil => exact .stop
  | cons b rest ih =>
    rw [eraseLoop]
    split
    case isTrue here =>
      have live := hasLiveKey_live ops (makeHash_valid ops key) here
      rcases register_cases (nitemsDiff - 1 = -1) nfixed ix fixdel with none | ⟨fixed, _, some⟩
      · rw [none]
        exact .free live (ih ..)
      · rw [some]
        exact .register live fixed (ih ..)
    case isFalse =>
      split
      · exact .stop
      · exact .keep b (ih ..)

theorem eraseObjectLoop_erases [DecidableEq Obj] (type : HashType) (nfixed ix : Nat) (object : Obj)
    (key : Key) (chain : List (HashDbTerm Obj)) (nkeys : Nat) (nitemsDiff : Int)
    (fixdel : List Nat) :
    Erases nfixed ix chain fixdel nitemsDiff
      (eraseObjectLoop ops type nfixed ix object key
        (makeHash ops key) chain nkeys nitemsDiff fixdel) := by
  induction chain generalizing nkeys nitemsDiff fixdel with
  | nil => exact .stop
  | cons b rest ih =>
    rw [eraseObjectLoop]
    split
    case isTrue here =>
      have live := hasLiveKey_live ops (makeHash_valid ops key) here
      split
      · rcases register_cases (nkeys + 1 = 1) nfixed ix fixdel with none | ⟨fixed, _, some⟩
        · rw [none]
          dsimp only
          split
          · exact .free live (ih ..)
          · exact .free live .stop
        · rw [some]
          dsimp only
          split
          · exact .register live fixed (ih ..)
          · exact .register live fixed .stop
      · exact .keep b (ih ..)
    case isFalse =>
      split
      · exact .stop
      · exact .keep b (ih ..)

end

/-- What `last_pseudo_delete` remembers is in `fixdel`. -/
def Scan.Registers (scan : Scan) : Prop := ∀ ix, scan.lastPseudoDelete = some ix → ix ∈ scan.fixdel

theorem pseudoDeleteIn_some (kept : pseudoDeleteIn nfixed fixatedByMe slotIx scan = some scan') :
    nfixed ≠ 0 ∧ scan'.got = scan.got ∧
      (scan.Registers → slotIx ∈ scan'.fixdel ∧ scan.fixdel ⊆ scan'.fixdel ∧ scan'.Registers) := by
  unfold pseudoDeleteIn at kept
  split at kept
  case isFalse => cases kept
  case isTrue more =>
    refine ⟨Nat.ne_of_gt (Nat.zero_lt_of_lt more), ?_⟩
    split at kept
    · obtain ⟨fixdel, added, rfl⟩ := Option.map_eq_some_iff.mp kept
      obtain ⟨_, rfl⟩ := addFixedDeletion_some added
      refine ⟨rfl, fun _ => ⟨mem_cons_self, subset_cons_self .., ?_⟩⟩
      rintro ix same
      cases same
      exact mem_cons_self
    case isFalse same =>
      cases kept
      exact ⟨rfl, fun registers => ⟨registers slotIx (not_not.mp same),
        List.Subset.refl _, registers⟩⟩

theorem deleteChain_deletes (accept : Obj → Bool) (nfixed fixatedByMe slotIx : Nat)
    (chain : List (HashDbTerm Obj)) (scan : Scan) :
    ((deleteChain accept nfixed fixatedByMe slotIx chain scan).2.got : Int) - scan.got =
      liveCount chain - liveCount (deleteChain accept nfixed fixatedByMe slotIx chain scan).1 ∧
    (scan.Registers → Deletes nfixed slotIx chain scan.fixdel
        (deleteChain accept nfixed fixatedByMe slotIx chain scan).1
        (deleteChain accept nfixed fixatedByMe slotIx chain scan).2.fixdel ∧
      (deleteChain accept nfixed fixatedByMe slotIx chain scan).2.Registers) := by
  induction chain generalizing scan with
  | nil => exact ⟨by simp [deleteChain], fun registers => ⟨.refl .., registers⟩⟩
  | cons b rest ih =>
    rw [deleteChain]
    split
    · obtain ⟨count, deletes⟩ := ih scan
      refine ⟨?_, fun registers => (deletes registers).imp_left (.keep b)⟩
      simp only [liveCount_cons]
      omega
    case isFalse valid =>
      have live := (isLive_iff b).mpr valid
      split
      · cases kept : pseudoDeleteIn nfixed fixatedByMe slotIx scan with
        | none =>
          obtain ⟨count, deletes⟩ :=
            ih { scan with got := scan.got + 1, numLeft := scan.numLeft - 1 }
          refine ⟨?_, fun registers => (deletes registers).imp_left (.free b)⟩
          simp only [liveCount_live live] at count ⊢
          omega
        | some scan' =>
          obtain ⟨fixed, same, registered⟩ := pseudoDeleteIn_some kept
          obtain ⟨count, deletes⟩ :=
            ih { scan' with got := scan'.got + 1, numLeft := scan'.numLeft - 1 }
          constructor
          · simp only [liveCount_live live, liveCount_pseudoDelete] at count ⊢
            omega
          · intro registers
            obtain ⟨listed, grows, still⟩ := registered registers
            exact (deletes still).imp_left (.mark b fixed listed grows)
      · obtain ⟨count, deletes⟩ := ih { scan with numLeft := scan.numLeft - 1 }
        refine ⟨?_, fun registers => (deletes registers).imp_left (.keep b)⟩
        simp only [liveCount_cons] at count ⊢
        omega

section

variable [DecidableEq Key] (ops : HashOps Key Obj)

/-- Nodes without a live object of the key stay as they are. -/
theorem eraseLoop_passed (outside : ∀ b ∈ passed, liveOf ops key b = false) :
    (eraseLoop ops nfixed ix key (makeHash ops key) (passed ++ rest) 0 fixdel).chain =
      passed ++ (eraseLoop ops nfixed ix key (makeHash ops key) rest 0 fixdel).chain := by
  induction passed with
  | nil => rfl
  | cons b passed ih =>
    obtain ⟨here, later⟩ := forall_mem_cons.mp outside
    have test : hasLiveKey ops b key (makeHash ops key) = false := here
    simp only [cons_append, eraseLoop, test, Bool.false_eq_true, if_false, ne_eq,
      not_true_eq_false, false_and, Deletion.keep, ih later]

theorem eraseLoop_behind (nfixed ix : Nat) (key : Key)
    (outside : ∀ b ∈ behind, liveOf ops key b = false) (nitemsDiff : Int) (fixdel : List Nat) :
    (eraseLoop ops nfixed ix key (makeHash ops key) behind nitemsDiff fixdel).chain = behind := by
  induction behind with
  | nil => rfl
  | cons b behind ih =>
    obtain ⟨here, later⟩ := forall_mem_cons.mp outside
    have test : hasLiveKey ops b key (makeHash ops key) = false := here
    simp only [eraseLoop, test, Bool.false_eq_true, if_false]
    split
    · rfl
    · rw [Deletion.keep, ih later]

/-- Among the nodes of a key the live ones are found. -/
theorem hasLiveKey_inside (here : nodeKey ops b = key)
    (hash : b.isLive = true → b.hvalue = makeHash ops key) :
    hasLiveKey ops b key (makeHash ops key) = b.isLive := by
  cases live : b.isLive with
  | true => simp [hasLiveKey, hash live, here]
  | false => simp [hasLiveKey, (isLive_eq_false b).mp live, (makeHash_valid ops key).symm]

/-- What is left of a key: pseudo-deleted nodes, and at least one if `remains`. -/
structure Erased (remains : Prop) (key : Key) (group group' : List (HashDbTerm Obj)) : Prop where
  keys : ∀ b ∈ group', nodeKey ops b = key
  dead : ∀ b ∈ group', b.isLive = false
  kept : remains → group ≠ [] → group' ≠ []

theorem eraseLoop_inside (nfixed ix : Nat) (inside : ∀ b ∈ group, nodeKey ops b = key)
    (hashed : ∀ b ∈ group, b.isLive = true → b.hvalue = makeHash ops key)
    (outside : ∀ b ∈ behind, liveOf ops key b = false) (nitemsDiff : Int) (fixdel : List Nat) :
    ∃ group', (eraseLoop ops nfixed ix key (makeHash ops key) (group ++ behind) nitemsDiff
        fixdel).chain = group' ++ behind ∧
      Erased ops (nfixed ≠ 0 ∧ nitemsDiff = 0) key group group' := by
  induction group generalizing nitemsDiff fixdel with
  | nil =>
    exact ⟨[], eraseLoop_behind ops nfixed ix key outside nitemsDiff fixdel, by simp, by simp,
      fun _ absurd => absurd⟩
  | cons b group ih =>
    obtain ⟨here, later⟩ := forall_mem_cons.mp inside
    obtain ⟨hash, hashes⟩ := forall_mem_cons.mp hashed
    rw [cons_append, eraseLoop, hasLiveKey_inside ops here hash]
    cases live : b.isLive with
    | true =>
      rw [if_pos rfl]
      rcases register_cases (nitemsDiff - 1 = -1) nfixed ix fixdel with none | ⟨_, _, some⟩
      · rw [none]
        obtain ⟨group', chain, erased⟩ := ih later hashes (nitemsDiff - 1) fixdel
        refine ⟨group', chain, erased.keys, erased.dead, ?_⟩
        rintro ⟨fixed, rfl⟩ _ _
        simp [addFixedDeletion, fixed] at none
      · rw [some]
        obtain ⟨group', chain, erased⟩ := ih later hashes (nitemsDiff - 1) (ix :: fixdel)
        exact ⟨b.pseudoDelete :: group', congrArg (b.pseudoDelete :: ·) chain,
          forall_mem_cons.mpr ⟨here, erased.keys⟩,
          forall_mem_cons.mpr ⟨isLive_pseudoDelete b, erased.dead⟩, by simp⟩
    | false =>
      simp only [(isLive_eq_false b).mp live, ne_eq, not_true_eq_false, and_false]
      obtain ⟨group', chain, erased⟩ := ih later hashes nitemsDiff fixdel
      exact ⟨b :: group', congrArg (b :: ·) chain, forall_mem_cons.mpr ⟨here, erased.keys⟩,
        forall_mem_cons.mpr ⟨live, erased.dead⟩, by simp⟩

/-- A node of another key has no live object of the key. -/
theorem liveOf_other (other : nodeKey ops b ≠ key) : liveOf ops key b = false := by
  unfold liveOf hasLiveKey
  split
  · rfl
  · exact decide_eq_false fun same => other same.symm

variable {ops} {chain : List (HashDbTerm Obj)}

omit [DecidableEq Key] in
theorem Group.hashed (split : Group ops key chain passed group behind)
    (ok : ChainOk ops type chain) : ∀ b ∈ group, b.isLive = true → b.hvalue = makeHash ops key := by
  intro b member live
  rw [← split.inside b member]
  exact ok.hashed b (by rw [split.whole]; simp [member]) live

theorem eraseLoop_regroups (ok : ChainOk ops type chain) : ∃ group', Regroups ops key chain
        (eraseLoop ops nfixed ix key (makeHash ops key) chain 0 fixdel).chain
        (nodesOf ops key chain) group' ∧
      Erased ops (nfixed ≠ 0) key (nodesOf ops key chain) group' := by
  obtain ⟨passed, group, behind, split⟩ := ok.group_split
  obtain ⟨group', inner, erased⟩ := eraseLoop_inside ops nfixed ix split.inside
    (split.hashed ok) (fun b member => liveOf_other ops (split.after b member)) 0 fixdel
  rw [split.nodesOf_eq]
  refine ⟨group', ⟨passed, behind, split, ?_, erased.keys⟩, erased.keys, erased.dead,
    fun fixed => erased.kept ⟨fixed, rfl⟩⟩
  rw [split.whole, append_assoc passed group,
    eraseLoop_passed ops fun b member => liveOf_other ops (split.before b member),
    inner, append_assoc]

omit [DecidableEq Key] in
variable (ops) in
theorem takeLoop_inside (nfixed ix : Nat) (inside : ∀ b ∈ nodes, nodeKey ops b = key)
    (nitemsDiff : Int) (fixdel : List Nat) :
    Erased ops (nfixed ≠ 0 ∧ nitemsDiff = 0) key nodes
      (takeLoop nfixed ix nodes nitemsDiff fixdel).chain := by
  obtain ⟨deletes, -, dead⟩ := takeLoop_deletes nfixed ix nodes nitemsDiff fixdel
  refine ⟨fun b member => ?_, by simpa [liveCount] using dead, ?_⟩
  · obtain ⟨other, there, same⟩ :=
      mem_map.mp (deletes.thins.keys_sublist.subset (mem_map_of_mem member))
    exact same ▸ inside other there
  · rintro ⟨fixed, rfl⟩ some
    cases nodes with
    | nil => exact absurd rfl some
    | cons b rest => simp [takeLoop, addFixedDeletion, fixed, Deletion.keep]

variable [DecidableEq Obj]

section

variable (ops)

theorem eraseObjectLoop_passed (outside : ∀ b ∈ passed, liveOf ops key b = false) :
    (eraseObjectLoop ops type nfixed ix object key (makeHash ops key)
      (passed ++ rest) 0 0 fixdel).chain =
      passed ++ (eraseObjectLoop ops type nfixed ix object key
        (makeHash ops key) rest 0 0 fixdel).chain := by
  induction passed with
  | nil => rfl
  | cons b passed ih =>
    obtain ⟨here, later⟩ := forall_mem_cons.mp outside
    have test : hasLiveKey ops b key (makeHash ops key) = false := here
    simp only [cons_append, eraseObjectLoop, test, Bool.false_eq_true, if_false, ne_eq,
      not_true_eq_false, false_and, Deletion.keep, ih later]

theorem eraseObjectLoop_behind (type : HashType) (nfixed ix : Nat) (object : Obj) (key : Key)
    (outside : ∀ b ∈ behind, liveOf ops key b = false) (nkeys : Nat) (nitemsDiff : Int)
    (fixdel : List Nat) : (eraseObjectLoop ops type nfixed ix object key
      (makeHash ops key) behind nkeys nitemsDiff
      fixdel).chain = behind := by
  induction behind with
  | nil => rfl
  | cons b behind ih =>
    obtain ⟨here, later⟩ := forall_mem_cons.mp outside
    have test : hasLiveKey ops b key (makeHash ops key) = false := here
    simp only [eraseObjectLoop, test, Bool.false_eq_true, if_false]
    split
    · rfl
    · rw [Deletion.keep, ih later]

/-- The objects of a key without one: a `duplicate_bag` may have it many times. -/
def withoutObject (type : HashType) (object : Obj) (objs : List Obj) : List Obj :=
  if type = .duplicateBag then objs.filter fun obj => obj ≠ object else objs.erase object

omit [DecidableEq Key] in
theorem withoutObject_cons_ne (type : HashType) (other : obj ≠ object) (objs : List Obj) :
    withoutObject type object (obj :: objs) = obj :: withoutObject type object objs := by
  unfold withoutObject
  split
  · exact filter_cons_of_pos (decide_eq_true other)
  · exact erase_cons_tail (by simpa using other)

structure ObjectErased (remains : Prop) (type : HashType) (object : Obj) (key : Key)
    (group group' : List (HashDbTerm Obj)) : Prop where
  keys : ∀ b ∈ group', nodeKey ops b = key
  live : liveObjs group' = withoutObject type object (liveObjs group)
  kept : remains → group ≠ [] → group' ≠ []

theorem eraseObjectLoop_inside (type : HashType) (nfixed ix : Nat) (object : Obj)
    (inside : ∀ b ∈ group, nodeKey ops b = key)
    (hashed : ∀ b ∈ group, b.isLive = true → b.hvalue = makeHash ops key)
    (outside : ∀ b ∈ behind, liveOf ops key b = false) (nkeys : Nat) (nitemsDiff : Int)
    (fixdel : List Nat) :
    ∃ group', (eraseObjectLoop ops type nfixed ix object key (makeHash ops key) (group ++ behind)
        nkeys nitemsDiff fixdel).chain = group' ++ behind ∧
      ObjectErased ops (nfixed ≠ 0 ∧ nkeys = 0) type object key group group' := by
  induction group generalizing nkeys nitemsDiff fixdel with
  | nil =>
    exact ⟨[], eraseObjectLoop_behind ops type nfixed ix object key outside nkeys nitemsDiff fixdel,
      by simp, by simp [withoutObject], fun _ absurd => absurd⟩
  | cons b group ih =>
    obtain ⟨here, later⟩ := forall_mem_cons.mp inside
    obtain ⟨hash, hashes⟩ := forall_mem_cons.mp hashed
    rw [cons_append, eraseObjectLoop, hasLiveKey_inside ops here hash]
    cases live : b.isLive with
    | true =>
      rw [if_pos rfl]
      by_cases same : b.dbterm = object
      · rw [if_pos same]
        have removed : withoutObject type object (liveObjs (b :: group)) =
            if type = .duplicateBag then withoutObject type object (liveObjs group)
            else liveObjs group := by
          rw [liveObjs_cons, same]
          unfold withoutObject
          split
          · simp
          · simp
        rcases register_cases (nkeys + 1 = 1) nfixed ix fixdel with none | ⟨_, _, some⟩
        · rw [none]
          dsimp only
          have first : ¬ (nfixed ≠ 0 ∧ nkeys = 0) := by
            rintro ⟨fixed, rfl⟩
            simp [addFixedDeletion, fixed] at none
          split
          case isTrue duplicate =>
            obtain ⟨group', chain, erased⟩ := ih later hashes (nkeys + 1) (nitemsDiff - 1) fixdel
            exact ⟨group', chain, erased.keys, by rw [removed, if_pos duplicate, erased.live],
              fun still => absurd still first⟩
          case isFalse other =>
            exact ⟨group, rfl, later, by rw [removed, if_neg other],
              fun still => absurd still first⟩
        · rw [some]
          dsimp only
          split
          case isTrue duplicate =>
            obtain ⟨group', chain, erased⟩ :=
              ih later hashes (nkeys + 1) (nitemsDiff - 1) (ix :: fixdel)
            refine ⟨b.pseudoDelete :: group', congrArg (b.pseudoDelete :: ·) chain,
              forall_mem_cons.mpr ⟨here, erased.keys⟩, ?_, by simp⟩
            rw [removed, if_pos duplicate, liveObjs_cons, erased.live]
            rfl
          case isFalse other =>
            refine ⟨b.pseudoDelete :: group, rfl, forall_mem_cons.mpr ⟨here, later⟩, ?_, by simp⟩
            rw [removed, if_neg other, liveObjs_cons]
            rfl
      · rw [if_neg same]
        obtain ⟨group', chain, erased⟩ := ih later hashes (nkeys + 1) nitemsDiff fixdel
        refine ⟨b :: group', congrArg (b :: ·) chain, forall_mem_cons.mpr ⟨here, erased.keys⟩,
          ?_, by simp⟩
        rw [liveObjs_cons, liveObjs_cons, if_pos live, if_pos live, erased.live,
          withoutObject_cons_ne type same]
    | false =>
      simp only [(isLive_eq_false b).mp live, ne_eq, not_true_eq_false, and_false]
      obtain ⟨group', chain, erased⟩ := ih later hashes nkeys nitemsDiff fixdel
      refine ⟨b :: group', congrArg (b :: ·) chain, forall_mem_cons.mpr ⟨here, erased.keys⟩,
        ?_, by simp⟩
      rw [liveObjs_cons, liveObjs_cons, live, erased.live]
      rfl

end

theorem eraseObjectLoop_regroups (ok : ChainOk ops type chain) : ∃ group', Regroups ops key chain
        (eraseObjectLoop ops type nfixed ix object key (makeHash ops key) chain 0 0 fixdel).chain
        (nodesOf ops key chain) group' ∧
      ObjectErased ops (nfixed ≠ 0) type object key (nodesOf ops key chain) group' := by
  obtain ⟨passed, group, behind, split⟩ := ok.group_split
  obtain ⟨group', inner, erased⟩ := eraseObjectLoop_inside ops type nfixed ix object split.inside
    (split.hashed ok) (fun b member => liveOf_other ops (split.after b member)) 0 0 fixdel
  rw [split.nodesOf_eq]
  refine ⟨group', ⟨passed, behind, split, ?_, erased.keys⟩, erased.keys, erased.live,
    fun fixed => erased.kept ⟨fixed, rfl⟩⟩
  rw [split.whole, append_assoc passed group, eraseObjectLoop_passed ops
      fun b member => liveOf_other ops (split.before b member),
    inner, append_assoc]

end

end Otp.Ets
