import Otp.Ets.HashRefinement
import Otp.Ets.HashCount

/-! The order in which the slots are visited, and that `select_delete` deletes
what its match specification accepts, in one call or over several traps. -/

namespace Otp.Ets

open List
open Otp.Library

variable {Key Obj : Type}

/-- The slots that are not visited before `ix`. -/
def slotLe (smp : Bool) (ix slot : Nat) : Bool :=
  if smp then ix % dbHashLockCnt < slot % dbHashLockCnt ∨
    ix % dbHashLockCnt = slot % dbHashLockCnt ∧ ix ≤ slot
  else ix ≤ slot

theorem slotLe_refl : slotLe smp ix ix = true := by
  cases smp <;> simp [slotLe]

theorem slotLe_true : slotLe true ix slot = true ↔ ix % 64 < slot % 64 ∨ ix % 64 = slot % 64 ∧
    ix ≤ slot := by
  exact decide_eq_true_iff

theorem slotLe_false : slotLe false ix slot = true ↔ ix ≤ slot := by
  simp [slotLe]

theorem slotLe_zero : slotLe smp 0 slot = true := by
  cases smp with
  | false => exact slotLe_false.mpr (Nat.zero_le slot)
  | true =>
    rw [slotLe_true]
    omega

theorem nextSlot_true : nextSlot true nactive ix = if ix + 64 < nactive then
    ix + 64 else (ix + 65) % 64 := by
  have mask : (ix + 64 + 1) &&& (64 - 1) = (ix + 65) % 64 := Nat.and_two_pow_sub_one_eq_mod _ 6
  rw [← mask]
  rfl

theorem slotLe_trans (first : slotLe smp ix slot = true)
    (second : slotLe smp slot last = true) : slotLe smp ix last = true := by
  cases smp with
  | false =>
    rw [slotLe_false] at *
    exact first.trans second
  | true =>
    rw [slotLe_true] at *
    omega

theorem slotLe_antisymm (first : slotLe smp ix slot = true) (second : slotLe smp slot ix = true) :
    ix = slot := by
  cases smp with
  | false =>
    rw [slotLe_false] at *
    exact Nat.le_antisymm first second
  | true =>
    rw [slotLe_true] at *
    omega

/-- `next_slot` goes to the least of the slots that are left, or ends. -/
theorem slotLe_next (smp : Bool) (inside : ix < nactive) (active : slot < nactive) :
    (slotLe smp ix slot = true ∧ slot ≠ ix) ↔
      (nextSlot smp nactive ix ≠ 0 ∧ slotLe smp (nextSlot smp nactive ix) slot = true) := by
  cases smp with
  | false =>
    rw [slotLe_false, slotLe_false, nextSlot, if_neg Bool.false_ne_true]
    split <;> omega
  | true =>
    rw [slotLe_true, slotLe_true, nextSlot_true]
    split <;> omega

/-- The slots that a walk from `ix` has still to visit. -/
def slotsFrom (smp : Bool) (nactive ix : Nat) : Finset Nat :=
  (Finset.range nactive).filter fun slot => slotLe smp ix slot

theorem mem_slotsFrom : slot ∈ slotsFrom smp nactive ix ↔ slot < nactive ∧
    slotLe smp ix slot = true := by
  simp [slotsFrom]

theorem slotsFrom_next (smp : Bool) (inside : ix < nactive) : (slotsFrom smp nactive ix).erase ix =
      if nextSlot smp nactive ix = 0 then ∅
        else slotsFrom smp nactive (nextSlot smp nactive ix) := by
  ext slot
  rw [Finset.mem_erase, mem_slotsFrom]
  have step (active : slot < nactive) := slotLe_next smp inside active
  split
  case isTrue last =>
    simp only [Finset.notMem_empty, iff_false]
    rintro ⟨other, active, later⟩
    exact ((step active).mp ⟨later, other⟩).1 last
  case isFalse more =>
    rw [mem_slotsFrom]
    constructor
    · rintro ⟨other, active, later⟩
      exact ⟨active, ((step active).mp ⟨later, other⟩).2⟩
    · rintro ⟨active, later⟩
      obtain ⟨after, other⟩ := (step active).mpr ⟨more, later⟩
      exact ⟨other, active, after⟩

theorem slotsFrom_card (inside : ix < nactive) (more : nextSlot smp nactive ix ≠ 0) :
    (slotsFrom smp nactive (nextSlot smp nactive ix)).card + 1 =
      (slotsFrom smp nactive ix).card := by
  have step := slotsFrom_next smp inside
  rw [if_neg more] at step
  rw [← step]
  exact Finset.card_erase_add_one (mem_slotsFrom.mpr ⟨inside, slotLe_refl⟩)

/-- A walk visits the slots that are left, each once. -/
theorem slotWalk_spec (large : segsz ≤ nactive) (inside : ix < nactive)
    (enough : (slotsFrom smp nactive ix).card ≤ turns) :
    (slotWalk smp nactive turns ix).Nodup ∧
      (slotWalk smp nactive turns ix).toFinset = slotsFrom smp nactive ix := by
  have here : ix ∈ slotsFrom smp nactive ix := mem_slotsFrom.mpr ⟨inside, slotLe_refl⟩
  induction turns generalizing ix with
  | zero => exact absurd (Finset.card_pos.mpr ⟨ix, here⟩) (by omega)
  | succ turns ih =>
    have step := slotsFrom_next smp inside
    rw [slotWalk]
    by_cases last : nextSlot smp nactive ix = 0
    · rw [if_pos last] at step ⊢
      rw [← Finset.insert_erase here, step]
      simp
    · have fewer := slotsFrom_card inside last
      have next := nextSlot_lt smp large ix
      obtain ⟨nodup, same⟩ := ih next (by omega) (mem_slotsFrom.mpr ⟨next, slotLe_refl⟩)
      rw [if_neg last] at step ⊢
      refine ⟨nodup_cons.mpr ⟨fun again => ?_, nodup⟩, ?_⟩
      · rw [← mem_toFinset, same, ← step] at again
        exact (Finset.mem_erase.mp again).1 rfl
      · rw [toFinset_cons, same, ← step, Finset.insert_erase here]

theorem slotsFrom_card_le : (slotsFrom smp nactive ix).card ≤ nactive :=
  (Finset.card_filter_le _ _).trans (Finset.card_range nactive).le

theorem mem_slotWalk (large : segsz ≤ nactive) (inside : ix < nactive) :
    slot ∈ slotWalk smp nactive nactive ix ↔ slot < nactive ∧ slotLe smp ix slot = true := by
  rw [← mem_toFinset, (slotWalk_spec large inside slotsFrom_card_le).2, mem_slotsFrom]

/-- What is left of a walk is the walk from the next slot. -/
theorem slotWalk_split (walk : slotWalk smp nactive turns ix = done ++ rest)
    (next : rest.head? = some nextIx) : ∃ turns', rest = slotWalk smp nactive turns' nextIx := by
  induction done generalizing turns ix with
  | nil =>
    cases turns with
    | zero =>
      rw [nil_append] at walk
      simp [← walk, slotWalk] at next
    | succ turns =>
      rw [nil_append] at walk
      rw [← walk, slotWalk, head?_cons, Option.some.injEq] at next
      exact ⟨turns + 1, by rw [← walk, next]⟩
  | cons slot done ih =>
    cases turns with
    | zero => cases walk
    | succ turns =>
      rw [slotWalk, cons_append, cons.injEq] at walk
      obtain ⟨_, walk⟩ := walk
      split at walk
      · obtain ⟨_, rfl⟩ := append_eq_nil_iff.mp walk.symm
        cases next
      · exact ih walk

theorem slotWalk_le (large : segsz ≤ nactive) (inside : ix < nactive)
    (member : slot ∈ slotWalk smp nactive turns ix) : slotLe smp ix slot = true := by
  induction turns generalizing ix with
  | zero => cases member
  | succ turns ih =>
    rcases mem_cons.mp member with rfl | later
    · exact slotLe_refl
    · split at later
      · cases later
      case isFalse more =>
        have next := nextSlot_lt smp large ix
        have active := slotWalk_lt smp large turns next slot later
        exact ((slotLe_next smp inside active).mpr ⟨more, ih next later⟩).1

/-- A walk that stops at a slot has visited all slots before it, at least one. -/
theorem slotWalk_stop (large : segsz ≤ nactive) (inside : ix < nactive)
    (walk : slotWalk smp nactive nactive ix = done ++ rest) (visited : done ≠ [])
    (next : rest.head? = some nextIx) :
    nextIx < nactive ∧ (slotsFrom smp nactive nextIx).card < (slotsFrom smp nactive ix).card ∧
      ∀ slot < nactive, slotLe smp ix slot = true → slot ∈ done ∨
      slotLe smp nextIx slot = true := by
  obtain ⟨nodup, same⟩ := slotWalk_spec large inside slotsFrom_card_le
  obtain ⟨turns, suffix⟩ := slotWalk_split walk next
  have member : nextIx ∈ rest := mem_of_head? next
  obtain ⟨active, after⟩ := (mem_slotWalk large inside).mp (walk ▸ mem_append_right done member)
  refine ⟨active, Finset.card_lt_card ?_, ?_⟩
  · rw [Finset.ssubset_iff_of_subset]
    · refine ⟨ix, mem_slotsFrom.mpr ⟨inside, slotLe_refl⟩, fun back => ?_⟩
      -- the walk would come back to where it began
      have equal := slotLe_antisymm after (mem_slotsFrom.mp back).2
      obtain ⟨first, tail, rfl⟩ := exists_cons_of_ne_nil visited
      obtain ⟨turns', count⟩ : ∃ turns', nactive = turns' + 1 := ⟨nactive - 1, by omega⟩
      have start : first = ix := by
        rw [count, slotWalk, cons_append, cons.injEq] at walk
        exact walk.1.symm
      rw [walk, cons_append, nodup_cons] at nodup
      exact nodup.1 (start.symm ▸ equal.symm ▸ mem_append_right _ member)
    · intro slot inner
      obtain ⟨active, later⟩ := mem_slotsFrom.mp inner
      exact mem_slotsFrom.mpr ⟨active, slotLe_trans after later⟩
  · intro slot inner later
    have found := (mem_slotWalk large inside).mpr ⟨inner, later⟩
    rw [walk] at found
    refine (mem_append.mp found).imp_right fun late => ?_
    rw [suffix] at late
    exact slotWalk_le large active late

section

variable {ops : HashOps Key Obj} {tb : DbTableHash Obj} {store : Store Key Obj}

/-- The store after some slots were searched. -/
def afterSlots (ops : HashOps Key Obj) (tb : DbTableHash Obj) (accept : Obj → Bool)
    (slots : List Nat) (store : Store Key Obj) : Store Key Obj :=
  fun key => if keySlot ops tb key ∈ slots then store.selectDelete accept key else store key

/-- The parts of a table that a search leaves alone. -/
structure SameShape (tb tb' : DbTableHash Obj) : Prop where
  type : tb'.type = tb.type
  access : tb'.access = tb.access
  fineLocked : tb'.fineLocked = tb.fineLocked
  owner : tb'.owner = tb.owner
  szm : tb'.szm = tb.szm
  nactive : tb'.nactive = tb.nactive

theorem SameShape.refl (tb : DbTableHash Obj) : SameShape tb tb := ⟨rfl, rfl, rfl, rfl, rfl, rfl⟩

theorem SameShape.trans (first : SameShape tb tb') (second : SameShape tb' tb'') :
    SameShape tb tb'' :=
  ⟨second.type.trans first.type, second.access.trans first.access,
    second.fineLocked.trans first.fineLocked, second.owner.trans first.owner,
    second.szm.trans first.szm, second.nactive.trans first.nactive⟩

theorem SameShape.keySlot_eq (shape : SameShape tb tb') (ops : HashOps Key Obj) (key : Key) :
    keySlot ops tb' key = keySlot ops tb key := by
  unfold keySlot hashToIx
  rw [shape.szm, shape.nactive]

theorem SameShape.afterSlots_eq (shape : SameShape tb tb') :
    afterSlots ops tb' accept slots store = afterSlots ops tb accept slots store := by
  funext key
  simp only [afterSlots, shape.keySlot_eq]

theorem afterSlots_nil : afterSlots ops tb accept [] store = store := by
  funext key
  simp [afterSlots]

/-- Searching a slot again changes nothing. -/
theorem afterSlots_append : afterSlots ops tb accept second (afterSlots ops tb accept first store) =
      afterSlots ops tb accept (first ++ second) store := by
  funext key
  simp only [afterSlots, Store.selectDelete]
  by_cases early : keySlot ops tb key ∈ first
  · by_cases late : keySlot ops tb key ∈ second
    · simp [early]
    · simp [late]
  · by_cases late : keySlot ops tb key ∈ second
    · simp [early]
    · simp [late]

theorem selectDelete_none (none : ∀ obj ∈ store key, accept obj = false) :
    store.selectDelete accept key = store key :=
  filter_eq_self.mpr fun obj member => by simp [none obj member]

theorem afterSlots_all (all : ∀ key, keySlot ops tb key ∈ slots) :
    afterSlots ops tb accept slots store = store.selectDelete accept := by
  funext key
  rw [afterSlots, if_pos (all key)]

theorem HashOk.least (ok : HashOk ops tb) : segsz ≤ tb.nactive := by
  obtain ⟨_, sizedAt⟩ := ok.size
  exact sizedAt.least

theorem sameShape_localUnfixTable : SameShape tb (localUnfixTable tb) := by
  unfold localUnfixTable dbUnfixTableHash
  dsimp only
  split
  · split
    · exact ⟨rfl, rfl, rfl, rfl, rfl, rfl⟩
    · rw [foldl_purgeSlot]
      exact ⟨rfl, rfl, rfl, rfl, rfl, rfl⟩
  · exact ⟨rfl, rfl, rfl, rfl, rfl, rfl⟩

variable [DecidableEq Key]

/-- What is left of a key in a bucket that was searched. -/
theorem deleteChain_held (ops : HashOps Key Obj) (accept : Obj → Bool)
    (nfixed fixatedByMe slotIx : Nat) (key : Key) (chain : List (HashDbTerm Obj)) (scan : Scan) :
    held ops key (deleteChain accept nfixed fixatedByMe slotIx chain scan).1 =
      (held ops key chain).filter fun obj => !accept obj := by
  induction chain generalizing scan with
  | nil => rfl
  | cons b rest ih =>
    have step (nodes : List (HashDbTerm Obj)) : held ops key (b :: nodes) =
        if nodeKey ops b = key ∧ b.isLive = true then b.dbterm :: held ops key nodes
        else held ops key nodes := by
      rw [held, nodesOf_cons]
      by_cases own : nodeKey ops b = key
      · simp [own, liveObjs_cons]
      · simp [own]
    have marked (nodes : List (HashDbTerm Obj)) :
        held ops key (b.pseudoDelete :: nodes) = held ops key nodes := by
      rw [held, nodesOf_cons]
      split
      · rfl
      · rfl
    rw [deleteChain]
    by_cases invalid : b.hvalue = invalidHash
    · have dead : b.isLive = false := (isLive_eq_false b).mpr invalid
      rw [if_pos invalid]
      rw [step, step, ih, dead]
      simp
    rw [if_neg invalid]
    by_cases accepted : accept b.dbterm = true
    · rw [if_pos accepted]
      have gone : (held ops key (b :: rest)).filter (fun obj => !accept obj) =
          (held ops key rest).filter fun obj => !accept obj := by
        rw [step]
        split
        · simp [accepted]
        · rfl
      rw [gone]
      cases pseudoDeleteIn nfixed fixatedByMe slotIx scan with
      | none => exact ih _
      | some scan' => rw [marked, ih]
    · rw [if_neg accepted]
      rw [step, step, ih]
      split
      · simp [accepted]
      · rfl

/-- The table and the counters of a running `select_delete` fit each other. -/
structure Searching (ops : HashOps Key Obj) (tb : DbTableHash Obj) (scan : Scan)
    (store : Store Key Obj) : Prop where
  holds : Holds ops tb store
  fixdel : scan.fixdel = tb.fixdel
  registers : scan.Registers

theorem Searching.deleteSlot (searching : Searching ops tb scan store) (accept : Obj → Bool)
    (fixatedByMe : Nat) (active : slotIx < tb.nactive) :
    Searching ops (deleteSlot accept fixatedByMe tb scan slotIx).1
      (deleteSlot accept fixatedByMe tb scan slotIx).2
        (afterSlots ops tb accept [slotIx] store) := by
  obtain ⟨deletes, registers⟩ := (deleteChain_deletes accept tb.ref fixatedByMe slotIx
    (tb.bucket slotIx) scan).2 searching.registers
  rw [searching.fixdel] at deletes
  refine ⟨⟨searching.holds.ok.deletes active deletes _, fun key => ?_⟩, rfl, registers⟩
  refine (contents_withChain ops tb slotIx _ _ _ key).trans ?_
  simp only [afterSlots, mem_singleton]
  split
  case isTrue here =>
    rw [deleteChain_held, ← filter_reverse, Store.selectDelete, ← searching.holds.same, contents,
      keyChain, here]
  case isFalse => exact searching.holds.same key

/-- How far a search came: through the slots `done`, up to a slot where it gave up. -/
structure Searched (ops : HashOps Key Obj) (tb : DbTableHash Obj) (accept : Obj → Bool)
    (store : Store Key Obj) (slots done rest : List Nat)
    (result : DbTableHash Obj × Scan × Option Nat) : Prop where
  slots : slots = done ++ rest
  searching : Searching ops result.1 result.2.1 (afterSlots ops tb accept done store)
  shape : SameShape tb result.1
  finished : result.2.2 = none → rest = []
  trapped : ∀ slotIx, result.2.2 = some slotIx → done ≠ [] ∧ rest.head? = some slotIx

theorem Searching.deleteSlots (searching : Searching ops tb scan store) (accept : Obj → Bool)
    (fixatedByMe : Nat) (trapping : Bool) (slots : List Nat)
    (inside : ∀ slot ∈ slots, slot < tb.nactive) :
    ∃ done rest, Searched ops tb accept store slots done rest
      (deleteSlots accept fixatedByMe trapping slots tb scan) := by
  induction slots generalizing tb scan store with
  | nil =>
    refine ⟨[], [], rfl, ?_, .refl tb, fun _ => rfl, by simp [Ets.deleteSlots]⟩
    exact searching
  | cons slotIx slots ih =>
    obtain ⟨here, later⟩ := forall_mem_cons.mp inside
    have after := searching.deleteSlot accept fixatedByMe here
    have shape : SameShape tb (Ets.deleteSlot accept fixatedByMe tb scan slotIx).1 :=
      ⟨rfl, rfl, rfl, rfl, rfl, rfl⟩
    rw [Ets.deleteSlots.eq_def]
    cases slots with
    | nil => exact ⟨[slotIx], [], rfl, after, shape, fun _ => rfl, by simp⟩
    | cons nextIx slots =>
      dsimp only
      split
      · exact ⟨[slotIx], nextIx :: slots, rfl, after, shape, by simp, by simp⟩
      · obtain ⟨done, rest, searched⟩ := ih after later
        refine ⟨slotIx :: done, rest, congrArg (slotIx :: ·) searched.slots, ?_,
          shape.trans searched.shape, searched.finished, fun ix trapped => ?_⟩
        · have final := searched.searching
          rw [shape.afterSlots_eq, afterSlots_append] at final
          exact final
        · exact ⟨by simp, (searched.trapped ix trapped).2⟩

theorem deleteSlots_untrapped (accept : Obj → Bool) (fixatedByMe : Nat) (slots : List Nat)
    (tb : DbTableHash Obj) (scan : Scan) :
    (deleteSlots accept fixatedByMe false slots tb scan).2.2 = none := by
  induction slots generalizing tb scan with
  | nil => rfl
  | cons slotIx slots ih =>
    rw [deleteSlots.eq_def]
    cases slots with
    | nil => rfl
    | cons nextIx slots => simpa using ih _ _

/-- Every object that is accepted has a key that a head names, unless some head
leaves the key open. -/
def MatchSpec.Covers (ops : HashOps Key Obj) (spec : MatchSpec Key Obj) : Prop :=
  ∀ obj, spec.accept obj = true → .unbound ∈ spec.heads ∨ .bound (ops.getKey obj) ∈ spec.heads

structure Analyzed (ops : HashOps Key Obj) (smp : Bool) (tb : DbTableHash Obj)
    (heads : List (HeadKey Key)) (mpi : HashMpInfo) : Prop where
  open' : mpi.keyGiven = false → mpi.somethingCanMatch = true
  unbound : mpi.keyGiven = true → .unbound ∉ heads
  bound : mpi.keyGiven = true → ∀ key, .bound key ∈ heads → searchSlot ops smp tb key = true →
    mpi.somethingCanMatch = true ∧ keySlot ops tb key ∈ mpi.lists

theorem Analyzed.head (analyzed : Analyzed ops smp tb heads mpi) (head : HeadKey Key) :
    Analyzed ops smp tb (heads ++ [head]) (analyzeHeadHash ops smp tb mpi head) := by
  unfold analyzeHeadHash
  by_cases given : mpi.keyGiven = true
  · rw [if_neg (by simp [given])]
    cases head with
    | unbound => exact ⟨fun _ => rfl, by simp, by simp⟩
    | missing =>
      exact ⟨analyzed.open', by simpa using analyzed.unbound, by simpa using analyzed.bound⟩
    | bound key =>
      dsimp only
      split
      case isTrue found =>
        refine ⟨fun _ => rfl, by simpa using analyzed.unbound,
          fun given other member search => ⟨rfl, ?_⟩⟩
        have kept : mpi.lists ⊆ if hashToIx tb (makeHash ops key) ∈ mpi.lists then mpi.lists
            else mpi.lists ++ [hashToIx tb (makeHash ops key)] := by
          split
          · exact List.Subset.refl _
          · exact subset_append_left _ _
        rcases mem_append.mp member with old | new
        · exact kept (analyzed.bound given other old search).2
        · obtain rfl : other = key := by simpa using new
          show hashToIx tb (makeHash ops other) ∈ _
          split
          case isTrue there => exact there
          case isFalse => simp
      case isFalse absent =>
        refine ⟨analyzed.open', by simpa using analyzed.unbound,
          fun given other member search => ?_⟩
        rcases mem_append.mp member with old | new
        · exact analyzed.bound given other old search
        · obtain rfl : other = key := by simpa using new
          exact absurd search absent
  · have open' : mpi.keyGiven = false := Bool.eq_false_iff.mpr given
    rw [if_pos (by simp [open'])]
    exact ⟨analyzed.open', fun still => absurd still given, fun still => absurd still given⟩

theorem analyzePatternHash_spec (ops : HashOps Key Obj) (smp : Bool) (tb : DbTableHash Obj)
    (heads : List (HeadKey Key)) :
    Analyzed ops smp tb heads (analyzePatternHash ops smp tb heads) := by
  have run (seen : List (HeadKey Key)) (mpi : HashMpInfo)
      (analyzed : Analyzed ops smp tb seen mpi) :
      Analyzed ops smp tb (seen ++ heads) (heads.foldl (analyzeHeadHash ops smp tb) mpi) := by
    induction heads generalizing seen mpi with
    | nil => rwa [append_nil]
    | cons head heads ih =>
      have next := ih _ _ (analyzed.head head)
      rwa [append_assoc] at next
  exact run [] ⟨true, false, []⟩ ⟨by simp, by simp, by simp⟩

/-- A key with an accepted object is searched. -/
theorem Holds.accepted_searched (holds : Holds ops tb store) (smp : Bool) {spec : MatchSpec Key Obj}
    (covers : spec.Covers ops) (member : obj ∈ store key) (accepted : spec.accept obj = true)
    (given : (analyzePatternHash ops smp tb spec.heads).keyGiven = true) :
    (analyzePatternHash ops smp tb spec.heads).somethingCanMatch = true ∧
      keySlot ops tb key ∈ (analyzePatternHash ops smp tb spec.heads).lists := by
  have analyzed := analyzePatternHash_spec ops smp tb spec.heads
  rw [← holds.same, contents, mem_reverse] at member
  obtain ⟨b, node, rfl⟩ := mem_map.mp member
  obtain ⟨there, live⟩ := mem_filter.mp node
  obtain ⟨there, own⟩ := mem_filter.mp there
  have own : nodeKey ops b = key := of_decide_eq_true own
  rcases covers b.dbterm accepted with never | bound
  · exact absurd never (analyzed.unbound given)
  · rw [show ops.getKey b.dbterm = key from own] at bound
    refine analyzed.bound given key bound ?_
    unfold searchSlot
    split
    · exact any_eq_true.mpr ⟨b, there,
        ((holds.ok.keyChain_ok key).liveOf_iff there key).mpr ⟨live, own⟩⟩
    · rfl

/-- A trapped `select_delete` goes on until it is done. -/
def selectDeleteLoop (smp : Bool) (pid : Nat) (accept : Obj → Bool) :
    Nat → DbTableHash Obj × HashReply Obj → DbTableHash Obj × HashReply Obj
  | turns + 1, (tb, .trap slotIx got) =>
    selectDeleteLoop smp pid accept turns (etsSelectDeleteContinue smp tb pid accept slotIx got)
  | _, result => result

/-- `ets:select_delete/2` as its caller sees it. -/
def selectDelete (ops : HashOps Key Obj) (smp : Bool) (tb : DbTableHash Obj) (pid : Nat)
    (spec : MatchSpec Key Obj) : DbTableHash Obj × HashReply Obj :=
  selectDeleteLoop smp pid spec.accept tb.nactive (etsSelectDelete ops smp tb pid (some spec))

/-- Where a `select_delete` stands: done, or with the slots from `slotIx` on left. -/
inductive Progress (ops : HashOps Key Obj) (smp : Bool) (accept : Obj → Bool)
    (store : Store Key Obj) (turns : Nat) : DbTableHash Obj × HashReply Obj → Prop where
  | finished (tb : DbTableHash Obj) (got : Nat) (holds : Holds ops tb (store.selectDelete accept)) :
      Progress ops smp accept store turns (tb, .deleted got)
  | trapped (tb : DbTableHash Obj) (slotIx got : Nat) (done : List Nat)
      (holds : Holds ops tb (afterSlots ops tb accept done store)) (active : slotIx < tb.nactive)
      (left : ∀ slot < tb.nactive, slot ∈ done ∨ slotLe smp slotIx slot = true)
      (few : (slotsFrom smp tb.nactive slotIx).card ≤ turns) :
      Progress ops smp accept store turns (tb, .trap slotIx got)

theorem Holds.searching (holds : Holds ops tb store) :
    Searching ops tb ⟨1000, got, none, tb.fixdel⟩ store :=
  ⟨holds, rfl, fun _ same => nomatch same⟩

/-- A search of all slots from `slotIx` on, where those before are searched. -/
theorem Holds.walk (holds : Holds ops tb (afterSlots ops tb accept done store))
    (active : slotIx < tb.nactive)
    (left : ∀ slot < tb.nactive, slot ∈ done ∨ slotLe smp slotIx slot = true)
    (few : (slotsFrom smp tb.nactive slotIx).card ≤ turns + 1) (fixatedByMe got : Nat) :
    Progress ops smp accept store turns (finishSelectDelete
      (deleteSlots accept fixatedByMe true (slotWalk smp tb.nactive tb.nactive slotIx) tb
        ⟨1000, got, none, tb.fixdel⟩)) := by
  have large := holds.ok.least
  obtain ⟨visited, rest, searched⟩ := (holds.searching).deleteSlots accept fixatedByMe true
    (slotWalk smp tb.nactive tb.nactive slotIx) (slotWalk_lt smp large _ active)
  generalize deleteSlots accept fixatedByMe true (slotWalk smp tb.nactive tb.nactive slotIx) tb
    ⟨1000, got, none, tb.fixdel⟩ = result at searched
  obtain ⟨tb', scan, trap⟩ := result
  have after := searched.searching.holds
  rw [afterSlots_append] at after
  cases trap with
  | none =>
    have walk := searched.slots
    rw [searched.finished rfl, append_nil] at walk
    rw [afterSlots_all] at after
    · refine .finished _ _ ?_
      split
      · exact after.tryShrink
      · exact after
    · intro key
      have inside := holds.ok.slot_lt key
      rcases left _ inside with early | late
      · exact mem_append_left _ early
      · exact mem_append_right _ (walk ▸ (mem_slotWalk large active).mpr ⟨inside, late⟩)
  | some nextIx =>
    obtain ⟨nonempty, next⟩ := searched.trapped nextIx rfl
    obtain ⟨further, fewer, before⟩ := slotWalk_stop large active searched.slots nonempty next
    have shape := searched.shape
    rw [← shape.afterSlots_eq] at after
    rw [← shape.nactive] at further fewer
    refine .trapped _ _ _ _ after further ?_ (by rw [shape.nactive] at *; omega)
    intro slot inside
    rw [shape.nactive] at inside
    rcases left slot inside with early | late
    · exact .inl (mem_append_left _ early)
    · exact (before slot inside late).imp_left (mem_append_right _)

theorem Progress.continue'
    (progress : Progress ops smp accept store (turns + 1) (tb, .trap slotIx got)) :
    Progress ops smp accept store turns (etsSelectDeleteContinue smp tb pid accept slotIx got) := by
  cases progress with
  | trapped _ _ _ done holds active left few =>
    have walked := holds.walk active left few (if onlyWriter pid tb then 0 else 1) got
    unfold etsSelectDeleteContinue dbSelectDeleteContinueHash
    rw [if_neg (by omega)]
    generalize finishSelectDelete _ = result at walked
    cases walked with
    | finished tb' got' holds' =>
      refine .finished _ _ ?_
      split
      · exact holds'.unfixTableLocked pid
      · exact holds'
    | trapped tb' slotIx' got' done' holds' active' left' few' =>
      exact .trapped _ _ _ done' holds' active' left' few'

theorem Progress.loop (progress : Progress ops smp accept store turns result) :
    ∃ tb got, selectDeleteLoop smp pid accept turns result = (tb, .deleted got) ∧
      Holds ops tb (store.selectDelete accept) := by
  induction turns generalizing result with
  | zero =>
    cases progress with
    | finished tb got holds => exact ⟨tb, got, rfl, holds⟩
    | trapped tb slotIx got done holds active left few =>
      have here : slotIx ∈ slotsFrom smp tb.nactive slotIx :=
        mem_slotsFrom.mpr ⟨active, slotLe_refl⟩
      have some := Finset.card_pos.mpr ⟨slotIx, here⟩
      omega
  | succ turns ih =>
    cases progress with
    | finished tb got holds => exact ⟨tb, got, rfl, holds⟩
    | trapped tb slotIx got done holds active left few =>
      exact ih (Progress.continue' (.trapped tb slotIx got done holds active left few))

theorem Holds.dbSelectDeleteHash (holds : Holds ops tb store) (smp : Bool)
    (covers : spec.Covers ops) :
    Progress ops smp spec.accept store tb.nactive (dbSelectDeleteHash ops smp tb (some spec)) := by
  have analyzed := analyzePatternHash_spec ops smp tb spec.heads
  have found {key : Key} {obj : Obj} (member : obj ∈ store key)
      (accepted : spec.accept obj = true) :=
    holds.accepted_searched smp covers member accepted
  unfold Ets.dbSelectDeleteHash
  dsimp only
  generalize state : analyzePatternHash ops smp tb spec.heads = mpi at analyzed found
  by_cases given : mpi.keyGiven = true
  · rw [given]
    split
    case isTrue nothing =>
      refine .finished _ _ ?_
      have same : store.selectDelete spec.accept = store := by
        funext key
        refine selectDelete_none fun obj member => ?_
        by_contra accepted
        have never := (found member (Bool.eq_true_of_not_eq_false accepted) given).1
        simp [never] at nothing
      rwa [same]
    case isFalse =>
      obtain ⟨done, rest, searched⟩ := (holds.searching).deleteSlots spec.accept
        (if isThreadSafe smp tb then 0 else 1) false mpi.lists
        (state ▸ analyzePatternHash_lists ops smp holds.ok.size)
      have trap :=
        deleteSlots_untrapped spec.accept (if isThreadSafe smp tb then 0 else 1) mpi.lists
        tb ⟨1000, 0, none, tb.fixdel⟩
      rw [if_pos rfl, Bool.not_true]
      generalize deleteSlots spec.accept _ false mpi.lists tb _ = result at searched trap
      obtain ⟨tb', scan, trap'⟩ := result
      cases trap
      have walk := searched.slots
      rw [searched.finished rfl, append_nil] at walk
      have after := searched.searching.holds
      have same : afterSlots ops tb spec.accept done store = store.selectDelete spec.accept := by
        funext key
        rw [afterSlots]
        split
        · rfl
        case isFalse outside =>
          rw [selectDelete_none]
          intro obj member
          by_contra accepted
          exact outside (walk ▸ (found member (Bool.eq_true_of_not_eq_false accepted) given).2)
      rw [same] at after
      refine .finished _ _ ?_
      split
      · exact after.tryShrink
      · exact after
  · have all : mpi.keyGiven = false := Bool.eq_false_iff.mpr given
    rw [all, analyzed.open' all]
    have start : Holds ops tb (afterSlots ops tb spec.accept [] store) := by rwa [afterSlots_nil]
    exact start.walk (Nat.lt_of_lt_of_le (by decide) holds.ok.least)
      (fun slot _ => .inr slotLe_zero)
      ((slotsFrom_card_le).trans (Nat.le_succ _)) _ 0

theorem Progress.wrap (progress : Progress ops smp accept store turns (tb, reply))
    (kept : ∀ {store}, Holds ops tb store → Holds ops tb' store) (shape : SameShape tb tb') :
    Progress ops smp accept store turns (tb', reply) := by
  cases progress with
  | finished _ got holds => exact .finished _ _ (kept holds)
  | trapped _ slotIx got done holds active left few =>
    rw [← shape.afterSlots_eq] at holds
    rw [← shape.nactive] at active left few
    exact .trapped _ _ _ done (kept holds) active left few

theorem Holds.etsSelectDelete (holds : Holds ops tb store) (smp : Bool) (pid : Nat)
    (covers : spec.Covers ops) :
    Progress ops smp spec.accept store tb.nactive (etsSelectDelete ops smp tb pid (some spec)) := by
  have started : Holds ops (if iterationSafety smp pid tb = .iterUnsafe then
    Ets.localFixTable tb else tb)
      store := by
    split
    · exact holds.localFixTable
    · exact holds
  have searched := started.dbSelectDeleteHash smp covers
  have count : (if iterationSafety smp pid tb = .iterUnsafe then Ets.localFixTable tb
    else tb).nactive =
      tb.nactive := by split <;> rfl
  rw [count] at searched
  unfold Ets.etsSelectDelete
  dsimp only
  generalize Ets.dbSelectDeleteHash ops smp _ (some spec) = result at searched
  obtain ⟨tb', reply⟩ := result
  have fixed : Progress ops smp spec.accept store tb.nactive
      (if reply.didTrap ∧ iterationSafety smp pid tb ≠
        .iterSafe then Ets.fixTableLocked tb' pid else tb',
        reply) := by
    split
    · exact searched.wrap (fun holds => holds.fixTableLocked pid) ⟨rfl, rfl, rfl, rfl, rfl, rfl⟩
    · exact searched
  split
  · exact fixed.wrap (fun holds => holds.localUnfixTable) sameShape_localUnfixTable
  · exact fixed

/-- `select_delete` ends, and has deleted what the match specification accepts. -/
theorem Holds.selectDelete (holds : Holds ops tb store) (smp : Bool) (pid : Nat)
    (covers : spec.Covers ops) :
    ∃ tb' got, selectDelete ops smp tb pid spec = (tb', .deleted got) ∧
      Holds ops tb' (store.selectDelete spec.accept) :=
  (holds.etsSelectDelete smp pid covers).loop

end

end Otp.Ets
