import Mathlib.Algebra.BigOperators.Group.Finset.Basic
import Mathlib.Algebra.BigOperators.Intervals
import Otp.Ets.HashSize
import Otp.Ets.HashDelete

/-! `nitems` counts the live objects of a hash table. Two operations lose count:
`take` of a key with a pseudo-deleted object behind a live one, and a failing
update that made a new node for its default object. -/

namespace Otp.Ets

open Function List
open Otp.Library

variable {Key Obj : Type} {tb : DbTableHash Obj} {chain : List (HashDbTerm Obj)} {room : Bool}
  {obj : Obj} {pid : Nat}

/-- The number of live objects in the active buckets. -/
def tableLive (tb : DbTableHash Obj) : Nat :=
  ∑ ix ∈ Finset.range tb.nactive, liveCount (tb.bucket ix)

/-- How far `nitems` is off. -/
def drift (tb : DbTableHash Obj) : Int := tb.nitems - tableLive tb

@[simp] theorem liveCount_filter :
    liveCount (chain.filter HashDbTerm.isLive) = liveCount chain := by
  simp [liveCount, countP_filter]

theorem liveCount_lt : liveCount chain < chain.length ↔ ∃ b ∈ chain, b.isLive = false := by
  rw [liveCount, countP_eq_length_filter]
  simp

theorem tableLive_update (bucket : Nat → List (HashDbTerm Obj)) (active : ix < nactive)
    (chain : List (HashDbTerm Obj)) :
    ∑ i ∈ Finset.range nactive, liveCount (update bucket ix chain i) + liveCount (bucket ix) =
      ∑ i ∈ Finset.range nactive, liveCount (bucket i) + liveCount chain := by
  have member := Finset.mem_range.mpr active
  rw [← Finset.add_sum_erase _ _ member,
    ← Finset.add_sum_erase _ (fun i => liveCount (bucket i)) member, update_self]
  have others : ∑ i ∈ (Finset.range nactive).erase ix, liveCount (update bucket ix chain i) =
      ∑ i ∈ (Finset.range nactive).erase ix, liveCount (bucket i) :=
    Finset.sum_congr rfl fun i other => by
      rw [update_of_ne (Finset.ne_of_mem_erase other)]
  omega

theorem tableLive_update_top {bucket : Nat → List (HashDbTerm Obj)} :
    ∑ i ∈ Finset.range top, liveCount (update bucket top chain i) =
      ∑ i ∈ Finset.range top, liveCount (bucket i) :=
  Finset.sum_congr rfl fun i member => by
    rw [update_of_ne (Nat.ne_of_lt (Finset.mem_range.mp member))]

theorem tableLive_setBucket (active : ix < tb.nactive) (chain : List (HashDbTerm Obj)) :
    tableLive (setBucket tb ix chain) + liveCount (tb.bucket ix) = tableLive tb + liveCount chain :=
  tableLive_update tb.bucket active chain

theorem splitBucket_count (szm fromIx : Nat) (swapped : Bool)
    (walked other chain : List (HashDbTerm Obj)) :
    liveCount (splitBucket szm fromIx swapped walked other chain).1 +
        liveCount (splitBucket szm fromIx swapped walked other chain).2 =
      liveCount walked + liveCount other + liveCount chain := by
  induction chain generalizing fromIx swapped walked other with
  | nil => cases swapped <;> simp [splitBucket, Nat.add_comm]
  | cons p rest ih =>
    unfold splitBucket
    split
    case isTrue invalid =>
      rw [ih]
      simp [HashDbTerm.isLive, invalid]
    case isFalse live =>
      dsimp only
      split
      · rw [ih]
        simp only [liveCount_append, liveCount_cons, liveCount_nil]
        omega
      · rw [ih]
        simp only [liveCount_append, liveCount_cons, liveCount_nil]
        omega

theorem tableLive_ensureSlot (tb : DbTableHash Obj) :
    tableLive (ensureSlot tb tb.nactive) = tableLive tb := by
  obtain ⟨nslots, bucket, shape⟩ := ensureSlot_same
  unfold tableLive
  have active : (ensureSlot tb tb.nactive).nactive = tb.nactive := by rw [shape]
  rw [active]
  exact Finset.sum_congr rfl fun ix member => by
    rw [ensureSlot_bucket (Finset.mem_range.mp member)]

theorem tableLive_splitInto (tb : DbTableHash Obj) (inside : fromIx < tb.nactive) (szm : Nat) :
    tableLive (splitInto tb tb.nactive fromIx szm) = tableLive tb := by
  have parts := splitBucket_count szm fromIx false [] [] (tb.bucket fromIx)
  have kept :=
    tableLive_update tb.bucket inside (splitBucket szm fromIx false [] [] (tb.bucket fromIx)).1
  unfold tableLive splitInto setBucket
  dsimp only
  rw [Finset.sum_range_succ, update_self, tableLive_update_top]
  simp only [liveCount_nil] at parts
  omega

theorem drift_grow (ok : SizeOk tb) : drift (grow tb tb.nactive room) = drift tb := by
  obtain ⟨level, sizedAt⟩ := ok
  obtain ⟨nslots, bucket, shape⟩ := ensureSlot_same
  have extended := tableLive_ensureSlot tb
  rcases sizedAt.grow_cases with same | same | ⟨_, same⟩
  · rw [same]
  · rw [same, drift, extended, shape]
    rfl
  · have inside := sizedAt.sized.splitSlot_lt
    rw [same, drift]
    rw [shape] at extended ⊢
    rw [tableLive_splitInto { tb with nslots, bucket } inside, extended]
    rfl

theorem drift_shrink (ok : SizeOk tb) (large : segsz < tb.nactive) :
    drift (shrink tb tb.nactive) = drift tb := by
  obtain ⟨level, sizedAt⟩ := ok
  rcases sizedAt.shrink_cases with same | ⟨_, same⟩
  · rw [same]
  rw [same, drift, drift]
  obtain ⟨count, active⟩ : ∃ count, tb.nactive = count + 1 := ⟨tb.nactive - 1, by omega⟩
  have sized := sizedAt.sized
  rw [active] at sized
  have lower := (sized.shrink (by unfold segsz at large; omega))
  have inside : count % 2 ^ (level - 1) < count := by
    have less := lower.1.splitSlot_lt
    rwa [splitSlot, lower.2] at less
  unfold tableLive
  simp only [active, Nat.add_sub_cancel, Finset.sum_range_succ, tableLive_update_top]
  have joined := tableLive_update tb.bucket inside
    ((tb.bucket count).filter HashDbTerm.isLive ++ tb.bucket (count % 2 ^ (level - 1)))
  simp only [liveCount_append, liveCount_filter] at joined ⊢
  omega

theorem drift_tryShrink (ok : SizeOk tb) : drift (tryShrink tb) = drift tb := by
  unfold tryShrink
  split
  case isTrue small => exact drift_shrink ok small.1
  case isFalse => rfl

theorem drift_tryGrow (ok : SizeOk tb) : drift (tryGrow tb room) = drift tb := by
  unfold tryGrow
  split
  · exact drift_grow ok
  · rfl

/-- A change of one active bucket. -/
theorem drift_touch (active : ix < tb.nactive) (chain : List (HashDbTerm Obj)) (nitems : Int)
    (ref : Nat) (fixations : List (Nat × Nat)) (fixdel : List Nat) :
    drift { setBucket tb ix chain with nitems, ref, fixations, fixdel } =
      drift tb + (nitems - tb.nitems) - ((liveCount chain : Int) - liveCount (tb.bucket ix)) := by
  have sum := tableLive_setBucket active chain
  unfold drift
  change nitems - (tableLive (setBucket tb ix chain) : Int) = _
  omega

theorem drift_linkNew (ok : SizeOk tb) (active : ix < tb.nactive)
    (chain : tb.bucket ix = passed ++ rest) (live : HashDbTerm.isLive ⟨hval, obj⟩ = true) :
    drift (linkNew tb ix hval obj passed rest room) = drift tb := by
  have sized := sizeOk_sizeOnly.touch tb (tb.nitems + 1) tb.ref tb.fixations
    (update tb.bucket ix (passed ++ ⟨hval, obj⟩ :: rest)) tb.fixdel ok
  have touched := drift_touch active (passed ++ ⟨hval, obj⟩ :: rest) (tb.nitems + 1) tb.ref
    tb.fixations tb.fixdel
  refine (drift_tryGrow sized).trans (touched.trans ?_)
  rw [chain]
  simp only [liveCount_append, liveCount_cons, live, if_true]
  omega

theorem drift_finishDeletion (ok : SizeOk tb) (active : ix < tb.nactive) (deletion : Deletion Obj) :
    drift (finishDeletion tb ix deletion) = drift tb +
      (deletion.nitemsDiff - ((liveCount deletion.chain : Int) - liveCount (tb.bucket ix))) := by
  unfold finishDeletion addNitems
  have touched := @drift_touch _ _ _ active deletion.chain
  split
  case isTrue =>
    have sized := sizeOk_sizeOnly.touch tb (tb.nitems + deletion.nitemsDiff) tb.ref tb.fixations
      (update tb.bucket ix deletion.chain) deletion.fixdel ok
    refine (drift_tryShrink sized).trans
      ((touched (tb.nitems + deletion.nitemsDiff) tb.ref tb.fixations deletion.fixdel).trans ?_)
    omega
  case isFalse zero =>
    refine (touched tb.nitems tb.ref tb.fixations deletion.fixdel).trans ?_
    omega

theorem drift_deleteSlot (accept : Obj → Bool) (fixatedByMe : Nat) (active : slotIx < tb.nactive)
    (scan : Scan) : drift (deleteSlot accept fixatedByMe tb scan slotIx).1 = drift tb := by
  have count := (deleteChain_deletes accept tb.ref fixatedByMe slotIx (tb.bucket slotIx) scan).1
  refine (drift_touch active _ _ tb.ref tb.fixations _).trans ?_
  omega

theorem drift_deleteSlots (accept : Obj → Bool) (fixatedByMe : Nat) (trapping : Bool)
    {slots : List Nat} (active : ∀ ix ∈ slots, ix < tb.nactive) (scan : Scan) :
    drift (deleteSlots accept fixatedByMe trapping slots tb scan).1 = drift tb := by
  induction slots generalizing tb scan with
  | nil => rfl
  | cons slotIx rest ih =>
    have here := drift_deleteSlot accept fixatedByMe (active slotIx mem_cons_self) scan
    unfold deleteSlots
    cases rest with
    | nil => exact here
    | cons nextIx rest =>
      dsimp only
      split
      · exact here
      · have later (ix : Nat) (member : ix ∈ nextIx :: rest) :
            ix < (deleteSlot accept fixatedByMe tb scan slotIx).1.nactive :=
          active ix (mem_cons_of_mem _ member)
        exact (ih later _).trans here

theorem drift_dbUnfixTableHash : drift (dbUnfixTableHash tb) = drift tb := by
  have each (tb : DbTableHash Obj) (ix : Nat) : drift (purgeSlot tb ix) = drift tb := by
    unfold purgeSlot
    split
    case isTrue active =>
      refine (drift_touch active _ tb.nitems tb.ref tb.fixations tb.fixdel).trans ?_
      rw [liveCount_filter]
      omega
    case isFalse => rfl
  have all (slots : List Nat) (tb : DbTableHash Obj) :
      drift (slots.foldl purgeSlot tb) = drift tb := by
    induction slots generalizing tb with
    | nil => rfl
    | cons ix slots ih => exact (ih _).trans (each tb ix)
  unfold dbUnfixTableHash
  split
  · rfl
  · exact all tb.fixdel tb

theorem drift_unfixTableLocked : drift (unfixTableLocked tb pid) = drift tb := by
  have released : drift (releaseFixation tb pid) = drift tb := by
    unfold releaseFixation
    split <;> rfl
  unfold unfixTableLocked
  dsimp only
  split
  · exact (drift_dbUnfixTableHash).trans released
  · exact released

theorem drift_localUnfixTable (tb : DbTableHash Obj) : drift (localUnfixTable tb) = drift tb := by
  unfold localUnfixTable
  dsimp only
  split
  · exact drift_dbUnfixTableHash
  · rfl

theorem drift_finishSelectDelete {result : DbTableHash Obj × Scan × Option Nat}
    (ok : SizeOk result.1) : drift (finishSelectDelete result).1 = drift result.1 := by
  obtain ⟨tb, scan, trap⟩ := result
  cases trap with
  | some slotIx => rfl
  | none =>
    unfold finishSelectDelete
    dsimp only
    split
    · exact drift_tryShrink ok
    · rfl

theorem nextSlot_lt (smp : Bool) (large : segsz ≤ nactive) (ix : Nat) :
    nextSlot smp nactive ix < nactive := by
  unfold segsz at large
  unfold nextSlot dbHashLockCnt
  dsimp only
  split
  · split
    · assumption
    · have masked : (ix + 64 + 1) &&& (64 - 1) ≤ 64 - 1 := Nat.and_le_right
      omega
  · split
    · assumption
    · omega

theorem slotWalk_lt (smp : Bool) (large : segsz ≤ nactive) (turns : Nat) (inside : ix < nactive) :
    ∀ slot ∈ slotWalk smp nactive turns ix, slot < nactive := by
  induction turns generalizing ix with
  | zero => simp [slotWalk]
  | succ turns ih =>
    intro slot member
    rcases mem_cons.mp member with rfl | later
    · exact inside
    · split at later
      · cases later
      · exact ih (nextSlot_lt smp large ix) slot later

section

variable [DecidableEq Key] (ops : HashOps Key Obj) (smp : Bool)

theorem analyzePatternHash_lists (ok : SizeOk tb) {heads : List (HeadKey Key)} :
    ∀ ix ∈ (analyzePatternHash ops smp tb heads).lists, ix < tb.nactive := by
  have step (mpi : HashMpInfo) (heads : List (HeadKey Key))
      (inside : ∀ ix ∈ mpi.lists, ix < tb.nactive) :
      ∀ ix ∈ (heads.foldl (analyzeHeadHash ops smp tb) mpi).lists, ix < tb.nactive := by
    induction heads generalizing mpi with
    | nil => exact inside
    | cons head heads ih =>
      apply ih
      unfold analyzeHeadHash
      dsimp only
      split
      · exact inside
      split
      · exact inside
      · exact inside
      · split
        · split
          · exact inside
          · intro ix member
            rcases mem_append.mp member with old | new
            · exact inside ix old
            · rw [mem_singleton.mp new]
              exact ok.hashToIx_lt
        · exact inside
  exact step _ heads (by simp)

theorem drift_dbSelectDeleteHash (ok : SizeOk tb) (spec : Option (MatchSpec Key Obj)) :
    drift (dbSelectDeleteHash ops smp tb spec).1 = drift tb := by
  obtain ⟨level, sizedAt⟩ := ok
  have ok : SizeOk tb := ⟨level, sizedAt⟩
  unfold dbSelectDeleteHash
  split
  · rfl
  dsimp only
  split
  · rfl
  refine (drift_finishSelectDelete (sizeOk_sizeOnly.deleteSlots _ _ _ _ ok _)).trans ?_
  apply drift_deleteSlots
  split
  · exact analyzePatternHash_lists ops smp ok
  · exact slotWalk_lt smp sizedAt.least _ (Nat.lt_of_lt_of_le (by decide) sizedAt.least)

theorem drift_etsSelectDelete (ok : SizeOk tb) {spec : Option (MatchSpec Key Obj)} :
    drift (etsSelectDelete ops smp tb pid spec).1 = drift tb := by
  have started : SizeOk (if iterationSafety smp pid tb = .iterUnsafe then
    localFixTable tb else tb) :=
    SizeOnly.holds_ite (sizeOk_sizeOnly.touch tb _ _ _ _ _ ok) ok
  have same : drift (if iterationSafety smp pid tb = .iterUnsafe then localFixTable tb else tb) =
      drift tb := by
    split <;> rfl
  have searched := (drift_dbSelectDeleteHash ops smp started spec).trans same
  exact SizeOnly.holds_ite (P := fun next => drift next = drift tb) ((drift_localUnfixTable _).trans
      (SizeOnly.holds_ite (P := fun next => drift next = drift tb) searched searched))
    (SizeOnly.holds_ite (P := fun next => drift next = drift tb) searched searched)

theorem drift_etsSelectDeleteContinue (ok : SizeOk tb) {accept : Obj → Bool}
    {slotIx got : Nat} : drift (etsSelectDeleteContinue smp tb pid accept slotIx got).1 =
      drift tb := by
  obtain ⟨level, sizedAt⟩ := ok
  have ok : SizeOk tb := ⟨level, sizedAt⟩
  have searched : drift (dbSelectDeleteContinueHash smp pid tb accept slotIx got).1 = drift tb := by
    unfold dbSelectDeleteContinueHash
    dsimp only
    split
    · exact SizeOnly.holds_ite (P := fun next => drift next = drift tb) (drift_tryShrink ok) rfl
    case isFalse inside =>
      refine (drift_finishSelectDelete (sizeOk_sizeOnly.deleteSlots _ _ _ _ ok _)).trans ?_
      exact drift_deleteSlots _ _ _ (slotWalk_lt smp sizedAt.least _ (Nat.lt_of_not_le inside)) _
  exact SizeOnly.holds_ite (P := fun next => drift next = drift tb)
    ((drift_unfixTableLocked).trans searched) searched

omit [DecidableEq Key] in
theorem SizeOk.keySlot_lt (ok : SizeOk tb) (key : Key) : keySlot ops tb key < tb.nactive :=
  ok.hashToIx_lt

theorem drift_dbPutHash [DecidableEq Obj] (ok : SizeOk tb) {keyClashFail : Bool} :
    drift (dbPutHash ops tb obj keyClashFail room).1 = drift tb := by
  have active := ok.keySlot_lt ops (ops.getKey obj)
  have live := nodeOf_live ops obj
  have linked (passed rest : List (HashDbTerm Obj))
      (chain : keyChain ops tb (ops.getKey obj) = passed ++ rest) :
      drift (linkNew tb (keySlot ops tb (ops.getKey obj)) (makeHash ops (ops.getKey obj)) obj passed
        rest room) = drift tb := drift_linkNew ok active chain live
  have outcome := putOutcome ops tb obj keyClashFail room
  generalize dbPutHash ops tb obj keyClashFail room = result at outcome
  cases outcome with
  | absent free => exact linked _ [] (append_nil _).symm
  | replace type passed behind b chain before here allowed =>
    refine (drift_touch active _ _ tb.ref tb.fixations tb.fixdel).trans ?_
    rw [show tb.bucket _ = _ from chain]
    simp only [liveCount_append, liveCount_cons]
    split <;> omega
  | clash clashes b member here live => rfl
  | push type passed group behind split nonempty allowed =>
    exact linked passed (group ++ behind) (by rw [split.chain, append_assoc])
  | present type clashes b member here live same => rfl
  | revive type clashes passed newer older behind q split first same dead =>
    refine (drift_touch active _ _ tb.ref tb.fixations tb.fixdel).trans ?_
    rw [show tb.bucket _ = _ from split.chain]
    simp only [liveCount_append, liveCount_cons, live, dead, if_true]
    simp only [Bool.false_eq_true, if_false]
    omega

theorem drift_dbEraseHash (ok : SizeOk tb) {key : Key} :
    drift (dbEraseHash ops tb key) = drift tb := by
  have count :=
    (eraseLoop_erases ops tb.ref (keySlot ops tb key) key (keyChain ops tb key) 0 tb.fixdel).count
  refine (drift_finishDeletion ok (ok.keySlot_lt ops _) _).trans ?_
  simp only [keyChain, keySlot] at count ⊢
  omega

theorem drift_dbEraseObjectHash [DecidableEq Obj] (ok : SizeOk tb) :
    drift (dbEraseObjectHash ops tb obj) = drift tb := by
  have count := (eraseObjectLoop_erases ops tb.type tb.ref (keySlot ops tb (ops.getKey obj)) obj
    (ops.getKey obj) (keyChain ops tb (ops.getKey obj)) 0 0 tb.fixdel).count
  refine (drift_finishDeletion ok (ok.keySlot_lt ops _) _).trans ?_
  simp only [keyChain, keySlot] at count ⊢
  omega

/-- The nodes from the first live object of a key on, as far as they have the key:
those that `take` removes. -/
def takeRange (tb : DbTableHash Obj) (key : Key) : List (HashDbTerm Obj) :=
  match (keyChain ops tb key).dropWhile fun b => !liveOf ops key b with
  | [] => []
  | b :: rest => b :: if tb.type = .set then [] else rest.takeWhile fun q => ofKey ops key q

/-- `take` counts the pseudo-deleted objects in its range as well. -/
theorem drift_dbTakeHash (ok : SizeOk tb) (key : Key) : drift (dbTakeHash ops tb key).1 =
      drift tb - ((takeRange ops tb key).length - liveCount (takeRange ops tb key) : Int) := by
  have outcome := takeOutcome ops tb key
  generalize dbTakeHash ops tb key = result at outcome
  cases outcome with
  | absent free =>
    have none : takeRange ops tb key = [] := by
      unfold takeRange
      rw [dropWhile_eq_nil_iff.mpr (by simpa using free)]
    simp [none]
  | taken passed more bend b chain before here inside stop =>
    have range : takeRange ops tb key = b :: more := by
      unfold takeRange
      rw [chain, append_assoc, dropWhile_append_of_pos (by simpa using before)]
      simp only [cons_append, dropWhile_cons, here, Bool.not_true, Bool.false_eq_true, if_false]
      rcases stop with ⟨set, rfl⟩ | ⟨bag, after⟩
      · rw [if_pos set]
      · rw [if_neg bag, takeWhile_append_of_pos inside]
        cases bend with
        | nil => simp
        | cons q rest => simp [after q rest rfl]
    obtain ⟨-, diff, none⟩ := takeLoop_deletes tb.ref (keySlot ops tb key) (b :: more) 0 tb.fixdel
    refine (drift_finishDeletion ok (ok.keySlot_lt ops _) _).trans ?_
    rw [show tb.bucket _ = _ from chain, range]
    simp only [liveCount_append]
    omega

theorem drift_dbFinalizeDbtermHash (ok : SizeOk tb) (cret : DbError) (dbterm : Obj)
    {handle : DbUpdateHandle Obj} (active : handle.ix < tb.nactive)
    (here : tb.bucket handle.ix = handle.before ++ handle.node :: handle.behind)
    (live : handle.node.isLive = true) (room : Bool) :
    drift (dbFinalizeDbtermHash tb cret dbterm handle room) = drift tb +
      if handle.newObject = true ∧ cret ≠ .none then 0 else if handle.incTryGrow then 1 else 0 := by
  have touched := @drift_touch _ tb handle.ix active
  have sized (nitems : Int) (bucket : Nat → List (HashDbTerm Obj)) (fixdel : List Nat) :=
    sizeOk_sizeOnly.touch tb nitems tb.ref tb.fixations bucket fixdel ok
  have kept : HashDbTerm.isLive { handle.node with dbterm } = true := live
  unfold dbFinalizeDbtermHash
  dsimp only
  split
  · split
    case h_1 fixdel _ =>
      refine (drift_tryShrink (sized _ _ _)).trans
        ((touched _ (tb.nitems - 1) tb.ref tb.fixations _).trans ?_)
      rw [here]
      simp only [liveCount_append, liveCount_pseudoDelete, liveCount_live live]
      omega
    case h_2 =>
      refine (drift_tryShrink (sized _ _ _)).trans
        ((touched _ (tb.nitems - 1) tb.ref tb.fixations _).trans ?_)
      rw [here]
      simp only [liveCount_append, liveCount_live live]
      omega
  · split
    · refine (drift_tryGrow (sized _ _ _)).trans
        ((touched _ (tb.nitems + 1) tb.ref tb.fixations _).trans ?_)
      rw [here]
      simp only [liveCount_append, liveCount_live live, liveCount_live kept]
      omega
    · refine (touched _ _ tb.ref tb.fixations _).trans ?_
      rw [here]
      simp only [liveCount_append, liveCount_live live, liveCount_live kept]
      omega

/-- An update is lost when it fails on a new node for its default object. -/
def UpdateLost (tb : DbTableHash Obj) (key : Key) (default : Option Obj)
    (change : Obj → Obj × DbError) : Prop :=
  tb.type = .set ∧ (∀ b ∈ keyChain ops tb key, ofKey ops key b = false) ∧
    ∃ obj, default = some obj ∧ (change (ops.setKey obj key)).2 ≠ .none

theorem drift_dbUpdateHash (ok : SizeOk tb) (key : Key) (default : Option Obj)
    (change : Obj → Obj × DbError) (room : Bool) :
    UpdateLost ops tb key default change ∧
        drift (dbUpdateHash ops tb key default change room).1 = drift tb - 1 ∨
      ¬ UpdateLost ops tb key default change ∧
        drift (dbUpdateHash ops tb key default change room).1 = drift tb := by
  have active := ok.keySlot_lt ops key
  unfold dbUpdateHash
  split
  case isTrue bag => exact .inr ⟨fun lost => bag lost.1, rfl⟩
  case isFalse set =>
  have outcome := lookupOutcome ops tb key default
  generalize dbLookupDbtermHash ops tb key default = result at outcome
  cases outcome with
  | missing without =>
    refine .inr ⟨?_, rfl⟩
    rintro ⟨_, _, obj, given, _⟩
    rw [without] at given
    cases given
  | fresh obj given free =>
    have live := nodeOf_live ops (ops.setKey obj key)
    have linked : drift (setKeyChain ops tb key
        (keyChain ops tb key ++ [nodeOf ops (ops.setKey obj key)])) = drift tb - 1 := by
      refine (drift_touch active _ tb.nitems tb.ref tb.fixations tb.fixdel).trans ?_
      simp only [liveCount_append, liveCount_live live, liveCount_nil, keyChain]
      omega
    have finalized := @drift_dbFinalizeDbtermHash _ _ (sizeOk_sizeOnly.setBucket ok _ _)
      (change (ops.setKey obj key)).2 (change (ops.setKey obj key)).1
      ⟨keySlot ops tb key, keyChain ops tb key, nodeOf ops (ops.setKey obj key), [], true, true⟩
      active (update_self ..) live room
    rw [linked] at finalized
    by_cases failed : (change (ops.setKey obj key)).2 = .none
    · refine .inr ⟨?_, finalized.trans ?_⟩
      · rintro ⟨_, _, other, same, fails⟩
        rw [given, Option.some.injEq] at same
        exact fails (same ▸ failed)
      · simp [failed]
    · exact .inl ⟨⟨not_not.mp set, free, obj, given, failed⟩, finalized.trans (by simp [failed])⟩
  | found before behind b chain here live =>
    refine .inr ⟨?_, ?_⟩
    · rintro ⟨_, free, _⟩
      rw [free b (by simp [chain])] at here
      cases here
    · refine (@drift_dbFinalizeDbtermHash _ _ ok (change b.dbterm).2 (change b.dbterm).1
        ⟨keySlot ops tb key, before, b, behind, false, false⟩ active chain live room).trans ?_
      simp
  | revived obj before behind b chain here dead =>
    have live := nodeOf_live ops (ops.setKey obj key)
    refine .inr ⟨?_, ?_⟩
    · rintro ⟨_, free, _⟩
      rw [free b (by simp [chain])] at here
      cases here
    · have sized := sizeOk_sizeOnly.touch tb (tb.nitems + 1) tb.ref tb.fixations
        (update tb.bucket (keySlot ops tb key)
          (before ++ nodeOf ops (ops.setKey obj key) :: behind)) tb.fixdel ok
      refine (@drift_dbFinalizeDbtermHash _ _ sized (change (ops.setKey obj key)).2
        (change (ops.setKey obj key)).1
        ⟨keySlot ops tb key, before, nodeOf ops (ops.setKey obj key), behind, true, false⟩ active
        (update_self ..) live room).trans ?_
      have linked := drift_touch active (before ++ nodeOf ops (ops.setKey obj key) :: behind)
        (tb.nitems + 1) tb.ref tb.fixations tb.fixdel
      rw [show tb.bucket _ = _ from chain] at linked
      simp only [liveCount_append, liveCount_live live, liveCount_cons, dead] at linked
      simp only [Bool.false_eq_true, if_false, ite_self, add_zero]
      refine linked.trans ?_
      simp only [Bool.false_eq_true, if_false]
      omega

omit [DecidableEq Key] in
theorem liveCount_map_pseudoDelete : liveCount (chain.map HashDbTerm.pseudoDelete) = 0 := by
  simp [liveCount]

theorem markSlots_bucket {slots : List Nat} {ix : Nat}
    (listed : ix ∈ slots ∨ liveCount (tb.bucket ix) = 0) :
    liveCount ((slots.foldl markSlotDeleted tb).bucket ix) = 0 := by
  induction slots generalizing tb with
  | nil =>
    rcases listed with never | zero
    · cases never
    · exact zero
  | cons slot slots ih =>
    apply ih
    by_cases here : ix = slot
    · subst here
      unfold markSlotDeleted
      split
      case isTrue bare => simp [bare]
      case isFalse => simp [setBucket, liveCount_map_pseudoDelete]
    · rcases listed with member | zero
      · exact .inl ((mem_cons.mp member).resolve_left here)
      · right
        unfold markSlotDeleted
        split
        · exact zero
        · simpa [setBucket, update_of_ne here] using zero

theorem markSlots_nactive (slots : List Nat) (tb : DbTableHash Obj) :
    (slots.foldl markSlotDeleted tb).nactive = tb.nactive := by
  induction slots generalizing tb with
  | nil => rfl
  | cons slot slots ih =>
    refine (ih _).trans ?_
    unfold markSlotDeleted
    split <;> rfl

theorem drift_dbMarkAllDeletedHash : drift (dbMarkAllDeletedHash tb) = 0 := by
  unfold drift tableLive dbMarkAllDeletedHash
  rw [markSlots_nactive, Finset.sum_eq_zero fun ix member => ?_]
  · rfl
  · exact markSlots_bucket (.inl (mem_range.mpr (Finset.mem_range.mp member)))

theorem drift_dbDeleteAllObjectsHash : drift (dbDeleteAllObjectsHash tb) = 0 := by
  unfold dbDeleteAllObjectsHash
  split
  · exact drift_dbMarkAllDeletedHash
  · simp [drift, tableLive, dbCreateHash]

variable [DecidableEq Obj]

/-- The steps after which `nitems` is too small. -/
def LosesCount (tb : DbTableHash Obj) : HashOp Key Obj → Prop
  | .take key => ∃ b ∈ takeRange ops tb key, b.isLive = false
  | .update key default change _ => UpdateLost ops tb key default change
  | _ => False

/-- A step keeps the count exact, unless it loses count. -/
theorem hashStep_count (ok : SizeOk tb) (counted : drift tb = 0) (op : HashOp Key Obj) :
    drift (hashStep ops smp tb op).1 = 0 ↔ ¬ LosesCount ops tb op := by
  have kept {next : DbTableHash Obj} (same : drift next = drift tb) : drift next = 0 ↔ ¬ False := by
    simp [same, counted]
  cases op with
  | put obj keyClashFail room => exact kept (drift_dbPutHash ops ok)
  | get key => exact kept rfl
  | erase key => exact kept (drift_dbEraseHash ops ok)
  | eraseObject obj => exact kept (drift_dbEraseObjectHash ops ok)
  | take key =>
    have taken := drift_dbTakeHash ops ok key
    have lost := @liveCount_lt _ (takeRange ops tb key)
    have most : liveCount (takeRange ops tb key) ≤ (takeRange ops tb key).length := countP_le_length
    change drift (dbTakeHash ops tb key).1 = 0 ↔ ¬ ∃ b ∈ takeRange ops tb key, b.isLive = false
    rw [← lost, taken]
    omega
  | selectDelete pid spec => exact kept (drift_etsSelectDelete ops smp ok)
  | selectDeleteContinue pid accept slotIx got => exact kept (drift_etsSelectDeleteContinue smp ok)
  | update key default change room =>
    change drift (dbUpdateHash ops tb key default change room).1 = 0 ↔
      ¬ UpdateLost ops tb key default change
    rcases drift_dbUpdateHash ops ok key default change room with ⟨lost, less⟩ | ⟨fine, same⟩
    · simp [less, counted, lost]
    · simp [same, counted, fine]
  | deleteAllObjects => simp [hashStep, drift_dbDeleteAllObjectsHash, LosesCount]
  | markAllDeleted => simp [hashStep, drift_dbMarkAllDeletedHash, LosesCount]
  | fixTable pid => exact kept rfl
  | unfixTable pid =>
    refine kept ?_
    unfold hashStep etsSafeFixtable
    dsimp only
    split
    · rfl
    · exact SizeOnly.holds_ite (P := fun next => drift next = drift tb) drift_unfixTableLocked rfl
  | grow room => exact kept (drift_grow ok)
  | shrink =>
    refine kept ?_
    unfold hashStep
    dsimp only
    split
    case isTrue large => exact drift_shrink ok large
    case isFalse => rfl

/-- The tables reached without a step that loses count. -/
inductive Counted : DbTableHash Obj → Prop where
  | create (type : HashType) (access : Access) (fineLocked : Bool) (owner : Nat) :
      Counted (newHashTable type access fineLocked owner)
  | step {tb : DbTableHash Obj} (counted : Counted tb) (op : HashOp Key Obj)
      (fine : ¬ LosesCount ops tb op) : Counted (hashStep ops smp tb op).1

theorem Counted.ok (counted : Counted ops smp tb) : SizeOk tb ∧ drift tb = 0 := by
  induction counted with
  | create type access fineLocked owner =>
    refine ⟨sizeOk_create, ?_⟩
    simp [drift, tableLive, newHashTable, dbCreateHash]
  | step counted op fine ih =>
    exact ⟨sizeOk_sizeOnly.hashStep ops smp ih.1 op, (hashStep_count ops smp ih.1 ih.2 op).mpr fine⟩

/-- In every run without a step that loses count, `nitems` is the number of live
objects; and after such a step it is not. -/
theorem nitems_exact (counted : Counted ops smp tb) : tb.nitems = tableLive tb ∧ ∀ op,
      (hashStep ops smp tb op).1.nitems = tableLive (hashStep ops smp tb op).1 ↔
      ¬ LosesCount ops tb op := by
  obtain ⟨ok, exact⟩ := counted.ok
  refine ⟨by unfold drift at exact; omega, fun op => ?_⟩
  rw [← hashStep_count ops smp ok exact op]
  unfold drift
  omega

end

/-- Pairs with their first number as key and hash value. -/
def pairOps : HashOps Nat (Nat × Nat) where
  getKey := Prod.fst
  hash := id
  setKey obj key := (key, obj.2)
  getKey_setKey _ _ := rfl

def pairRun (type : HashType) (steps : List (HashOp Nat (Nat × Nat))) : DbTableHash (Nat × Nat) :=
  steps.foldl (fun tb op => (hashStep pairOps true tb op).1) (newHashTable type .dbPublic false 0)

/-- An object of a fixed table is pseudo-deleted, and a put revives it. -/
theorem nitems_after_put :
    let erased := pairRun .set [.put (1, 5) false true, .fixTable 0, .erase 1]
    let revived :=
      pairRun .set [.put (1, 5) false true, .fixTable 0, .erase 1, .put (1, 6) false true]
    ((erased.bucket 1).map HashDbTerm.isLive = [false] ∧ erased.nitems = 0 ∧
      erased.nitems = tableLive erased) ∧
    (revived.bucket 1).map HashDbTerm.isLive = [true] ∧ revived.nitems = 1 ∧
      revived.nitems = tableLive revived := by
  intro erased revived
  have counted : Counted pairOps true erased :=
    .step (.step (.step (.create .set .dbPublic false 0) (.put (1, 5) false true) id)
      (.fixTable 0) id)
      (.erase 1) id
  have again : Counted pairOps true revived := .step counted (.put (1, 6) false true) id
  exact ⟨⟨by decide +kernel, by decide +kernel, (nitems_exact pairOps true counted).1⟩,
    by decide +kernel, by decide +kernel, (nitems_exact pairOps true again).1⟩

/-- A `take` in a fixed `bag`, and a failing update with a default object. -/
theorem nitems_lost :
    (let tb := pairRun .bag
      [.put (1, 1) false true, .fixTable 0, .erase 1, .put (1, 2) false true, .take 1]
    tb.nitems = -1 ∧ tb.nitems ≠ tableLive tb) ∧
    let tb := pairRun .set [.update 1 (some (0, 0)) (fun obj => (obj, .unspec)) true]
    tb.nitems = -1 ∧ tb.nitems ≠ tableLive tb := by
  have negative {tb : DbTableHash (Nat × Nat)} (less : tb.nitems = -1) :
      tb.nitems = -1 ∧ tb.nitems ≠ tableLive tb := ⟨less, by omega⟩
  exact ⟨negative (by decide +kernel), negative (by decide +kernel)⟩

end Otp.Ets
