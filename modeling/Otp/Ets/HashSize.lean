import Otp.Library.LinearHash
import Otp.Ets.HashUpdate

/-! The number of active buckets and the mask fit each other in every state a
table can reach, so that every hash value has an active bucket. -/

namespace Otp.Ets

open Otp.Library

variable {Key Obj : Type} {tb : DbTableHash Obj}

/-- A table of `nactive` buckets at a level of linear hashing. -/
structure SizedAt (level : Nat) (tb : DbTableHash Obj) : Prop where
  sized : Sized level tb.nactive
  mask : tb.szm = 2 ^ level - 1
  least : segsz ≤ tb.nactive
  slots : tb.nactive ≤ tb.nslots

def SizeOk (tb : DbTableHash Obj) : Prop := ∃ level, SizedAt level tb

theorem mask_half : (2 ^ level - 1) >>> 1 = 2 ^ (level - 1) - 1 := by
  cases level with
  | zero => rfl
  | succ level =>
    rw [Nat.add_sub_cancel]
    omega

theorem mask_double : (2 ^ level - 1) <<< 1 ||| 1 = 2 ^ (level + 1) - 1 := by
  have positive := Nat.two_pow_pos level
  have sum := Nat.two_pow_add_eq_or_of_lt (by decide : 1 < 2 ^ 1) (2 ^ level - 1)
  rw [Nat.shiftLeft_eq, Nat.mul_comm, ← sum]
  omega

theorem SizedAt.hashToIx_eq (sizedAt : SizedAt level tb) :
    hashToIx tb hval = slotOf level tb.nactive hval := by
  simp only [hashToIx, slotOf, sizedAt.mask, mask_half, Nat.and_two_pow_sub_one_eq_mod]
  by_cases inside : hval % 2 ^ level < tb.nactive
  · rw [if_neg (by omega), if_pos inside]
  · rw [if_pos (by omega), if_neg inside, sizedAt.sized.double,
      Nat.mod_mod_of_dvd _ (Dvd.intro_left 2 rfl)]

theorem SizeOk.hashToIx_lt (ok : SizeOk tb) : hashToIx tb hval < tb.nactive := by
  obtain ⟨level, sizedAt⟩ := ok
  rw [sizedAt.hashToIx_eq]
  exact slotOf_lt sizedAt.sized

theorem ensureSlot_same : ∃ nslots bucket, ensureSlot tb nactive = { tb with nslots, bucket } := by
  unfold ensureSlot
  split
  · exact ⟨_, _, rfl⟩
  · exact ⟨tb.nslots, tb.bucket, rfl⟩

/-- A new segment changes no active bucket. -/
theorem ensureSlot_bucket (active : ix < tb.nactive) :
    (ensureSlot tb tb.nactive).bucket ix = tb.bucket ix := by
  unfold ensureSlot
  split
  · exact if_neg (by omega)
  · rfl

section

variable (sizedAt : SizedAt level tb)

include sizedAt

theorem SizedAt.ensureSlot :
    SizedAt level (ensureSlot tb tb.nactive) ∧ tb.nactive < (ensureSlot tb tb.nactive).nslots := by
  have slots := sizedAt.slots
  unfold Ets.ensureSlot
  split
  case isTrue last =>
    have more : tb.nactive < tb.nslots + segsz := by unfold segsz; omega
    exact ⟨⟨sizedAt.sized, sizedAt.mask, sizedAt.least, more.le⟩, more⟩
  case isFalse inner => exact ⟨sizedAt, by omega⟩

theorem SizedAt.splitSource_eq : splitSource tb tb.nactive =
      (splitSlot level tb.nactive, 2 ^ growLevel level tb.nactive - 1) := by
  have positive := Nat.two_pow_pos level
  have below := sizedAt.sized.below
  unfold splitSource splitSlot growLevel
  rw [sizedAt.mask, mask_half, mask_double, Nat.and_two_pow_sub_one_eq_mod]
  by_cases inner : tb.nactive < 2 ^ level
  · rw [if_pos (by omega), if_pos inner]
  · have full : tb.nactive = 2 ^ level := by omega
    rw [if_neg (by omega), if_neg inner, Nat.add_sub_cancel, full, Nat.mod_self]

/-- `grow` gives up, only adds a segment, or splits a bucket. -/
theorem SizedAt.grow_cases :
    grow tb tb.nactive room = tb ∨ grow tb tb.nactive room = Ets.ensureSlot tb tb.nactive ∨
      tb.ref = 0 ∧ grow tb tb.nactive room = splitInto (Ets.ensureSlot tb tb.nactive) tb.nactive
        (splitSlot level tb.nactive) (2 ^ growLevel level tb.nactive - 1) := by
  unfold grow
  rw [if_neg (by simp)]
  split
  · exact .inl rfl
  right
  obtain ⟨nslots, bucket, same⟩ := ensureSlot_same
  have source := sizedAt.ensureSlot.1.splitSource_eq
  have active : (Ets.ensureSlot tb tb.nactive).nactive = tb.nactive := by rw [same]
  rw [active] at source
  have fixed : isFixed (Ets.ensureSlot tb tb.nactive) = isFixed tb := by rw [same]; rfl
  simp only [source, fixed]
  by_cases unfixed : tb.ref = 0
  · exact .inr ⟨unfixed, by simp [isFixed, unfixed]⟩
  · exact .inl (by simp [isFixed, unfixed])

theorem splitInto_mask :
    (splitInto tb tb.nactive (splitSlot level tb.nactive)
      (2 ^ growLevel level tb.nactive - 1)).szm =
      2 ^ growLevel level tb.nactive - 1 := by
  unfold splitInto
  split
  · rfl
  case isFalse inner =>
    -- only a full table begins again at the first bucket
    have room : tb.nactive < 2 ^ level := by
      by_contra full
      have same : tb.nactive = 2 ^ level :=
        Nat.le_antisymm sizedAt.sized.below (Nat.le_of_not_lt full)
      rw [splitSlot, growLevel, if_neg full, Nat.add_sub_cancel, same, Nat.mod_self] at inner
      exact inner rfl
    rw [sizedAt.mask, growLevel, if_pos room]

theorem SizedAt.splitInto (room : tb.nactive < tb.nslots) :
    SizedAt (growLevel level tb.nactive) (splitInto tb tb.nactive (splitSlot level tb.nactive)
      (2 ^ growLevel level tb.nactive - 1)) :=
  ⟨sizedAt.sized.grow, splitInto_mask sizedAt, sizedAt.least.trans (Nat.le_succ _), room⟩

end

theorem SizeOk.grow (ok : SizeOk tb) (room : Bool) : SizeOk (grow tb tb.nactive room) := by
  obtain ⟨level, sizedAt⟩ := ok
  obtain ⟨extended, inside⟩ := sizedAt.ensureSlot
  rcases sizedAt.grow_cases with same | same | ⟨_, same⟩
  · rw [same]
    exact ⟨level, sizedAt⟩
  · rw [same]
    exact ⟨level, extended⟩
  · rw [same]
    obtain ⟨nslots, bucket, shape⟩ := ensureSlot_same
    rw [shape] at extended inside ⊢
    exact ⟨_, extended.splitInto inside⟩

/-- `shrink` gives up or joins the top bucket to the one it was split from. -/
theorem SizedAt.shrink_cases (sizedAt : SizedAt level tb) : shrink tb tb.nactive = tb ∨
      tb.ref = 0 ∧ shrink tb tb.nactive =
        let srcIx := tb.nactive - 1
        let dstIx := srcIx % 2 ^ (level - 1)
        let joined := (tb.bucket srcIx).filter HashDbTerm.isLive ++ tb.bucket dstIx
        { tb with
          bucket := Function.update (Function.update tb.bucket dstIx joined) srcIx []
          nactive := srcIx
          szm := if dstIx = 0 then 2 ^ (level - 1) - 1 else 2 ^ level - 1
          nslots := if tb.nslots - srcIx ≥ segsz then tb.nslots - segsz else tb.nslots } := by
  unfold shrink
  rw [if_neg (by simp)]
  simp only [sizedAt.mask, mask_half, Nat.and_two_pow_sub_one_eq_mod, isFixed]
  by_cases unfixed : tb.ref = 0
  · right
    refine ⟨unfixed, ?_⟩
    rw [if_neg (by simp [unfixed])]
    simp only [setBucket, sizedAt.mask]
  · exact .inl (by simp [unfixed])

/-- The size after the top bucket is gone. -/
theorem SizedAt.shrink (sizedAt : SizedAt level tb) (active : tb.nactive = count + 1)
    (large : segsz < tb.nactive) (bucket : Nat → List (HashDbTerm Obj)) :
    SizedAt (shrinkLevel level (count + 1)) { tb with
      bucket
      nactive := tb.nactive - 1
      szm := if (tb.nactive - 1) % 2 ^ (level - 1) = 0 then 2 ^ (level - 1) - 1 else 2 ^ level - 1
      nslots := if tb.nslots - (tb.nactive - 1) ≥ segsz then tb.nslots - segsz
        else tb.nslots } := by
  have sized := sizedAt.sized
  have slots := sizedAt.slots
  rw [active] at sized large slots
  have lower := (sized.shrink (by unfold segsz at large; omega)).1
  refine ⟨?_, ?_, ?_, ?_⟩
  · simpa [active] using lower
  · simp only [active, shrinkLevel]
    split <;> rfl
  · dsimp only
    omega
  · dsimp only
    split <;> omega

theorem SizeOk.shrink (ok : SizeOk tb) (large : segsz < tb.nactive) :
    SizeOk (shrink tb tb.nactive) := by
  obtain ⟨level, sizedAt⟩ := ok
  rcases sizedAt.shrink_cases with same | ⟨_, same⟩
  · rw [same]
    exact ⟨level, sizedAt⟩
  · rw [same]
    obtain ⟨count, active⟩ : ∃ count, tb.nactive = count + 1 := ⟨tb.nactive - 1, by omega⟩
    exact ⟨_, sizedAt.shrink active large _⟩

/-- A property that looks at the size only, and holds of an empty table. -/
structure SizeOnly (P : DbTableHash Obj → Prop) : Prop where
  touch : ∀ tb nitems ref fixations bucket fixdel, P tb →
    P { tb with nitems, ref, fixations, bucket, fixdel }
  grow : ∀ tb room, P tb → P (grow tb tb.nactive room)
  shrink : ∀ tb, P tb → segsz < tb.nactive → P (shrink tb tb.nactive)
  create : ∀ tb, P tb → P (dbCreateHash tb)

theorem sizeOk_create : SizeOk (dbCreateHash tb) :=
  ⟨8, ⟨by decide, (by decide : 2 ^ 7 < 256), (by decide : 256 ≤ 2 ^ 8)⟩, rfl, le_rfl, le_rfl⟩

theorem sizeOk_sizeOnly : SizeOnly (@SizeOk Obj) := by
  constructor
  · rintro tb nitems ref fixations bucket fixdel ⟨level, sizedAt⟩
    exact ⟨level, sizedAt.sized, sizedAt.mask, sizedAt.least, sizedAt.slots⟩
  · intro tb room ok
    exact ok.grow room
  · intro tb ok large
    exact ok.shrink large
  · intro tb _
    exact sizeOk_create

namespace SizeOnly

variable {P : DbTableHash Obj → Prop} (only : SizeOnly P)

theorem holds_ite [Decidable condition] (yes : P first) (no : P second) :
    P (if condition then first else second) := by
  split
  · exact yes
  · exact no

theorem foldl (each : ∀ tb ix, P tb → P (step tb ix)) (slots : List Nat) (holds : P tb) :
    P (slots.foldl step tb) := by
  induction slots generalizing tb with
  | nil => exact holds
  | cons ix slots ih => exact ih (each tb ix holds)

include only

section

variable (holds : P tb)

include holds

theorem setBucket (ix : Nat) (chain : List (HashDbTerm Obj)) :
    P (setBucket tb ix chain) := only.touch tb _ _ _ _ _ holds

theorem tryShrink : P (tryShrink tb) := by
  unfold Ets.tryShrink
  split
  case isTrue small => exact only.shrink tb holds small.1
  case isFalse => exact holds

theorem tryGrow (room : Bool) : P (tryGrow tb room) := by
  unfold Ets.tryGrow
  split
  · exact only.grow tb room holds
  · exact holds

theorem finishDeletion (ix : Nat) (deletion : Deletion Obj) :
    P (finishDeletion tb ix deletion) := by
  unfold Ets.finishDeletion addNitems
  split
  · exact only.tryShrink (only.touch tb _ _ _ _ _ holds)
  · exact only.touch tb _ _ _ _ _ holds

theorem linkNew (ix hval : Nat) (obj : Obj) (passed rest : List (HashDbTerm Obj)) (room : Bool) :
    P (linkNew tb ix hval obj passed rest room) :=
  only.tryGrow (only.touch tb _ _ _ _ _ holds) room

theorem dbUnfixTableHash : P (dbUnfixTableHash tb) := by
  unfold Ets.dbUnfixTableHash
  split
  · exact holds
  · refine only.touch _ _ _ _ _ _ (foldl (fun tb ix holds => ?_) tb.fixdel holds)
    unfold purgeSlot
    split
    · exact only.setBucket holds _ _
    · exact holds

theorem unfixTableLocked (pid : Nat) : P (unfixTableLocked tb pid) := by
  have dropped : P (releaseFixation tb pid) := by
    unfold releaseFixation
    split
    · exact only.touch tb _ _ _ _ _ holds
    · exact holds
  exact holds_ite (only.dbUnfixTableHash dropped) dropped

theorem localUnfixTable : P (localUnfixTable tb) := by
  unfold Ets.localUnfixTable
  dsimp only
  split
  · exact only.dbUnfixTableHash (only.touch tb _ _ _ _ _ holds)
  · exact only.touch tb _ _ _ _ _ holds

end

theorem deleteSlots (accept : Obj → Bool) (fixatedByMe : Nat) (trapping : Bool) (slots : List Nat)
    (holds : P tb) (scan : Scan) : P (deleteSlots accept fixatedByMe trapping slots tb scan).1 := by
  induction slots generalizing tb scan with
  | nil => exact holds
  | cons slotIx rest ih =>
    unfold Ets.deleteSlots
    cases rest with
    | nil => exact only.touch tb _ _ _ _ _ holds
    | cons nextIx rest =>
      dsimp only
      split
      · exact only.touch tb _ _ _ _ _ holds
      · exact ih (only.touch tb _ _ _ _ _ holds) _

theorem finishSelectDelete (holds : P result.1) : P (finishSelectDelete result).1 := by
  obtain ⟨tb, scan, trap⟩ := result
  cases trap with
  | some slotIx => exact holds
  | none =>
    unfold Ets.finishSelectDelete
    dsimp only
    split
    · exact only.tryShrink holds
    · exact holds

variable [DecidableEq Key] (ops : HashOps Key Obj) (smp : Bool)

section

variable (holds : P tb)

include holds

theorem dbPutHash [DecidableEq Obj] (obj : Obj) (keyClashFail room : Bool) :
    P (dbPutHash ops tb obj keyClashFail room).1 := by
  unfold Ets.dbPutHash
  dsimp only
  split
  · exact only.linkNew holds _ _ _ _ _ _
  split
  · split
    · exact only.touch tb _ _ _ _ _ holds
    split
    · exact holds
    · exact only.setBucket holds _ _
  · split
    · split
      · exact holds
      · exact only.linkNew holds _ _ _ _ _ _
    split
    · split
      · exact only.linkNew holds _ _ _ _ _ _
      split
      · exact only.touch tb _ _ _ _ _ holds
      · exact holds
    · exact only.linkNew holds _ _ _ _ _ _

theorem dbTakeHash (key : Key) : P (dbTakeHash ops tb key).1 := by
  unfold Ets.dbTakeHash
  dsimp only
  split
  · exact holds
  · exact only.finishDeletion holds _ _

theorem dbUpdateHash (key : Key) (default : Option Obj) (change : Obj → Obj × DbError)
    (room : Bool) :
    P (dbUpdateHash ops tb key default change room).1 := by
  unfold Ets.dbUpdateHash
  split
  · exact holds
  split
  · exact holds
  case h_2 next handle found =>
    have kept : P next := by
      unfold dbLookupDbtermHash at found
      dsimp only at found
      split at found
      · cases found
        exact only.setBucket holds _ _
      · cases found
      · split at found
        · cases found
          exact holds
        split at found
        · cases found
        · cases found
          exact only.touch tb _ _ _ _ _ holds
    unfold dbFinalizeDbtermHash
    dsimp only
    split
    · apply only.tryShrink
      split <;> exact only.touch next _ _ _ _ _ kept
    split
    · exact only.tryGrow (only.touch next _ _ _ _ _ kept) room
    · exact only.setBucket kept _ _

theorem etsSelectDelete (pid : Nat) (spec : Option (MatchSpec Key Obj)) :
    P (etsSelectDelete ops smp tb pid spec).1 := by
  have search (tb : DbTableHash Obj) (holds : P tb) : P (dbSelectDeleteHash ops smp tb spec).1 := by
    unfold dbSelectDeleteHash
    split
    · exact holds
    dsimp only
    split
    · exact holds
    · exact only.finishSelectDelete (only.deleteSlots _ _ _ _ holds _)
  have started : P (if iterationSafety smp pid tb = .iterUnsafe then localFixTable tb else tb) :=
    holds_ite (only.touch tb _ _ _ _ _ holds) holds
  have searched := search _ started
  exact holds_ite (only.localUnfixTable (holds_ite (only.touch _ _ _ _ _ _ searched) searched))
    (holds_ite (only.touch _ _ _ _ _ _ searched) searched)

theorem etsSelectDeleteContinue (pid : Nat) (accept : Obj → Bool) (slotIx got : Nat) :
    P (etsSelectDeleteContinue smp tb pid accept slotIx got).1 := by
  have search : P (dbSelectDeleteContinueHash smp pid tb accept slotIx got).1 := by
    unfold dbSelectDeleteContinueHash
    dsimp only
    split
    · split
      · exact only.tryShrink holds
      · exact holds
    · exact only.finishSelectDelete (only.deleteSlots _ _ _ _ holds _)
  unfold Ets.etsSelectDeleteContinue
  dsimp only
  split
  · exact only.unfixTableLocked search pid
  · exact search

theorem dbMarkAllDeletedHash : P (dbMarkAllDeletedHash tb) := by
  refine only.touch _ _ _ _ _ _ (foldl (fun tb ix holds => ?_) _ holds)
  unfold markSlotDeleted
  split
  · exact holds
  · exact only.touch tb _ _ _ _ _ holds

/-- What looks at the size only is kept by every step. -/
theorem hashStep [DecidableEq Obj] (op : HashOp Key Obj) : P (hashStep ops smp tb op).1 := by
  cases op with
  | put obj keyClashFail room => exact only.dbPutHash ops holds obj keyClashFail room
  | get key => exact holds
  | erase | eraseObject => exact only.finishDeletion holds _ _
  | take key => exact only.dbTakeHash ops holds key
  | selectDelete pid spec => exact only.etsSelectDelete ops smp holds pid spec
  | selectDeleteContinue pid accept slotIx got =>
    exact only.etsSelectDeleteContinue smp holds pid accept slotIx got
  | update key default change room => exact only.dbUpdateHash ops holds key default change room
  | deleteAllObjects =>
    unfold Ets.hashStep dbDeleteAllObjectsHash
    dsimp only
    split
    · exact only.dbMarkAllDeletedHash holds
    · exact only.touch _ _ _ _ _ _ (only.create tb holds)
  | markAllDeleted => exact only.dbMarkAllDeletedHash holds
  | fixTable pid => exact only.touch tb _ _ _ _ _ holds
  | unfixTable pid =>
    unfold Ets.hashStep etsSafeFixtable
    dsimp only
    split
    case isTrue never => cases never
    split
    · exact only.unfixTableLocked holds pid
    · exact holds
  | grow room => exact only.grow tb room holds
  | shrink =>
    unfold Ets.hashStep
    dsimp only
    split
    case isTrue large => exact only.shrink tb holds large
    case isFalse => exact holds

end

end SizeOnly

end Otp.Ets
