import Otp.Ets.HashDelete
import Otp.Ets.HashSize

/-! The invariant of a hash table, the objects it holds for each key, and that
resizing keeps both. -/

namespace Otp.Ets

open List hiding count
open Function Otp.Library

variable {Key Obj : Type}

/-- Every bucket is in order and holds what hashes to it. Pseudo-deleted nodes are
in slots that are registered, and there are none unless the table is fixed. -/
structure HashOk (ops : HashOps Key Obj) (tb : DbTableHash Obj) : Prop where
  size : SizeOk tb
  chains : ∀ ix < tb.nactive, ChainOk ops tb.type (tb.bucket ix)
  placed : ∀ ix < tb.nactive, ∀ b ∈ tb.bucket ix, keySlot ops tb (nodeKey ops b) = ix
  registered : ∀ ix < tb.nactive, ∀ b ∈ tb.bucket ix, b.isLive = false → ix ∈ tb.fixdel
  idle : tb.ref = 0 → tb.fixdel = []

section

variable {ops : HashOps Key Obj} {tb : DbTableHash Obj}

theorem HashOk.slot_lt (ok : HashOk ops tb) (key : Key) : keySlot ops tb key < tb.nactive :=
  ok.size.hashToIx_lt

theorem HashOk.keyChain_ok (ok : HashOk ops tb) (key : Key) :
    ChainOk ops tb.type (keyChain ops tb key) := ok.chains _ (ok.slot_lt key)

/-- Without fixation every node is live, and stored under the hash of its key. -/
theorem HashOk.hashed (ok : HashOk ops tb) (free : tb.ref = 0) (active : ix < tb.nactive)
    (member : b ∈ tb.bucket ix) : b.isLive = true ∧ b.hvalue = makeHash ops (nodeKey ops b) := by
  have live : b.isLive = true := by
    by_contra dead
    have entry := ok.registered ix active b member (Bool.eq_false_iff.mpr dead)
    rw [ok.idle free] at entry
    cases entry
  exact ⟨live, (ok.chains ix active).hashed b member live⟩

theorem hashOk_create : HashOk ops (dbCreateHash tb) where
  size := sizeOk_create
  chains _ _ := chainOk_nil
  placed _ _ _ member := by cases member
  registered _ _ _ member := by cases member
  idle _ := rfl

/-- A table with another bucket in one slot. -/
abbrev withChain (tb : DbTableHash Obj) (ix : Nat) (chain : List (HashDbTerm Obj))
    (fixdel : List Nat) (nitems : Int) : DbTableHash Obj :=
  { tb with bucket := update tb.bucket ix chain, fixdel, nitems }

/-- The slot of a bucket that has changed is registered if it has to be. -/
structure Registers (tb : DbTableHash Obj) (ix : Nat) (chain : List (HashDbTerm Obj))
    (fixdel : List Nat) : Prop where
  dead : ∀ b ∈ chain, b.isLive = false → ix ∈ fixdel
  grows : tb.fixdel ⊆ fixdel
  idle : tb.ref = 0 → fixdel = tb.fixdel

theorem forall_update {P : Nat → List (HashDbTerm Obj) → Prop} (new : P slotIx chain)
    (old : ∀ ix < count, P ix (bucket ix)) :
    ∀ ix < count, P ix (update bucket slotIx chain ix) := by
  intro ix active
  by_cases here : ix = slotIx
  · rw [here, update_self]
    exact new
  · rw [update_of_ne here]
    exact old ix active

theorem HashOk.withChain (ok : HashOk ops tb) (chainOk : ChainOk ops tb.type chain)
    (placed : ∀ b ∈ chain, keySlot ops tb (nodeKey ops b) = slotIx)
    (registers : Registers tb slotIx chain fixdel) (nitems : Int) :
    HashOk ops (withChain tb slotIx chain fixdel nitems) where
  size := sizeOk_sizeOnly.touch tb _ _ _ _ _ ok.size
  chains := forall_update (P := fun _ chain => ChainOk ops tb.type chain) chainOk ok.chains
  placed := forall_update
    (P := fun ix chain => ∀ b ∈ chain, keySlot ops tb (nodeKey ops b) = ix) placed ok.placed
  registered := forall_update
    (P := fun ix chain => ∀ b ∈ chain, b.isLive = false → ix ∈ fixdel) registers.dead
    fun ix active b member dead => registers.grows (ok.registered ix active b member dead)
  idle free := (registers.idle free).trans (ok.idle free)

theorem HashOk.deletes (ok : HashOk ops tb) (active : ix < tb.nactive)
    (deletes : Deletes tb.ref ix (tb.bucket ix) tb.fixdel chain fixdel) (nitems : Int) :
    HashOk ops (Ets.withChain tb ix chain fixdel nitems) := by
  refine ok.withChain ((ok.chains ix active).thin deletes.thins) ?_ ⟨?_, deletes.grows,
    deletes.idle⟩ _
  · intro b member
    have kept : nodeKey ops b ∈ (tb.bucket ix).map (nodeKey ops) :=
      (deletes.thins.keys_sublist).subset (mem_map_of_mem member)
    obtain ⟨old, there, same⟩ := mem_map.mp kept
    rw [← same]
    exact ok.placed ix active old there
  · intro b member dead
    rcases deletes.thins.mem_or member with old | ⟨entry, _⟩
    · exact deletes.grows (ok.registered ix active b old dead)
    · exact entry

/-- The two chains of a split bucket, whatever the order of its nodes. -/
theorem splitBucket_eq {szm : Nat} (distinct : low ≠ high)
    (two : ∀ p ∈ chain, p.isLive = true ∧ (p.hvalue &&& szm = low ∨ p.hvalue &&& szm = high))
    (walked other : List (HashDbTerm Obj)) :
    splitBucket szm low false walked other chain =
      (walked ++ chain.filter fun p => p.hvalue &&& szm = low,
          other ++ chain.filter fun p => p.hvalue &&& szm = high) ∧
      splitBucket szm high true walked other chain =
        (other ++ chain.filter fun p => p.hvalue &&& szm = low,
          walked ++ chain.filter fun p => p.hvalue &&& szm = high) := by
  induction chain generalizing walked other with
  | nil => simp [splitBucket]
  | cons p rest ih =>
    obtain ⟨⟨live, side⟩, later⟩ := forall_mem_cons.mp two
    have valid : p.hvalue ≠ invalidHash := (isLive_iff p).mp live
    rcases side with here | here
    · simp [splitBucket, valid, here, distinct, ih later]
    · simp [splitBucket, valid, here, distinct.symm, ih later]

theorem SizedAt.keySlot_eq (sizedAt : SizedAt level tb) (ops : HashOps Key Obj) (key : Key) :
    keySlot ops tb key = slotOf level tb.nactive (makeHash ops key) := sizedAt.hashToIx_eq

/-- A key moves to the new bucket or stays where it is. -/
theorem keySlot_splitInto (sizedAt : SizedAt level tb) (room : tb.nactive < tb.nslots)
    (ops : HashOps Key Obj) (key : Key) :
    keySlot ops (splitInto tb tb.nactive (splitSlot level tb.nactive)
        (2 ^ growLevel level tb.nactive - 1)) key =
      if makeHash ops key % 2 ^ growLevel level tb.nactive = tb.nactive then tb.nactive
      else keySlot ops tb key := by
  rw [sizedAt.keySlot_eq, ← slotOf_grow sizedAt.sized]
  exact (sizedAt.splitInto room).keySlot_eq ops key

/-- Where the nodes of the bucket that is split belong from then on. -/
theorem HashOk.split_side (ok : HashOk ops tb) (sizedAt : SizedAt level tb) (free : tb.ref = 0)
    (member : b ∈ tb.bucket (splitSlot level tb.nactive)) :
    b.isLive = true ∧ b.hvalue = makeHash ops (nodeKey ops b) ∧
      (b.hvalue % 2 ^ growLevel level tb.nactive = splitSlot level tb.nactive ∨
        b.hvalue % 2 ^ growLevel level tb.nactive = tb.nactive) := by
  have lower := sizedAt.sized.splitSlot_lt
  obtain ⟨live, hash⟩ := ok.hashed free lower member
  have here := ok.placed _ lower b member
  rw [sizedAt.keySlot_eq, ← hash] at here
  exact ⟨live, hash, slotOf_split sizedAt.sized here⟩

theorem HashOk.splitInto_bucket (ok : HashOk ops tb) (sizedAt : SizedAt level tb)
    (room : tb.nactive < tb.nslots) (free : tb.ref = 0) (active : ix < tb.nactive + 1) :
    (splitInto tb tb.nactive (splitSlot level tb.nactive)
      (2 ^ growLevel level tb.nactive - 1)).bucket ix =
      (tb.bucket (if ix = tb.nactive then splitSlot level tb.nactive else ix)).filter fun b =>
        keySlot ops (splitInto tb tb.nactive (splitSlot level tb.nactive)
          (2 ^ growLevel level tb.nactive - 1)) (nodeKey ops b) = ix := by
  have lower : splitSlot level tb.nactive < tb.nactive := sizedAt.sized.splitSlot_lt
  have parts := (splitBucket_eq lower.ne (fun b member => by
      obtain ⟨live, _, side⟩ := ok.split_side sizedAt free member
      rw [Nat.and_two_pow_sub_one_eq_mod]
      exact ⟨live, side⟩) [] []).1
  simp only [keySlot_splitInto sizedAt room]
  dsimp only [splitInto, setBucket]
  rw [parts]
  by_cases top : ix = tb.nactive
  · rw [top, update_self, if_pos rfl]
    refine filter_congr fun b member => ?_
    obtain ⟨_, hash, _⟩ := ok.split_side sizedAt free member
    rw [← hash, ok.placed _ lower b member]
    by_cases moves : b.hvalue % 2 ^ growLevel level tb.nactive = tb.nactive
    · simp [moves]
    · simp [lower.ne]
  rw [update_of_ne top, if_neg top]
  by_cases low : ix = splitSlot level tb.nactive
  · rw [low, update_self]
    refine filter_congr fun b member => ?_
    obtain ⟨_, hash, side⟩ := ok.split_side sizedAt free member
    rw [← hash, ok.placed _ lower b member]
    rcases side with stays | moves
    · simp [stays, lower.ne]
    · simp [moves]
  · rw [update_of_ne low, eq_comm, filter_eq_self]
    intro b member
    have here := ok.placed ix (Nat.lt_of_le_of_ne (Nat.lt_succ_iff.mp active) top) b member
    rw [if_neg, here, decide_eq_true rfl]
    intro moves
    rw [sizedAt.keySlot_eq, slotOf_new sizedAt.sized moves] at here
    exact low here.symm

/-- The keys of the top bucket move to the one that it was split from. -/
theorem keySlot_shrink (sizedAt : SizedAt level tb) (active : tb.nactive = count + 1)
    (large : 1 < count) (smaller : SizedAt (shrinkLevel level (count + 1)) tb')
    (active' : tb'.nactive = count) (ops : HashOps Key Obj) (key : Key) :
    keySlot ops tb' key =
      if keySlot ops tb key = count then count % 2 ^ (level - 1) else keySlot ops tb key := by
  have sized := sizedAt.sized
  rw [active] at sized
  obtain ⟨lower, back⟩ := sized.shrink large
  have inside := @slotOf_lt _ _ (makeHash ops key) lower
  have slots := @slotOf_grow _ _ (makeHash ops key) lower
  rw [back] at slots
  rw [sizedAt.keySlot_eq, smaller.keySlot_eq, active, active', slots]
  by_cases moves : makeHash ops key % 2 ^ level = count
  · rw [if_pos moves, if_pos rfl, slotOf_new lower (back.symm ▸ moves), splitSlot, back]
  · rw [if_neg moves, if_neg inside.ne]

theorem foldl_purgeSlot {slots : List Nat} {tb : DbTableHash Obj} :
    slots.foldl purgeSlot tb = { tb with
      bucket := fun ix =>
        if ix ∈ slots ∧ ix < tb.nactive then (tb.bucket ix).filter HashDbTerm.isLive
        else tb.bucket ix } := by
  induction slots generalizing tb with
  | nil => simp
  | cons slot slots ih =>
    rw [foldl_cons, ih]
    unfold purgeSlot
    by_cases active : slot < tb.nactive
    · simp only [if_pos active, setBucket]
      congr 1
      funext ix
      by_cases here : ix = slot
      · simp [here, active]
      · simp [here]
    · simp only [if_neg active]
      congr 1
      funext ix
      by_cases here : ix = slot
      · simp [here, active]
      · simp [here]

theorem liveObjs_filter {nodes : List (HashDbTerm Obj)} :
    liveObjs (nodes.filter HashDbTerm.isLive) = liveObjs nodes := by
  simp [liveObjs]

end

variable [DecidableEq Key]

/-- The objects of a key, the oldest first. -/
def contents (ops : HashOps Key Obj) (tb : DbTableHash Obj) (key : Key) : List Obj :=
  (held ops key (keyChain ops tb key)).reverse

/-- The table holds what the store has. -/
structure Holds (ops : HashOps Key Obj) (tb : DbTableHash Obj) (store : Key → List Obj) : Prop where
  ok : HashOk ops tb
  same : ∀ key, contents ops tb key = store key

variable {ops : HashOps Key Obj} {tb : DbTableHash Obj} {store : Key → List Obj}

theorem holds_create : Holds ops (dbCreateHash tb) fun _ => [] := ⟨hashOk_create, fun _ => rfl⟩

theorem contents_withChain (ops : HashOps Key Obj) (tb : DbTableHash Obj) (ix : Nat)
    (chain : List (HashDbTerm Obj)) (fixdel : List Nat) (nitems : Int) (key : Key) :
    contents ops (withChain tb ix chain fixdel nitems) key =
      if keySlot ops tb key = ix then (held ops key chain).reverse else contents ops tb key := by
  have slot : keySlot ops (withChain tb ix chain fixdel nitems) key = keySlot ops tb key := rfl
  unfold contents keyChain
  rw [slot]
  dsimp only [withChain]
  by_cases here : keySlot ops tb key = ix
  · rw [here, update_self, if_pos rfl]
  · rw [update_of_ne here, if_neg here]

section

variable (holds : Holds ops tb store)

include holds

/-- A change to the nodes of one key. -/
theorem Holds.regroup
    (regroups : Regroups ops key (keyChain ops tb key) chain
      (nodesOf ops key (keyChain ops tb key)) group)
    (chainOk : ChainOk ops tb.type chain)
    (registers : Registers tb (keySlot ops tb key) chain fixdel) (nitems : Int) :
    Holds ops (withChain tb (keySlot ops tb key) chain fixdel nitems)
      (update store key (liveObjs group).reverse) := by
  constructor
  · refine holds.ok.withChain chainOk ?_ registers nitems
    intro b member
    rcases regroups.mem_or member with old | here
    · exact holds.ok.placed _ (holds.ok.slot_lt key) b old
    · obtain ⟨_, _, _, _, new⟩ := regroups
      rw [new b here]
  · intro other
    rw [contents_withChain]
    by_cases own : other = key
    · subst own
      rw [if_pos rfl, update_self, held, regroups.nodesOf_new]
    · rw [update_of_ne own, ← holds.same]
      split
      case isTrue here => rw [held, regroups.nodesOf_other own, contents, keyChain, keyChain, here]
      case isFalse => rfl

/-- The nodes of every new bucket are those that belong there of the bucket
where they were before. -/
theorem Holds.scatter (free : tb.ref = 0) (size : SizeOk tb') (type : tb'.type = tb.type)
    (fixdel : tb'.fixdel = tb.fixdel) (source : Nat → Nat)
    (bucket : ∀ ix < tb'.nactive, tb'.bucket ix = (tb.bucket (source ix)).filter fun b =>
      keySlot ops tb' (nodeKey ops b) = ix)
    (moved : ∀ key, source (keySlot ops tb' key) = keySlot ops tb key)
    (active : ∀ ix < tb'.nactive, source ix < tb.nactive) : Holds ops tb' store := by
  constructor
  · refine ⟨size, ?_, ?_, ?_, fun _ => fixdel.trans (holds.ok.idle free)⟩
    · intro ix inside
      rw [bucket ix inside, type]
      exact (holds.ok.chains _ (active ix inside)).thin (.filter True _ _)
    · intro ix inside b member
      rw [bucket ix inside] at member
      exact of_decide_eq_true (mem_filter.mp member).2
    · intro ix inside b member dead
      rw [bucket ix inside] at member
      have live := (holds.ok.hashed free (active ix inside) (mem_filter.mp member).1).1
      rw [live] at dead
      cases dead
  · intro key
    have inside : keySlot ops tb' key < tb'.nactive := size.hashToIx_lt
    rw [← holds.same key, contents, contents, held, keyChain, bucket _ inside, moved]
    unfold nodesOf
    rw [filter_filter]
    congr 3
    funext b
    by_cases own : nodeKey ops b = key
    · simp [own]
    · simp [own]

theorem Holds.ensureSlot : Holds ops (ensureSlot tb tb.nactive) store := by
  obtain ⟨level, sizedAt⟩ := holds.ok.size
  have size : SizeOk (Ets.ensureSlot tb tb.nactive) := ⟨level, sizedAt.ensureSlot.1⟩
  have same : ∀ ix < tb.nactive, (Ets.ensureSlot tb tb.nactive).bucket ix = tb.bucket ix :=
    fun _ active => ensureSlot_bucket active
  obtain ⟨nslots, bucket, shape⟩ := ensureSlot_same
  rw [shape] at size same ⊢
  have old := holds.ok
  refine ⟨⟨size, ?_, ?_, ?_, old.idle⟩, ?_⟩
  · intro ix active
    exact same ix active ▸ old.chains ix active
  · intro ix active
    exact same ix active ▸ old.placed ix active
  · intro ix active
    exact same ix active ▸ old.registered ix active
  · intro key
    rw [← holds.same key]
    exact congrArg (fun chain => (held ops key chain).reverse) (same _ (old.slot_lt key))

theorem Holds.splitInto (sizedAt : SizedAt level tb) (room : tb.nactive < tb.nslots)
    (free : tb.ref = 0) :
    Holds ops (splitInto tb tb.nactive (splitSlot level tb.nactive)
      (2 ^ growLevel level tb.nactive - 1)) store := by
  refine holds.scatter free ⟨_, sizedAt.splitInto room⟩ rfl rfl
    (fun ix => if ix = tb.nactive then splitSlot level tb.nactive else ix)
    (fun ix active => holds.ok.splitInto_bucket sizedAt room free active) ?_ ?_
  · intro key
    rw [keySlot_splitInto sizedAt room]
    by_cases moves : makeHash ops key % 2 ^ growLevel level tb.nactive = tb.nactive
    · rw [if_pos moves, if_pos rfl, sizedAt.keySlot_eq, slotOf_new sizedAt.sized moves]
    · rw [if_neg moves, if_neg (holds.ok.slot_lt key).ne]
  · intro ix active
    split
    · exact sizedAt.sized.splitSlot_lt
    case isFalse inner => exact Nat.lt_of_le_of_ne (Nat.lt_succ_iff.mp active) inner

theorem Holds.grow (room : Bool) : Holds ops (grow tb tb.nactive room) store := by
  obtain ⟨level, sizedAt⟩ := holds.ok.size
  rcases sizedAt.grow_cases with same | same | ⟨free, same⟩
  · rw [same]
    exact holds
  · rw [same]
    exact holds.ensureSlot
  · have extended := holds.ensureSlot
    obtain ⟨larger, inside⟩ := sizedAt.ensureSlot
    rw [same]
    obtain ⟨nslots, bucket, shape⟩ := ensureSlot_same
    rw [shape] at extended larger inside ⊢
    exact extended.splitInto larger inside free

theorem Holds.gather (free : tb.ref = 0) (size : SizeOk tb') (type : tb'.type = tb.type)
    (fixdel : tb'.fixdel = tb.fixdel) (active : tb.nactive = count + 1)
    (active' : tb'.nactive = count) (lower : low < count)
    (bucket : ∀ ix < count, tb'.bucket ix = if ix =
      low then (tb.bucket count).filter HashDbTerm.isLive ++ tb.bucket low else tb.bucket ix)
    (moved : ∀ key, keySlot ops tb' key = if keySlot ops tb key =
      count then low else keySlot ops tb key) :
    Holds ops tb' store := by
  have top : count < tb.nactive := active ▸ Nat.lt_succ_self count
  have all : (tb.bucket count).filter HashDbTerm.isLive = tb.bucket count :=
    filter_eq_self.mpr fun b member => (holds.ok.hashed free top member).1
  rw [all] at bucket
  have within {ix : Nat} (inside : ix < count) : ix < tb.nactive := inside.trans top
  have origin {ix : Nat} {b : HashDbTerm Obj} (inside : ix < count) (member : b ∈ tb'.bucket ix) :
      (ix = low ∧ b ∈ tb.bucket count) ∨ b ∈ tb.bucket ix := by
    rw [bucket ix inside] at member
    split at member
    case isTrue here => exact (mem_append.mp member).imp (⟨here, ·⟩) (here ▸ ·)
    case isFalse => exact .inr member
  constructor
  · refine ⟨size, ?_, ?_, ?_, fun _ => fixdel.trans (holds.ok.idle free)⟩
    · intro ix inside
      rw [active'] at inside
      rw [bucket ix inside, type]
      split
      · refine (holds.ok.chains count top).append (holds.ok.chains low (within lower)) ?_
        intro key first second
        obtain ⟨b, there, rfl⟩ := mem_map.mp first
        obtain ⟨c, here, same⟩ := mem_map.mp second
        have slots := holds.ok.placed low (within lower) c here
        rw [same, holds.ok.placed count top b there] at slots
        exact lower.ne' slots
      · exact holds.ok.chains ix (within inside)
    · intro ix inside b member
      rw [active'] at inside
      rw [moved]
      rcases origin inside member with ⟨rfl, there⟩ | here
      · rw [holds.ok.placed count top b there, if_pos rfl]
      · rw [holds.ok.placed ix (within inside) b here, if_neg inside.ne]
    · intro ix inside b member dead
      rw [active'] at inside
      have live : b.isLive = true := by
        rcases origin inside member with ⟨_, there⟩ | here
        · exact (holds.ok.hashed free top there).1
        · exact (holds.ok.hashed free (within inside) here).1
      rw [live] at dead
      cases dead
  · intro key
    have none {ix : Nat} (inside : ix < tb.nactive) (other : keySlot ops tb key ≠ ix) :
        nodesOf ops key (tb.bucket ix) = [] :=
      nodesOf_none fun b member same => other (same ▸ holds.ok.placed ix inside b member)
    rw [← holds.same key]
    unfold contents held keyChain
    rw [moved]
    by_cases there : keySlot ops tb key = count
    · rw [if_pos there, bucket low lower, if_pos rfl, nodesOf_append, there,
        none (within lower) (there ▸ lower.ne'), append_nil]
    · have inside : keySlot ops tb key < count :=
        Nat.lt_of_le_of_ne (Nat.lt_succ_iff.mp ((holds.ok.slot_lt key).trans_eq active)) there
      rw [if_neg there, bucket _ inside]
      split
      case isTrue here => rw [nodesOf_append, none top there, nil_append, here]
      case isFalse => rfl

theorem Holds.shrink (large : segsz < tb.nactive) : Holds ops (shrink tb tb.nactive) store := by
  obtain ⟨level, sizedAt⟩ := holds.ok.size
  rcases sizedAt.shrink_cases with same | ⟨free, same⟩
  · rw [same]
    exact holds
  obtain ⟨count, active⟩ : ∃ count, tb.nactive = count + 1 := ⟨tb.nactive - 1, by omega⟩
  have less : 1 < count := by
    unfold segsz at large
    omega
  have sized := sizedAt.sized
  rw [active] at sized
  have lower : count % 2 ^ (level - 1) < count := by
    obtain ⟨smaller, back⟩ := sized.shrink less
    have inside := smaller.splitSlot_lt
    rwa [splitSlot, back] at inside
  have smaller := sizedAt.shrink active large (update (update tb.bucket (count % 2 ^ (level - 1))
      ((tb.bucket count).filter HashDbTerm.isLive ++ tb.bucket (count % 2 ^ (level - 1)))) count [])
  have moved := keySlot_shrink sizedAt active less smaller (by simp [active]) ops
  rw [same]
  simp only [active, Nat.add_sub_cancel] at smaller moved ⊢
  refine holds.gather free ⟨_, smaller⟩ rfl rfl active rfl lower (fun ix inside => ?_) moved
  dsimp only
  rw [update_of_ne inside.ne]
  by_cases here : ix = count % 2 ^ (level - 1)
  · rw [here, update_self, if_pos rfl]
  · rw [update_of_ne here, if_neg here]

theorem Holds.tryGrow (room : Bool) : Holds ops (tryGrow tb room) store := by
  unfold Ets.tryGrow
  split
  · exact holds.grow room
  · exact holds

theorem Holds.tryShrink : Holds ops (tryShrink tb) store := by
  unfold Ets.tryShrink
  split
  case isTrue small => exact holds.shrink small.1
  case isFalse => exact holds

theorem Holds.refix (idle : ref = 0 → tb.fixdel = []) :
    Holds ops { tb with ref, fixations } store :=
  ⟨⟨sizeOk_sizeOnly.touch tb _ _ _ _ _ holds.ok.size, holds.ok.chains, holds.ok.placed,
    holds.ok.registered, idle⟩, holds.same⟩

end

section

variable (holds : Holds ops tb store)

include holds

/-- The last unfix frees what was pseudo-deleted, and keeps the rest. -/
theorem Holds.dbUnfixTableHash (ref : Nat) (fixations : List (Nat × Nat)) :
    Holds ops (dbUnfixTableHash { tb with ref, fixations }) store := by
  unfold Ets.dbUnfixTableHash
  by_cases free : ref = 0
  · rw [if_neg (by simp [isFixed, free]), foldl_purgeSlot]
    have old := holds.ok
    refine ⟨⟨sizeOk_sizeOnly.touch tb _ _ _ _ _ old.size, ?_, ?_, ?_, fun _ => rfl⟩, ?_⟩
    · intro ix active
      dsimp only
      split
      · exact (old.chains ix active).thin (.filter True _ _)
      · exact old.chains ix active
    · intro ix active b member
      refine old.placed ix active b ?_
      dsimp only at member
      split at member
      · exact (mem_filter.mp member).1
      · exact member
    · intro ix active b member dead
      dsimp only at member
      split at member
      · rw [(mem_filter.mp member).2] at dead
        cases dead
      case isFalse outside => exact absurd ⟨old.registered ix active b member dead, active⟩ outside
    · intro key
      rw [← holds.same key]
      unfold contents keyChain held
      congr 1
      show liveObjs (nodesOf ops key (if _ then _ else _)) = _
      split
      · rw [nodesOf, filter_comm, liveObjs_filter]
        rfl
      · rfl
  · rw [if_pos (by simp [isFixed, free])]
    exact holds.refix fun zero => absurd zero free

theorem Holds.fixTableLocked (pid : Nat) : Holds ops (fixTableLocked tb pid) store :=
  holds.refix fun zero => absurd zero (Nat.succ_ne_zero _)

theorem Holds.localFixTable : Holds ops (localFixTable tb) store :=
  holds.refix fun zero => absurd zero (Nat.succ_ne_zero _)

theorem Holds.localUnfixTable : Holds ops (localUnfixTable tb) store := by
  unfold Ets.localUnfixTable
  dsimp only
  split
  · exact holds.dbUnfixTableHash _ tb.fixations
  case isFalse fixed => exact holds.refix fun zero => absurd zero fixed

theorem Holds.unfixTableLocked (pid : Nat) : Holds ops (unfixTableLocked tb pid) store := by
  have released : ∃ ref fixations, releaseFixation tb pid = { tb with ref, fixations } := by
    unfold releaseFixation
    split
    · exact ⟨_, _, rfl⟩
    · exact ⟨tb.ref, tb.fixations, rfl⟩
  obtain ⟨ref, fixations, shape⟩ := released
  unfold Ets.unfixTableLocked
  rw [shape]
  dsimp only
  split
  · exact holds.dbUnfixTableHash ref fixations
  case isFalse other =>
    refine holds.refix fun zero => ?_
    by_contra some
    exact other ⟨by simp [isFixed, zero], some⟩

theorem Holds.etsSafeFixtable (pid : Nat) (fix : Bool) :
    Holds ops (etsSafeFixtable tb pid fix) store := by
  unfold Ets.etsSafeFixtable
  split
  · exact holds.fixTableLocked pid
  · split
    · exact holds.unfixTableLocked pid
    · exact holds

end

end Otp.Ets
