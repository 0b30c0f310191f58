import Otp.Ets.HashStore

/-! Hash tables as stores: the objects of each key in the order of insertion. -/

namespace Otp.Ets

open Function List
open Otp.Library

/-- What a table is for. -/
abbrev Store (Key Obj : Type) := Key → List Obj

namespace Store

variable {Key Obj : Type} [DecidableEq Key] [DecidableEq Obj]

def put (ops : HashOps Key Obj) (type : HashType) (store : Store Key Obj) (obj : Obj)
    (keyClashFail : Bool) : Store Key Obj × DbError :=
  let key := ops.getKey obj
  if keyClashFail ∧ store key ≠ [] then (store, .badKey)
  else match type with
    | .set => (update store key [obj], .none)
    | .bag =>
      if obj ∈ store key then (store, .none)
      else (update store key (store key ++ [obj]), .none)
    | .duplicateBag => (update store key (store key ++ [obj]), .none)

def erase (store : Store Key Obj) (key : Key) : Store Key Obj := update store key []

def eraseObject (ops : HashOps Key Obj) (store : Store Key Obj) (obj : Obj) : Store Key Obj :=
  update store (ops.getKey obj) ((store (ops.getKey obj)).filter fun other => other ≠ obj)

omit [DecidableEq Key] [DecidableEq Obj] in
def selectDelete (accept : Obj → Bool) (store : Store Key Obj) : Store Key Obj :=
  fun key => (store key).filter fun obj => !accept obj

variable {ops : HashOps Key Obj} {store : Store Key Obj} {obj : Obj} {keyClashFail : Bool}

theorem put_clash (clashes : keyClashFail = true) (some : store (ops.getKey obj) ≠ []) :
    store.put ops type obj keyClashFail = (store, .badKey) := if_pos ⟨clashes, some⟩

theorem put_present (clashes : keyClashFail = false) (present : obj ∈ store (ops.getKey obj)) :
    store.put ops .bag obj keyClashFail = (store, .none) := by
  simp [put, clashes, present]

theorem put_new (allowed : keyClashFail = true → store (ops.getKey obj) = [])
    (absent : type = .bag → obj ∉ store (ops.getKey obj)) :
    store.put ops type obj keyClashFail = (update store (ops.getKey obj)
        (if type = .set then [obj] else store (ops.getKey obj) ++ [obj]), .none) := by
  have free : ¬ (keyClashFail = true ∧ store (ops.getKey obj) ≠ []) :=
    fun both => both.2 (allowed both.1)
  unfold put
  rw [if_neg free]
  cases type with
  | set => rfl
  | bag => simp [absent rfl]
  | duplicateBag => rfl

end Store

variable {Key Obj : Type} [DecidableEq Key] {ops : HashOps Key Obj} {tb : DbTableHash Obj}
  {store : Store Key Obj}

omit [DecidableEq Key] in
theorem buildTermList_eq {nodes : List (HashDbTerm Obj)} :
    buildTermList nodes = (liveObjs nodes).reverse := by
  have loop (list : List Obj) : nodes.foldl
      (fun list ptr => if ptr.hvalue ≠ invalidHash then ptr.dbterm :: list else list) list =
        (liveObjs nodes).reverse ++ list := by
    induction nodes generalizing list with
    | nil => rfl
    | cons b rest ih =>
      rw [foldl_cons, ih, liveObjs_cons]
      by_cases live : b.isLive = true
      · rw [if_pos ((isLive_iff b).mp live), if_pos live]
        simp
      · rw [if_neg (fun valid => live ((isLive_iff b).mpr valid)), if_neg live]
  exact (loop []).trans (append_nil _)

/-- `db_take_hash` returns what a lookup returns. -/
theorem dbGetHash_eq_take : dbGetHash ops tb key = (dbTakeHash ops tb key).2 := by
  unfold dbGetHash dbTakeHash
  dsimp only
  rw [span_eq_takeWhile_dropWhile]
  split
  · next none => rw [none]
  · next b rest some => rw [some]

/-- The group of a key around the range that `db_take_hash` deletes: only
pseudo-deleted nodes come before it. -/
theorem HashOk.take_group (ok : HashOk ops tb)
    (chain : keyChain ops tb key = passed ++ (b :: more) ++ bend)
    (before : ∀ q ∈ passed, liveOf ops key q = false) (here : liveOf ops key b = true)
    (inside : ∀ q ∈ more, ofKey ops key q = true) (stop : tb.type = .set ∧ more = [] ∨
      tb.type ≠ .set ∧ ∀ q rest, bend = q :: rest → ofKey ops key q = false) :
    ∃ front dead, passed = front ++ dead ∧ (∀ q ∈ dead, q.isLive = false) ∧
      Group ops key (keyChain ops tb key) front (dead ++ b :: more) bend := by
  have chainOk := ok.keyChain_ok key
  have member : b ∈ keyChain ops tb key := by
    rw [chain]
    simp
  have own : ofKey ops key b = true := by
    rw [ofKey_eq, here, Bool.true_or]
  have ends : ∀ q rest, bend = q :: rest → ofKey ops key q = false := by
    rcases stop with ⟨set, none⟩ | ⟨_, ends⟩
    · rintro q rest rfl
      have single := chainOk.single set
      rw [chain, map_append, map_append, nodup_append'] at single
      rw [Bool.eq_false_iff, Ne, chainOk.ofKey_iff (by rw [chain]; simp)]
      intro same
      refine single.2.2 (mem_append_right _ (mem_map_of_mem (mem_cons_self (a := b)))) ?_
      rw [(chainOk.ofKey_iff member key).mp own, ← same]
      exact mem_map_of_mem mem_cons_self
    · exact ends
  obtain ⟨front, dead, rfl, group⟩ := chainOk.group_around chain
    (forall_mem_cons.mpr ⟨own, inside⟩) ends (cons_ne_nil _ _)
  refine ⟨front, dead, rfl, ?_, group⟩
  intro q early
  have quiet := before q (mem_append_right _ early)
  by_contra live
  have known := (chainOk.liveOf_iff (b := q) (by rw [chain]; simp [early]) key).mpr
    ⟨Bool.eq_true_of_not_eq_false live, group.inside q (mem_append_left _ early)⟩
  rw [quiet] at known
  cases known

theorem HashOk.dbGetHash_eq (ok : HashOk ops tb) : dbGetHash ops tb key = contents ops tb key := by
  rw [dbGetHash_eq_take, contents]
  have outcome := takeOutcome ops tb key
  generalize dbTakeHash ops tb key = result at outcome
  cases outcome with
  | absent free =>
    have dead : ∀ b ∈ nodesOf ops key (keyChain ops tb key), b.isLive = false := by
      intro b member
      obtain ⟨there, own⟩ := mem_filter.mp member
      by_contra live
      have known := ((ok.keyChain_ok key).liveOf_iff there key).mpr
        ⟨Bool.eq_true_of_not_eq_false live, of_decide_eq_true own⟩
      rw [free b there] at known
      cases known
    rw [held, liveObjs_dead dead]
    rfl
  | taken passed more bend b chain before here inside stop =>
    obtain ⟨front, dead, _, quiet, group⟩ := ok.take_group chain before here inside stop
    rw [held, group.nodesOf_eq, liveObjs_append, liveObjs_dead quiet]
    exact buildTermList_eq

/-- A deleting loop over the nodes of a key. -/
theorem Holds.deletes (holds : Holds ops tb store)
    (regroups : Regroups ops key (keyChain ops tb key) chain (nodesOf ops key (keyChain ops tb key))
      group) (deletes : Deletes tb.ref (keySlot ops tb key)
        (keyChain ops tb key) tb.fixdel chain fixdel)
    (nitemsDiff : Int) :
    Holds ops (finishDeletion tb (keySlot ops tb key) ⟨chain, nitemsDiff, fixdel⟩)
      (update store key (liveObjs group).reverse) := by
  have active := holds.ok.slot_lt key
  have changed (nitems : Int) : Holds ops (withChain tb (keySlot ops tb key) chain fixdel nitems)
      (update store key (liveObjs group).reverse) := by
    refine holds.regroup regroups ((holds.ok.chains _ active).thin deletes.thins) ?_ nitems
    refine ⟨fun b member dead => ?_, deletes.grows, deletes.idle⟩
    rcases deletes.thins.mem_or member with old | ⟨entry, _⟩
    · exact deletes.grows (holds.ok.registered _ active b old dead)
    · exact entry
  unfold finishDeletion addNitems
  split
  · exact (changed _).tryShrink
  · exact changed tb.nitems

theorem Holds.dbEraseHash (holds : Holds ops tb store) (key : Key) :
    Holds ops (dbEraseHash ops tb key) (store.erase key) := by
  obtain ⟨group, regroups, erased⟩ := eraseLoop_regroups (holds.ok.keyChain_ok key)
  have after := holds.deletes regroups (eraseLoop_erases ops ..).deletes
    (eraseLoop ops tb.ref (keySlot ops tb key) key (makeHash ops key) (keyChain ops tb key) 0
      tb.fixdel).nitemsDiff
  rw [liveObjs_dead erased.dead] at after
  exact after

theorem Holds.dbTakeHash (holds : Holds ops tb store) (key : Key) :
    Holds ops (dbTakeHash ops tb key).1 (store.erase key) ∧
    (dbTakeHash ops tb key).2 = store key := by
  refine ⟨?_, by rw [← dbGetHash_eq_take, holds.ok.dbGetHash_eq, holds.same]⟩
  have empty := holds.same key
  rw [← holds.ok.dbGetHash_eq, dbGetHash_eq_take] at empty
  have outcome := takeOutcome ops tb key
  generalize Ets.dbTakeHash ops tb key = result at outcome empty ⊢
  cases outcome with
  | absent free =>
    have same : store.erase key = store := update_eq_self_iff.mpr empty
    rwa [same]
  | taken passed more bend b chain before here inside stop =>
    obtain ⟨front, dead, rfl, quiet, group⟩ := holds.ok.take_group chain before here inside stop
    have taken := takeLoop_inside ops tb.ref (keySlot ops tb key)
      (fun q member => group.inside q (mem_append_right _ member)) 0 tb.fixdel
    have deletes := (takeLoop_deletes tb.ref (keySlot ops tb key) (b :: more) 0 tb.fixdel).1.around
      (front ++ dead) bend
    generalize takeLoop tb.ref (keySlot ops tb key) (b :: more) 0 tb.fixdel =
      rest at taken deletes ⊢
    have keys : ∀ q ∈ dead ++ rest.chain, nodeKey ops q = key := by
      intro q member
      rcases mem_append.mp member with early | late
      · exact group.inside q (mem_append_left _ early)
      · exact taken.keys q late
    rw [← chain] at deletes
    have regroups : Regroups ops key (keyChain ops tb key) (front ++ dead ++ rest.chain ++ bend)
        (nodesOf ops key (keyChain ops tb key)) (dead ++ rest.chain) := by
      rw [group.nodesOf_eq]
      exact ⟨front, bend, group, by simp, keys⟩
    have after := holds.deletes regroups deletes rest.nitemsDiff
    rw [liveObjs_append, liveObjs_dead quiet, liveObjs_dead taken.dead] at after
    exact after

/-- Only a `duplicate_bag` holds an object twice. -/
theorem ChainOk.nodup_held (ok : ChainOk ops type chain)
    (other : type ≠ .duplicateBag) {key : Key} : (held ops key chain).Nodup := by
  have kept : (((nodesOf ops key chain).filter HashDbTerm.isLive)).Sublist chain :=
    filter_sublist.trans filter_sublist
  cases type with
  | duplicateBag => exact absurd rfl other
  | set =>
    refine List.Nodup.of_map ops.getKey ?_
    rw [held, liveObjs, map_map]
    exact (ok.single rfl).sublist (kept.map (nodeKey ops))
  | bag =>
    refine pairwise_map.mpr (((ok.apart rfl).sublist kept).imp_of_mem ?_)
    intro first second _ member distinct
    exact distinct (mem_filter.mp member).2

theorem Holds.store_eq (holds : Holds ops tb store)
    (split : Group ops key (keyChain ops tb key) passed group behind) :
    store key = (liveObjs group).reverse := by
  rw [← holds.same, contents, held, split.nodesOf_eq]

theorem Holds.mem_store (holds : Holds ops tb store) (member : b ∈ keyChain ops tb key)
    (here : ofKey ops key b = true) (live : b.isLive = true) : b.dbterm ∈ store key := by
  have own := ((holds.ok.keyChain_ok key).ofKey_iff member key).mp here
  rw [← holds.same, contents, mem_reverse]
  exact mem_map_of_mem (mem_filter.mpr ⟨mem_filter.mpr ⟨member, decide_eq_true own⟩, live⟩)

omit [DecidableEq Key] in
theorem liveObjs_nodeOf {ops : HashOps Key Obj} {obj : Obj} {nodes : List (HashDbTerm Obj)} :
    liveObjs (nodeOf ops obj :: nodes) = obj :: liveObjs nodes := by
  rw [liveObjs_cons, if_pos (nodeOf_live ops obj)]
  rfl

/-- The new object stands before what is left of the other nodes of its key. -/
theorem Holds.insert (holds : Holds ops tb store)
    (split : Group ops (ops.getKey obj) (keyChain ops tb (ops.getKey obj)) passed group behind)
    (kept : others.Sublist group) (single : tb.type = .set → others = [])
    (apart : tb.type = .bag → ∀ b ∈ others, b.isLive = true → obj ≠ b.dbterm) (nitems : Int) :
    Holds ops (withChain tb (keySlot ops tb (ops.getKey obj))
        (passed ++ (nodeOf ops obj :: others) ++ behind) tb.fixdel nitems)
      (update store (ops.getKey obj) ((liveObjs others).reverse ++ [obj])) := by
  have chainOk := holds.ok.keyChain_ok (ops.getKey obj)
  have regroups : Regroups ops (ops.getKey obj) (keyChain ops tb (ops.getKey obj))
      (passed ++ (nodeOf ops obj :: others) ++ behind)
      (nodesOf ops (ops.getKey obj) (keyChain ops tb (ops.getKey obj)))
        (nodeOf ops obj :: others) := by
    rw [split.nodesOf_eq]
    exact ⟨passed, behind, split, rfl, forall_mem_cons.mpr
      ⟨rfl, fun b member => split.inside b (kept.subset member)⟩⟩
  have ordered : ChainOk ops tb.type (passed ++ (nodeOf ops obj :: others) ++ behind) := by
    refine regroups.chainOk chainOk ?_ ?_ ?_
    · exact forall_mem_cons.mpr ⟨fun _ => rfl,
        fun b member => split.hashed chainOk b (kept.subset member)⟩
    · intro set
      simp [single set]
    · intro bag
      have old := chainOk.apart bag
      rw [split.whole, append_assoc, pairwise_append, pairwise_append] at old
      exact pairwise_cons.mpr ⟨apart bag, old.2.1.1.sublist kept⟩
  have after := holds.regroup regroups ordered ⟨fun b member dead => ?_, List.Subset.refl _,
    fun _ => rfl⟩ nitems
  · rwa [liveObjs_nodeOf, reverse_cons] at after
  · have there : b ∈ keyChain ops tb (ops.getKey obj) := by
      rcases regroups.mem_or member with there | new
      · exact there
      · rcases mem_cons.mp new with rfl | rest
        · rw [nodeOf_live] at dead
          cases dead
        · rw [split.whole]
          simp [kept.subset rest]
    exact holds.ok.registered _ (holds.ok.slot_lt _) b there dead

/-- In a `set` the node of a key is alone. -/
theorem ChainOk.group_single (ok : ChainOk ops .set chain) (whole : chain = passed ++ b :: behind)
    (before : ∀ q ∈ passed, ofKey ops key q = false) (here : ofKey ops key b = true) :
    Group ops key chain passed [b] behind := by
  refine ok.group_of (by simpa using whole) before (by simpa using here) ?_ (by simp)
  rintro q rest rfl
  have single := ok.single rfl
  rw [whole, map_append, nodup_append', map_cons, nodup_cons] at single
  rw [Bool.eq_false_iff, Ne, ok.ofKey_iff (by rw [whole]; simp),
    ← (ok.ofKey_iff (by rw [whole]; simp) _).mp here]
  intro same
  exact single.2.1.1 (same ▸ mem_map_of_mem mem_cons_self)

variable [DecidableEq Obj]

theorem Holds.dbEraseObjectHash (holds : Holds ops tb store) (obj : Obj) :
    Holds ops (dbEraseObjectHash ops tb obj) (store.eraseObject ops obj) := by
  have chainOk := holds.ok.keyChain_ok (ops.getKey obj)
  obtain ⟨group, regroups, erased⟩ := eraseObjectLoop_regroups chainOk
  have after := holds.deletes regroups (eraseObjectLoop_erases ops tb.type tb.ref _ obj ..).deletes
    (eraseObjectLoop ops tb.type tb.ref (keySlot ops tb (ops.getKey obj)) obj (ops.getKey obj)
      (makeHash ops (ops.getKey obj)) (keyChain ops tb (ops.getKey obj)) 0 0 tb.fixdel).nitemsDiff
  have removed : (liveObjs group).reverse = (store (ops.getKey obj)).filter fun other =>
    other ≠ obj := by
    rw [erased.live, ← holds.same, contents, filter_reverse, withoutObject]
    split
    · rfl
    case isFalse other =>
      rw [(chainOk.nodup_held other).erase_eq_filter]
      exact congrArg _ (filter_congr fun other _ => by by_cases same : other = obj <;> simp [same])
  rw [removed] at after
  exact after

theorem Holds.dbPutHash (holds : Holds ops tb store) (obj : Obj) (keyClashFail room : Bool) :
    Holds ops (dbPutHash ops tb obj keyClashFail room).1
      (store.put ops tb.type obj keyClashFail).1 ∧
      (dbPutHash ops tb obj keyClashFail room).2 = (store.put ops tb.type obj keyClashFail).2 := by
  have chainOk := holds.ok.keyChain_ok (ops.getKey obj)
  have outcome := putOutcome ops tb obj keyClashFail room
  generalize Ets.dbPutHash ops tb obj keyClashFail room = result at outcome ⊢
  cases outcome with
  | absent free =>
    have split : Group ops (ops.getKey obj) (keyChain ops tb (ops.getKey obj))
        (keyChain ops tb (ops.getKey obj)) [] [] := by
      refine ⟨by simp, fun b member => ?_, by simp, by simp, .inr rfl⟩
      rw [Ne, ← chainOk.ofKey_iff member, free b member]
      exact Bool.false_ne_true
    have objs := holds.store_eq split
    have after := holds.insert split (List.Sublist.refl []) (by simp) (by simp) (tb.nitems + 1)
    rw [append_nil] at after
    rw [Store.put_new (by simp [objs]) (by simp [objs]), objs, liveObjs_nil, reverse_nil,
      nil_append, ite_self]
    exact ⟨after.tryGrow room, rfl⟩
  | replace type passed behind b chain before here allowed =>
    have split := (type ▸ chainOk).group_single chain before here
    have after := holds.insert split (nil_sublist _) (by simp) (by simp)
      (if b.isLive then tb.nitems else tb.nitems + 1)
    rw [append_assoc] at after
    rw [Store.put_new ?_ (by simp [type]), if_pos type]
    · exact ⟨after, rfl⟩
    · intro clashes
      have dead : b.isLive = false := by
        by_contra live
        have never := allowed (Bool.eq_true_of_not_eq_false live)
        rw [clashes] at never
        cases never
      rw [holds.store_eq split, liveObjs_dead (by simpa using dead), reverse_nil]
  | clash clashes b member here live =>
    rw [Store.put_clash clashes (ne_nil_of_mem (holds.mem_store member here live))]
    exact ⟨holds, rfl⟩
  | push type passed group behind split nonempty allowed =>
    have split := chainOk.group_of split.chain split.before split.inside split.after nonempty
    have objs := holds.store_eq split
    have apart : tb.type = .bag → ∀ b ∈ group, b.isLive = true → obj ≠ b.dbterm := by
      intro bag b member live
      rcases allowed with ⟨_, dead⟩ | ⟨_, other⟩
      · rw [dead b member] at live
        cases live
      · exact (other bag b member).symm
    have after := holds.insert split (List.Sublist.refl group) (fun set => absurd set type) apart
      (tb.nitems + 1)
    rw [append_assoc] at after
    rw [Store.put_new ?_ ?_, if_neg type, objs]
    · exact ⟨after.tryGrow room, rfl⟩
    · intro clashes
      rcases allowed with ⟨_, dead⟩ | ⟨never, _⟩
      · rw [objs, liveObjs_dead dead, reverse_nil]
      · rw [clashes] at never
        cases never
    · intro bag present
      rw [objs, mem_reverse] at present
      obtain ⟨b, live, same⟩ := mem_map.mp present
      exact apart bag b (mem_filter.mp live).1 (mem_filter.mp live).2 same.symm
  | present type clashes b member here live same =>
    have there := holds.mem_store member here live
    rw [same] at there
    rw [type, Store.put_present clashes there]
    exact ⟨holds, rfl⟩
  | revive type clashes passed newer older behind q split first same dead =>
    have split := chainOk.group_of split.chain split.before split.inside split.after (by simp)
    have objs := holds.store_eq split
    have apart : ∀ b ∈ newer ++ older, b.isLive = true → obj ≠ b.dbterm := by
      intro b member live
      rcases mem_append.mp member with new | old
      · exact (first b new).symm
      · have pairs := chainOk.apart type
        rw [split.whole, append_assoc, pairwise_append, pairwise_append,
          pairwise_append, pairwise_cons] at pairs
        exact same ▸ pairs.2.1.1.2.1.1 b old live
    have live : liveObjs (newer ++ q :: older) = liveObjs (newer ++ older) := by
      rw [liveObjs_append, liveObjs_append, liveObjs_cons, dead]
      rfl
    rw [live] at objs
    have after := holds.insert split ((List.Sublist.refl newer).append (sublist_cons_self q older))
      (by simp [type]) (fun _ => apart) (tb.nitems + 1)
    rw [Store.put_new (by simp [clashes]) ?_, if_neg (by simp [type]), objs]
    · exact ⟨after, rfl⟩
    · intro _ present
      rw [objs, mem_reverse] at present
      obtain ⟨b, live, same⟩ := mem_map.mp present
      exact apart b (mem_filter.mp live).1 (mem_filter.mp live).2 same.symm

end Otp.Ets
