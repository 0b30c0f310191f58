import Otp.Stdlib.DictInvariant

/-! A dictionary holds what a finite map holds, after any operations. -/

namespace Otp.Dicts

open List
open Otp.Library (Wide flatten_set_perm)
open Option (bind_eq_bind bind_some bind_none)

variable {Key Value Result Acc : Type} {hash : PHash Key}
variable {bkt : Bucket Key Value} {t : Dict Key Value}

/-- No key twice. -/
def Distinct (bkt : Bucket Key Value) : Prop := (bkt.map Prod.fst).Nodup

theorem Distinct.head (distinct : Distinct ((k, v) :: bkt))
    (value : Value) : (k, value) ∉ bkt := fun member =>
  (nodup_cons.mp distinct).1 (mem_map.mpr ⟨_, member, rfl⟩)

theorem Distinct.tail (distinct : Distinct (e :: bkt)) : Distinct bkt := (nodup_cons.mp distinct).2

section

variable [DecidableEq Key]

theorem findVal_eq_some_iff (distinct : Distinct bkt) :
    findVal key bkt = some value ↔ (key, value) ∈ bkt := by
  induction bkt with
  | nil => simp [findVal]
  | cons e bkt ih =>
    obtain ⟨k, val⟩ := e
    rw [findVal, mem_cons, ← ih distinct.tail]
    split
    case isTrue same =>
      subst same
      have absent : findVal k bkt ≠ some value := fun found =>
        distinct.head value ((ih distinct.tail).mp found)
      simp [absent, eq_comm]
    case isFalse differ => simp [Ne.symm differ]

theorem findKey_eq : findKey key bkt = (findVal key bkt).isSome := by
  induction bkt with
  | nil => rfl
  | cons e bkt ih =>
    rw [findKey, findVal, ih]
    split <;> rfl

end

/-- One bucket after a change under a key. -/
structure Changes (key : Key) (new : Option Value) (b b' : Bucket Key Value) : Prop where
  here : ∀ value, (key, value) ∈ b' ↔ new = some value
  others : ∀ k value, k ≠ key → ((k, value) ∈ b' ↔ (k, value) ∈ b)
  distinct : Distinct b'

theorem Changes.cons {new : Option Value} {b b' : Bucket Key Value} (changes : Changes key new b b')
    (differ : k ≠ key) (distinct : Distinct ((k, val) :: b)) :
    Changes key new ((k, val) :: b) ((k, val) :: b') where
  here value := by simpa [Ne.symm differ] using changes.here value
  others k' value other := by simp [changes.others k' value other]
  distinct := by
    refine nodup_cons.mpr ⟨fun member => ?_, changes.distinct⟩
    obtain ⟨⟨k', value⟩, inside, rfl⟩ := mem_map.mp member
    exact distinct.head value ((changes.others k' value differ).mp inside)

theorem Changes.replace (distinct : Distinct ((key, old) :: bkt))
    (val : Value) : Changes key (some val) ((key, old) :: bkt) ((key, val) :: bkt) where
  here value := by simp [distinct.head value, eq_comm]
  others k value other := by simp [other]
  distinct := distinct

section

variable [DecidableEq Key]

theorem putBkt_eq (key : Key) (distinct : Distinct b) (found : Value → Option Value)
    (fresh : Value) :
    match (findVal key b).elim (some fresh) found with
    | none => putBkt found fresh key b = none
    | some val => ∃ b' ic, putBkt found fresh key b = some (b', ic) ∧ Changes key (some val) b b' ∧
        (b'.length : Int) = b.length + ic ∧ (ic = 0 ∨ ic = 1) := by
  induction b with
  | nil =>
    refine ⟨[(key, fresh)], 1, rfl, ⟨?_, ?_, by simp [Distinct]⟩, rfl, .inr rfl⟩
    · simp [eq_comm]
    · intro k value other
      simp [other]
  | cons e b ih =>
    obtain ⟨k, v⟩ := e
    rw [findVal, putBkt]
    by_cases same : k = key
    · subst same
      simp only [if_true, Option.elim_some]
      cases result : found v with
      | none => rfl
      | some val => exact ⟨(k, val) :: b, 0, rfl, .replace distinct val, by simp, .inl rfl⟩
    · have rest := ih distinct.tail
      simp only [if_neg same]
      cases result : (findVal key b).elim (some fresh) found with
      | none =>
        rw [result] at rest
        simp only [rest, bind_eq_bind, bind_none]
      | some val =>
        rw [result] at rest
        obtain ⟨b', ic, put, changes, length, either⟩ := rest
        refine ⟨(k, v) :: b', ic, by simp [put], changes.cons same distinct, ?_, either⟩
        simp only [length_cons]
        omega

theorem updateBkt_eq (key : Key) (distinct : Distinct b) (f : Value → Value) :
    match findVal key b with
    | none => updateBkt key f b = none
    | some old => ∃ b', updateBkt key f b = some (b', f old) ∧ Changes key (some (f old)) b b' ∧
        b'.length = b.length := by
  induction b with
  | nil => rfl
  | cons e b ih =>
    obtain ⟨k, v⟩ := e
    rw [findVal, updateBkt]
    by_cases same : k = key
    · subst same
      simp only [if_true]
      exact ⟨(k, f v) :: b, rfl, .replace distinct _, rfl⟩
    · have rest := ih distinct.tail
      simp only [if_neg same]
      cases found : findVal key b with
      | none =>
        rw [found] at rest
        simp only [rest, bind_eq_bind, bind_none]
      | some old =>
        rw [found] at rest
        obtain ⟨b', put, changes, length⟩ := rest
        exact ⟨(k, v) :: b', by simp [put], changes.cons same distinct, by simp [length]⟩

theorem eraseKey_eq {b : Bucket Key Value} (distinct : Distinct b) (key : Key) :
    ∃ b' dc, eraseKey key b = (b', dc) ∧ Changes key none b b' ∧
    (b'.length : Int) + dc = b.length := by
  induction b with
  | nil => exact ⟨[], 0, rfl, ⟨by simp, by simp, nodup_nil⟩, rfl⟩
  | cons e b ih =>
    obtain ⟨k, v⟩ := e
    rw [eraseKey]
    split
    case isTrue same =>
      subst same
      refine ⟨b, 1, rfl, ⟨fun value => ?_, fun k' value other => by simp [other], distinct.tail⟩,
        by simp⟩
      simp [distinct.head value]
    case isFalse differ =>
      obtain ⟨b', dc, erased, changes, length⟩ := ih distinct.tail
      refine ⟨(k, v) :: b', dc, by rw [erased], changes.cons differ distinct, ?_⟩
      simp only [length_cons]
      omega

omit [DecidableEq Key] in
theorem Laid.distinct_bucket {i : Nat} (laid : Laid hash t m)
    (present : t.buckets[i]? = some b) : Distinct b :=
  laid.distinct.sublist ((sublist_flatten_of_mem (mem_of_getElem? present)).map Prod.fst)

/-- The bucket of a key. -/
structure At (hash : PHash Key) (t : Dict Key Value) (m : Key → Option Value) (key : Key) (i : Nat)
    (b : Bucket Key Value) : Prop where
  slot : getSlot hash t key = i + 1
  present : t.buckets[i]? = some b
  got : getBucket t (getSlot hash t key) = some b
  distinct : Distinct b
  found : findVal key b = m key

theorem Laid.at_key (laid : Laid hash t m) (key : Key) : ∃ i b, At hash t m key i b := by
  obtain ⟨low, high⟩ := laid.sized.getSlot_range hash key
  obtain ⟨i, b, slot, present, got⟩ := laid.bucket (getSlot hash t key) low
    (Int.le_trans high laid.sized.below)
  have distinct := laid.distinct_bucket present
  refine ⟨i, b, slot, present, got, distinct, Option.ext fun value => ?_⟩
  rw [findVal_eq_some_iff distinct, ← laid.same]
  exact ⟨mem_entries_of_bucket present, fun member => laid.mem_bucket member slot present⟩

/-- A change of the bucket of a key changes the map at that key. -/
theorem Laid.change (laid : Laid hash t m) (here : At hash t m key i b)
    {new : Option Value} (changes : Changes key new b b')
    (f : Bucket Key Value → Option (Bucket Key Value × Result))
    (applied : f b = some (b', result)) :
    ∃ segs, onBucket f t (getSlot hash t key) = some ({ t with segs := segs }, result) ∧
      Laid hash { t with segs := segs } (Function.update m key new) ∧
      segs.flatten.flatten.length + b.length = t.entries.length + b'.length := by
  have inside := (List.getElem?_eq_some_iff.mp here.present).1
  obtain ⟨segs, put, wide, length, flat⟩ := putBucketS_eq laid.wide inside b'
  obtain ⟨rest, whole, changed⟩ := flatten_set_perm here.present
  have entries : segs.flatten.flatten.Perm (b' ++ rest) := by
    rw [flat]
    exact changed b'
  have apart : ((b ++ rest).map Prod.fst).Nodup := ((whole.map Prod.fst).nodup_iff).mp laid.distinct
  rw [map_append] at apart
  obtain ⟨-, distinct, disjoint⟩ := nodup_append.mp apart
  have outside (e : Key × Value) (inRest : e ∈ rest) : e.1 ≠ key ∧ ∀ other ∈ b, other.1 ≠ e.1 := by
    have separate (other : Key × Value) (member : other ∈ b) : other.1 ≠ e.1 :=
      disjoint _ (mem_map_of_mem member) _ (mem_map_of_mem inRest)
    refine ⟨fun same => ?_, separate⟩
    have member : e ∈ t.entries := whole.mem_iff.mpr (mem_append_right b inRest)
    exact separate e (laid.mem_bucket member (same ▸ here.slot) here.present) rfl
  have old (e : Key × Value) (member : e ∈ b') (differ : e.1 ≠ key) : e ∈ b :=
    (changes.others e.1 e.2 differ).mp member
  refine ⟨segs, ?_, ⟨?_, wide, laid.empty, ?_, ?_, ?_⟩, ?_⟩
  · rw [onBucket_eq, here.got]
    simp only [bind_eq_bind, bind_some, applied, here.slot, put]
  · obtain ⟨k, count, levels⟩ := laid.sized.level
    exact ⟨⟨k, length.trans count, levels⟩, laid.sized.above, laid.sized.below, laid.sized.least⟩
  · intro j bkt present e member
    show getSlot hash t e.1 = j + 1
    simp only [Dict.buckets, flat] at present
    by_cases same : i = j
    · subst same
      rw [getElem?_set_self (show i < t.segs.flatten.length from inside)] at present
      obtain rfl := Option.some.inj present
      by_cases own : e.1 = key
      · rw [own, here.slot]
      · exact laid.placed i b here.present e (old e member own)
    · rw [getElem?_set_ne same] at present
      exact laid.placed j bkt present e member
  · refine ((entries.map Prod.fst).nodup_iff).mpr ?_
    rw [map_append]
    refine nodup_append.mpr ⟨changes.distinct, distinct, ?_⟩
    intro k inFirst k' inRest
    obtain ⟨e, member, rfl⟩ := mem_map.mp inFirst
    obtain ⟨e', member', rfl⟩ := mem_map.mp inRest
    obtain ⟨notKey, separate⟩ := outside e' member'
    by_cases own : e.1 = key
    · exact fun same => notKey (same.symm.trans own)
    · exact separate e (old e member own)
  · intro k value
    refine (entries.mem_iff).trans ?_
    rw [mem_append, Function.update_apply]
    split
    case isTrue own =>
      subst own
      rw [changes.here, or_iff_left]
      exact fun inRest => (outside _ inRest).1 rfl
    case isFalse other =>
      rw [changes.others k value other, ← mem_append, ← whole.mem_iff]
      exact laid.same k value
  · rw [entries.length_eq, Dict.entries, whole.length_eq, length_append, length_append]
    omega

/-- A dictionary or a failure, as for the map. -/
def Agrees (hash : PHash Key) (result : Option (Dict Key Value)) :
    Option (Key → Option Value) → Prop
  | none => result = none
  | some m => ∃ t, result = some t ∧ Holds hash t m

/-- The map after a change of the value under a key; a new key gets `fresh`. -/
def putMap (found : Value → Option Value) (fresh : Value) (key : Key) (m : Key → Option Value) :
    Option (Key → Option Value) :=
  match m key with
  | none => some (Function.update m key (some fresh))
  | some old => (found old).map fun val => Function.update m key (some val)

theorem Holds.onKey (holds : Holds hash t m) (found : Value → Option Value) (fresh : Value)
    (key : Key) :
    Agrees hash (Dicts.onKey hash (putBkt found fresh key) key t) (putMap found fresh key m) := by
  obtain ⟨i, b, here⟩ := holds.at_key key
  have outcome := putBkt_eq key here.distinct found fresh
  have spec : putMap found fresh key m =
      ((m key).elim (some fresh) found).map fun val => Function.update m key (some val) := by
    unfold putMap
    cases m key <;> rfl
  rw [here.found] at outcome
  rw [spec]
  cases result : (m key).elim (some fresh) found with
  | none =>
    rw [result] at outcome
    show Dicts.onKey hash (putBkt found fresh key) key t = none
    simp only [Dicts.onKey, onBucket_eq, here.got, bind_eq_bind, bind_some, outcome, bind_none]
  | some val =>
    rw [result] at outcome
    obtain ⟨b', ic, put, changes, count, either⟩ := outcome
    obtain ⟨segs, done, laid, length⟩ := holds.toLaid.change here changes _ put
    have size := holds.size
    obtain ⟨t', expanded, kept⟩ := laid.maybeExpandAux holds.strict ic
      (by simp only [Dict.entries, Dict.buckets] at size length ⊢; omega)
    refine ⟨t', ?_, kept⟩
    simp only [Dicts.onKey, done, bind_eq_bind, bind_some, maybeExpand, if_pos either, expanded]

theorem Holds.update (holds : Holds hash t m) (key : Key) (f : Value → Value) :
    Agrees hash (Dicts.update hash key f t)
      ((m key).map fun old => Function.update m key (some (f old))) := by
  obtain ⟨i, b, here⟩ := holds.at_key key
  have outcome := updateBkt_eq key here.distinct f
  rw [here.found] at outcome
  cases value : m key with
  | none =>
    rw [value] at outcome
    show Dicts.update hash key f t = none
    simp only [Dicts.update, onBucket_eq, here.got, bind_eq_bind, bind_some, outcome, bind_none]
  | some old =>
    rw [value] at outcome
    obtain ⟨b', put, changes, count⟩ := outcome
    obtain ⟨segs, done, laid, length⟩ := holds.toLaid.change here changes _ put
    refine ⟨{ t with segs := segs }, ?_, laid, holds.strict, ?_⟩
    · simp only [Dicts.update, done, bind_eq_bind, bind_some]
    · have size := holds.size
      simp only [Dict.entries, Dict.buckets] at size length ⊢
      omega

theorem Holds.erase (holds : Holds hash t m) (key : Key) :
    ∃ t', Dicts.erase hash key t = some t' ∧ Holds hash t' (Function.update m key none) := by
  obtain ⟨i, b, here⟩ := holds.at_key key
  obtain ⟨b', dc, erased, changes, count⟩ := eraseKey_eq here.distinct key
  obtain ⟨segs, done, laid, length⟩ := holds.toLaid.change here changes
    (fun b0 => some (eraseKey key b0)) (congrArg some erased)
  have size := holds.size
  obtain ⟨t', contracted, kept⟩ := laid.maybeContract holds.strict dc
    (by simp only [Dict.entries, Dict.buckets] at size length ⊢; omega)
  refine ⟨t', ?_, kept⟩
  simp only [Dicts.erase, done, bind_eq_bind, bind_some, contracted]

end

section

variable (f : Key → Value → Acc → Acc)

theorem foldBucket_eq (acc : Acc) (bkt : Bucket Key Value) :
    foldBucket f acc bkt = bkt.foldl (fun acc e => f e.1 e.2 acc) acc := by
  induction bkt generalizing acc with
  | nil => rfl
  | cons e bkt ih => exact ih _

/-- Buckets are visited from the last to the first. -/
theorem foldSeg_eq (acc : Acc) (inside : i ≤ seg.length) : foldSeg f acc seg i =
      some ((seg.take i).reverse.flatten.foldl (fun acc e => f e.1 e.2 acc) acc) := by
  induction i generalizing acc with
  | zero => simp [foldSeg]
  | succ i ih =>
    have present : seg[i]? = some seg[i] := getElem?_eq_getElem inside
    rw [foldSeg, element_succ, present]
    simp only [bind_eq_bind, bind_some]
    rw [ih _ (Nat.le_of_succ_le inside), foldBucket_eq, take_add_one, present]
    simp only [Option.toList_some, reverse_append, reverse_singleton,
      singleton_append, flatten_cons, foldl_append]

theorem foldSegs_eq (acc : Acc) (inside : i ≤ segs.length) : foldSegs f acc segs i =
      some ((segs.take i).flatten.reverse.flatten.foldl (fun acc e => f e.1 e.2 acc) acc) := by
  induction i generalizing acc with
  | zero => simp [foldSegs]
  | succ i ih =>
    have present : segs[i]? = some segs[i] := getElem?_eq_getElem inside
    rw [foldSegs, element_succ, present]
    simp only [bind_eq_bind, bind_some]
    rw [foldSeg_eq f acc (Nat.le_refl _)]
    simp only [bind_some]
    rw [ih _ (Nat.le_of_succ_le inside), take_add_one, present]
    simp only [Option.toList_some, flatten_append, flatten_singleton, reverse_append,
      foldl_append, take_length]

end

/-- The entries in the order of a traversal. -/
def Dict.visited (t : Dict Key Value) : List (Key × Value) := t.buckets.reverse.flatten

theorem visited_perm (t : Dict Key Value) : t.visited.Perm t.entries :=
  (reverse_perm t.buckets).flatten

theorem Holds.foldDict (holds : Holds hash t m) (f : Key → Value → Acc → Acc) (acc : Acc) :
    Dicts.foldDict f acc t = some (t.visited.foldl (fun acc e => f e.1 e.2 acc) acc) := by
  unfold Dicts.foldDict
  split
  case isTrue none =>
    have empty : t.visited = [] := by
      have length := (visited_perm t).length_eq
      have size := holds.size
      exact eq_nil_of_length_eq_zero (by omega)
    rw [empty]
    rfl
  case isFalse =>
    rw [foldSegs_eq f acc (Nat.le_refl _), take_length]
    rfl

theorem mapBucket_eq : mapBucket f bkt = bkt.map fun e => (e.1, f e.1 e.2) := by
  induction bkt with
  | nil => rfl
  | cons e bkt ih => rw [mapBucket, ih, map_cons]

theorem mapSegList_eq {segs : List (Seg Key Value)} :
    mapSegList f segs = segs.map fun seg => seg.map (mapBucket f) := by
  have inner (seg : Seg Key Value) : mapBktList f seg = seg.map (mapBucket f) := by
    induction seg with
    | nil => rfl
    | cons bkt seg ih => rw [mapBktList, ih, map_cons]
  induction segs with
  | nil => rfl
  | cons seg segs ih => rw [mapSegList, ih, inner, map_cons]

theorem filterBucket_eq {fb : Bucket Key Value} :
    filterBucket f bkt fb fc = (fb.reverse ++ bkt.filter (fun e => f e.1 e.2),
      fc + (bkt.length - (bkt.filter fun e => f e.1 e.2).length)) := by
  induction bkt generalizing fb fc with
  | nil => simp [filterBucket]
  | cons e bkt ih =>
    rw [filterBucket]
    split
    case isTrue keep =>
      rw [ih, filter_cons_of_pos (by simpa using keep)]
      simp only [reverse_cons, append_assoc, singleton_append, length_cons, Prod.mk.injEq, true_and]
      omega
    case isFalse drop =>
      rw [ih, filter_cons_of_neg (by simpa using drop)]
      simp only [length_cons, Prod.mk.injEq, true_and]
      omega

theorem filterSegList_eq (f : Key → Value → Bool) (segs : List (Seg Key Value)) :
    filterSegList f segs [] 0 =
      (segs.map fun seg => seg.map fun bkt => bkt.filter fun e => f e.1 e.2,
        (segs.flatten.flatten.length : Int) -
          (segs.flatten.flatten.filter fun e => f e.1 e.2).length) := by
  have inner (seg fbs : Seg Key Value) (fc : Int) :
      filterBktList f seg fbs fc = (fbs.reverse ++ seg.map fun bkt => bkt.filter fun e => f e.1 e.2,
        fc + (seg.flatten.length - (seg.flatten.filter fun e => f e.1 e.2).length)) := by
    induction seg generalizing fbs fc with
    | nil => simp [filterBktList]
    | cons bkt seg ih =>
      simp only [filterBktList, filterBucket_eq, ih, flatten_cons, filter_append,
        length_append, reverse_cons, map_cons, reverse_nil, nil_append,
        append_assoc, singleton_append, Prod.mk.injEq, true_and]
      omega
  have outer (segs fss : List (Seg Key Value)) (fc : Int) : filterSegList f segs fss fc =
        (fss.reverse ++ segs.map fun seg => seg.map fun bkt => bkt.filter fun e => f e.1 e.2,
          fc + (segs.flatten.flatten.length -
            (segs.flatten.flatten.filter fun e => f e.1 e.2).length)) := by
    induction segs generalizing fss fc with
    | nil => simp [filterSegList]
    | cons seg segs ih =>
      simp only [filterSegList, inner, ih, flatten_cons, flatten_append, filter_append,
        length_append, reverse_cons, map_cons, reverse_nil, nil_append,
        append_assoc, singleton_append, Prod.mk.injEq, true_and]
      omega
  simpa using outer segs [] 0

/-- Every bucket is changed so that keys only go. -/
theorem Laid.rebuilt (laid : Laid hash t m) (g : Bucket Key Value → Bucket Key Value)
    (thin : ∀ bkt, ((g bkt).map Prod.fst).Sublist (bkt.map Prod.fst))
    (same : ∀ key value, (∃ bkt ∈ t.buckets, (key, value) ∈ g bkt) ↔ m' key = some value) :
    Laid hash { t with segs := t.segs.map fun seg => seg.map g } m' := by
  have buckets : (t.segs.map fun seg => seg.map g).flatten = t.buckets.map g := by
    rw [Dict.buckets, map_flatten]
  obtain ⟨k, count, levels⟩ := laid.sized.level
  refine ⟨⟨⟨k, by simpa using count, levels⟩, laid.sized.above, laid.sized.below, laid.sized.least⟩,
    ?_, laid.empty, ?_, ?_, ?_⟩
  · intro seg member
    obtain ⟨old, inside, rfl⟩ := mem_map.mp member
    rw [length_map, laid.wide old inside]
  · intro i bkt present e member
    simp only [Dict.buckets, buckets, getElem?_map] at present
    obtain ⟨old, place, rfl⟩ := Option.map_eq_some_iff.mp present
    obtain ⟨e', inside, key⟩ := mem_map.mp ((thin old).subset (mem_map_of_mem member))
    have here := laid.placed i old place e' inside
    rwa [key] at here
  · show ((t.segs.map fun seg => seg.map g).flatten.flatten.map Prod.fst).Nodup
    rw [buckets]
    refine laid.distinct.sublist ?_
    rw [Dict.entries]
    induction t.buckets with
    | nil => exact .slnil
    | cons bkt bkts ih =>
      rw [map_cons, flatten_cons, flatten_cons, map_append, map_append]
      exact (thin bkt).append ih
  · intro key value
    show (key, value) ∈ (t.segs.map fun seg => seg.map g).flatten.flatten ↔ _
    rw [← same key value, buckets]
    simp

theorem Laid.mem_buckets (laid : Laid hash t m) (key : Key) (value : Value) :
    (∃ bkt ∈ t.buckets, (key, value) ∈ bkt) ↔ m key = some value :=
  mem_flatten.symm.trans (laid.same key value)

/-- Without entries the map is empty. -/
theorem Holds.eq_none (holds : Holds hash t m) (none : t.size = 0) (key : Key) : m key = .none := by
  have empty : t.entries = [] := eq_nil_of_length_eq_zero (by
    have size := holds.size
    omega)
  refine Option.eq_none_iff_forall_ne_some.mpr fun value found => ?_
  have member := (holds.same key value).mpr found
  rw [empty] at member
  cases member

theorem Holds.mapDict (holds : Holds hash t m) (f : Key → Value → Value) :
    Holds hash (Dicts.mapDict f t) fun key => (m key).map (f key) := by
  unfold Dicts.mapDict
  split
  case isTrue none =>
    have same : (fun key => (m key).map (f key)) = m := funext fun key => by
      rw [holds.eq_none none key]
      rfl
    rwa [same]
  case isFalse =>
    rw [mapSegList_eq]
    refine ⟨holds.toLaid.rebuilt (mapBucket f) (fun bkt => ?_) fun key value => ?_,
      holds.strict, ?_⟩
    · rw [mapBucket_eq, map_map]
      exact .refl _
    · rw [Option.map_eq_some_iff]
      simp only [← holds.toLaid.mem_buckets, mapBucket_eq, mem_map]
      constructor
      · rintro ⟨bkt, inside, e, member, same⟩
        obtain ⟨rfl, rfl⟩ := Prod.mk.inj same
        exact ⟨e.2, ⟨bkt, inside, member⟩, rfl⟩
      · rintro ⟨old, ⟨bkt, inside, member⟩, rfl⟩
        exact ⟨bkt, inside, _, member, rfl⟩
    · have kept : (t.segs.map fun seg => seg.map (mapBucket f)).flatten.flatten.length =
          t.entries.length := by
        have buckets : (t.segs.map fun seg => seg.map (mapBucket f)).flatten =
            t.buckets.map (mapBucket f) := by rw [Dict.buckets, map_flatten]
        rw [buckets, Dict.entries, length_flatten, length_flatten, map_map]
        congr 2
        funext bkt
        simp [mapBucket_eq]
      rw [holds.size, ← kept]
      rfl

theorem Holds.filterDict (holds : Holds hash t m) (f : Key → Value → Bool) :
    ∃ t', Dicts.filterDict f t = some t' ∧ Holds hash t' fun key => (m key).filter (f key) := by
  unfold Dicts.filterDict
  split
  case isTrue none =>
    have same : (fun key => (m key).filter (f key)) = m := funext fun key => by
      rw [holds.eq_none none key]
      rfl
    rw [same]
    exact ⟨t, rfl, holds⟩
  case isFalse =>
    rw [filterSegList_eq]
    have thinned : Laid hash _ fun key => (m key).filter (f key) := holds.toLaid.rebuilt
      (fun bkt => bkt.filter fun e => f e.1 e.2) (fun bkt => (filter_sublist).map _)
      fun key value => by
        rw [Option.filter_eq_some_iff, ← holds.toLaid.mem_buckets]
        simp only [mem_filter]
        constructor
        · rintro ⟨bkt, inside, member, keep⟩
          exact ⟨⟨bkt, inside, member⟩, keep⟩
        · rintro ⟨⟨bkt, inside, member⟩, keep⟩
          exact ⟨bkt, inside, member, keep⟩
    refine thinned.maybeContract holds.strict _ ?_
    have size := holds.size
    have kept : (t.segs.map fun seg => seg.map fun bkt => bkt.filter fun e =>
      f e.1 e.2).flatten.flatten =
        t.segs.flatten.flatten.filter fun e => f e.1 e.2 := by
      rw [filter_flatten, map_flatten]
    simp only [Dict.entries, Dict.buckets, kept] at size ⊢
    omega

end Otp.Dicts
