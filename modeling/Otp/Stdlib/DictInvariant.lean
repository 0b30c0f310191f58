import Mathlib
import Otp.Library.Rows
import Otp.Stdlib.Dict

/-! The slots of a dictionary: every key is in the bucket of its slot, whatever is
expanded or contracted. -/

namespace Otp.Dicts

open List
open Otp.Library (Wide flatten_set_perm)

variable {Key Value Result : Type} {hash : PHash Key}
variable {i : Nat} {t : Dict Key Value}

theorem element_succ {tuple : List Item} : element (i + 1) tuple = tuple[i]? := by
  simp [element]

theorem setelement_succ {tuple : List Item} (inside : i < tuple.length) :
    setelement (i + 1) tuple item = some (tuple.set i item) := by
  have range : (1 : Int) ≤ i + 1 ∧ (i + 1 : Int) ≤ tuple.length := by omega
  simp [setelement, range]

theorem segI_succ : segI (i + 1) = (i / 16 : Nat) + 1 := by
  simp [segI, segSize]

theorem bktI_succ : bktI (i + 1) = (i % 16 : Nat) + 1 := by
  simp [bktI, segSize, Int.tmod_eq_emod_of_nonneg]

theorem getBucketS_eq {segs : List (Seg Key Value)} (wide : Wide 16 segs) :
    getBucketS segs (i + 1) = segs.flatten[i]? := by
  have place := wide.getElem?_flatten (Nat.mod_lt i (by decide)) (i / 16)
  rw [Nat.div_add_mod] at place
  rw [place, getBucketS, segI_succ, element_succ]
  cases segs[i / 16]? with
  | none => rfl
  | some seg => exact (congrArg (element · seg) bktI_succ).trans element_succ

theorem putBucketS_eq {segs : List (Seg Key Value)} (wide : Wide 16 segs)
    (inside : i < segs.flatten.length) (bkt : Bucket Key Value) :
    ∃ segs', putBucketS segs (i + 1) bkt = some segs' ∧ Wide 16 segs' ∧
      segs'.length = segs.length ∧ segs'.flatten = segs.flatten.set i bkt := by
  rw [wide.length_flatten] at inside
  have row : i / 16 < segs.length := Nat.div_lt_of_lt_mul inside
  have column : i % 16 < 16 := Nat.mod_lt i (by decide)
  have present : segs[i / 16]? = some segs[i / 16] := getElem?_eq_getElem row
  have width : segs[i / 16].length = 16 := wide _ (getElem_mem row)
  have inner : i % 16 < segs[i / 16].length := width.symm ▸ column
  refine ⟨segs.set (i / 16) (segs[i / 16].set (i % 16) bkt), ?_,
    wide.set (by rw [length_set, width]) _, length_set, ?_⟩
  · simp only [putBucketS, segI_succ, bktI_succ, element_succ, present, Option.bind_eq_bind,
      Option.bind_some, setelement_succ inner, setelement_succ row]
  · rw [wide.flatten_set column present, Nat.div_add_mod]

theorem onBucket_eq {f : Bucket Key Value → Option (Bucket Key Value × Result)} :
    onBucket f t slot = (do
      let b0 ← getBucket t slot
      let (b1, res) ← f b0
      let segs ← putBucketS t.segs slot b1
      some ({ t with segs := segs }, res)) := by
  simp only [onBucket, getBucket, getBucketS, putBucketS]
  cases element (segI slot) t.segs with
  | none => rfl
  | some seg => simp [Option.bind_assoc]

/-- The numbers of slots: `bso` is half of `maxn`, which is `16` doubled some times. -/
structure Sized (t : Dict Key Value) : Prop where
  level : ∃ k : Nat, t.segs.length = 2 ^ k ∧ t.maxn = 16 * 2 ^ k ∧ t.bso = 8 * 2 ^ k
  above : t.bso ≤ t.n
  below : t.n ≤ t.maxn
  least : 16 ≤ t.n

section

variable {t : Dict Key Value}

theorem Sized.double (sized : Sized t) : t.maxn = 2 * t.bso ∧ 8 ≤ t.bso := by
  obtain ⟨k, -, maxn, bso⟩ := sized.level
  have positive : (1 : Int) ≤ 2 ^ k := by exact_mod_cast Nat.one_le_two_pow
  omega

theorem Sized.phash_range (sized : Sized t) (hash : PHash Key) (key : Key) :
    1 ≤ hash.phash key t.maxn ∧ hash.phash key t.maxn ≤ t.maxn := by
  obtain ⟨double, large⟩ := sized.double
  rw [double]
  exact hash.range key t.bso (by omega)

theorem Sized.getSlot_range (sized : Sized t) (hash : PHash Key) (key : Key) :
    1 ≤ getSlot hash t key ∧ getSlot hash t key ≤ t.n := by
  obtain ⟨low, high⟩ := sized.phash_range hash key
  obtain ⟨double, large⟩ := sized.double
  have above := sized.above
  simp only [getSlot]
  split <;> omega

theorem Sized.slots (sized : Sized t) (wide : Wide 16 t.segs) :
    (t.segs.flatten.length : Int) = t.maxn := by
  obtain ⟨k, length, maxn, -⟩ := sized.level
  rw [wide.length_flatten, length, maxn]
  rfl

/-- Slots do not change when their range is doubled ... -/
theorem getSlot_expandSegs (sized : Sized t) (full : t.n = t.maxn) :
    getSlot hash (maybeExpandSegs t) key = getSlot hash t key := by
  obtain ⟨double, large⟩ := sized.double
  obtain ⟨low, high⟩ := sized.phash_range hash key
  have buddy := hash.buddy key t.maxn (by omega)
  simp only [getSlot, maybeExpandSegs, if_pos full]
  split <;> split <;> omega

/-- ... or halved. -/
theorem getSlot_contractSegs (half : t.maxn = 2 * t.bso) (positive : 0 < t.bso)
    (range : ∀ key, 1 ≤ hash.phash key t.bso ∧ hash.phash key t.bso ≤ t.bso) (low : t.n = t.bso)
    (key : Key) :
    getSlot hash (maybeContractSegs t) key = getSlot hash t key := by
  have buddy := hash.buddy key t.bso positive
  obtain ⟨least, most⟩ := range key
  have halved : 2 * t.bso / 2 = t.bso := by omega
  simp only [getSlot, maybeContractSegs, if_pos low, half, halved]
  split <;> split <;> omega

def Dict.buckets (t : Dict Key Value) : List (Bucket Key Value) := t.segs.flatten

def Dict.entries (t : Dict Key Value) : List (Key × Value) := t.buckets.flatten

/-- A bucket that holds only keys of its slot. -/
def PlacedAt (hash : PHash Key) (t : Dict Key Value) (i : Nat) (bkt : Bucket Key Value) : Prop :=
  ∀ e ∈ bkt, getSlot hash t e.1 = i + 1

/-- Every key is in the bucket of its slot, none is there twice, and the entries are
those of a finite map. -/
structure Laid (hash : PHash Key) (t : Dict Key Value) (m : Key → Option Value) : Prop where
  sized : Sized t
  wide : Wide 16 t.segs
  empty : t.empty = mkSeg
  placed : ∀ i bkt, t.buckets[i]? = some bkt → PlacedAt hash t i bkt
  distinct : (t.entries.map Prod.fst).Nodup
  same : ∀ key value, (key, value) ∈ t.entries ↔ m key = some value

theorem Laid.slots (laid : Laid hash t m) : (t.buckets.length : Int) = t.maxn :=
  laid.sized.slots laid.wide

end

/-- The bucket of a slot in use. -/
theorem Laid.bucket (laid : Laid hash t m) (slot : Int) (low : 1 ≤ slot) (high : slot ≤ t.maxn) :
    ∃ (i : Nat) (bkt : Bucket Key Value), slot = i + 1 ∧ t.buckets[i]? = some bkt ∧
      getBucketS t.segs slot = some bkt := by
  have slots := laid.slots
  obtain ⟨i, rfl⟩ : ∃ i : Nat, slot = i + 1 := ⟨(slot - 1).toNat, by omega⟩
  have present : t.buckets[i]? = some t.buckets[i] := getElem?_eq_getElem (by omega)
  exact ⟨i, t.buckets[i], rfl, present, (getBucketS_eq laid.wide).trans present⟩

section

variable {t : Dict Key Value}

/-- An entry lies in the bucket of its key's slot. -/
theorem Laid.mem_bucket (laid : Laid hash t m) (member : e ∈ t.entries)
    (slot : getSlot hash t e.1 = i + 1) (present : t.buckets[i]? = some bkt) : e ∈ bkt := by
  obtain ⟨other, inside, within⟩ := mem_flatten.mp member
  obtain ⟨j, place⟩ := mem_iff_getElem?.mp inside
  have here := laid.placed j other place e within
  obtain rfl : i = j := by omega
  rw [present] at place
  exact Option.some.inj place ▸ within

theorem mem_entries_of_bucket (present : t.buckets[i]? = some bkt) (member : e ∈ bkt) :
    e ∈ t.entries :=
  mem_flatten.mpr ⟨bkt, mem_of_getElem? present, member⟩

/-- The same entries in other buckets. -/
theorem Laid.moved {t' : Dict Key Value} (laid : Laid hash t m) (sized : Sized t')
    (wide : Wide 16 t'.segs) (empty : t'.empty = t.empty) (perm : t'.entries.Perm t.entries)
    (placed : ∀ i bkt, t'.buckets[i]? = some bkt → PlacedAt hash t' i bkt) : Laid hash t' m where
  sized := sized
  wide := wide
  empty := empty.trans laid.empty
  placed := placed
  distinct := ((perm.map Prod.fst).nodup_iff).mpr laid.distinct
  same key value := perm.mem_iff.trans (laid.same key value)

theorem Laid.resized (laid : Laid hash t m) : Laid hash { t with size := size } m :=
  laid.moved ⟨laid.sized.level, laid.sized.above, laid.sized.below, laid.sized.least⟩ laid.wide rfl
    (.refl _) laid.placed

theorem mkSeg_flatten {count : Nat} :
    (replicate count (mkSeg : Seg Key Value)).flatten = replicate (16 * count) [] := by
  induction count with
  | zero => rfl
  | succ count ih =>
    rw [replicate_succ, flatten_cons, ih, Nat.mul_succ, Nat.add_comm, ← replicate_append_replicate]
    rfl

theorem Laid.expandSegs (laid : Laid hash t m) :
    Laid hash (maybeExpandSegs t) m ∧ (maybeExpandSegs t).n < (maybeExpandSegs t).maxn ∧
      (maybeExpandSegs t).entries = t.entries := by
  by_cases full : t.n = t.maxn
  · have slots (key : Key) : getSlot hash (maybeExpandSegs t) key = getSlot hash t key :=
      getSlot_expandSegs laid.sized full
    have buckets : (maybeExpandSegs t).buckets =
      t.buckets ++ replicate (16 * t.segs.length) [] := by
      simp [Dict.buckets, maybeExpandSegs, full, Dicts.expandSegs, laid.empty, mkSeg_flatten]
    have entries : (maybeExpandSegs t).entries = t.entries := by
      simp [Dict.entries, buckets]
    obtain ⟨double, large⟩ := laid.sized.double
    obtain ⟨k, length, maxn, bso⟩ := laid.sized.level
    have sized : Sized (maybeExpandSegs t) := by
      refine ⟨⟨k + 1, ?_, ?_, ?_⟩, ?_, ?_, ?_⟩
      all_goals simp only [maybeExpandSegs, if_pos full, Dicts.expandSegs, length_append,
        length_replicate]
      all_goals omega
    have wide : Wide 16 (maybeExpandSegs t).segs := by
      simp only [maybeExpandSegs, if_pos full, laid.empty]
      refine forall_mem_append.mpr ⟨laid.wide, fun seg member => ?_⟩
      rw [eq_of_mem_replicate member]
      rfl
    refine ⟨laid.moved sized wide ?_ (entries ▸ .refl _) ?_, ?_, entries⟩
    · simp only [maybeExpandSegs, if_pos full]
    · intro i bkt present e member
      rw [slots]
      rw [buckets, getElem?_append] at present
      split at present
      · exact laid.placed i bkt present e member
      · rw [eq_of_mem_replicate (mem_of_getElem? present)] at member
        cases member
    · simp only [maybeExpandSegs, if_pos full]
      omega
  · have same : maybeExpandSegs t = t := if_neg full
    have below := laid.sized.below
    rw [same]
    exact ⟨laid, by omega, rfl⟩

theorem maybeExpandSegs_size : (maybeExpandSegs t).size = t.size := by
  unfold maybeExpandSegs
  split <;> rfl

theorem rehash_eq {bkt : Bucket Key Value}
    (either : ∀ e ∈ bkt, hash.phash e.1 maxn = slot1 ∨ hash.phash e.1 maxn = slot2) :
    rehash hash slot1 slot2 maxn bkt = some (bkt.filter fun e => hash.phash e.1 maxn = slot1,
        bkt.filter fun e => !(hash.phash e.1 maxn = slot1)) := by
  induction bkt with
  | nil => rfl
  | cons e bkt ih =>
    obtain ⟨here, rest⟩ := forall_mem_cons.mp either
    rw [rehash, ih rest]
    by_cases first : hash.phash e.1 maxn = slot1
    · simp [first]
    · have second := here.resolve_left first
      rw [filter_cons_of_neg (by simpa using first), filter_cons_of_pos (by simpa using first)]
      simp only [Option.bind_eq_bind, Option.bind_some, if_neg first, if_pos second]

/-- Two buckets exchange their entries. -/
theorem exchange_perm {buckets : List (Bucket Key Value)} (first : buckets[i]? = some b1)
    (second : buckets[j]? = some b2) (apart : i ≠ j) (kept : (b1' ++ b2').Perm (b1 ++ b2)) :
    ((buckets.set i b1').set j b2').flatten.Perm buckets.flatten := by
  obtain ⟨rest, whole, changed⟩ := flatten_set_perm first
  have second' : (buckets.set i b1')[j]? = some b2 := by rwa [getElem?_set_ne apart]
  obtain ⟨rest', whole', changed'⟩ := flatten_set_perm second'
  -- `b2` on both sides stands for the entries that the second step takes away
  refine (perm_append_left_iff b2).mp ?_
  calc b2 ++ ((buckets.set i b1').set j b2').flatten
      _ |>.Perm (b2 ++ (b2' ++ rest')) := (changed' b2').append_left b2
      _ |>.Perm (b2' ++ (b2 ++ rest')) := perm_append_comm_assoc ..
      _ |>.Perm (b2' ++ (b1' ++ rest)) := (whole'.symm.trans (changed b1')).append_left b2'
      _ |>.Perm (b1' ++ b2' ++ rest) := by
        rw [append_assoc]
        exact perm_append_comm_assoc ..
      _ |>.Perm (b1 ++ b2 ++ rest) := kept.append_right rest
      _ |>.Perm (b2 ++ (b1 ++ rest)) := by
        rw [append_assoc]
        exact perm_append_comm_assoc ..
      _ |>.Perm (b2 ++ buckets.flatten) := whole.symm.append_left b2

/-- Slots `n` and below are in use after two buckets exchanged their entries. -/
theorem Laid.exchange (laid : Laid hash t m) (slot1 slot2 : Int)
    (range1 : 1 ≤ slot1 ∧ slot1 ≤ t.maxn) (range2 : 1 ≤ slot2 ∧ slot2 ≤ t.maxn)
    (apart : slot1 ≠ slot2) :
    ∃ b1 b2, getBucketS t.segs slot1 = some b1 ∧ getBucketS t.segs slot2 = some b2 ∧
      (∀ e ∈ b1, getSlot hash t e.1 = slot1) ∧ (∀ e ∈ b2, getSlot hash t e.1 = slot2) ∧
      ∀ b1' b2', (b1' ++ b2').Perm (b1 ++ b2) → ∃ segs1 segs2, putBucketS t.segs slot1 b1' =
        some segs1 ∧
          putBucketS segs1 slot2 b2' = some segs2 ∧ segs2.flatten.flatten.Perm t.entries ∧
          ∀ n size expSize conSize, t.bso ≤ n → n ≤ t.maxn → 16 ≤ n →
            (∀ e ∈ b1', getSlot hash { t with n := n } e.1 = slot1) →
            (∀ e ∈ b2', getSlot hash { t with n := n } e.1 = slot2) →
            (∀ key, getSlot hash t key ≠ slot1 → getSlot hash t key ≠ slot2 →
              getSlot hash { t with n := n } key = getSlot hash t key) →
            Laid hash { t with
              size := size, n := n, expSize := expSize, conSize := conSize, segs := segs2 } m := by
  obtain ⟨i, b1, rfl, first, got1⟩ := laid.bucket slot1 range1.1 range1.2
  obtain ⟨j, b2, rfl, second, got2⟩ := laid.bucket slot2 range2.1 range2.2
  have apart' : i ≠ j := by omega
  have inside1 := (List.getElem?_eq_some_iff.mp first).1
  have inside2 (b1' : Bucket Key Value) : j < (t.buckets.set i b1').length := by
    rw [length_set]
    exact (List.getElem?_eq_some_iff.mp second).1
  refine ⟨b1, b2, got1, got2, laid.placed i b1 first, laid.placed j b2 second,
    fun b1' b2' kept => ?_⟩
  obtain ⟨segs1, put1, wide1, length1, flat1⟩ := putBucketS_eq laid.wide inside1 b1'
  obtain ⟨segs2, put2, wide2, length2, flat2⟩ := putBucketS_eq wide1 (flat1 ▸ inside2 b1') b2'
  have flat : segs2.flatten = (t.buckets.set i b1').set j b2' := by
    rw [flat2, flat1]
    rfl
  have perm : segs2.flatten.flatten.Perm t.entries := by
    rw [flat]
    exact exchange_perm first second apart' kept
  refine ⟨segs1, segs2, put1, put2, perm,
    fun n size expSize conSize above below least placed1 placed2 others => ?_⟩
  obtain ⟨k, count, levels⟩ := laid.sized.level
  refine laid.moved ⟨⟨k, (length2.trans length1).trans count, levels⟩, above, below,
    least⟩ wide2 rfl
    perm fun k bkt present e member => ?_
  rw [Dict.buckets, flat] at present
  by_cases atSecond : j = k
  · subst atSecond
    rw [getElem?_set_self (inside2 b1')] at present
    exact placed2 e (Option.some.inj present ▸ member)
  · rw [getElem?_set_ne atSecond] at present
    by_cases atFirst : i = k
    · subst atFirst
      rw [getElem?_set_self inside1] at present
      exact placed1 e (Option.some.inj present ▸ member)
    · rw [getElem?_set_ne atFirst] at present
      have here := laid.placed k bkt present e member
      exact (others e.1 (by omega) (by omega)).trans here

end

/-- A dictionary between two operations. -/
structure Holds (hash : PHash Key) (t : Dict Key Value) (m : Key → Option Value) : Prop
    extends Laid hash t m where
  strict : t.bso < t.n
  size : t.size = t.entries.length

/-- The part of `maybe_expand_aux` after more segments were made. -/
theorem Laid.split (laid : Laid hash t m) (room : t.n < t.maxn) :
    ∃ b b1 b2 segs1 segs2, getBucketS t.segs (t.n + 1 - t.bso) = some b ∧
      rehash hash (t.n + 1 - t.bso) (t.n + 1) t.maxn b = some (b1, b2) ∧
      putBucketS t.segs (t.n + 1 - t.bso) b1 = some segs1 ∧
      putBucketS segs1 (t.n + 1) b2 = some segs2 ∧ segs2.flatten.flatten.Perm t.entries ∧
      ∀ size expSize conSize, Laid hash
        { t with size := size, n := t.n + 1, expSize := expSize, conSize := conSize, segs := segs2 } m := by
  obtain ⟨double, large⟩ := laid.sized.double
  have above := laid.sized.above
  have least := laid.sized.least
  obtain ⟨b, old, got, -, placed, fresh, exchange⟩ :=
    laid.exchange (t.n + 1 - t.bso) (t.n + 1) (by omega) (by omega) (by omega)
  -- the new bucket is empty, as slots go up to `n`
  obtain rfl : old = [] := by
    refine eq_nil_iff_forall_not_mem.mpr fun e member => ?_
    have here := fresh e member
    have range := laid.sized.getSlot_range hash e.1
    omega
  have either : ∀ e ∈ b, hash.phash e.1 t.maxn = t.n + 1 - t.bso ∨
      hash.phash e.1 t.maxn = t.n + 1 := fun e member => by
    have here := placed e member
    simp only [getSlot] at here
    split at here <;> omega
  have kept :=
    filter_append_perm (fun e : Key × Value => decide (hash.phash e.1 t.maxn = t.n + 1 - t.bso)) b
  obtain ⟨segs1, segs2, put1, put2, perm, laid'⟩ := exchange _ _ (by simpa using kept)
  refine ⟨b, _, _, segs1, segs2, got, rehash_eq either, put1, put2, perm,
    fun size expSize conSize =>
    laid' _ size expSize conSize (by omega) (by omega) (by omega) (fun e member => ?_)
      (fun e member => ?_) (fun key notFirst notSecond => ?_)⟩
  · have stays : hash.phash e.1 t.maxn = t.n + 1 - t.bso := by simpa using (mem_filter.mp member).2
    simp only [getSlot]
    split <;> omega
  · have leaves : ¬ hash.phash e.1 t.maxn = t.n + 1 - t.bso := by
      simpa using (mem_filter.mp member).2
    have moves := (either e (mem_filter.mp member).1).resolve_left leaves
    simp only [getSlot]
    split <;> omega
  · simp only [getSlot] at notFirst ⊢
    split at notFirst <;> split <;> omega

theorem Laid.maybeExpandAux {t0 : Dict Key Value} (laid : Laid hash t0 m) (strict : t0.bso < t0.n)
    (ic : Int) (size : t0.size + ic = t0.entries.length) :
    ∃ t, Dicts.maybeExpandAux hash t0 ic = some t ∧ Holds hash t m := by
  unfold Dicts.maybeExpandAux
  split
  case isTrue crowded =>
    obtain ⟨more, room, entries⟩ := laid.expandSegs
    obtain ⟨b, b1, b2, segs1, segs2, got, parted, put1, put2, perm, kept⟩ := more.split room
    refine ⟨_, by simp only [got, parted, put1, put2, Option.bind_eq_bind, Option.bind_some],
      kept ((maybeExpandSegs t0).size + ic) (((maybeExpandSegs t0).n + 1) * expandLoad)
        (((maybeExpandSegs t0).n + 1) * contractLoad), Int.lt_add_one_of_le more.sized.above, ?_⟩
    rw [maybeExpandSegs_size, size, ← entries, ← perm.length_eq]
    rfl
  case isFalse => exact ⟨_, rfl, laid.resized, strict, size⟩

theorem Laid.contractSegs (laid : Laid hash t m) :
    Laid hash (maybeContractSegs t) m ∧ (maybeContractSegs t).bso < (maybeContractSegs t).n ∧
      (maybeContractSegs t).entries = t.entries ∧ (maybeContractSegs t).size = t.size := by
  obtain ⟨double, large⟩ := laid.sized.double
  have above := laid.sized.above
  by_cases low : t.n = t.bso
  · have least := laid.sized.least
    obtain ⟨k, length, maxn, bso⟩ := laid.sized.level
    obtain ⟨k, rfl⟩ : ∃ k', k = k' + 1 := by
      cases k with
      | zero => omega
      | succ k => exact ⟨k, rfl⟩
    have slots (key : Key) : getSlot hash (maybeContractSegs t) key = getSlot hash t key := by
      refine getSlot_contractSegs double (by omega) (fun key => ?_) low key
      have range := hash.range key (t.bso / 2) (by omega)
      rwa [show 2 * (t.bso / 2) = t.bso by omega] at range
    have shape : maybeContractSegs t =
        { t with maxn := t.maxn / 2, bso := t.bso / 2, segs := t.segs.take (2 ^ k) } := by
      simp only [maybeContractSegs, if_pos low, Dicts.contractSegs]
      congr 2
      omega
    have parts : t.buckets = (maybeContractSegs t).buckets ++ (t.segs.drop (2 ^ k)).flatten := by
      rw [shape, Dict.buckets, Dict.buckets, ← flatten_append, take_append_drop]
    have wide : Wide 16 (maybeContractSegs t).segs := by
      rw [shape]
      exact fun seg member => laid.wide seg (mem_of_mem_take member)
    have kept : (maybeContractSegs t).segs.length = 2 ^ k := by
      rw [shape, length_take, length]
      omega
    have size : ((maybeContractSegs t).buckets.length : Int) = t.n := by
      rw [Dict.buckets, wide.length_flatten, kept]
      push_cast
      omega
    -- the slots above `n` are empty
    have rest : (t.segs.drop (2 ^ k)).flatten.flatten = [] := by
      refine eq_nil_iff_forall_not_mem.mpr fun e member => ?_
      obtain ⟨bkt, inside, within⟩ := mem_flatten.mp member
      obtain ⟨j, place⟩ := mem_iff_getElem?.mp inside
      have present : t.buckets[(maybeContractSegs t).buckets.length + j]? = some bkt := by
        rw [parts, getElem?_append_right (Nat.le_add_right _ _), Nat.add_sub_cancel_left, place]
      have here := laid.placed _ bkt present e within
      have range := laid.sized.getSlot_range hash e.1
      omega
    have entries : (maybeContractSegs t).entries = t.entries := by
      rw [Dict.entries, Dict.entries, parts, flatten_append, rest, append_nil]
    have sized : Sized (maybeContractSegs t) := by
      refine ⟨⟨k, kept, ?_, ?_⟩, ?_, ?_, ?_⟩ <;> simp only [shape] <;> omega
    refine ⟨laid.moved sized wide (by rw [shape]) (entries ▸ .refl _) ?_, ?_, entries,
      by rw [shape]⟩
    · intro i bkt present e member
      rw [slots]
      refine laid.placed i bkt ?_ e member
      rw [parts, List.getElem?_append_left (List.getElem?_eq_some_iff.mp present).1, present]
    · simp only [shape]
      omega
  · have same : maybeContractSegs t = t := if_neg low
    rw [same]
    exact ⟨laid, by omega, rfl, rfl⟩

/-- The part of `maybe_contract` before segments are given back. -/
theorem Laid.join (laid : Laid hash t m) (strict : t.bso < t.n) (large : 16 < t.n) :
    ∃ b1 b2 segs1 segs2, getBucketS t.segs (t.n - t.bso) = some b1 ∧
    getBucketS t.segs t.n = some b2 ∧
      putBucketS t.segs (t.n - t.bso) (b1 ++ b2) = some segs1 ∧
      putBucketS segs1 t.n [] = some segs2 ∧ segs2.flatten.flatten.Perm t.entries ∧
      ∀ size expSize conSize, Laid hash
        { t with size := size, n := t.n - 1, expSize := expSize, conSize := conSize, segs := segs2 } m := by
  obtain ⟨double, positive⟩ := laid.sized.double
  have below := laid.sized.below
  obtain ⟨b1, b2, got, got', placed1, placed2, exchange⟩ :=
    laid.exchange (t.n - t.bso) t.n (by omega) (by omega) (by omega)
  obtain ⟨segs1, segs2, put1, put2, perm, laid'⟩ := exchange (b1 ++ b2) [] (by simp)
  refine ⟨b1, b2, segs1, segs2, got, got', put1, put2, perm, fun size expSize conSize =>
    laid' _ size expSize conSize (by omega) (by omega) (by omega) (fun e member => ?_)
      (fun e member => by cases member) (fun key notFirst notSecond => ?_)⟩
  · have range := laid.sized.phash_range hash e.1
    rcases mem_append.mp member with old | moved
    · have place := placed1 e old
      simp only [getSlot] at place ⊢
      split at place <;> split <;> omega
    · have place := placed2 e moved
      simp only [getSlot] at place ⊢
      split at place <;> split <;> omega
  · simp only [getSlot] at notSecond ⊢
    split at notSecond <;> split <;> omega

theorem Laid.maybeContract (laid : Laid hash t m) (strict : t.bso < t.n)
    (dc : Int) (size : t.size - dc = t.entries.length) :
    ∃ t', Dicts.maybeContract t dc = some t' ∧ Holds hash t' m := by
  unfold Dicts.maybeContract
  split
  case isTrue sparse =>
    obtain ⟨b1, b2, segs1, segs2, got, got', put1, put2, perm, kept⟩ := laid.join strict sparse.2
    obtain ⟨less, strict', entries, size'⟩ := (kept (t.size - dc) ((t.n - 1) * expandLoad)
      ((t.n - 1) * contractLoad)).contractSegs
    refine ⟨_, by simp only [got, got', put1, put2, Option.bind_eq_bind, Option.bind_some], less,
      strict', ?_⟩
    rw [size', entries, size, ← perm.length_eq]
    rfl
  case isFalse => exact ⟨_, rfl, laid.resized, strict, size⟩

end Otp.Dicts
