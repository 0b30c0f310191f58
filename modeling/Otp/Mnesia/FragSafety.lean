import Otp.Mnesia.Frag
import Otp.Library.LinearHash
import Mathlib.Data.List.Nodup

/-! Records stay in the fragment of their hash key; which records a split or a merge loses. -/

namespace Otp.Mnesia.Frag

open List hiding next rec
open Function (update update_self update_of_ne)

variable {Term Rec : Type} {hashes : Hashes Term} {element : Nat → Rec → Term}

/-- The fragments are those of the last doubling and the ones split since. -/
structure HashState.Valid (state : HashState) : Prop where
  phash2 : state.function = .phash2
  count : state.nFragments + 1 = power2 state.nDoubles + state.nextNToSplit
  positive : 1 ≤ state.nextNToSplit
  bounded : state.nextNToSplit ≤ power2 state.nDoubles

theorem power2_succ (l : Nat) : power2 (l + 1) = 2 * power2 l := Nat.pow_succ'

theorem power2_pos (l : Nat) : 0 < power2 l := Nat.two_pow_pos l

theorem initState_valid : initState.Valid := ⟨rfl, rfl, Nat.le_refl 1, Nat.le_refl 1⟩

variable {state : HashState}

theorem HashState.Valid.addFrag (valid : state.Valid) : state.addFrag.1.Valid := by
  obtain ⟨phash2, count, positive, bounded⟩ := valid
  have double := power2_succ state.nDoubles
  unfold HashState.addFrag
  dsimp only
  split
  · exact ⟨phash2, by dsimp only; omega, Nat.le_refl 1,
      by dsimp only; have := power2_pos state.nDoubles; omega⟩
  · exact ⟨phash2, by dsimp only; omega, by dsimp only; omega, by dsimp only; omega⟩

theorem addFrag_nFragments (state : HashState) :
    state.addFrag.1.nFragments = state.nFragments + 1 := by
  unfold HashState.addFrag
  dsimp only
  split <;> rfl

theorem keyToFragNumber_eq (valid : state.Valid) (key : Term) : state.keyToFragNumber hashes key =
      if hashes.phash2 key (power2 (state.nDoubles + 1)) + 1 > state.nFragments then
        hashes.phash2 key (power2 (state.nDoubles + 1)) + 1 - power2 state.nDoubles
      else hashes.phash2 key (power2 (state.nDoubles + 1)) + 1 := by
  rw [HashState.keyToFragNumber, valid.phash2]

theorem keyToFragNumber_range (valid : state.Valid) (key : Term) :
    1 ≤ state.keyToFragNumber hashes key ∧ state.keyToFragNumber hashes key ≤ state.nFragments := by
  have count := valid.count
  have positive := valid.positive
  have double := power2_succ state.nDoubles
  have small := hashes.phash2_lt key _ (power2_pos (state.nDoubles + 1))
  rw [keyToFragNumber_eq valid]
  split <;> omega

/-- With one fragment more, a key stays or moves from the fragment that is split to the new one. -/
theorem keyToFragNumber_addFrag (valid : state.Valid) (key : Term) :
    state.addFrag.1.keyToFragNumber hashes key = state.keyToFragNumber hashes key ∨
      state.keyToFragNumber hashes key = state.nextNToSplit ∧
        state.addFrag.1.keyToFragNumber hashes key = state.nFragments + 1 := by
  have count := valid.count
  have double := power2_succ state.nDoubles
  have small := hashes.phash2_lt key _ (power2_pos (state.nDoubles + 1))
  rw [keyToFragNumber_eq valid, keyToFragNumber_eq valid.addFrag]
  unfold HashState.addFrag
  dsimp only
  split
  case isTrue full =>
    -- all fragments of the last doubling have been split: one bit more of the hash value counts
    have half := hashes.phash2_double key _ (power2_pos (state.nDoubles + 1))
    have bound := hashes.phash2_lt key _ (power2_pos (state.nDoubles + 1 + 1))
    have halves :=
      Library.mod_half _ (hashes.phash2 key (2 * power2 (state.nDoubles + 1)))
        (power2_pos (state.nDoubles + 1))
    rw [power2_succ (state.nDoubles + 1)] at bound ⊢
    rw [Nat.mod_eq_of_lt bound] at halves
    dsimp only
    split <;> split <;> omega
  case isFalse =>
    dsimp only
    split <;> split <;> omega

/-- Deleting a fragment undoes adding it. -/
theorem addFrag_delFrag (valid : state.Valid) (several : 1 < state.nFragments) :
    state.delFrag.1.Valid ∧ state.delFrag.1.addFrag.1 = state ∧
      state.delFrag.2 = ([state.nFragments], [state.delFrag.1.nextNToSplit]) := by
  obtain ⟨nFragments, nextNToSplit, nDoubles, function⟩ := state
  obtain ⟨phash2, count, positive, bounded⟩ := valid
  dsimp only at *
  unfold HashState.delFrag
  dsimp only
  split
  case isTrue first =>
    -- the last doubling is undone
    obtain ⟨l, rfl⟩ : ∃ l, nDoubles = l + 1 := by
      refine ⟨nDoubles - 1, ?_⟩
      by_contra none
      have zero : nDoubles = 0 := by omega
      rw [zero] at count
      simp only [power2] at count
      omega
    have double := power2_succ l
    rw [Nat.add_sub_cancel]
    refine ⟨⟨phash2, by dsimp only; omega, by dsimp only; omega, Nat.le_refl _⟩, ?_, rfl⟩
    simp only [HashState.addFrag, if_true, HashState.mk.injEq, and_true]
    omega
  case isFalse later =>
    refine ⟨⟨phash2, by dsimp only; omega, by dsimp only; omega, by dsimp only; omega⟩, ?_, rfl⟩
    have other : ¬ power2 nDoubles + 1 = nextNToSplit - 1 + 1 := by omega
    simp only [HashState.addFrag, if_neg other, HashState.mk.injEq, and_true]
    omega

section Fragments

variable {type : TableType}

/-- No record twice, and in a set no key. -/
def Wf (element : Nat → Rec → Term) (type : TableType) (recs : List Rec) : Prop :=
  recs.Nodup ∧ (type = .set → recs.Pairwise fun rec other => element 2 rec ≠ element 2 other)

theorem Wf.filter (wf : Wf element type recs) (keep : Rec → Bool) :
    Wf element type (recs.filter keep) :=
  ⟨wf.1.filter keep, fun set => (wf.2 set).filter keep⟩

theorem Wf.keys_reverse (wf : Wf element type recs) (set : type = .set) :
    recs.reverse.Pairwise fun rec other => element 2 rec ≠ element 2 other :=
  pairwise_reverse.mpr ((wf.2 set).imp Ne.symm)

theorem Wf.nil : Wf element type ([] : List Rec) := ⟨nodup_nil, fun _ => List.Pairwise.nil⟩

variable [DecidableEq Term] [DecidableEq Rec]

theorem mem_insert : rec ∈ insert element type recs new ↔
    rec = new ∨ rec ∈ recs ∧ (type = .set → element 2 rec ≠ element 2 new) := by
  cases type with
  | set => simp [insert]
  | bag =>
    unfold insert
    dsimp only
    split
    case isTrue present =>
      constructor
      · exact fun member => .inr ⟨member, nofun⟩
      · rintro (rfl | ⟨member, -⟩)
        · exact present
        · exact member
    case isFalse => simp

theorem Wf.insert (wf : Wf element type recs) (new : Rec) :
    Wf element type (insert element type recs new) := by
  cases type with
  | set =>
    have rest := wf.filter fun other => element 2 other ≠ element 2 new
    refine ⟨nodup_cons.mpr ⟨by simp, rest.1⟩, fun _ => pairwise_cons.mpr ⟨?_, rest.2 rfl⟩⟩
    intro other member
    have apart := (mem_filter.mp member).2
    simpa using fun same => of_decide_eq_true apart same.symm
  | bag =>
    unfold Frag.insert
    dsimp only
    split
    case isTrue => exact wf
    case isFalse absent => exact ⟨nodup_cons.mpr ⟨absent, wf.1⟩, nofun⟩

/-- Records written one after the other, in a set with a key each. -/
theorem mem_foldl_insert {news : List Rec} (recs : List Rec)
    (keys : type = .set → news.Pairwise fun rec other => element 2 rec ≠ element 2 other) :
    rec ∈ news.foldl (insert element type) recs ↔
      rec ∈ news ∨ rec ∈ recs ∧ (type = .set → ∀ new ∈ news, element 2 rec ≠ element 2 new) := by
  induction news generalizing recs with
  | nil => simp
  | cons new news ih =>
    rw [foldl_cons, ih _ fun set => (pairwise_cons.mp (keys set)).2, mem_insert]
    constructor
    · rintro (later | ⟨rfl | ⟨member, first⟩, others⟩)
      · exact .inl (mem_cons_of_mem new later)
      · exact .inl mem_cons_self
      · refine .inr ⟨member, fun set => forall_mem_cons.mpr ⟨first set, others set⟩⟩
    · rintro (here | ⟨member, apart⟩)
      · rcases mem_cons.mp here with rfl | later
        · exact .inr ⟨.inl rfl, fun set => (pairwise_cons.mp (keys set)).1⟩
        · exact .inl later
      · refine .inr ⟨.inr ⟨member, fun set => ?_⟩, fun set => ?_⟩
        · exact (forall_mem_cons.mp (apart set)).1
        · exact (forall_mem_cons.mp (apart set)).2

theorem Wf.foldl_insert (wf : Wf element type recs) (news : List Rec) :
    Wf element type (news.foldl (Frag.insert element type) recs) := by
  induction news generalizing recs with
  | nil => exact wf
  | cons new news ih => exact ih (wf.insert new)

/-- Records moved from one fragment to another. -/
theorem foldl_moves (apart : newN ≠ oldN) (moved : List Rec) (frags : Nat → List Rec) (n : Nat) :
    (moved.flatMap fun rec => [RecOp.write newN rec, .delete oldN (element 2 rec)]).foldl
      (RecOp.apply element type) frags n =
      if n = newN then moved.foldl (insert element type) (frags newN)
      else if n = oldN then (frags oldN).filter fun other => ∀ rec ∈ moved,
        element 2 other ≠ element 2 rec
      else frags n := by
  induction moved generalizing frags with
  | nil =>
    by_cases here : n = newN
    · simp [here]
    · by_cases there : n = oldN <;> simp [here, there, apart.symm]
  | cons rec moved ih =>
    rw [flatMap_cons, foldl_append, ih, foldl_cons, foldl_cons, foldl_nil]
    simp only [RecOp.apply]
    by_cases here : n = newN
    · rw [if_pos here, if_pos here, update_of_ne apart, update_self, foldl_cons]
    rw [if_neg here, if_neg here]
    by_cases there : n = oldN
    · rw [if_pos there, if_pos there, update_self, update_of_ne apart.symm, Frag.delete,
        filter_filter]
      simp [Bool.and_comm]
    · rw [if_neg there, if_neg there, update_of_ne there, update_of_ne here]

theorem foldl_writes {moved : List Rec} :
    (moved.map (RecOp.write newN)).foldl (RecOp.apply element type) frags n =
      if n = newN then moved.foldl (insert element type) (frags newN) else frags n := by
  induction moved generalizing frags with
  | nil => by_cases here : n = newN <;> simp [here]
  | cons rec moved ih =>
    rw [map_cons, foldl_cons, ih]
    simp only [RecOp.apply]
    by_cases here : n = newN
    · rw [if_pos here, if_pos here, update_self, foldl_cons]
    · rw [if_neg here, if_neg here, update_of_ne here]

end Fragments

/-- The fragment of a record. -/
def fragOf (hashes : Hashes Term) (element : Nat → Rec → Term) (fh : FragState) (rec : Rec) : Nat :=
  fh.hashState.keyToFragNumber hashes (element (keyPos fh) rec)

structure Sound (hashes : Hashes Term) (element : Nat → Rec → Term) (table : Table Rec) : Prop where
  hash : table.fh.hashState.Valid
  count : table.fh.hashState.nFragments = table.fh.nFragments
  placed : ∀ n rec, rec ∈ table.frags n → fragOf hashes element table.fh rec = n
  wf : ∀ n, Wf element table.type (table.frags n)

variable {table : Table Rec}

theorem create_sound : Sound hashes element (create type foreignKey) where
  hash := initState_valid
  count := rfl
  placed := fun _ _ member => absurd member not_mem_nil
  wf := fun _ => Wf.nil

/-- The hash state is in step with the table. -/
structure FragState.Counted (fh : FragState) : Prop where
  valid : fh.hashState.Valid
  count : fh.hashState.nFragments = fh.nFragments

theorem Sound.counted (sound : Sound hashes element table) : table.fh.Counted :=
  ⟨sound.hash, sound.count⟩

theorem keyToN_ok (counted : fh.Counted) :
    keyToN hashes fh key = .ok (fh.hashState.keyToFragNumber hashes key) := by
  have range := @keyToFragNumber_range _ hashes _ counted.valid key
  rw [counted.count] at range
  rw [keyToN, if_pos range]

theorem keyToN_record (counted : fh.Counted)
    (rec : Rec) : keyToN hashes fh (element (keyPos fh) rec) = .ok (fragOf hashes element fh rec) :=
  keyToN_ok counted

theorem fragOf_range (counted : fh.Counted)
    (rec : Rec) : 1 ≤ fragOf hashes element fh rec ∧ fragOf hashes element fh rec ≤ fh.nFragments :=
  counted.count ▸ keyToFragNumber_range counted.valid _

/-- Another content of one fragment. -/
theorem Sound.update (sound : Sound hashes element table) (wf : Wf element table.type recs)
    (placed : ∀ rec ∈ recs, fragOf hashes element table.fh rec = n) :
    Sound hashes element { table with frags := update table.frags n recs } where
  hash := sound.hash
  count := sound.count
  placed := by
    intro other rec member
    dsimp only at member ⊢
    by_cases same : other = n
    · cases same
      rw [update_self] at member
      exact placed rec member
    · rw [update_of_ne same] at member
      exact sound.placed other rec member
  wf := by
    intro other
    dsimp only
    by_cases same : other = n
    · cases same
      rw [update_self]
      exact wf
    · rw [update_of_ne same]
      exact sound.wf other

theorem Sound.filter (sound : Sound hashes element table) (n : Nat) (keep : Rec → Bool) :
    Sound hashes element { table with frags := Function.update table.frags n ((table.frags n).filter keep) } :=
  sound.update ((sound.wf n).filter keep) fun rec member =>
    sound.placed n rec (mem_of_mem_filter member)

section Changes

theorem write_sound [DecidableEq Term] [DecidableEq Rec] (sound : Sound hashes element table) :
    ∃ next, write hashes element table rec = .ok next ∧ Sound hashes element next := by
  rw [write, recordToFrag, keyToN_ok sound.counted]
  refine ⟨_, rfl, sound.update ((sound.wf _).insert rec) ?_⟩
  intro other member
  rcases mem_insert.mp member with rfl | ⟨present, -⟩
  · rfl
  · exact sound.placed _ other present

theorem deleteKey_sound [DecidableEq Term] (sound : Sound hashes element table)
    (done : deleteKey hashes element table foreignKey key = .ok next) :
    Sound hashes element next := by
  unfold deleteKey at done
  cases number : keyToFrag hashes table.fh foreignKey key with
  | error => rw [number] at done; cases done
  | ok n =>
    rw [number] at done
    cases done
    exact sound.filter n _

theorem deleteObject_sound [DecidableEq Rec] (sound : Sound hashes element table) :
    ∃ next, deleteObject hashes element table rec = .ok next ∧ Sound hashes element next := by
  rw [deleteObject, recordToFrag, keyToN_ok sound.counted]
  exact ⟨_, rfl, sound.filter _ _⟩

theorem mergeFrags_pair :
    mergeFrags (sortFrags [a]) (sortFrags [b]) = if a ≤ b then [a, b] else [b, a] := by
  simp only [mergeFrags, sortFrags]
  split <;> simp_all

theorem locked_pair (first : 1 ≤ b) (inside : b ≤ n)
    (pair : indecies = [a, b] ∨ indecies = [b, a]) :
    locked (makeFragNamesAndAcquireLocks n indecies) b := by
  have place : b - 1 < n := by omega
  rcases pair with rfl | rfl
  · simp [locked, makeFragNamesAndAcquireLocks, place]
  · by_cases same : a - 1 = b - 1
    · simp [locked, makeFragNamesAndAcquireLocks, place, same]
    · simp [locked, makeFragNamesAndAcquireLocks, place, same]

theorem doSplit_ok (counted : fh.Counted)
    (lock : locked fragNames newN)
    (two : ∀ rec ∈ recs, fragOf hashes element fh rec ≠ oldN → fragOf hashes element fh rec = newN)
    (ops : List (RecOp Term Rec)) :
    doSplit hashes element fh oldN fragNames recs ops =
      .ok (((recs.filter fun rec => fragOf hashes element fh rec ≠ oldN).reverse.flatMap fun rec =>
        [.write newN rec, .delete oldN (element 2 rec)]) ++ ops) := by
  induction recs generalizing ops with
  | nil => rfl
  | cons rec recs ih =>
    have others := ih fun other member => two other (mem_cons_of_mem rec member)
    rw [doSplit, keyToN_record counted]
    simp only [Except.bind, bind]
    by_cases stays : fragOf hashes element fh rec = oldN
    · rw [if_pos stays, others, filter_cons_of_neg (by simpa using stays)]
    · have moves := two rec mem_cons_self stays
      rw [if_neg stays, filter_cons_of_pos (by simpa using stays)]
      rw [moves, if_pos lock, others, reverse_cons, flatMap_append, append_assoc]
      rfl

theorem doMerge_ok (counted : fh.Counted)
    (lock : locked fragNames newN) (last : oldN = fh.nFragments + 1)
    (all : ∀ rec ∈ recs, fragOf hashes element fh rec = newN) (ops : List (RecOp Term Rec)) :
    doMerge hashes element fh oldN fragNames recs ops =
      .ok (recs.reverse.map (RecOp.write newN) ++ ops) := by
  induction recs generalizing ops with
  | nil => rfl
  | cons rec recs ih =>
    have others := ih fun other member => all other (mem_cons_of_mem rec member)
    have here := all rec mem_cons_self
    have range := @fragOf_range _ _ hashes element _ counted rec
    rw [doMerge, keyToN_record counted]
    simp only [Except.bind, bind]
    rw [if_neg (by omega), if_neg (by omega), if_pos last, here, if_pos lock, others, reverse_cons,
      map_append, append_assoc]
    rfl

variable {fh : FragState}

/-- One fragment more. -/
def FragState.grown (fh : FragState) : FragState :=
  { fh with nFragments := fh.nFragments + 1, hashState := fh.hashState.addFrag.1 }

/-- One fragment less. -/
def FragState.shrunk (fh : FragState) : FragState :=
  { fh with nFragments := fh.nFragments - 1, hashState := fh.hashState.delFrag.1 }

theorem adjustBeforeSplit_ok (counted : fh.Counted) :
    adjustBeforeSplit fh = .ok (fh.grown, [fh.hashState.nextNToSplit],
      [fh.hashState.nextNToSplit, fh.nFragments + 1]) := by
  obtain ⟨⟨-, total, positive, bounded⟩, count⟩ := counted
  have split : fh.hashState.addFrag.2 = ([fh.hashState.nextNToSplit], [fh.nFragments + 1]) := by
    rw [HashState.addFrag, count]
  have order : fh.hashState.nextNToSplit ≤ fh.nFragments + 1 := by omega
  unfold adjustBeforeSplit
  rw [← Prod.eta fh.hashState.addFrag, split]
  dsimp only
  rw [mergeFrags_pair, if_pos order, if_pos]
  · rw [sortFrags, mergeSort_singleton]
    rfl
  · simp
    omega

theorem adjustBeforeMerge_ok (counted : fh.Counted) (several : 1 < fh.nFragments) :
    adjustBeforeMerge fh =
      .ok (fh.shrunk, [fh.nFragments], [fh.shrunk.hashState.nextNToSplit, fh.nFragments]) := by
  obtain ⟨before, -, parts⟩ := addFrag_delFrag counted.valid (counted.count ▸ several)
  have fewer : fh.hashState.delFrag.1.nFragments = fh.nFragments - 1 := by
    rw [← counted.count, HashState.delFrag]
    split <;> rfl
  have total := before.count
  have positive := before.positive
  have bounded := before.bounded
  have order : ¬ fh.nFragments ≤ fh.hashState.delFrag.1.nextNToSplit := by omega
  rw [counted.count] at parts
  unfold adjustBeforeMerge
  rw [← Prod.eta fh.hashState.delFrag, parts]
  dsimp only
  rw [mergeFrags_pair, if_neg order, if_pos, sortFrags, mergeSort_singleton, if_pos mem_cons_self]
  · rfl
  · simp
    omega

/-- The records that leave the fragment that is split, the last one first. -/
def moved (hashes : Hashes Term) (element : Nat → Rec → Term) (table : Table Rec) : List Rec :=
  ((table.frags table.fh.hashState.nextNToSplit).filter fun rec =>
    fragOf hashes element table.fh.grown rec ≠ table.fh.hashState.nextNToSplit).reverse

theorem grown_valid (counted : fh.Counted) : fh.grown.Counted :=
  ⟨counted.valid.addFrag, by rw [FragState.grown, addFrag_nFragments, counted.count]⟩

theorem nextNToSplit_lt (counted : fh.Counted) : fh.hashState.nextNToSplit < fh.nFragments + 1 := by
  obtain ⟨⟨-, total, -, -⟩, count⟩ := counted
  have := power2_pos fh.hashState.nDoubles
  omega

theorem fragOf_grown (counted : fh.Counted) (rec : Rec) :
    fragOf hashes element fh.grown rec = fragOf hashes element fh rec ∨
      fragOf hashes element fh rec = fh.hashState.nextNToSplit ∧
        fragOf hashes element fh.grown rec = fh.nFragments + 1 := by
  have two := @keyToFragNumber_addFrag _ hashes _ counted.valid (element (keyPos fh) rec)
  rwa [counted.count] at two

theorem shrunk_nFragments (several : 1 < fh.nFragments) :
    fh.nFragments = fh.shrunk.nFragments + 1 := by
  simp only [FragState.shrunk]
  omega

theorem shrunk_valid (counted : fh.Counted) (several : 1 < fh.nFragments) :
    fh.shrunk.Counted ∧ fh.shrunk.grown = fh := by
  obtain ⟨before, undone, -⟩ := addFrag_delFrag counted.valid (counted.count ▸ several)
  have fewer := addFrag_nFragments fh.hashState.delFrag.1
  rw [undone] at fewer
  have count := counted.count
  refine ⟨⟨before, ?_⟩, ?_⟩
  · simp only [FragState.shrunk]
    omega
  · simp only [FragState.grown, FragState.shrunk, undone]
    rw [Nat.sub_add_cancel (by omega)]

theorem fragOf_shrunk (counted : fh.Counted) (several : 1 < fh.nFragments) (rec : Rec) :
    fragOf hashes element fh rec = fragOf hashes element fh.shrunk rec ∨
      fragOf hashes element fh.shrunk rec = fh.shrunk.hashState.nextNToSplit ∧
        fragOf hashes element fh rec = fh.nFragments := by
  obtain ⟨counted', undone⟩ := shrunk_valid counted several
  have two := @fragOf_grown _ _ hashes element _ counted' rec
  rwa [undone, ← shrunk_nFragments several] at two

theorem fragOf_merged (counted : fh.Counted)
    (several : 1 < fh.nFragments) (last : fragOf hashes element fh rec = fh.nFragments) :
    fragOf hashes element fh.shrunk rec = fh.shrunk.hashState.nextNToSplit := by
  rcases @fragOf_shrunk _ _ hashes element _ counted several rec with same | ⟨merged, -⟩
  · obtain ⟨counted', -⟩ := shrunk_valid counted several
    have range := @fragOf_range _ _ hashes element _ counted' rec
    have fewer := shrunk_nFragments several
    omega
  · exact merged

/-- The records of all fragments. -/
def records (table : Table Rec) : List Rec := (range' 1 table.fh.nFragments).flatMap table.frags

theorem mem_records (sound : Sound hashes element table) :
    rec ∈ records table ↔ rec ∈ table.frags (fragOf hashes element table.fh rec) := by
  rw [records, mem_flatMap]
  constructor
  · rintro ⟨n, -, member⟩
    rw [sound.placed n rec member]
    exact member
  · intro member
    have range := @fragOf_range _ _ hashes element _ sound.counted rec
    exact ⟨_, mem_range'_1.mpr (by omega), member⟩

theorem nodup_records (sound : Sound hashes element table) : (records table).Nodup := by
  refine nodup_flatMap.mpr ⟨fun n _ => (sound.wf n).1, ?_⟩
  refine List.Pairwise.imp (fun {a b} apart rec here there => ?_)
    (nodup_range' (s := 1) (n := table.fh.nFragments))
  exact apart ((sound.placed a rec here).symm.trans (sound.placed b rec there))

/-- Two tables hold the same records when none is lost on the way. -/
theorem records_perm {next : Table Rec} {lost : Rec → Prop} (sound : Sound hashes element table)
    (sound' : Sound hashes element next)
    (kept : ∀ rec, rec ∈ next.frags (fragOf hashes element next.fh rec) ↔
      rec ∈ table.frags (fragOf hashes element table.fh rec) ∧ ¬ lost rec) :
    (records next).Perm (records table) ↔ ∀ rec ∈ records table, ¬ lost rec := by
  rw [perm_ext_iff_of_nodup (nodup_records sound') (nodup_records sound)]
  refine forall_congr' fun rec => ?_
  rw [mem_records sound, mem_records sound', kept]
  exact and_iff_left_iff_imp

variable [DecidableEq Term] [DecidableEq Rec]

theorem addFrag_ok (sound : Sound hashes element table) :
    addFrag hashes element table = .ok { table with
        fh := table.fh.grown
        frags := ((moved hashes element table).flatMap fun rec =>
            [RecOp.write (table.fh.nFragments + 1) rec,
              .delete table.fh.hashState.nextNToSplit (element 2 rec)]).foldl
          (RecOp.apply element table.type)
          (update table.frags (table.fh.nFragments + 1) []) } := by
  have counted := grown_valid sound.counted
  have lock : locked (makeFragNamesAndAcquireLocks table.fh.grown.nFragments
      [table.fh.hashState.nextNToSplit, table.fh.nFragments + 1]) (table.fh.nFragments + 1) :=
    locked_pair (by omega) (Nat.le_refl _) (.inl rfl)
  have two : ∀ rec ∈ table.frags table.fh.hashState.nextNToSplit,
      fragOf hashes element table.fh.grown rec ≠ table.fh.hashState.nextNToSplit →
        fragOf hashes element table.fh.grown rec = table.fh.nFragments + 1 := by
    intro rec member moves
    rcases @fragOf_grown _ _ hashes element _ sound.counted rec with same | ⟨-, new⟩
    · rw [same, sound.placed _ rec member] at moves
      exact absurd rfl moves
    · exact new
  rw [addFrag, adjustBeforeSplit_ok sound.counted]
  simp only [bind, Except.bind, split, doSplit_ok counted lock two, append_nil]
  rfl

/-- A record in the fragment that is split whose key another one takes along. -/
def Lost (hashes : Hashes Term) (element : Nat → Rec → Term) (table : Table Rec)
    (rec : Rec) : Prop :=
  fragOf hashes element table.fh.grown rec = table.fh.hashState.nextNToSplit ∧
    ∃ other ∈ table.frags table.fh.hashState.nextNToSplit,
      fragOf hashes element table.fh.grown other ≠ table.fh.hashState.nextNToSplit ∧
      element 2 rec = element 2 other

/-- The records of a fragment after a split. -/
theorem mem_addFrag (sound : Sound hashes element table)
    (done : addFrag hashes element table = .ok next) (n : Nat) :
    rec ∈ next.frags n ↔
      if n = table.fh.nFragments + 1 then
        rec ∈ table.frags table.fh.hashState.nextNToSplit ∧
          fragOf hashes element table.fh.grown rec ≠ table.fh.hashState.nextNToSplit
      else rec ∈ table.frags n ∧ (n = table.fh.hashState.nextNToSplit →
        ∀ other ∈ table.frags n, fragOf hashes element table.fh.grown other ≠ n →
          element 2 rec ≠ element 2 other) := by
  have apart := nextNToSplit_lt sound.counted
  rw [addFrag_ok sound] at done
  cases done
  dsimp only
  rw [foldl_moves apart.ne']
  by_cases new : n = table.fh.nFragments + 1
  · have keys : table.type = .set →
        (moved hashes element table).Pairwise fun rec other => element 2 rec ≠ element 2 other :=
      ((sound.wf _).filter _).keys_reverse
    rw [if_pos new, if_pos new, mem_foldl_insert _ keys, moved, mem_reverse]
    simp
  · rw [if_neg new, if_neg new]
    by_cases old : n = table.fh.hashState.nextNToSplit
    · rw [if_pos old, update_of_ne apart.ne]
      simp [moved, ← old]
    · rw [update_of_ne new]
      simp [old]

theorem addFrag_sound (sound : Sound hashes element table)
    (done : addFrag hashes element table = .ok next) : Sound hashes element next := by
  have counted := grown_valid sound.counted
  have members := fun n rec => @mem_addFrag _ _ hashes element table _ _ next rec sound done n
  rw [addFrag_ok sound] at done
  cases done
  refine ⟨counted.valid, counted.count, ?_, ?_⟩
  · intro n rec member
    have origin := (members n rec).mp member
    by_cases new : n = table.fh.nFragments + 1
    · rw [if_pos new] at origin
      rcases @fragOf_grown _ _ hashes element _ sound.counted rec with same | ⟨-, last⟩
      · exact absurd (same.trans (sound.placed _ rec origin.1)) origin.2
      · rw [last, new]
    · rw [if_neg new] at origin
      obtain ⟨present, apart⟩ := origin
      have place := sound.placed n rec present
      rcases @fragOf_grown _ _ hashes element _ sound.counted rec with same | ⟨split, last⟩
      · rw [same, place]
      · refine absurd rfl (apart (place.symm.trans split) rec present ?_)
        rw [last]
        exact fun same => new same.symm
  · intro n
    dsimp only
    have apart := nextNToSplit_lt sound.counted
    rw [foldl_moves apart.ne']
    split
    · rw [update_self]
      exact Wf.nil.foldl_insert _
    · split
      · rw [update_of_ne apart.ne]
        exact (sound.wf _).filter _
      · rw [update_of_ne ‹_›]
        exact sound.wf n

/-- A split keeps the records but those that are lost. -/
theorem mem_fragOf_addFrag (sound : Sound hashes element table)
    (done : addFrag hashes element table = .ok next) :
    rec ∈ next.frags (fragOf hashes element next.fh rec) ↔
      rec ∈ table.frags (fragOf hashes element table.fh rec) ∧ ¬ Lost hashes element table rec := by
  have range := @fragOf_range _ _ hashes element _ sound.counted rec
  have apart := nextNToSplit_lt sound.counted
  have grown : next.fh = table.fh.grown := by
    rw [addFrag_ok sound] at done
    cases done
    rfl
  rw [mem_addFrag sound done, grown]
  rcases @fragOf_grown _ _ hashes element _ sound.counted rec with same | ⟨split, last⟩
  · rw [if_neg (by omega), Lost, same]
    refine and_congr_right fun _ => ⟨?_, ?_⟩
    · rintro kept ⟨here, other, member, moves, key⟩
      exact kept here other (here ▸ member) (here ▸ moves) key
    · intro kept here other member moves key
      exact kept ⟨here, other, here ▸ member, here ▸ moves, key⟩
  · rw [last, if_pos rfl, split, Lost, last]
    exact ⟨fun ⟨member, _⟩ => ⟨member, fun lost => apart.ne' lost.1⟩,
      fun ⟨member, _⟩ => ⟨member, apart.ne'⟩⟩

/-! The last fragment goes into the one it was split from. -/

theorem delFrag_ok (sound : Sound hashes element table) (several : 1 < table.fh.nFragments) :
    delFrag hashes element table = .ok { table with
        fh := table.fh.shrunk
        frags := ((table.frags table.fh.nFragments).reverse.map
            (RecOp.write table.fh.shrunk.hashState.nextNToSplit)).foldl
              (RecOp.apply element table.type)
          (update table.frags table.fh.nFragments []) } := by
  obtain ⟨counted, -⟩ := shrunk_valid sound.counted several
  have inside := nextNToSplit_lt counted
  have last := shrunk_nFragments several
  have lock : locked (makeFragNamesAndAcquireLocks table.fh.nFragments
      [table.fh.shrunk.hashState.nextNToSplit,
        table.fh.nFragments]) table.fh.shrunk.hashState.nextNToSplit :=
    locked_pair counted.valid.positive (by omega) (.inr rfl)
  have all : ∀ rec ∈ table.frags table.fh.nFragments,
      fragOf hashes element table.fh.shrunk rec = table.fh.shrunk.hashState.nextNToSplit :=
    fun rec member => fragOf_merged sound.counted several (sound.placed _ rec member)
  rw [delFrag, if_pos several, adjustBeforeMerge_ok sound.counted several]
  simp only [bind, Except.bind, merge, doMerge_ok counted lock last all, append_nil]

/-- The records of a fragment after a merge. -/
theorem mem_delFrag (sound : Sound hashes element table) (several : 1 < table.fh.nFragments)
    (done : delFrag hashes element table = .ok next) (n : Nat) :
    rec ∈ next.frags n ↔
      if n = table.fh.shrunk.hashState.nextNToSplit then
        rec ∈ table.frags table.fh.nFragments ∨
          rec ∈ table.frags n ∧ (table.type = .set → ∀ new ∈ table.frags table.fh.nFragments,
            element 2 rec ≠ element 2 new)
      else n ≠ table.fh.nFragments ∧ rec ∈ table.frags n := by
  obtain ⟨counted, -⟩ := shrunk_valid sound.counted several
  have inside := nextNToSplit_lt counted
  have last := shrunk_nFragments several
  rw [delFrag_ok sound several] at done
  cases done
  dsimp only
  rw [foldl_writes]
  by_cases here : n = table.fh.shrunk.hashState.nextNToSplit
  · rw [if_pos here, ← here, update_of_ne (by omega), mem_foldl_insert _ (sound.wf _).keys_reverse]
    simp
  · rw [if_neg here, if_neg here]
    by_cases gone : n = table.fh.nFragments
    · rw [gone]
      simp
    · simp [gone]

theorem delFrag_sound (sound : Sound hashes element table) (several : 1 < table.fh.nFragments)
    (done : delFrag hashes element table = .ok next) : Sound hashes element next := by
  obtain ⟨counted, -⟩ := shrunk_valid sound.counted several
  have members :=
    fun n rec => @mem_delFrag _ _ hashes element table _ _ next rec sound several done n
  rw [delFrag_ok sound several] at done
  cases done
  refine ⟨counted.valid, counted.count, ?_, ?_⟩
  · intro n rec member
    have origin := (members n rec).mp member
    have two := @fragOf_shrunk _ _ hashes element _ sound.counted several rec
    by_cases here : n = table.fh.shrunk.hashState.nextNToSplit
    · rw [if_pos here] at origin
      rcases origin with moved | ⟨stays, -⟩
      · rw [fragOf_merged sound.counted several (sound.placed _ rec moved), here]
      · rcases two with same | ⟨merged, -⟩
        · rw [← same, sound.placed _ rec stays]
        · rw [merged, here]
    · rw [if_neg here] at origin
      have place := sound.placed _ rec origin.2
      rcases two with same | ⟨-, last⟩
      · rw [← same, place]
      · exact absurd (place.symm.trans last) origin.1
  · intro n
    dsimp only
    have wf : ∀ n, Wf element table.type (update table.frags table.fh.nFragments [] n) := by
      intro n
      by_cases gone : n = table.fh.nFragments
      · rw [gone, update_self]
        exact Wf.nil
      · rw [update_of_ne gone]
        exact sound.wf n
    rw [foldl_writes]
    split
    · exact (wf _).foldl_insert _
    · exact wf n

/-- A record in a set whose key also a record of the last fragment has. -/
def Overwritten (hashes : Hashes Term) (element : Nat → Rec → Term) (table : Table Rec)
    (rec : Rec) : Prop :=
  table.type = .set ∧ fragOf hashes element table.fh rec = table.fh.shrunk.hashState.nextNToSplit ∧
    ∃ other ∈ table.frags table.fh.nFragments, element 2 rec = element 2 other

/-- A merge keeps the records but those that are overwritten. -/
theorem mem_fragOf_delFrag (sound : Sound hashes element table) (several : 1 < table.fh.nFragments)
    (done : delFrag hashes element table = .ok next) :
    rec ∈ next.frags (fragOf hashes element next.fh rec) ↔
      rec ∈ table.frags (fragOf hashes element table.fh rec) ∧
      ¬ Overwritten hashes element table rec := by
  obtain ⟨counted, -⟩ := shrunk_valid sound.counted several
  have inside := nextNToSplit_lt counted
  have last := shrunk_nFragments several
  have shrunk : next.fh = table.fh.shrunk := by
    rw [delFrag_ok sound several] at done
    cases done
    rfl
  rw [mem_delFrag sound several done, shrunk]
  rcases @fragOf_shrunk _ _ hashes element _ sound.counted several rec with same | ⟨merged, moved⟩
  · have range := @fragOf_range _ _ hashes element _ counted rec
    rw [← same] at range ⊢
    by_cases here : fragOf hashes element table.fh rec = table.fh.shrunk.hashState.nextNToSplit
    · have elsewhere : rec ∉ table.frags table.fh.nFragments := by
        intro member
        have place := sound.placed _ rec member
        omega
      rw [if_pos here, or_iff_right elsewhere]
      refine and_congr_right fun _ => ⟨?_, ?_⟩
      · rintro kept ⟨set, -, other, member, key⟩
        exact kept set other member key
      · exact fun kept set other member key => kept ⟨set, here, other, member, key⟩
    · rw [if_neg here]
      exact ⟨fun ⟨_, member⟩ => ⟨member, fun lost => here lost.2.1⟩,
        fun ⟨member, _⟩ => ⟨by omega, member⟩⟩
  · have elsewhere : rec ∉ table.frags table.fh.shrunk.hashState.nextNToSplit := by
      intro member
      have place := sound.placed _ rec member
      omega
    rw [merged, if_pos rfl, Overwritten, moved]
    constructor
    · rintro (member | ⟨member, -⟩)
      · exact ⟨member, fun lost => by omega⟩
      · exact absurd member elsewhere
    · exact fun ⟨member, _⟩ => .inl member

/-- The tables that operations lead to, from a table with one fragment. -/
inductive Reachable (hashes : Hashes Term) (element : Nat → Rec → Term) : Table Rec → Prop where
  | create (type : TableType)
  (foreignKey : Option Nat) : Reachable hashes element (create type foreignKey)
  | step {table next : Table Rec} (op : Op Term Rec) : Reachable hashes element table →
      op.run hashes element table = .ok next → Reachable hashes element next

theorem run_sound {op : Op Term Rec} (sound : Sound hashes element table)
    (done : op.run hashes element table = .ok next) : Sound hashes element next := by
  cases op with
  | write rec =>
    obtain ⟨other, written, sound'⟩ := write_sound sound
    cases written.symm.trans done
    exact sound'
  | delete foreignKey key => exact deleteKey_sound sound done
  | deleteObject rec =>
    obtain ⟨other, deleted, sound'⟩ := deleteObject_sound sound
    cases deleted.symm.trans done
    exact sound'
  | addFrag => exact addFrag_sound sound done
  | delFrag =>
    by_cases several : 1 < table.fh.nFragments
    · exact delFrag_sound sound several done
    · rw [Op.run, delFrag, if_neg several] at done
      cases done

theorem Reachable.sound (reachable : Reachable hashes element table) :
    Sound hashes element table := by
  induction reachable with
  | create type foreignKey => exact create_sound
  | step op _ done ih => exact run_sound ih done

omit [DecidableEq Term] [DecidableEq Rec] in
/-- Nothing is lost when the records are hashed by their keys. -/
theorem none_lost (sound : Sound hashes element table)
    (hashed : ∀ rec, element (keyPos table.fh) rec = element 2 rec) :
    (∀ rec, ¬ Lost hashes element table rec) ∧
      (1 < table.fh.nFragments → ∀ rec, ¬ Overwritten hashes element table rec) := by
  constructor
  · rintro rec ⟨stays, other, -, moves, key⟩
    rw [← hashed, ← hashed] at key
    exact moves ((congrArg (table.fh.grown.hashState.keyToFragNumber hashes) key).symm.trans stays)
  · rintro several rec ⟨-, place, other, member, key⟩
    have inside := nextNToSplit_lt (shrunk_valid sound.counted several).1
    have last := shrunk_nFragments several
    rw [← hashed, ← hashed] at key
    have same : fragOf hashes element table.fh rec = fragOf hashes element table.fh other :=
      congrArg (table.fh.hashState.keyToFragNumber hashes) key
    rw [place, sound.placed _ other member] at same
    omega

/-- Every record is in the fragment of its hash key and in no other. A split keeps the records
when none that stays has the key of one that leaves its fragment; a merge, when in a set the last
fragment and the one it goes into have no key in common. -/
theorem frag_keeps_records (reachable : Reachable hashes element table) :
    (∀ n rec, rec ∈ table.frags n ↔ rec ∈ records table ∧
      recordToFrag hashes element table.fh rec = .ok n) ∧
      (∃ next, addFrag hashes element table = .ok next ∧
        ((records next).Perm (records table) ↔ ∀ rec ∈ records table,
          ¬ Lost hashes element table rec)) ∧
      (1 < table.fh.nFragments → ∃ next, delFrag hashes element table = .ok next ∧
        ((records next).Perm (records table) ↔ ∀ rec ∈ records table,
          ¬ Overwritten hashes element table rec)) := by
  have sound := reachable.sound
  refine ⟨?_, ?_, ?_⟩
  · intro n rec
    rw [recordToFrag, keyToN_record sound.counted, mem_records sound]
    constructor
    · intro member
      have place := sound.placed n rec member
      exact ⟨place.symm ▸ member, congrArg _ place⟩
    · rintro ⟨member, place⟩
      cases place
      exact member
  · have done := addFrag_ok sound
    exact ⟨_, done, records_perm sound (addFrag_sound sound done) fun rec =>
      mem_fragOf_addFrag sound done⟩
  · intro several
    have done := delFrag_ok sound several
    exact ⟨_, done, records_perm sound (delFrag_sound sound several done) fun rec =>
      mem_fragOf_delFrag sound several done⟩

/-- Numbers hashed to their remainders. -/
def remainders : Hashes Nat where
  phash key range := key % range + 1
  phash2 key range := key % range
  phash2_lt key _ := Nat.mod_lt key
  phash2_double key _ _ := Nat.mod_mod_of_dvd key (Dvd.intro_left 2 rfl)

/-- The key and one more field. -/
def field (position : Nat) (rec : Nat × Nat) : Nat := if position = 2 then rec.1 else rec.2

/-- Two of three records move to the new fragment, and come back when it is deleted. -/
theorem frag_keeps_records_written : ∃ table next back, Reachable remainders field table ∧
    records table = [(3, 0), (2, 0), (1, 0)] ∧
    addFrag remainders field table = .ok next ∧ next.frags 2 = [(3, 0), (1, 0)] ∧
    (records next).Perm (records table) ∧ delFrag remainders field next = .ok back ∧
    (records back).Perm (records next) := by
  have created : Reachable remainders field (create .bag none) := .create .bag none
  have reachable := Reachable.step (.write (3, 0))
    (.step (.write (2, 0)) (.step (.write (1, 0)) created rfl) rfl) rfl
  obtain ⟨next, done, kept⟩ := (frag_keeps_records reachable).2.1
  have grown := Reachable.step .addFrag reachable done
  cases (addFrag_ok reachable.sound).symm.trans done
  obtain ⟨back, merged, again⟩ := (frag_keeps_records grown).2.2 (by decide)
  exact ⟨_, _, back, reachable, rfl, done, rfl,
    kept.mpr fun rec _ => (none_lost reachable.sound fun _ => rfl).1 rec, merged,
    again.mpr fun rec _ => (none_lost grown.sound fun _ => rfl).2 (by decide) rec⟩

/-- In a bag a record is lost when a fragment is added, in a set when one is deleted. -/
theorem frag_loses_records :
    (∃ table next, Reachable remainders field table ∧ addFrag remainders field table = .ok next ∧
      records table = [(1, 1), (1, 0)] ∧ records next = [(1, 1)]) ∧
    ∃ table next, Reachable remainders field table ∧ 1 < table.fh.nFragments ∧
      delFrag remainders field table = .ok next ∧ records table = [(1, 0), (1, 1)] ∧
      records next = [(1, 1)] := by
  constructor
  · have reachable : Reachable remainders field
        ⟨.bag, ⟨some 3, 1, initState⟩,
          update (update (fun _ => []) 1 [(1, 0)]) 1 [(1, 1), (1, 0)]⟩ :=
      .step (.write (1, 1)) (.step (.write (1, 0)) (.create .bag (some 3)) rfl) rfl
    exact ⟨_, _, reachable, addFrag_ok reachable.sound, rfl, rfl⟩
  · have empty : Reachable remainders field (create .set (some 3)) := .create .set (some 3)
    have two := Reachable.step .addFrag empty (addFrag_ok empty.sound)
    have reachable := Reachable.step (.write (1, 1)) (.step (.write (1, 0)) two rfl) rfl
    exact ⟨_, _, reachable, by decide, delFrag_ok reachable.sound (by decide), rfl, rfl⟩

end Changes

end Otp.Mnesia.Frag
