import Otp.Library.Grouped
import Otp.Ets.HashSpec

/-! What a bucket looks like: the nodes of a key stand together, a `set` has one
node for each key, and a live object of a `bag` has no equal before it. -/

namespace Otp.Ets

open List
open Otp.Library

variable {Key Obj : Type}
variable {ops : HashOps Key Obj}

/-- The key of a node. -/
abbrev nodeKey (ops : HashOps Key Obj) (b : HashDbTerm Obj) : Key := ops.getKey b.dbterm

structure ChainOk (ops : HashOps Key Obj) (type : HashType) (chain : List (HashDbTerm Obj)) :
    Prop where
  hashed : ∀ b ∈ chain, b.isLive = true → b.hvalue = makeHash ops (nodeKey ops b)
  contiguous : Contiguous (chain.map (nodeKey ops))
  single : type = .set → (chain.map (nodeKey ops)).Nodup
  apart : type = .bag → chain.Pairwise fun first second => second.isLive = true →
    first.dbterm ≠ second.dbterm

theorem chainOk_nil : ChainOk ops type [] := ⟨by simp, contiguous_nil, by simp, by simp⟩

/-- Every node is kept, freed or, if `marking`, pseudo-deleted. -/
inductive Thins (marking : Prop) : List (HashDbTerm Obj) → List (HashDbTerm Obj) → Prop where
  | nil : Thins marking [] []
  | keep (b : HashDbTerm Obj) (rest : Thins marking chain thinned) :
      Thins marking (b :: chain) (b :: thinned)
  | mark (allowed : marking) (b : HashDbTerm Obj) (rest : Thins marking chain thinned) :
      Thins marking (b :: chain) (b.pseudoDelete :: thinned)
  | free (b : HashDbTerm Obj) (rest : Thins marking chain thinned) :
      Thins marking (b :: chain) thinned

namespace Thins

variable {marking : Prop} {chain thinned : List (HashDbTerm Obj)}

theorem refl (marking : Prop) (chain : List (HashDbTerm Obj)) : Thins marking chain chain := by
  induction chain with
  | nil => exact .nil
  | cons b chain ih => exact .keep b ih

theorem append (first : Thins marking chain thinned) (second : Thins marking chain' thinned') :
    Thins marking (chain ++ chain') (thinned ++ thinned') := by
  induction first with
  | nil => exact second
  | keep b _ ih => exact .keep b ih
  | mark allowed b _ ih => exact .mark allowed b ih
  | free b _ ih => exact .free b ih

theorem filter (marking : Prop) (p : HashDbTerm Obj → Bool) (chain : List (HashDbTerm Obj)) :
    Thins marking chain (chain.filter p) := by
  induction chain with
  | nil => exact .nil
  | cons b chain ih =>
    rw [filter_cons]
    split
    · exact .keep b ih
    · exact .free b ih

section

variable (thins : Thins marking chain thinned)

include thins

/-- The objects that are left, in their order. -/
theorem sublist : (thinned.map HashDbTerm.dbterm).Sublist (chain.map HashDbTerm.dbterm) := by
  induction thins with
  | nil => exact .slnil
  | keep b _ ih | mark _ b _ ih => exact ih.cons_cons _
  | free b _ ih => exact ih.cons _

theorem keys_sublist : (thinned.map (nodeKey ops)).Sublist (chain.map (nodeKey ops)) := by
  have kept := thins.sublist.map ops.getKey
  rwa [map_map, map_map] at kept

/-- A node that is left was there as it is, or is pseudo-deleted now. -/
theorem mem_or (member : b ∈ thinned) : b ∈ chain ∨ marking ∧ b.isLive = false := by
  induction thins with
  | nil => exact .inl member
  | keep c _ ih =>
    rcases mem_cons.mp member with rfl | later
    · exact .inl mem_cons_self
    · exact (ih later).imp_left (mem_cons_of_mem _)
  | mark allowed c _ ih =>
    rcases mem_cons.mp member with rfl | later
    · exact .inr ⟨allowed, isLive_pseudoDelete c⟩
    · exact (ih later).imp_left (mem_cons_of_mem _)
  | free c _ ih => exact (ih member).imp_left (mem_cons_of_mem _)

theorem mem_of_live (member : b ∈ thinned) (live : b.isLive = true) : b ∈ chain := by
  rcases thins.mem_or member with old | ⟨_, dead⟩
  · exact old
  · rw [live] at dead
    cases dead

theorem apart (pairs : chain.Pairwise fun first second => second.isLive = true →
    first.dbterm ≠ second.dbterm) :
    thinned.Pairwise fun first second => second.isLive = true → first.dbterm ≠ second.dbterm := by
  induction thins with
  | nil => exact pairs
  | keep b rest ih | mark _ b rest ih =>
    obtain ⟨head, tail⟩ := pairwise_cons.mp pairs
    exact pairwise_cons.mpr ⟨fun c member live => head c (rest.mem_of_live member live) live,
      ih tail⟩
  | free b rest ih => exact ih (pairwise_cons.mp pairs).2

end

end Thins

theorem ChainOk.thin (ok : ChainOk ops type chain)
    (thins : Thins marking chain thinned) : ChainOk ops type thinned where
  hashed b member live := ok.hashed b (thins.mem_of_live member live) live
  contiguous := ok.contiguous.sublist thins.keys_sublist
  single set := (ok.single set).sublist thins.keys_sublist
  apart bag := thins.apart (ok.apart bag)

/-- Two buckets can be joined if they have no key in common. -/
theorem ChainOk.append (first : ChainOk ops type chain) (second : ChainOk ops type chain')
    (disjoint : (chain.map (nodeKey ops)).Disjoint (chain'.map (nodeKey ops))) :
    ChainOk ops type (chain ++ chain') where
  hashed b member live := by
    rcases mem_append.mp member with early | late
    · exact first.hashed b early live
    · exact second.hashed b late live
  contiguous := by
    rw [map_append]
    exact first.contiguous.append second.contiguous disjoint
  single set := by
    rw [map_append]
    exact (first.single set).append (second.single set) disjoint
  apart bag := by
    refine pairwise_append.mpr ⟨first.apart bag, second.apart bag, ?_⟩
    intro b early c late _ same
    refine disjoint (mem_map_of_mem early) (mem_map.mpr ⟨c, late, ?_⟩)
    rw [nodeKey, nodeKey, same]

variable [DecidableEq Key] {ops : HashOps Key Obj} {chain : List (HashDbTerm Obj)}

theorem ChainOk.ofKey_iff (ok : ChainOk ops type chain) (member : b ∈ chain) (key : Key) :
    ofKey ops key b = true ↔ nodeKey ops b = key := by
  have hash := ok.hashed b member
  rw [isLive_iff] at hash
  unfold ofKey hasKey
  split
  case isTrue other =>
    simp only [Bool.false_eq_true, false_iff]
    rintro rfl
    exact other.1 (hash other.2)
  case isFalse => simp [eq_comm]

theorem ChainOk.liveOf_iff (ok : ChainOk ops type chain) (member : b ∈ chain) (key : Key) :
    liveOf ops key b = true ↔ b.isLive = true ∧ nodeKey ops b = key := by
  have hash := ok.hashed b member
  constructor
  · intro here
    refine ⟨liveOf_live ops here, ?_⟩
    rw [← ok.ofKey_iff member key, ofKey_eq, here, Bool.true_or]
  · rintro ⟨live, rfl⟩
    simp [hasLiveKey, hash live]

/-- A chain around the group of a key. -/
structure Group (ops : HashOps Key Obj) (key : Key)
    (chain passed group behind : List (HashDbTerm Obj)) : Prop where
  whole : chain = passed ++ group ++ behind
  before : ∀ b ∈ passed, nodeKey ops b ≠ key
  inside : ∀ b ∈ group, nodeKey ops b = key
  after : ∀ b ∈ behind, nodeKey ops b ≠ key
  place : group ≠ [] ∨ behind = []

/-- The group of a key ends where the next node has another key. -/
theorem ChainOk.group_of (ok : ChainOk ops type chain) (whole : chain = passed ++ group ++ behind)
    (before : ∀ b ∈ passed, ofKey ops key b = false) (inside : ∀ b ∈ group, ofKey ops key b = true)
    (stop : ∀ b rest, behind = b :: rest → ofKey ops key b = false) (nonempty : group ≠ []) :
    Group ops key chain passed group behind := by
  have iff {b : HashDbTerm Obj} (member : b ∈ passed ++ group ++ behind) :=
    ok.ofKey_iff (whole ▸ member) key
  have members : ∀ b ∈ group, nodeKey ops b = key :=
    fun b member => (iff (by simp [member])).mp (inside b member)
  refine ⟨whole, ?_, members, ?_, .inl nonempty⟩
  · intro b member same
    have here := (iff (b := b) (by simp [member])).mpr same
    rw [before b member] at here
    cases here
  · have contiguous := ok.contiguous
    rw [whole, map_append, map_append] at contiguous
    have outside := contiguous.not_mem_behind (by simpa using members) (by simpa using nonempty) ?_
    · intro b member same
      exact outside (same ▸ mem_map_of_mem member)
    · intro other rest shape same
      cases behind with
      | nil => cases shape
      | cons b rest =>
        rw [map_cons, cons.injEq] at shape
        have here := (iff (b := b) (by simp)).mpr (shape.1.trans same)
        rw [stop b rest rfl] at here
        cases here

/-- The nodes of a key may begin before `group`. -/
theorem ChainOk.group_around (ok : ChainOk ops type chain)
    (whole : chain = passed ++ group ++ behind) (inside : ∀ b ∈ group, ofKey ops key b = true)
    (stop : ∀ b rest, behind = b :: rest → ofKey ops key b = false) (nonempty : group ≠ []) :
    ∃ front more, passed = front ++ more ∧ Group ops key chain front (more ++ group) behind := by
  obtain ⟨front, more, _, split, before, head⟩ := span_not (ofKey ops key) passed
  have shape : chain = front ++ (more ++ group) ++ behind := by
    rw [whole, split, append_assoc front]
  have iff {b : HashDbTerm Obj} (member : b ∈ front ++ (more ++ group) ++ behind) :=
    ok.ofKey_iff (shape ▸ member) key
  have same : ∀ b ∈ more, nodeKey ops b = key := by
    intro b member
    obtain ⟨first, tail, rfl⟩ := exists_cons_of_ne_nil (ne_nil_of_mem member)
    obtain ⟨last, tail', rfl⟩ := exists_cons_of_ne_nil nonempty
    have start := (iff (b := first) (by simp)).mp (head first tail rfl)
    have finish := (iff (b := last) (by simp)).mp (inside last mem_cons_self)
    rcases mem_cons.mp member with rfl | later
    · exact start
    -- between two nodes of the key
    · have three : [first, b, last].Sublist (front ++ (first :: tail ++ last :: tail') ++ behind) :=
        .trans (.cons_cons _ ((singleton_sublist.mpr later).append (.cons_cons _ (nil_sublist _))))
          ((sublist_append_right front _).trans (sublist_append_left _ behind))
      have keys := three.map (nodeKey ops)
      rw [← shape, map_cons, map_cons, map_cons, start, finish] at keys
      exact ok.contiguous key _ keys
  refine ⟨front, more, split, ok.group_of shape before ?_ stop (by simp [nonempty])⟩
  intro b member
  rcases mem_append.mp member with early | late
  · exact (iff (b := b) (by simp [early])).mpr (same b early)
  · exact inside b late

theorem ChainOk.group_split (ok : ChainOk ops type chain) :
    ∃ passed group behind, Group ops key chain passed group behind := by
  obtain ⟨passed, rest, _, whole, before, head⟩ := span_not (ofKey ops key) chain
  cases rest with
  | nil =>
    refine ⟨passed, [], [], by simpa using whole, ?_, by simp, by simp, .inr rfl⟩
    intro b member same
    have here := (ok.ofKey_iff (by rw [whole]; simp [member]) key).mpr same
    rw [before b member] at here
    cases here
  | cons b rest =>
    obtain ⟨group, behind, _, split, inside, after⟩ := span_all (ofKey ops key) (b :: rest)
    have nonempty : group ≠ [] := by
      rintro rfl
      have here := head b rest rfl
      rw [after b rest split.symm] at here
      cases here
    exact ⟨passed, group, behind,
      ok.group_of (by rw [whole, split, append_assoc]) before inside after nonempty⟩

/-- The nodes of a key. -/
def nodesOf (ops : HashOps Key Obj) (key : Key) (chain : List (HashDbTerm Obj)) :
    List (HashDbTerm Obj) :=
  chain.filter fun b => nodeKey ops b = key

/-- The objects that are not pseudo-deleted, the newest first. -/
def liveObjs (nodes : List (HashDbTerm Obj)) : List Obj :=
  (nodes.filter HashDbTerm.isLive).map HashDbTerm.dbterm

/-- The objects of a key. -/
abbrev held (ops : HashOps Key Obj) (key : Key) (chain : List (HashDbTerm Obj)) : List Obj :=
  liveObjs (nodesOf ops key chain)

@[simp]
theorem liveObjs_nil : liveObjs ([] : List (HashDbTerm Obj)) = [] := rfl

theorem liveObjs_cons {nodes : List (HashDbTerm Obj)} :
    liveObjs (b :: nodes) = if b.isLive then b.dbterm :: liveObjs nodes else liveObjs nodes := by
  unfold liveObjs
  rw [filter_cons]
  split <;> rfl

theorem liveObjs_append {first second : List (HashDbTerm Obj)} :
    liveObjs (first ++ second) = liveObjs first ++ liveObjs second := by
  simp [liveObjs]

theorem liveObjs_dead (dead : ∀ b ∈ nodes, HashDbTerm.isLive b = false) :
    liveObjs (nodes : List (HashDbTerm Obj)) = [] := by
  simpa [liveObjs] using dead

theorem nodesOf_cons : nodesOf ops key (b :: chain) =
      if nodeKey ops b = key then b :: nodesOf ops key chain else nodesOf ops key chain := by
  simp [nodesOf, filter_cons]

theorem nodesOf_append : nodesOf ops key (first ++ second) =
    nodesOf ops key first ++ nodesOf ops key second :=
  filter_append ..

theorem nodesOf_all (inside : ∀ b ∈ chain, nodeKey ops b = key) : nodesOf ops key chain = chain :=
  filter_eq_self.mpr fun b member => decide_eq_true (inside b member)

theorem nodesOf_none (outside : ∀ b ∈ chain, nodeKey ops b ≠ key) : nodesOf ops key chain = [] :=
  filter_eq_nil_iff.mpr fun b member same => outside b member (of_decide_eq_true same)

/-- Another chain that differs in the nodes of one key only. -/
def Regroups (ops : HashOps Key Obj) (key : Key)
    (chain chain' group group' : List (HashDbTerm Obj)) : Prop :=
  ∃ passed behind, Group ops key chain passed group behind ∧ chain' = passed ++ group' ++ behind ∧
    ∀ b ∈ group', nodeKey ops b = key

theorem Group.nodesOf_eq (split : Group ops key chain passed group behind) :
    nodesOf ops key chain = group := by
  rw [split.whole, nodesOf_append, nodesOf_append, nodesOf_none split.before,
    nodesOf_all split.inside, nodesOf_none split.after, nil_append, append_nil]

namespace Regroups

variable {chain' group group' : List (HashDbTerm Obj)}

section

variable {key : Key} (regroups : Regroups ops key chain chain' group group')

include regroups

theorem nodesOf_new : nodesOf ops key chain' = group' := by
  obtain ⟨_, _, split, rfl, new⟩ := regroups
  rw [nodesOf_append, nodesOf_append, nodesOf_none split.before, nodesOf_all new,
    nodesOf_none split.after, nil_append, append_nil]

theorem nodesOf_other (other : key' ≠ key) : nodesOf ops key' chain' = nodesOf ops key' chain := by
  obtain ⟨passed, behind, split, rfl, new⟩ := regroups
  have old : ∀ b ∈ group, nodeKey ops b ≠ key' :=
    fun b member same => other (same.symm.trans (split.inside b member))
  have fresh : ∀ b ∈ group', nodeKey ops b ≠ key' :=
    fun b member same => other (same.symm.trans (new b member))
  rw [split.whole]
  simp only [nodesOf_append, nodesOf_none old, nodesOf_none fresh]

omit [DecidableEq Key] in
theorem mem_or (member : b ∈ chain') : b ∈ chain ∨ b ∈ group' := by
  obtain ⟨passed, behind, split, rfl, _⟩ := regroups
  rw [split.whole]
  simp only [mem_append] at member ⊢
  rcases member with (before | here) | after
  · exact .inl (.inl (.inl before))
  · exact .inr here
  · exact .inl (.inr after)

omit [DecidableEq Key] in
/-- The invariant of a bucket needs to be checked for the new group only. -/
theorem chainOk (ok : ChainOk ops type chain)
    (hashed : ∀ b ∈ group', b.isLive = true → b.hvalue = makeHash ops key)
    (single : type = .set → group'.length ≤ 1) (apart : type = .bag →
      group'.Pairwise fun first second => second.isLive = true → first.dbterm ≠ second.dbterm) :
    ChainOk ops type chain' := by
  have mem {b : HashDbTerm Obj} := regroups.mem_or (b := b)
  obtain ⟨passed, behind, split, rfl, new⟩ := regroups
  have before : key ∉ passed.map (nodeKey ops) := by simpa using split.before
  have after : key ∉ behind.map (nodeKey ops) := by simpa using split.after
  have keys : ∀ other ∈ group'.map (nodeKey ops), other = key := by simpa using new
  constructor
  · intro b member live
    rcases mem member with old | here
    · exact ok.hashed b old live
    · rw [hashed b here live, new b here]
  · have contiguous := ok.contiguous
    rw [split.whole, map_append, map_append] at contiguous
    rw [map_append, map_append]
    exact contiguous.replace before after (by simpa using split.inside) keys
      (split.place.imp (by simp) (by simp +contextual))
  · intro set
    have old := ok.single set
    rw [split.whole, map_append, map_append] at old
    rw [map_append, map_append]
    exact nodup_replace old before after keys (by simpa using single set)
  · intro bag
    have old := ok.apart bag
    rw [split.whole, append_assoc, pairwise_append, pairwise_append] at old
    obtain ⟨first, ⟨_, last, _⟩, cross⟩ := old
    rw [append_assoc, pairwise_append, pairwise_append]
    refine ⟨first, ⟨apart bag, last, ?_⟩, ?_⟩
    · intro b here c later _ same
      exact split.after c later (by rw [nodeKey, ← same]; exact new b here)
    · intro b early c later live same
      rcases mem_append.mp later with here | late
      · exact split.before b early (by rw [nodeKey, same]; exact new c here)
      · exact cross b early c (mem_append_right _ late) live same

end

end Regroups

end Otp.Ets
