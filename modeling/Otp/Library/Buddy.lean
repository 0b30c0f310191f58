import Mathlib

/-! Buddy systems. A block of level `k` is one of the stretches of `2 ^ k` points into which the
points are cut from `0` on; two blocks that make up a block of the next level are buddies. A system
keeps some blocks free and some taken. Between its operations a block in hand stands first among
the taken ones. -/

namespace Otp.Library.Buddy

open List

structure Block where
  level : Nat
  index : Nat
deriving DecidableEq, Repr

namespace Block

section

variable (block : Block)

def start : Nat := block.index * 2 ^ block.level

def Covers (point : Nat) : Prop := point / 2 ^ block.level = block.index

/-- No point in common. -/
def Apart (first second : Block) : Prop := ∀ point, first.Covers point → ¬ second.Covers point

def buddy : Block :=
  ⟨block.level, if block.index % 2 = 0 then block.index + 1 else block.index - 1⟩

def parent : Block := ⟨block.level + 1, block.index / 2⟩

/-- The first half. -/
def low : Block := ⟨block.level - 1, 2 * block.index⟩

theorem Apart.symm (apart : Apart first second) : Apart second first :=
  fun point covered other => apart point other covered

theorem covers_iff {block : Block} :
    block.Covers point ↔ block.start ≤ point ∧ point < block.start + 2 ^ block.level := by
  rw [Covers, Nat.div_eq_iff (Nat.two_pow_pos _), start]
  have positive := Nat.two_pow_pos block.level
  omega

theorem covers_start : block.Covers block.start := Nat.mul_div_cancel _ (Nat.two_pow_pos _)

end

theorem covers_parent {block : Block} : block.parent.Covers point ↔ block.Covers point ∨
    block.buddy.Covers point := by
  simp only [Covers, parent, buddy, Nat.pow_succ, ← Nat.div_div_eq_div_mul]
  split <;> omega

theorem apart_buddy : Apart block block.buddy := by
  intro point covered other
  simp only [Covers, buddy] at covered other
  split at other <;> omega

theorem buddy_ne (block : Block) : block.buddy ≠ block := by
  intro same
  exact apart_buddy block.start block.covers_start (same.symm ▸ block.covers_start)

theorem buddy_buddy (block : Block) : block.buddy.buddy = block := by
  simp only [buddy]
  split
  · rw [if_neg (by omega)]
    simp
  · rw [if_pos (by omega), Nat.sub_add_cancel (by omega)]

theorem parent_buddy {block : Block} : block.buddy.parent = block.parent := by
  simp only [parent, buddy, Block.mk.injEq, true_and]
  split <;> omega

theorem low_parent {block : Block} (high : 0 < block.level) : block.low.parent = block := by
  simp only [low, parent, Nat.sub_add_cancel high]
  simp

theorem low_start {block : Block} (high : 0 < block.level) : block.low.start = block.start := by
  have split : 2 ^ block.level = 2 * 2 ^ (block.level - 1) := by
    rw [← Nat.pow_succ', Nat.succ_eq_add_one, Nat.sub_add_cancel high]
  rw [start, start, split, low, ← Nat.mul_assoc, Nat.mul_comm 2]

theorem low_buddy_start {block : Block} :
    block.low.buddy.start = block.low.start + 2 ^ (block.level - 1) := by
  simp [start, buddy, low, Nat.add_mul]

/-- A block is known by its level and its first point. -/
theorem eq_of_start {first second : Block} (level : first.level = second.level)
    (start : first.start = second.start) : first = second := by
  obtain ⟨level₁, index₁⟩ := first
  obtain ⟨level₂, index₂⟩ := second
  subst level
  have same := Nat.eq_of_mul_eq_mul_right (Nat.two_pow_pos _) start
  simpa using same

/-- Blocks of one level are the same or apart. -/
theorem apart_of_level (level : first.level = second.level) (differ : first ≠ second) :
    Apart first second := by
  intro point mine its
  refine differ ?_
  obtain ⟨level₁, index₁⟩ := first
  obtain ⟨level₂, index₂⟩ := second
  subst level
  simp only [Covers] at mine its
  simp [← mine, ← its]

end Block

open Block

/-- `block` or one of the blocks it is part of is free. -/
inductive Under (free : Set Block) : Block → Prop where
  | here : block ∈ free → Under free block
  | up : Under free block.parent → Under free block

theorem under_of_covers (member : other ∈ free)
    (mine : block.Covers point) (its : other.Covers point) (smaller : block.level ≤ other.level) :
    Under free block := by
  obtain ⟨more, level⟩ := Nat.exists_eq_add_of_le smaller
  induction more generalizing block with
  | zero =>
    have same : block = other := by
      by_contra differ
      exact apart_of_level (by omega) differ point mine its
    exact .here (same ▸ member)
  | succ more ih =>
    have above : block.parent.level = block.level + 1 := rfl
    exact .up (ih (covers_parent.mpr (.inl mine)) (by omega) (by omega))

theorem Under.covers (under : Under free block) : ∃ hole ∈ free, ∀ point, block.Covers point →
    hole.Covers point := by
  induction under with
  | here member => exact ⟨_, member, fun _ covers => covers⟩
  | up _ ih =>
    obtain ⟨hole, member, within⟩ := ih
    exact ⟨hole, member, fun point covers => within point (covers_parent.mpr (.inl covers))⟩

structure System (height : Nat) (free : Set Block) (taken : List Block) : Prop where
  inside : ∀ block, block ∈ free ∨ block ∈ taken → ∀ point, block.Covers point → point < 2 ^ height
  free_apart : ∀ first ∈ free, ∀ second ∈ free, first ≠ second → Apart first second
  across : ∀ first ∈ free, ∀ second ∈ taken, Apart first second
  taken_apart : taken.Pairwise Apart
  covered : ∀ point < 2 ^ height, ∃ block, (block ∈ free ∨ block ∈ taken) ∧ block.Covers point
  sparse : ∀ block ∈ free, block.buddy ∉ free

namespace System

theorem start (height : Nat) : System height {⟨height, 0⟩} [] where
  inside := by
    rintro block (member | member) point covers
    · cases Set.mem_singleton_iff.mp member
      simpa [Block.Covers] using covers
    · cases member
  free_apart := by
    rintro first rfl second rfl differ
    exact absurd rfl differ
  across := by simp
  taken_apart := .nil
  covered := fun point below => ⟨_, .inl rfl, Nat.div_eq_of_lt below⟩
  sparse := by
    rintro block rfl member
    exact buddy_ne _ member

theorem perm (system : System height free taken) (same : taken.Perm other) :
    System height free other where
  inside := fun block member => system.inside block (member.imp_right same.mem_iff.mpr)
  free_apart := system.free_apart
  across :=
    fun first firstMember second member =>
    system.across first firstMember second (same.mem_iff.mpr member)
  taken_apart := (same.pairwise_iff Apart.symm).mp system.taken_apart
  covered := by
    intro point below
    obtain ⟨block, member, covers⟩ := system.covered point below
    exact ⟨block, member.imp_right same.mem_iff.mp, covers⟩
  sparse := system.sparse

theorem not_free (system : System height free (block :: taken)) : block ∉ free := by
  intro member
  exact system.across block member block (by simp) _ block.covers_start block.covers_start

/-- The other blocks beside the one in hand. -/
private theorem others (system : System height free (block :: taken)) :
    (∀ first ∈ free, Apart first block) ∧ (∀ second ∈ taken, Apart block second) ∧
      (∀ first ∈ free, ∀ second ∈ taken, Apart first second) ∧ taken.Pairwise Apart :=
  ⟨fun first member => system.across first member block (by simp),
    (pairwise_cons.mp system.taken_apart).1,
    fun first member second taken => system.across first member second (.tail _ taken),
    (pairwise_cons.mp system.taken_apart).2⟩

/-- A free block is taken in hand. -/
theorem take (system : System height free taken) (member : block ∈ free) :
    System height (free \ {block}) (block :: taken) where
  inside := by
    rintro other (⟨free, -⟩ | taken)
    · exact system.inside other (.inl free)
    · rcases mem_cons.mp taken with rfl | taken
      · exact system.inside other (.inl member)
      · exact system.inside other (.inr taken)
  free_apart := fun first firstMember second secondMember =>
    system.free_apart first firstMember.1 second secondMember.1
  across := by
    rintro first ⟨free, differ⟩ second taken
    rcases mem_cons.mp taken with rfl | taken
    · exact system.free_apart first free second member differ
    · exact system.across first free second taken
  taken_apart := pairwise_cons.mpr ⟨system.across block member, system.taken_apart⟩
  covered := by
    intro point below
    obtain ⟨other, place, covers⟩ := system.covered point below
    by_cases same : other = block
    · exact ⟨other, .inr (by simp [same]), covers⟩
    · exact ⟨other, place.imp (⟨·, same⟩) (.tail _), covers⟩
  sparse := fun other place buddy => system.sparse other place.1 buddy.1

/-- The block in hand is freed. -/
theorem give (system : System height free (block :: taken)) (alone : block.buddy ∉ free) :
    System height (insert block free) taken where
  inside := by
    rintro other ((rfl | free) | taken)
    · exact system.inside other (.inr (by simp))
    · exact system.inside other (.inl free)
    · exact system.inside other (.inr (.tail _ taken))
  free_apart := by
    rintro first (rfl | free₁) second (rfl | free₂) differ
    · exact absurd rfl differ
    · exact (system.others.1 second free₂).symm
    · exact system.others.1 first free₁
    · exact system.free_apart first free₁ second free₂ differ
  across := by
    rintro first (rfl | free) second taken
    · exact system.others.2.1 second taken
    · exact system.others.2.2.1 first free second taken
  taken_apart := system.others.2.2.2
  covered := by
    intro point below
    obtain ⟨other, free | taken, covers⟩ := system.covered point below
    · exact ⟨other, .inl (.inr free), covers⟩
    · rcases mem_cons.mp taken with rfl | taken
      · exact ⟨other, .inl (.inl rfl), covers⟩
      · exact ⟨other, .inr taken, covers⟩
  sparse := by
    rintro other (rfl | free) (same | buddy)
    · exact buddy_ne other same
    · exact alone buddy
    · exact alone (by rw [← same, buddy_buddy]; exact free)
    · exact system.sparse other free buddy

/-- One half of the block in hand is freed, the other one stays in hand. -/
theorem halve (system : System height free (block.parent :: taken)) :
    System height (insert block.buddy free) (block :: taken) := by
  have mine : ∀ point, block.Covers point → block.parent.Covers point :=
    fun _ covers => covers_parent.mpr (.inl covers)
  have its : ∀ point, block.buddy.Covers point → block.parent.Covers point :=
    fun _ covers => covers_parent.mpr (.inr covers)
  obtain ⟨freeApart, takenApart, across, pairwise⟩ := system.others
  refine ⟨?inside, ?free_apart, ?across, ?taken_apart, ?covered, ?sparse⟩
  case inside =>
    rintro other ((rfl | free) | taken) point covers
    · exact system.inside block.parent (.inr (by simp)) point (its point covers)
    · exact system.inside other (.inl free) point covers
    · rcases mem_cons.mp taken with rfl | taken
      · exact system.inside other.parent (.inr (by simp)) point (mine point covers)
      · exact system.inside other (.inr (.tail _ taken)) point covers
  case free_apart =>
    rintro first (rfl | free₁) second (rfl | free₂) differ
    · exact absurd rfl differ
    · exact fun point covers other => freeApart second free₂ point other (its point covers)
    · exact fun point covers other => freeApart first free₁ point covers (its point other)
    · exact system.free_apart first free₁ second free₂ differ
  case across =>
    rintro first (rfl | free) second taken
    · rcases mem_cons.mp taken with rfl | taken
      · exact (apart_buddy).symm
      · exact fun point covers => takenApart second taken point (its point covers)
    · rcases mem_cons.mp taken with rfl | taken
      · exact fun point covers other => freeApart first free point covers (mine point other)
      · exact across first free second taken
  case taken_apart =>
    exact pairwise_cons.mpr ⟨fun second taken point covers =>
      takenApart second taken point (mine point covers), pairwise⟩
  case covered =>
    intro point below
    obtain ⟨other, free | taken, covers⟩ := system.covered point below
    · exact ⟨other, .inl (.inr free), covers⟩
    · rcases mem_cons.mp taken with rfl | taken
      · rcases covers_parent.mp covers with covers | covers
        · exact ⟨block, .inr (by simp), covers⟩
        · exact ⟨block.buddy, .inl (.inl rfl), covers⟩
      · exact ⟨other, .inr (.tail _ taken), covers⟩
  case sparse =>
    have absent : block ∉ free :=
      fun member => freeApart block member _ block.covers_start (mine _ block.covers_start)
    rintro other (rfl | free) (same | buddy)
    · exact buddy_ne _ same
    · exact absent (buddy_buddy block ▸ buddy)
    · exact absent (by rw [← buddy_buddy block, ← same, buddy_buddy]; exact free)
    · exact system.sparse other free buddy

/-- The block in hand is joined with its free buddy. -/
theorem join (system : System height free (block :: taken)) (member : block.buddy ∈ free) :
    System height (free \ {block.buddy}) (block.parent :: taken) := by
  obtain ⟨freeApart, takenApart, across, pairwise⟩ := system.others
  refine ⟨?inside, ?free_apart, ?across, ?taken_apart, ?covered, ?sparse⟩
  case inside =>
    rintro other (⟨free, -⟩ | taken) point covers
    · exact system.inside other (.inl free) point covers
    · rcases mem_cons.mp taken with rfl | taken
      · rcases covers_parent.mp covers with covers | covers
        · exact system.inside block (.inr (by simp)) point covers
        · exact system.inside block.buddy (.inl member) point covers
      · exact system.inside other (.inr (.tail _ taken)) point covers
  case free_apart =>
    exact fun first firstMember second secondMember =>
      system.free_apart first firstMember.1 second secondMember.1
  case across =>
    rintro first ⟨free, differ⟩ second taken
    rcases mem_cons.mp taken with rfl | taken
    · intro point covers parent
      rcases covers_parent.mp parent with other | other
      · exact freeApart first free point covers other
      · exact system.free_apart first free block.buddy member differ point covers other
    · exact across first free second taken
  case taken_apart =>
    refine pairwise_cons.mpr ⟨fun second taken point covers => ?_, pairwise⟩
    rcases covers_parent.mp covers with covers | covers
    · exact takenApart second taken point covers
    · exact across block.buddy member second taken point covers
  case covered =>
    intro point below
    obtain ⟨other, free | taken, covers⟩ := system.covered point below
    · by_cases same : other = block.buddy
      · exact ⟨block.parent, .inr (by simp), covers_parent.mpr (.inr (same ▸ covers))⟩
      · exact ⟨other, .inl ⟨free, same⟩, covers⟩
    · rcases mem_cons.mp taken with rfl | taken
      · exact ⟨other.parent, .inr (by simp), covers_parent.mpr (.inl covers)⟩
      · exact ⟨other, .inr (.tail _ taken), covers⟩
  case sparse => exact fun other place buddy => system.sparse other place.1 buddy.1

/-- No block is larger than the whole. -/
theorem level_le (system : System height free taken) (member : block ∈ free ∨ block ∈ taken) :
    block.level ≤ height := by
  have last : block.Covers (block.start + (2 ^ block.level - 1)) := by
    have positive := Nat.two_pow_pos block.level
    exact covers_iff.mpr ⟨by omega, by omega⟩
  have below := system.inside block member _ last
  exact (Nat.pow_le_pow_iff_right (by decide)).mp (show 2 ^ block.level ≤ 2 ^ height by omega)

/-- A block all of whose points are free lies in one free block. -/
theorem under_free (system : System height free taken)
    (inside : ∀ point, block.Covers point → point < 2 ^ height)
    (apart : ∀ other ∈ taken, Apart block other) : Under free block := by
  obtain ⟨level, index⟩ := block
  induction level generalizing index with
  | zero =>
    have here := covers_start ⟨0, index⟩
    obtain ⟨other, member | member, covers⟩ := system.covered _ (inside _ here)
    · exact under_of_covers member here covers (Nat.zero_le _)
    · exact absurd covers (apart other member _ here)
  | succ level ih =>
    have parts : ∀ half : Block, half.level = level → half.parent = ⟨level + 1, index⟩ →
      Under free half := by
      intro half same above
      have within : ∀ point, half.Covers point → Block.Covers ⟨level + 1, index⟩ point :=
        fun point covers => above ▸ covers_parent.mpr (.inl covers)
      obtain ⟨_, half⟩ := half
      cases same
      exact ih half (fun point covers => inside point (within point covers))
        fun other member point covers => apart other member point (within point covers)
    have lowParent : parent ⟨level, 2 * index⟩ = ⟨level + 1, index⟩ := by simp [parent]
    have highParent := (parent_buddy).trans lowParent
    cases parts ⟨level, 2 * index⟩ rfl lowParent with
    | up under => exact lowParent ▸ under
    | here low =>
      cases parts (buddy ⟨level, 2 * index⟩) rfl highParent with
      | up under => exact highParent ▸ under
      | here high => exact absurd high (system.sparse _ low)

end System

end Otp.Library.Buddy
