import Mathlib
import Otp.Dets.Alloc

/-! The blocks of a dets table: free and allocated ones tile the file, also while the table is
fixed. -/

namespace Otp.Dets

open Function Otp.Library.Buddy
open Otp.Library.Buddy.Block (Apart covers_iff)

/-- The free table holds the free blocks of a buddy system at `base`. -/
def Represents (base : Nat) (ftab : Ftab) (holes : Set Block) : Prop :=
  ∀ pos addr, addr ∈ ftab pos ↔ ∃ block ∈ holes, pos = block.level + 1 ∧ addr = base + block.start

/-- The height of the system, from the largest block. -/
def height : Nat := maxBud - 1

theorem represents_initAlloc : Represents base (initAlloc base) {⟨height, 0⟩} := by
  intro pos addr
  by_cases top : pos = maxBud
  · subst top
    simp [initAlloc, bplusInsert, height, maxBud, Block.start]
  · have absent : ¬ pos = height + 1 := top
    simp [initAlloc, update_of_ne top, emptyFreeLists, absent]

namespace Represents

section

variable (represents : Represents base ftab holes)

include represents

theorem lookup (block : Block) : base + block.start ∈ ftab (block.level + 1) ↔ block ∈ holes := by
  rw [represents]
  constructor
  · rintro ⟨other, member, level, start⟩
    have same : block = other := Block.eq_of_start (by omega) (by omega)
    exact same ▸ member
  · exact fun member => ⟨block, member, rfl, rfl⟩

theorem insert (block : Block) : Represents base (update ftab (block.level + 1)
      (bplusInsert (ftab (block.level + 1)) (base + block.start))) (insert block holes) := by
  intro pos addr
  by_cases here : pos = block.level + 1
  · subst here
    simp [bplusInsert, represents (block.level + 1) addr]
  · rw [update_of_ne here, represents]
    simp [here]

theorem delete (block : Block) : Represents base (update ftab (block.level + 1)
      (bplusDelete (ftab (block.level + 1)) (base + block.start))) (holes \ {block}) := by
  intro pos addr
  by_cases here : pos = block.level + 1
  · subst here
    simp only [update_self, bplusDelete, Finset.mem_erase, represents (block.level + 1) addr]
    constructor
    · rintro ⟨differ, other, member, level, start⟩
      exact ⟨other, ⟨member, fun same => differ (same ▸ start)⟩, level, start⟩
    · rintro ⟨other, ⟨member, differ⟩, level, start⟩
      refine ⟨fun same => differ (Block.eq_of_start (by omega) (by omega)), other, member,
        level, start⟩
  · rw [update_of_ne here, represents]
    constructor
    · rintro ⟨other, member, level, start⟩
      exact ⟨other, ⟨member, fun same => here (same ▸ level)⟩, level, start⟩
    · rintro ⟨other, ⟨member, -⟩, level, start⟩
      exact ⟨other, member, level, start⟩

end

end Represents

theorem element_ok (range : 1 ≤ pos ∧ pos ≤ maxBud) (ftab : Ftab) :
    element pos ftab = .ok (ftab pos) := if_pos range

theorem setelement_ok (range : 1 ≤ pos ∧ pos ≤ maxBud) (ftab : Ftab) (posTab : PosTab) :
    setelement pos ftab posTab = .ok (update ftab pos posTab) := if_pos range

theorem level_range (low : level ≤ height) : 1 ≤ level + 1 ∧ level + 1 ≤ maxBud := by
  unfold height maxBud at *
  omega

theorem myBuddy_eq (base : Nat) (block : Block) :
    myBuddy (base + block.start) (2 ^ block.level) base =
      (base + block.buddy.start, base + block.parent.start) := by
  obtain ⟨level, index⟩ := block
  have bit : (index * 2 ^ level) &&& 2 ^ level = 0 ↔ index % 2 = 0 := by
    rw [Nat.and_two_pow, Nat.testBit_eq_decide_div_mod_eq]
    rcases Nat.mod_two_eq_zero_or_one index with even | odd
    · simp
    · simp
  simp only [myBuddy, Block.start, Nat.add_sub_cancel_left, bit, Block.buddy, Block.parent]
  split
  case isTrue even =>
    have halves : index = 2 * (index / 2) := by omega
    rw [Nat.pow_succ', ← Nat.mul_assoc, Nat.mul_comm (index / 2), ← halves, Nat.add_mul,
      Nat.one_mul, Nat.add_assoc]
  case isFalse odd =>
    have halves : index - 1 = 2 * (index / 2) := by omega
    have below : index * 2 ^ level = (index - 1) * 2 ^ level + 2 ^ level := by
      rw [← Nat.succ_mul, Nat.succ_eq_add_one, Nat.sub_add_cancel (by omega)]
    rw [Nat.pow_succ', ← Nat.mul_assoc, Nat.mul_comm (index / 2), ← halves, below, ← Nat.add_assoc,
      Nat.add_sub_cancel]

section

variable (represents : Represents base ftab holes)

include represents

theorem findFirstFree_spec (pos pos0 : Nat) (positive : 1 ≤ pos) :
    findFirstFree ftab pos pos0 = .error .noMoreSpaceOnFile ∨ ∃ block ∈ holes,
      pos ≤ block.level + 1 ∧
        findFirstFree ftab pos pos0 = .ok (block.level + 1, base + block.start) := by
  fun_induction findFirstFree ftab pos pos0 with
  | case1 pos large => exact .inl rfl
  | case2 pos small ih =>
    have found := element_ok ⟨positive, Nat.le_of_not_lt small⟩ ftab
    rw [found]
    simp only [bind, Except.bind, bplusLookupFirst]
    split
    case h_1 =>
      rcases ih (by omega) with full | ⟨block, member, above, result⟩
      · exact .inl full
      · exact .inr ⟨block, member, by omega, result⟩
    case h_2 addr first =>
      split
      · exact .inl rfl
      · split at first
        case isTrue some =>
          cases first
          obtain ⟨block, member, level, start⟩ := (represents pos _).mp ((ftab pos).min'_mem some)
          exact .inr ⟨block, member, by omega, by rw [← level, ← start]; rfl⟩
        case isFalse => cases first

/-- The block in hand is halved down to the position. -/
theorem moveDown_spec (system : System height holes (block :: taken)) (pos0 : Nat)
    (above : pos0 ≤ block.level) :
    ∃ ftab' holes' part, moveDown ftab (block.level + 1) (pos0 + 1) (base + block.start) =
      .ok ftab' ∧
      Represents base ftab' holes' ∧ System height holes' (part :: taken) ∧
      part.level = pos0 ∧ part.start = block.start := by
  obtain ⟨more, level⟩ := Nat.exists_eq_add_of_le above
  induction more generalizing block ftab holes with
  | zero =>
    refine ⟨ftab, holes, block, ?_, represents, system, level, rfl⟩
    rw [moveDown, if_pos (by omega)]
  | succ more ih =>
    have high : 0 < block.level := by omega
    have low := system.level_le (.inr List.mem_cons_self)
    have halved :=
      (show System height holes (block.low.parent :: taken) by rwa [Block.low_parent high]).halve
    have inserted := represents.insert block.low.buddy
    have lower : block.low.level + 1 = block.level := Nat.sub_add_cancel high
    obtain ⟨ftab', holes', part, result, rest⟩ := ih inserted halved (by omega) (by omega)
    refine ⟨ftab', holes', part, ?_, by rwa [Block.low_start high] at rest⟩
    have half : 2 ^ block.level >>> 1 = 2 ^ (block.level - 1) := by
      rw [Nat.shiftRight_eq_div_pow, Nat.pow_div high (by decide)]
    have range : 1 ≤ block.level ∧ block.level ≤ maxBud := ⟨high, Nat.le_of_lt (level_range low).2⟩
    have addr : base + block.start + 2 ^ block.level >>> 1 = base + block.low.buddy.start := by
      rw [half, Block.low_buddy_start, Block.low_start high, Nat.add_assoc]
    have buddyLevel : block.low.buddy.level + 1 = block.level := lower
    rw [moveDown, if_neg (by omega)]
    simp only [element_ok range, setelement_ok range, addr]
    rw [lower, Block.low_start high, buddyLevel] at result
    exact result

/-- A free block is cut down to the position. -/
theorem reserveBuddy_spec (system : System height holes taken) (member : block ∈ holes) (pos0 : Nat)
    (above : pos0 ≤ block.level) :
    ∃ ftab' holes' part, reserveBuddy ftab (block.level + 1) (pos0 + 1) (base + block.start) =
      .ok ftab' ∧
      Represents base ftab' holes' ∧ System height holes' (part :: taken) ∧
      part.level = pos0 ∧ part.start = block.start := by
  have range := level_range (system.level_le (.inl member))
  obtain ⟨ftab', holes', part, result, rest⟩ :=
    moveDown_spec (represents.delete block) (system.take member) pos0 above
  refine ⟨ftab', holes', part, ?_, rest⟩
  simp only [reserveBuddy, element_ok range, setelement_ok range]
  exact result

end

theorem undoFree_eq (range : 1 ≤ pos ∧ pos ≤ maxBud) (ftab : Ftab) (addr base : Nat) :
    undoFree ftab pos addr base =
      if addr ∈ ftab pos then .ok (update ftab pos (bplusDelete (ftab pos) addr))
      else undoFree (update ftab pos (bplusInsert (ftab pos) (myBuddy addr (2 ^ (pos - 1)) base).1))
        (pos + 1) (myBuddy addr (2 ^ (pos - 1)) base).2 base := by
  rw [undoFree]
  split
  case h_1 failed =>
    rw [element_ok range] at failed
    cases failed
  case h_2 posTab found =>
    rw [element_ok range] at found
    cases found
    simp only [setelement_ok range, bplusLookup, bind, Except.bind]
    by_cases present : addr ∈ ftab pos <;> simp [present]

/-- Below the position nothing is read or changed. -/
theorem undoFree_update (ftab : Ftab) (pos addr base low : Nat) (posTab : PosTab)
    (below : low < pos) :
    undoFree (update ftab low posTab) pos addr base =
      (undoFree ftab pos addr base).map (update · low posTab) := by
  by_cases range : 1 ≤ pos ∧ pos ≤ maxBud
  · have differ : pos ≠ low := by omega
    rw [undoFree_eq range, undoFree_eq range ftab, update_of_ne differ]
    simp only [update_comm differ.symm]
    split
    · rfl
    · exact undoFree_update _ (pos + 1) _ base low posTab (by omega)
  · have outside : ∀ ftab, undoFree ftab pos addr base = .error .badarg := by
      intro ftab
      rw [undoFree]
      split
      case h_1 failed =>
        cases failed.symm.trans (if_neg range)
        rfl
      case h_2 found => exact absurd (element_range found) range
    rw [outside, outside]
    rfl
termination_by maxBud + 1 - pos

/-- The block is taken in hand, from the free block it is part of. -/
theorem undoFree_spec (represents : Represents base ftab holes) (system : System height holes taken)
    (under : Under holes block) :
    ∃ ftab' holes', undoFree ftab (block.level + 1) (base + block.start) base = .ok ftab' ∧
      Represents base ftab' holes' ∧ System height holes' (block :: taken) := by
  induction under with
  | @here block member =>
    have range := level_range (system.level_le (.inl member))
    rw [undoFree_eq range, if_pos ((represents.lookup block).mpr member)]
    exact ⟨_, _, rfl, represents.delete block, system.take member⟩
  | @up block _ ih =>
    obtain ⟨ftab', holes', result, represents', system'⟩ := ih
    have above := system'.level_le (.inr List.mem_cons_self)
    have range := level_range (show block.level ≤ height from Nat.le_of_succ_le above)
    by_cases member : block ∈ holes
    · rw [undoFree_eq range, if_pos ((represents.lookup block).mpr member)]
      exact ⟨_, _, rfl, represents.delete block, system.take member⟩
    -- the climb leaves this position alone, so the buddy may as well be inserted after it
    have kept : ftab' (block.level + 1) = ftab (block.level + 1) := by
      have same :=
        undoFree_update ftab (block.level + 2) (base + block.parent.start) base (block.level + 1)
        (ftab (block.level + 1)) (by omega)
      rw [update_eq_self, show block.level + 2 = block.parent.level + 1 from rfl, result] at same
      have same := congrFun (Except.ok.inj same) (block.level + 1)
      simpa using same
    rw [undoFree_eq range, if_neg (fun present => member ((represents.lookup block).mp present)),
      Nat.add_sub_cancel, myBuddy_eq, undoFree_update _ _ _ _ _ _ (Nat.lt_succ_self _)]
    refine ⟨_, _, congrArg _ result, ?_, system'.halve⟩
    have inserted := represents'.insert block.buddy
    rw [show block.buddy.level = block.level from rfl, kept] at inserted
    exact inserted

/-- The block in hand is freed, and joined as far as it goes. -/
theorem freeInPos_spec (represents : Represents base ftab holes)
    (system : System height holes (block :: taken)) :
    ∃ ftab' holes', freeInPos ftab (base + block.start) (block.level + 1) base = .ok ftab' ∧
      Represents base ftab' holes' ∧ System height holes' taken := by
  have range := level_range (system.level_le (.inr List.mem_cons_self))
  have absent : base + block.start ∉ ftab (block.level + 1) :=
    fun present => system.not_free ((represents.lookup block).mp present)
  rw [freeInPos, if_neg (by omega)]
  simp only [element_ok range, setelement_ok range, bind, Except.bind, Nat.add_sub_cancel,
    myBuddy_eq, bplusLookup]
  by_cases member : block.buddy ∈ holes
  · have joined := system.join member
    have higher : block.level + 1 ≤ height := joined.level_le (.inr List.mem_cons_self)
    have present : base + block.buddy.start ∈ ftab (block.level + 1) :=
      (represents.lookup block.buddy).mpr member
    have erased : bplusDelete (ftab (block.level + 1)) (base + block.start) =
      ftab (block.level + 1) :=
      Finset.erase_eq_of_notMem absent
    rw [if_pos present, erased]
    exact freeInPos_spec (represents.delete block.buddy) joined
  · have missing : ¬ base + block.buddy.start ∈ ftab (block.level + 1) :=
      fun present => member ((represents.lookup block.buddy).mp present)
    rw [if_neg missing]
    exact ⟨_, _, rfl, represents.insert block, system.give member⟩
termination_by height - block.level
decreasing_by
  have above : block.parent.level = block.level + 1 := rfl
  omega

def Area.range (area : Area) : Set Nat := Set.Ico area.addr (area.addr + 2 ^ (area.pos - 1))

def IsFree (ftab : Ftab) (area : Area) : Prop :=
  (1 ≤ area.pos ∧ area.pos ≤ maxBud) ∧ area.addr ∈ ftab area.pos

/-- Every byte was free. -/
def FreeIn (ftab : Ftab) (found : Area) : Prop :=
  ∀ addr ∈ found.range, ∃ hole, IsFree ftab hole ∧ addr ∈ hole.range

def area (base : Nat) (block : Block) : Area := ⟨base + block.start, block.level + 1⟩

theorem area_injective : Injective (area base) := by
  intro first second same
  obtain ⟨start, level⟩ := Area.mk.inj same
  exact Block.eq_of_start (by omega) (by omega)

theorem mem_range : addr ∈ (area base block).range ↔ ∃ point, addr = base + point ∧
    block.Covers point := by
  simp only [Area.range, area, Set.mem_Ico, Nat.add_sub_cancel, covers_iff]
  constructor
  · rintro ⟨above, below⟩
    exact ⟨addr - base, by omega, by omega, by omega⟩
  · omega

theorem isFree_iff (represents : Represents base ftab holes) (system : System height holes taken) :
    IsFree ftab found ↔ ∃ block ∈ holes, found = area base block := by
  constructor
  · rintro ⟨-, listed⟩
    obtain ⟨block, member, level, start⟩ := (represents _ _).mp listed
    exact ⟨block, member, Area.mk.injEq .. ▸ ⟨start, level⟩⟩
  · rintro ⟨block, member, rfl⟩
    exact ⟨level_range (system.level_le (.inl member)), (represents.lookup block).mpr member⟩

/-- The free table leaves these blocks to their users. -/
def Keeps (base : Nat) (ftab : Ftab) (taken : List Block) : Prop :=
  ∃ holes, Represents base ftab holes ∧ System height holes taken

/-- The frozen table keeps what is allocated now and what was allocated when the table was fixed. -/
def Guarded (base : Nat) (frozen mapped : Ftab) (taken : List Block) : Prop :=
  ∃ held before, Keeps base frozen held ∧ Keeps base mapped before ∧ taken ⊆ held ∧ before ⊆ held

structure Sound (head : Head Pid Stamp) (base : Nat) (mapped : Ftab)
    (taken : List Block) : Prop where
  based : head.base = base
  keeps : Keeps base (getFreelists head) taken
  guarded : ∀ since counters frozen ftab, head.freelists = .fixed since counters frozen ftab →
    Guarded base frozen mapped taken

theorem sz2pos_spec (positive : 0 < sz) : ∃ level, sz2pos sz = .ok (level + 1) ∧
    level = log2 (sz + 1) :=
  ⟨_, by rw [sz2pos, if_pos positive, Nat.add_comm], rfl⟩

/-- A block that the frozen table has free is part of a block free now. -/
theorem Guarded.under (guarded : Guarded base frozen mapped taken)
    (represents : Represents base frozen old) (system : System height holes taken)
    (member : block ∈ old) : Under holes block := by
  obtain ⟨held, before, ⟨frozenHoles, sameTable, frozenSystem⟩, -, within, -⟩ := guarded
  have mine : block ∈ frozenHoles :=
    (sameTable.lookup block).mp ((represents.lookup block).mpr member)
  exact system.under_free (frozenSystem.inside block (.inl mine))
    fun other taken => frozenSystem.across block mine other (within taken)

/-- Nothing of a block in hand was allocated when the table was fixed. -/
theorem mapped_of_held (keeps : Keeps base mapped before) (within : before ⊆ held)
    (system : System height holes (block :: held)) : FreeIn mapped (area base block) := by
  intro addr inBlock
  obtain ⟨point, rfl, covers⟩ := mem_range.mp inBlock
  obtain ⟨mappedHoles, represents, mappedSystem⟩ := keeps
  obtain ⟨hole, member | member, holeCovers⟩ :=
    mappedSystem.covered point (system.inside block (.inr List.mem_cons_self) point covers)
  · exact ⟨area base hole, (isFree_iff represents mappedSystem).mpr ⟨hole, member, rfl⟩,
      mem_range.mpr ⟨point, rfl, holeCovers⟩⟩
  · exact absurd holeCovers
      ((List.pairwise_cons.mp system.taken_apart).1 hole (within member) point covers)

variable {head : Head Pid Stamp}

/-- What an allocation can do. -/
def Allocates (head : Head Pid Stamp) (base : Nat) (mapped : Ftab) (taken : List Block)
    (sz : Nat) : Prop :=
  alloc head sz = .error .noMoreSpaceOnFile ∨
    ∃ head' block, alloc head sz = .ok (head', base + block.start, block.level + 1) ∧
      Sound head' base mapped (block :: taken) ∧ block.level = log2 (sz + 1) ∧
      ∀ since counters frozen ftab, head.freelists = .fixed since counters frozen ftab →
        FreeIn mapped (area base block)

section

variable {base : Nat} {mapped : Ftab} {taken : List Block} (sound : Sound head base mapped taken)

include sound

theorem alloc_single (single : head.freelists = .single ftab)
    (positive : 0 < sz) : Allocates head base mapped taken sz := by
  obtain ⟨level, position, size⟩ := sz2pos_spec positive
  obtain ⟨holes, represents, system⟩ := sound.keeps
  rw [getFreelists, single] at represents
  unfold Allocates
  rw [alloc, single]
  simp only [position, bind, Except.bind]
  rcases findFirstFree_spec represents (level + 1) (level + 1) (by omega)
    with full | ⟨block, member, above, found⟩
  · exact .inl (by rw [full])
  obtain ⟨ftab', holes', part, reserved, represents', system', partLevel, partStart⟩ :=
    reserveBuddy_spec represents system member level (by omega)
  refine .inr ⟨{ head with freelists := .single ftab' }, part, ?_, ?_, partLevel.trans size, ?_⟩
  · simp only [found, reserved, partLevel, partStart]
    rfl
  · exact ⟨sound.based, ⟨holes', represents', system'⟩, fun _ _ _ _ fixed => by cases fixed⟩
  · intro _ _ _ _ fixed
    cases fixed

theorem alloc_fixed (fixed : head.freelists = .fixed since counters frozen ftab)
    (positive : 0 < sz) :
    Allocates head base mapped taken sz := by
  obtain ⟨level, position, size⟩ := sz2pos_spec positive
  obtain ⟨holes, represents, system⟩ := sound.keeps
  rw [getFreelists, fixed] at represents
  have guarded := sound.guarded _ _ _ _ fixed
  obtain ⟨held, before, ⟨old, frozenRepresents, frozenSystem⟩, mappedKeeps, within, earlier⟩ :=
    guarded
  unfold Allocates
  rw [alloc, fixed]
  simp only [position, bind, Except.bind, sound.based]
  rcases findFirstFree_spec frozenRepresents (level + 1) (level + 1) (by omega) with
    full | ⟨block, member, above, found⟩
  · exact .inl (by rw [full])
  -- the frozen table is cut down, then the current one
  obtain ⟨frozen', old', part, reserved, frozenRepresents', frozenSystem', partLevel, partStart⟩ :=
    reserveBuddy_spec frozenRepresents frozenSystem member level (by omega)
  obtain ⟨ftab1, holes1, undone, represents1, system1⟩ :=
    undoFree_spec represents system
      ((sound.guarded _ _ _ _ fixed).under frozenRepresents system member)
  obtain ⟨ftab', holes', part', moved, represents', system', partLevel', partStart'⟩ :=
    moveDown_spec represents1 system1 level (by omega)
  have same : part' = part :=
    Block.eq_of_start (partLevel'.trans partLevel.symm) (partStart'.trans partStart.symm)
  subst same
  refine .inr ⟨⟨base, .fixed since counters frozen' ftab'⟩, part', ?_, ?_, partLevel.trans size, ?_⟩
  · simp only [found, reserved, undone, moved, partLevel, partStart]
    rfl
  · refine ⟨rfl, ⟨holes', represents', system'⟩, ?_⟩
    intro _ _ _ _ shape
    cases shape
    exact ⟨part' :: held, before, ⟨old', frozenRepresents', frozenSystem'⟩, mappedKeeps,
      List.cons_subset_cons _ within, List.subset_cons_of_subset _ earlier⟩
  · exact fun _ _ _ _ _ => mapped_of_held mappedKeeps earlier frozenSystem'

theorem alloc_allocates (positive : 0 < sz) : Allocates head base mapped taken sz := by
  cases shape : head.freelists with
  | single ftab => exact alloc_single sound shape positive
  | fixed since counters frozen ftab => exact alloc_fixed sound shape positive

theorem free_spec (member : block ∈ taken) (size : sz2pos sz = .ok (block.level + 1)) :
    ∃ head', free head (base + block.start) sz = .ok (head', block.level + 1) ∧
      Sound head' base mapped (taken.erase block) := by
  obtain ⟨holes, represents, system⟩ := sound.keeps
  obtain ⟨ftab', holes', freed, represents', system'⟩ :=
    freeInPos_spec represents (system.perm (List.perm_cons_erase member))
  refine ⟨setFreelists head ftab', ?_, ?_⟩
  · simp only [free, size, sound.based, freed, bind, Except.bind]
    rfl
  · cases shape : head.freelists with
    | single ftab =>
      simp only [setFreelists, shape]
      exact ⟨sound.based, ⟨holes', represents', system'⟩, fun _ _ _ _ fixed => by cases fixed⟩
    | fixed since counters frozen ftab =>
      obtain ⟨held, before, keeps, mappedKeeps, within, earlier⟩ := sound.guarded _ _ _ _ shape
      simp only [setFreelists, shape]
      refine ⟨sound.based, ⟨holes', represents', system'⟩, ?_⟩
      intro _ _ _ _ fixed
      cases fixed
      exact ⟨held, before, keeps, mappedKeeps, fun _ other => within (List.mem_of_mem_erase other),
        earlier⟩

/-! Fixing moves whole tables only. -/

theorem Sound.single :
    Sound (⟨head.base, .single (getFreelists head)⟩ : Head Pid Stamp) base mapped taken :=
  ⟨sound.based, sound.keeps, fun _ _ _ _ fixed => by cases fixed⟩

theorem Sound.counted (shape : head.freelists = .fixed since counters frozen ftab)
    (others : List (Pid × Nat)) :
    Sound ⟨head.base, .fixed since others frozen ftab⟩ base mapped taken := by
  refine ⟨sound.based, ?_, ?_⟩
  · have keeps := sound.keeps
    rw [getFreelists, shape] at keeps
    exact keeps
  · intro _ _ _ _ fixed
    cases fixed
    exact sound.guarded _ _ _ _ shape

end

section

variable [DecidableEq Pid]

theorem removeFix_sound (sound : Sound head base mapped taken) :
    Sound (removeFix head pid how) base mapped taken := by
  unfold removeFix
  split
  case h_1 => exact sound
  case h_2 shape =>
    split
    · split
      · split
        · exact sound.single
        · exact sound.counted shape _
      · exact sound.counted shape _
    · exact sound

theorem doSafeFixtable_sound (sound : Sound head base mapped taken) :
    Sound (doSafeFixtable head pid now true) base (mapAfterFix head mapped) taken := by
  simp only [doSafeFixtable, mapAfterFix, if_true]
  split
  case h_1 ftab shape =>
    have keeps := sound.keeps
    rw [getFreelists, shape] at keeps ⊢
    refine ⟨sound.based, keeps, ?_⟩
    intro _ _ _ _ fixed
    cases fixed
    exact ⟨taken, taken, keeps, keeps, List.Subset.refl _, List.Subset.refl _⟩
  case h_2 shape =>
    split
    · exact sound.counted shape _
    · exact sound.counted shape _

end

theorem unlinkFixingProcs_sound (sound : Sound head base mapped taken) :
    Sound (unlinkFixingProcs head) base mapped taken := by
  unfold unlinkFixingProcs
  split
  · exact sound
  · exact sound.single

/-- The allocated blocks are those the head keeps. -/
def Invariant (base : Nat) (state : State Pid Stamp) : Prop :=
  ∃ taken, state.allocated = taken.map (area base) ∧ Sound state.head base state.mapped taken

theorem start_invariant : Invariant base (start base : State Pid Stamp) :=
  ⟨[], rfl, rfl, ⟨_, represents_initAlloc, System.start height⟩,
    fun _ _ _ _ fixed => by cases fixed⟩

variable [DecidableEq Pid] {state : State Pid Stamp}

theorem step_invariant (invariant : Invariant base state) (step : Step state next) :
    Invariant base next := by
  obtain ⟨taken, allocated, sound⟩ := invariant
  cases step with
  | alloc done =>
    rename_i sz head addr pos
    rcases Nat.eq_zero_or_pos sz with rfl | positive
    · have failed : alloc state.head 0 = .error .functionClause := by
        rw [alloc]
        split <;> rfl
      rw [failed] at done
      cases done
    · rcases alloc_allocates sound positive with full | ⟨head', block, result, sound', -⟩
      · rw [full] at done
        cases done
      · rw [result] at done
        cases done
        exact ⟨block :: taken, by simp [allocated, area], sound'⟩
  | free mine size done =>
    rw [allocated] at mine
    obtain ⟨block, member, same⟩ := List.mem_map.mp mine
    cases same
    obtain ⟨head', result, sound'⟩ := free_spec sound member size
    rw [result] at done
    cases done
    refine ⟨taken.erase block, ?_, sound'⟩
    simp only [allocated]
    exact (List.map_erase area_injective taken).symm
  | fix => exact ⟨taken, allocated, doSafeFixtable_sound sound⟩
  | unfix | close => exact ⟨taken, allocated, removeFix_sound sound⟩
  | stop => exact ⟨taken, allocated, unlinkFixingProcs_sound sound⟩

theorem reachable_invariant (reachable : Reachable base state) : Invariant base state := by
  induction reachable with
  | start => exact start_invariant
  | step _ step ih => exact step_invariant ih step

/-- Free and allocated blocks are disjoint, lie at `base` plus multiples of their sizes and make up
the file from `base` on; no two free blocks are buddies. -/
structure Tiled (base : Nat) (ftab : Ftab) (allocated : List Area) : Prop where
  free_disjoint : ∀ first second, IsFree ftab first → IsFree ftab second → first ≠ second →
    Disjoint first.range second.range
  across_disjoint : ∀ first, IsFree ftab first → ∀ second ∈ allocated,
    Disjoint first.range second.range
  allocated_disjoint : allocated.Pairwise fun first second => Disjoint first.range second.range
  aligned : ∀ area, IsFree ftab area ∨ area ∈ allocated →
    1 ≤ area.pos ∧ ∃ times, area.addr = base + times * 2 ^ (area.pos - 1)
  covers : ∀ addr, (∃ area, (IsFree ftab area ∨ area ∈ allocated) ∧ addr ∈ area.range) ↔
    addr ∈ Set.Ico base (base + 2 ^ 31)
  no_buddies : ∀ area, IsFree ftab area →
    ¬ IsFree ftab ⟨(myBuddy area.addr (2 ^ (area.pos - 1)) base).1, area.pos⟩

theorem disjoint_of_apart (apart : Apart first second) :
    Disjoint (area base first).range (area base second).range := by
  refine Set.disjoint_left.mpr fun addr mine its => ?_
  obtain ⟨point, here, covers⟩ := mem_range.mp mine
  obtain ⟨other, there, others⟩ := mem_range.mp its
  have same : other = point := by omega
  exact apart point covers (same ▸ others)

theorem Keeps.tiled (keeps : Keeps base ftab taken) : Tiled base ftab (taken.map (area base)) := by
  obtain ⟨holes, represents, system⟩ := keeps
  have shape : ∀ found, IsFree ftab found ↔ ∃ block ∈ holes, found = area base block :=
    fun _ => isFree_iff represents system
  have either : ∀ found, IsFree ftab found ∨ found ∈ taken.map (area base) ↔
      ∃ block, (block ∈ holes ∨ block ∈ taken) ∧ found = area base block := by
    intro found
    rw [shape, List.mem_map]
    constructor
    · rintro (⟨block, member, same⟩ | ⟨block, member, same⟩)
      · exact ⟨block, .inl member, same⟩
      · exact ⟨block, .inr member, same.symm⟩
    · rintro ⟨block, member | member, same⟩
      · exact .inl ⟨block, member, same⟩
      · exact .inr ⟨block, member, same.symm⟩
  refine ⟨?free_disjoint, ?across_disjoint, ?allocated_disjoint, ?aligned, ?covers, ?no_buddies⟩
  case free_disjoint =>
    intro first second firstFree secondFree differ
    obtain ⟨block₁, member₁, rfl⟩ := (shape first).mp firstFree
    obtain ⟨block₂, member₂, rfl⟩ := (shape second).mp secondFree
    exact disjoint_of_apart (system.free_apart _ member₁ _ member₂ fun same => differ (same ▸ rfl))
  case across_disjoint =>
    intro first firstFree second allocated
    obtain ⟨block₁, member₁, rfl⟩ := (shape first).mp firstFree
    obtain ⟨block₂, member₂, rfl⟩ := List.mem_map.mp allocated
    exact disjoint_of_apart (system.across _ member₁ _ member₂)
  case allocated_disjoint => exact List.pairwise_map.mpr (system.taken_apart.imp disjoint_of_apart)
  case aligned =>
    intro found place
    obtain ⟨block, -, rfl⟩ := (either found).mp place
    exact ⟨Nat.le_add_left _ _, block.index, rfl⟩
  case covers =>
    intro addr
    constructor
    · rintro ⟨found, place, within⟩
      obtain ⟨block, member, rfl⟩ := (either found).mp place
      obtain ⟨point, rfl, covers⟩ := mem_range.mp within
      have below : point < 2 ^ 31 := system.inside block member point covers
      exact ⟨by omega, by omega⟩
    · rintro ⟨above, below⟩
      obtain ⟨block, member, covers⟩ :=
        system.covered (addr - base) (show addr - base < 2 ^ 31 by omega)
      exact ⟨area base block, (either _).mpr ⟨block, member, rfl⟩,
        mem_range.mpr ⟨_, by omega, covers⟩⟩
  case no_buddies =>
    intro found free buddyFree
    obtain ⟨block, member, rfl⟩ := (shape found).mp free
    rw [area, Nat.add_sub_cancel, myBuddy_eq] at buddyFree
    obtain ⟨other, otherMember, same⟩ := (shape _).mp buddyFree
    exact system.sparse block member (area_injective same ▸ otherMember)

/-- A block holds what was asked for. -/
theorem le_log2 : n ≤ 2 ^ log2 n := by
  fun_induction log2 n
  case case1 n _ _ _ _ even odd =>
    have mask : n &&& (2 ^ 12 - 1) = n % 2 ^ 12 := Nat.and_two_pow_sub_one_eq_mod n 12
    rw [Nat.pow_add]
    split <;> omega
  all_goals omega

/-- From any state that allocations, frees, fixing and unfixing lead to: the blocks tile the file.
An allocation returns a block that is large enough, or finds no space; while the table is fixed,
the block was free when it was fixed, and every block of the frozen table is found in the current
one. Every allocated block can be freed. -/
theorem allocator_sound (reachable : Reachable base state) :
    Tiled base (getFreelists state.head) state.allocated ∧
    (∀ sz > 0, alloc state.head sz = .error .noMoreSpaceOnFile ∨
      ∃ head addr pos, alloc state.head sz = .ok (head, addr, pos) ∧ sz < 2 ^ (pos - 1) ∧
        ∀ since counters frozen ftab, state.head.freelists = .fixed since counters frozen ftab →
          FreeIn state.mapped ⟨addr, pos⟩) ∧
    (∀ since counters frozen ftab, state.head.freelists = .fixed since counters frozen ftab →
      ∀ found, IsFree frozen found → (∃ hole, IsFree ftab hole ∧ found.range ⊆ hole.range) ∧
        ∃ ftab', undoFree ftab found.pos found.addr base = .ok ftab') ∧
    ∀ found ∈ state.allocated, ∀ sz, sz2pos sz = .ok found.pos →
      ∃ head, free state.head found.addr sz = .ok (head, found.pos) := by
  obtain ⟨taken, allocated, sound⟩ := reachable_invariant reachable
  refine ⟨allocated ▸ sound.keeps.tiled, ?_, ?_, ?_⟩
  · intro sz positive
    rcases alloc_allocates sound positive with full | ⟨head, block, result, -, size, mapped⟩
    · exact .inl full
    · refine .inr ⟨head, _, _, result, ?_, mapped⟩
      rw [size]
      exact le_log2
  · intro since counters frozen ftab fixed found free
    have guarded := sound.guarded _ _ _ _ fixed
    obtain ⟨held, before, ⟨old, frozenRepresents, frozenSystem⟩, -⟩ := guarded
    obtain ⟨block, member, rfl⟩ := (isFree_iff frozenRepresents frozenSystem).mp free
    obtain ⟨holes, represents, system⟩ := sound.keeps
    rw [getFreelists, fixed] at represents
    have under := (sound.guarded _ _ _ _ fixed).under frozenRepresents system member
    obtain ⟨ftab', -, undone, -⟩ := undoFree_spec represents system under
    obtain ⟨hole, holeMember, covers⟩ := under.covers
    refine ⟨⟨area base hole, (isFree_iff represents system).mpr ⟨hole, holeMember, rfl⟩, ?_⟩,
      ftab', undone⟩
    intro addr within
    obtain ⟨point, here, mine⟩ := mem_range.mp within
    exact mem_range.mpr ⟨point, here, covers point mine⟩
  · intro found place sz size
    rw [allocated] at place
    obtain ⟨block, member, rfl⟩ := List.mem_map.mp place
    obtain ⟨head, result, -⟩ := free_spec sound member size
    exact ⟨head, result⟩

theorem ran_step {result : Except Failure α} {next : α → Except Failure β}
    (run : (result >>= next).toOption = some last) :
    ∃ value, result = .ok value ∧ (next value).toOption = some last := by
  cases result with
  | error failure => cases run
  | ok value => exact ⟨value, rfl, run⟩

/-- 100 bytes are allocated and freed while the table is fixed, so that the block is whole again.
The next 100 bytes come from the frozen table, and `undo_free` splits the whole block for them:
the freed bytes are left alone. -/
theorem allocator_sound_fixed : ∃ state : State Nat Nat, Reachable 1336 state ∧
    state.allocated = [⟨1464, 8⟩] ∧ 1336 ∈ getFreelists state.head 8 ∧
    Tiled 1336 (getFreelists state.head) state.allocated := by
  have run : (do
      let (head, addr, pos) ← alloc (start 1336 : State Nat Nat).head 100
      let (head, pos') ← free (doSafeFixtable head 7 0 true) addr 100
      let (head', addr', pos'') ← alloc head 100
      return ([addr, pos, pos', addr', pos''],
        decide (1336 ∈ getFreelists head 32 ∧ 1336 ∈ getFreelists head' 8))).toOption =
        some ([1336, 8, 8, 1464, 8], true) := by decide +kernel
  obtain ⟨⟨head, addr, pos⟩, allocated, run⟩ := ran_step run
  obtain ⟨⟨head', pos'⟩, freed, run⟩ := ran_step run
  obtain ⟨⟨head'', addr', pos''⟩, again, run⟩ := ran_step run
  simp only [pure, Except.pure, Except.toOption, Option.some.injEq, Prod.mk.injEq,
    List.cons.injEq, decide_eq_true_eq] at run
  obtain ⟨⟨rfl, rfl, rfl, rfl, rfl, -⟩, -, left⟩ := run
  have reachable := Reachable.step (.step (.step (.step .start (.alloc allocated)) .fix)
    (.free List.mem_cons_self (by decide +kernel) freed)) (.alloc again)
  exact ⟨_, reachable, by simp [start], left, (allocator_sound reachable).1⟩

end Otp.Dets
