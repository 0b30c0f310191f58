import Otp.Ets.TreeStackInvariant

/-! Every operation on an `ordered_set` table keeps its cached stack on a node
of the current tree, and answers by the order of the keys. -/

namespace Otp.Ets

open List
open Otp.Library TreeDbTerm

variable {Key Obj : Type} {order : KeyOrder Key Obj} {tb : DbTableTree Obj}
variable {focus : Focus Obj}

/-- The stack is empty, or on a node of the tree with its rank recorded or not. -/
inductive CursorOk (root : TreeDbTerm Obj) : DbTreeStack → Prop where
  | empty : CursorOk root { array := [], slot := 0 }
  | on (focus : Focus Obj) (same : focus.root = root)
      (recorded : slot = 0 ∨ slot = focus.before.length + 1) :
      CursorOk root { array := focus.stack, slot }

structure TableOk (order : KeyOrder Key Obj) (tb : DbTableTree Obj) : Prop
    extends TreeOk order tb where
  distinct : tb.root.addrs.Nodup
  cursor : CursorOk tb.root tb.staticStack

theorem TableOk.any_stack (ok : TableOk order tb) (busy : Bool) :
    CursorOk tb.root (getAnyStack tb busy) := by
  cases busy
  · exact ok.cursor
  · exact .empty

theorem TableOk.release (ok : TableOk order tb) (busy : Bool) (cursor : CursorOk tb.root stack) :
    TableOk order (releaseStack tb busy stack) := by
  cases busy
  · exact { ok with cursor }
  · exact ok

/-- Ranks stay far from the limit of a `Uint`. -/
theorem TableOk.rank_lt (ok : TableOk order tb) (same : focus.root = tb.root) :
    focus.before.length + 1 < 2 ^ 32 := by
  have length := congrArg length focus.root_entries
  rw [same, ← ok.count] at length
  have room := ok.room
  simp only [length_append, treeMaxElements] at length room
  omega

theorem bumpSlot_inc (recorded : slot = 0 ∨ slot = rank) (small : rank < 2 ^ 32) :
    bumpSlot uintInc slot = 0 ∨ bumpSlot uintInc slot = rank + 1 := by
  rcases recorded with zero | same
  · exact .inl (by simp [bumpSlot, zero])
  · subst slot
    by_cases zero : rank = 0
    · exact .inl (by simp [bumpSlot, zero])
    · simp only [bumpSlot, uintInc, Nat.pos_of_ne_zero zero, ↓reduceIte]
      omega

theorem bumpSlot_dec (recorded : slot = 0 ∨ slot = rank + 1) (small : rank < 2 ^ 32) :
    bumpSlot uintDec slot = 0 ∨ bumpSlot uintDec slot = rank := by
  rcases recorded with zero | same
  · exact .inl (by simp [bumpSlot, zero])
  · subst slot
    simp only [bumpSlot, uintDec, Nat.succ_pos, ↓reduceIte]
    omega

/-- What `find_next` returns with a good stack: the node of the first entry
above the key, or `NULL` when there is none. -/
inductive NextResult (order : KeyOrder Key Obj) (key : Key) (root : TreeDbTerm Obj) :
    DbTreeStack × Option Nat → Prop where
  | none (cursor : CursorOk root stack)
      (low : ∀ entry ∈ root.entries, order.cmp key (order.entryKey entry) ≠ .lt) :
      NextResult order key root (stack, none)
  | found (focus : Focus Obj) (same : focus.root = root)
      (cursor : CursorOk root { array := focus.stack, slot })
      (low : ∀ entry ∈ focus.before, order.cmp key (order.entryKey entry) ≠ .lt)
      (high : ∀ entry ∈ focus.entry :: focus.after, order.cmp key (order.entryKey entry) = .lt) :
      NextResult order key root ({ array := focus.stack, slot }, some focus.addr)

inductive PrevResult (order : KeyOrder Key Obj) (key : Key) (root : TreeDbTerm Obj) :
    DbTreeStack × Option Nat → Prop where
  | none (cursor : CursorOk root stack)
      (high : ∀ entry ∈ root.entries, order.cmp key (order.entryKey entry) ≠ .gt) :
      PrevResult order key root (stack, none)
  | found (focus : Focus Obj) (same : focus.root = root)
      (cursor : CursorOk root { array := focus.stack, slot })
      (low : ∀ entry ∈ focus.before ++ [focus.entry], order.cmp key (order.entryKey entry) = .gt)
      (high : ∀ entry ∈ focus.after, order.cmp key (order.entryKey entry) ≠ .gt) :
      PrevResult order key root ({ array := focus.stack, slot }, some focus.addr)

/-- Two ways to cut the entries at a cursor agree after the cut. -/
theorem Focus.cut_after {first second : Focus Obj} (same : second.root = first.root)
    (passed : second.before = first.before ++ [first.entry]) :
    first.after = second.entry :: second.after := by
  have entries := second.root_entries
  rw [same, first.root_entries, passed] at entries
  simpa using entries

theorem Focus.cut_before {first second : Focus Obj} (same : second.root = first.root)
    (passed : second.after = first.entry :: first.after) :
    first.before = second.before ++ [second.entry] := by
  have entries := second.root_entries
  rw [same, first.root_entries, passed] at entries
  have cancelled : first.before ++ (first.entry :: first.after) =
      (second.before ++ [second.entry]) ++ (first.entry :: first.after) := by simpa using entries
  exact append_cancel_right cancelled

theorem nextFrom_result (ok : TableOk order tb) (same : focus.root = tb.root)
    (recorded : slot = 0 ∨ slot = focus.before.length + 1)
    (low : ∀ entry ∈ focus.before ++ [focus.entry], order.cmp key (order.entryKey entry) ≠ .lt)
    (high : ∀ entry ∈ focus.after, order.cmp key (order.entryKey entry) = .lt) :
    ∃ result, nextFrom tb.root focus.node { array := focus.stack, slot } = some result ∧
      NextResult order key tb.root result := by
  obtain ⟨array, success, forward⟩ := nextFrom_forward (same ▸ ok.distinct)
  rw [same] at success
  refine ⟨_, success, ?_⟩
  cases forward with
  | done last =>
    refine .none .empty ?_
    rw [← same, focus.root_entries, last]
    exact low
  | moved next root passed =>
    have length : next.before.length = focus.before.length + 1 := by simp [passed]
    have rank := bumpSlot_inc recorded (ok.rank_lt same)
    rw [← length] at rank
    refine .found next (root.trans same) (.on next (root.trans same) rank) ?_ ?_
    · rw [passed]
      exact low
    · rw [← Focus.cut_after root passed]
      exact high

theorem prevFrom_result (ok : TableOk order tb) (same : focus.root = tb.root)
    (recorded : slot = 0 ∨ slot = focus.before.length + 1)
    (low : ∀ entry ∈ focus.before, order.cmp key (order.entryKey entry) = .gt)
    (high : ∀ entry ∈ focus.entry :: focus.after, order.cmp key (order.entryKey entry) ≠ .gt) :
    ∃ result, prevFrom tb.root focus.node { array := focus.stack, slot } = some result ∧
      PrevResult order key tb.root result := by
  obtain ⟨array, success, backward⟩ := prevFrom_backward (same ▸ ok.distinct)
  rw [same] at success
  refine ⟨_, success, ?_⟩
  cases backward with
  | done first =>
    refine .none .empty ?_
    rw [← same, focus.root_entries, first]
    exact high
  | moved next root passed =>
    have cut := Focus.cut_before root passed
    have length : focus.before.length = next.before.length + 1 := by simp [cut]
    have small := ok.rank_lt same
    have rank := bumpSlot_dec recorded (by omega)
    rw [length] at rank
    refine .found next (root.trans same) (.on next (root.trans same) rank) ?_ ?_
    · rw [← cut]
      exact low
    · rw [passed]
      exact high

/-- The entries on both sides of a cursor at the key. -/
theorem TableOk.splits_at (ok : TableOk order tb) (same : focus.root = tb.root)
    (equal : order.cmp key (order.entryKey focus.entry) = .eq) :
    Splits order.cmp order.entryKey key focus.before focus.after := by
  have trans := order.trans
  have sorted := ok.sorted
  rw [← same, focus.root_entries] at sorted
  exact (sorted_splits sorted).congr equal

/-- With an empty stack the search starts at the root. -/
theorem findFrom_empty (nonempty : tb.root ≠ .null) (found : down tb.root [] = (array, outcome)) :
    findFrom order tb { array := [], slot := 0 } key down step =
      outcome.elim (some ({ array, slot := 0 }, array.head?))
        fun this => step tb.root this { array, slot := 0 } := by
  cases shape : tb.root with
  | null => exact absurd shape nonempty
  | node addr left right balance dbterm =>
    rw [shape] at found
    simp only [findFrom, shape, found]
    cases outcome <;> rfl

section

variable (ok : TableOk order tb)

include ok

/-- A good stack is either resumed at the key or given up for a search from the
root, so it is enough to know the outcome of these two. -/
theorem findFrom_cases (cursor : CursorOk tb.root stack) {Result : DbTreeStack × Option Nat → Prop}
    (rebuilt : ∃ result, findFrom order tb { array := [], slot := 0 } key down step = some result ∧
      Result result)
    (resumed : ∀ (focus : Focus Obj) (slot : Nat), focus.root = tb.root →
      slot = 0 ∨ slot = focus.before.length + 1 → order.cmp key (order.entryKey focus.entry) = .eq →
      ∃ result, step tb.root focus.node { array := focus.stack, slot } = some result ∧
        Result result) :
    ∃ result, findFrom order tb stack key down step = some result ∧ Result result := by
  cases cursor with
  | empty => exact rebuilt
  | @on slot focus same recorded =>
    have reached : tb.root.deref focus.addr = some focus.node := by
      rw [← same]
      exact focus.deref_addr (same ▸ ok.distinct)
    by_cases equal : order.cmp key (order.getKey focus.dbterm) = .eq
    · have unfolded : findFrom order tb { array := focus.stack, slot } key down step =
          step tb.root focus.node { array := focus.stack, slot } := by
        simp [findFrom, Focus.stack, reached, Focus.node, equal]
      rw [unfolded]
      exact resumed focus slot same recorded equal
    · have unfolded : findFrom order tb { array := focus.stack, slot } key down step =
          findFrom order tb { array := [], slot := 0 } key down step := by
        simp [findFrom, Focus.stack, reached, Focus.node, equal]
      rw [unfolded]
      exact rebuilt

theorem findNext_result (cursor : CursorOk tb.root stack) (key : Key) :
    ∃ result, findNext order tb stack key = some result ∧ NextResult order key tb.root result := by
  apply findFrom_cases ok cursor
  · by_cases bare : tb.root = .null
    · refine ⟨({ array := [], slot := 0 }, none), by simp [findFrom, bare], ?_⟩
      exact .none .empty (by simp [bare])
    · have found := findNextDown_found order key tb.root [] bare ok.sorted
        ⟨by simp [framesBefore], by simp [framesAfter]⟩
      cases located : findNextDown order key tb.root [] with
      | mk array outcome =>
        rw [findFrom_empty bare located]
        rw [map_nil, located] at found
        cases found with
        | above focus same splits =>
          refine ⟨_, rfl, .found focus same (.on focus same (.inl rfl)) ?_ splits.below⟩
          intro entry member
          simp [splits.above entry member]
        | upto focus same low high => exact nextFrom_result ok same (.inl rfl) low high
  · intro focus slot same recorded equal
    have splits := ok.splits_at same equal
    refine nextFrom_result ok same recorded ?_ splits.below
    intro entry member
    rcases mem_append.mp member with member | here
    · simp [splits.above entry member]
    · rw [mem_singleton.mp here]
      simp [equal]

theorem findPrev_result (cursor : CursorOk tb.root stack) (key : Key) :
    ∃ result, findPrev order tb stack key = some result ∧ PrevResult order key tb.root result := by
  apply findFrom_cases ok cursor
  · by_cases bare : tb.root = .null
    · refine ⟨({ array := [], slot := 0 }, none), by simp [findFrom, bare], ?_⟩
      exact .none .empty (by simp [bare])
    · have found := findPrevDown_found order key tb.root [] bare ok.sorted
        ⟨by simp [framesBefore], by simp [framesAfter]⟩
      cases located : findPrevDown order key tb.root [] with
      | mk array outcome =>
        rw [findFrom_empty bare located]
        rw [map_nil, located] at found
        cases found with
        | below focus same splits =>
          refine ⟨_, rfl, .found focus same (.on focus same (.inl rfl)) splits.above ?_⟩
          intro entry member
          simp [splits.below entry member]
        | downto focus same low high => exact prevFrom_result ok same (.inl rfl) low high
  · intro focus slot same recorded equal
    have splits := ok.splits_at same equal
    refine prevFrom_result ok same recorded splits.above ?_
    intro entry member
    rcases mem_cons.mp member with here | member
    · rw [here]
      simp [equal]
    · simp [splits.below entry member]

/-- One turn of `slot_search` moves the cursor one entry towards the slot. -/
theorem slotTurn_moves (focus : Focus Obj) (same : focus.root = tb.root)
    (other : focus.before.length + 1 ≠ slot) (positive : 1 ≤ slot)
    (within : slot ≤ tb.root.entries.length) :
    ∃ next : Focus Obj, next.root = tb.root ∧
      slotTurn tb slot { array := focus.stack, slot := focus.before.length + 1 } =
        some { array := next.stack, slot := next.before.length + 1 } ∧
      slotDistance slot (focus.before.length + 1) =
        slotDistance slot (next.before.length + 1) + 1 := by
  have reached : tb.root.deref focus.addr = some focus.node := by
    rw [← same]
    exact focus.deref_addr (same ▸ ok.distinct)
  have small := ok.rank_lt same
  have length := congrArg length focus.root_entries
  rw [same, length_append, length_cons] at length
  have turn : slotTurn tb slot { array := focus.stack, slot := focus.before.length + 1 } =
      if slot > focus.before.length + 1 then
        (successor (fun this tmp => this.leftPtr = some tmp) tb.root focus.right focus.stack).bind
          fun array => some { array, slot := uintInc (focus.before.length + 1) }
      else
        (predecessor (fun this tmp => this.rightPtr = some tmp) tb.root focus.left
          focus.stack).bind fun array =>
            some { array, slot := uintDec (focus.before.length + 1) } := by
    simp only [slotTurn, Focus.stack, reached, Focus.node]
    split
    · cases focus.right <;> rfl
    · cases focus.left <;> rfl
  rw [turn]
  by_cases upward : slot > focus.before.length + 1
  · obtain ⟨array, success, forward⟩ := successor_forward stops_slot_up focus (same ▸ ok.distinct)
    rw [same] at success
    cases forward with
    | done last =>
      rw [last, length_nil] at length
      omega
    | moved next root passed =>
      have rank : next.before.length = focus.before.length + 1 := by simp [passed]
      refine ⟨next, root.trans same, ?_, ?_⟩
      · have counted : uintInc (focus.before.length + 1) = next.before.length + 1 := by
          simp only [uintInc]
          omega
        rw [if_pos upward, success, Option.bind_some, counted]
      · simp only [slotDistance]
        omega
  · obtain ⟨array, success, backward⟩ :=
      predecessor_backward stops_slot_down focus (same ▸ ok.distinct)
    rw [same] at success
    cases backward with
    | done first =>
      rw [first, length_nil] at other upward
      omega
    | moved next root passed =>
      have rank : focus.before.length = next.before.length + 1 := by
        simp [Focus.cut_before root passed]
      refine ⟨next, root.trans same, ?_, ?_⟩
      · have counted : uintDec (focus.before.length + 1) = next.before.length + 1 := by
          simp only [uintDec]
          omega
        rw [if_neg upward, success, Option.bind_some, counted]
      · simp only [slotDistance]
        omega

theorem slotLoop_reaches (turns : Nat) (focus : Focus Obj) (same : focus.root = tb.root)
    (positive : 1 ≤ slot) (within : slot ≤ tb.root.entries.length)
    (enough : slotDistance slot (focus.before.length + 1) = turns) :
    ∃ final : Focus Obj, final.root = tb.root ∧ final.before.length + 1 = slot ∧
      slotLoop tb slot turns { array := focus.stack, slot := focus.before.length + 1 } =
        some { array := final.stack, slot } := by
  induction turns generalizing focus with
  | zero =>
    have here : focus.before.length + 1 = slot := by
      simp only [slotDistance] at enough
      omega
    exact ⟨focus, same, here, by rw [slotLoop, here]⟩
  | succ turns ih =>
    have other : focus.before.length + 1 ≠ slot := by
      simp only [slotDistance] at enough
      omega
    obtain ⟨next, root, moved, closer⟩ := slotTurn_moves ok focus same other positive within
    obtain ⟨final, finalRoot, rank, rest⟩ := ih next root (by omega)
    refine ⟨final, finalRoot, rank, ?_⟩
    have turning : focus.before.length + 1 ≠ slot ∧ focus.stack ≠ [] :=
      ⟨other, by simp [Focus.stack]⟩
    rw [slotLoop, if_pos turning, moved]
    exact rest

theorem slotSearch_reaches (cursor : CursorOk tb.root stack) (positive : 1 ≤ slot)
    (within : slot ≤ tb.root.entries.length) :
    ∃ final : Focus Obj, final.root = tb.root ∧ final.before.length + 1 = slot ∧
      slotSearch tb slot stack = some { array := final.stack, slot } := by
  -- an unrecorded position, or a search for the first slot, restarts at the first node
  have restarted : ∃ final : Focus Obj, final.root = tb.root ∧ final.before.length + 1 = slot ∧
      slotSearch tb slot { array := [], slot := 0 } = some { array := final.stack, slot } := by
    have bare : tb.root ≠ .null := by
      intro empty
      simp only [empty, entries_null, length_nil] at within
      omega
    obtain ⟨first, root, stack, before⟩ := pushLeft_focus tb.root [] bare
    have rank : first.before.length = 0 := by simp [before, framesBefore]
    obtain ⟨final, finalRoot, finalRank, success⟩ :=
      slotLoop_reaches ok (slotDistance slot 1) first root positive within (by rw [rank])
    refine ⟨final, finalRoot, finalRank, ?_⟩
    rw [rank, stack] at success
    cases shape : tb.root with
    | null => exact absurd shape bare
    | node addr left right balance dbterm => simpa [slotSearch] using success
  cases cursor with
  | empty => exact restarted
  | @on recorded focus same known =>
    by_cases restart : recorded = 0 ∨ slot = 1
    · have cleared : slotSearch tb slot { array := focus.stack, slot := recorded } =
          slotSearch tb slot { array := [], slot := 0 } := by
        rcases restart with zero | first
        · simp [slotSearch, zero]
        · simp [slotSearch, first]
      rw [cleared]
      exact restarted
    · obtain ⟨unset, notFirst⟩ := not_or.mp restart
      have rank := known.resolve_left unset
      obtain ⟨final, finalRoot, finalRank, success⟩ :=
        slotLoop_reaches ok (slotDistance slot recorded) focus same positive within (by rw [rank])
      refine ⟨final, finalRoot, finalRank, ?_⟩
      rw [← rank] at success
      simpa [slotSearch, notFirst, unset, Focus.stack] using success

end

end Otp.Ets
