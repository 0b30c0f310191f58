import Otp.Ets.TreeRefinement
import Otp.Ets.TreeStack

/-! The cached stack as a cursor on the entries in key order. A focus is a node
of the tree with the frames above it; moving the stack to a successor or a
predecessor moves the cursor by one entry. -/

namespace Otp.Ets

open List
open Otp.Library TreeDbTerm

/-- Fill the hole of a frame list. -/
def plug : TreeDbTerm Obj → List (Frame Obj) → TreeDbTerm Obj
  | tree, [] => tree
  | tree, frame :: frames => plug (frame.attach tree) frames

theorem plug_entries {frames : List (Frame Obj)} :
    (plug tree frames).entries = framesBefore frames ++ tree.entries ++ framesAfter frames := by
  induction frames generalizing tree with
  | nil => simp [plug, framesBefore, framesAfter]
  | cons frame frames ih => rw [plug, ih, attach_entries]

/-- A node of a tree, with the path that leads to it. -/
structure Focus (Obj : Type) where
  addr : Nat
  left : TreeDbTerm Obj
  right : TreeDbTerm Obj
  balance : Int
  dbterm : Obj
  frames : List (Frame Obj)

namespace Focus

section

variable (focus : Focus Obj)

def node : TreeDbTerm Obj :=
  .node focus.addr focus.left focus.right focus.balance focus.dbterm

def root : TreeDbTerm Obj := plug focus.node focus.frames

/-- The addresses from the node up to the root. -/
def stack : List Nat := focus.addr :: focus.frames.map Frame.addr

def entry : Nat × Obj := (focus.addr, focus.dbterm)

def before : List (Nat × Obj) := framesBefore focus.frames ++ focus.left.entries

def after : List (Nat × Obj) := focus.right.entries ++ framesAfter focus.frames

theorem root_entries : focus.root.entries = focus.before ++ focus.entry :: focus.after := by
  simp [root, plug_entries, node, before, after, entry]

/-- The focus one level up, at the node of the innermost frame. -/
def parent (frame : Frame Obj) (frames : List (Frame Obj)) : Focus Obj :=
  match frame.dir with
  | .left => ⟨frame.addr, focus.node, frame.sibling, frame.balance, frame.dbterm, frames⟩
  | .right => ⟨frame.addr, frame.sibling, focus.node, frame.balance, frame.dbterm, frames⟩

theorem parent_node (frame : Frame Obj) (frames : List (Frame Obj)) :
    (focus.parent frame frames).node = frame.attach focus.node := by
  unfold parent Frame.attach
  cases frame.dir <;> rfl

theorem parent_frames (frame : Frame Obj) (frames : List (Frame Obj)) :
    (focus.parent frame frames).frames = frames := by
  unfold parent
  cases frame.dir <;> rfl

theorem parent_addr (frame : Frame Obj) (frames : List (Frame Obj)) :
    (focus.parent frame frames).addr = frame.addr := by
  unfold parent
  cases frame.dir <;> rfl

end

theorem parent_root {focus : Focus Obj} {frames : List (Frame Obj)}
    (above : focus.frames = frame :: frames) : (focus.parent frame frames).root = focus.root := by
  rw [root, parent_node, parent_frames, root, above, plug]

theorem parent_stack {focus : Focus Obj} {frames : List (Frame Obj)}
    (above : focus.frames = frame :: frames) :
    focus.stack = focus.addr :: (focus.parent frame frames).stack := by
  simp [stack, above, parent_addr, parent_frames]

end Focus

section

variable (tree : TreeDbTerm Obj)

def TreeDbTerm.addrs : List Nat := tree.entries.map Prod.fst

theorem deref_none {tree : TreeDbTerm Obj} (absent : target ∉ tree.addrs) :
    tree.deref target = none := by
  induction tree with
  | null => rfl
  | node addr left right balance dbterm ihLeft ihRight =>
    simp only [addrs, entries_node, map_append, map_cons, mem_append, mem_cons, not_or] at absent
    obtain ⟨notLeft, notHere, notRight⟩ := absent
    simp [deref, Ne.symm notHere, ihLeft notLeft, ihRight notRight]

theorem deref_mem {tree : TreeDbTerm Obj} (found : tree.deref target = some result) :
    target ∈ tree.addrs := by
  by_contra absent
  simp [deref_none absent] at found

/-- An address below a frame is neither that of the frame nor beside it. -/
theorem attach_apart {frame : Frame Obj} {child : TreeDbTerm Obj}
    (distinct : (frame.attach child).addrs.Nodup) (present : target ∈ child.addrs) :
    frame.addr ≠ target ∧ target ∉ frame.sibling.addrs := by
  obtain ⟨dir, addr, sibling, balance, dbterm⟩ := frame
  cases dir with
  | left =>
    simp only [Frame.attach, addrs, entries_node, map_append] at distinct
    have apart := (nodup_append.mp distinct).2.2 _ present
    exact ⟨fun same => apart _ mem_cons_self same.symm,
      fun member => apart _ (mem_cons_of_mem _ member) rfl⟩
  | right =>
    simp only [Frame.attach, addrs, entries_node, map_append] at distinct
    obtain ⟨_, distinctRight, apart⟩ := nodup_append.mp distinct
    refine ⟨fun same => ?_, fun member => apart _ member _ (mem_cons_of_mem _ present) rfl⟩
    exact (nodup_cons.mp distinctRight).1 (by rwa [← same] at present)

theorem deref_attach (frame : Frame Obj) (child : TreeDbTerm Obj)
    (distinct : (frame.attach child).addrs.Nodup) (found : child.deref target = some result) :
    (frame.attach child).deref target = some result := by
  obtain ⟨other, absent⟩ := attach_apart distinct (deref_mem found)
  obtain ⟨dir, addr, sibling, balance, dbterm⟩ := frame
  cases dir with
  | left => simp [Frame.attach, deref, other, found]
  | right => simp [Frame.attach, deref, other, deref_none absent, found]

theorem plug_addrs_nodup (frame : Frame Obj) (child : TreeDbTerm Obj) (frames : List (Frame Obj))
    (distinct : (plug (frame.attach child) frames).addrs.Nodup) :
    (frame.attach child).addrs.Nodup := by
  rw [addrs, plug_entries, map_append, map_append] at distinct
  exact (nodup_append.mp (nodup_append.mp distinct).1).2.1

theorem deref_plug (frames : List (Frame Obj)) (distinct : (plug tree frames).addrs.Nodup)
    (found : tree.deref target = some result) : (plug tree frames).deref target = some result := by
  induction frames generalizing tree with
  | nil => exact found
  | cons frame frames ih =>
    exact ih _ distinct (deref_attach frame tree
      (plug_addrs_nodup frame tree frames distinct) found)

/-- The top of the stack of a focus leads to its node. -/
theorem Focus.deref_addr (focus : Focus Obj) (distinct : focus.root.addrs.Nodup) :
    focus.root.deref focus.addr = some focus.node :=
  deref_plug focus.node focus.frames distinct (by simp [Focus.node, deref])

/-- Pushing a subtree and its left spine puts the cursor on its first entry. -/
theorem pushLeft_focus (frames : List (Frame Obj)) (nonempty : tree ≠ .null) :
    ∃ focus : Focus Obj, focus.root = plug tree frames ∧
      focus.stack = pushLeft tree (frames.map Frame.addr) ∧ focus.before = framesBefore frames := by
  induction tree generalizing frames with
  | null => exact absurd rfl nonempty
  | node addr left right balance dbterm ih _ =>
    by_cases bare : left = .null
    · subst left
      exact ⟨⟨addr, .null, right, balance, dbterm, frames⟩, rfl, rfl, by simp [Focus.before]⟩
    · obtain ⟨focus, same, stack, before⟩ :=
        ih (⟨.left, addr, right, balance, dbterm⟩ :: frames) bare
      exact ⟨focus, same, stack, by simpa [framesBefore] using before⟩

theorem pushRight_focus (frames : List (Frame Obj)) (nonempty : tree ≠ .null) :
    ∃ focus : Focus Obj, focus.root = plug tree frames ∧
      focus.stack = pushRight tree (frames.map Frame.addr) ∧ focus.after = framesAfter frames := by
  induction tree generalizing frames with
  | null => exact absurd rfl nonempty
  | node addr left right balance dbterm _ ih =>
    by_cases bare : right = .null
    · subst right
      exact ⟨⟨addr, left, .null, balance, dbterm, frames⟩, rfl, rfl, by simp [Focus.after]⟩
    · obtain ⟨focus, same, stack, after⟩ :=
        ih (⟨.right, addr, left, balance, dbterm⟩ :: frames) bare
      exact ⟨focus, same, stack, by simpa [framesAfter] using after⟩

end

/-- What the pop loops find above a focus: the nearest ancestor on the other
side, or an empty stack when there is none. -/
def Ascends (focus : Focus Obj) (side : Dir) (array : List Nat) : Prop :=
  match side with
  | .left => (framesAfter focus.frames = [] ∧ array = []) ∨
      ∃ up : Focus Obj, up.root = focus.root ∧ up.stack = array ∧
        up.before = framesBefore focus.frames ++ focus.node.entries
  | .right => (framesBefore focus.frames = [] ∧ array = []) ∨
      ∃ up : Focus Obj, up.root = focus.root ∧ up.stack = array ∧
        up.after = focus.node.entries ++ framesAfter focus.frames

/-- The children of one node are told apart by address. -/
theorem attach_ptrs {focus : Focus Obj} {frame : Frame Obj}
    (distinct : (frame.attach focus.node).addrs.Nodup) : ((frame.attach focus.node).leftPtr =
      some focus.addr ↔ frame.dir = .left) ∧
      ((frame.attach focus.node).rightPtr = some focus.addr ↔ frame.dir = .right) := by
  have notSibling : frame.sibling.ptr ≠ some focus.addr := by
    intro same
    obtain ⟨dir, addr, sibling, balance, dbterm⟩ := frame
    cases sibling with
    | null => simp [ptr] at same
    | node siblingAddr left right siblingBalance siblingTerm =>
      simp only [ptr, Option.some.injEq] at same
      subst same
      cases dir <;> simp [Frame.attach, Focus.node, addrs, nodup_append] at distinct
  obtain ⟨dir, addr, sibling, balance, dbterm⟩ := frame
  cases dir
  · exact ⟨⟨fun _ => rfl, fun _ => rfl⟩, ⟨fun same => absurd same notSibling, by simp⟩⟩
  · exact ⟨⟨fun same => absurd same notSibling, by simp⟩, ⟨fun _ => rfl, fun _ => rfl⟩⟩

/-- At a turn to `side` the parent is what the loops look for. -/
theorem Focus.ascends_parent (focus : Focus Obj) (frame : Frame Obj) (frames : List (Frame Obj))
    (above : focus.frames = frame :: frames) :
    Ascends focus frame.dir (focus.parent frame frames).stack := by
  have same := Focus.parent_root above
  obtain ⟨dir, addr, sibling, balance, dbterm⟩ := frame
  cases dir with
  | left =>
    refine .inr ⟨_, same, rfl, ?_⟩
    simp [Focus.before, Focus.parent, above, framesBefore]
  | right =>
    refine .inr ⟨_, same, rfl, ?_⟩
    simp [Focus.after, Focus.parent, above, framesAfter]

/-- At a turn to the other side the search goes on from the parent. -/
theorem Focus.ascends_of_parent (focus : Focus Obj) (frame : Frame Obj)
    (frames : List (Frame Obj)) (above : focus.frames = frame :: frames) (other : frame.dir ≠ side)
    (ascends : Ascends (focus.parent frame frames) side array) : Ascends focus side array := by
  have same := Focus.parent_root above
  have entries := attach_entries frame focus.node frames
  rw [← above] at entries
  obtain ⟨dir, addr, sibling, balance, dbterm⟩ := frame
  unfold Ascends at ascends ⊢
  rw [focus.parent_frames, focus.parent_node, same] at ascends
  cases side with
  | left =>
    cases dir with
    | left => exact absurd rfl other
    | right =>
      have unchanged : framesAfter focus.frames = framesAfter frames := by simp [above, framesAfter]
      rw [unchanged] at entries ⊢
      rwa [append_cancel_right entries] at ascends
  | right =>
    cases dir with
    | right => exact absurd rfl other
    | left =>
      have unchanged : framesBefore focus.frames = framesBefore frames := by
        simp [above, framesBefore]
      rw [unchanged, append_assoc, append_assoc] at entries
      rw [unchanged]
      rwa [append_cancel_left entries] at ascends

/-- A pop loop with this test stops where the path turned to `side`. -/
def StopsAt (stop : TreeDbTerm Obj → Nat → Bool) (side : Dir) : Prop :=
  ∀ (focus : Focus Obj) (frame : Frame Obj), (frame.attach focus.node).addrs.Nodup →
    (stop (frame.attach focus.node) focus.addr = true ↔ frame.dir = side)

variable {stop : TreeDbTerm Obj → Nat → Bool}

theorem popLoop_ascends (stops : StopsAt stop side) (focus : Focus Obj)
    (distinct : focus.root.addrs.Nodup) :
    ∃ array, popLoop focus.root stop focus.stack = some array ∧ Ascends focus side array := by
  generalize above : focus.frames = frames
  induction frames generalizing focus with
  | nil =>
    refine ⟨[], by simp [Focus.stack, above, popLoop], ?_⟩
    cases side <;> exact .inl ⟨by simp [above, framesAfter, framesBefore], rfl⟩
  | cons frame frames ih =>
    have same : (focus.parent frame frames).root = focus.root := Focus.parent_root above
    have level : (frame.attach focus.node).addrs.Nodup := by
      apply plug_addrs_nodup frame focus.node frames
      simpa [Focus.root, above, plug] using distinct
    have reached : focus.root.deref frame.addr = some (frame.attach focus.node) := by
      rw [← same, ← focus.parent_addr frame frames, ← focus.parent_node frame frames]
      exact (focus.parent frame frames).deref_addr (by rwa [same])
    have turn : popLoop focus.root stop focus.stack =
        if stop (frame.attach focus.node) focus.addr then some (focus.parent frame frames).stack
        else popLoop focus.root stop (focus.parent frame frames).stack := by
      rw [Focus.parent_stack above]
      simp only [Focus.stack, focus.parent_addr, popLoop, reached]
      rfl
    by_cases here : frame.dir = side
    · refine ⟨_, by rw [turn, if_pos ((stops focus frame level).mpr here)], ?_⟩
      exact here ▸ focus.ascends_parent frame frames above
    · obtain ⟨array, success, ascends⟩ := ih (focus.parent frame frames) (by rwa [same])
        (focus.parent_frames frame frames)
      refine ⟨array, ?_, focus.ascends_of_parent frame frames above here ascends⟩
      rw [turn, if_neg (fun stopped => here ((stops focus frame level).mp stopped)),
        ← same, success]

/-- The stack one entry further: into the right subtree, or up to the nearest
left turn. `none` for a dangling read, an empty list at the end of the table. -/
def successor (stop : TreeDbTerm Obj → Nat → Bool) (root right : TreeDbTerm Obj)
    (stack : List Nat) : Option (List Nat) :=
  match right with
  | .null => popLoop root stop stack
  | right => some (pushLeft right stack)

def predecessor (stop : TreeDbTerm Obj → Nat → Bool) (root left : TreeDbTerm Obj)
    (stack : List Nat) : Option (List Nat) :=
  match left with
  | .null => popLoop root stop stack
  | left => some (pushRight left stack)

/-- Where the cursor is after a move forward. -/
inductive Forward (focus : Focus Obj) : List Nat → Prop where
  | done (last : focus.after = []) : Forward focus []
  | moved (next : Focus Obj) (same : next.root = focus.root)
      (passed : next.before = focus.before ++ [focus.entry]) : Forward focus next.stack

inductive Backward (focus : Focus Obj) : List Nat → Prop where
  | done (first : focus.before = []) : Backward focus []
  | moved (next : Focus Obj) (same : next.root = focus.root)
      (passed : next.after = focus.entry :: focus.after) : Backward focus next.stack

theorem successor_forward (stops : StopsAt stop .left) (focus : Focus Obj)
    (distinct : focus.root.addrs.Nodup) :
    ∃ array, successor stop focus.root focus.right focus.stack = some array ∧
    Forward focus array := by
  by_cases bare : focus.right = .null
  · obtain ⟨array, popped, ascends⟩ := popLoop_ascends stops focus distinct
    refine ⟨array, by simp [successor, bare, popped], ?_⟩
    rcases ascends with ⟨last, empty⟩ | ⟨up, same, stack, before⟩
    · subst array
      exact .done (by simp [Focus.after, bare, last])
    · subst array
      apply Forward.moved up same
      rw [before]
      simp [Focus.before, Focus.node, Focus.entry, bare]
  · let frame : Frame Obj := ⟨.right, focus.addr, focus.left, focus.balance, focus.dbterm⟩
    obtain ⟨next, same, stack, before⟩ := pushLeft_focus focus.right (frame :: focus.frames) bare
    refine ⟨next.stack, ?_, .moved next same ?_⟩
    · cases shape : focus.right with
      | null => exact absurd shape bare
      | node addr left right balance dbterm =>
        simp only [stack, shape]
        rfl
    · rw [before]
      simp [framesBefore, frame, Focus.before, Focus.entry]

theorem predecessor_backward (stops : StopsAt stop .right) (focus : Focus Obj)
    (distinct : focus.root.addrs.Nodup) :
    ∃ array, predecessor stop focus.root focus.left focus.stack = some array ∧
    Backward focus array := by
  by_cases bare : focus.left = .null
  · obtain ⟨array, popped, ascends⟩ := popLoop_ascends stops focus distinct
    refine ⟨array, by simp [predecessor, bare, popped], ?_⟩
    rcases ascends with ⟨first, empty⟩ | ⟨up, same, stack, after⟩
    · subst array
      exact .done (by simp [Focus.before, bare, first])
    · subst array
      apply Backward.moved up same
      rw [after]
      simp [Focus.after, Focus.node, Focus.entry, bare]
  · let frame : Frame Obj := ⟨.left, focus.addr, focus.right, focus.balance, focus.dbterm⟩
    obtain ⟨next, same, stack, after⟩ := pushRight_focus focus.left (frame :: focus.frames) bare
    refine ⟨next.stack, ?_, .moved next same ?_⟩
    · cases shape : focus.left with
      | null => exact absurd shape bare
      | node addr left right balance dbterm =>
        simp only [stack, shape]
        rfl
    · rw [after]
      simp [framesAfter, frame, Focus.after, Focus.entry]

/-- The comparisons made by `find_next` and `slot_search` recognise the same turns. -/
theorem stops_next : StopsAt (fun (this : TreeDbTerm Obj) tmp => this.rightPtr ≠
    some tmp) .left := by
  intro focus frame distinct
  rw [decide_eq_true_iff, Ne, (attach_ptrs distinct).2]
  cases frame.dir <;> simp

theorem stops_prev : StopsAt (fun (this : TreeDbTerm Obj) tmp => this.leftPtr ≠
    some tmp) .right := by
  intro focus frame distinct
  rw [decide_eq_true_iff, Ne, (attach_ptrs distinct).1]
  cases frame.dir <;> simp

theorem stops_slot_up : StopsAt (fun (this : TreeDbTerm Obj) tmp => this.leftPtr =
    some tmp) .left := by
  intro focus frame distinct
  rw [decide_eq_true_iff, (attach_ptrs distinct).1]

theorem stops_slot_down :
    StopsAt (fun (this : TreeDbTerm Obj) tmp => this.rightPtr = some tmp) .right := by
  intro focus frame distinct
  rw [decide_eq_true_iff, (attach_ptrs distinct).2]

/-- A stack with a slot; after a move off the table both are cleared. -/
def movedStack (change : Nat → Nat) (slot : Nat) : List Nat → DbTreeStack × Option Nat
  | [] => ({ array := [], slot := 0 }, none)
  | this :: rest => ({ array := this :: rest, slot := bumpSlot change slot }, some this)

theorem nextFrom_forward {focus : Focus Obj} (distinct : focus.root.addrs.Nodup) :
    ∃ array, nextFrom focus.root focus.node { array := focus.stack, slot } =
        some (movedStack uintInc slot array) ∧ Forward focus array := by
  obtain ⟨array, success, forward⟩ := successor_forward stops_next focus distinct
  refine ⟨array, ?_, forward⟩
  cases shape : focus.right with
  | null =>
    rw [shape] at success
    simp only [successor] at success
    simp only [nextFrom, Focus.node, shape, success]
    cases array <;> rfl
  | node addr left right balance dbterm =>
    rw [shape] at success
    simp only [successor, Option.some.injEq] at success
    cases forward with
    | done last => simp [Focus.after, shape] at last
    | moved next same passed =>
      simp only [nextFrom, Focus.node, shape, success]
      rfl

theorem prevFrom_backward {focus : Focus Obj} (distinct : focus.root.addrs.Nodup) :
    ∃ array, prevFrom focus.root focus.node { array := focus.stack, slot } =
        some (movedStack uintDec slot array) ∧ Backward focus array := by
  obtain ⟨array, success, backward⟩ := predecessor_backward stops_prev focus distinct
  refine ⟨array, ?_, backward⟩
  cases shape : focus.left with
  | null =>
    rw [shape] at success
    simp only [predecessor] at success
    simp only [prevFrom, Focus.node, shape, success]
    cases array <;> rfl
  | node addr left right balance dbterm =>
    rw [shape] at success
    simp only [predecessor, Option.some.injEq] at success
    cases backward with
    | done first => simp [Focus.before, shape] at first
    | moved next same passed =>
      simp only [prevFrom, Focus.node, shape, success]
      rfl

/-- Where the search of `find_next` leaves the cursor: on the first entry above
the key, or on an entry with everything above the key right after it. -/
inductive FoundNext (order : KeyOrder Key Obj) (key : Key) (root : TreeDbTerm Obj) :
    List Nat × Option (TreeDbTerm Obj) → Prop where
  | above (focus : Focus Obj) (same : focus.root = root)
      (splits : Splits order.cmp order.entryKey key focus.before (focus.entry :: focus.after)) :
      FoundNext order key root (focus.stack, none)
  | upto (focus : Focus Obj) (same : focus.root = root)
      (low : ∀ entry ∈ focus.before ++ [focus.entry], order.cmp key (order.entryKey entry) ≠ .lt)
      (high : ∀ entry ∈ focus.after, order.cmp key (order.entryKey entry) = .lt) :
      FoundNext order key root (focus.stack, some focus.node)

inductive FoundPrev (order : KeyOrder Key Obj) (key : Key) (root : TreeDbTerm Obj) :
    List Nat × Option (TreeDbTerm Obj) → Prop where
  | below (focus : Focus Obj) (same : focus.root = root)
      (splits : Splits order.cmp order.entryKey key (focus.before ++ [focus.entry]) focus.after) :
      FoundPrev order key root (focus.stack, none)
  | downto (focus : Focus Obj) (same : focus.root = root)
      (low : ∀ entry ∈ focus.before, order.cmp key (order.entryKey entry) = .gt)
      (high : ∀ entry ∈ focus.entry :: focus.after, order.cmp key (order.entryKey entry) ≠ .gt) :
      FoundPrev order key root (focus.stack, some focus.node)

section

variable (order : KeyOrder Key Obj)

/-- Descending past a node keeps the key between what lies before and after. -/
theorem splits_left (focus : Focus Obj)
    (sorted : Sorted order.cmp order.entryKey focus.root.entries)
    (splits : Splits order.cmp order.entryKey key (framesBefore focus.frames)
      (framesAfter focus.frames))
    (less : order.cmp key (order.entryKey focus.entry) = .lt) :
    Splits order.cmp order.entryKey key (framesBefore focus.frames)
      (focus.entry :: focus.after) := by
  have trans := order.trans
  rw [focus.root_entries] at sorted
  refine ⟨splits.above, ?_⟩
  intro item member
  rcases mem_cons.mp member with same | member
  · exact same ▸ less
  · exact Std.TransCmp.lt_trans less ((sorted_splits sorted).below item member)

theorem splits_right (focus : Focus Obj)
    (sorted : Sorted order.cmp order.entryKey focus.root.entries)
    (splits : Splits order.cmp order.entryKey key (framesBefore focus.frames)
      (framesAfter focus.frames))
    (greater : order.cmp key (order.entryKey focus.entry) = .gt) :
    Splits order.cmp order.entryKey key (focus.before ++ [focus.entry])
      (framesAfter focus.frames) := by
  have trans := order.trans
  rw [focus.root_entries] at sorted
  refine ⟨?_, splits.below⟩
  intro item member
  rcases mem_append.mp member with member | same
  · exact Std.TransCmp.gt_trans greater ((sorted_splits sorted).above item member)
  · exact mem_singleton.mp same ▸ greater

theorem findNextDown_found (key : Key) (tree : TreeDbTerm Obj) (frames : List (Frame Obj))
    (nonempty : tree ≠ .null) (sorted : Sorted order.cmp order.entryKey (plug tree frames).entries)
    (splits : Splits order.cmp order.entryKey key (framesBefore frames) (framesAfter frames)) :
    FoundNext order key (plug tree frames)
      (findNextDown order key tree (frames.map Frame.addr)) := by
  have trans := order.trans
  induction tree generalizing frames with
  | null => exact absurd rfl nonempty
  | node addr left right balance dbterm ihLeft ihRight =>
    let focus : Focus Obj := ⟨addr, left, right, balance, dbterm, frames⟩
    unfold findNextDown
    cases compared : order.cmp key (order.getKey dbterm) with
    | gt =>
      have narrowed := splits_right order focus sorted splits compared
      cases right with
      | null =>
        refine .upto focus rfl ?_ ?_
        · intro entry member
          simp [narrowed.above entry member]
        · simpa [Focus.after, focus] using narrowed.below
      | node addr1 left1 right1 balance1 dbterm1 =>
        apply ihRight (⟨.right, addr, left, balance, dbterm⟩ :: frames) (by simp) sorted
        simpa [framesBefore, framesAfter, Focus.before, Focus.entry] using narrowed
    | lt =>
      have narrowed := splits_left order focus sorted splits compared
      cases left with
      | null => exact .above focus rfl (by simpa [Focus.before, focus] using narrowed)
      | node addr1 left1 right1 balance1 dbterm1 =>
        apply ihLeft (⟨.left, addr, right, balance, dbterm⟩ :: frames) (by simp) sorted
        simpa [framesBefore, framesAfter, Focus.after, Focus.entry] using narrowed
    | eq =>
      have around := sorted
      rw [show plug (.node addr left right balance dbterm) frames = focus.root from rfl,
        focus.root_entries] at around
      have position := (sorted_splits around).congr compared
      refine .upto focus rfl ?_ position.below
      intro entry member
      rcases mem_append.mp member with member | same
      · simp [position.above entry member]
      · rw [mem_singleton.mp same]
        simp [Focus.entry, KeyOrder.entryKey, focus, compared]

theorem findPrevDown_found (key : Key) (tree : TreeDbTerm Obj) (frames : List (Frame Obj))
    (nonempty : tree ≠ .null) (sorted : Sorted order.cmp order.entryKey (plug tree frames).entries)
    (splits : Splits order.cmp order.entryKey key (framesBefore frames) (framesAfter frames)) :
    FoundPrev order key (plug tree frames)
      (findPrevDown order key tree (frames.map Frame.addr)) := by
  have trans := order.trans
  induction tree generalizing frames with
  | null => exact absurd rfl nonempty
  | node addr left right balance dbterm ihLeft ihRight =>
    let focus : Focus Obj := ⟨addr, left, right, balance, dbterm, frames⟩
    unfold findPrevDown
    cases compared : order.cmp key (order.getKey dbterm) with
    | lt =>
      have narrowed := splits_left order focus sorted splits compared
      cases left with
      | null =>
        refine .downto focus rfl ?_ ?_
        · simpa [Focus.before, focus] using narrowed.above
        · intro entry member
          simp [narrowed.below entry member]
      | node addr1 left1 right1 balance1 dbterm1 =>
        apply ihLeft (⟨.left, addr, right, balance, dbterm⟩ :: frames) (by simp) sorted
        simpa [framesBefore, framesAfter, Focus.after, Focus.entry] using narrowed
    | gt =>
      have narrowed := splits_right order focus sorted splits compared
      cases right with
      | null => exact .below focus rfl (by simpa [Focus.after, focus] using narrowed)
      | node addr1 left1 right1 balance1 dbterm1 =>
        apply ihRight (⟨.right, addr, left, balance, dbterm⟩ :: frames) (by simp) sorted
        simpa [framesBefore, framesAfter, Focus.before, Focus.entry] using narrowed
    | eq =>
      have around := sorted
      rw [show plug (.node addr left right balance dbterm) frames = focus.root from rfl,
        focus.root_entries] at around
      have position := (sorted_splits around).congr compared
      refine .downto focus rfl position.above ?_
      intro entry member
      rcases mem_cons.mp member with same | member
      · rw [same]
        simp [Focus.entry, KeyOrder.entryKey, focus, compared]
      · simp [position.below entry member]

end

end Otp.Ets
