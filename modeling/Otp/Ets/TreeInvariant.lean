import Mathlib.Tactic
import Otp.Library.SortedList
import Otp.Ets.Tree

/-! Balance and order of the tree, through both rebalancing loops. A frame list
is well formed for a height when every stacked node was balanced with a child
of that height in its hole. -/

namespace Otp.Ets

open Otp.Library

def KeyOrder.entryKey (order : KeyOrder Key Obj) (entry : Nat × Obj) : Key :=
  order.getKey entry.2

namespace TreeDbTerm

/-- The nodes in key order, each with its address. -/
def entries : TreeDbTerm Obj → List (Nat × Obj)
  | .null => []
  | .node addr left right _ dbterm => left.entries ++ (addr, dbterm) :: right.entries

def height : TreeDbTerm Obj → Nat
  | .null => 0
  | .node _ left right _ _ => max left.height right.height + 1

/-- The balance field of the root, `0` for an empty tree. -/
def rootBalance : TreeDbTerm Obj → Int
  | .null => 0
  | .node _ _ _ balance _ => balance

/-- Every balance field is the height difference, and no difference exceeds one. -/
def Balanced : TreeDbTerm Obj → Prop
  | .null => True
  | .node _ left right balance _ => left.Balanced ∧ right.Balanced ∧
      balance = (right.height : Int) - left.height ∧ balance ∈ ({-1, 0, 1} : Set Int)

@[simp] theorem entries_null : (null : TreeDbTerm Obj).entries = [] := rfl

@[simp] theorem entries_node : (node addr left right balance dbterm : TreeDbTerm Obj).entries =
    left.entries ++ (addr, dbterm) :: right.entries := rfl

@[simp] theorem height_null : (null : TreeDbTerm Obj).height = 0 := rfl

@[simp] theorem height_node : (node addr left right balance dbterm : TreeDbTerm Obj).height =
    max left.height right.height + 1 := rfl

@[simp] theorem rootBalance_node :
    (node addr left right balance dbterm : TreeDbTerm Obj).rootBalance = balance := rfl

@[simp] theorem balanced_null : (null : TreeDbTerm Obj).Balanced := trivial

@[simp] theorem balanced_node : (node addr left right balance dbterm : TreeDbTerm Obj).Balanced ↔
    left.Balanced ∧ right.Balanced ∧ balance = (right.height : Int) - left.height ∧
      (balance = -1 ∨ balance = 0 ∨ balance = 1) := by
  simp [Balanced]

/-- Left and right exchanged. -/
def mirror : TreeDbTerm Obj → TreeDbTerm Obj
  | .null => .null
  | .node addr left right balance dbterm => .node addr right.mirror left.mirror (-balance) dbterm

@[simp] theorem mirror_height (tree : TreeDbTerm Obj) : tree.mirror.height = tree.height := by
  induction tree with
  | null => rfl
  | node addr left right balance dbterm ihLeft ihRight => simp [mirror, ihLeft, ihRight, max_comm]

@[simp] theorem mirror_mirror (tree : TreeDbTerm Obj) : tree.mirror.mirror = tree := by
  induction tree with
  | null => rfl
  | node addr left right balance dbterm ihLeft ihRight => simp [mirror, ihLeft, ihRight]

@[simp] theorem mirror_rootBalance (tree : TreeDbTerm Obj) :
    tree.mirror.rootBalance = -tree.rootBalance := by
  cases tree <;> rfl

theorem Balanced.mirror (balanced : tree.Balanced) : (tree : TreeDbTerm Obj).mirror.Balanced := by
  induction tree with
  | null => trivial
  | node addr left right balance dbterm ihLeft ihRight =>
    obtain ⟨leftBalanced, rightBalanced, difference, range⟩ := balanced_node.mp balanced
    refine balanced_node.mpr ⟨ihRight rightBalanced, ihLeft leftBalanced, ?_, by omega⟩
    rw [mirror_height, mirror_height]
    omega

end TreeDbTerm

open TreeDbTerm

/-- What the frames hold to the left of the hole. -/
def framesBefore : List (Frame Obj) → List (Nat × Obj)
  | [] => []
  | frame :: frames => framesBefore frames ++
    match frame.dir with
    | .left => []
    | .right => frame.sibling.entries ++ [(frame.addr, frame.dbterm)]

/-- What the frames hold to the right of the hole. -/
def framesAfter : List (Frame Obj) → List (Nat × Obj)
  | [] => []
  | frame :: frames =>
    (match frame.dir with
    | .left => (frame.addr, frame.dbterm) :: frame.sibling.entries
    | .right => []) ++ framesAfter frames

/-- Every stacked node is balanced when the hole has a subtree of height `hole`. -/
def FramesBalanced : Nat → List (Frame Obj) → Prop
  | _, [] => True
  | hole, frame :: frames => frame.sibling.Balanced ∧
      frame.balance = (match frame.dir with
        | .left => (frame.sibling.height : Int) - hole
        | .right => (hole : Int) - frame.sibling.height) ∧
      (frame.balance = -1 ∨ frame.balance = 0 ∨ frame.balance = 1) ∧
      FramesBalanced (max hole frame.sibling.height + 1) frames

theorem attach_balanced (frame : Frame Obj) (child : TreeDbTerm Obj) (balanced : child.Balanced)
    (wf : FramesBalanced child.height (frame :: frames)) : (frame.attach child).Balanced ∧
      (frame.attach child).height = max child.height frame.sibling.height + 1 := by
  obtain ⟨dir, addr, sibling, balance, dbterm⟩ := frame
  obtain ⟨siblingBalanced, difference, range, _⟩ := wf
  cases dir
  · exact ⟨balanced_node.mpr ⟨balanced, siblingBalanced, difference, range⟩, rfl⟩
  · refine ⟨balanced_node.mpr ⟨siblingBalanced, balanced, difference, range⟩, ?_⟩
    simp [Frame.attach, max_comm]

theorem attach_entries (frame : Frame Obj) (child : TreeDbTerm Obj) (frames : List (Frame Obj)) :
    framesBefore frames ++ (frame.attach child).entries ++ framesAfter frames =
      framesBefore (frame :: frames) ++ child.entries ++ framesAfter (frame :: frames) := by
  obtain ⟨dir, addr, sibling, balance, dbterm⟩ := frame
  cases dir <;> simp [Frame.attach, framesBefore, framesAfter]

/-- Where the search for a key stopped in a tree with the given entries: at a
hole that the key belongs to, or at the node with an equal key. -/
structure Located (order : KeyOrder Key Obj) (key : Key) (entries : List (Nat × Obj))
    (position : TreeDbTerm Obj × List (Frame Obj)) : Prop where
  balanced : position.1.Balanced
  wf : FramesBalanced position.1.height position.2
  entries : framesBefore position.2 ++ position.1.entries ++ framesAfter position.2 = entries
  gap : position.1 = .null →
    Splits order.cmp order.entryKey key (framesBefore position.2) (framesAfter position.2)
  equal : position.1 = .node addr left right balance dbterm →
    order.cmp key (order.getKey dbterm) = .eq

/-- The search loop only moves the hole; where it stops, the key separates what
lies before the hole from what lies after it. -/
theorem descend_located (order : KeyOrder Key Obj) (key : Key) (tree : TreeDbTerm Obj)
    (frames : List (Frame Obj)) (balanced : tree.Balanced) (wf : FramesBalanced tree.height frames)
    (sorted : Sorted order.cmp order.entryKey
      (framesBefore frames ++ tree.entries ++ framesAfter frames))
    (splits : Splits order.cmp order.entryKey key (framesBefore frames) (framesAfter frames)) :
    Located order key (framesBefore frames ++ tree.entries ++ framesAfter frames)
      (descend order key tree frames) := by
  have trans := order.trans
  induction tree generalizing frames with
  | null => exact ⟨trivial, wf, rfl, fun _ => splits, by simp [descend]⟩
  | node addr left right balance dbterm ihLeft ihRight =>
    obtain ⟨leftBalanced, rightBalanced, difference, range⟩ := balanced_node.mp balanced
    have split : Splits order.cmp order.entryKey (order.entryKey (addr, dbterm))
        (framesBefore frames ++ left.entries) (right.entries ++ framesAfter frames) := by
      apply sorted_splits
      simpa using sorted
    unfold descend
    cases compared : order.cmp key (order.getKey dbterm) with
    | lt =>
      have same := attach_entries ⟨.left, addr, right, balance, dbterm⟩ left frames
      simp only [Frame.attach] at same
      rw [same]
      apply ihLeft _ leftBalanced
      · exact ⟨rightBalanced, difference, range, wf⟩
      · rw [← same]
        exact sorted
      · refine ⟨?_, ?_⟩
        · simpa [framesBefore] using splits.above
        · intro item member
          simp only [framesAfter, List.cons_append, List.mem_cons] at member
          rcases member with same | member
          · subst item
            exact compared
          · exact Std.TransCmp.lt_trans compared (split.below item member)
    | gt =>
      have same := attach_entries ⟨.right, addr, left, balance, dbterm⟩ right frames
      simp only [Frame.attach] at same
      rw [same]
      apply ihRight _ rightBalanced
      · refine ⟨leftBalanced, difference, range, ?_⟩
        rw [max_comm]
        exact wf
      · rw [← same]
        exact sorted
      · refine ⟨?_, ?_⟩
        · intro item member
          have cases : item ∈ framesBefore frames ++ left.entries ∨ item = (addr, dbterm) := by
            simpa [framesBefore, or_assoc] using member
          rcases cases with member | same
          · exact Std.TransCmp.gt_trans compared (split.above item member)
          · subst item
            exact compared
        · simpa [framesAfter] using splits.below
    | eq =>
      refine ⟨balanced, wf, rfl, by simp, ?_⟩
      intro _ _ _ _ other same
      injection same with _ _ _ _ same
      exact same ▸ compared

/-- The height of the whole tree when the hole has a subtree of height `hole`. -/
def framesHeight : Nat → List (Frame Obj) → Nat
  | hole, [] => hole
  | hole, frame :: frames => framesHeight (max hole frame.sibling.height + 1) frames

/-- A loop keeps what one turn keeps: the entries, the balance, and how the subtree
in the hole compares with the height that the frames recorded. -/
theorem unwind_spec {step : Dir → TreeDbTerm Obj → Option (TreeDbTerm Obj × Bool)}
    (Fits : Bool → TreeDbTerm Obj → Nat → Prop)
    (settled : ∀ child hole, Fits false child hole ↔ child.height = hole)
    (kept : ∀ dir tree result state, step dir tree = some (result, state) →
      result.entries = tree.entries)
    (turn : ∀ frame frames child hole, child.Balanced → FramesBalanced hole (frame :: frames) →
      Fits true child hole → ∃ tree next, step frame.dir (frame.attach child) = some (tree, next) ∧
        tree.Balanced ∧ Fits next tree (max hole frame.sibling.height + 1))
    (state : Bool) (child : TreeDbTerm Obj) (frames : List (Frame Obj)) (balanced : child.Balanced)
    (wf : FramesBalanced hole frames) (fits : Fits state child hole) :
    ∃ root final, unwind step state child frames = some (root, final) ∧ root.Balanced ∧
      Fits final root (framesHeight hole frames) ∧
      root.entries = framesBefore frames ++ child.entries ++ framesAfter frames := by
  induction frames generalizing state child hole with
  | nil =>
    exact ⟨child, state, by simp [unwind], balanced, fits, by simp [framesBefore, framesAfter]⟩
  | cons frame frames ih =>
    rw [← attach_entries]
    cases state with
    | false =>
      have height := (settled child hole).mp fits
      obtain ⟨attached, tall⟩ := attach_balanced frame child balanced (height ▸ wf)
      exact ih false _ attached wf.2.2.2 ((settled _ _).mpr (by rw [tall, height]))
    | true =>
      obtain ⟨tree, next, success, treeBalanced, fits'⟩ :=
        turn frame frames child hole balanced wf fits
      obtain ⟨root, final, rest, rootBalanced, height, entries⟩ :=
        ih next tree treeBalanced wf.2.2.2 fits'
      rw [kept _ _ _ _ success] at entries
      exact ⟨root, final, by simp [unwind, success, rest], rootBalanced, height, entries⟩

/-- While `state` is set the subtree in the hole is one higher than the frames
recorded, and it leans to one side unless it is the new node itself. -/
def Grown (state : Bool) (child : TreeDbTerm Obj) (hole : Nat) : Prop :=
  child.height = hole + (if state then 1 else 0) ∧ (state = true → child.rootBalance ≠ 0 ∨ hole = 0)

theorem putBalance_entries (success : putBalance dir tree = some (result, state)) :
    result.entries = tree.entries := by
  unfold putBalance at success
  split at success
  · cases success
  all_goals
    repeat' split at success
    all_goals cases success
    all_goals simp

/-- A left child that grew by one is absorbed, passed on, or rotated away. -/
theorem putBalance_left {hole : Nat} (addr : Nat) (dbterm : Obj) (childBalanced : child.Balanced)
    (siblingBalanced : sibling.Balanced) (difference : balance = (sibling.height : Int) - hole)
    (range : balance = -1 ∨ balance = 0 ∨ balance = 1) (grows : Grown true child hole) :
    ∃ tree state, putBalance .left (.node addr child sibling balance dbterm : TreeDbTerm Obj) =
        some (tree, state) ∧ tree.Balanced ∧ Grown state tree (max hole sibling.height + 1) := by
  obtain ⟨grown, leaning⟩ : child.height = hole + 1 ∧ (child.rootBalance ≠ 0 ∨ hole = 0) := by
    simpa [Grown] using grows
  rcases range with heavy | even | light
  · cases child with
    | null => simp at grown
    | node addr1 left1 p2 balance1 dbterm1 =>
      obtain ⟨balancedLeft1, balancedP2, difference1, range1⟩ := balanced_node.mp childBalanced
      simp only [height_node, rootBalance_node] at grown leaning
      by_cases outer : balance1 = -1
      · refine ⟨_, false, by simp [putBalance, heavy, outer]; rfl, ?_, ?_, by simp⟩
        · exact ⟨balancedLeft1, balanced_node.mpr ⟨balancedP2, siblingBalanced, by omega, by simp⟩,
            by rw [height_node]; omega, by simp⟩
        · simp only [height_node, Bool.false_eq_true, ↓reduceIte]
          omega
      · cases p2 with
        | null =>
          simp only [height_null] at grown difference1
          omega
        | node addr2 left2 right2 balance2 dbterm2 =>
          obtain ⟨balancedLeft2, balancedRight2, difference2, range2⟩ := balanced_node.mp balancedP2
          simp only [height_node] at difference1 grown
          have low : (if balance2 = 1 then -1 else 0) = (left2.height : Int) - left1.height := by
            split <;> omega
          have high : (if balance2 = -1 then 1 else 0) =
            (sibling.height : Int) - right2.height := by
            split <;> omega
          refine ⟨_, false, by simp [putBalance, heavy, outer]; rfl, ?_, ?_, by simp⟩
          · exact ⟨balanced_node.mpr ⟨balancedLeft1, balancedLeft2, low, by split <;> simp⟩,
              balanced_node.mpr ⟨balancedRight2, siblingBalanced, high, by split <;> simp⟩,
              by simp only [height_node]; omega, by simp⟩
          · simp only [height_node, Bool.false_eq_true, ↓reduceIte]
            omega
  · refine ⟨_, true, by simp [even]; rfl, ?_, ?_, by simp⟩
    · exact balanced_node.mpr ⟨childBalanced, siblingBalanced, by omega, by simp⟩
    · simp only [height_node, ↓reduceIte]
      omega
  · refine ⟨_, false, by simp [light]; rfl, ?_, ?_, by simp⟩
    · exact balanced_node.mpr ⟨childBalanced, siblingBalanced, by omega, by simp⟩
    · simp only [height_node, Bool.false_eq_true, ↓reduceIte]
      omega

theorem putBalance_mirror (tree : TreeDbTerm Obj) :
    putBalance .right tree = (putBalance .left tree.mirror).map fun result =>
      (result.1.mirror, result.2) := by
  rcases tree with _ | ⟨addr, left, _ | ⟨addr1, _ | ⟨addr2, left2, right2, balance2, dbterm2⟩,
    right1, balance1, dbterm1⟩, balance, dbterm⟩
  all_goals
    simp only [putBalance, mirror, neg_eq_iff_eq_neg, neg_neg, neg_zero]
    repeat' split
    all_goals simp_all [mirror]

theorem putBalance_right {hole : Nat} (addr : Nat) (dbterm : Obj) (childBalanced : child.Balanced)
    (siblingBalanced : sibling.Balanced) (difference : balance = (hole : Int) - sibling.height)
    (range : balance = -1 ∨ balance = 0 ∨ balance = 1) (grows : Grown true child hole) :
    ∃ tree state, putBalance .right (.node addr sibling child balance dbterm : TreeDbTerm Obj) =
        some (tree, state) ∧ tree.Balanced ∧ Grown state tree (max hole sibling.height + 1) := by
  obtain ⟨tree, state, success, balanced, grown⟩ := putBalance_left addr dbterm childBalanced.mirror
    siblingBalanced.mirror
      (by rw [mirror_height]; omega : -balance = sibling.mirror.height - (hole : Int)) (by omega)
    (by simpa [Grown] using grows)
  refine ⟨tree.mirror, state, ?_, balanced.mirror, by simpa [Grown] using grown⟩
  rw [putBalance_mirror, mirror, success]
  rfl

/-- Insertion keeps the tree balanced. -/
theorem unwind_put (state : Bool) (child : TreeDbTerm Obj) (frames : List (Frame Obj))
    (balanced : child.Balanced) (wf : FramesBalanced hole frames) (grown : Grown state child hole) :
    ∃ root final, unwind putBalance state child frames = some (root, final) ∧ root.Balanced ∧
      Grown final root (framesHeight hole frames) ∧
      root.entries = framesBefore frames ++ child.entries ++ framesAfter frames := by
  refine unwind_spec Grown (by simp [Grown])
    (fun _ _ _ _ => putBalance_entries) ?_ state child frames balanced
    wf grown
  rintro ⟨dir, addr, sibling, balance, dbterm⟩ _ child hole balanced ⟨siblingBalanced, difference,
    range, _⟩ grown
  cases dir with
  | left => exact putBalance_left _ _ balanced siblingBalanced difference range grown
  | right => exact putBalance_right _ _ balanced siblingBalanced difference range grown

theorem linkoutBalance_entries (success : linkoutBalance dir tree = some (result, state)) :
    result.entries = tree.entries := by
  unfold linkoutBalance balanceLeft balanceRight at success
  repeat' split at success
  all_goals cases success
  all_goals simp

theorem balanceLeft_spec {hole : Nat} (addr : Nat) (dbterm : Obj) (childBalanced : child.Balanced)
    (siblingBalanced : sibling.Balanced) (difference : balance = (sibling.height : Int) - hole)
    (range : balance = -1 ∨ balance = 0 ∨ balance = 1) (shrunk : child.height + 1 = hole) :
    ∃ tree state, balanceLeft (.node addr child sibling balance dbterm) = some (tree, state) ∧
      tree.Balanced ∧ tree.height + (if state then 1 else 0) = max hole sibling.height + 1 := by
  rcases range with light | even | heavy
  · refine ⟨_, true, by simp [light]; rfl, ?_, ?_⟩
    · exact balanced_node.mpr ⟨childBalanced, siblingBalanced, by omega, by simp⟩
    · simp only [height_node, ↓reduceIte]
      omega
  · refine ⟨_, false, by simp [even]; rfl, ?_, ?_⟩
    · exact balanced_node.mpr ⟨childBalanced, siblingBalanced, by omega, by simp⟩
    · simp only [height_node, Bool.false_eq_true, ↓reduceIte]
      omega
  · cases sibling with
    | null =>
      simp only [height_null] at difference
      omega
    | node addr1 p2 right1 b1 dbterm1 =>
      obtain ⟨balancedP2, balancedRight1, difference1, range1⟩ := balanced_node.mp siblingBalanced
      simp only [height_node] at difference
      by_cases outer : b1 ≥ 0
      · by_cases flat : b1 = 0
        · refine ⟨_, false, by simp [heavy, flat]; rfl, ?_, ?_⟩
          · exact ⟨balanced_node.mpr ⟨childBalanced, balancedP2, by omega, by simp⟩,
              balancedRight1, by rw [height_node]; omega, by simp⟩
          · simp only [height_node, Bool.false_eq_true, ↓reduceIte]
            omega
        · refine ⟨_, true, by simp [balanceLeft, heavy, outer, flat]; rfl, ?_, ?_⟩
          · exact ⟨balanced_node.mpr ⟨childBalanced, balancedP2, by omega, by simp⟩,
              balancedRight1, by rw [height_node]; omega, by simp⟩
          · simp only [height_node, ↓reduceIte]
            omega
      · cases p2 with
        | null =>
          simp only [height_null] at difference1
          omega
        | node addr2 left2 right2 b2 dbterm2 =>
          obtain ⟨balancedLeft2, balancedRight2, difference2, range2⟩ := balanced_node.mp balancedP2
          simp only [height_node] at difference1 difference
          have low : (if b2 = 1 then -1 else 0) = (left2.height : Int) - child.height := by
            split <;> omega
          have high : (if b2 = -1 then 1 else 0) = (right1.height : Int) - right2.height := by
            split <;> omega
          refine ⟨_, true, by simp [balanceLeft, heavy, outer]; rfl, ?_, ?_⟩
          · exact ⟨balanced_node.mpr ⟨childBalanced, balancedLeft2, low, by split <;> simp⟩,
              balanced_node.mpr ⟨balancedRight2, balancedRight1, high, by split <;> simp⟩,
              by simp only [height_node]; omega, by simp⟩
          · simp only [height_node, ↓reduceIte]
            omega

theorem balance_mirror (tree : TreeDbTerm Obj) :
    balanceRight tree = (balanceLeft tree.mirror).map fun result =>
      (result.1.mirror, result.2) := by
  rcases tree with _ | ⟨addr, _ | ⟨addr1, left1, _ | ⟨addr2, left2, right2, b2, dbterm2⟩, b1,
    dbterm1⟩, right, balance, dbterm⟩
  all_goals
    simp only [balanceLeft, balanceRight, mirror, neg_eq_iff_eq_neg, neg_neg, neg_zero, ge_iff_le,
      Int.neg_nonneg]
    repeat' split
    all_goals simp_all [mirror]

theorem balanceRight_spec {hole : Nat} (addr : Nat) (dbterm : Obj) (childBalanced : child.Balanced)
    (siblingBalanced : sibling.Balanced) (difference : balance = (hole : Int) - sibling.height)
    (range : balance = -1 ∨ balance = 0 ∨ balance = 1) (shrunk : child.height + 1 = hole) :
    ∃ tree state, balanceRight (.node addr sibling child balance dbterm) = some (tree, state) ∧
      tree.Balanced ∧ tree.height + (if state then 1 else 0) = max hole sibling.height + 1 := by
  obtain ⟨tree, state, success, balanced, tall⟩ := balanceLeft_spec addr dbterm
    childBalanced.mirror siblingBalanced.mirror
    (by rw [mirror_height]; omega : -balance = sibling.mirror.height - (hole : Int)) (by omega)
      (by simpa using shrunk)
  refine ⟨tree.mirror, state, ?_, balanced.mirror, by simpa using tall⟩
  rw [balance_mirror, mirror, success]
  rfl

/-- Deletion keeps the tree balanced: while `state` is set the subtree in the
hole is one lower than the frames recorded. -/
theorem unwind_linkout (state : Bool) (child : TreeDbTerm Obj) (frames : List (Frame Obj))
    (balanced : child.Balanced) (wf : FramesBalanced hole frames)
    (height : child.height + (if state then 1 else 0) = hole) :
    ∃ root final, unwind linkoutBalance state child frames = some (root, final) ∧ root.Balanced ∧
      root.height + (if final then 1 else 0) = framesHeight hole frames ∧
      root.entries = framesBefore frames ++ child.entries ++ framesAfter frames := by
  refine unwind_spec (fun state child hole => child.height + (if state then 1 else 0) =
    hole) (by simp)
    (fun _ _ _ _ => linkoutBalance_entries) ?_ state child frames balanced wf height
  rintro ⟨dir, addr, sibling, balance, dbterm⟩ _ child hole balanced ⟨siblingBalanced, difference,
    range, _⟩ height
  cases dir with
  | left => exact balanceLeft_spec _ _ balanced siblingBalanced difference range height
  | right => exact balanceRight_spec _ _ balanced siblingBalanced difference range height

/-- The walk of `delsub` turns right only and finds the last entry of a nonempty
tree; its left subtree fills the hole one lower than before. -/
theorem delsubWalk_spec (tree : TreeDbTerm Obj) (frames : List (Frame Obj))
    (balanced : tree.Balanced) (wf : FramesBalanced tree.height frames) (nonempty : tree ≠ .null) :
    ∃ entry rest path, delsubWalk tree frames = some (entry, rest, path) ∧ rest.Balanced ∧
      FramesBalanced (rest.height + 1) path ∧
      framesHeight (rest.height + 1) path = framesHeight tree.height frames ∧
      framesAfter path = framesAfter frames ∧
      framesBefore path ++ rest.entries ++ [entry] = framesBefore frames ++ tree.entries := by
  induction tree generalizing frames with
  | null => exact absurd rfl nonempty
  | node addr left right balance dbterm _ ih =>
    obtain ⟨leftBalanced, rightBalanced, difference, range⟩ := balanced_node.mp balanced
    cases right with
    | null =>
      refine ⟨(addr, dbterm), left, frames, rfl, leftBalanced, ?_, ?_, rfl, ?_⟩
      · simpa using wf
      · simp
      · simp
    | node addr1 left1 right1 balance1 dbterm1 =>
      let frame : Frame Obj := ⟨.right, addr, left, balance, dbterm⟩
      have inner : FramesBalanced (node addr1 left1 right1 balance1 dbterm1).height
        (frame :: frames) := by
        refine ⟨leftBalanced, difference, range, ?_⟩
        rw [max_comm]
        exact wf
      obtain ⟨entry, rest, path, success, restBalanced, pathBalanced, tall, after, same⟩ :=
        ih (frame :: frames) rightBalanced inner (by simp)
      refine ⟨entry, rest, path, success, restBalanced, pathBalanced, ?_, after, ?_⟩
      · rw [tall]
        simp only [framesHeight, height_node]
        rw [max_comm]
      · simp [same, framesBefore, frame]

/-- `delsub` removes the entry of the root; the left subtree may have become
one lower, which the balance field of the root does not record yet. -/
theorem delsub_spec (balanced : (node addr left right balance dbterm : TreeDbTerm Obj).Balanced)
    (nonempty : left ≠ .null) :
    ∃ addr' left' dbterm' state, delsub (.node addr left right balance dbterm) =
        some (.node addr' left' right balance dbterm', state) ∧ left'.Balanced ∧
      left'.height + (if state then 1 else 0) = left.height ∧
      left'.entries ++ [(addr', dbterm')] = left.entries := by
  obtain ⟨leftBalanced, _, _, _⟩ := balanced_node.mp balanced
  obtain ⟨entry, rest, path, walked, restBalanced, pathBalanced, tall, bare, same⟩ :=
    delsubWalk_spec left [] leftBalanced trivial nonempty
  obtain ⟨left', state, success, leftBalanced', height, kept⟩ :=
    unwind_linkout true rest path restBalanced pathBalanced rfl
  refine ⟨entry.1, left', entry.2, state, ?_, leftBalanced', ?_, ?_⟩
  · simp [delsub, walked, success]
  · rw [height, tall]
    rfl
  · simpa [kept, bare, framesBefore, framesAfter] using same

/-- The slot pushed before `delsub` takes one `balance_left` when `state` is set. -/
theorem delsubTurn_spec {hole : Nat} (addr : Nat) (dbterm : Obj) (leftBalanced : left.Balanced)
    (rightBalanced : right.Balanced) (difference : balance = (right.height : Int) - hole)
    (range : balance = -1 ∨ balance = 0 ∨ balance = 1)
    (height : left.height + (if state then 1 else 0) = hole) :
    ∃ tree next, delsubTurn state (.node addr left right balance dbterm) = some (tree, next) ∧
    tree.Balanced ∧
      tree.height + (if next then 1 else 0) = max hole right.height + 1 ∧
      tree.entries = left.entries ++ (addr, dbterm) :: right.entries := by
  cases state with
  | true =>
    obtain ⟨tree, next, success, balanced, tall⟩ :=
      balanceLeft_spec addr dbterm leftBalanced rightBalanced difference range height
    have turned : linkoutBalance .left (.node addr left right balance dbterm) = some (tree, next) :=
      success
    exact ⟨tree, next, success, balanced, tall, linkoutBalance_entries turned⟩
  | false =>
    subst hole
    exact ⟨_, _, rfl, balanced_node.mpr ⟨leftBalanced, rightBalanced, difference, range⟩, rfl, rfl⟩

/-- Unlinking the found node removes its entry and keeps the tree balanced. -/
theorem linkoutNode_spec
    (balanced : (node addr left right balance dbterm : TreeDbTerm Obj).Balanced)
    (wf : FramesBalanced (node addr left right balance dbterm : TreeDbTerm Obj).height frames) :
    ∃ root final, linkoutNode (.node addr left right balance dbterm) frames = some (root, final) ∧
      root.Balanced ∧ root.entries =
        framesBefore frames ++ (left.entries ++ right.entries) ++ framesAfter frames := by
  obtain ⟨leftBalanced, rightBalanced, difference, range⟩ := balanced_node.mp balanced
  cases right with
  | null =>
    obtain ⟨root, final, success, rootBalanced, _, kept⟩ := unwind_linkout true left frames
      leftBalanced wf (by simp)
    exact ⟨root, final, success, rootBalanced, by simpa using kept⟩
  | node addr1 left1 right1 balance1 dbterm1 =>
    cases left with
    | null =>
      obtain ⟨root, final, success, rootBalanced, _, kept⟩ := unwind_linkout true _ frames
        rightBalanced wf (by simp)
      exact ⟨root, final, success, rootBalanced, by simpa using kept⟩
    | node addr2 left2 right2 balance2 dbterm2 =>
      obtain ⟨addr', left', dbterm', state, moved, leftBalanced', height, same⟩ :=
        delsub_spec balanced (by simp)
      obtain ⟨tree, next, stepped, treeBalanced, tall, entries⟩ :=
        delsubTurn_spec addr' dbterm' leftBalanced' rightBalanced difference range height
      obtain ⟨root, final, success, rootBalanced, _, kept⟩ := unwind_linkout next tree frames
        treeBalanced wf tall
      refine ⟨root, final, ?_, rootBalanced, ?_⟩
      · simp [linkoutNode, moved, stepped, success]
      · rw [kept, entries, ← same]
        simp

end Otp.Ets
