import Otp.Dets.Bplus

/-! The B+ tree against the ordered set of its keys: the updates never fail on a tree
made by them, they keep the sizes of nodes and leaves, and every answer is that of
the set. -/

namespace Otp.Dets.Bplus

open Otp.Library.Separated

def keys : {height : Nat} → Tree height → List Nat
  | 0, ⟨keys⟩ => keys
  | _ + 1, ⟨init, last⟩ => (items init.reverse last []).flatMap keys

/-- The keys lie in order in the range from `lo` up to `hi`, and every subtree has
between `minSize` and `maxSize` items. The size of the tree itself is free. -/
def Sound : {height : Nat} → Nat → Tree height → Nat → Prop
  | 0, lo, ⟨keys⟩, hi => lo ≤ hi ∧ keys.Pairwise (· < ·) ∧ ∀ key ∈ keys, lo ≤ key ∧ key < hi
  | _ + 1, lo, ⟨init, last⟩, hi =>
    Around (fun lo subTree hi => Sound lo subTree hi ∧
      minSize ≤ bplusGetSize subTree ∧ bplusGetSize subTree ≤ maxSize) lo init.reverse last [] hi

variable {height lo hi key : Nat}

/-- A subtree. -/
def Proper (lo : Nat) (tree : Tree height) (hi : Nat) : Prop :=
  Sound lo tree hi ∧ minSize ≤ bplusGetSize tree ∧ bplusGetSize tree ≤ maxSize

variable {before : List (Tree height × Nat)} {after : List (Nat × Tree height)}
  {tree : Tree height}

theorem keys_mkNode (before : List (Tree height × Nat)) (tree : Tree height)
    (after : List (Nat × Tree height)) :
    keys (bplusMkNode before tree after) = (items before tree after).flatMap keys := by
  rw [bplusMkNode, keys, items_close]

theorem size_mkNode (before : List (Tree height × Nat)) (tree : Tree height)
    (after : List (Nat × Tree height)) :
    bplusGetSize (bplusMkNode before tree after) = before.length + after.length + 1 := by
  have same := congrArg List.length (items_close before tree after)
  rw [length_items, length_items, List.length_reverse] at same
  exact same

theorem sound_mkNode :
    Sound lo (bplusMkNode before tree after) hi ↔ Around Proper lo before tree after hi :=
  around_close before tree after

theorem Ranges.proper (ranges : Ranges (@Sound height) keys) : Ranges (@Proper height) keys :=
  ⟨fun proper => ranges.le proper.1, fun proper => ranges.range proper.1,
    fun proper => ranges.sorted proper.1⟩

theorem sound_ranges (height : Nat) : Ranges (@Sound height) keys := by
  induction height with
  | zero =>
    exact ⟨fun sound => sound.1, fun sound held => sound.2.2 _ held, fun sound => sound.2.1⟩
  | succ height ih =>
    exact ⟨fun around => Around.le (Ranges.proper ih) around,
      fun around => Around.range (Ranges.proper ih) around,
      fun around => Around.sorted (Ranges.proper ih) around⟩

theorem proper_ranges (height : Nat) : Ranges (@Proper height) keys :=
  Ranges.proper (sound_ranges height)

theorem Sound.mono (sound : Sound lo tree hi) (le : hi ≤ hi') : Sound lo tree hi' := by
  induction height generalizing lo with
  | zero =>
    exact ⟨sound.1.trans le, sound.2.1, fun key held =>
      ⟨(sound.2.2 key held).1, (sound.2.2 key held).2.trans_le le⟩⟩
  | succ height ih => exact ⟨sound.left, ⟨ih sound.here.1, sound.here.2⟩, trivial⟩

section

variable {lTree rTree : Tree height}

theorem append_keys (lTree : Tree height) (key : Nat) (rTree : Tree height) :
    keys (append lTree key rTree) = keys lTree ++ keys rTree := by
  cases height with
  | zero => rfl
  | succ height =>
    obtain ⟨init, last⟩ := lTree
    obtain ⟨init', last'⟩ := rTree
    simp [append, keys, items]

/-- Two neighbours in one tree have the keys of both. -/
theorem items_append : (items before (append lTree key rTree) after).flatMap keys =
    (items before lTree ((key, rTree) :: after)).flatMap keys := by
  simp [items, append_keys]

theorem append_size (lTree : Tree height) (key : Nat) (rTree : Tree height) :
    bplusGetSize (append lTree key rTree) = bplusGetSize lTree + bplusGetSize rTree := by
  cases height with
  | zero => exact List.length_append
  | succ height =>
    obtain ⟨init, last⟩ := lTree
    obtain ⟨init', last'⟩ := rTree
    simp only [append, bplusGetSize, List.length_append, List.length_cons]
    omega

theorem append_sound (left : Sound lo lTree key) (right : Sound key rTree hi) :
    Sound lo (append lTree key rTree) hi := by
  cases height with
  | zero =>
    refine ⟨left.1.trans right.1, List.pairwise_append.mpr ⟨left.2.1, right.2.1, ?_⟩, ?_⟩
    · intro first held second held'
      exact (left.2.2 first held).2.trans_le (right.2.2 second held').1
    · intro other held
      rcases List.mem_append.mp held with held | held
      · exact ⟨(left.2.2 other held).1, (left.2.2 other held).2.trans_le right.1⟩
      · exact ⟨left.1.trans (right.2.2 other held).1, (right.2.2 other held).2⟩
  | succ height =>
    obtain ⟨init, last⟩ := lTree
    obtain ⟨init', last'⟩ := rTree
    have order : (init ++ (last, key) :: init').reverse =
        init'.reverse ++ (last, key) :: init.reverse := by simp
    refine ⟨?_, ?_, trivial⟩
    · rw [order]
      exact (before_append init'.reverse).mpr ⟨right.left, left.here, left.left⟩
    · rw [order, low_append]
      exact right.here

end

theorem splitLeaf2_halves (below : List Nat) (n : Nat) (accum : List Nat)
    (positive : 1 ≤ n) (enough : n ≤ below.length) :
    ∃ left k right,
      bplusSplitLeaf2 below n accum = .ok (bplusMkLeaf left, k, bplusMkLeaf (k :: right)) ∧
      left ++ k :: right = below.reverse ++ accum ∧ left.length = below.length - n := by
  induction below generalizing n accum with
  | nil => simp at enough; omega
  | cons k below ih =>
    rcases n with _ | _ | n
    · omega
    · exact ⟨below.reverse, k, accum, rfl, by simp, by simp⟩
    · obtain ⟨left, k', right, halves, same, length⟩ :=
        ih (n + 1) (k :: accum) (by omega) (by simpa using enough)
      exact ⟨left, k', right, halves, by simp [same], by simp [length]⟩

theorem splitNode2_halves (n : Nat) (around : Around Proper lo before tree after hi)
    (positive : 1 ≤ n) (enough : n ≤ before.length) :
    ∃ left k right, bplusSplitNode2 before tree n after = .ok (left, k, right) ∧
      Sound lo left k ∧ Sound k right hi ∧
      keys left ++ keys right = (items before tree after).flatMap keys ∧
      bplusGetSize left = before.length + 1 - n ∧ bplusGetSize right = after.length + n := by
  induction before generalizing n tree after with
  | nil => simp at enough; omega
  | cons entry before ih =>
    obtain ⟨first, k⟩ := entry
    rcases n with _ | _ | n
    · omega
    · obtain ⟨⟨inside, left⟩, here, right⟩ := around
      refine ⟨bplusMkNode before first [], k, bplusMkNode [] tree after, rfl,
        sound_mkNode.mpr ⟨left, inside, trivial⟩, sound_mkNode.mpr ⟨trivial, here, right⟩, ?_,
          ?_, ?_⟩
      · simp [keys_mkNode, items]
      · simp [size_mkNode]
      · simp [size_mkNode]
    · obtain ⟨left, k', right, halves, low, high, same, sizes⟩ :=
        ih (n + 1) (around_move.mp around) (by omega) (by simpa using enough)
      refine ⟨left, k', right, halves, low, high, same.trans ?_, ?_⟩
      · rw [items_move]
      · simp only [List.length_cons] at sizes ⊢
        omega

theorem split_halves (sound : Sound lo tree hi) (two : 2 ≤ bplusGetSize tree) :
    ∃ left k right, split tree = .ok (left, k, right) ∧ Sound lo left k ∧ Sound k right hi ∧
      keys left ++ keys right = keys tree ∧
      bplusGetSize left = bplusGetSize tree - bplusGetSize tree / 2 ∧
      bplusGetSize right = bplusGetSize tree / 2 := by
  cases height with
  | zero =>
    obtain ⟨leaf⟩ := tree
    change 2 ≤ leaf.length at two
    obtain ⟨left, k, right, halves, same, short⟩ :=
      splitLeaf2_halves leaf.reverse (leaf.length / 2) [] (by omega)
        (by rw [List.length_reverse]; omega)
    rw [List.reverse_reverse, List.append_nil] at same
    rw [List.length_reverse] at short
    obtain ⟨le, sorted, range⟩ := sound
    rw [← same] at sorted range
    obtain ⟨leftSorted, rightSorted, across⟩ := List.pairwise_append.mp sorted
    have middle := range k (by simp)
    refine ⟨_, k, _, halves, ⟨middle.1, leftSorted, fun other held => ?_⟩,
      ⟨middle.2.le, rightSorted, fun other held => ?_⟩, same, short, ?_⟩
    · exact ⟨(range other (by simp [held])).1, across other held k (by simp)⟩
    · refine ⟨?_, (range other (List.mem_append_right _ held)).2⟩
      rcases List.mem_cons.mp held with rfl | later
      · exact le_rfl
      · exact (List.rel_of_pairwise_cons rightSorted later).le
    · have whole := congrArg List.length same
      rw [List.length_append] at whole
      change (k :: right).length = leaf.length / 2
      omega
  | succ height =>
    obtain ⟨init, last⟩ := tree
    change 2 ≤ init.length + 1 at two
    obtain ⟨left, k, right, halves, low, high, same, short, long⟩ :=
      splitNode2_halves ((init.length + 1) / 2) sound (by omega)
        (by rw [List.length_reverse]; omega)
    rw [List.length_reverse] at short
    exact ⟨left, k, right, halves, low, high, same, short, long.trans (Nat.zero_add _)⟩

/-- The subtree for a key is the one whose range has it. -/
theorem selectSubTree2_range (around : Around Proper lo before tree after hi) (above : lo ≤ key)
    (below : key < high hi after) :
    ∃ before' subTree after', bplusSelectSubTree2 key before tree after =
      (before', subTree, after') ∧
      Around Proper lo before' subTree after' hi ∧
      items before' subTree after' = items before tree after ∧
      low lo before' ≤ key ∧ key < high hi after' := by
  induction before generalizing tree after with
  | nil => exact ⟨[], tree, after, rfl, around, rfl, above, below⟩
  | cons entry before ih =>
    obtain ⟨first, k⟩ := entry
    rw [bplusSelectSubTree2]
    split
    case isTrue smaller =>
      obtain ⟨before', subTree, after', selected, around', same, bounds⟩ :=
        ih (around_move.mp around) smaller
      exact ⟨before', subTree, after', selected, around', by rw [same, items_move], bounds⟩
    case isFalse larger => exact ⟨_, tree, after, rfl, around, rfl, Nat.not_lt.mp larger, below⟩

/-- `result` is a node with the given keys and between `least` and `most` subtrees. -/
def Yields (lo : Nat) (result : Except Failure (Tree (height + 1))) (hi : Nat) (contents : List Nat)
    (least most : Nat) : Prop :=
  ∃ tree, result = .ok tree ∧ Sound lo tree hi ∧ keys tree = contents ∧
    least ≤ bplusGetSize tree ∧ bplusGetSize tree ≤ most

theorem mkNode_yields (around : Around Proper lo before tree after hi) :
    Yields lo (.ok (bplusMkNode before tree after)) hi ((items before tree after).flatMap keys)
      (before.length + after.length + 1) (before.length + after.length + 1) :=
  ⟨_, rfl, sound_mkNode.mpr around, keys_mkNode before tree after,
    (size_mkNode before tree after).ge, (size_mkNode before tree after).le⟩

section

variable (left : Before Proper lo before) (right : After Proper hi after)

include left right

theorem reorganizeTreeS_yields (inside : Sound (low lo before) tree (high hi after))
    (enough : 2 * minSize ≤ bplusGetSize tree) (atMost : bplusGetSize tree ≤ 2 * maxSize) :
    Yields lo (bplusReorganizeTreeS before after tree) hi ((items before tree after).flatMap keys)
      (before.length + after.length + 2) (before.length + after.length + 2) := by
  simp only [minSize, maxSize] at enough atMost
  obtain ⟨leftT, dKey, rightT, halves, low, high, same, leftSize, rightSize⟩ :=
    split_halves inside (by omega)
  have around : Around Proper lo before leftT ((dKey, rightT) :: after) hi :=
    ⟨left, ⟨low, by simp only [minSize, maxSize]; omega⟩,
      ⟨high, by simp only [minSize, maxSize]; omega⟩, right⟩
  refine ⟨bplusMkNode before leftT ((dKey, rightT) :: after), ?_, sound_mkNode.mpr around, ?_, ?_⟩
  · rw [bplusReorganizeTreeS, halves]
    rfl
  · simp only [keys_mkNode, items, List.flatMap_append, List.flatMap_cons, List.map_cons, ← same,
      List.append_assoc]
  · rw [size_mkNode, List.length_cons]
    omega

variable {lTree rTree : Tree height}

/-- Moving items between neighbours is to split the two put together. -/
theorem reorganizeTreeL_yields (first : Sound (low lo before) lTree key)
    (second : Sound key rTree (high hi after))
    (enough : 2 * minSize ≤ bplusGetSize lTree + bplusGetSize rTree)
    (atMost : bplusGetSize lTree + bplusGetSize rTree ≤ 2 * maxSize) :
    Yields lo (bplusReorganizeTreeL before after lTree key rTree) hi
      ((items before lTree ((key, rTree) :: after)).flatMap keys)
      (before.length + after.length + 2) (before.length + after.length + 2) := by
  rw [← append_size lTree key rTree] at enough atMost
  have yields := reorganizeTreeS_yields left right (append_sound first second) enough atMost
  rwa [items_append] at yields

theorem reorganizeTreeJl_yields (first : Sound (low lo before) lTree key)
    (second : Sound key rTree (high hi after))
    (enough : minSize ≤ bplusGetSize lTree + bplusGetSize rTree)
    (atMost : bplusGetSize lTree + bplusGetSize rTree ≤ maxSize) :
    Yields lo (bplusReorganizeTreeJl before after lTree key rTree) hi
      ((items before lTree ((key, rTree) :: after)).flatMap keys)
      (before.length + after.length + 1) (before.length + after.length + 1) := by
  rw [← append_size lTree key rTree] at enough atMost
  have yields := mkNode_yields ⟨left, ⟨append_sound first second, enough, atMost⟩, right⟩
  rwa [items_append] at yields

end

theorem Yields.mono {result : Except Failure (Tree (height + 1))}
    (yields : Yields lo result hi contents least most) (lower : least' ≤ least)
    (upper : most ≤ most') : Yields lo result hi contents least' most' := by
  obtain ⟨tree, done, sound, same, atLeast, atMost⟩ := yields
  exact ⟨tree, done, sound, same, lower.trans atLeast, atMost.trans upper⟩

section

variable {lTree rTree : Tree height} {lKey rKey : Nat}

theorem reorganize_left (left : Before Proper lo ((lTree, lKey) :: before))
    (right : After Proper hi after) (inside : Sound lKey tree (high hi after))
    (enough : 2 * minSize ≤ bplusGetSize lTree + bplusGetSize tree)
    (atMost : bplusGetSize lTree + bplusGetSize tree ≤ 2 * maxSize) :
    Yields lo (bplusReorganizeTreeL before after lTree lKey tree) hi
      ((items ((lTree, lKey) :: before) tree after).flatMap keys)
      (((lTree, lKey) :: before).length + after.length + 1)
      (((lTree, lKey) :: before).length + after.length + 1) := by
  rw [items_move, List.length_cons, Nat.add_right_comm before.length 1]
  exact reorganizeTreeL_yields left.2 right left.1.1 inside enough atMost

theorem reorganize_right (left : Before Proper lo before)
    (right : After Proper hi ((rKey, rTree) :: after)) (inside : Sound (low lo before) tree rKey)
    (enough : 2 * minSize ≤ bplusGetSize tree + bplusGetSize rTree)
    (atMost : bplusGetSize tree + bplusGetSize rTree ≤ 2 * maxSize) :
    Yields lo (bplusReorganizeTreeR before after tree rKey rTree) hi
      ((items before tree ((rKey, rTree) :: after)).flatMap keys)
      (before.length + ((rKey, rTree) :: after).length + 1)
      (before.length + ((rKey, rTree) :: after).length + 1) :=
  reorganizeTreeL_yields left right.2 inside right.1.1 enough atMost

theorem join_left (left : Before Proper lo ((lTree, lKey) :: before))
    (right : After Proper hi after) (inside : Sound lKey tree (high hi after))
    (enough : minSize ≤ bplusGetSize lTree + bplusGetSize tree)
    (atMost : bplusGetSize lTree + bplusGetSize tree ≤ maxSize) :
    Yields lo (bplusReorganizeTreeJl before after lTree lKey tree) hi
      ((items ((lTree, lKey) :: before) tree after).flatMap keys)
      (((lTree, lKey) :: before).length + after.length)
      (((lTree, lKey) :: before).length + after.length) := by
  rw [items_move, List.length_cons, Nat.add_right_comm before.length 1]
  exact reorganizeTreeJl_yields left.2 right left.1.1 inside enough atMost

end

section

variable (left : Before Proper lo before) (right : After Proper hi after)
  (inside : Sound (low lo before) tree (high hi after))
  (beside : 2 ≤ before.length + after.length + 1)

include left right inside beside

/-- The sizes decide: a neighbour that is not full takes some of the items. -/
theorem reorganizeTreeIns_yields (size : bplusGetSize tree = maxSize + 1) :
    Yields lo (bplusReorganizeTreeIns tree before after) hi ((items before tree after).flatMap keys)
      (before.length + after.length + 1) (before.length + after.length + 2) := by
  have most : maxSize = 16 := rfl
  have least : minSize = 8 := rfl
  have divided := (reorganizeTreeS_yields left right inside (by omega) (by omega)).mono
    (Nat.le_succ _) le_rfl
  have leveled := Nat.le_succ (before.length + after.length + 1)
  rcases before with _ | ⟨⟨lTree, lKey⟩, before⟩ <;>
    rcases after with _ | ⟨⟨rKey, rTree⟩, after⟩ <;>
    rw [bplusReorganizeTreeIns]
  · simp at beside
  · have proper := right.1.2
    split
    · exact divided
    · exact (reorganize_right left right inside (by omega) (by omega)).mono le_rfl leveled
  · have proper := left.1.2
    split
    · exact divided
    · exact (reorganize_left left right inside (by omega) (by omega)).mono le_rfl leveled
  · have proper := left.1.2
    have proper' := right.1.2
    split
    · exact (reorganize_right left right inside (by omega) (by omega)).mono le_rfl leveled
    split
    · exact (reorganize_left left right inside (by omega) (by omega)).mono le_rfl leveled
    split
    · exact divided
    · exact (reorganize_left left right inside (by omega) (by omega)).mono le_rfl leveled

/-- A neighbour with items to spare gives some away, and others are joined with. -/
theorem reorganizeTreeDel_yields (size : bplusGetSize tree + 1 = minSize) :
    Yields lo (bplusReorganizeTreeDel tree before after) hi ((items before tree after).flatMap keys)
      (before.length + after.length) (before.length + after.length + 1) := by
  have most : maxSize = 16 := rfl
  have least : minSize = 8 := rfl
  have fewer := Nat.le_succ (before.length + after.length)
  rcases before with _ | ⟨⟨lTree, lKey⟩, before⟩ <;>
    rcases after with _ | ⟨⟨rKey, rTree⟩, after⟩ <;>
    rw [bplusReorganizeTreeDel]
  · simp at beside
  · have proper := right.1.2
    split
    · exact (reorganizeTreeJl_yields left right.2 inside right.1.1 (by omega) (by omega)).mono
        le_rfl fewer
    · exact (reorganize_right left right inside (by omega) (by omega)).mono fewer le_rfl
  · have proper := left.1.2
    split
    · exact (join_left left right inside (by omega) (by omega)).mono le_rfl fewer
    · exact (reorganize_left left right inside (by omega) (by omega)).mono fewer le_rfl
  · have proper := left.1.2
    have proper' := right.1.2
    split
    · exact (reorganize_left left right inside (by omega) (by omega)).mono fewer le_rfl
    split
    · exact (reorganize_right left right inside (by omega) (by omega)).mono fewer le_rfl
    split
    · exact (join_left left right inside (by omega) (by omega)).mono le_rfl fewer
    · exact (reorganize_left left right inside (by omega) (by omega)).mono fewer le_rfl

end

theorem insertInLeaf2_inserts (key : Nat) (below accum : List Nat)
    (sorted : (below.reverse ++ accum).Pairwise (· < ·))
    (smaller : ∀ k ∈ accum, key < k) :
    (bplusInsertInLeaf2 key below accum).Pairwise (· < ·) ∧
      (∀ other, other ∈ bplusInsertInLeaf2 key below accum ↔
        other = key ∨ other ∈ below.reverse ++ accum) ∧
      (below.reverse ++ accum).length ≤ (bplusInsertInLeaf2 key below accum).length ∧
      (bplusInsertInLeaf2 key below accum).length ≤ (below.reverse ++ accum).length + 1 := by
  induction below generalizing accum with
  | nil => exact ⟨List.pairwise_cons.mpr ⟨smaller, sorted⟩, by simp [bplusInsertInLeaf2]⟩
  | cons k below ih =>
    rw [List.reverse_cons, List.append_assoc, List.singleton_append] at sorted ⊢
    rw [bplusInsertInLeaf2]
    split
    case isTrue before =>
      exact ih (k :: accum) sorted (List.forall_mem_cons.mpr ⟨before, smaller⟩)
    case isFalse notBefore =>
      obtain ⟨lower, upper, across⟩ := List.pairwise_append.mp sorted
      split
      case isTrue behind =>
        refine ⟨List.pairwise_append.mpr ⟨lower, ?_, ?_⟩, fun other => ?_, ?_, ?_⟩
        · refine List.pairwise_cons.mpr ⟨List.forall_mem_cons.mpr ⟨behind, ?_⟩, ?_⟩
          · exact (List.pairwise_cons.mp upper).1
          · exact List.pairwise_cons.mpr ⟨smaller, (List.pairwise_cons.mp upper).2⟩
        · intro first held second held'
          have less := across first held k List.mem_cons_self
          rcases List.mem_cons.mp held' with rfl | held'
          · exact less
          rcases List.mem_cons.mp held' with rfl | held'
          · exact less.trans behind
          · exact across first held second (List.mem_cons_of_mem _ held')
        · simp only [List.mem_append, List.mem_cons]
          tauto
        · simp
        · simp only [List.length_append, List.length_cons]
          omega
      case isFalse notBehind =>
        have same : k = key := by omega
        subst same
        exact ⟨sorted, by simp, le_rfl, Nat.le_succ _⟩

theorem deleteInLeaf2_erases (leaf below accum : List Nat) (nodup : leaf.Nodup)
    (whole : leaf = below.reverse ++ accum) (absent : key ∉ accum) :
    bplusDeleteInLeaf2 key leaf below accum = leaf.erase key := by
  induction below generalizing accum with
  | nil =>
    subst whole
    exact (List.erase_of_not_mem absent).symm
  | cons k below ih =>
    rw [List.reverse_cons, List.append_assoc, List.singleton_append] at whole
    rw [bplusDeleteInLeaf2]
    split
    case isTrue same =>
      subst same whole
      have apart : key ∉ below.reverse := fun held =>
        (List.nodup_append.mp nodup).2.2 key held key List.mem_cons_self rfl
      rw [List.erase_append_right _ apart, List.erase_cons_head]
    case isFalse differs => exact ih (k :: accum) whole (by simp [differs, absent])

/-- A leaf may have any size, and a node has at least two subtrees. -/
def Rooted (tree : Tree height) : Prop := height = 0 ∨ 2 ≤ bplusGetSize tree

theorem Proper.rooted (proper : Proper lo tree hi) : Rooted tree :=
  .inr (le_trans (by decide) proper.2.1)

theorem insertIn_inserts (sound : Sound lo tree hi) (rooted : Rooted tree) (above : lo ≤ key)
    (below : key < hi) :
    ∃ newTree, bplusInsertIn key tree = .ok newTree ∧ Sound lo newTree hi ∧
      (∀ other, other ∈ keys newTree ↔ other = key ∨ other ∈ keys tree) ∧
      bplusGetSize tree ≤ bplusGetSize newTree ∧ bplusGetSize newTree ≤ bplusGetSize tree + 1 := by
  induction height generalizing lo hi with
  | zero =>
    obtain ⟨leaf⟩ := tree
    obtain ⟨le, sorted, range⟩ := sound
    have inserts := insertInLeaf2_inserts key leaf.reverse [] (by simpa using sorted) (by simp)
    rw [List.reverse_reverse, List.append_nil] at inserts
    refine ⟨_, rfl, ⟨le, inserts.1, fun other held => ?_⟩, inserts.2⟩
    rcases (inserts.2.1 other).mp held with rfl | held
    · exact ⟨above, below⟩
    · exact range other held
  | succ height ih =>
    obtain ⟨init, last⟩ := tree
    have several : 2 ≤ init.length + 1 := rooted.resolve_left (by simp)
    obtain ⟨before, subTree, after, selected, around, same, bounds⟩ :=
      selectSubTree2_range sound above below
    have length := congrArg List.length same
    rw [length_items, length_items, List.length_reverse, List.length_nil] at length
    obtain ⟨newSubTree, inserted, inside, member, least, most⟩ :=
      ih around.here.1 around.here.rooted bounds.1 bounds.2
    have proper := around.here.2
    -- the keys beside the subtree are not touched
    have contents : ∀ other, other ∈ (items before newSubTree after).flatMap keys ↔
        other = key ∨ other ∈ (items init.reverse last []).flatMap keys := fun other => by
      rw [← same, mem_contents, mem_contents, member, or_assoc]
    rw [bplusInsertIn, bplusSelectSubTree, selected]
    simp only [inserted, bind, Except.bind]
    change ∃ newTree, _ ∧ _ ∧ _ ∧ init.length + 1 ≤ _ ∧ _ ≤ init.length + 1 + 1
    rw [← length]
    have yields : Yields lo (if OverFull newSubTree then
          bplusReorganizeTreeIns newSubTree before after
        else .ok (bplusMkNode before newSubTree after)) hi
        ((items before newSubTree after).flatMap keys)
        (before.length + after.length + 1) (before.length + after.length + 2) := by
      split
      case isTrue large =>
        exact reorganizeTreeIns_yields around.left around.right inside (by omega)
          (by simp only [OverFull] at large; omega)
      case isFalse fits =>
        exact (mkNode_yields (around.replace ⟨inside, by omega, by omega⟩)).mono le_rfl
          (Nat.le_succ _)
    obtain ⟨tree, done, sound, held, sizes⟩ := yields
    exact ⟨tree, done, sound, fun other => held ▸ contents other, sizes⟩

theorem deleteIn_deletes (sound : Sound lo tree hi) (rooted : Rooted tree) (above : lo ≤ key)
    (below : key < hi) :
    ∃ newTree, bplusDeleteIn key tree = .ok newTree ∧ Sound lo newTree hi ∧
      (∀ other, other ∈ keys newTree ↔ other ≠ key ∧ other ∈ keys tree) ∧
      bplusGetSize tree ≤ bplusGetSize newTree + 1 ∧ bplusGetSize newTree ≤ bplusGetSize tree := by
  induction height generalizing lo hi with
  | zero =>
    obtain ⟨leaf⟩ := tree
    obtain ⟨le, sorted, range⟩ := sound
    have nodup : leaf.Nodup := sorted.imp Nat.ne_of_lt
    have erased :=
      deleteInLeaf2_erases leaf leaf.reverse [] nodup (by simp) (List.not_mem_nil (a := key))
    refine ⟨⟨leaf.erase key⟩, congrArg (Except.ok ∘ bplusMkLeaf) erased,
      ⟨le, sorted.sublist List.erase_sublist,
        fun other held => range other (List.mem_of_mem_erase held)⟩,
      fun other => nodup.mem_erase_iff, ?_, ?_⟩
    · change leaf.length ≤ (leaf.erase key).length + 1
      rw [List.length_erase]
      split <;> omega
    · exact List.erase_sublist.length_le
  | succ height ih =>
    obtain ⟨init, last⟩ := tree
    have several : 2 ≤ init.length + 1 := rooted.resolve_left (by simp)
    obtain ⟨before, subTree, after, selected, around, same, bounds⟩ :=
      selectSubTree2_range sound above below
    have length := congrArg List.length same
    rw [length_items, length_items, List.length_reverse, List.length_nil] at length
    obtain ⟨newSubTree, deleted, inside, member, least, most⟩ :=
      ih around.here.1 around.here.rooted bounds.1 bounds.2
    have proper := around.here.2
    -- the key is not beside the subtree, where the keys are not touched
    have contents : ∀ other, other ∈ (items before newSubTree after).flatMap keys ↔
        other ≠ key ∧ other ∈ (items init.reverse last []).flatMap keys := fun other => by
      have beside : other ∈ (others before after).flatMap keys → other ≠ key := fun held same =>
        outside (proper_ranges height) around.left around.right held (same ▸ bounds)
      rw [← same, mem_contents, mem_contents, member]
      tauto
    rw [bplusDeleteIn, bplusSelectSubTree, selected]
    simp only [deleted, bind, Except.bind]
    change ∃ newTree, _ ∧ _ ∧ _ ∧ init.length + 1 ≤ _ + 1 ∧ _ ≤ init.length + 1
    rw [← length]
    have yields : Yields lo (if UnderFilled newSubTree then
          bplusReorganizeTreeDel newSubTree before after
        else .ok (bplusMkNode before newSubTree after)) hi
        ((items before newSubTree after).flatMap keys)
        (before.length + after.length) (before.length + after.length + 1) := by
      split
      case isTrue small =>
        exact reorganizeTreeDel_yields around.left around.right inside (by omega)
          (by simp only [UnderFilled] at small; omega)
      case isFalse fits =>
        exact (mkNode_yields (around.replace ⟨inside, by omega, by omega⟩)).mono
          (Nat.le_succ _) le_rfl
    obtain ⟨tree, done, sound, held, least, most⟩ := yields
    exact ⟨tree, done, sound, fun other => held ▸ contents other, Nat.succ_le_succ least, most⟩

theorem lookupLeaf2_eq (below : List Nat) :
    bplusLookupLeaf2 key below = if key ∈ below then some key else none := by
  induction below with
  | nil => rfl
  | cons k below ih =>
    rw [bplusLookupLeaf2, ih]
    by_cases same : k = key
    · simp [same]
    · simp [same, Ne.symm same]

theorem lookupIn_eq (sound : Sound lo tree hi) (above : lo ≤ key) (below : key < hi) :
    lookupIn key tree = if key ∈ keys tree then some key else none := by
  induction height generalizing lo hi with
  | zero =>
    obtain ⟨leaf⟩ := tree
    rw [lookupIn, lookupLeaf2_eq]
    exact if_congr List.mem_reverse rfl rfl
  | succ height ih =>
    obtain ⟨init, last⟩ := tree
    obtain ⟨before, subTree, after, selected, around, same, bounds⟩ :=
      selectSubTree2_range sound above below
    have inside : key ∈ (items init.reverse last []).flatMap keys ↔ key ∈ keys subTree := by
      rw [← same, mem_contents, or_iff_left fun held =>
        outside (proper_ranges height) around.left around.right held bounds]
    rw [lookupIn, bplusSelectSubTree, selected, ih around.here.1 bounds.1 bounds.2]
    simp only [keys, inside]

theorem lookupFirstIn_head (sound : Sound lo tree hi) (nonempty : 1 ≤ bplusGetSize tree) :
    ∃ key rest, lookupFirstIn tree = .ok key ∧ keys tree = key :: rest := by
  induction height generalizing lo hi with
  | zero =>
    obtain ⟨leaf⟩ := tree
    rcases leaf with _ | ⟨key, rest⟩
    · simp [bplusGetSize] at nonempty
    · exact ⟨key, rest, rfl, rfl⟩
  | succ height ih =>
    obtain ⟨init, last⟩ := tree
    rcases init with _ | ⟨⟨first, k⟩, init⟩
    · obtain ⟨key, rest, found, held⟩ := ih sound.here.1 (le_trans (by decide) sound.here.2.1)
      exact ⟨key, rest, found, by simp [keys, items, held]⟩
    · have proper : ∃ lo hi, Proper lo first hi := by
        have around := sound.left
        rw [List.reverse_cons] at around
        exact ⟨_, _, ((before_append init.reverse).mp around).2.1⟩
      obtain ⟨lo, hi, proper⟩ := proper
      obtain ⟨key, rest, found, held⟩ := ih proper.1 (le_trans (by decide) proper.2.1)
      exact ⟨key, _, found, by simp only [keys, items, List.reverse_reverse, List.map_cons,
        List.cons_append, List.flatMap_cons, held]; rfl⟩

def Root.posTab : Root → PosTab
  | .v => ∅
  | .tree tree => (keys tree).toFinset

/-- The root may have fewer items than a subtree, but is never empty. -/
def Root.WellFormed : Root → Prop
  | .v => True
  | .tree tree => (∃ hi, Sound 0 tree hi) ∧ Rooted tree ∧
    1 ≤ bplusGetSize tree ∧ bplusGetSize tree ≤ maxSize

variable {root : Root}

/-- A key is in the range of a tree whose range is wide enough. -/
theorem Sound.extend (sound : Sound 0 tree hi) (key : Nat) :
    Sound 0 tree (max hi (key + 1)) ∧ key < max hi (key + 1) :=
  ⟨sound.mono (le_max_left _ _), Nat.lt_of_lt_of_le key.lt_succ_self (le_max_right _ _)⟩

theorem bplusInsert_refines (formed : root.WellFormed) (key : Nat) :
    ∃ new, bplusInsert key root = .ok new ∧ new.WellFormed ∧
      new.posTab = Dets.bplusInsert root.posTab key := by
  have most : maxSize = 16 := rfl
  cases root with
  | v =>
    refine ⟨_, rfl, ⟨⟨key + 1, Nat.zero_le _, by simp, by simp⟩, .inl rfl, le_rfl, ?_⟩, ?_⟩
    · exact (by decide : 1 ≤ maxSize)
    · simp [Root.posTab, keys, bplusMkLeaf, Dets.bplusInsert]
  | tree tree =>
    obtain ⟨⟨hi, sound⟩, rooted, nonempty, size⟩ := formed
    obtain ⟨sound, below⟩ := sound.extend key
    obtain ⟨newTree, inserted, newSound, member, least, grown⟩ :=
      insertIn_inserts sound rooted (Nat.zero_le key) below
    have same : (keys newTree).toFinset = Dets.bplusInsert (keys tree).toFinset key := by
      ext other
      simp [Dets.bplusInsert, member]
    simp only [bplusInsert, inserted, bind, Except.bind]
    split
    case isTrue large =>
      simp only [OverFull] at large
      obtain ⟨lTree, dKey, rTree, halves, low, high, contents, lSize, rSize⟩ :=
        split_halves newSound (by omega)
      have fewest : minSize = 8 := rfl
      have around : Around Proper 0 [] lTree [(dKey, rTree)] (max hi (key + 1)) :=
        ⟨trivial, ⟨low, by omega, by omega⟩, ⟨high, by omega, by omega⟩, trivial⟩
      have size : bplusGetSize (bplusMkNode [] lTree [(dKey, rTree)]) = 2 := rfl
      refine ⟨.tree (bplusMkNode [] lTree [(dKey, rTree)]), by rw [halves]; rfl,
        ⟨⟨_, sound_mkNode.mpr around⟩, .inr size.ge, by omega, by omega⟩, ?_⟩
      rw [Root.posTab, keys_mkNode, Root.posTab, ← same, ← contents]
      simp [items]
    case isFalse fits =>
      exact ⟨_, rfl, ⟨⟨_, newSound⟩, rooted.imp id (le_trans · least), nonempty.trans least,
        by omega⟩, same⟩

theorem bplusDelete_refines (formed : root.WellFormed) (key : Nat) :
    ∃ new, bplusDelete key root = .ok new ∧ new.WellFormed ∧
      new.posTab = Dets.bplusDelete root.posTab key := by
  cases root with
  | v => exact ⟨.v, rfl, trivial, rfl⟩
  | @tree height tree =>
    obtain ⟨⟨hi, sound⟩, rooted, nonempty, size⟩ := formed
    obtain ⟨sound, below⟩ := sound.extend key
    obtain ⟨newTree, deleted, newSound, member, least, shrunk⟩ :=
      deleteIn_deletes sound rooted (Nat.zero_le key) below
    have same : (keys newTree).toFinset = Dets.bplusDelete (keys tree).toFinset key := by
      ext other
      simp [Dets.bplusDelete, member]
    refine ⟨shrink newTree, by simp only [bplusDelete, deleted]; rfl, ?_⟩
    simp only [Root.posTab, ← same]
    -- only an empty leaf and a node with one subtree are replaced
    cases height with
    | zero =>
      obtain ⟨leaf⟩ := newTree
      rcases leaf with _ | ⟨first, rest⟩
      · exact ⟨trivial, rfl⟩
      · exact ⟨⟨⟨_, newSound⟩, .inl rfl, Nat.succ_pos _, shrunk.trans size⟩, rfl⟩
    | succ height =>
      obtain ⟨init, last⟩ := newTree
      rcases init with _ | ⟨first, init⟩
      · have proper : Proper 0 last (max hi (key + 1)) := newSound.here
        exact ⟨⟨⟨_, proper.1⟩, proper.rooted, le_trans (by decide) proper.2.1, proper.2.2⟩,
          by simp [shrink, keys, items]⟩
      · exact ⟨⟨⟨_, newSound⟩, .inr (Nat.le_add_left 2 _), Nat.succ_pos _, shrunk.trans size⟩, rfl⟩

theorem bplusLookup_refines (formed : root.WellFormed) (key : Nat) :
    bplusLookup key root = Dets.bplusLookup root.posTab key := by
  cases root with
  | v => simp [bplusLookup, Dets.bplusLookup, Root.posTab]
  | tree tree =>
    obtain ⟨⟨hi, sound⟩, -⟩ := formed
    obtain ⟨sound, below⟩ := sound.extend key
    rw [bplusLookup, lookupIn_eq sound (Nat.zero_le key) below, Dets.bplusLookup]
    exact if_congr List.mem_toFinset.symm rfl rfl

theorem bplusLookupFirst_refines (formed : root.WellFormed) :
    bplusLookupFirst root = .ok (Dets.bplusLookupFirst root.posTab) := by
  cases root with
  | v => simp [bplusLookupFirst, Dets.bplusLookupFirst, Root.posTab]
  | @tree height tree =>
    obtain ⟨⟨hi, sound⟩, -, nonempty, -⟩ := formed
    obtain ⟨key, rest, found, held⟩ := lookupFirstIn_head sound nonempty
    have sorted := (sound_ranges height).sorted sound
    rw [held, List.pairwise_cons] at sorted
    have present : (keys tree).toFinset.Nonempty := ⟨key, by simp [held]⟩
    have first : (keys tree).toFinset.min' present = key := by
      refine le_antisymm (Finset.min'_le _ _ (by simp [held]))
        (Finset.le_min' _ _ _ fun other member => ?_)
      rw [List.mem_toFinset, held] at member
      rcases List.mem_cons.mp member with rfl | later
      · exact le_rfl
      · exact (sorted.1 other later).le
    have least : Dets.bplusLookupFirst (keys tree).toFinset = some key := by
      rw [Dets.bplusLookupFirst, dif_pos present, first]
    rw [bplusLookupFirst, found, Root.posTab, least]
    rfl

inductive Update where
  | insert (key : Nat)
  | delete (key : Nat)

def Update.onTree (root : Root) : Update → Except Failure Root
  | .insert key => bplusInsert key root
  | .delete key => bplusDelete key root

def Update.onSet (posTab : PosTab) : Update → PosTab
  | .insert key => Dets.bplusInsert posTab key
  | .delete key => Dets.bplusDelete posTab key

theorem updates_refine (formed : root.WellFormed) (updates : List Update) :
    ∃ new, updates.foldlM Update.onTree root = .ok new ∧ new.WellFormed ∧
      new.posTab = updates.foldl Update.onSet root.posTab := by
  induction updates generalizing root with
  | nil => exact ⟨root, rfl, formed, rfl⟩
  | cons update updates ih =>
    have step : ∃ new, update.onTree root = .ok new ∧ new.WellFormed ∧
        new.posTab = update.onSet root.posTab := by
      cases update with
      | insert key => exact bplusInsert_refines formed key
      | delete key => exact bplusDelete_refines formed key
    obtain ⟨new, updated, formed, same⟩ := step
    obtain ⟨final, run, formed, final_same⟩ := ih formed
    refine ⟨final, ?_, formed, final_same.trans (congrArg (updates.foldl Update.onSet) same)⟩
    rw [List.foldlM_cons, updated]
    exact run

/-- A tree of the free lists, after any updates of the empty tree, answers as the set
of its keys. -/
theorem bplus_refines_set (updates : List Update) :
    ∃ root posTab, updates.foldlM Update.onTree Root.v = .ok root ∧
      posTab = updates.foldl Update.onSet ∅ ∧ root.WellFormed ∧ root.posTab = posTab ∧
      (∀ key, bplusLookup key root = Dets.bplusLookup posTab key) ∧
      bplusLookupFirst root = .ok (Dets.bplusLookupFirst posTab) := by
  obtain ⟨root, run, formed, same⟩ := updates_refine (show Root.v.WellFormed from trivial) updates
  exact ⟨root, root.posTab, run, same, formed, rfl, bplusLookup_refines formed,
    bplusLookupFirst_refines formed⟩

-- the insertion of 16 splits the root, and the deletion of 0 joins the halves again
example : (((List.range 17).map Update.insert ++ [Update.delete 3, Update.delete 0]).foldlM
    Update.onTree Root.v).toOption.map (bplusLookup 12) = some (some 12) := rfl

end Otp.Dets.Bplus
