import Otp.Ets.TreeTraversal

/-! Every table reached by any interleaving of updates and traversals has a
stack that is the path of its top node, and answers traversals in key order. -/

namespace Otp.Ets

open List hiding after
open Otp.Library TreeDbTerm

variable {Key Obj : Type} {order : KeyOrder Key Obj} {tb : DbTableTree Obj}

namespace TreeDbTerm

/-- Rewrite every entry, keeping the shape and the balance fields. -/
def mapEntries (change : Nat × Obj → Nat × Obj) : TreeDbTerm Obj → TreeDbTerm Obj
  | .null => .null
  | .node addr left right balance dbterm =>
    .node (change (addr, dbterm)).1 (left.mapEntries change) (right.mapEntries change) balance
      (change (addr, dbterm)).2

theorem mapEntries_entries (change : Nat × Obj → Nat × Obj) (tree : TreeDbTerm Obj) :
    (tree.mapEntries change).entries = tree.entries.map change := by
  induction tree with
  | null => rfl
  | node addr left right balance dbterm ihLeft ihRight => simp [mapEntries, ihLeft, ihRight]

theorem mapEntries_height {tree : TreeDbTerm Obj} :
    (tree.mapEntries change).height = tree.height := by
  induction tree with
  | null => rfl
  | node addr left right balance dbterm ihLeft ihRight => simp [mapEntries, ihLeft, ihRight]

theorem mapEntries_balanced (change : Nat × Obj → Nat × Obj) (tree : TreeDbTerm Obj)
    (balanced : tree.Balanced) : (tree.mapEntries change).Balanced := by
  induction tree with
  | null => trivial
  | node addr left right balance dbterm ihLeft ihRight =>
    obtain ⟨leftBalanced, rightBalanced, difference, range⟩ := balanced_node.mp balanced
    refine balanced_node.mpr ⟨ihLeft leftBalanced, ihRight rightBalanced, ?_, range⟩
    rw [mapEntries_height, mapEntries_height]
    exact difference

theorem mapEntries_id {tree : TreeDbTerm Obj}
    (unchanged : ∀ entry ∈ tree.entries, change entry = entry) : tree.mapEntries change = tree := by
  induction tree with
  | null => rfl
  | node addr left right balance dbterm ihLeft ihRight =>
    have here := unchanged (addr, dbterm) (by simp)
    rw [mapEntries, here, ihLeft fun entry member => unchanged entry (by simp [member]),
      ihRight fun entry member => unchanged entry (by simp [member])]

end TreeDbTerm

/-- Change the entry under a key only. -/
def changeAt (order : KeyOrder Key Obj) (key : Key) (update : Nat × Obj → Nat × Obj)
    (entry : Nat × Obj) : Nat × Obj :=
  if order.cmp key (order.entryKey entry) = .eq then update entry else entry

theorem overwrite_eq (sorted : Sorted order.cmp order.entryKey tree.entries) :
    overwrite order key update tree = tree.mapEntries (changeAt order key update) := by
  have trans := order.trans
  induction tree with
  | null => rfl
  | node addr left right balance dbterm ihLeft ihRight =>
    have splits := sorted_splits sorted
    obtain ⟨sortedLeft, sortedRest, _⟩ := pairwise_append.mp sorted
    have sortedRight := (pairwise_cons.mp sortedRest).2
    unfold overwrite
    cases compared : order.cmp key (order.getKey dbterm) with
    | lt =>
      have kept : right.mapEntries (changeAt order key update) = right := by
        apply mapEntries_id
        intro entry member
        have less := Std.TransCmp.lt_trans compared (splits.below entry member)
        simp [changeAt, less]
      simp [mapEntries, ihLeft sortedLeft, kept, changeAt, KeyOrder.entryKey, compared]
    | gt =>
      have kept : left.mapEntries (changeAt order key update) = left := by
        apply mapEntries_id
        intro entry member
        have greater := Std.TransCmp.gt_trans compared (splits.above entry member)
        simp [changeAt, greater]
      simp [mapEntries, ihRight sortedRight, kept, changeAt, KeyOrder.entryKey, compared]
    | eq =>
      have around := splits.congr compared
      have keptLeft : left.mapEntries (changeAt order key update) = left := by
        apply mapEntries_id
        intro entry member
        simp [changeAt, around.above entry member]
      have keptRight : right.mapEntries (changeAt order key update) = right := by
        apply mapEntries_id
        intro entry member
        simp [changeAt, around.below entry member]
      simp [mapEntries, keptLeft, keptRight, changeAt, KeyOrder.entryKey, compared]

/-- The frames of a focus after its tree was rewritten. -/
def Frame.mapEntries (change : Nat × Obj → Nat × Obj) (frame : Frame Obj) : Frame Obj :=
  { frame with
    addr := (change (frame.addr, frame.dbterm)).1
    sibling := frame.sibling.mapEntries change
    dbterm := (change (frame.addr, frame.dbterm)).2 }

theorem plug_mapEntries {frames : List (Frame Obj)} : (plug tree frames).mapEntries change =
      plug (tree.mapEntries change) (frames.map (Frame.mapEntries change)) := by
  induction frames generalizing tree with
  | nil => rfl
  | cons frame frames ih =>
    rw [plug, ih, map_cons]
    obtain ⟨dir, addr, sibling, balance, dbterm⟩ := frame
    cases dir <;> rfl

theorem framesBefore_mapEntries {frames : List (Frame Obj)} :
    framesBefore (frames.map (Frame.mapEntries change)) = (framesBefore frames).map change := by
  induction frames with
  | nil => rfl
  | cons frame frames ih =>
    obtain ⟨dir, addr, sibling, balance, dbterm⟩ := frame
    cases dir <;> simp [framesBefore, ih, Frame.mapEntries, mapEntries_entries]

/-- Rewriting objects where they are leaves the cursor on its node. -/
theorem CursorOk.mapEntries (change : Nat × Obj → Nat × Obj)
    (inPlace : ∀ entry, (change entry).1 = entry.1) (cursor : CursorOk root stack) :
    CursorOk (root.mapEntries change) stack := by
  cases cursor with
  | empty => exact .empty
  | @on slot focus same recorded =>
    let moved : Focus Obj :=
      ⟨focus.addr, focus.left.mapEntries change, focus.right.mapEntries change,
      focus.balance, (change focus.entry).2, focus.frames.map (Frame.mapEntries change)⟩
    have root : moved.root = root.mapEntries change := by
      rw [← same, Focus.root, Focus.root, plug_mapEntries]
      have here := inPlace focus.entry
      simp only [Focus.entry] at here
      simp [Focus.node, TreeDbTerm.mapEntries, moved, Focus.entry, here]
    have stack : moved.stack = focus.stack := by
      simp only [Focus.stack, moved, map_map, cons.injEq, true_and]
      apply map_congr_left
      intro frame _
      exact inPlace (frame.addr, frame.dbterm)
    have rank : moved.before.length = focus.before.length := by
      simp [Focus.before, moved, framesBefore_mapEntries, mapEntries_entries]
    rw [← stack]
    exact .on moved root (by rw [rank]; exact recorded)

/-- An address the allocator may return for the object under a key: not that of
another node. -/
def Allocates (order : KeyOrder Key Obj) (tb : DbTableTree Obj) (key : Key) (addr : Nat) : Prop :=
  ∀ entry ∈ tb.root.entries, entry.1 = addr → order.cmp key (order.entryKey entry) = .eq

instance (order : KeyOrder Key Obj) (tb : DbTableTree Obj) (key : Key) (addr : Nat) :
    Decidable (Allocates order tb key addr) :=
  inferInstanceAs (Decidable (∀ entry ∈ tb.root.entries, entry.1 = addr →
    order.cmp key (order.entryKey entry) = .eq))

theorem nodup_insert (obj : Obj)
    (distinct : ((before ++ after : List (Nat × Obj)).map Prod.fst).Nodup)
    (fresh : ∀ entry ∈ before ++ after, entry.1 ≠ addr) :
    ((before ++ (addr, obj) :: after).map Prod.fst).Nodup := by
  have middle : ((before ++ (addr, obj) :: after).map Prod.fst).Perm
      (addr :: (before ++ after).map Prod.fst) := by
    simp only [map_append]
    exact perm_middle
  apply middle.nodup_iff.mpr
  refine nodup_cons.mpr ⟨?_, distinct⟩
  intro member
  obtain ⟨entry, present, same⟩ := mem_map.mp member
  exact fresh entry present same

theorem nodup_remove (distinct : ((before ++ (addr, old) :: after : List (Nat × Obj)).map
    Prod.fst).Nodup) : ((before ++ after).map Prod.fst).Nodup :=
  distinct.sublist (List.Sublist.map _ (by simp))

theorem TableOk.reset (ok : TableOk order tb) : TableOk order (resetStaticStack tb) :=
  ⟨ok.toTreeOk.reset, ok.distinct, .empty⟩

/-- Around an allocation for a key there is no other node at its address. -/
theorem fresh_of_splits (splits : Splits order.cmp order.entryKey key before after)
    (allocates : ∀ entry ∈ before ++ after, entry.1 = addr →
      order.cmp key (order.entryKey entry) = .eq) : ∀ entry ∈ before ++ after, entry.1 ≠ addr := by
  intro entry member same
  have equal := allocates entry member same
  rcases mem_append.mp member with member | member
  · simp [splits.above entry member] at equal
  · simp [splits.below entry member] at equal

theorem put_tableOk (ok : TableOk order tb) (obj : Obj) (keyClashFail : Bool) (addr : Nat)
    (allocates : Allocates order tb (order.getKey obj) addr) :
    ∃ next code, dbPutTree order tb obj keyClashFail addr = some (next, code) ∧
      TableOk order next ∧ next.root.addrs ⊆ addr :: tb.root.addrs := by
  obtain ⟨⟨next, code⟩, success, kept, effect⟩ := dbPutTree_spec ok.toTreeOk obj keyClashFail addr
  refine ⟨next, code, success, ?_⟩
  have distinct := ok.distinct
  cases effect with
  | full splits entries limit => exact ⟨ok.reset, subset_cons_self _ _⟩
  | inserted splits entries limit result =>
    rw [Allocates, entries] at allocates
    rw [addrs, entries] at distinct
    refine ⟨⟨kept, ?_, .empty⟩, ?_⟩
    · simpa [addrs, result] using nodup_insert obj distinct (fresh_of_splits splits allocates)
    · simp [addrs, result, entries]
  | clash entries same fail => exact ⟨ok.reset, subset_cons_self _ _⟩
  | @replaced before addr' old after root entries same replace result =>
    rw [Allocates, entries] at allocates
    rw [addrs, entries] at distinct
    have around : ∀ entry ∈ before ++ after, entry.1 = addr →
        order.cmp (order.getKey obj) (order.entryKey entry) = .eq := by
      intro entry member
      apply allocates
      rcases mem_append.mp member with member | member <;> simp [member]
    refine ⟨⟨kept, ?_, .empty⟩, ?_⟩
    · simpa [addrs, result] using nodup_insert obj (nodup_remove distinct)
        (fresh_of_splits (ok.splits entries same) around)
    · simp [addrs, result, entries, subset_def]
      tauto

theorem linkout_tableOk (ok : TableOk order tb) (key : Key) (accept : Obj → Bool) :
    ∃ next taken, linkout order tb key accept = some (next, taken) ∧ TableOk order next := by
  obtain ⟨⟨next, taken⟩, success, kept, effect⟩ := linkout_spec ok.toTreeOk key accept
  refine ⟨next, taken, success, ?_⟩
  have distinct := ok.distinct
  cases effect with
  | missing | refused => exact ok.reset
  | unlinked entries same accepted result =>
    rw [addrs, entries] at distinct
    exact ⟨kept, by simpa [addrs, result] using nodup_remove distinct, .empty⟩

/-- Rewriting entries without changing keys keeps the tree well formed. -/
theorem TreeOk.mapEntries (ok : TreeOk order tb) (change : Nat × Obj → Nat × Obj)
    (keepsKey : ∀ entry, order.entryKey (change entry) = order.entryKey entry)
    (stack : DbTreeStack) :
    TreeOk order { root := tb.root.mapEntries change, nitems := tb.nitems, staticStack := stack } := by
  refine ⟨mapEntries_balanced change _ ok.balanced, ?_, ?_, ok.room⟩
  · rw [mapEntries_entries]
    refine pairwise_map.mpr (ok.sorted.imp ?_)
    intro first second less
    rwa [keepsKey, keepsKey]
  · rw [mapEntries_entries, length_map]
    exact ok.count

theorem changeAt_key (key : Key) (update : Nat × Obj → Nat × Obj)
    (keepsKey : ∀ entry, order.entryKey (update entry) = order.entryKey entry)
    (entry : Nat × Obj) : order.entryKey (changeAt order key update entry) =
      order.entryKey entry := by
  unfold changeAt
  split
  · exact keepsKey entry
  · rfl

/-- Moving the node of one key to a fresh address keeps addresses distinct. -/
theorem nodup_changeAt (ok : TreeOk order tb) (distinct : tb.root.addrs.Nodup)
    (fresh : addr ∉ tb.root.addrs) {modify : Obj → Obj} :
    ((tb.root.entries.map (changeAt order key fun entry =>
      (addr, modify entry.2))).map Prod.fst).Nodup := by
  have trans := order.trans
  refine pairwise_map.mpr (pairwise_map.mpr ?_)
  have unlike : tb.root.entries.Pairwise fun first second => first.1 ≠ second.1 :=
    pairwise_map.mp distinct
  refine (unlike.and ok.sorted).imp_of_mem ?_
  intro first second firstMember secondMember together
  obtain ⟨different, less⟩ := together
  have firstOld : addr ≠ first.1 := fun same => fresh (mem_map.mpr ⟨first, firstMember, same.symm⟩)
  have secondOld : addr ≠ second.1 :=
    fun same => fresh (mem_map.mpr ⟨second, secondMember, same.symm⟩)
  unfold changeAt
  split
  · rename_i firstSame
    have secondOther : order.cmp key (order.entryKey second) ≠ .eq := by
      rw [Std.TransCmp.lt_of_eq_of_lt firstSame less]
      simp
    simpa [secondOther] using secondOld
  · split
    · exact Ne.symm firstOld
    · exact different

theorem finalize_tableOk (ok : TableOk order tb) (key : Key) (new : Bool)
    (fresh : ∀ addr, update.resize = some addr → addr ∉ tb.root.addrs) :
    ∃ next, dbFinalizeDbtermTree order tb key new update = some next ∧ TableOk order next := by
  unfold dbFinalizeDbtermTree
  by_cases failed : new = true ∧ update.cret ≠ .none
  · obtain ⟨next, taken, success, kept⟩ := linkout_tableOk ok key fun _ => true
    refine ⟨next, ?_, kept⟩
    rw [if_pos failed]
    simp [dbEraseTree, linkoutTree, success]
  · rw [if_neg failed]
    cases moved : update.resize with
    | some addr =>
      refine ⟨_, rfl, ?_⟩
      rw [overwrite_eq ok.sorted]
      have keys := changeAt_key key (fun entry => (addr, update.modify entry.2))
        (fun entry => update.keepsKey entry.2)
      refine ⟨ok.toTreeOk.mapEntries _ keys _, ?_, .empty⟩
      simpa [addrs, mapEntries_entries, resetStaticStack] using
        nodup_changeAt ok.toTreeOk ok.distinct (fresh addr moved)
    | none =>
      refine ⟨_, rfl, ?_⟩
      rw [overwrite_eq ok.sorted]
      have inPlace : ∀ entry : Nat × Obj, (changeAt order key
          (fun entry => (entry.1, update.modify entry.2)) entry).1 = entry.1 := by
        intro entry
        unfold changeAt
        split <;> rfl
      have keys := changeAt_key key (fun entry => (entry.1, update.modify entry.2))
        (fun entry => update.keepsKey entry.2)
      refine ⟨ok.toTreeOk.mapEntries _ keys _, ?_, ok.cursor.mapEntries _ inPlace⟩
      rw [addrs, mapEntries_entries, map_map, show Prod.fst ∘ _ = _ from funext inPlace]
      exact ok.distinct

theorem searchNode_eq (sorted : Sorted order.cmp order.entryKey tree.entries) :
    searchNode order key tree = lookup order.cmp order.entryKey tree.entries key := by
  have trans := order.trans
  induction tree with
  | null => rfl
  | node addr left right balance dbterm ihLeft ihRight =>
    have splits := sorted_splits sorted
    obtain ⟨sortedLeft, sortedRest, _⟩ := pairwise_append.mp sorted
    rw [searchNode, entries_node]
    cases compared : order.cmp key (order.getKey dbterm) with
    | lt =>
      rw [lookup_before, ihLeft sortedLeft]
      exact forall_mem_cons.mpr ⟨compared, fun entry member =>
        Std.TransCmp.lt_trans compared (splits.below entry member)⟩
    | gt =>
      rw [lookup_after fun entry member => Std.TransCmp.gt_trans compared
        (splits.above entry member)]
      simp [Library.lookup, ihRight (pairwise_cons.mp sortedRest).2, KeyOrder.entryKey, compared]
    | eq =>
      rw [(splits.congr compared).lookup_some]
      exact compared

theorem update_tableOk (ok : TableOk order tb)
    {default : Option { obj : Obj // order.getKey obj = key }}
    (allocates : Allocates order tb key addr)
    (fresh : ∀ moved, update.resize = some moved → moved ∉ addr :: tb.root.addrs) :
    ∃ next code answer, dbUpdateTree order tb key default addr update = some (next, code, answer) ∧
      TableOk order next := by
  unfold dbUpdateTree
  cases found : searchNode order key tb.root with
  | some entry =>
    obtain ⟨next, success, kept⟩ := finalize_tableOk ok key false fun moved same =>
      fun member => fresh moved same (mem_cons_of_mem _ member)
    exact ⟨next, update.cret, .none, by simp [success], kept⟩
  | none =>
    cases default with
    | none => exact ⟨tb, .badKey, .none, rfl, ok⟩
    | some obj =>
      obtain ⟨obj, rfl⟩ := obj
      obtain ⟨middle, code, success, kept, known⟩ := put_tableOk ok obj true addr allocates
      cases code with
      | none =>
        obtain ⟨next, finalized, final⟩ := finalize_tableOk kept (order.getKey obj) true
          fun moved same => fun member => fresh moved same (known member)
        exact ⟨next, update.cret, .none, by simp [success, finalized], final⟩
      | sysres => exact ⟨middle, .sysres, .none, by simp [success], kept⟩
      | badKey => exact ⟨middle, .badKey, .none, by simp [success], kept⟩
      | badParam => exact ⟨middle, .badParam, .none, by simp [success], kept⟩
      | unspec => exact ⟨middle, .unspec, .none, by simp [success], kept⟩

theorem readObject_focus (ok : TableOk order tb) (focus : Focus Obj)
    (same : focus.root = tb.root) : readObject tb focus.addr = some focus.dbterm := by
  have reached := focus.deref_addr (same ▸ ok.distinct)
  rw [same] at reached
  simp [readObject, reached, Focus.node]

theorem Focus.mem_objects {focus : Focus Obj} (same : focus.root = tree) :
    focus.dbterm ∈ tree.objects :=
  mem_map.mpr ⟨focus.entry, by simp [← same, focus.root_entries], rfl⟩

/-- The answer of `next`: the least key above the given one, or the end of the table. -/
def LeastAbove (order : KeyOrder Key Obj) (objs : List Obj) (key : Key) : TreeAnswer Key Obj → Prop
  | .endOfTable => ∀ obj ∈ objs, order.cmp key (order.getKey obj) ≠ .lt
  | .key found => order.cmp key found = .lt ∧ (∃ obj ∈ objs, order.getKey obj = found) ∧
      ∀ obj ∈ objs, order.cmp key (order.getKey obj) = .lt →
      order.cmp found (order.getKey obj) ≠ .gt
  | _ => False

/-- The answer of `prev`: the greatest key below the given one, or the end of the table. -/
def GreatestBelow (order : KeyOrder Key Obj) (objs : List Obj) (key : Key) :
    TreeAnswer Key Obj → Prop
  | .endOfTable => ∀ obj ∈ objs, order.cmp key (order.getKey obj) ≠ .gt
  | .key found => order.cmp key found = .gt ∧ (∃ obj ∈ objs, order.getKey obj = found) ∧
      ∀ obj ∈ objs, order.cmp key (order.getKey obj) = .gt →
      order.cmp found (order.getKey obj) ≠ .lt
  | _ => False

theorem next_answer (ok : TableOk order tb) (busy : Bool) (ordinary : isEot key = false) :
    ∃ next answer, dbNextTree order isEot tb key busy = some (next, .none, answer) ∧
      TableOk order next ∧ LeastAbove order tb.root.objects key answer := by
  have trans := order.trans
  obtain ⟨result, success, outcome⟩ := findNext_result ok (ok.any_stack busy) key
  cases outcome with
  | none cursor low =>
    refine ⟨_, .endOfTable, ?_, ok.release busy cursor, ?_⟩
    · simp [dbNextTree, ordinary, success, keyAnswer]
    · exact forall_mem_map.mpr low
  | found focus same cursor low high =>
    refine ⟨_, .key (order.getKey focus.dbterm), ?_, ok.release busy cursor, ?_, ?_, ?_⟩
    · simp [dbNextTree, ordinary, success, keyAnswer, readObject_focus ok focus same]
    · exact high focus.entry (by simp)
    · exact ⟨focus.dbterm, Focus.mem_objects same, rfl⟩
    · refine forall_mem_map.mpr ?_
      intro entry member above
      have sorted := ok.sorted
      rw [← same, focus.root_entries] at sorted member
      rcases mem_append.mp member with member | member
      · exact absurd above (low entry member)
      · rcases mem_cons.mp member with here | member
        · subst here
          have equal : order.cmp (order.getKey focus.dbterm) (order.getKey focus.entry.2) = .eq :=
            Std.ReflCmp.compare_self
          simp [equal]
        · have less := (sorted_splits sorted).below entry member
          simp only [KeyOrder.entryKey, Focus.entry] at less
          simp [less]

theorem prev_answer (ok : TableOk order tb) (ordinary : isEot key = false) :
    ∃ next answer, dbPrevTree order isEot tb key busy = some (next, .none, answer) ∧
      TableOk order next ∧ GreatestBelow order tb.root.objects key answer := by
  have trans := order.trans
  obtain ⟨result, success, outcome⟩ := findPrev_result ok (ok.any_stack busy) key
  cases outcome with
  | none cursor high =>
    refine ⟨_, .endOfTable, ?_, ok.release busy cursor, ?_⟩
    · simp [dbPrevTree, ordinary, success, keyAnswer]
    · exact forall_mem_map.mpr high
  | found focus same cursor low high =>
    refine ⟨_, .key (order.getKey focus.dbterm), ?_, ok.release busy cursor, ?_, ?_, ?_⟩
    · simp [dbPrevTree, ordinary, success, keyAnswer, readObject_focus ok focus same]
    · exact low focus.entry (by simp)
    · exact ⟨focus.dbterm, Focus.mem_objects same, rfl⟩
    · refine forall_mem_map.mpr ?_
      intro entry member below
      have sorted := ok.sorted
      rw [← same, focus.root_entries] at sorted member
      rcases mem_append.mp member with member | member
      · have greater := (sorted_splits sorted).above entry member
        simp only [KeyOrder.entryKey, Focus.entry] at greater
        simp [greater]
      · rcases mem_cons.mp member with here | member
        · subst here
          have equal : order.cmp (order.getKey focus.dbterm) (order.getKey focus.entry.2) = .eq :=
            Std.ReflCmp.compare_self
          simp [equal]
        · exact absurd below (high entry member)

/-- `NITEMS` is exact while the count fits in a C `int`. -/
theorem nitems_small (small : tb.nitems < 2 ^ 31) : nitems tb = tb.nitems := by
  apply Int.bmod_eq_of_le <;> omega

theorem slot_answer (ok : TableOk order tb) (small : tb.nitems < 2 ^ 31) (index : Nat)
    (busy : Bool) (within : index < tb.nitems) :
    ∃ next obj, (dbSlotTree tb (some index) busy : Option (_ × _ × TreeAnswer Key Obj)) =
        some (next, .none, .objects [obj]) ∧
      TableOk order next ∧ tb.root.objects[index]? = some obj := by
  obtain ⟨final, same, rank, success⟩ := slotSearch_reaches ok (ok.any_stack busy)
    (Nat.succ_pos index) (by rw [← ok.count]; exact within)
  refine ⟨_, final.dbterm, ?_, ok.release busy (.on final same (.inr rank.symm)), ?_⟩
  · have inRange : ¬((index : Int) < 0 ∨ (index : Int) > nitems tb) := by
      rw [nitems_small small]
      omega
    have notLast : (index : Int) ≠ nitems tb := by
      rw [nitems_small small]
      omega
    have position : ((index : Int) + 1).toNat = index + 1 := by omega
    rw [dbSlotTree, if_neg inRange, if_neg notLast, position, success]
    simp [Focus.stack, readObject_focus ok final same]
  · have position : final.before.length = index := by omega
    rw [TreeDbTerm.objects, ← same, final.root_entries, ← position]
    simp [Focus.entry]

theorem slot_tableOk (ok : TableOk order tb) (small : tb.nitems < 2 ^ 31) :
    ∃ next code answer, (dbSlotTree tb slotTerm busy : Option (_ × _ × TreeAnswer Key Obj)) =
        some (next, code, answer) ∧ TableOk order next := by
  cases slotTerm with
  | none => exact ⟨tb, .badParam, .none, rfl, ok⟩
  | some slot =>
    by_cases outside : slot < 0 ∨ slot > nitems tb
    · exact ⟨tb, .badParam, .none, by rw [dbSlotTree, if_pos outside], ok⟩
    · by_cases last : slot = nitems tb
      · exact ⟨tb, .none, .endOfTable, by rw [dbSlotTree, if_neg outside, if_pos last], ok⟩
      · rw [nitems_small small] at outside last
        obtain ⟨index, rfl⟩ := Int.eq_ofNat_of_zero_le (by omega : 0 ≤ slot)
        obtain ⟨next, obj, success, kept, _⟩ := slot_answer ok small index busy (by omega)
        exact ⟨next, .none, _, success, kept⟩

theorem first_tableOk (ok : TableOk order tb) :
    ∃ next answer, dbFirstTree order tb busy = some (next, .none, answer) ∧ TableOk order next := by
  by_cases bare : tb.root = .null
  · exact ⟨tb, .endOfTable, by simp [dbFirstTree, bare], ok⟩
  · obtain ⟨first, root, stack, before⟩ := pushLeft_focus tb.root [] bare
    rw [map_nil] at stack
    have cursor : CursorOk tb.root { array := first.stack, slot := 1 } :=
      .on first root (.inr (by simp [before, framesBefore]))
    refine ⟨_, .key (order.getKey first.dbterm), ?_, ok.release busy cursor⟩
    have read := readObject_focus ok first root
    cases shape : tb.root with
    | null => exact absurd shape bare
    | node addr left right balance dbterm =>
      rw [shape] at stack
      simp only [dbFirstTree, shape, ← stack]
      simp [Focus.stack, keyAnswer, read]

/-- `db_last_tree` records the count as the rank of the last node. -/
theorem last_tableOk (ok : TableOk order tb) (small : tb.nitems < 2 ^ 31) :
    ∃ next answer, dbLastTree order tb busy = some (next, .none, answer) ∧ TableOk order next := by
  by_cases bare : tb.root = .null
  · exact ⟨tb, .endOfTable, by simp [dbLastTree, bare], ok⟩
  · obtain ⟨last, root, stack, after⟩ := pushRight_focus tb.root [] bare
    rw [map_nil] at stack
    have length := congrArg length last.root_entries
    rw [root, plug, ← ok.count, after] at length
    have rank : (nitems tb % 2 ^ 64).toNat = last.before.length + 1 := by
      rw [nitems_small small]
      simp only [framesAfter, length_append, length_cons, length_nil] at length
      omega
    have cursor : CursorOk tb.root { array := last.stack, slot := (nitems tb % 2 ^ 64).toNat } :=
      .on last root (.inr rank)
    refine ⟨_, .key (order.getKey last.dbterm), ?_, ok.release busy cursor⟩
    have read := readObject_focus ok last root
    cases shape : tb.root with
    | null => exact absurd shape bare
    | node addr left right balance dbterm =>
      rw [shape] at stack
      simp only [dbLastTree, shape, ← stack]
      simp [Focus.stack, keyAnswer, read]

theorem searchNode_lookup (ok : TreeOk order tb) (key : Key) :
    (searchNode order key tb.root).map Prod.snd =
      lookup order.cmp order.getKey tb.root.objects key := by
  rw [searchNode_eq ok.sorted, TreeDbTerm.objects, lookup_map]
  rfl

theorem findNode_lookup (ok : TableOk order tb) :
    findNode order tb key busy = some (lookup order.cmp order.getKey tb.root.objects key) := by
  have trans := order.trans
  have searched := searchNode_lookup ok.toTreeOk key
  rw [← searched]
  have cursor := ok.cursor
  generalize stacked : tb.staticStack = stack at cursor
  cases busy with
  | true => simp [findNode]
  | false =>
    cases cursor with
    | empty => simp [findNode, stacked]
    | on focus same recorded =>
      have read := readObject_focus ok focus same
      by_cases equal : order.cmp key (order.getKey focus.dbterm) = .eq
      · have here : lookup order.cmp order.getKey tb.root.objects key = some focus.dbterm := by
          exact ok.toTreeOk.distinct.lookup_eq_some_iff.mpr ⟨Focus.mem_objects same, equal⟩
        rw [searched, here]
        simp [findNode, stacked, Focus.stack, read, equal]
      · simp [findNode, stacked, Focus.stack, read, equal]

theorem get_answer (ok : TableOk order tb) : dbGetTree order tb key busy = some (tb, .none,
      .objects (lookup order.cmp order.getKey tb.root.objects key).toList) := by
  simp [dbGetTree, findNode_lookup ok]

/-- The addresses from the node at `target` up to the root. -/
def pathTo (target : Nat) : TreeDbTerm Obj → Option (List Nat)
  | .null => none
  | .node addr left right _ _ =>
    if addr = target then some [addr]
    else ((pathTo target left).or (pathTo target right)).map (· ++ [addr])

/-- The rank in key order, from one, of the node at an address. -/
def rankOf (target : Nat) (root : TreeDbTerm Obj) : Nat := root.addrs.idxOf target + 1

/-- A non-empty stack is the path of its top node, and a slot that is not zero
is the rank of that node. -/
def StackOk (tb : DbTableTree Obj) : Prop :=
  ∀ top rest, tb.staticStack.array = top :: rest → pathTo top tb.root = some (top :: rest) ∧
      (tb.staticStack.slot ≠ 0 → tb.staticStack.slot = rankOf top tb.root)

theorem pathTo_none {tree : TreeDbTerm Obj} (absent : target ∉ tree.addrs) :
    pathTo target tree = none := by
  induction tree with
  | null => rfl
  | node addr left right balance dbterm ihLeft ihRight =>
    simp only [addrs, entries_node, map_append, map_cons, mem_append, mem_cons, not_or] at absent
    obtain ⟨notLeft, notHere, notRight⟩ := absent
    simp [pathTo, Ne.symm notHere, ihLeft notLeft, ihRight notRight]

theorem pathTo_attach (frame : Frame Obj) (child : TreeDbTerm Obj)
    (distinct : (frame.attach child).addrs.Nodup) (present : target ∈ child.addrs)
    (found : pathTo target child = some path) :
    pathTo target (frame.attach child) = some (path ++ [frame.addr]) := by
  obtain ⟨other, absent⟩ := attach_apart distinct present
  obtain ⟨dir, addr, sibling, balance, dbterm⟩ := frame
  cases dir with
  | left => simp [Frame.attach, pathTo, other, found]
  | right => simp [Frame.attach, pathTo, other, pathTo_none absent, found]

theorem pathTo_plug (tree : TreeDbTerm Obj) (frames : List (Frame Obj))
    (distinct : (plug tree frames).addrs.Nodup) (present : target ∈ tree.addrs)
    (found : pathTo target tree = some path) :
    pathTo target (plug tree frames) = some (path ++ frames.map Frame.addr) := by
  induction frames generalizing tree path with
  | nil => simpa [plug] using found
  | cons frame frames ih =>
    have level := plug_addrs_nodup frame tree frames distinct
    have higher : target ∈ (frame.attach tree).addrs := by
      obtain ⟨dir, addr, sibling, balance, dbterm⟩ := frame
      have inside : target ∈ tree.entries.map Prod.fst := present
      cases dir <;> simp [Frame.attach, addrs, -mem_map, inside]
    have further :=
      ih (frame.attach tree) distinct higher (pathTo_attach frame tree level present found)
    simpa [plug] using further

theorem TableOk.stackOk (ok : TableOk order tb) : StackOk tb := by
  intro top rest shape
  have cursor := ok.cursor
  have distinct := ok.distinct
  generalize stacked : tb.staticStack = stack at cursor shape
  cases cursor with
  | empty => cases shape
  | @on slot focus same recorded =>
    obtain ⟨rfl, rfl⟩ := shape
    constructor
    · rw [← same] at distinct ⊢
      have here : pathTo focus.addr focus.node = some [focus.addr] := by simp [Focus.node, pathTo]
      have present : focus.addr ∈ focus.node.addrs := by simp [Focus.node, addrs]
      simpa [Focus.root] using pathTo_plug focus.node focus.frames distinct present here
    · intro set
      rw [recorded.resolve_left set, rankOf, addrs, ← same, focus.root_entries]
      have apart : focus.addr ∉ focus.before.map Prod.fst := by
        rw [← same, addrs, focus.root_entries, map_append] at distinct
        intro member
        exact (nodup_append.mp distinct).2.2 _ member focus.addr (by simp [Focus.entry]) rfl
      rw [map_append, idxOf_append_of_notMem apart]
      simp [Focus.entry]

/-- The operations on one table. `busy` means that another reader has the
static stack; `addr` is where an allocation goes. -/
inductive TableOp (order : KeyOrder Key Obj) where
  | put (obj : Obj) (keyClashFail : Bool) (addr : Nat)
  | erase (key : Key)
  | eraseObject (object : Obj)
  | take (key : Key)
  | first (busy : Bool)
  | last (busy : Bool)
  | next (key : Key) (busy : Bool)
  | prev (key : Key) (busy : Bool)
  | slot (slotTerm : Option Int) (busy : Bool)
  | lookup (key : Key) (busy : Bool)
  | update (key : Key) (default : Option { obj : Obj // order.getKey obj = key }) (addr : Nat)
      (update : DbUpdate order)

def tableStep [DecidableEq Obj] (order : KeyOrder Key Obj) (isEot : Key → Bool)
    (tb : DbTableTree Obj) : TableOp order → Option (DbTableTree Obj × DbError × TreeAnswer Key Obj)
  | .put obj keyClashFail addr => do
    let (tb, code) ← dbPutTree order tb obj keyClashFail addr
    some (tb, code, .none)
  | .erase key => do
    let (tb, code) ← dbEraseTree order tb key
    some (tb, code, .none)
  | .eraseObject object => do
    let (tb, code) ← dbEraseObjectTree order tb object
    some (tb, code, .none)
  | .take key => do
    let (tb, code, objs) ← dbTakeTree order tb key
    some (tb, code, .objects objs)
  | .first busy => dbFirstTree order tb busy
  | .last busy => dbLastTree order tb busy
  | .next key busy => dbNextTree order isEot tb key busy
  | .prev key busy => dbPrevTree order isEot tb key busy
  | .slot slotTerm busy => dbSlotTree tb slotTerm busy
  | .lookup key busy => dbGetTree order tb key busy
  | .update key default addr update => dbUpdateTree order tb key default addr update

/-- What the allocator promises: a new node does not share its address with
another node of the table. -/
def AllocationOk (order : KeyOrder Key Obj) (tb : DbTableTree Obj) : TableOp order → Prop
  | .put obj _ addr => Allocates order tb (order.getKey obj) addr
  | .update key _ addr update => Allocates order tb key addr ∧
      ∀ moved, update.resize = some moved → moved ∉ addr :: tb.root.addrs
  | _ => True

/-- `last` and `slot` read the count as a C `int`. -/
def CountFits (tb : DbTableTree Obj) : TableOp order → Prop
  | .last _ => tb.nitems < 2 ^ 31
  | .slot _ _ => tb.nitems < 2 ^ 31
  | _ => True

/-- The tables reached from the empty one by any operations in any order. -/
inductive Reachable [DecidableEq Obj] (order : KeyOrder Key Obj) (isEot : Key → Bool) :
    DbTableTree Obj → Prop where
  | create : Reachable order isEot dbCreateTree
  | step {tb next : DbTableTree Obj} (earlier : Reachable order isEot tb) (op : TableOp order)
      (allocation : AllocationOk order tb op) (fits : CountFits tb op)
      (success : tableStep order isEot tb op = some (next, code, answer)) :
      Reachable order isEot next

/-- No operation on a good table reads a dangling pointer, and the table stays good. -/
theorem tableStep_ok [DecidableEq Obj] (isEot : Key → Bool) (ok : TableOk order tb)
    (allocation : AllocationOk order tb op) (fits : CountFits tb op) :
    ∃ next code answer, tableStep order isEot tb op = some (next, code, answer) ∧
    TableOk order next := by
  cases op with
  | put obj keyClashFail addr =>
    obtain ⟨next, code, success, kept, _⟩ := put_tableOk ok obj keyClashFail addr allocation
    exact ⟨next, code, .none, by simp [tableStep, success], kept⟩
  | erase key =>
    obtain ⟨next, taken, success, kept⟩ := linkout_tableOk ok key fun _ => true
    exact ⟨next, .none, .none, by simp [tableStep, dbEraseTree, linkoutTree, success], kept⟩
  | eraseObject object =>
    obtain ⟨next, taken, success, kept⟩ := linkout_tableOk ok (order.getKey object)
      fun dbterm => decide (object = dbterm)
    exact ⟨next, .none, .none, by simp [tableStep, dbEraseObjectTree, linkoutObjectTree, success],
      kept⟩
  | take key =>
    obtain ⟨next, taken, success, kept⟩ := linkout_tableOk ok key fun _ => true
    exact ⟨next, .none, .objects taken.toList,
      by simp [tableStep, dbTakeTree, linkoutTree, success], kept⟩
  | first busy =>
    obtain ⟨next, answer, success, kept⟩ := first_tableOk ok
    exact ⟨next, .none, answer, success, kept⟩
  | last busy =>
    obtain ⟨next, answer, success, kept⟩ := last_tableOk ok fits
    exact ⟨next, .none, answer, success, kept⟩
  | next key busy =>
    cases ordinary : isEot key with
    | true => exact ⟨tb, .badKey, .none, by simp [tableStep, dbNextTree, ordinary], ok⟩
    | false =>
      obtain ⟨next, answer, success, kept, _⟩ := next_answer ok busy ordinary
      exact ⟨next, .none, answer, success, kept⟩
  | prev key busy =>
    cases ordinary : isEot key with
    | true => exact ⟨tb, .badKey, .none, by simp [tableStep, dbPrevTree, ordinary], ok⟩
    | false =>
      obtain ⟨next, answer, success, kept, _⟩ := prev_answer ok ordinary
      exact ⟨next, .none, answer, success, kept⟩
  | slot slotTerm busy => exact slot_tableOk ok fits
  | lookup key busy => exact ⟨tb, .none, _, get_answer ok, ok⟩
  | update key default addr update => exact update_tableOk ok allocation.1 allocation.2

theorem Reachable.tableOk [DecidableEq Obj] (reachable : Reachable order isEot tb) :
    TableOk order tb := by
  induction reachable with
  | create => exact ⟨dbCreateTree_ok order, nodup_nil, .empty⟩
  | step earlier op allocation fits success ih =>
    obtain ⟨next, code, answer, expected, kept⟩ := tableStep_ok isEot ih allocation fits
    rw [success] at expected
    cases expected
    exact kept

/-- The cached stack is never stale: in every reachable table it is the path of
its top node, with the right rank if one is recorded. So `next` and `prev` of
any key but `'$end_of_table'`, which is refused, answer by key order, `slot` by
position, and no operation reads a node that is gone. -/
theorem stack_never_stale [DecidableEq Obj] {isEot : Key → Bool}
    (reachable : Reachable order isEot tb) :
    StackOk tb ∧ Sorted order.cmp order.getKey tb.root.objects ∧
      (∀ op, AllocationOk order tb op → CountFits tb op →
        (tableStep order isEot tb op).isSome = true) ∧
      (∀ key busy, isEot key = false → ∃ next answer,
        dbNextTree order isEot tb key busy = some (next, .none, answer) ∧
          LeastAbove order tb.root.objects key answer) ∧
      (∀ key busy, isEot key = false → ∃ next answer,
        dbPrevTree order isEot tb key busy = some (next, .none, answer) ∧
          GreatestBelow order tb.root.objects key answer) ∧
      (∀ key busy, isEot key = true → dbNextTree order isEot tb key busy =
        some (tb, .badKey, .none) ∧
          dbPrevTree order isEot tb key busy = some (tb, .badKey, .none)) ∧
      ∀ (index : Nat) (busy : Bool), tb.nitems < 2 ^ 31 → index < tb.root.objects.length →
        ∃ next obj, (dbSlotTree tb (some index) busy : Option (_ × _ × TreeAnswer Key Obj)) =
          some (next, .none, .objects [obj]) ∧ tb.root.objects[index]? = some obj := by
  have ok := reachable.tableOk
  refine ⟨ok.stackOk, pairwise_map.mpr ok.sorted, ?_, ?_, ?_, ?_, ?_⟩
  · intro op allocation fits
    obtain ⟨next, code, answer, success, _⟩ := tableStep_ok isEot ok allocation fits
    simp [success]
  · intro key busy ordinary
    obtain ⟨next, answer, success, _, least⟩ := next_answer ok busy ordinary
    exact ⟨next, answer, success, least⟩
  · intro key busy ordinary
    obtain ⟨next, answer, success, _, greatest⟩ := prev_answer ok ordinary
    exact ⟨next, answer, success, greatest⟩
  · intro key busy refused
    simp [dbNextTree, dbPrevTree, refused]
  · intro index busy small within
    rw [TreeDbTerm.objects, length_map, ← ok.count] at within
    obtain ⟨next, obj, success, _, position⟩ := slot_answer ok small index busy within
    exact ⟨next, obj, success, position⟩

/-- The table with the keys `0, …, count - 1` is reachable. -/
theorem fill_reachable (isEot : Nat → Bool) (count : Nat) (room : count < treeMaxElements) :
    ∃ tb, Reachable natOrder isEot tb ∧ tb.nitems = count ∧
      ∀ entry ∈ tb.root.entries, entry.1 < count ∧ entry.2 < count := by
  induction count with
  | zero => exact ⟨dbCreateTree, .create, rfl, by simp [dbCreateTree]⟩
  | succ count ih =>
    obtain ⟨tb, reachable, size, bounded⟩ := ih (by omega)
    have ok := reachable.tableOk.toTreeOk
    obtain ⟨⟨next, code⟩, success, _, effect⟩ := dbPutTree_spec ok count false count
    have larger : ∀ entry ∈ tb.root.entries,
      natOrder.cmp count (natOrder.getKey entry.2) ≠ .eq := by
      intro entry member
      have less := (bounded entry member).2
      simp only [natOrder, id, ne_eq, Nat.compare_eq_eq]
      omega
    have stepped : tableStep natOrder isEot tb (.put count false count) =
        some (next, code, .none) := by simp [tableStep, success]
    refine ⟨next, reachable.step (.put count false count) ?_ trivial stepped, ?_⟩
    · intro entry member clash
      have less := (bounded entry member).1
      omega
    cases effect with
    | full splits entries limit => omega
    | inserted splits entries limit result =>
      refine ⟨by simp [size], ?_⟩
      intro entry member
      simp only [result, mem_append, mem_cons] at member
      rw [entries] at bounded
      rcases member with member | rfl | member
      · have less := bounded entry (by simp [member])
        omega
      · simp
      · have less := bounded entry (by simp [member])
        omega
    | clash entries same fail => cases fail
    | @replaced before addr old after root entries same replace result =>
      exact absurd same (larger (addr, old) (by simp [entries]))

/-- After `put` of 1, 2 and 3, `last` leaves the path to 3 on the stack, and the
table still answers by key order. -/
theorem stack_fresh_after_last : ∃ tb : DbTableTree Nat, tb.staticStack = ⟨[3, 2], 3⟩ ∧ StackOk tb ∧
      ∃ next answer, dbNextTree natOrder (· == 0) tb 2 false = some (next, .none, answer) ∧
        LeastAbove natOrder tb.root.objects 2 answer := by
  have one : Reachable natOrder (· == 0) _ := Reachable.create.step (.put 1 false 1)
    (show Allocates natOrder _ 1 1 by decide) trivial rfl
  have two := one.step (.put 2 false 2) (show Allocates natOrder _ 2 2 by decide) trivial rfl
  have three := two.step (.put 3 false 3) (show Allocates natOrder _ 3 3 by decide) trivial rfl
  have moved := three.step (.last false) trivial (show 3 < 2 ^ 31 by decide) rfl
  have fresh := stack_never_stale moved
  exact ⟨_, by decide +kernel, fresh.1, fresh.2.2.2.1 2 false rfl⟩

theorem nitems_negative (large : 2 ^ 31 ≤ tb.nitems) (room : tb.nitems < treeMaxElements) :
    nitems tb < 0 := by
  rw [treeMaxElements] at room
  unfold nitems
  rw [Int.bmod_def]
  split <;> omega

/-- Two exceptions to the answers by key order. `next` refuses `'$end_of_table'`
(here 0) although the key 1 is above it. With `2 ^ 31` objects the count reads
as a negative `int`, and `slot` refuses every position. -/
theorem traversal_exceptions : (∃ tb, Reachable natOrder (· == 0) tb ∧ tb.root.objects = [1] ∧
      dbNextTree natOrder (· == 0) tb 0 false = some (tb, .badKey, .none)) ∧
    ∃ tb, Reachable natOrder (· == 0) tb ∧ tb.root.objects.length = 2 ^ 31 ∧
      (dbSlotTree tb (some 0) false : Option (_ × _ × TreeAnswer Nat Nat)) =
        some (tb, .badParam, .none) := by
  constructor
  · have one : Reachable natOrder (· == 0) _ := Reachable.create.step (.put 1 false 1)
      (show Allocates natOrder _ 1 1 by decide) trivial rfl
    exact ⟨_, one, rfl, rfl⟩
  · obtain ⟨tb, reachable, size, _⟩ := fill_reachable (· == 0) (2 ^ 31) (by simp [treeMaxElements])
    refine ⟨tb, reachable, ?_, ?_⟩
    · rw [TreeDbTerm.objects, length_map, ← reachable.tableOk.count, size]
    · have negative := nitems_negative size.ge reachable.tableOk.room
      simp only [dbSlotTree, negative, or_true, if_true]

end Otp.Ets
