import Mathlib
import Otp.Stdlib.GbTreesRefinement

/-! Without deletions a tree of `gb_trees.erl` is never deeper than twice the logarithm of
its size. -/

namespace Otp.GbTrees

open Otp.Library (Sorted runTotal)

variable {Key Value : Type} {cmp : Key → Key → Ordering}
variable {tree tree' : Tree Key Value}

/-- A tree with a node has at most `Size ^ 2` ways down of the greatest length. -/
def Low (tree : Tree Key Value) : Prop :=
  0 < tree.root.levels → 2 ^ tree.root.height ≤ tree.size ^ 2

theorem Low.of_levels (low : Low tree)
    (levels : tree'.root.levels = tree.root.levels) (size : tree'.size = tree.size) :
    Low tree' := by
  simpa only [Low, Node.height, levels, size] using low

theorem low_of_balanced {t : Node Key Value} {count : Nat}
    (balanced : ∀ n, count < 2 ^ n → t.levels ≤ n) :
    Low ⟨count, t⟩ := by
  intro (some : 0 < t.levels)
  by_contra high
  have few : (count : Int) < 2 ^ t.height := by nlinarith
  have shorter := balanced t.height (by exact_mod_cast few)
  simp only [Node.height] at shorter
  omega

theorem low_fromOrddict (built : fromOrddict l = .ok tree) : Low tree := by
  obtain ⟨t, balanced, -, low⟩ := balanceList_eq
  rw [fromOrddict, balanced] at built
  cases built
  exact low_of_balanced low

theorem low_balance (related : Related cmp tree items) (built : balance tree = .ok tree') :
    Low tree' := by
  obtain ⟨t, balanced, -, low⟩ := related.holds.balanceTree
  rw [balance, related.size, balanced] at built
  cases built
  exact low_of_balanced low

theorem Low.map (low : Low tree) (related : Related cmp tree items)
    (mapped : map f tree = .ok tree') : Low tree' := by
  obtain ⟨_, same, -, size, levels⟩ := related.map f
  cases mapped.symm.trans same
  exact low.of_levels levels size

/-- Not a deletion. -/
def TreeOp.Grows : TreeOp cmp Value → Prop
  | .empty | .fromOrddict _ | .insert .. | .update .. | .enter .. | .balance | .map _ => True
  | .delete _ | .deleteAny _ | .takeSmallest | .takeLargest => False

theorem Low.settle (low : Low tree) {outcome : Outcome Key (Tree Key Value)}
    (kept : ∀ tree', outcome = .ok tree' → Low tree') : Low (settle tree outcome).1 := by
  cases outcome with
  | ok tree' => exact kept tree' rfl
  | error => exact low

section

variable [Std.TransCmp cmp]

theorem Low.update (low : Low tree) (related : Related cmp tree items)
    (updated : update cmp key value tree = .ok tree') : Low tree' := by
  have way := related.descent key
  cases found : Library.lookup cmp Prod.fst items key with
  | none =>
    rw [found] at way
    rw [GbTrees.update, way.update_1_missing] at updated
    cases updated
  | some =>
    obtain ⟨_, same, -, size, levels⟩ := related.update key value found
    cases updated.symm.trans same
    exact low.of_levels levels size

theorem Low.insert (low : Low tree) (related : Related cmp tree items)
    (inserted : insert cmp key value tree = .ok tree') : Low tree' := by
  have way := related.descent key
  have size := related.size
  have proper := (related.step (.insert key value)).1.holds.proper
  rw [treeStep, inserted] at proper
  obtain ⟨t, below, final⟩ := bind_eq_ok.mp inserted
  cases final
  intro some
  cases found : Library.lookup cmp Prod.fst items key with
  | some =>
    rw [found] at way
    cases (way.insert_1_found value _).symm.trans below
  | none =>
    rw [found] at way
    obtain ⟨t', same, -, grown⟩ := way.insert_1_missing value _ (mul_self_nonneg (tree.size + 1))
    cases below.symm.trans same
    cases grown with
    | report => exact proper.elim
    | tree t _ outcome =>
      rw [pow_two]
      rcases outcome with shorter | allowed
      · have before := low (Nat.lt_of_lt_of_le some shorter)
        have height : t.height ≤ tree.root.height := Nat.sub_le_sub_right shorter 1
        have power : (2 : Int) ^ t.height ≤ 2 ^ tree.root.height :=
          pow_le_pow_right₀ (by decide) height
        nlinarith
      · exact allowed

theorem Low.step (low : Low tree) (related : Related cmp tree items)
    (op : TreeOp cmp Value) (grows : op.Grows) : Low (treeStep tree op).1 := by
  cases op with
  | empty => exact fun some => absurd some (Nat.lt_irrefl 0)
  | fromOrddict items' => exact low.settle fun tree' built => low_fromOrddict built
  | insert key value => exact low.settle fun tree' inserted => low.insert related inserted
  | update key value => exact low.settle fun tree' updated => low.update related updated
  | enter key value =>
    refine low.settle fun tree' entered => ?_
    obtain ⟨defined, -, entered⟩ := bind_eq_ok.mp entered
    cases defined with
    | true => exact low.update related entered
    | false => exact low.insert related entered
  | balance => exact low.settle fun tree' built => low_balance related built
  | map f => exact low.settle fun tree' mapped => low.map related mapped
  | delete | deleteAny | takeSmallest | takeLargest => exact grows.elim

theorem Low.run (low : Low tree) (related : Related cmp tree items)
    (ops : List (TreeOp cmp Value)) (grow : ∀ op ∈ ops, op.Grows) :
    Low (runTotal treeStep tree ops).1 ∧ (runTotal treeStep tree ops).1.root.Proper := by
  induction ops generalizing tree items with
  | nil => exact ⟨low, related.holds.proper⟩
  | cons op ops ih =>
    obtain ⟨first, others⟩ := List.forall_mem_cons.mp grow
    exact ih (low.step related op first) (related.step op).1 others

/-- A tree that is not empty, made without deletions, is so low that `2 ^ h` is at most the
square of its size, for the `h` edges on its longest way down. -/
theorem grown_trees_are_low (cmp : Key → Key → Ordering) [Std.TransCmp cmp]
    (ops : List (TreeOp cmp Value)) (grow : ∀ op ∈ ops, op.Grows)
    (some : (runTotal treeStep empty ops).1.root ≠ .nil) :
    2 ^ (runTotal treeStep empty ops).1.root.height ≤ (runTotal treeStep empty ops).1.size ^ 2 := by
  have initial : Related cmp (empty : Tree Key Value) [] := ⟨⟨trivial, rfl⟩, rfl, .nil⟩
  have start : Low (empty : Tree Key Value) := fun some => absurd some (Nat.lt_irrefl 0)
  obtain ⟨low, proper⟩ := start.run initial ops grow
  exact low (Nat.pos_of_ne_zero fun none => some ((levels_eq_zero proper).mp none))

theorem grown_trees_are_low_in_order :
    let ops : List (TreeOp compare Nat) :=
      [.fromOrddict ⟨[(1, 10), (2, 20)], by simp [Sorted]; decide⟩, .insert 3 30, .enter 4 40,
        .insert 5 50, .update 5 51, .map fun _ value => value + 1]
    2 ^ (runTotal treeStep (empty : Tree Nat Nat) ops).1.root.height ≤
      (runTotal treeStep empty ops).1.size ^ 2 := by
  refine grown_trees_are_low compare _ ?_ ?_
  · simp [TreeOp.Grows]
  · exact fun none => absurd (congrArg Node.levels none) (by decide +kernel)

end

end Otp.GbTrees
