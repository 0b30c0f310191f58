import Mathlib.Data.List.Flatten
import Mathlib.Order.Basic

/-! Items with keys between them, opened at one item: the items before it with the
keys on their right, the nearest first, and the items after it with the keys on
their left. Each item is responsible for the range between its two keys. -/

namespace Otp.Library.Separated

variable {Item Key : Type} {before : List (Item × Key)} {after : List (Key × Item)}

def items (before : List (Item × Key)) (item : Item) (after : List (Key × Item)) : List Item :=
  before.reverse.map Prod.fst ++ item :: after.map Prod.snd

/-- Moves to the last item. -/
def close : List (Item × Key) → Item → List (Key × Item) → List (Item × Key) × Item
  | before, item, [] => (before.reverse, item)
  | before, item, (key, next) :: after => close ((item, key) :: before) next after

/-- The lower end of the range of the item behind `before`. -/
def low (lo : Key) : List (Item × Key) → Key
  | [] => lo
  | (_, key) :: _ => key

def high (hi : Key) : List (Key × Item) → Key
  | [] => hi
  | (key, _) :: _ => key

theorem items_move (before : List (Item × Key)) (first second : Item) (key : Key)
    (after : List (Key × Item)) :
    items ((first, key) :: before) second after = items before first ((key, second) :: after) := by
  simp [items]

theorem mem_items {other : Item} : other ∈ items before item after ↔
    (∃ entry ∈ before, entry.1 = other) ∨ other = item ∨ ∃ entry ∈ after, entry.2 = other := by
  simp [items]

/-- All items but the opened one. -/
def others (before : List (Item × Key)) (after : List (Key × Item)) : List Item :=
  before.map Prod.fst ++ after.map Prod.snd

theorem mem_contents {contents : Item → List Key} :
    key ∈ (items before item after).flatMap contents ↔
      key ∈ contents item ∨ key ∈ (others before after).flatMap contents := by
  simp only [items, others, List.map_reverse, List.flatMap_append, List.flatMap_cons,
    List.mem_append, List.mem_flatMap, List.mem_reverse]
  exact or_left_comm

theorem items_close (before : List (Item × Key)) (item : Item) (after : List (Key × Item)) :
    items (close before item after).1.reverse (close before item after).2 [] =
      items before item after := by
  induction after generalizing before item with
  | nil => simp [close]
  | cons entry after ih => rw [close, ih, items_move]

theorem length_items : (items before item after).length = before.length + after.length + 1 := by
  simp only [items, List.length_append, List.length_map, List.length_reverse, List.length_cons]
  omega

variable (within : Key → Item → Key → Prop)

def Before (lo : Key) : List (Item × Key) → Prop
  | [] => True
  | (item, key) :: before => within (low lo before) item key ∧ Before lo before

def After (hi : Key) : List (Key × Item) → Prop
  | [] => True
  | (key, item) :: after => within key item (high hi after) ∧ After hi after

/-- Every item is within its range. -/
structure Around (lo : Key) (before : List (Item × Key)) (item : Item) (after : List (Key × Item))
    (hi : Key) : Prop where
  left : Before within lo before
  here : within (low lo before) item (high hi after)
  right : After within hi after

variable {within} {lo hi : Key} {item : Item}

theorem around_move : Around within lo ((first, key) :: before) second after hi ↔
    Around within lo before first ((key, second) :: after) hi :=
  ⟨fun ⟨⟨inside, left⟩, here, right⟩ => ⟨left, inside, here, right⟩,
    fun ⟨left, inside, here, right⟩ => ⟨⟨inside, left⟩, here, right⟩⟩

theorem around_close (before : List (Item × Key)) (item : Item) (after : List (Key × Item)) :
    Around within lo (close before item after).1.reverse (close before item after).2 [] hi ↔
      Around within lo before item after hi := by
  induction after generalizing before item with
  | nil => simp [close]
  | cons entry after ih => rw [close, ih, around_move]

theorem low_append (later : List (Item × Key)) :
    low lo (later ++ (item, key) :: before) = low key later := by
  cases later <;> rfl

theorem before_append (later : List (Item × Key)) :
    Before within lo (later ++ (item, key) :: before) ↔
      Before within key later ∧ within (low lo before) item key ∧ Before within lo before := by
  induction later with
  | nil => simp [Before]
  | cons entry later ih =>
    rw [List.cons_append, Before, Before, ih, low_append, and_assoc]

theorem Around.replace (around : Around within lo before item after hi)
    (inside : within (low lo before) other (high hi after)) :
    Around within lo before other after hi :=
  ⟨around.left, inside, around.right⟩

section

variable [Preorder Key]

/-- The contents of an item within a range are sorted and lie in the range. -/
structure Ranges (within : Key → Item → Key → Prop) (contents : Item → List Key) : Prop where
  le {least limit : Key} {other : Item} : within least other limit → least ≤ limit
  range {least limit key : Key} {other : Item} :
    within least other limit → key ∈ contents other → least ≤ key ∧ key < limit
  sorted {least limit : Key} {other : Item} :
    within least other limit → (contents other).Pairwise (· < ·)

variable {contents : Item → List Key} (ranges : Ranges within contents)

include ranges

theorem Before.le (left : Before within lo before) : lo ≤ low lo before := by
  induction before with
  | nil => exact le_rfl
  | cons entry before ih => exact (ih left.2).trans (ranges.le left.1)

theorem After.le (right : After within hi after) : high hi after ≤ hi := by
  induction after with
  | nil => exact le_rfl
  | cons entry after ih => exact (ranges.le right.1).trans (ih right.2)

theorem Around.le (around : Around within lo before item after hi) : lo ≤ hi :=
  (around.left.le ranges).trans ((ranges.le around.here).trans (around.right.le ranges))

theorem Before.range (left : Before within lo before) (present : entry ∈ before)
    (held : key ∈ contents entry.1) : lo ≤ key ∧ key < low lo before := by
  induction before with
  | nil => cases present
  | cons nearest before ih =>
    cases present with
    | head =>
      have inside := ranges.range left.1 held
      exact ⟨(left.2.le ranges).trans inside.1, inside.2⟩
    | tail _ present =>
      have inside := ih left.2 present
      exact ⟨inside.1, inside.2.trans_le (ranges.le left.1)⟩

theorem After.range (right : After within hi after) (present : entry ∈ after)
    (held : key ∈ contents entry.2) : high hi after ≤ key ∧ key < hi := by
  induction after with
  | nil => cases present
  | cons nearest after ih =>
    cases present with
    | head =>
      have inside := ranges.range right.1 held
      exact ⟨inside.1, inside.2.trans_le (right.2.le ranges)⟩
    | tail _ present =>
      have inside := ih right.2 present
      exact ⟨(ranges.le right.1).trans inside.1, inside.2⟩

theorem Around.range (around : Around within lo before item after hi)
    (held : key ∈ (items before item after).flatMap contents) : lo ≤ key ∧ key < hi := by
  obtain ⟨other, present, inItem⟩ := List.mem_flatMap.mp held
  rcases mem_items.mp present with ⟨entry, beside, rfl⟩ | rfl | ⟨entry, beside, rfl⟩
  · have inside := around.left.range ranges beside inItem
    exact ⟨inside.1, inside.2.trans_le ((ranges.le around.here).trans (around.right.le ranges))⟩
  · have inside := ranges.range around.here inItem
    exact ⟨(around.left.le ranges).trans inside.1, inside.2.trans_le (around.right.le ranges)⟩
  · have inside := around.right.range ranges beside inItem
    exact ⟨((around.left.le ranges).trans (ranges.le around.here)).trans inside.1, inside.2⟩

theorem outside (left : Before within lo before) (right : After within hi after)
    (held : key ∈ (others before after).flatMap contents) :
    ¬(low lo before ≤ key ∧ key < high hi after) := by
  rintro ⟨above, below⟩
  obtain ⟨other, present, inItem⟩ := List.mem_flatMap.mp held
  rcases List.mem_append.mp present with beside | beside
  · obtain ⟨entry, held, rfl⟩ := List.mem_map.mp beside
    exact absurd above (left.range ranges held inItem).2.not_ge
  · obtain ⟨entry, held, rfl⟩ := List.mem_map.mp beside
    exact absurd (right.range ranges held inItem).1 below.not_ge

theorem Around.sorted (around : Around within lo before item after hi) :
    ((items before item after).flatMap contents).Pairwise (· < ·) := by
  -- moved to the first item, every item is followed by those after it only
  induction before generalizing item after with
  | nil =>
    induction after generalizing lo item with
    | nil => simpa [items] using ranges.sorted around.here
    | cons entry after ih =>
      obtain ⟨-, inside, here, right⟩ := around
      have later : Around within entry.1 [] entry.2 after hi := ⟨trivial, here, right⟩
      rw [show items [] item (entry :: after) = item :: items [] entry.2 after from rfl,
        List.flatMap_cons, List.pairwise_append]
      refine ⟨ranges.sorted inside, ih later, fun first held second held' => ?_⟩
      exact (ranges.range inside held).2.trans_le (later.range ranges held').1
  | cons entry before ih =>
    rw [items_move]
    exact ih (around_move.mp around)

end

end Otp.Library.Separated
