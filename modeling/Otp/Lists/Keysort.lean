import Otp.Lists.SortCorrect

/-! `keysort/2` sorts by the elements at a position, but it may have turned the
leading tuples first. -/

namespace Otp.Lists

open List
open Otp.Library
open TotalPreorder hiding le

variable {Term : Type} {i : Nat} {order : TotalPreorder Term}

/-- Tuples by their elements at the position. -/
def onElement (order : TotalPreorder Term) : TotalPreorder (Tuple Term i) := order.comap element

/-- Tuples by the elements that are passed along with them. -/
def onKey (order : TotalPreorder Term) : TotalPreorder (Term × Tuple Term i) := order.comap Prod.fst

/-- The element passed along compares equal to that of the tuple. -/
def Coherent (order : TotalPreorder Term) (x : Term × Tuple Term i) : Prop :=
  order.same x.1 (element x.2) = true

theorem coherent_keyed (x : Tuple Term i) : Coherent order (keyed x) := order.same_refl _

theorem onKey_le (coherent : Coherent order x) (coherent' : Coherent order y)
    (below : (onKey order).le x y = true) : (onElement order).le x.2 y.2 = true := by
  obtain ⟨-, down⟩ := Bool.and_eq_true_iff.mp coherent
  obtain ⟨up, -⟩ := Bool.and_eq_true_iff.mp coherent'
  exact order.trans _ _ _ down (order.trans _ _ _ below up)

theorem onElement_same {item : Tuple Term i} (coherent : Coherent order x) :
    (onElement order).same item x.2 = (onKey order).same (keyed item) x := by
  have there : order.same x.1 (element x.2) = true := coherent
  have back : order.same (element x.2) x.1 = true := (order.same_comm _ _).trans coherent
  rw [Bool.eq_iff_iff]
  show order.same (element item) (element x.2) = true ↔ order.same (element item) x.1 = true
  exact ⟨fun same => same_trans same back,
    fun same => same_trans same there⟩

theorem Coherent.sameOrder (coherent : ∀ x ∈ second, Coherent order x)
    (kept : (onKey order).SameOrder first second) : (onElement order).SameOrder (first.map Prod.snd)
      (second.map Prod.snd) :=
  kept.map Prod.snd keyed fun _ x member => onElement_same (coherent x member)

theorem Coherent.up {run : List (Term × Tuple Term i)}
    (coherent : ∀ x ∈ run, Coherent order x) (up : Up (onKey order) run) :
    Up (onElement order) (run.map Prod.snd) := by
  refine ⟨by simpa using up.1, pairwise_map.mpr ?_⟩
  exact up.2.imp_of_mem fun here there below => onKey_le (coherent _ here) (coherent _ there) below

theorem Coherent.down {run : List (Term × Tuple Term i)}
    (coherent : ∀ x ∈ run, Coherent order x) (down : Down (onKey order) run) :
    Down (onElement order) (run.map Prod.snd) := by
  refine ⟨by simpa using down.1, pairwise_map.mpr ?_⟩
  exact down.2.imp_of_mem fun here there below =>
    onKey_le (coherent _ there) (coherent _ here) below

@[simp] theorem keyed_snd {x : Tuple Term i} : (keyed x).2 = x := rfl

theorem coherent_input (coherent : Coherent order x) (coherent' : Coherent order y)
    (l r : List (Tuple Term i)) :
    ∀ z ∈ (r.map keyed).reverse ++ x :: y :: l.map keyed, Coherent order z := by
  have keys (items : List (Tuple Term i)) : ∀ z ∈ items.map keyed, Coherent order z :=
    forall_mem_map.mpr fun item _ => coherent_keyed item
  refine forall_mem_append.mpr ⟨fun z member => keys r z (mem_reverse.mp member), ?_⟩
  exact forall_mem_cons.mpr ⟨coherent, forall_mem_cons.mpr ⟨coherent', keys l⟩⟩

theorem keysplit_1_sorts (x y : Term × Tuple Term i) (l r : List (Tuple Term i))
    (coherent : Coherent order x) (coherent' : Coherent order y)
    (run : (onKey order).Descending (y :: x :: r.map keyed)) :
    Sorts (onElement order) (keysplit_1 order.le x y l r) (r.reverse ++ x.2 :: y.2 :: l) := by
  obtain ⟨rs, shape, some, down, kept⟩ := splitUp_splits
    (fun rs => rkeymergel (elementLe order.le) (rs.map fun run => run.map Prod.snd) [] .asc)
    x y (l.map keyed) (r.map keyed) [] run (by simp)
  have input := coherent_input coherent coherent' l r
  have all : ∀ run ∈ rs, ∀ z ∈ run, Coherent order z := fun run member z inside => by
    refine input z (kept.perm.mem_iff.mp (mem_flatten.mpr ⟨run.reverse, ?_, by simpa using inside⟩))
    exact mem_reverse.mpr (mem_map_of_mem member)
  have runs : ∀ run ∈ rs.map fun run => run.map Prod.snd, Down (onElement order) run :=
    forall_mem_map.mpr fun run member => Coherent.down (all run member) (down run member)
  have sorts :=
    sorts_of_ends (((keymergel_passes (onElement order) .asc).ends _ (by simpa using some)).2 runs)
  have shape : keysplit_1 order.le x y l r = _ := shape
  rw [shape]
  refine sorts.same ?_
  have tuples := Coherent.sameOrder input kept
  simpa [sequence, RunOrder.front, Function.comp_def] using tuples

theorem keysplit_2_sorts (x y : Term × Tuple Term i) (l r : List (Tuple Term i))
    (coherent : Coherent order x) (coherent' : Coherent order y)
    (run : (onKey order).Ascending (y :: x :: r.map keyed)) :
    Sorts (onElement order) (keysplit_2 order.le x y l r) (y.2 :: x.2 :: r ++ l) := by
  obtain ⟨rs, shape, some, up, shuffle⟩ := splitDown_splits
    (fun rs => keymergel (elementLe order.le) (rs.map fun run => run.map Prod.snd) [] .desc)
    lowers_not_le x y (l.map keyed) (r.map keyed) [] run (by simp)
  have kept := shuffle.sameOrder (onKey order) fun item other passes => by
    exact apart_of_less (by simpa using passes)
  have input : ∀ z ∈ y :: x :: (r.map keyed ++ l.map keyed), Coherent order z := by
    intro z member
    refine coherent_input coherent coherent' l r z ?_
    simp only [mem_cons, mem_append, mem_reverse] at member ⊢
    tauto
  have all : ∀ run ∈ rs, ∀ z ∈ run, Coherent order z := fun run member z inside =>
    input z (kept.perm.mem_iff.mp (mem_flatten.mpr ⟨run, mem_reverse.mpr member, inside⟩))
  have runs : ∀ run ∈ rs.map fun run => run.map Prod.snd, Up (onElement order) run :=
    forall_mem_map.mpr fun run member => Coherent.up (all run member) (up run member)
  have sorts :=
    sorts_of_ends (((keymergel_passes (onElement order) .desc).ends _ (by simpa using some)).1 runs)
  have shape : keysplit_2 order.le x y l r = _ := shape
  rw [shape]
  refine sorts.same ?_
  have tuples := Coherent.sameOrder input kept
  simpa [sequence, RunOrder.front, Function.comp_def] using tuples

/-- The leading tuples, each `==` to the one before it, and the rest. -/
def lead (le : Term → Term → Bool) : List (Tuple Term i) → List (Tuple Term i) × List (Tuple Term i)
  | x :: y :: l =>
    if eqTuple le x y then (x :: (lead le (y :: l)).1, (lead le (y :: l)).2) else ([x], y :: l)
  | l => (l, [])

/-- The tuples go on with a smaller element. -/
def descends (le : Term → Term → Bool) (key : Term) : List (Tuple Term i) → Bool
  | y :: _ => !le key (element y)
  | [] => false

theorem lead_append (le : Term → Term → Bool) (l : List (Tuple Term i)) :
    (lead le l).1 ++ (lead le l).2 = l := by
  fun_induction lead le l with
  | case1 x y l same ih => simpa using ih
  | case2 x y l differ => rfl
  | case3 l short => simp

theorem eqTuple_element (x y : Tuple Term i) (same : eqTuple order.le x y = true) :
    (onElement order).same x y = true := by
  obtain ⟨size, elements⟩ := Bool.and_eq_true_iff.mp same
  have inside : i < (x.1.zip y.1).length := by
    rw [length_zip]
    exact lt_min x.2 y.2
  have here := all_eq_true.mp elements _ (getElem_mem inside)
  rw [getElem_zip] at here
  exact here

theorem Level.keys (level : Level (onElement order) items) :
    Level (onKey order) (items.map keyed) :=
  pairwise_map.mpr level

theorem keysort_1_sorts (ex : Term) (x : Tuple Term i) (l r : List (Tuple Term i))
    (key : order.same ex (element x) = true) (level : Level (onElement order) (x :: r)) :
    Sorts (onElement order) (keysort_1 order.le ex x l r)
      (if descends order.le ex (lead order.le (x :: l)).2 then
        (lead order.le (x :: l)).1.reverse ++ r ++ (lead order.le (x :: l)).2
      else r.reverse ++ x :: l) := by
  induction l generalizing x r with
  | nil =>
    have turned := ascending_reverse.mpr level.descending
    refine ⟨_, rfl, by simpa using turned, ?_⟩
    simpa [lead, descends] using TotalPreorder.SameOrder.refl _
  | cons y l ih =>
    rw [keysort_1, lead]
    split
    case isTrue same =>
      have next : (onElement order).same y x = true :=
        ((onElement order).same_comm y x).trans (eqTuple_element x y same)
      have key' : order.same ex (element y) = true := same_trans key (eqTuple_element x y same)
      simpa using ih y (x :: r) key' (level.cons next)
    case isFalse =>
    have first : (onKey order).same (ex, x) (keyed x) = true := key
    have run : Level (onKey order) ((ex, x) :: r.map keyed) := by
      refine pairwise_cons.mpr ⟨fun z member => ?_, (pairwise_cons.mp level.keys).2⟩
      exact same_trans first ((pairwise_cons.mp level.keys).1 z member)
    split
    case isTrue below =>
      simpa [descends, below] using keysplit_1_sorts (ex, x) (keyed y) l r key (coherent_keyed y)
          (descending_top run.descending below)
    case isFalse above =>
      have above : order.le ex (element y) = false := Bool.eq_false_iff.mpr above
      have grown : (onKey order).Ascending (keyed y :: (ex, x) :: r.map keyed) :=
        (lowers_le).first run.ascending (le_of_not above)
      refine (keysplit_2_sorts (ex, x) (keyed y) l r key (coherent_keyed y) grown).same ?_
      have apart : ∀ other ∈ x :: r, (onElement order).same y other = false := by
        intro other member
        have reaches : order.same ex (element other) = true := by
          rcases mem_cons.mp member with rfl | later
          · exact key
          · exact (pairwise_cons.mp run).1 (keyed other) (mem_map_of_mem later)
        have below : (onElement order).le other y = false :=
          order.above_trans above (Bool.and_eq_true_iff.mp reaches).1
        exact apart_of_less below
      simpa [descends, above] using overtake [] (x :: r) l y apart

/-- The leading tuples of a list of at least four come out turned when the next
tuple has a smaller element. -/
def turned (le : Term → Term → Bool) : List (Tuple Term i) → List (Tuple Term i)
  | x :: y :: z :: w :: l =>
    let (run, rest) := lead le (x :: y :: z :: w :: l)
    if descends le (element x) rest then run.reverse ++ rest else x :: y :: z :: w :: l
  | l => l

theorem descends_same (same : order.same key key' = true) (l : List (Tuple Term i)) :
    descends order.le key l = descends order.le key' l := by
  obtain ⟨up, down⟩ := Bool.and_eq_true_iff.mp same
  cases l with
  | nil => rfl
  | cons y l =>
    have agree : order.le key (element y) = order.le key' (element y) :=
      Bool.eq_iff_iff.mpr ⟨order.trans _ _ _ down, order.trans _ _ _ up⟩
    simp [descends, agree]

theorem keysort_sorts {l : List (Tuple Term i)} :
    Sorts (onElement order) (keysort order.le l) (turned order.le l) := by
  match l with
  | [] => exact none_sorts
  | [x] => exact one_sorts
  | [x, y] => exact two_sorts
  | [x, y, z] => exact three_sorts
  | x :: y :: z :: w :: l =>
    simp only [keysort, turned]
    split
    case isTrue first =>
      split
      case isTrue same =>
        have both := eqTuple_element x y same
        have level : Level (onElement order) [y, x] := by
          simpa [Level] using ((onElement order).same_comm y x).trans both
        have sorts := keysort_1_sorts (element y) y (z :: w :: l) [x] (order.same_refl _) level
        have key : order.same (element x) (element y) = true := both
        rw [← descends_same key] at sorts
        simpa [lead, same] using sorts
      case isFalse differ =>
        have below : order.le (element x) (element y) = true := first
        have run : (onKey order).Descending [keyed y, keyed x] :=
          descending_top (pairwise_singleton _ _) below
        simpa [lead, differ] using keysplit_1_sorts (keyed x) (keyed y) (z :: w :: l) []
          (coherent_keyed x)
            (coherent_keyed y) run
    case isFalse first =>
      have above : (onElement order).le x y = false := Bool.eq_false_iff.mpr first
      have above' : order.le (element x) (element y) = false := above
      have differ : eqTuple order.le x y = false := by
        by_contra same
        have both := eqTuple_element x y (Bool.eq_true_of_not_eq_false same)
        rw [not_same_of_not above] at both
        cases both
      have run : (onKey order).Ascending [keyed y, keyed x] := ascending_two (le_of_not above')
      have apart := apart_of_less above
      have sorts := (keysplit_2_sorts (keyed x) (keyed y) (z :: w :: l) [] (coherent_keyed x)
        (coherent_keyed y) run).same (overtake [] [x] (z :: w :: l) y (by simpa using apart))
      simpa [lead, differ] using sorts

theorem lead_cons {l : List (Tuple Term i)} : ∃ run, (lead le (x :: l)).1 = x :: run := by
  cases l with
  | nil => exact ⟨[], rfl⟩
  | cons y l =>
    rw [lead]
    split
    · exact ⟨_, rfl⟩
    · exact ⟨[], rfl⟩

theorem lead_level (order : TotalPreorder Term) (l : List (Tuple Term i)) :
    Level (onElement order) (lead order.le l).1 := by
  fun_induction lead order.le l with
  | case1 x y l same ih =>
    obtain ⟨run, shape⟩ := lead_cons
    rw [shape] at ih ⊢
    exact ih.cons (eqTuple_element x y same)
  | case2 x y l differ => exact pairwise_singleton _ _
  | case3 l short =>
    match l, short with
    | [], _ => exact .nil
    | [x], _ => exact pairwise_singleton _ _
    | x :: y :: l, short => exact absurd rfl (short x y l)

/-- The leading tuples read differently backwards, and a tuple with a smaller element
follows them. -/
def TurnsLead (le : Term → Term → Bool) (l : List (Tuple Term i)) : Prop :=
  4 ≤ l.length ∧ (∃ x ∈ l.head?, descends le (element x) (lead le l).2 = true) ∧
    (lead le l).1.reverse ≠ (lead le l).1

theorem turned_eq (steady : ¬ TurnsLead le l) : turned le l = l := by
  match l with
  | [] | [_] | [_, _] | [_, _, _] => rfl
  | x :: y :: z :: w :: l =>
    simp only [turned]
    split
    case isTrue lower =>
      have palindrome : (lead le (x :: y :: z :: w :: l)).1.reverse =
          (lead le (x :: y :: z :: w :: l)).1 := by
        by_contra differs
        exact steady ⟨by simp, ⟨x, rfl, lower⟩, differs⟩
      rw [palindrome, lead_append]
    case isFalse => rfl

theorem turned_of_turnsLead (turns : TurnsLead le l) :
    turned le l = (lead le l).1.reverse ++ (lead le l).2 := by
  obtain ⟨size, ⟨x, head, lower⟩, -⟩ := turns
  match l, size with
  | x' :: y :: z :: w :: l, _ =>
    obtain rfl : x' = x := Option.some.inj head
    simp only [turned, lower, if_true]

/-- The tuples of the lead all compare equal, so that turning them is seen. -/
theorem not_sameOrder_turned (turns : TurnsLead order.le l) :
    ¬ (onElement order).SameOrder (turned order.le l) l := by
  intro kept
  have level := lead_level order l
  have whole := lead_append order.le l
  rw [turned_of_turnsLead turns] at kept
  obtain ⟨-, ⟨x, head, -⟩, differs⟩ := turns
  obtain ⟨rest, rfl⟩ := head?_eq_some_iff.mp head
  obtain ⟨run, shape⟩ := lead_cons
  have equal : ∀ other ∈ (lead order.le (x :: rest)).1, (onElement order).same x other = true := by
    rw [shape] at level ⊢
    exact forall_mem_cons.mpr
      ⟨(onElement order).same_refl x, fun other member => (pairwise_cons.mp level).1 other member⟩
  have input : (x :: rest).filter ((onElement order).same x) =
      (lead order.le (x :: rest)).1 ++ (lead order.le (x :: rest)).2.filter
        ((onElement order).same x) := by
    conv_lhs => rw [← whole]
    rw [filter_append, filter_eq_self.mpr equal]
  have here := kept x
  rw [input, filter_append, filter_reverse, filter_eq_self.mpr equal] at here
  exact differs (append_cancel_right here)

/-- `keysort/2` is a stable sort of the input, unless leading tuples that are `==`
but not all alike are followed by one with a smaller element. -/
theorem keysort_stable_iff (order : TotalPreorder Term) (l : List (Tuple Term i)) :
    (∃ out, keysort order.le l = some out ∧ out.Perm l ∧ (onElement order).Ascending out ∧
      (onElement order).SameOrder out l) ↔ ¬ TurnsLead order.le l := by
  obtain ⟨out, shape, ascending, kept⟩ := keysort_sorts
  constructor
  · rintro ⟨out', shape', -, -, kept'⟩ turns
    obtain rfl := Option.some.inj (shape.symm.trans shape')
    exact not_sameOrder_turned turns (kept.symm.trans kept')
  · intro steady
    rw [turned_eq steady] at kept
    exact ⟨out, shape, kept.perm, ascending, kept⟩

/-- Integers and floats without a fraction, which `==` takes as equal. -/
inductive Number where
  | integer (value : Int)
  | float (value : Int)
  deriving DecidableEq, Repr

def Number.value : Number → Int
  | .integer value => value
  | .float value => value

/-- `=<` on numbers. -/
def numbers : TotalPreorder Number where
  le first second := decide (first.value ≤ second.value)
  total first second := by simpa using Int.le_total first.value second.value
  trans first second third := by simpa using Int.le_trans

/-- The tuple of one number. -/
def single (number : Number) : Tuple Number 0 := ⟨[number], Nat.zero_lt_one⟩

theorem keysort_turns_equal_tuples : keysort numbers.le
        [single (.integer 1), single (.float 1), single (.integer 0), single (.integer 0)] =
      some [single (.integer 0), single (.integer 0), single (.float 1), single (.integer 1)] ∧
    ¬ (onElement numbers).SameOrder
      [single (.integer 0), single (.integer 0), single (.float 1), single (.integer 1)]
      [single (.integer 1), single (.float 1), single (.integer 0), single (.integer 0)] := by
  refine ⟨?_, fun kept => absurd (kept (single (.integer 1))) (by decide)⟩
  simp [keysort, keysort_1, keysplit_2, splitDown, keymergel,
    eqTuple, keyLe, keyed, element, single, numbers, Number.value]

end Otp.Lists
