import Otp.Stdlib.ArrayRun

/-! Where the functions that read an array agree, and where they stop to. -/

namespace Otp.Arrays

open Function List

variable {Value : Type}

/-- Growing ends with a node whose first subtree holds all that was there before. -/
theorem grow_1_last (d : Value) (e : Elements Value) (positive : 0 < m) (reached : m ≤ i) :
    ∃ e' t, (grow_1 i e m).1 = .node (update (fun _ => .unexpanded (m * 10 ^ t)) 0 e')
      (m * 10 ^ t) ∧
      m * 10 ^ t ≤ i ∧ i < 10 * (m * 10 ^ t) ∧
      (e'.flat d).length + m = m * 10 ^ t + (e.flat d).length := by
  fun_induction grow_1 i e m with
  | case1 e m more ih =>
    by_cases again : 10 * m ≤ i
    · obtain ⟨e', t, grown, low, high, length⟩ := ih (by omega) again
      refine ⟨e', t + 1, ?_⟩
      have power : 10 * m * 10 ^ t = m * 10 ^ (t + 1) := by
        rw [pow_succ, Nat.mul_comm 10 m, Nat.mul_assoc, Nat.mul_comm 10]
      have wrapped : ((Elements.node (update (fun _ => .unexpanded m) 0 e) m).flat d).length =
          (e.flat d).length + 9 * m := by
        simp [Elements.flat]
        omega
      rw [power] at grown low high length
      refine ⟨grown, low, high, ?_⟩
      omega
    · refine ⟨e, 0, ?_, by omega, by omega, by omega⟩
      rw [grow_1, if_neg (by omega)]
      simp
  | case2 e m stop => omega

theorem length_first_rows {children : Fin 10 → Elements Value} (d : Value) (inside : n < 10)
    (others : ∀ c : Fin 10, 0 < c.val → c.val ≤ n → children c = .unexpanded s) :
    ((rows d children).take (n + 1)).flatten.length = ((children 0).flat d).length + n * s := by
  induction n with
  | zero => simp [take_add_one, row_of d children inside]
  | succ n ih =>
    have last := others ⟨n + 1, inside⟩ (Nat.succ_pos n) le_rfl
    rw [take_add_one, row_of d children inside, last, flatten_append, length_append,
      ih (by omega) fun c some below => others c some (by omega)]
    simp [Elements.flat, Nat.succ_mul, Nat.add_assoc]

theorem Elements.Exceeds.grow {e : Elements Value} (tall : e.Exceeds m) (i : Nat) :
    grow i e m = grow_1 i e m := by
  cases e with
  | unexpanded s => exact tall.elim
  | leaf | node => rfl

theorem Elements.Exceeds.length {e : Elements Value} (tall : e.Exceeds m) (fits : e.Fits k)
    (d : Value) : m < (e.flat d).length := by
  rw [length_flat fits]
  cases e with
  | unexpanded | leaf => exact tall.elim
  | node children s =>
    obtain ⟨j, rfl, room, -⟩ := fits
    rw [pow_succ', ← room]
    exact tall

variable [DecidableEq Value]

/-- The list of a tree whose first subtree is read as a whole. -/
theorem toList_1_overfull {d : Value} (low : s ≤ i) (high : i < 10 * s) (place : i / s < 10)
    (others : ∀ c : Fin 10, 0 < c.val → c.val < i / s → children c = .unexpanded s)
    (last : ∃ l, toList_1 false d (children ⟨i / s, place⟩) (i % s) = .ok l ∧
      l.length = i % s + 1) :
    ∃ l, toList_1 false d (.node children s) i = .ok l ∧
      l.length + s = i + 1 + ((children 0).flat d).length := by
  obtain ⟨l, read, length⟩ := last
  have positive : 0 < i / s := Nat.div_pos low (by omega)
  obtain ⟨n, count⟩ : ∃ n, i / s = n + 1 := ⟨i / s - 1, by omega⟩
  have before :=
    length_first_rows d (show n < 10 by omega) fun c some below => others c some (by omega)
  have whole : (n + 1) * s + i % s = i := by
    rw [← count, Nat.mul_comm]
    exact Nat.div_add_mod i s
  simp only [toList_1]
  rw [atElement_ok place, read, ok_bind,
    toList_3_node s (fun c => toList_2_eq false d (children c)) (Nat.le_of_lt place),
    filter_visits_dense, count]
  refine ⟨_, rfl, ?_⟩
  rw [length_append]
  rw [Nat.succ_mul] at whole
  omega

/-- Writing the last entry of a tree that grew although it had room. -/
theorem set_1_grown (tall : e.Exceeds m) (room : m = 10 ^ (j + 1)) (reached : m ≤ i)
    (x d : Value) : ∃ children s, ∃ place : i / s < 10,
      set_1 x d i (grow i e m).1 = .ok (.node children s) ∧ s ≤ i ∧ i < 10 * s ∧
      ((children 0).flat d).length + m = s + (e.flat d).length ∧
      (∀ c : Fin 10, 0 < c.val → c.val < i / s → children c = .unexpanded s) ∧
      ∃ l, toList_1 false d (children ⟨i / s, place⟩) (i % s) = .ok l ∧ l.length = i % s + 1 := by
  obtain ⟨e', t, grown, low, high, length⟩ := grow_1_last d e (room ▸ room_pos j) reached
  have power : m * 10 ^ t = 10 ^ (j + t + 1) := by
    rw [room, ← pow_add]
    congr 1
    omega
  generalize m * 10 ^ t = s at grown low high length power
  have place : i / s < 10 := Nat.div_lt_of_lt_mul (by omega)
  have within : i % s < 10 ^ (j + t + 1) := rest_lt power i
  obtain ⟨last, written, kept⟩ := expand_fits within
  rw [← power] at written
  have later : (⟨i / s, place⟩ : Fin 10) ≠ 0 := fun zero => by simp at zero; omega
  refine ⟨update (update (fun _ => .unexpanded s) 0 e') ⟨i / s, place⟩ last, s, place,
    ?_, low, high, ?_, ?_, ?_⟩
  · rw [tall.grow, grown]
    simp only [set_1, atElement_ok place, setelement_ok place]
    rw [update_of_ne later, set_1, written]
    rfl
  · rw [update_of_ne later.symm]
    exact length
  · intro c some before
    rw [update_of_ne (fun same => by simp [same] at before),
      update_of_ne (fun zero => by simp [zero] at some)]
  · rw [update_self]
    refine ⟨_, toList_1_eq kept within, ?_⟩
    rw [filter_visits_dense, length_take, length_flat kept]
    omega

/-- The step that regrows leaves an array of which the list is too long. -/
theorem Sound.regrows (sound : Sound a) {op : Op Value} (regrows : Regrows a op) :
    ∃ l, Arrays.toList (Arrays.after a op) = .ok l ∧ (Arrays.after a op).size < l.length := by
  obtain ⟨k, j, fits, below, assumed, room⟩ := sound.assumedRoom
  cases op with
  | set i x =>
    obtain ⟨outside, reached, extendible, tall⟩ := regrows
    rw [Arrays.assumedRoom, if_pos extendible] at assumed
    obtain ⟨children, s, place, made, low, high, length, others, last⟩ :=
      set_1_grown tall assumed reached x a.default
    obtain ⟨l, read, count⟩ := toList_1_overfull low high place others last
    have longer := tall.length fits a.default
    have stepped : Arrays.after a (.set i x) = { a with
        size := i + 1, max := (grow i a.elements a.max).2, elements := .node children s } := by
      rw [Arrays.after, step, Arrays.set, if_neg (by omega), if_neg (by omega), if_pos extendible]
      simp only [made, ok_bind]
    rw [stepped]
    exact ⟨l, read, by simp only; omega⟩
  | resizeTo size =>
    obtain ⟨larger, reached, tall⟩ := regrows
    obtain ⟨e', t, grown, low, high, length⟩ :=
      grow_1_last a.default a.elements (assumed ▸ room_pos j) (Nat.le_sub_one_of_lt reached)
    generalize Arrays.assumedRoom a * 10 ^ t = s at grown low high length
    have place : (size - 1) / s < 10 := Nat.div_lt_of_lt_mul (by omega)
    have first : 0 < (size - 1) / s := Nat.div_pos low (by omega)
    have unset (c : Fin 10) (some : 0 < c.val) :
        update (fun _ => (.unexpanded s : Elements Value)) 0 e' c = .unexpanded s :=
      update_of_ne (fun zero => by simp [zero] at some) _ _
    obtain ⟨l, read, count⟩ := toList_1_overfull (d := a.default) low high place
      (fun c some _ => unset c some) ⟨_, by rw [unset _ first]; rfl,
        by simp [pushUnexpanded, push_length]⟩
    have longer := tall.length fits a.default
    rw [update_self] at count
    have stepped : Arrays.after a (.resizeTo size) = { a with
        size := size, max :=
          if 0 < a.max then (grow (size - 1) a.elements (Arrays.assumedRoom a)).2 else a.max,
        elements := .node (update (fun _ => .unexpanded s) 0 e') s } := by
      rw [← grown, ← tall.grow]
      simp only [Arrays.after, step, Arrays.resizeTo, if_pos larger]
      rfl
    rw [stepped]
    refine ⟨l, ?_, by simp only; omega⟩
    rw [Arrays.toList, toListBy, if_neg (by simp only; omega)]
    exact read
  | reset | resize | fix | relax | map | sparseMap => exact regrows.elim

/-- All functions that read the array describe these entries. -/
structure Describes (a : ArrayRecord Value) (values : List Value) : Prop where
  length : values.length = a.size
  get : ∀ i (inside : i < values.length), Arrays.get i a = .ok values[i]
  toList : Arrays.toList a = .ok values
  toOrddict : Arrays.toOrddict a = .ok (numbered 0 values)
  foldl : ∀ (Acc : Type) (f : Int → Value → Acc → Outcome Value Acc) (acc : Acc),
    Arrays.foldl f acc a = (numbered 0 values).foldlM (fun acc pair => f pair.1 pair.2 acc) acc
  foldr : ∀ (Acc : Type) (f : Int → Value → Acc → Outcome Value Acc) (acc : Acc),
    Arrays.foldr f acc a = (numbered 0 values).foldrM (fun pair acc => f pair.1 pair.2 acc) acc
  sparseToList : Arrays.sparseToList a = .ok (values.filter (· != a.default))
  sparseToOrddict : Arrays.sparseToOrddict a = .ok ((numbered 0 values).filter (·.2 != a.default))
  sparseFoldl : ∀ (Acc : Type) (f : Int → Value → Acc → Outcome Value Acc) (acc : Acc),
    Arrays.sparseFoldl f acc a = ((numbered 0 values).filter (·.2 != a.default)).foldlM
      (fun acc pair => f pair.1 pair.2 acc) acc
  sparseFoldr : ∀ (Acc : Type) (f : Int → Value → Acc → Outcome Value Acc) (acc : Acc),
    Arrays.sparseFoldr f acc a = ((numbered 0 values).filter (·.2 != a.default)).foldrM
      (fun pair acc => f pair.1 pair.2 acc) acc
  sparseSize : Arrays.sparseSize a = .ok (afterLast ((numbered 0 values).filter (·.2 != a.default)))

theorem Sound.describes {a : ArrayRecord Value} (sound : Sound a) : Describes a (entries a) := by
  have dense : pairs false a = numbered 0 (entries a) := filter_eq_self.mpr fun _ _ => rfl
  refine ⟨sound.length_entries, fun i inside => ?_, ?_, ?_, fun Acc f acc => ?_,
    fun Acc f acc => ?_,
    sound.toList true, sound.toOrddict true, fun Acc f acc => sound.foldl true f acc,
    fun Acc f acc => sound.foldr true f acc, sound.sparseSize⟩
  · obtain ⟨value, found, entry⟩ := sound.get (sound.length_entries ▸ inside)
    rw [found, ← Option.some.inj (entry.symm.trans (getElem?_eq_getElem inside))]
  · rw [Arrays.toList, sound.toList, filter_visits_dense]
  · rw [Arrays.toOrddict, sound.toOrddict, dense]
  · rw [Arrays.foldl, sound.foldl, dense, foldPairsl]
  · rw [Arrays.foldr, sound.foldr, dense, foldPairsr]

/-- After a run in which no step regrows all functions that read the array describe
one list of entries; the first step that regrows ends this. -/
theorem array_observers_agree (undefined : Value) (init : Start Value) (ops : List (Op Value))
    (made : init.make undefined = .ok a) (careful : Careful a ops) :
    (∃ values, Describes (ops.foldl after a) values) ∧ ∀ op, Regrows (ops.foldl after a) op →
        ¬ ∃ values, Describes (after (ops.foldl after a) op) values := by
  have sound := (Start.sound made).run careful
  refine ⟨⟨_, sound.describes⟩, fun op regrows ⟨values, describes⟩ => ?_⟩
  obtain ⟨l, read, longer⟩ := sound.regrows regrows
  cases describes.toList.symm.trans read
  exact longer.ne describes.length.symm

/-- Eleven entries cut to five. -/
theorem array_observers_agree_shrunk :
    ∃ values, Describes ([Op.set 10 1, .resizeTo 5, .relax].foldl after (new 0 [])) values := by
  refine (array_observers_agree 0 (.new []) [.set 10 1, .resizeTo 5, .relax] rfl ⟨?_, ?_,
    id, trivial⟩).1
  · rintro ⟨-, -, -, tall⟩
    exact tall
  · rintro ⟨larger, -, -⟩
    exact absurd larger (by decide +kernel)

/-- Eleven entries cut to five, and the eleventh set again: a list of 101. -/
theorem array_regrown_to_list :
    ([Op.set 10 1, .resizeTo 5, .relax, .set 10 2].foldl after (new 0 [])).size = 11 ∧
      ∃ l, toList ([Op.set 10 1, .resizeTo 5, .relax, .set 10 2].foldl after (new 0 [])) = .ok l ∧
        l.length = 101 :=
  ⟨by decide +kernel, replicate 10 0 ++ [1] ++ replicate 89 0 ++ [2], by decide +kernel, by decide⟩

end Otp.Arrays
