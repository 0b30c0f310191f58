import Otp.Stdlib.ArrayRun

/-! What `resize/2` does to the entries. Making an array smaller leaves its tree as it is, so
an entry behind the end comes back when the array is made larger again. -/

namespace Otp.Arrays

variable {Value : Type}
variable {a : ArrayRecord Value} {e : Elements Value}

theorem findMax_more (i : Int) (positive : 0 < m) : i < findMax i m ∧ 0 < findMax i m := by
  fun_induction findMax i m with
  | case1 m more ih => exact ih (by omega)
  | case2 m stop => omega

theorem grow_1_more (i : Nat) (e : Elements Value) (positive : 0 < m) : i < (grow_1 i e m).2 := by
  fun_induction grow_1 i e m with
  | case1 e m more ih => exact ih (by omega)
  | case2 e m stop => omega

section

variable {e : Elements Value}

theorem get_1_first (inside : j < 10 * m) :
    get_1 d j (.node (Function.update (fun _ => .unexpanded m) 0 e) m) =
      if j < m then get_1 d j e else .ok d := by
  have positive : 0 < m := by omega
  have place : j / m < 10 := (Nat.div_lt_iff_lt_mul positive).mpr inside
  rw [get_1, atElement_ok place]
  split
  case isTrue first =>
    have front : (⟨j / m, place⟩ : Fin 10) = 0 := Fin.ext (Nat.div_eq_of_lt first)
    rw [front, Function.update_self, Nat.mod_eq_of_lt first]
  case isFalse later =>
    have behind : (⟨j / m, place⟩ : Fin 10) ≠ 0 := by
      intro front
      have zero : j / m = 0 := congrArg Fin.val front
      rw [Nat.div_eq_zero_iff] at zero
      omega
    rw [Function.update_of_ne behind, get_1]

/-- The old tree keeps its entries below `m`, and the new ones are never set. -/
theorem get_1_grow_1 (positive : 0 < m) (inside : j ≤ i) :
    get_1 d j (grow_1 i e m).1 = if j < m then get_1 d j e else .ok d := by
  fun_induction grow_1 i e m with
  | case1 e m more ih =>
    rw [ih (by omega)]
    by_cases near : j < 10 * m
    · rw [if_pos near, get_1_first near]
    · rw [if_neg near, if_neg (by omega)]
  | case2 e m stop => rw [if_pos (by omega)]

theorem get_1_grow (positive : 0 < m) (inside : j ≤ i) :
    get_1 d j (grow i e m).1 = if j < m then get_1 d j e else .ok d := by
  cases e with
  | unexpanded s => simp [grow, get_1]
  | leaf | node => exact get_1_grow_1 positive inside

/-- The size is within `max`, if that is not `0`, and a tree that is not expanded has room. -/
structure Roomy (a : ArrayRecord Value) : Prop where
  size : a.max = 0 ∨ a.size ≤ a.max
  unexpanded : ∀ s, a.elements = .unexpanded s → 0 < s

theorem Sound.roomy (sound : Sound a) : Roomy a := by
  obtain ⟨k, fits, -, most⟩ := sound
  refine ⟨?_, fun s same => ?_⟩
  · rcases most with fixed | ⟨j, -, -, most⟩
    · exact .inl fixed
    · exact .inr most
  · rw [same] at fits
    rw [show s = 10 ^ (k + 1) from fits]
    exact room_pos k

theorem Roomy.assumedRoom (roomy : Roomy a) : 0 < assumedRoom a ∧ a.size ≤ assumedRoom a := by
  rw [Arrays.assumedRoom]
  split
  case isTrue extendible =>
    refine ⟨extendible, ?_⟩
    rcases roomy.size with fixed | most
    · omega
    · exact most
  case isFalse =>
    obtain ⟨more, positive⟩ := findMax_more (a.size - 1) (m := 10) (by decide)
    exact ⟨positive, by omega⟩

theorem grow_more (i : Nat) (unexpanded : ∀ s, e = .unexpanded s → 0 < s) (positive : 0 < m) :
    i < (grow i e m).2 := by
  cases e with
  | unexpanded s =>
    have more := (findMax_more i (unexpanded s rfl)).1
    simp only [grow]
    omega
  | leaf values => exact grow_1_more i (.leaf values) positive
  | node children s => exact grow_1_more i (.node children s) positive

theorem grow_1_unexpanded (tuple : ∀ s, e ≠ .unexpanded s) : (grow_1 i e m).1 ≠ .unexpanded s := by
  fun_induction grow_1 i e m with
  | case1 e m more ih => exact ih fun s => by simp
  | case2 e m stop => exact tuple s

theorem grow_unexpanded (i m : Nat) (unexpanded : ∀ s, e = .unexpanded s → 0 < s) (s : Nat)
    (same : (grow i e m).1 = .unexpanded s) : 0 < s := by
  cases e with
  | unexpanded s' =>
    cases same
    exact (findMax_more i (unexpanded s' rfl)).2
  | leaf | node => exact absurd same (grow_1_unexpanded (by simp))

end

theorem Roomy.resizeTo (roomy : Roomy a) (size : Nat) : Roomy (resizeTo size a) := by
  rw [Arrays.resizeTo]
  split
  case isTrue larger =>
    have more := grow_more (size - 1) roomy.unexpanded roomy.assumedRoom.1
    rw [Arrays.assumedRoom] at more
    refine ⟨?_, fun s same => grow_unexpanded (size - 1) _ roomy.unexpanded s same⟩
    simp only
    split
    case isTrue extendible =>
      rw [if_pos extendible] at more
      omega
    case isFalse => omega
  case isFalse =>
    split
    · refine ⟨?_, roomy.unexpanded⟩
      rcases roomy.size with fixed | most
      · exact .inl fixed
      · exact .inr (by simp only; omega)
    · exact roomy

theorem expand_unexpanded {x d : Value} (made : expand i n x d = .ok e) : e ≠ .unexpanded s := by
  rw [expand] at made
  split at made
  · obtain ⟨child, -, made⟩ := of_bind_ok made
    obtain ⟨children, -, made⟩ := of_bind_ok made
    cases made
    simp
  · obtain ⟨values, -, made⟩ := of_bind_ok made
    cases made
    simp

theorem set_1_unexpanded (made : set_1 x d i e = .ok e') : e' ≠ .unexpanded s := by
  cases e with
  | unexpanded n => exact expand_unexpanded made
  | leaf values =>
    obtain ⟨values, -, made⟩ := of_bind_ok made
    cases made
    simp
  | node children n =>
    obtain ⟨child, -, made⟩ := of_bind_ok made
    obtain ⟨children, -, made⟩ := of_bind_ok made
    cases made
    simp

theorem Roomy.set (roomy : Roomy a) (done : set i x a = .ok a') : Roomy a' := by
  rw [Arrays.set] at done
  split at done
  case isTrue =>
    obtain ⟨e, made, done⟩ := of_bind_ok done
    cases done
    exact ⟨roomy.size, fun s same => absurd same (set_1_unexpanded made)⟩
  case isFalse outside =>
  split at done
  case isTrue free =>
    obtain ⟨e, made, done⟩ := of_bind_ok done
    cases done
    exact ⟨.inr free, fun s same => absurd same (set_1_unexpanded made)⟩
  case isFalse =>
  split at done
  case isTrue extendible =>
    obtain ⟨e, made, done⟩ := of_bind_ok done
    cases done
    exact ⟨.inr (grow_more i roomy.unexpanded extendible),
      fun s same => absurd same (set_1_unexpanded made)⟩
  case isFalse => cases done

section

variable [DecidableEq Value]

theorem reset_1_unexpanded (made : reset_1 d i e = .ok e') : e' ≠ .unexpanded s := by
  cases e with
  | unexpanded n => cases made
  | leaf values =>
    obtain ⟨value, -, made⟩ := of_bind_ok made
    split at made
    · cases made
    · obtain ⟨values, -, made⟩ := of_bind_ok made
      cases made
      simp
  | node children n =>
    obtain ⟨child, -, made⟩ := of_bind_ok made
    obtain ⟨children, -, made⟩ := of_bind_ok made
    cases made
    simp

theorem Roomy.reset (roomy : Roomy a) (done : reset i a = .ok a') : Roomy a' := by
  rw [Arrays.reset] at done
  split at done
  · split at done
    case h_1 e made =>
      cases done
      exact ⟨roomy.size, fun s same => absurd same (reset_1_unexpanded made)⟩
    case h_2 =>
      cases done
      exact roomy
    case h_3 => cases done
  · split at done
    · cases done
      exact roomy
    · cases done

/-- Only what was not expanded is left so. -/
theorem map_1_unexpanded (made : map_1 sparse d f n e ix = .ok (.unexpanded s)) :
    e = .unexpanded s := by
  have tuples {n : Nat} {e : Elements Value} {ix : Int} (tuple : ∀ s, e ≠ .unexpanded s)
      (made : map_1 sparse d f n e ix = .ok (.unexpanded s)) : False := by
    cases e with
    | unexpanded n => exact tuple n rfl
    | leaf values =>
      rw [map_1] at made
      split at made
      all_goals
        obtain ⟨l, -, made⟩ := of_bind_ok made
        obtain ⟨values, -, made⟩ := of_bind_ok made
        cases made
    | node children n =>
      rw [map_1] at made
      obtain ⟨l, -, made⟩ := of_bind_ok made
      obtain ⟨children, -, made⟩ := of_bind_ok made
      cases made
  cases e with
  | unexpanded m =>
    rw [map_1] at made
    split at made
    · cases made
      rfl
    · refine (tuples (fun s => ?_) made).elim
      rw [unfold]
      split <;> simp [newNode, newLeaf]
  | leaf | node => exact (tuples (by simp) made).elim

theorem Roomy.mapBy (roomy : Roomy a) (done : mapBy sparse f a = .ok a') : Roomy a' := by
  rw [Arrays.mapBy] at done
  split at done
  · obtain ⟨e, made, done⟩ := of_bind_ok done
    cases done
    refine ⟨roomy.size, fun s same => roomy.unexpanded s ?_⟩
    subst same
    exact map_1_unexpanded made
  · cases done
    exact roomy

theorem Roomy.after (roomy : Roomy a) (op : Op Value) : Roomy (after a op) := by
  rw [Arrays.after]
  cases called : step a op with
  | error exit => exact roomy
  | ok a' =>
    cases op with
    | set i x => exact roomy.set called
    | reset i => exact roomy.reset called
    | resizeTo size =>
      cases called
      exact roomy.resizeTo size
    | resize =>
      obtain ⟨size, -, rest⟩ := of_bind_ok called
      split at rest
      · cases rest
        exact roomy.resizeTo _
      · cases rest
    | fix =>
      cases called
      exact ⟨.inl rfl, roomy.unexpanded⟩
    | relax =>
      cases called
      refine ⟨.inr ?_, roomy.unexpanded⟩
      have more := (findMax_more (a.size - 1) (m := 10) (by decide)).1
      simp only [Arrays.relax]
      omega
    | map | sparseMap => exact roomy.mapBy called

theorem Roomy.run (roomy : Roomy a) (ops : List (Op Value)) : Roomy (ops.foldl Arrays.after a) := by
  induction ops generalizing a with
  | nil => exact roomy
  | cons op ops ih => exact ih (roomy.after op)

end

theorem size_resizeTo : (resizeTo size a).size = size := by
  rw [resizeTo]
  split
  · rfl
  · split
    · rfl
    · omega

/-- The entries of an array that is made larger. -/
theorem get_resizeTo (roomy : Roomy a) (larger : a.size < size) (inside : i < size) :
    get i (resizeTo size a) =
      if i < assumedRoom a then get_1 a.default i a.elements else .ok a.default := by
  have positive := roomy.assumedRoom.1
  rw [← get_1_grow positive (show i ≤ size - 1 by omega), resizeTo, if_pos larger,
    get, if_pos inside, assumedRoom]

theorem get_resizeTo_old (roomy : Roomy a) (inside : i < min size a.size) :
    get i (resizeTo size a) = get i a := by
  have old : i < a.size := by omega
  rcases Nat.lt_trichotomy a.size size with larger | same | smaller
  · have room := roomy.assumedRoom.2
    rw [get_resizeTo roomy larger (by omega), if_pos (by omega), get, if_pos old]
  · rw [resizeTo, if_neg (by omega), if_neg (by omega)]
  · rw [resizeTo, if_neg (by omega), if_pos smaller, get, get, if_pos old]
    exact if_pos (by simp only; omega)

/-- An entry that was set lies behind the end, where `resize/2` takes the tree to reach. -/
def Leftover (a : ArrayRecord Value) (i : Nat) : Prop :=
  a.size ≤ i ∧ i < assumedRoom a ∧ get_1 a.default i a.elements ≠ .ok a.default

/-- An array that is made smaller or larger keeps its entries, and the new ones read as the
default exactly when none is left over from a time when the array was larger. -/
theorem resize_reads_default_iff [DecidableEq Value] (undefined : Value) (init : Start Value)
    (made : init.make undefined = .ok first) (ops : List (Op Value)) (size : Nat) :
    let a := ops.foldl after first
    let b := resizeTo size a
    (b.size = size ∧ (∀ i < min size a.size, get i b = get i a) ∧
        ∀ i, a.size ≤ i → i < size → get i b = .ok a.default) ↔
      ∀ i < size, ¬ Leftover a i := by
  intro a b
  have roomy : Roomy a := (Start.sound made).roomy.run ops
  constructor
  · rintro ⟨-, -, default⟩ i inside ⟨behind, reached, other⟩
    have read := default i behind inside
    rw [get_resizeTo roomy (by omega) inside, if_pos reached] at read
    exact other read
  · intro none
    refine ⟨size_resizeTo, fun i inside => get_resizeTo_old roomy inside, ?_⟩
    intro i behind inside
    rw [get_resizeTo roomy (by omega) inside]
    split
    case isTrue reached => exact by_contra fun other => none i inside ⟨behind, reached, other⟩
    case isFalse => rfl

theorem resize_reads_default_unset :
    let a := [Op.set 5 1, .resizeTo 2, .resizeTo 10, .reset 5].foldl after (new 0 [])
    let b := resizeTo 20 a
    b.size = 20 ∧ (∀ i < min 20 a.size, get i b = get i a) ∧
      ∀ i, a.size ≤ i → i < 20 → get i b = .ok a.default := by
  refine (resize_reads_default_iff 0 (.new []) rfl [.set 5 1, .resizeTo 2, .resizeTo 10,
    .reset 5] 20).mpr ?_
  rintro i - ⟨behind, reached, -⟩
  have size :
      ([Op.set 5 1, .resizeTo 2, .resizeTo 10, .reset 5].foldl after (new 0 [])).size = 10 := by
    decide +kernel
  have room :
      assumedRoom ([Op.set 5 1, .resizeTo 2, .resizeTo 10, .reset 5].foldl after (new 0 [])) =
        10 := by
    decide +kernel
  rw [size] at behind
  rw [room] at reached
  exact absurd behind (Nat.not_le.mpr reached)

/-- Six entries cut to two and made ten again: the sixth is still there. -/
theorem resize_brings_back :
    let a := [Op.set 5 1, .resizeTo 2].foldl after (new 0 [])
    a.size = 2 ∧ a.default = 0 ∧ get 5 a = .ok 0 ∧ get 5 (resizeTo 10 a) = .ok 1 := by
  decide +kernel

end Otp.Arrays
