import Otp.Stdlib.ArrayTraverse

/-! What room a tree of tuples has. The tree that `get/2` and the traversals expect has
room for `10 ^ (k + 1)` entries, and every node in it knows the room of its subtrees;
writing, growing and mapping keep it so. -/

namespace Otp.Arrays

open List

variable {Value : Type}

def Elements.Fits : Nat → Elements Value → Prop
  | k, .unexpanded s => s = 10 ^ (k + 1)
  | k, .leaf _ => k = 0
  | k, .node children s => ∃ j, k = j + 1 ∧ s = 10 ^ (j + 1) ∧ ∀ c, (children c).Fits j

theorem fits_node {children : Fin 10 → Elements Value} :
    (Elements.node children s).Fits (k + 1) ↔ s = 10 ^ (k + 1) ∧ ∀ c, (children c).Fits k := by
  constructor
  · rintro ⟨j, same, room, subtrees⟩
    obtain rfl : k = j := by omega
    exact ⟨room, subtrees⟩
  · rintro ⟨room, subtrees⟩
    exact ⟨k, rfl, room, subtrees⟩

theorem fits_unexpanded (k : Nat) :
    (Elements.unexpanded (10 ^ (k + 1)) : Elements Value).Fits k := rfl

theorem fits_leaf (values : Fin 10 → Value) : (Elements.leaf values).Fits 0 := rfl

theorem element_ok (inside : n < 10) (t : Fin 10 → Item) :
    (element t (n + 1) : Outcome Value Item) = .ok (t ⟨n, inside⟩) := by
  rw [element, dif_pos ⟨by omega, by omega⟩]
  rfl

theorem atElement_ok (inside : n < 10) {last : Outcome Value Result} :
    atElement children last (n + 1) = children ⟨n, inside⟩ := by
  rw [atElement, dif_pos ⟨by omega, by omega⟩]
  rfl

theorem setelement_ok (inside : n < 10) (t : Fin 10 → Item) (x : Item) :
    (setelement (n + 1) t x : Outcome Value _) = .ok (Function.update t ⟨n, inside⟩ x) := by
  rw [setelement, dif_pos ⟨by omega, by omega⟩]
  rfl

theorem listToTuple_ok (Value : Type) {l : List Item} (full : l.length = 10) :
    ∃ t, (listToTuple l : Outcome Value _) = .ok t ∧ l = ofFn t := by
  refine ⟨fun i => l.get ⟨i, by omega⟩, by rw [listToTuple, dif_pos full], ?_⟩
  apply List.ext_getElem
  · simp [full]
  · intro i inside _
    simp only [List.getElem_ofFn, List.get_eq_getElem]

theorem of_listToTuple {t : Fin 10 → Item} (made : (listToTuple l : Outcome Value _) = .ok t) :
    l = List.ofFn t := by
  by_cases full : l.length = 10
  · obtain ⟨t', made', same⟩ := listToTuple_ok Value full
    obtain rfl : t' = t := Except.ok.inj (made'.symm.trans made)
    exact same
  · rw [listToTuple, dif_neg full] at made
    cases made

theorem of_update {P : Item → Prop} (old : ∀ i, P (t i)) (new : P x) (c : Fin 10) :
    ∀ i, P (Function.update t c x i) := by
  intro i
  by_cases here : i = c
  · subst here
    simpa using new
  · simpa [here] using old i

/-- The index of the subtree in which an entry lies. -/
theorem place_lt (room : s = 10 ^ (k + 1)) (inside : i < 10 ^ (k + 1 + 1)) : i / s < 10 := by
  apply Nat.div_lt_of_lt_mul
  rw [room]
  exact inside

theorem room_pos (k : Nat) : 0 < 10 ^ (k + 1) := Nat.pow_pos (by omega)

theorem rest_lt (room : s = 10 ^ (k + 1)) (i : Nat) : i % s < 10 ^ (k + 1) := by
  rw [← room]
  exact Nat.mod_lt _ (room ▸ room_pos k)

theorem large_room (k : Nat) : 10 < 10 ^ (k + 1 + 1) := by
  have more : 10 ^ 1 < 10 ^ (k + 1 + 1) := Nat.pow_lt_pow_right (by omega) (by omega)
  simpa using more

theorem part_of_room (k : Nat) : 10 ^ (k + 1 + 1) / 10 = 10 ^ (k + 1) := by
  rw [pow_succ, Nat.mul_div_cancel _ (by omega)]

theorem fits_unfold (room : s = 10 ^ (k + 1)) {d : Value} : (unfold s d).Fits k := by
  subst room
  cases k with
  | zero => rfl
  | succ k =>
    rw [unfold, if_pos (large_room k), part_of_room]
    exact fits_node.mpr ⟨rfl, fun _ => rfl⟩

theorem expand_fits (inside : i < 10 ^ (k + 1)) {x d : Value} :
    ∃ e, expand i (10 ^ (k + 1)) x d = .ok e ∧ e.Fits k := by
  induction k generalizing i with
  | zero =>
    have made : expand i (10 ^ (0 + 1)) x d =
      .ok (.leaf (Function.update (fun _ => d) ⟨i, inside⟩ x)) := by
      rw [expand, if_neg (by simp), setelement_ok inside, ok_bind]
    exact ⟨_, made, rfl⟩
  | succ k ih =>
    obtain ⟨child, written, fits⟩ := ih (rest_lt rfl i)
    rw [expand, if_pos (large_room k)]
    simp only [part_of_room, written, setelement_ok (place_lt rfl inside)]
    exact ⟨_, rfl, fits_node.mpr ⟨rfl, of_update (fun _ => fits_unexpanded k) fits _⟩⟩

theorem set_1_fits (fits : e.Fits k) (inside : i < 10 ^ (k + 1)) (x d : Value) :
    ∃ e', set_1 x d i e = .ok e' ∧ e'.Fits k := by
  induction e generalizing k i with
  | unexpanded s =>
    cases fits
    exact expand_fits inside
  | leaf values =>
    cases fits
    rw [set_1, setelement_ok inside]
    exact ⟨_, rfl, rfl⟩
  | node children s ih =>
    obtain ⟨j, rfl, room, subtrees⟩ := fits
    obtain ⟨child, written, kept⟩ := ih _ (subtrees ⟨i / s, place_lt room inside⟩) (rest_lt room i)
    simp only [set_1, atElement_ok (place_lt room inside), written,
      setelement_ok (place_lt room inside)]
    exact ⟨_, rfl, fits_node.mpr ⟨room, of_update subtrees kept _⟩⟩

theorem reset_1_fits [DecidableEq Value] (fits : e.Fits k) (inside : i < 10 ^ (k + 1)) {d : Value} :
    reset_1 d i e = .error .default ∨ ∃ e', reset_1 d i e = .ok e' ∧ e'.Fits k := by
  induction e generalizing k i with
  | unexpanded s => exact .inl rfl
  | leaf values =>
    cases fits
    rw [reset_1, element_ok inside, ok_bind]
    split
    · exact .inl rfl
    · rw [setelement_ok inside]
      exact .inr ⟨_, rfl, rfl⟩
  | node children s ih =>
    obtain ⟨j, rfl, room, subtrees⟩ := fits
    simp only [reset_1, atElement_ok (place_lt room inside)]
    rcases ih _ (subtrees ⟨i / s, place_lt room inside⟩) (rest_lt room i)
      with same | ⟨child, written, kept⟩
    · rw [same]
      exact .inl rfl
    · simp only [written, setelement_ok (place_lt room inside)]
      exact .inr ⟨_, rfl, fits_node.mpr ⟨room, of_update subtrees kept _⟩⟩

/-- The room found is the least power that is enough. -/
theorem findMax_eq (i : Int) (k : Nat) :
    ∃ k', k ≤ k' ∧ findMax i (10 ^ (k + 1)) = 10 ^ (k' + 1) ∧ i < (10 ^ (k' + 1) : Nat) ∧
      ∀ j, k ≤ j → i < (10 ^ (j + 1) : Nat) → k' ≤ j := by
  generalize start : 10 ^ (k + 1) = m
  fun_induction findMax i m generalizing k with
  | case1 m more ih =>
    obtain ⟨k', later, found, enough, least⟩ := ih (k + 1) (by rw [pow_succ', start])
    refine ⟨k', by omega, found, enough, fun j from_k room => least j ?_ room⟩
    rcases Nat.eq_or_lt_of_le from_k with rfl | past
    · omega
    · exact past
  | case2 m stop =>
    have positive : 0 < m := start ▸ room_pos k
    exact ⟨k, le_rfl, start.symm, by rw [start]; omega, fun j from_k _ => from_k⟩

theorem fits_first {e : Elements Value} (fits : e.Fits k) :
    (Elements.node (Function.update (fun _ => .unexpanded (10 ^ (k + 1))) 0 e) (10 ^ (k + 1))).Fits
      (k + 1) :=
  fits_node.mpr ⟨rfl, of_update (fun _ => fits_unexpanded k) fits _⟩

theorem grow_1_fits {e : Elements Value} (fits : e.Fits k) :
    ∃ k' e', k ≤ k' ∧ grow_1 i e (10 ^ (k + 1)) = (e', 10 ^ (k' + 1)) ∧ e'.Fits k' ∧
    i < 10 ^ (k' + 1) := by
  generalize start : 10 ^ (k + 1) = m
  fun_induction grow_1 i e m generalizing k with
  | case1 e m more ih =>
    subst start
    obtain ⟨k', e', later, grown, kept, enough⟩ := ih (fits_first fits) (pow_succ' 10 (k + 1))
    exact ⟨k', e', by omega, grown, kept, enough⟩
  | case2 e m stop =>
    have positive : 0 < m := start ▸ room_pos k
    exact ⟨k, e, le_rfl, by rw [start], fits, by rw [start]; omega⟩

theorem map_2_1_fits {t : Fin 10 → Elements Value} (subtrees : ∀ c, (t c).Fits k)
    (kept : ∀ e ∈ l, e.Fits k) (mapped : map_2_1 t left i l = .ok children) :
    ∀ e ∈ children, e.Fits k := by
  induction left generalizing i l with
  | zero =>
    cases mapped
    exact kept
  | succ left ih =>
    obtain ⟨e, taken, rest⟩ := of_bind_ok mapped
    refine ih (forall_mem_cons.mpr ⟨?_, kept⟩) rest
    rw [element] at taken
    split at taken
    · cases taken
      exact subtrees _
    · cases taken

theorem map_2_fits {children l : List (Elements Value)} (room : s = 10 ^ (k + 1))
    (visited : ∀ i < 10, ∀ n < s, ∀ ix e, visit (i + 1) n ix = .ok e → e.Fits k)
    (subtrees : ∀ c, (t c).Fits k) (kept : ∀ e ∈ l, e.Fits k) (inside : i + left < 10)
    (partly : r < s) (mapped : map_2 visit t r s left (i + 1) ix l = .ok children) :
    ∀ e ∈ children, e.Fits k := by
  induction left generalizing i ix l with
  | zero =>
    obtain ⟨e, here, rest⟩ := of_bind_ok mapped
    exact map_2_1_fits subtrees
      (forall_mem_cons.mpr ⟨visited i inside r partly ix e here, kept⟩) rest
  | succ left ih =>
    obtain ⟨e, here, rest⟩ := of_bind_ok mapped
    have fits := visited i (by omega) (s - 1) (by omega) ix e here
    exact ih (forall_mem_cons.mpr ⟨fits, kept⟩) (by omega) rest

theorem map_1_fits [DecidableEq Value] {d : Value} (fits : e.Fits k)
    (inside : n < 10 ^ (k + 1)) (mapped : map_1 sparse d f n e ix = .ok e') : e'.Fits k := by
  fun_induction map_1 sparse d f n e ix generalizing k e' with
  | case1 n children s ix ih =>
    obtain ⟨j, rfl, room, subtrees⟩ := fits
    obtain ⟨l, visited, rest⟩ := of_bind_ok mapped
    obtain ⟨children', tuple, made⟩ := of_bind_ok rest
    cases made
    have all := map_2_fits room (fun i small m below ix e here => by
        rw [atElement_ok small] at here
        exact ih m ix _ (subtrees _) (room ▸ below) here)
      subtrees (by simp) (by simpa using place_lt room inside) (room ▸ rest_lt room n) visited
    refine fits_node.mpr ⟨room, fun c => all _ ?_⟩
    rw [← mem_reverse, of_listToTuple tuple]
    exact mem_ofFn.mpr ⟨c, rfl⟩
  | case2 n e ix _ =>
    cases mapped
    exact fits
  | case3 n e ix _ ih => exact ih (fits_unfold fits) inside mapped
  | case4 n values ix | case5 n values ix =>
    obtain ⟨l, visited, rest⟩ := of_bind_ok mapped
    obtain ⟨values', tuple, made⟩ := of_bind_ok rest
    cases made
    exact fits

end Otp.Arrays
