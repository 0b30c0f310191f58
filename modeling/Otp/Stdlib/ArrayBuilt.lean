import Otp.Stdlib.ArrayBuild
import Otp.Stdlib.ArrayShape

/-! The trees that `from_list` and `from_orddict` build have just the room that they
report. -/

namespace Otp.Arrays

open List

variable {Value : Type}
variable {es : List (Elements Value)}

theorem fits_of_listToTuple {t : Fin 10 → Elements Value}
    (fit : ∀ e ∈ l, e.Fits k) (made : (listToTuple l : Outcome Value _) = .ok t)
    (room : s = 10 ^ (k + 1)) : (Elements.node t s).Fits (k + 1) := by
  refine fits_node.mpr ⟨room, fun c => fit _ ?_⟩
  rw [of_listToTuple made]
  exact mem_ofFn.mpr ⟨c, rfl⟩

theorem fromList_2_fits {xs as : List (Elements Value)} (room : s = 10 ^ (k + 1))
    (subtrees : ∀ x ∈ xs, x.Fits k) (taken : ∀ e ∈ as, e.Fits k) (places : as.length + i = 10)
    (nodes : ∀ e ∈ es, e.Fits (k + 1)) (whole : xs.length = i + 10 * more) :
    ∃ e rest, fromList_2 s i xs as es = .ok (e, rest) ∧ rest.length = es.length + more ∧
      ∀ node ∈ e :: rest, node.Fits (k + 1) := by
  fun_induction fromList_2 s i xs as es generalizing more with
  | case1 as es =>
    obtain ⟨t, made, -⟩ := listToTuple_ok Value places
    have fits := fits_of_listToTuple taken made room
    refine ⟨.node t s, es, by rw [made, ok_bind], ?_, forall_mem_cons.mpr ⟨fits, nodes⟩⟩
    simp only [length_nil] at whole
    omega
  | case2 as es x xs ih =>
    obtain ⟨t, made, -⟩ := listToTuple_ok Value places
    have fits := fits_of_listToTuple taken made room
    obtain ⟨more, rfl⟩ : ∃ less, more = less + 1 := by
      refine ⟨more - 1, ?_⟩
      simp only [length_cons] at whole
      omega
    obtain ⟨e, rest, gathered, length, fit⟩ := ih t subtrees (by simp) rfl
      (forall_mem_cons.mpr ⟨fits, nodes⟩) (show (x :: xs).length = 10 + 10 * more by omega)
    refine ⟨e, rest, by rw [made, ok_bind, gathered], ?_, fit⟩
    simp only [length_cons] at length
    omega
  | case3 as es i x xs ih =>
    obtain ⟨here, rest⟩ := forall_mem_cons.mp subtrees
    refine ih rest (forall_mem_cons.mpr ⟨here, taken⟩) ?_ nodes ?_
    · simp only [length_cons]
      omega
    · simp only [length_cons] at whole
      omega
  | case4 as es i =>
    simp only [length_nil] at whole
    omega

section

variable {es : List (Elements Value)}

theorem pad_fits (fit : ∀ e ∈ es, e.Fits k) : ∀ e ∈ pad n 10 (10 ^ (k + 1)) es, e.Fits k := by
  have all (count : Nat) {es : List (Elements Value)} (fit : ∀ e ∈ es, e.Fits k) :
      ∀ e ∈ push count (.unexpanded (10 ^ (k + 1))) es, e.Fits k := by
    induction count generalizing es with
    | zero => exact fit
    | succ count ih => exact ih (forall_mem_cons.mpr ⟨fits_unexpanded k, fit⟩)
  exact all _ fit

/-- One level of nodes over the subtrees of an array of `n` entries. -/
theorem fromList_level (room : s = 10 ^ (k + 1)) (fit : ∀ e ∈ es, e.Fits k)
    (count : es.length = (n - 1) / s + 1) :
    ∃ e rest, fromList_2 s 10 (pad ((n - 1) / s + 1) 10 s es) [] [] = .ok (e, rest) ∧
      rest.length = (n - 1) / (10 * s) ∧ ∀ node ∈ e :: rest, node.Fits (k + 1) := by
  subst room
  have whole : (pad ((n - 1) / 10 ^ (k + 1) + 1) 10 (10 ^ (k + 1)) es).length =
      10 + 10 * ((n - 1) / (10 * 10 ^ (k + 1))) := by
    rw [pad, push_length, Nat.mul_comm 10 (10 ^ (k + 1)), ← Nat.div_div_eq_div_mul]
    omega
  simpa using fromList_2_fits rfl (pad_fits fit) (forall_mem_nil _) rfl (forall_mem_nil _) whole

theorem fromList_2_0_fits (room : s = 10 ^ (k + 1)) (positive : 0 < n) (fit : ∀ e ∈ es, e.Fits k)
    (count : es.length = (n - 1) / s + 1) :
    ∃ e k', fromList_2_0 n es s = .ok (e, n, 10 ^ (k' + 1)) ∧ e.Fits k' ∧ n ≤ 10 ^ (k' + 1) := by
  have next : 10 * s = 10 ^ (k + 1 + 1) := by rw [room, ← pow_succ']
  obtain ⟨e, rest, gathered, length, nodes⟩ := fromList_level room fit count
  fun_induction fromList_2_0 n es s generalizing k e rest with
  | case1 es s e' made =>
    cases made.symm.trans gathered
    have small : n - 1 < 10 * s := Nat.lt_of_div_eq_zero (next ▸ room_pos (k + 1)) length.symm
    exact ⟨e', k + 1, by rw [next], nodes e' (by simp), by omega⟩
  | case2 es s e' e'' rest' made ih =>
    cases made.symm.trans gathered
    have fit' : ∀ node ∈ (e' :: e'' :: rest').reverse, node.Fits (k + 1) := fun node member =>
      nodes node (mem_reverse.mp member)
    have count' : (e' :: e'' :: rest').reverse.length = (n - 1) / (10 * s) + 1 := by
      rw [length_reverse, length_cons, length]
    obtain ⟨above, others, gathered', length', nodes'⟩ := fromList_level next fit' count'
    exact ih next fit' count' (by rw [next, ← pow_succ']) above others gathered' length' nodes'
  | case3 es s exit failed => cases failed.symm.trans gathered

theorem fromList_1_fits (places : as.length + i = 10) (leaves : ∀ e ∈ es, e.Fits 0)
    (unpadded : xs ≠ [] → n = 10 * es.length + as.length) (most : n ≤ 10 * es.length + as.length)
    (more : 10 * es.length < n + xs.length) :
    ∃ e k', fromList_1 d i xs n as es = .ok (e, n + xs.length, 10 ^ (k' + 1)) ∧ e.Fits k' ∧
      n + xs.length ≤ 10 ^ (k' + 1) := by
  fun_induction fromList_1 d i xs n as es with
  | case1 n as es =>
    obtain ⟨t, made, -⟩ := listToTuple_ok Value (length_reverse.trans places)
    simp only [length_nil, Nat.add_zero] at *
    rw [made]
    cases es with
    | nil => exact ⟨.leaf t, 0, rfl, rfl, by simpa [places] using most⟩
    | cons e es =>
      have count : (.leaf t :: e :: es : List (Elements Value)).length = (n - 1) / 10 + 1 := by
        simp only [length_cons] at *
        omega
      exact fromList_2_0_fits (by simp) (by omega) (forall_mem_cons.mpr ⟨fits_leaf t, leaves⟩) count
  | case2 n as es x xs ih =>
    obtain ⟨t, made, -⟩ := listToTuple_ok Value (length_reverse.trans places)
    have exact_n := unpadded (by simp)
    rw [made]
    refine ih t rfl (forall_mem_cons.mpr ⟨fits_leaf t, leaves⟩) ?_ ?_ ?_
    all_goals simp only [length_cons, length_nil] at *
    all_goals omega
  | case3 n as es i x xs ih =>
    have exact_n := unpadded (by simp)
    have shift : n + (x :: xs).length = n + 1 + xs.length := by
      rw [length_cons]
      omega
    rw [shift]
    refine ih ?_ leaves ?_ ?_ ?_
    all_goals simp only [length_cons] at *
    all_goals omega
  | case4 n as es i ih =>
    refine ih ?_ leaves (by simp) ?_ more
    all_goals simp only [length_cons] at *
    all_goals omega

/-- What may stand in the list of a level: a subtree, or a hole that is no smaller. -/
def Entry (k : Nat) : Elements Value → Prop
  | .unexpanded x => 10 ^ (k + 1) ≤ x
  | e => e.Fits k

/-- How many places of the level an entry takes. -/
def span (s : Nat) : Elements Value → Nat
  | .unexpanded x => x / s
  | _ => 1

def spans (s : Nat) (es : List (Elements Value)) : Nat := (es.map (span s)).sum

theorem spans_cons (s : Nat) (e : Elements Value) (es : List (Elements Value)) :
    spans s (e :: es) = span s e + spans s es := rfl

theorem spans_reverse : spans s es.reverse = spans s es := by
  rw [spans, map_reverse, sum_reverse, spans]

end

theorem span_pos {e : Elements Value} (room : s = 10 ^ (k + 1)) (entry : Entry k e) :
    0 < span s e := by
  cases e with
  | unexpanded x => exact Nat.div_pos (room ▸ entry) (room ▸ room_pos k)
  | leaf | node => exact Nat.one_pos

theorem fits_push {as : List (Elements Value)} (taken : ∀ e ∈ as, e.Fits k)
    (room : s = 10 ^ (k + 1)) {count : Nat} : ∀ e ∈ push count (.unexpanded s) as, e.Fits k := by
  subst room
  induction count generalizing as with
  | zero => exact taken
  | succ count ih => exact ih (forall_mem_cons.mpr ⟨fits_unexpanded k, taken⟩)

/-- What a level of `total` nodes is gathered to. -/
def Gathered (k total : Nat) : Level Value → Prop
  | .single e => e.Fits (k + 1) ∧ total = 1
  | .again es => (∀ e ∈ es, Entry (k + 1) e) ∧ spans (10 ^ (k + 1 + 1)) es = total

section

variable (room : s = 10 ^ (k + 1))

include room

theorem collectLeafs_gathers {xs as : List (Elements Value)} (entries : ∀ x ∈ xs, Entry k x)
    (taken : ∀ e ∈ as, e.Fits k) (places : as.length + i = 10) (nodes : ∀ e ∈ es, Entry (k + 1) e)
    (whole : spans s xs + as.length + 10 * spans (10 * s) es = 10 * total) :
    ∃ level, collectLeafs s i xs as es = .ok level ∧ Gathered k total level := by
  have positive : 0 < s := room ▸ room_pos k
  have next : 10 * s = 10 ^ (k + 1 + 1) := by rw [room, ← pow_succ']
  fun_induction collectLeafs s i xs as es with
  | case1 as es =>
    obtain ⟨t, made, -⟩ := listToTuple_ok Value places
    have fits := fits_of_listToTuple taken made room
    have empty : spans s ([] : List (Elements Value)) = 0 := rfl
    rw [made]
    cases es with
    | nil =>
      have none : spans (10 * s) ([] : List (Elements Value)) = 0 := rfl
      exact ⟨_, rfl, fits, by omega⟩
    | cons e es =>
      have all : ∀ node ∈ .node t s :: e :: es, Entry (k + 1) node :=
        forall_mem_cons.mpr ⟨fits, nodes⟩
      refine ⟨_, rfl, fun node member => all node (mem_reverse.mp member), ?_⟩
      have one : span (10 * s) (.node t s) = 1 := rfl
      rw [spans_reverse, ← next, spans_cons]
      omega
  | case2 as es x xs ih =>
    obtain ⟨t, made, -⟩ := listToTuple_ok Value places
    have fits : Entry (k + 1) (.node t s) := fits_of_listToTuple taken made room
    have one : span (10 * s) (.node t s) = 1 := rfl
    rw [made]
    refine ih t entries (forall_mem_nil _) rfl (forall_mem_cons.mpr ⟨fits, nodes⟩) ?_
    rw [spans_cons (10 * s), length_nil]
    omega
  | case3 as es i x xs step0 fewer ih =>
    obtain ⟨-, rest⟩ := forall_mem_cons.mp entries
    have here : span s (.unexpanded x : Elements Value) = step0 := rfl
    rw [spans_cons] at whole
    refine ih rest (fits_push taken room) ?_ nodes ?_
    all_goals rw [push_length]; omega
  | case4 as es i x xs step0 many start step ih =>
    obtain ⟨-, rest⟩ := forall_mem_cons.mp entries
    have here : span s (.unexpanded x : Elements Value) = step0 := rfl
    have above : span (10 * s) (.unexpanded x : Elements Value) = step0 / 10 := by
      rw [span, Nat.mul_comm, ← Nat.div_div_eq_div_mul]
    have large : 10 * s ≤ x := by
      have ten : 10 ≤ x / s := by omega
      exact (Nat.mul_le_mul_right s ten).trans (Nat.div_mul_le_self x s)
    have entry : Entry (k + 1) (.unexpanded x : Elements Value) := by
      rw [Entry, ← next]
      exact large
    rw [spans_cons] at whole
    refine ih rest (fits_push taken room) ?_ (forall_mem_cons.mpr ⟨entry, nodes⟩) ?_
    · rw [push_length]
      omega
    · rw [push_length, spans_cons]
      omega
  | case5 as es i x xs step0 many inner same ih =>
    obtain ⟨-, rest⟩ := forall_mem_cons.mp entries
    have here : span s (.unexpanded x : Elements Value) = step0 := rfl
    rw [spans_cons] at whole
    refine ih rest (fits_push taken room) ?_ nodes ?_
    all_goals rw [push_length]; omega
  | case6 as es i x xs step0 many inner other ih =>
    obtain ⟨-, rest⟩ := forall_mem_cons.mp entries
    have here : span s (.unexpanded x : Elements Value) = step0 := rfl
    have left : span s (.unexpanded ((step0 - (i + 1)) * s) : Elements Value) = step0 - (i + 1) :=
      Nat.mul_div_cancel _ positive
    have entry : Entry k (.unexpanded ((step0 - (i + 1)) * s) : Elements Value) := by
      have one : 1 ≤ step0 - (i + 1) := by omega
      simpa [Entry, ← room] using Nat.mul_le_mul_right s one
    rw [spans_cons] at whole
    refine ih (forall_mem_cons.mpr ⟨entry, rest⟩) (fits_push taken room) ?_ nodes ?_
    · rw [push_length]
      omega
    · rw [push_length, spans_cons]
      omega
  | case7 as es i x xs subtree ih =>
    obtain ⟨entry, rest⟩ := forall_mem_cons.mp entries
    obtain ⟨fits, one⟩ : x.Fits k ∧ span s x = 1 := by
      cases x with
      | unexpanded x => exact (subtree x rfl).elim
      | leaf | node => exact ⟨entry, rfl⟩
    rw [spans_cons] at whole
    refine ih rest (forall_mem_cons.mpr ⟨fits, taken⟩) ?_ nodes ?_
    all_goals rw [length_cons]; omega
  | case8 as es i stop =>
    have empty : spans s ([] : List (Elements Value)) = 0 := rfl
    refine ⟨_, rfl, fun e member => nodes e (mem_reverse.mp member), ?_⟩
    rw [spans_reverse, ← next]
    omega
  | case9 as es i stop =>
    have empty : spans s ([] : List (Elements Value)) = 0 := rfl
    refine (stop ⟨by omega, eq_nil_of_length_eq_zero ?_⟩).elim
    omega

/-- Entries that just fill the node at hand end in it. -/
theorem collectLeafs_single {xs as : List (Elements Value)} (entries : ∀ x ∈ xs, Entry k x)
    (places : as.length + i = 10) (begun : i < 10) (whole : spans s xs = i) :
    ∃ e, collectLeafs s i xs as [] = .ok (.single e) := by
  generalize nothing : ([] : List (Elements Value)) = es
  fun_induction collectLeafs s i xs as es with
  | case1 as es =>
    obtain ⟨t, made, -⟩ := listToTuple_ok Value places
    subst nothing
    exact ⟨.node t s, by rw [made, ok_bind]⟩
  | case2 as es x xs ih =>
    have positive := span_pos room (entries x (by simp))
    rw [spans_cons] at whole
    omega
  | case3 as es i x xs step0 fewer ih =>
    obtain ⟨here, rest⟩ := forall_mem_cons.mp entries
    have size : span s (.unexpanded x : Elements Value) = step0 := rfl
    rw [spans_cons] at whole
    refine ih rest ?_ ?_ ?_ nothing
    · rw [push_length]
      omega
    all_goals omega
  | case4 as es i x xs step0 many start step ih => omega
  | case5 as es i x xs step0 many inner same ih =>
    obtain ⟨-, rest⟩ := forall_mem_cons.mp entries
    have size : span s (.unexpanded x : Elements Value) = step0 := rfl
    rw [spans_cons] at whole
    refine ih rest ?_ (by omega) (by omega) nothing
    rw [push_length]
    omega
  | case6 as es i x xs step0 many inner other ih =>
    have size : span s (.unexpanded x : Elements Value) = step0 := rfl
    rw [spans_cons] at whole
    omega
  | case7 as es i x xs subtree ih =>
    obtain ⟨entry, rest⟩ := forall_mem_cons.mp entries
    have one : span s x = 1 := by
      cases x with
      | unexpanded x => exact (subtree x rfl).elim
      | leaf | node => rfl
    rw [spans_cons] at whole
    refine ih rest ?_ (by omega) (by omega) nothing
    rw [length_cons]
    omega
  | case8 as es i stop => omega
  | case9 as es i stop =>
    have empty : spans s ([] : List (Elements Value)) = 0 := rfl
    omega

theorem collectLeafs_level {xs : List (Elements Value)} (entries : ∀ x ∈ xs, Entry k x)
    (whole : spans s xs = 10 * total) : ∃ level, collectLeafs s 10 xs [] [] = .ok level ∧
    Gathered k total level :=
  collectLeafs_gathers room entries (forall_mem_nil _) rfl (forall_mem_nil _) whole

/-- One level over the entries of an array of `n`, with the hole after the last of them. -/
theorem collectLevel (entries : ∀ e ∈ es, Entry k e) (count : spans s es = (n - 1) / s + 1) :
    ∃ level, collectLeafs s 10 (if (10 - ((n - 1) / s + 1) % 10) % 10 * s = 0 then es
        else .unexpanded ((10 - ((n - 1) / s + 1) % 10) % 10 * s) :: es) [] [] = .ok level ∧
      Gathered k ((n - 1) / (10 * s) + 1) level ∧ ((n - 1) / s = 0 → ∃ e, level = .single e) := by
  have positive : 0 < s := room ▸ room_pos k
  have upper : (n - 1) / (10 * s) = (n - 1) / s / 10 := by
    rw [Nat.div_div_eq_div_mul, Nat.mul_comm]
  generalize missing : (10 - ((n - 1) / s + 1) % 10) % 10 = p
  by_cases full : p = 0
  · subst full
    obtain ⟨level, collected, gathered⟩ := collectLeafs_level room entries
      (show spans s es = 10 * ((n - 1) / (10 * s) + 1) by omega)
    refine ⟨level, by rw [Nat.zero_mul, if_pos rfl, collected], gathered, ?_⟩
    omega
  · have some : p * s ≠ 0 := Nat.mul_ne_zero full (by omega)
    have size : span s (.unexpanded (p * s) : Elements Value) = p := Nat.mul_div_cancel _ positive
    have entry : Entry k (.unexpanded (p * s) : Elements Value) := by
      rw [Entry, ← room]
      exact Nat.le_mul_of_pos_left s (by omega)
    have padded := forall_mem_cons.mpr ⟨entry, entries⟩
    obtain ⟨level, collected, gathered⟩ := collectLeafs_level room padded
      (show spans s (.unexpanded (p * s) :: es) = 10 * ((n - 1) / (10 * s) + 1) by
        rw [spans_cons]
        omega)
    refine ⟨level, by rw [if_neg some, collected], gathered, fun few => ?_⟩
    -- Nine places are missing, so that the node at hand is begun and ends with the one entry.
    obtain rfl : p = 9 := by omega
    have nine : 9 * s / s = 9 := Nat.mul_div_cancel _ positive
    obtain ⟨e, single⟩ := collectLeafs_single room entries
      (show (push 9 (.unexpanded s : Elements Value) []).length + 1 = 10 by rw [push_length]; rfl)
      (by omega) (by omega)
    rw [collectLeafs.eq_def] at collected
    simp only [nine] at collected
    exact ⟨e, Except.ok.inj (collected.symm.trans single)⟩

theorem collectLevels_fits (positive : 0 < n) (entries : ∀ e ∈ es, Entry k e)
    (count : spans s es = (n - 1) / s + 1) (enough : (n - 1) / s < fuel) :
    ∃ e k', collectLevels fuel n es s = .ok (e, n, 10 ^ (k' + 1)) ∧ e.Fits k' ∧
    n ≤ 10 ^ (k' + 1) := by
  induction fuel generalizing k es s with
  | zero => exact (Nat.not_lt_zero _ enough).elim
  | succ fuel ih =>
    have next : 10 * s = 10 ^ (k + 1 + 1) := by rw [room, ← pow_succ']
    have upper : (n - 1) / (10 * s) = (n - 1) / s / 10 := by
      rw [Nat.div_div_eq_div_mul, Nat.mul_comm]
    obtain ⟨level, collected, gathered, last⟩ := collectLevel room entries count
    simp only [collectLevels]
    rw [collected, ok_bind]
    cases level with
    | single e =>
      obtain ⟨fits, one⟩ := gathered
      have small : n - 1 < 10 * s := Nat.lt_of_div_eq_zero (next ▸ room_pos (k + 1)) (by omega)
      exact ⟨e, k + 1, by rw [next], fits, by omega⟩
    | again es =>
      obtain ⟨entries, total⟩ := gathered
      have many : (n - 1) / s ≠ 0 := by
        intro few
        obtain ⟨e, single⟩ := last few
        cases single
      exact ih next entries (next ▸ total) (by omega)

end

/-- What `from_orddict_1` leaves of the pairs, and how far it counts the entries. -/
structure LeafTaken (left ix : Nat) (xs : List (Int × Value)) (n : Nat) (xs' : List (Int × Value))
    (n' : Nat) : Prop where
  least : n ≤ n'
  most : n' ≤ ix + left
  full : xs' ≠ [] → n' = ix + left
  begun : xs ≠ [] → 0 < left → ix < n'
  ordered : ∀ pair rest, xs = pair :: rest → 0 < left → ix ≤ pair.1
  shorter : xs'.length ≤ xs.length
  consumed : ∀ pair rest, xs = pair :: rest → ix ≤ pair.1 → pair.1 < ix + left →
    xs'.length < xs.length
  waiting : ∀ pair rest, xs = pair :: rest → ix + left ≤ pair.1 → xs' = xs

theorem fromOrddict_1_leaf (xs : List (Int × Value)) (places : as.length + left = 10)
    (most : n ≤ ix) (counted : xs ≠ [] → n = ix) :
    (∃ bad, fromOrddict_1 d left ix xs n as = .error (.badPairs bad)) ∨
      ∃ xs' t n', fromOrddict_1 d left ix xs n as = .ok (xs', .leaf t, n') ∧
        LeafTaken left ix xs n xs' n' := by
  induction left generalizing ix xs n as with
  | zero =>
    obtain ⟨t, made, -⟩ := listToTuple_ok Value (length_reverse.trans places)
    refine .inr ⟨xs, t, n, by rw [fromOrddict_1, made, ok_bind], le_rfl, most, counted, by simp,
      by simp, le_rfl, fun pair rest _ _ => by omega, fun _ _ _ _ => rfl⟩
  | succ left ih =>
    have places' (value : Value) : (value :: as).length + left = 10 := by
      rw [length_cons]
      omega
    match xs with
    | [] =>
      rcases ih [] (places' d) (show n ≤ ix + 1 by omega) (by simp) with
        ⟨bad, failed⟩ | ⟨xs', t, n', made, taken⟩
      · exact .inl ⟨bad, by rw [fromOrddict_1, failed]⟩
      · refine .inr ⟨xs', t, n', by rw [fromOrddict_1, made], taken.least, ?_, ?_, by simp, by simp,
          taken.shorter, by simp, by simp⟩
        · have := taken.most
          omega
        · intro more
          have := taken.full more
          omega
    | (ix1, val) :: xs =>
      rw [fromOrddict_1]
      by_cases same : ix1 = ix
      · rw [if_pos same]
        rcases ih xs (places' val) (le_refl (ix + 1)) (fun _ => rfl) with
          ⟨bad, failed⟩ | ⟨xs', t, n', made, taken⟩
        · exact .inl ⟨bad, failed⟩
        · have least := taken.least
          have shorter := taken.shorter
          refine .inr ⟨xs', t, n', made, by omega, ?_, ?_, by omega, ?_, ?_, ?_, ?_⟩
          · have := taken.most
            omega
          · intro more
            have := taken.full more
            omega
          · rintro pair rest ⟨⟩ _
            exact same.ge
          · rw [length_cons]
            omega
          · rw [length_cons]
            omega
          · rintro pair rest ⟨⟩ late
            omega
      · rw [if_neg same]
        by_cases later : ix1 > ix
        · rw [if_pos later]
          rcases ih ((ix1, val) :: xs) (places' d) (le_refl (ix + 1)) (fun _ => rfl) with
            ⟨bad, failed⟩ | ⟨xs', t, n', made, taken⟩
          · exact .inl ⟨bad, failed⟩
          · have least := taken.least
            refine .inr ⟨xs', t, n', made, by omega, ?_, ?_, by omega, ?_, taken.shorter, ?_, ?_⟩
            · have := taken.most
              omega
            · intro more
              have := taken.full more
              omega
            · rintro pair rest ⟨⟩ _
              exact later.le
            · rintro pair rest ⟨⟩ _ inside
              exact taken.consumed _ _ rfl (by simp only; omega) (by simp only at *; omega)
            · rintro pair rest ⟨⟩ late
              exact taken.waiting _ _ rfl (by simp only at *; omega)
        · rw [if_neg later]
          exact .inl ⟨_, rfl⟩

/-- The leaves and holes before index `ix`, when these pairs are left. -/
structure LeavesLaid (xs : List (Int × Value)) (ix : Nat) (es : List (Elements Value)) : Prop where
  entries : ∀ e ∈ es, Entry 0 e
  aligned : xs ≠ [] → ix = 10 * spans 10 es
  last : xs = [] → (∃ t rest, es = .leaf t :: rest) ∧ ix ≤ 10 * spans 10 es ∧
    10 * spans 10 es < ix + 10

/-- Two rounds are left for each pair, but for one that the next leaf will hold. -/
def Rounds (fuel : Nat) (xs : List (Int × Value)) (ix : Nat) : Prop :=
  2 * xs.length ≤ fuel ∨ 2 * xs.length ≤ fuel + 1 ∧ ∀ pair rest, xs = pair :: rest →
  pair.1 < ix + 10

theorem LeavesLaid.finish (laid : LeavesLaid [] n es) (m : Nat) :
    ∃ e k', fromOrddict_0 d fuel [] n m es = .ok (e, n, 10 ^ (k' + 1)) ∧ e.Fits k' ∧
    n ≤ 10 ^ (k' + 1) := by
  obtain ⟨⟨t, rest, rfl⟩, most, more⟩ := laid.last rfl
  have one : span 10 (.leaf t) = 1 := rfl
  rw [spans_cons, one] at most more
  cases rest with
  | nil =>
    have none : spans 10 ([] : List (Elements Value)) = 0 := rfl
    exact ⟨.leaf t, 0, by rw [fromOrddict_0]; rfl, fits_leaf t, by simpa [none] using most⟩
  | cons e rest =>
    have count : spans 10 (.leaf t :: e :: rest) = (n - 1) / 10 + 1 := by
      rw [spans_cons]
      omega
    obtain ⟨e', k', built⟩ := collectLevels_fits (k := 0) rfl (by omega) laid.entries count
      (show (n - 1) / (10 ^ (0 + 1)) < n + 1 by omega)
    exact ⟨e', k', by rw [fromOrddict_0]; exacts [built.1, by simp], built.2⟩

theorem fromOrddict_0_fits (laid : LeavesLaid xs ix es) (rounds : Rounds fuel xs ix) :
    (∃ bad, fromOrddict_0 d fuel xs ix (ix + 10) es = .error (.badPairs bad)) ∨
      ∃ e n k', fromOrddict_0 d fuel xs ix (ix + 10) es = .ok (e, n, 10 ^ (k' + 1)) ∧ e.Fits k' ∧
        n ≤ 10 ^ (k' + 1) := by
  induction fuel generalizing xs ix es with
  | zero =>
    cases xs with
    | nil =>
      obtain ⟨e, k', built⟩ := laid.finish (ix + 10)
      exact .inr ⟨e, ix, k', built⟩
    | cons pair xs =>
      have enough : 2 * (pair :: xs).length ≤ 1 := by
        rcases rounds with enough | ⟨enough, -⟩ <;> omega
      rw [length_cons] at enough
      omega
  | succ fuel ih =>
    match xs with
    | [] =>
      obtain ⟨e, k', built⟩ := laid.finish (ix + 10)
      exact .inr ⟨e, ix, k', built⟩
    | (ix1, val) :: xs =>
      have aligned := laid.aligned (by simp)
      rw [fromOrddict_0]
      by_cases hole : ix1 > (ix + 10 : Nat)
      · rw [if_pos hole]
        refine ih ⟨?_, fun _ => ?_, by simp⟩ ?_
        · refine forall_mem_cons.mpr ⟨?_, laid.entries⟩
          rw [Entry]
          omega
        · have size (step : Nat) : span 10 (.unexpanded step : Elements Value) = step / 10 := rfl
          rw [spans_cons, size]
          omega
        · refine .inr ⟨?_, ?_⟩
          · rcases rounds with enough | ⟨-, near⟩
            · omega
            · have := near _ _ rfl
              omega
          · rintro pair rest ⟨⟩
            omega
      · rw [if_neg hole, Nat.add_sub_cancel_left]
        rcases fromOrddict_1_leaf ((ix1, val) :: xs) (show ([] : List Value).length + 10 =
          10 from rfl)
            (le_refl ix) (fun _ => rfl) with ⟨bad, failed⟩ | ⟨xs', t, n', made, taken⟩
        · exact .inl ⟨bad, by rw [failed]; rfl⟩
        · rw [made]
          have begun := taken.begun (by simp) (by omega)
          have most := taken.most
          have one : span 10 (.leaf t) = 1 := rfl
          refine ih ⟨?_, fun more => ?_, fun _ => ⟨⟨t, es, rfl⟩, ?_⟩⟩ ?_
          · exact forall_mem_cons.mpr ⟨fits_leaf t, laid.entries⟩
          · rw [spans_cons, taken.full more]
            omega
          · rw [spans_cons]
            omega
          · have ordered := taken.ordered _ _ rfl (by omega)
            by_cases inside : ix1 < ix + 10
            · have fewer := taken.consumed _ _ rfl ordered inside
              refine .inl ?_
              rcases rounds with enough | ⟨enough, -⟩ <;> omega
            · obtain rfl := taken.waiting _ _ rfl (by simp only; omega)
              refine .inr ⟨?_, ?_⟩
              · rcases rounds with enough | ⟨-, near⟩
                · omega
                · exact (inside (near _ _ rfl)).elim
              · rintro pair rest ⟨⟩
                omega

end Otp.Arrays
