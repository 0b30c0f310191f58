import Otp.Stdlib.ArrayObservers

/-! Folds over arrays: each is the fold over the list of the entries, from the first or
from the last, whatever the callback does. -/

namespace Otp.Arrays

open List
open Otp.Library (Wide)

variable {Value Acc : Type} {f : Int → Value → Acc → Outcome Value Acc}

/-- The fold over pairs from the first. -/
def foldPairsl (f : Int → Value → Acc → Outcome Value Acc) (a : Acc) (pairs : List (Int × Value)) :
    Outcome Value Acc :=
  pairs.foldlM (fun a pair => f pair.1 pair.2 a) a

/-- The fold over pairs from the last. -/
def foldPairsr (f : Int → Value → Acc → Outcome Value Acc) (a : Acc) (pairs : List (Int × Value)) :
    Outcome Value Acc :=
  pairs.foldrM (fun pair a => f pair.1 pair.2 a) a

theorem foldPairsl_append : foldPairsl f a (first ++ second) =
      ((foldPairsl f a first) >>= fun a => foldPairsl f a second) :=
  foldlM_append

theorem foldPairsr_append (a : Acc) (first second : List (Int × Value)) :
    foldPairsr f a (first ++ second) =
      ((foldPairsr f a second) >>= fun a => foldPairsr f a first) :=
  foldrM_append

theorem foldl_3_eq (values : Fin 10 → Value) (inside : i + left ≤ 10) (a : Acc) (ix : Int) :
    foldl_3 f values left (i + 1) a ix =
      foldPairsl f a (numbered ix (((ofFn values).drop i).take left)) := by
  induction left generalizing i a ix with
  | zero => rfl
  | succ left ih =>
    have small : i < (List.ofFn values).length := by rw [length_ofFn]; omega
    rw [foldl_3, element_ok (by omega), drop_eq_getElem_cons small, take_succ_cons,
      List.getElem_ofFn]
    simp only [ih (show i + 1 + left ≤ 10 by omega)]
    rfl

theorem foldl_2_eq {rows : List (List Value)} (wide : Wide s rows) (positive : 0 < s)
    (visited : ∀ j row, rows[j]? = some row → ∀ n < s, ∀ a ix,
      visit (j + 1) n a ix = foldPairsl f a (numbered ix (row.take (n + 1))))
    (partly : r < s) (present : rows[i + left]? = some line) (a : Acc) (ix : Int) :
    foldl_2 visit r s left (i + 1) a ix =
      foldPairsl f a (numbered ix (((rows.drop i).take left).flatten ++ line.take (r + 1))) := by
  induction left generalizing i a ix with
  | zero => exact visited i line present r partly a ix
  | succ left ih =>
    have small : i < rows.length := by
      have := (List.getElem?_eq_some_iff.mp present).1
      omega
    have full : rows[i].length = s := wide _ (getElem_mem small)
    rw [foldl_2, visited i _ (getElem?_eq_getElem small) (s - 1) (by omega),
      take_of_length_le (by omega),
      drop_eq_getElem_cons small, take_succ_cons, flatten_cons, append_assoc,
      numbered_append, foldPairsl_append, full]
    simp only [ih (show rows[i + 1 + left]? = some line by rw [← present]; congr 1; omega)]

theorem foldr_3_eq (values : Fin 10 → Value) (inside : i ≤ 10) (ix : Int) (a : Acc) :
    foldr_3 f values ix i a = foldPairsr f a (numbered (ix + 1) ((ofFn values).take i)) := by
  induction i generalizing a with
  | zero => rfl
  | succ i ih =>
    have here : ix + 1 + ((ofFn values).take i).length = ix + (i + 1 : Nat) := by
      rw [length_take, length_ofFn]
      omega
    rw [foldr_3, element_ok inside, ok_bind, take_ofFn_succ inside, numbered_append, here]
    simp only [ih (Nat.le_of_succ_le inside)]
    simp [numbered, foldPairsr]

section Subtrees

variable {visit : Nat → Nat → Int → Acc → Outcome Value Acc} {rows : List (List Value)}
  (wide : Wide s rows) (positive : 0 < s)
  (visited : ∀ j row, rows[j]? = some row → ∀ n < s, ∀ (ix first : Int) a, ix = first + n →
    visit (j + 1) n ix a = foldPairsr f a (numbered first (row.take (n + 1))))

include wide positive visited

theorem foldr_2_whole (inside : i ≤ rows.length) (first : Int) (last : ix = first + s * i - 1)
    (a : Acc) :
    foldr_2 visit (s - 1) i ix a (s - 1) =
      foldPairsr f a (numbered first (rows.take i).flatten) := by
  induction i generalizing ix a with
  | zero => rfl
  | succ i ih =>
    have step : (s : Int) * (i + 1 : Nat) = s * i + s := by
      rw [Int.natCast_add, Int.mul_add, Int.natCast_one, Int.mul_one]
    have full : rows[i].length = s := wide _ (getElem_mem inside)
    rw [foldr_2, visited i _ (getElem?_eq_getElem inside) (s - 1) (by omega) ix (first + s * i) a
        (by omega), take_of_length_le (by omega),
      take_succ_eq_append_getElem inside, flatten_append, numbered_append,
      foldPairsr_append, wide.length_take (by omega)]
    simp only [ih (show i ≤ rows.length by omega) (show ix - (s - 1 : Nat) - 1 =
      first + s * i - 1 by omega)]
    simp

theorem foldr_2_eq {i r : Nat} (partly : r < s) (present : rows[i]? = some line) (first : Int)
    (last : ix = first + s * i + r) (a : Acc) :
    foldr_2 visit (s - 1) (i + 1) ix a r =
      foldPairsr f a (numbered first ((rows.take i).flatten ++ line.take (r + 1))) := by
  have small := (List.getElem?_eq_some_iff.mp present).1
  rw [foldr_2, visited i line present r partly ix (first + s * i) a last, numbered_append,
    foldPairsr_append, wide.length_take (by omega), Int.natCast_mul]
  simp only [foldr_2_whole wide positive visited (Nat.le_of_lt small) first
    (show ix - r - 1 = first + s * i - 1 by omega)]

end Subtrees

section Folds

variable [DecidableEq Value]

theorem foldPairsl_visiting :
    foldPairsl (visiting sparse d f) a l = foldPairsl f a (l.filter (visitsPair sparse d)) :=
  foldlM_filter.symm

theorem foldPairsr_visiting :
    foldPairsr (visiting sparse d f) a l = foldPairsr f a (l.filter (visitsPair sparse d)) :=
  foldrM_filter.symm

theorem foldPairsl_default (ix : Int) (n : Nat) (d : Value) (a : Acc) :
    foldPairsl (visiting true d f) a (numbered ix (replicate n d)) = .ok a := by
  rw [foldPairsl_visiting, numbered_replicate]
  rfl

theorem foldPairsr_default (ix : Int) (n : Nat) (d : Value) (a : Acc) :
    foldPairsr (visiting true d f) a (numbered ix (replicate n d)) = .ok a := by
  rw [foldPairsr_visiting, numbered_replicate]
  rfl

/-- A fold meets a tree that is no integer; the integer is unfolded before. -/
theorem foldl_1_eq (fits : e.Fits k) (inside : n < 10 ^ (k + 1)) : foldl_1 sparse d f n e a ix =
      foldPairsl (visiting sparse d f) a (numbered ix ((e.flat d).take (n + 1))) := by
  fun_induction foldl_1 sparse d f n e a ix generalizing k with
  | case1 n children s a ix ih =>
    obtain ⟨j, rfl, room, subtrees⟩ := fits
    have small := place_lt room inside
    have last : (rows d children)[0 + n / s]? = some ((children ⟨n / s, small⟩).flat d) := by
      rw [Nat.zero_add]
      exact row_of d children small
    rw [flat_take_node room subtrees inside]
    refine foldl_2_eq (wide_rows room subtrees d) (room ▸ room_pos j) ?_
      (room ▸ rest_lt room n) last a ix
    intro j row present m below a ix
    obtain ⟨small, rfl⟩ := of_row present
    rw [atElement_ok small]
    exact ih m a ix _ (subtrees _) (room ▸ below)
  | case2 n e a ix dense => rw [Elements.flat, take_replicate, dense, foldPairsl_default]
  | case3 n e a ix dense ih => rw [ih (fits_unfold fits) inside, flat_unfold fits, Elements.flat]
  | case4 n values a ix =>
    cases fits
    exact foldl_3_eq values (by omega) a ix

theorem foldr_1_eq (sparse : Bool) (d : Value) {i : Nat} (fits : e.Fits k)
    (inside : i < 10 ^ (k + 1)) (first : Int) (last : ix = first + i) (a : Acc) :
    foldr_1 sparse d f i e ix a =
      foldPairsr (visiting sparse d f) a (numbered first ((e.flat d).take (i + 1))) := by
  fun_induction foldr_1 sparse d f i e ix a generalizing k first with
  | case1 i children s ix a ih =>
    obtain ⟨j, rfl, room, subtrees⟩ := fits
    have small := place_lt room inside
    have split : (i : Int) = s * (i / s : Nat) + (i % s : Nat) := by
      exact_mod_cast (Nat.div_add_mod i s).symm
    rw [flat_take_node room subtrees inside]
    refine foldr_2_eq (wide_rows room subtrees d) (room ▸ room_pos j) ?_ (room ▸ rest_lt room i)
      (row_of d children small) first (by omega) a
    intro j row present m below ix first a last
    obtain ⟨small, rfl⟩ := of_row present
    rw [atElement_ok small]
    exact ih m ix a _ (subtrees _) (room ▸ below) first last
  | case2 i e ix a dense => rw [Elements.flat, take_replicate, dense, foldPairsr_default]
  | case3 i e ix a dense ih =>
    rw [ih (fits_unfold fits) inside first last, flat_unfold fits, Elements.flat]
  | case4 i values ix a =>
    cases fits
    have start : ix - (i + 1 : Nat) + 1 = first := by omega
    rw [foldr_3_eq values inside, start]
    rfl

end Folds

end Otp.Arrays
