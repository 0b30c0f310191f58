import Otp.Stdlib.ArrayBuilt
import Otp.Stdlib.ArrayFolds

/-! Arrays under updates. The room of a tree is not stored: `relax/1` and `resize/2` take
it from the size. After an array was made smaller the tree may have more room than
that, and growing it then puts it below a node that counts it as smaller. Up to
such a step all functions that read an array agree; after it they do not. -/

namespace Otp.Arrays

open List

variable {Value Acc : Type}
variable {a : ArrayRecord Value}

/-- The tree has room for the entries, and for those that `max` promises. -/
def Sound (a : ArrayRecord Value) : Prop :=
  ∃ k, a.elements.Fits k ∧ a.size ≤ 10 ^ (k + 1) ∧
    (a.max = 0 ∨ ∃ j ≤ k, a.max = 10 ^ (j + 1) ∧ a.size ≤ a.max)

/-- The entries of an array. -/
def entries (a : ArrayRecord Value) : List Value := (a.elements.flat a.default).take a.size

section

variable {a : ArrayRecord Value}

theorem Sound.length_entries (sound : Sound a) : (entries a).length = a.size := by
  obtain ⟨k, fits, room, -⟩ := sound
  rw [entries, length_take, length_flat fits, Nat.min_eq_left room]

theorem Sound.get (sound : Sound a) (inside : i < a.size) :
    ∃ value, get i a = .ok value ∧ (entries a)[i]? = some value := by
  obtain ⟨k, fits, room, -⟩ := sound
  obtain ⟨value, found, entry⟩ := get_1_eq fits (inside.trans_le room)
  refine ⟨value, by rw [Arrays.get, if_pos inside, found], ?_⟩
  rw [entries, getElem?_take_of_lt inside, entry]

/-- The index after the last of these pairs. -/
def afterLast (l : List (Int × Value)) : Int := l.getLast?.elim 0 fun pair => pair.1 + 1

theorem afterLast_numbered (keep : Int × Value → Bool) {ix : Int} (l : List Value)
    (start : 0 ≤ ix) :
    0 ≤ afterLast ((numbered ix l).filter keep) ∧
      afterLast ((numbered ix l).filter keep) ≤ ix + l.length := by
  rcases eq_nil_or_concat' ((numbered ix l).filter keep) with none | ⟨front, last, some⟩
  · rw [none]
    exact ⟨le_rfl, by simp only [afterLast, getLast?_nil, Option.elim]; omega⟩
  · have within : ∀ (ix : Int) (l : List Value), ∀ pair ∈ numbered ix l,
        ix ≤ pair.1 ∧ pair.1 < ix + l.length := by
      intro ix l
      induction l generalizing ix with
      | nil => simp [numbered]
      | cons value l ih =>
        intro pair member
        rw [length_cons]
        rcases mem_cons.mp member with rfl | later
        · omega
        · have := ih (ix + 1) pair later
          omega
    have member : last ∈ (numbered ix l).filter keep := by simp [some]
    have place := within ix l last (mem_of_mem_filter member)
    have value : afterLast (front ++ [last]) = last.1 + 1 := by simp [afterLast]
    rw [some]
    omega

/-- The room that `resize/2` takes the tree to have. -/
def assumedRoom (a : ArrayRecord Value) : Nat :=
  if 0 < a.max then a.max else findMax (a.size - 1) 10

/-- Is this a node with more room than `m`? -/
def Elements.Exceeds (m : Nat) : Elements Value → Prop
  | .node _ s => m < 10 * s
  | _ => False

theorem fits_exceeds {e : Elements Value} (fits : e.Fits k) (less : j < k) :
    e.Exceeds (10 ^ (j + 1)) ∨ ∃ s, e = .unexpanded s := by
  cases e with
  | unexpanded s => exact .inr ⟨s, rfl⟩
  | leaf values =>
    cases fits
    omega
  | node children s =>
    obtain ⟨i, rfl, room, -⟩ := fits
    refine .inl ?_
    rw [Elements.Exceeds, room, ← pow_succ']
    exact Nat.pow_lt_pow_right (by omega) (by omega)

theorem Sound.assumedRoom (sound : Sound a) :
    ∃ k j, a.elements.Fits k ∧ j ≤ k ∧ assumedRoom a = 10 ^ (j + 1) ∧ a.size ≤ 10 ^ (j + 1) := by
  obtain ⟨k, fits, room, fixed | ⟨j, below, extendible, most⟩⟩ := sound
  · obtain ⟨j, -, found, enough, least⟩ := findMax_eq (a.size - 1) 0
    refine ⟨k, j, fits, least k (by omega) (by omega), ?_, by omega⟩
    simpa [Arrays.assumedRoom, fixed] using found
  · refine ⟨k, j, fits, below, ?_, extendible ▸ most⟩
    rw [Arrays.assumedRoom, extendible, if_pos (room_pos j)]

/-- Growing a tree that has the assumed room, or that need not grow. -/
theorem grow_fits {e : Elements Value} (fits : e.Fits k) (below : j ≤ k)
    (careful : 10 ^ (j + 1) ≤ i → ¬ e.Exceeds (10 ^ (j + 1))) :
    ∃ k' j' e', grow i e (10 ^ (j + 1)) = (e', 10 ^ (j' + 1)) ∧ e'.Fits k' ∧ j' ≤ k' ∧
    i < 10 ^ (j' + 1) := by
  by_cases unset : ∃ s, e = .unexpanded s
  · obtain ⟨s, rfl⟩ := unset
    cases fits
    obtain ⟨k', -, found, more, -⟩ := findMax_eq i k
    exact ⟨k', k', .unexpanded (10 ^ (k' + 1)), by rw [grow, found], rfl, le_rfl,
      by exact_mod_cast more⟩
  · have tuple : grow i e (10 ^ (j + 1)) = grow_1 i e (10 ^ (j + 1)) := by
      cases e with
      | unexpanded s => exact (unset ⟨s, rfl⟩).elim
      | leaf | node => rfl
    rw [tuple]
    by_cases enough : i < 10 ^ (j + 1)
    · exact ⟨k, j, e, by rw [grow_1, if_neg (by omega)], fits, below, enough⟩
    · rcases Nat.eq_or_lt_of_le below with rfl | less
      · obtain ⟨k', e', -, grown, kept, more⟩ := grow_1_fits fits
        exact ⟨k', k', e', grown, kept, le_rfl, more⟩
      · rcases fits_exceeds fits less with tall | unexpanded
        · exact (careful (by omega) tall).elim
        · exact (unset unexpanded).elim

theorem Sound.fix (sound : Sound a) : Sound (fix a) := by
  obtain ⟨k, fits, room, -⟩ := sound
  exact ⟨k, fits, room, .inl rfl⟩

theorem Sound.relax (sound : Sound a) : Sound (relax a) := by
  obtain ⟨k, fits, room, -⟩ := sound
  obtain ⟨j, -, found, enough, least⟩ := findMax_eq (a.size - 1) 0
  refine ⟨k, fits, room, .inr ⟨j, least k (by omega) (by omega), found, ?_⟩⟩
  have most : (Arrays.relax a).max = 10 ^ (j + 1) := found
  show a.size ≤ _
  omega

theorem Sound.resizeTo (sound : Sound a) (size : Nat)
    (careful : a.size < size → Arrays.assumedRoom a < size →
      ¬ a.elements.Exceeds (Arrays.assumedRoom a)) :
    Sound (resizeTo size a) := by
  by_cases larger : a.size < size
  · obtain ⟨k, j, fits, below, assumed, room⟩ := sound.assumedRoom
    rw [assumed] at careful
    obtain ⟨k', j', e', grown, kept, below', enough⟩ :=
      grow_fits fits below (i := size - 1) fun reached => careful larger (by omega)
    have more := Nat.pow_le_pow_right (n := 10) (by omega) (Nat.succ_le_succ below')
    rw [Arrays.assumedRoom] at assumed
    simp only [Arrays.resizeTo, if_pos larger, assumed, grown]
    refine ⟨k', kept, by simp only; omega, ?_⟩
    by_cases fixed : 0 < a.max
    · exact .inr ⟨j', below', by simp only [if_pos fixed], by simp only [if_pos fixed]; omega⟩
    · exact .inl (by simp only [if_neg fixed]; omega)
  · by_cases smaller : size < a.size
    · obtain ⟨k, fits, room, most⟩ := sound
      rw [Arrays.resizeTo, if_neg larger, if_pos smaller]
      refine ⟨k, fits, by simp only; omega, ?_⟩
      rcases most with fixed | ⟨j, below, extendible, most⟩
      · exact .inl fixed
      · exact .inr ⟨j, below, extendible, by simp only; omega⟩
    · rw [Arrays.resizeTo, if_neg larger, if_neg smaller]
      exact sound

theorem Sound.set (sound : Sound a) (i : Nat) (x : Value)
    (careful : a.size ≤ i → a.max ≤ i → 0 < a.max → ¬ a.elements.Exceeds a.max) :
    (a.size ≤ i ∧ a.max = 0) ∧ set i x a = .error .badarg ∨ ∃ a', set i x a = .ok a' ∧
    Sound a' := by
  obtain ⟨k, fits, room, most⟩ := sound
  by_cases inside : i < a.size
  · obtain ⟨e, written, kept⟩ := set_1_fits fits (inside.trans_le room) x a.default
    refine .inr ⟨{ a with elements := e }, by rw [Arrays.set, if_pos inside, written, ok_bind], ?_⟩
    exact ⟨k, kept, room, most⟩
  · rcases most with fixed | ⟨j, below, extendible, most⟩
    · refine .inl ⟨⟨by omega, fixed⟩, ?_⟩
      rw [Arrays.set, if_neg inside, if_neg (by omega), if_neg (by omega)]
    · by_cases free : i < a.max
      · have more := Nat.pow_le_pow_right (n := 10) (by omega) (Nat.succ_le_succ below)
        obtain ⟨e, written, kept⟩ := set_1_fits fits (show i < 10 ^ (k + 1) by omega) x a.default
        refine .inr ⟨{ a with size := i + 1, elements := e },
          by rw [Arrays.set, if_neg inside, if_pos free, written, ok_bind], ?_⟩
        exact ⟨k, kept, by simp only; omega, .inr ⟨j, below, extendible, free⟩⟩
      · have positive : 0 < a.max := extendible ▸ room_pos j
        obtain ⟨k', j', e', grown, kept, below', enough⟩ := grow_fits (i := i) fits below
          fun _ => extendible ▸ careful (by omega) (by omega) positive
        have more := Nat.pow_le_pow_right (n := 10) (by omega) (Nat.succ_le_succ below')
        obtain ⟨e, written, kept⟩ := set_1_fits kept (show i < 10 ^ (k' + 1) by omega) x a.default
        refine .inr ⟨{ a with size := i + 1, max := 10 ^ (j' + 1), elements := e }, ?_, ?_⟩
        · rw [Arrays.set, if_neg inside, if_neg free, if_pos positive, extendible, grown]
          simp only [written, ok_bind]
        · exact ⟨k', kept, by simp only; omega, .inr ⟨j', below', rfl, enough⟩⟩

end

variable [DecidableEq Value]

/-- The entries with their indices, of which sparse traversals skip some. -/
def pairs (sparse : Bool) (a : ArrayRecord Value) : List (Int × Value) :=
  (numbered 0 (entries a)).filter (visitsPair sparse a.default)

theorem Sound.toList (sound : Sound a) (sparse : Bool) :
    toListBy sparse a = .ok ((entries a).filter (visits sparse a.default)) := by
  obtain ⟨k, fits, room, -⟩ := sound
  by_cases empty : a.size = 0
  · simp [toListBy, empty, entries]
  · rw [toListBy, if_neg empty, toList_1_eq fits (by omega), Nat.sub_add_cancel (by omega), entries]

theorem Sound.toOrddict (sound : Sound a) (sparse : Bool) :
    toOrddictBy sparse a = .ok (pairs sparse a) := by
  obtain ⟨k, fits, room, -⟩ := sound
  by_cases empty : a.size = 0
  · simp [toOrddictBy, empty, pairs, entries, numbered]
  · simp only [toOrddictBy, if_neg empty]
    rw [toOrddict_1_eq sparse a.default fits (by omega) 0 (by omega), Nat.sub_add_cancel (by omega),
      pairs, entries]

theorem Sound.foldl (sound : Sound a) (sparse : Bool) (f : Int → Value → Acc → Outcome Value Acc)
    (acc : Acc) :
    foldlBy sparse f acc a = foldPairsl f acc (pairs sparse a) := by
  obtain ⟨k, fits, room, -⟩ := sound
  by_cases some : 0 < a.size
  · rw [foldlBy, if_pos some, foldl_1_eq fits (by omega), Nat.sub_add_cancel some,
      foldPairsl_visiting, pairs, entries]
  · have empty : a.size = 0 := by omega
    simp [foldlBy, pairs, entries, empty]
    rfl

theorem Sound.foldr (sound : Sound a) (sparse : Bool) (f : Int → Value → Acc → Outcome Value Acc)
    (acc : Acc) :
    foldrBy sparse f acc a = foldPairsr f acc (pairs sparse a) := by
  obtain ⟨k, fits, room, -⟩ := sound
  by_cases some : 0 < a.size
  · simp only [foldrBy, if_pos some]
    rw [foldr_1_eq sparse a.default fits (by omega) 0 (by omega), Nat.sub_add_cancel some,
      foldPairsr_visiting, pairs, entries]
  · have empty : a.size = 0 := by omega
    simp [foldrBy, pairs, entries, empty]
    rfl

theorem Sound.sparseSize (sound : Sound a) : sparseSize a = .ok (afterLast (pairs true a)) := by
  rw [Arrays.sparseSize, sparseFoldr, sound.foldr]
  rcases eq_nil_or_concat' (pairs true a) with none | ⟨front, last, some⟩
  · rw [none]
    rfl
  · have after : afterLast (front ++ [last]) = last.1 + 1 := by simp [afterLast]
    rw [some, foldPairsr_append, after]
    rfl

theorem Sound.reset (sound : Sound a) (done : reset i a = .ok a') : Sound a' := by
  rw [Arrays.reset] at done
  split at done
  · rename_i inside
    obtain ⟨k, fits, room, most⟩ := sound
    rcases reset_1_fits fits (inside.trans_le room) with same | ⟨e, written, kept⟩
    · rw [same] at done
      cases done
      exact ⟨k, fits, room, most⟩
    · rw [written] at done
      cases done
      exact ⟨k, kept, room, most⟩
  · split at done
    · cases done
      exact sound
    · cases done

theorem Sound.mapBy (sound : Sound a) (sparse : Bool)
    {f : Int → Value → Outcome Value Value} (done : mapBy sparse f a = .ok a') : Sound a' := by
  rw [Arrays.mapBy] at done
  split at done
  · obtain ⟨k, fits, room, most⟩ := sound
    obtain ⟨e, mapped, rest⟩ := of_bind_ok done
    cases rest
    exact ⟨k, map_1_fits fits (by omega) mapped, room, most⟩
  · cases done
    exact sound

theorem sound_newArray (undefined : Value) (size : Nat) (fixed : Bool) (default : Value) :
    Sound (newArray undefined size fixed default) := by
  rw [newArray]
  split
  · exact ⟨0, rfl, by simp, .inr ⟨0, le_rfl, rfl, by simp⟩⟩
  · obtain ⟨k, -, found, enough, -⟩ := findMax_eq (size - 1) 0
    have found : findMax (size - 1) 10 = 10 ^ (k + 1) := found
    refine ⟨k, found, by simp only; omega, ?_⟩
    cases fixed with
    | true => exact .inl rfl
    | false => exact .inr ⟨k, le_rfl, found, by simp only [found]; simp; omega⟩

theorem sound_new_1 (undefined : Value) (options : List (Opt Value)) (size : Nat) (fixed : Bool)
    (default : Value) : Sound (new_1 undefined options size fixed default) := by
  induction options generalizing size fixed default with
  | nil => exact sound_newArray undefined size fixed default
  | cons option options ih => cases option <;> exact ih _ _ _

theorem sound_fromList {undefined default : Value}
    (made : fromList undefined list default = .ok a) : Sound a := by
  cases list with
  | nil =>
    cases made
    exact sound_new_1 ..
  | cons x xs =>
    obtain ⟨e, k, built, fits, room⟩ : ∃ e k, fromList_1 default 10 (x :: xs) 0 [] [] =
        .ok (e, 0 + (x :: xs).length, 10 ^ (k + 1)) ∧ e.Fits k ∧
        0 + (x :: xs).length ≤ 10 ^ (k + 1) :=
      fromList_1_fits rfl (forall_mem_nil _) (fun _ => rfl) (by simp) (by simp)
    rw [fromList, built] at made
    · cases made
      exact ⟨k, fits, room, .inr ⟨k, le_rfl, rfl, room⟩⟩
    · simp

theorem fromOrddict_pairs (undefined : Value) (list : List (Int × Value)) (default : Value) :
    (∃ bad, fromOrddict undefined list default = .error (.badPairs bad)) ∨
      ∃ a, fromOrddict undefined list default = .ok a ∧ Sound a := by
  cases list with
  | nil => exact .inr ⟨_, rfl, sound_new_1 ..⟩
  | cons pair list =>
    have laid : LeavesLaid (pair :: list) 0 ([] : List (Elements Value)) :=
      ⟨forall_mem_nil _, fun _ => rfl, by simp⟩
    rcases fromOrddict_0_fits laid (.inl le_rfl) with ⟨bad, failed⟩ | ⟨e, n, k, built, fits, room⟩
    · refine .inl ⟨bad, ?_⟩
      rw [fromOrddict, failed]
      · rfl
      · simp
    · refine .inr ⟨⟨n, 10 ^ (k + 1), default, e⟩, ?_, k, fits, room, .inr ⟨k, le_rfl, rfl, room⟩⟩
      rw [fromOrddict, built]
      · rfl
      · simp

inductive Start (Value : Type) where
  | new (options : List (Opt Value))
  | newSize (size : Nat) (options : List (Opt Value))
  | fromList (list : List Value) (default : Value)
  | fromOrddict (list : List (Int × Value)) (default : Value)

def Start.make (undefined : Value) : Start Value → Outcome Value (ArrayRecord Value)
  | .new options => .ok (Arrays.new undefined options)
  | .newSize size options => .ok (Arrays.newSize undefined size options)
  | .fromList list default => Arrays.fromList undefined list default
  | .fromOrddict list default => Arrays.fromOrddict undefined list default

theorem Start.sound {init : Start Value} (made : init.make undefined = .ok a) : Sound a := by
  cases init with
  | new | newSize =>
    cases made
    exact sound_new_1 ..
  | fromList list default => exact sound_fromList made
  | fromOrddict list default =>
    rcases fromOrddict_pairs undefined list default with ⟨bad, failed⟩ | ⟨a', built, sound⟩
    · cases made.symm.trans failed
    · cases made.symm.trans built
      exact sound

inductive Op (Value : Type) where
  | set (i : Nat) (x : Value)
  | reset (i : Nat)
  | resizeTo (size : Nat)
  | resize
  | fix
  | relax
  | map (f : Int → Value → Outcome Value Value)
  | sparseMap (f : Int → Value → Outcome Value Value)

def step (a : ArrayRecord Value) : Op Value → Outcome Value (ArrayRecord Value)
  | .set i x => set i x a
  | .reset i => reset i a
  | .resizeTo size => .ok (resizeTo size a)
  | .resize => resize a
  | .fix => .ok (fix a)
  | .relax => .ok (relax a)
  | .map f => map f a
  | .sparseMap f => sparseMap f a

/-- The array after a call; when the call fails, its caller still has the old one. -/
def after (a : ArrayRecord Value) (op : Op Value) : ArrayRecord Value :=
  match step a op with
  | .ok a' => a'
  | .error _ => a

/-- The array grows and its tree already has more room than is counted on. -/
def Regrows (a : ArrayRecord Value) : Op Value → Prop
  | .set i _ => a.size ≤ i ∧ a.max ≤ i ∧ 0 < a.max ∧ a.elements.Exceeds a.max
  | .resizeTo size => a.size < size ∧ assumedRoom a < size ∧ a.elements.Exceeds (assumedRoom a)
  | _ => False

/-- No step of the run regrows. -/
def Careful : ArrayRecord Value → List (Op Value) → Prop
  | _, [] => True
  | a, op :: ops => ¬ Regrows a op ∧ Careful (after a op) ops

theorem Sound.after (sound : Sound a) {op : Op Value} (careful : ¬ Regrows a op) :
    Sound (after a op) := by
  rw [Arrays.after]
  cases called : step a op with
  | error exit => exact sound
  | ok a' =>
    cases op with
    | set i x =>
      rcases sound.set i x (fun outside reached positive tall =>
        careful ⟨outside, reached, positive, tall⟩) with ⟨-, failed⟩ | ⟨a'', written, still⟩
      · cases called.symm.trans failed
      · cases called.symm.trans written
        exact still
    | reset i => exact sound.reset called
    | resizeTo size =>
      cases called
      exact sound.resizeTo size fun larger reached tall => careful ⟨larger, reached, tall⟩
    | resize =>
      obtain ⟨size, counted, rest⟩ := of_bind_ok called
      cases counted.symm.trans sound.sparseSize
      have bound := (afterLast_numbered (visitsPair true a.default) (entries a) le_rfl).2
      rw [sound.length_entries] at bound
      split at rest
      · cases rest
        refine sound.resizeTo _ fun larger => ?_
        rw [pairs] at larger
        omega
      · cases rest
    | fix =>
      cases called
      exact sound.fix
    | relax =>
      cases called
      exact sound.relax
    | map f => exact sound.mapBy false called
    | sparseMap f => exact sound.mapBy true called

theorem Sound.run (sound : Sound a) {ops : List (Op Value)}
    (careful : Careful a ops) : Sound (ops.foldl Arrays.after a) := by
  induction ops generalizing a with
  | nil => exact sound
  | cons op ops ih => exact ih (sound.after careful.1) careful.2

end Otp.Arrays
