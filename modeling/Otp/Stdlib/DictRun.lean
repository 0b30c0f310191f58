import Otp.Stdlib.DictRefinement

/-! Dictionaries made by any operations, and the finite maps they stand for. -/

namespace Otp.Dicts

open List

variable {Key Value : Type} {hash : PHash Key} [DecidableEq Key]

/-- The map after the entries of a list are put, with `g` where a key is there already. -/
def putAll (g : Key → Value → Value → Value) (entries : List (Key × Value))
    (m : Key → Option Value) :
    Key → Option Value := fun key =>
  match findVal key entries with
  | none => m key
  | some value => some ((m key).elim value (g key value))

theorem Holds.putAll (holds : Holds hash t m) (g : Key → Value → Value → Value)
    (entries : List (Key × Value)) (distinct : Distinct entries) :
    ∃ t', entries.foldl
        (fun d e => d.bind (updateInit hash e.1 (fun value => g e.1 e.2 value) e.2)) (some t) =
      some t' ∧ Holds hash t' (Dicts.putAll g entries m) := by
  induction entries generalizing t m with
  | nil => exact ⟨t, rfl, holds⟩
  | cons e entries ih =>
    have step := holds.onKey (fun value => some (g e.1 e.2 value)) e.2 e.1
    have spec : putMap (fun value => some (g e.1 e.2 value)) e.2 e.1 m =
        some (Function.update m e.1 (some ((m e.1).elim e.2 (g e.1 e.2)))) := by
      unfold putMap
      cases m e.1 <;> rfl
    rw [spec] at step
    obtain ⟨t1, put, kept⟩ := step
    obtain ⟨t', done, final⟩ := ih kept distinct.tail
    refine ⟨t', ?_, ?_⟩
    · rw [foldl_cons, ← done]
      congr 1
    · have same : Dicts.putAll g (e :: entries) m =
          Dicts.putAll g entries (Function.update m e.1 (some ((m e.1).elim e.2 (g e.1 e.2)))) := by
        funext key
        obtain ⟨k, v⟩ := e
        simp only [Dicts.putAll, findVal]
        by_cases own : k = key
        · subst own
          have absent : findVal k entries = none :=
            Option.eq_none_iff_forall_ne_some.mpr fun value found =>
            distinct.head value ((findVal_eq_some_iff distinct.tail).mp found)
          simp [absent]
        · simp [own, Ne.symm own]
      rwa [same]

/-- The map of a merge. -/
def mergeMap (f : Key → Value → Value → Value) (m1 m2 : Key → Option Value) : Key → Option Value :=
  fun key =>
    match m1 key, m2 key with
    | some v1, some v2 => some (f key v1 v2)
    | some v1, none => some v1
    | none, v2 => v2

omit [DecidableEq Key] in
theorem Holds.visited_distinct {t : Dict Key Value} (holds : Holds hash t m) : Distinct t.visited :=
  (((visited_perm t).map Prod.fst).nodup_iff).mpr holds.distinct

theorem Holds.findVal_visited {t : Dict Key Value} (holds : Holds hash t m) (key : Key) :
    findVal key t.visited = m key := by
  refine Option.ext fun value => ?_
  rw [findVal_eq_some_iff holds.visited_distinct, (visited_perm t).mem_iff]
  exact holds.same key value

theorem Holds.merge (holds1 : Holds hash t1 m1) (holds2 : Holds hash t2 m2)
    (f : Key → Value → Value → Value) :
    ∃ t', Dicts.merge hash f t1 t2 = some t' ∧ Holds hash t' (mergeMap f m1 m2) := by
  unfold Dicts.merge
  split
  case isTrue =>
    have same : Dicts.putAll (fun key v1 v2 => f key v1 v2) t1.visited m2 = mergeMap f m1 m2 := by
      funext key
      simp only [Dicts.putAll, mergeMap, holds1.findVal_visited]
      cases m1 key <;> cases m2 key <;> rfl
    rw [holds1.foldDict, ← same]
    exact holds2.putAll (fun key v1 v2 => f key v1 v2) t1.visited holds1.visited_distinct
  case isFalse =>
    have same : Dicts.putAll (fun key v2 v1 => f key v1 v2) t2.visited m1 = mergeMap f m1 m2 := by
      funext key
      simp only [Dicts.putAll, mergeMap, holds2.findVal_visited]
      cases m1 key <;> cases m2 key <;> rfl
    rw [holds2.foldDict, ← same]
    exact holds1.putAll (fun key v2 v1 => f key v1 v2) t2.visited holds2.visited_distinct

/-- Dictionaries made by any operations, one after another. -/
inductive DictExpr (Key Value : Type) where
  | new
  | store (key : Key) (value : Value) (d : DictExpr Key Value)
  | append (key : Key) (value : Value) (d : DictExpr Key Value)
  | appendList (key : Key) (l : Value) (d : DictExpr Key Value)
  | update (key : Key) (f : Value → Value) (d : DictExpr Key Value)
  | updateInit (key : Key) (f : Value → Value) (init : Value) (d : DictExpr Key Value)
  | updateCounter (key : Key) (incr : Value) (d : DictExpr Key Value)
  | erase (key : Key) (d : DictExpr Key Value)
  | filter (f : Key → Value → Bool) (d : DictExpr Key Value)
  | map (f : Key → Value → Value) (d : DictExpr Key Value)
  | merge (f : Key → Value → Value → Value) (d1 d2 : DictExpr Key Value)

variable (values : Values Value)

def DictExpr.eval (hash : PHash Key) : DictExpr Key Value → Option (Dict Key Value)
  | .new => some Dicts.new
  | .store key value d => do Dicts.store hash key value (← d.eval hash)
  | .append key value d => do Dicts.append values hash key value (← d.eval hash)
  | .appendList key l d => do Dicts.appendList values hash key l (← d.eval hash)
  | .update key f d => do Dicts.update hash key f (← d.eval hash)
  | .updateInit key f init d => do Dicts.updateInit hash key f init (← d.eval hash)
  | .updateCounter key incr d => do Dicts.updateCounter values hash key incr (← d.eval hash)
  | .erase key d => do Dicts.erase hash key (← d.eval hash)
  | .filter f d => do Dicts.filterDict f (← d.eval hash)
  | .map f d => do some (Dicts.mapDict f (← d.eval hash))
  | .merge f d1 d2 => do Dicts.merge hash f (← d1.eval hash) (← d2.eval hash)

/-- The same on finite maps; `none` where a value is not what the operation needs. -/
def DictExpr.denote : DictExpr Key Value → Option (Key → Option Value)
  | .new => some fun _ => none
  | .store key value d => do some (Function.update (← d.denote) key (some value))
  | .append key value d => do
    putMap (fun bag => values.append bag (values.single value)) (values.single value) key
      (← d.denote)
  | .appendList key l d => do putMap (fun bag => values.append bag l) l key (← d.denote)
  | .update key f d => do
    let m ← d.denote
    let old ← m key
    some (Function.update m key (some (f old)))
  | .updateInit key f init d => do
    let m ← d.denote
    some (Function.update m key (some ((m key).elim init f)))
  | .updateCounter key incr d => do
    let m ← d.denote
    if values.isNumber incr then putMap (fun value => values.add value incr) incr key m else none
  | .erase key d => do some (Function.update (← d.denote) key none)
  | .filter f d => do
    let m ← d.denote
    some fun key => (m key).filter (f key)
  | .map f d => do
    let m ← d.denote
    some fun key => (m key).map (f key)
  | .merge f d1 d2 => do some (mergeMap f (← d1.denote) (← d2.denote))

omit [DecidableEq Key] in
theorem holds_new (hash : PHash Key) : Holds hash (new : Dict Key Value) fun _ => none := by
  have buckets : (new : Dict Key Value).buckets = replicate 16 [] := rfl
  have entries : (new : Dict Key Value).entries = [] := rfl
  refine ⟨⟨⟨⟨0, rfl, rfl, rfl⟩, ?_, ?_, ?_⟩, ?_, rfl, ?_, ?_, ?_⟩, ?_, ?_⟩
  · exact (by decide : segSize / 2 ≤ segSize)
  · exact Int.le_refl _
  · exact (by decide : 16 ≤ segSize)
  · intro seg member
    rw [mem_singleton.mp member]
    rfl
  · intro i bkt present e member
    rw [buckets] at present
    rw [eq_of_mem_replicate (mem_of_getElem? present)] at member
    cases member
  · exact nodup_nil
  · simp [entries]
  · exact (by decide : segSize / 2 < segSize)
  · rfl

omit [DecidableEq Key] in
theorem Agrees.bind {result : Option (Dict Key Value)} {reference : Option (Key → Option Value)}
    (agrees : Agrees hash result reference) {step : Dict Key Value → Option (Dict Key Value)}
    {stepMap : (Key → Option Value) → Option (Key → Option Value)}
    (forward : ∀ t m, Holds hash t m → Agrees hash (step t) (stepMap m)) :
    Agrees hash (result.bind step) (reference.bind stepMap) := by
  cases reference with
  | none =>
    obtain rfl : result = none := agrees
    rfl
  | some m =>
    obtain ⟨t, rfl, holds⟩ := agrees
    exact forward t m holds

theorem eval_agrees (hash : PHash Key) (expr : DictExpr Key Value) :
    Agrees hash (expr.eval values hash) (expr.denote values) := by
  induction expr with
  | new => exact ⟨new, rfl, holds_new hash⟩
  | store key value d ih =>
    refine ih.bind fun t m holds => ?_
    have step := holds.onKey (fun _ => some value) value key
    have spec : putMap (fun _ => some value) value key m =
      some (Function.update m key (some value)) := by
      unfold putMap
      cases m key <;> rfl
    rwa [spec] at step
  | append key value d ih | appendList key l d ih =>
    exact ih.bind fun t m holds => holds.onKey _ _ key
  | update key f d ih =>
    refine ih.bind fun t m holds => ?_
    have step := holds.update key f
    rwa [Option.map_eq_bind] at step
  | updateInit key f init d ih =>
    refine ih.bind fun t m holds => ?_
    have step := holds.onKey (fun value => some (f value)) init key
    have spec : putMap (fun value => some (f value)) init key m =
        some (Function.update m key (some ((m key).elim init f))) := by
      unfold putMap
      cases m key <;> rfl
    rwa [spec] at step
  | updateCounter key incr d ih =>
    refine ih.bind fun t m holds => ?_
    unfold Dicts.updateCounter
    split
    · exact holds.onKey _ _ key
    · rfl
  | erase key d ih => exact ih.bind fun t m holds => holds.erase key
  | filter f d ih => exact ih.bind fun t m holds => holds.filterDict f
  | map f d ih => exact ih.bind fun t m holds => ⟨_, rfl, holds.mapDict f⟩
  | merge f d1 d2 ih1 ih2 =>
    exact ih1.bind fun t1 m1 holds1 => ih2.bind fun t2 m2 holds2 => holds1.merge holds2 f

/-- After any operations the dictionary is laid out by its hash, and it answers as the
finite map does. -/
theorem dict_refines_map (hash : PHash Key) (expr : DictExpr Key Value) :
    match expr.denote values with
    | none => expr.eval values hash = none
    | some m => ∃ t, expr.eval values hash = some t ∧
        (∀ slot, 1 ≤ slot → slot ≤ t.maxn → ∃ bkt, getBucket t slot = some bkt ∧
          (∀ e ∈ bkt, getSlot hash t e.1 = slot) ∧ (t.n < slot → bkt = [])) ∧
        (t.entries.map Prod.fst).Nodup ∧
        (∀ key, find hash key t = some (m key)) ∧ (∀ key, fetch hash key t = m key) ∧
        (∀ key, isKey hash key t = some (m key).isSome) ∧
        ∃ entries : List (Key × Value), (entries.map Prod.fst).Nodup ∧
          (∀ key value, (key, value) ∈ entries ↔ m key = some value) ∧ t.size = entries.length ∧
          ∀ (Acc : Type) (f : Key → Value → Acc → Acc) (acc : Acc),
            foldDict f acc t = some (entries.foldl (fun acc e => f e.1 e.2 acc) acc) := by
  have agrees := eval_agrees values hash expr
  cases reference : expr.denote values with
  | none =>
    rw [reference] at agrees
    exact agrees
  | some m =>
    rw [reference] at agrees
    obtain ⟨t, result, holds⟩ := agrees
    have perm := visited_perm t
    refine ⟨t, result, fun slot low high => ?_, holds.distinct, fun key => ?_, fun key => ?_,
      fun key => ?_, t.visited, ((perm.map Prod.fst).nodup_iff).mpr holds.distinct,
      fun key value => perm.mem_iff.trans (holds.same key value), ?_,
      fun Acc f acc => holds.foldDict f acc⟩
    · obtain ⟨i, bkt, rfl, present, got⟩ := holds.bucket slot low high
      refine ⟨bkt, got, holds.placed i bkt present, fun above => ?_⟩
      refine eq_nil_iff_forall_not_mem.mpr fun e member => ?_
      have here := holds.placed i bkt present e member
      have range := holds.sized.getSlot_range hash e.1
      omega
    · obtain ⟨i, b, here⟩ := holds.at_key key
      simp [find, here.got, here.found]
    · obtain ⟨i, b, here⟩ := holds.at_key key
      simp [fetch, here.got, here.found]
    · obtain ⟨i, b, here⟩ := holds.at_key key
      simp [isKey, here.got, findKey_eq, here.found]
    · rw [holds.size, perm.length_eq]

/-- Integers hashed by their remainder. -/
def remainder : PHash Int where
  phash key m := key % m + 1
  buddy key m positive := by
    have again : key % (2 * m) % m = key % m := Int.emod_emod_of_dvd key ⟨2, Int.mul_comm 2 m⟩
    have low := Int.emod_nonneg key (show 2 * m ≠ 0 by omega)
    have high := Int.emod_lt_of_pos key (show 0 < 2 * m by omega)
    by_cases small : key % (2 * m) < m
    · rw [Int.emod_eq_of_lt low small] at again
      omega
    · have less := Int.sub_emod_right (key % (2 * m)) m
      rw [Int.emod_eq_of_lt (by omega) (by omega)] at less
      omega
  range key m positive := by
    have low := Int.emod_nonneg key (show 2 * m ≠ 0 by omega)
    have high := Int.emod_lt_of_pos key (show 0 < 2 * m by omega)
    omega

example : ((DictExpr.erase 17 (.store 1 5 (.store 17 7 .new))).eval
        { single := id, append := fun _ _ => none, isNumber := fun _ => true,
          add := fun v i => some (v + i) : Values Int } remainder).bind (find remainder 1) =
      some (some 5) := by decide

end Otp.Dicts
