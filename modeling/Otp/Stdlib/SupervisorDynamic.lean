import Otp.Stdlib.SupervisorStep

/-! The dynamic children of a `simple_one_for_one` supervisor: the keys of `dynamics` are
pids and pids that are restarting, and `dynamic_restarts` counts the latter. -/

namespace Otp.Supervisor

open List

variable {W : World} {env : Env W} {s s' : State W}

def Term.isRestarting : Term W → Bool
  | .restarting _ => true
  | _ => false

def Dynamics.keys : Dynamics W → List (Term W)
  | .undefined => []
  | .dict db => db.keys
  | .set db => db

/-- Keys for processes among the first `starts`, each running or restarting but not both. -/
structure Keys (starts : Nat) (restarts : Int) (keys : List (Term W)) : Prop where
  known : ∀ key ∈ keys, ∃ p < starts, key = .pid p ∨ key = .restarting (some p)
  exclusive : ∀ p, .pid p ∈ keys → .restarting (some p) ∉ keys
  count : restarts = keys.countP Term.isRestarting
  nodup : keys.Nodup

theorem Keys.nil (starts : Nat) : Keys starts 0 ([] : List (Term W)) :=
  ⟨by simp, by simp, by simp, nodup_nil⟩

section

variable {keys : List (Term W)}

theorem Keys.mono (ok : Keys starts restarts keys) (more : starts ≤ starts') :
    Keys starts' restarts keys := by
  refine { ok with known := fun key member => ?_ }
  obtain ⟨p, old, form⟩ := ok.known key member
  exact ⟨p, by omega, form⟩

/-- A key that is not counted. -/
theorem countP_erase_pid :
    (keys.erase (.pid p)).countP Term.isRestarting = keys.countP Term.isRestarting := by
  induction keys with
  | nil => rfl
  | cons key keys ih =>
    rw [erase_cons]
    split
    · rename_i same
      rw [eq_of_beq same]
      rfl
    · rw [countP_cons, countP_cons, ih]

section

variable (ok : Keys starts restarts keys)

include ok

theorem Keys.erase_pid : Keys starts restarts (keys.erase (.pid p)) where
  known key member := ok.known key (mem_of_mem_erase member)
  exclusive q member other := ok.exclusive q (mem_of_mem_erase member) (mem_of_mem_erase other)
  count := by rw [countP_erase_pid, ok.count]
  nodup := ok.nodup.erase _

/-- A process that was just started. -/
theorem Keys.cons_new : Keys (starts + 1) restarts (.pid starts :: keys) where
  known key member := by
    rcases mem_cons.mp member with rfl | old
    · exact ⟨starts, by omega, .inl rfl⟩
    · exact (ok.mono (Nat.le_succ _)).known key old
  exclusive p member other := by
    have old := mem_of_ne_of_mem (by nofun) other
    rcases mem_cons.mp member with new | before
    · obtain ⟨q, less, form | form⟩ := ok.known _ old
      · cases form
      · cases form
        cases new
        exact Nat.lt_irrefl _ less
    · exact ok.exclusive p before old
  count := by
    rw [ok.count, countP_cons_of_neg (by nofun)]
  nodup := by
    refine nodup_cons.mpr ⟨fun member => ?_, ok.nodup⟩
    obtain ⟨q, less, form | form⟩ := ok.known _ member
    · cases form
      exact Nat.lt_irrefl _ less
    · cases form

theorem Keys.new_not_mem : .pid starts ∉ keys := (nodup_cons.mp ok.cons_new.nodup).1

/-- A process that runs is now restarting. -/
theorem Keys.fail_pid (member : .pid p ∈ keys) :
    Keys starts (restarts + 1) (.restarting (some p) :: keys.erase (.pid p)) where
  known key found := by
    rcases mem_cons.mp found with rfl | old
    · obtain ⟨q, less, form | form⟩ := ok.known _ member
      · cases form
        exact ⟨p, less, .inr rfl⟩
      · cases form
    · exact ok.known key (mem_of_mem_erase old)
  exclusive q found other := by
    have rest := mem_of_ne_of_mem (by nofun) found
    rcases mem_cons.mp other with same | old
    · cases same
      exact (List.Nodup.not_mem_erase ok.nodup) rest
    · exact ok.exclusive q (mem_of_mem_erase rest) (mem_of_mem_erase old)
  count := by
    rw [countP_cons_of_pos (by rfl), countP_erase_pid, ok.count]
    omega
  nodup := by
    refine nodup_cons.mpr ⟨fun found => ?_, ok.nodup.erase _⟩
    exact ok.exclusive p member (mem_of_mem_erase found)

/-- A process that was restarting is dropped. -/
theorem Keys.erase_restarting (member : .restarting o ∈ keys) :
    Keys starts (restarts - 1) (keys.erase (.restarting o)) where
  known key found := ok.known key (mem_of_mem_erase found)
  exclusive q found other := ok.exclusive q (mem_of_mem_erase found) (mem_of_mem_erase other)
  count := by
    have split := (perm_cons_erase member).countP_eq Term.isRestarting
    rw [countP_cons_of_pos (by rfl)] at split
    rw [ok.count]
    omega
  nodup := ok.nodup.erase _

end

end

/-- Temporary children are in a set, others in a dictionary with their arguments. -/
def Dynamics.Fits (restartType : RestartType) : Dynamics W → Prop
  | .undefined => True
  | .dict _ => restartType ≠ .temporary
  | .set _ => restartType = .temporary

section

variable {dynamics : Dynamics W}

theorem asDict_keys (fits : dynamics.Fits restartType) (kept : restartType ≠ .temporary) :
    ∃ db, dynamics.asDict = some db ∧ db.keys = dynamics.keys := by
  cases dynamics with
  | undefined => exact ⟨∅, rfl, rfl⟩
  | dict db => exact ⟨db, rfl, rfl⟩
  | set db => exact absurd fits kept

theorem asSet_keys (fits : dynamics.Fits .temporary) : dynamics.asSet = some dynamics.keys := by
  cases dynamics with
  | undefined => rfl
  | dict db => exact absurd rfl fits
  | set db => rfl

/-- The state of a supervisor with the given template. Temporary children are not retried. -/
structure Booked (child : Child W) (s : State W) : Prop where
  simple : s.strategy = .simpleOneForOne
  template : s.children = [child]
  plain : child.pid = .undefined
  fits : s.dynamics.Fits child.restartType
  keys : Keys s.starts s.dynamicRestarts s.dynamics.keys
  temporary : child.restartType = .temporary → s.casts = [] ∧ ∀ key ∈ s.dynamics.keys, key.isPid

/-- The condition on a message: `terminate_child` does not name a child that waits for a
retry, and where a child is to be restarted, its start is not ignored. -/
def CarefulDynamic (env : Env W) (s : State W) : Msg W → Prop
  | .call (.terminateChild (.pid p) _) => .restarting (some p) ∉ s.dynamics.keys
  | .call _ => True
  | .exit p reason _ => (∃ child ∈ s.children, child.Due reason) → .pid p ∈ s.dynamics.keys →
      env s.starts ≠ .ignore
  | .tryAgain _ => (∃ waiting ∈ s.casts.head?, restarting waiting.1 ∈ s.dynamics.keys) →
      env s.starts ≠ .ignore

theorem isDynamicPid_iff : isDynamicPid key dynamics = true ↔ key ∈ dynamics.keys := by
  cases dynamics <;> simp [isDynamicPid, Dynamics.keys]

theorem dynamicChildArgs_mem (kept : restartType ≠ .temporary)
    (found : dynamicChildArgs key restartType dynamics = some args) : key ∈ dynamics.keys := by
  cases dynamics with
  | dict db =>
    rw [dynamicChildArgs, if_neg kept] at found
    exact AList.mem_keys.mp (AList.lookup_isSome.mp (by simp [found]))
  | _ => simp [dynamicChildArgs, kept] at found

end

/-- A process that was just started is saved. -/
theorem saveDynamicChild_booked (booked : Booked child s)
    (saved : saveDynamicChild child.restartType (.pid s.starts) args (s.born started) = some s') :
    Booked child s' := by
  have absent := booked.keys.new_not_mem
  rw [saveDynamicChild] at saved
  split at saved
  · rename_i temporary
    rw [asSet_keys (temporary ▸ booked.fits)] at saved
    cases saved
    have inserted : s.dynamics.keys.insert (.pid s.starts) = .pid s.starts :: s.dynamics.keys :=
      insert_of_not_mem absent
    refine ⟨booked.simple, booked.template, booked.plain, temporary, ?_, fun _ => ?_⟩
    · change Keys _ _ (s.dynamics.keys.insert _)
      rw [inserted]
      exact booked.keys.cons_new
    · change s.casts = [] ∧ ∀ key ∈ s.dynamics.keys.insert _, _
      rw [inserted]
      obtain ⟨casts, pids⟩ := booked.temporary temporary
      exact ⟨casts, forall_mem_cons.mpr ⟨rfl, pids⟩⟩
  · rename_i kept
    obtain ⟨db, dict, keys⟩ := asDict_keys booked.fits kept
    rw [show (s.born started).dynamics = s.dynamics from rfl, dict] at saved
    cases saved
    refine ⟨booked.simple, booked.template, booked.plain, kept, ?_,
      fun temporary => absurd temporary kept⟩
    change Keys _ _ (AList.insert _ _ db).keys
    rw [AList.keys_insert, keys, erase_of_not_mem absent]
    exact booked.keys.cons_new

theorem Booked.asked (booked : Booked child s) (started : Child W) :
    Booked child (s.asked started) :=
  { booked with keys := booked.keys.mono (Nat.le_succ _) }

/-- A child that is not restarting is dropped. -/
theorem stateDelChild_booked (booked : Booked child s) (settled : ∀ o, key ≠ .restarting o)
    (deleted : stateDelChild { child with pid := key, args } s = some s') : Booked child s' := by
  have erased : Keys s.starts s.dynamicRestarts (s.dynamics.keys.erase key) := by
    by_cases member : key ∈ s.dynamics.keys
    · obtain ⟨p, -, rfl | rfl⟩ := booked.keys.known key member
      · exact booked.keys.erase_pid
      · exact absurd rfl (settled _)
    · rw [erase_of_not_mem member]
      exact booked.keys
  rw [stateDelChild, if_pos (isSimple_eq booked.simple)] at deleted
  split at deleted
  · rename_i temporary
    rw [asSet_keys (show s.dynamics.Fits .temporary from temporary ▸ booked.fits)] at deleted
    cases deleted
    obtain ⟨casts, pids⟩ := booked.temporary temporary
    exact ⟨booked.simple, booked.template, booked.plain, temporary, erased,
      fun _ => ⟨casts, fun key member => pids key (mem_of_mem_erase member)⟩⟩
  · rename_i kept
    obtain ⟨db, dict, keys⟩ := asDict_keys booked.fits kept
    rw [dict] at deleted
    cases deleted
    refine ⟨booked.simple, booked.template, booked.plain, kept, ?_,
      fun temporary => absurd temporary kept⟩
    change Keys _ _ (AList.erase _ db).keys
    rw [AList.keys_erase, keys]
    exact erased

/-- The keys once the key of the child is gone, with the counter as `restart/3` has it. -/
theorem Keys.without {keys : List (Term W)} (ok : Keys starts restarts keys) (member : key ∈ keys) :
    Keys starts (if key.isRestarting then restarts - 1 else restarts) (keys.erase key) := by
  obtain ⟨p, -, rfl | rfl⟩ := ok.known key member
  · exact ok.erase_pid
  · exact ok.erase_restarting member

/-- The keys once the start of a child failed. -/
theorem Keys.failed {keys : List (Term W)} (ok : Keys starts restarts keys) (member : key ∈ keys) :
    Keys starts ((if key.isRestarting then restarts - 1 else restarts) + 1)
      (restarting key :: (keys.erase key).erase (restarting key)) := by
  obtain ⟨p, -, rfl | rfl⟩ := ok.known key member
  · have absent : (.restarting (some p) : Term W) ∉ keys.erase (.pid p) := fun found =>
      ok.exclusive p member (mem_of_mem_erase found)
    rw [restarting, erase_of_not_mem absent]
    exact ok.fail_pid member
  · have absent := List.Nodup.not_mem_erase (a := (.restarting (some p) : Term W)) ok.nodup
    have order := perm_cons_erase member
    have same : restarting (.restarting (some p) : Term W) = .restarting (some p) := rfl
    rw [same, erase_of_not_mem absent, Term.isRestarting, if_pos rfl, Int.sub_add_cancel]
    refine ⟨fun key found => ok.known key (order.mem_iff.mpr found), fun q running waiting => ?_,
      ?_, ?_⟩
    · exact ok.exclusive q (order.mem_iff.mpr running) (order.mem_iff.mpr waiting)
    · rw [ok.count, order.countP_eq]
    · exact order.nodup_iff.mp ok.nodup

theorem restart_3_simple (simple : s.strategy = .simpleOneForOne) :
    restart_3 env child s = restartSimpleOneForOne env child s := by
  rw [restart_3, simple]

theorem uncount_eq : s.uncount key = { s with
      dynamicRestarts := if key.isRestarting then s.dynamicRestarts - 1
        else s.dynamicRestarts } := by
  cases key <;> rfl

section

variable {child : Child W} {s : State W} (booked : Booked child s)

include booked

theorem restartSimpleOneForOne_booked {id : Term W}
    (kept : child.restartType ≠ .temporary) (member : key ∈ s.dynamics.keys)
    (made : restartSimpleOneForOne env { child with pid := key, args } s = some attempt)
    (heeded : env s.starts ≠ .ignore) :
    Booked child (attempt.leave id) := by
  obtain ⟨db, dict, keys⟩ := asDict_keys booked.fits kept
  have without := booked.keys.without member
  have added : Keys (s.starts + 1) (if key.isRestarting then s.dynamicRestarts - 1
    else s.dynamicRestarts)
      (.pid s.starts :: (s.dynamics.keys.erase key).erase (.pid s.starts)) := by
    rw [erase_of_not_mem without.new_not_mem]
    exact without.cons_new
  rw [restartSimpleOneForOne, uncount_eq] at made
  rw [dict] at made
  have result := doStartChild_result env { child with pid := key, args } { s with
    dynamicRestarts := if key.isRestarting then s.dynamicRestarts - 1 else s.dynamicRestarts }
  generalize doStartChild env { child with pid := key, args } _ = r at result made
  have still (next : State W) (strategy : next.strategy = s.strategy)
      (children : next.children = s.children)
      (db' : AList fun _ : Term W => Args W) (dynamics : next.dynamics = .dict db')
      (keys : Keys next.starts next.dynamicRestarts db'.keys) : Booked child next :=
    ⟨strategy.trans booked.simple, children.trans booked.template, booked.plain, dynamics ▸ kept,
      dynamics ▸ keys, fun temporary => absurd temporary kept⟩
  cases result with
  | ok | okExtra =>
    cases made
    refine still _ rfl rfl _ rfl ?_
    rw [AList.keys_insert, AList.keys_erase, keys]
    exact added
  | ignore ignored =>
    cases made
    exact absurd ignored heeded
  | error what =>
    cases made
    refine still _ rfl rfl _ rfl ?_
    rw [AList.keys_insert, AList.keys_erase, keys]
    exact (booked.keys.failed member).mono (Nat.le_succ _)

theorem restart_booked (kept : child.restartType ≠ .temporary)
    (member : key ∈ s.dynamics.keys)
    (restarts : restart env now { child with pid := key, args } s = some (.ok s'))
    (heeded : env s.starts ≠ .ignore) : Booked child s' := by
  obtain ⟨list, ⟨attempt, made, same⟩ | gone⟩ := restart_cases restarts
  · have waiting : Booked child { s with restarts := list } := { booked with }
    rw [restart_3_simple waiting.simple] at made
    cases same
    exact restartSimpleOneForOne_booked waiting kept member made heeded
  · cases gone

/-- A cast is only there if the children are not temporary. -/
theorem Booked.taken (casts : s.casts = oldest :: rest) :
    child.restartType ≠ .temporary ∧ Booked child { s with casts := rest } := by
  have kept : child.restartType ≠ .temporary := by
    intro temporary
    rw [(booked.temporary temporary).1] at casts
    cases casts
  exact ⟨kept, { booked with temporary := fun temporary => absurd temporary kept }⟩

theorem handle_booked (careful : CarefulDynamic env s msg)
    (handled : handle env s msg = some (.ok s')) : Booked child s' := by
  have left (p : Pid) : Booked child (s.exited p) := { booked with }
  cases handle_dynamic ⟨booked.simple, booked.template⟩ handled with
  | same => exact booked
  | asked started => exact booked.asked started
  | saved started saved => exact saveDynamicChild_booked booked saved
  | ended which deleted =>
    have terminated (ended : Child W) : Booked child (s.terminated [ended]) := { booked with }
    refine stateDelChild_booked (terminated _) ?_ deleted
    rcases which with rfl | waiting | rfl
    · nofun
    · exact absurd (isDynamicPid_iff.mp waiting) careful
    · simp [booked.plain]
  | exited => exact left _
  | dropped deleted => exact stateDelChild_booked (left _) (by nofun) deleted
  | restart due found restarts =>
    have kept : child.restartType ≠ .temporary := of_decide_eq_true due.kept
    have member := dynamicChildArgs_mem kept found
    exact restart_booked (left _) kept member restarts
      (careful ⟨child, by simp [booked.template], due⟩ member)
  | passed casts => exact (booked.taken casts).2
  | retry casts found restarts =>
    obtain ⟨kept, taken⟩ := booked.taken casts
    have member := dynamicChildArgs_mem kept found
    exact restart_booked taken kept member restarts (careful ⟨_, by rw [casts]; rfl, member⟩)

end

theorem booked_of_reachable
    (started : init env .simpleOneForOne intensity period [spec] = some initial)
    (reachable : Reachable env (CarefulDynamic env) initial s) : Booked spec.child s := by
  induction reachable with
  | initial =>
    cases started
    exact ⟨rfl, rfl, rfl, trivial, Keys.nil 0, fun _ => ⟨rfl, by simp [Dynamics.keys, emptyState]⟩⟩
  | step _ _ careful handled ih => exact handle_booked ih careful handled

theorem monitorDynamicChildren_isSome (temporary : Bool) (keys : List (Term W))
    (known : ∀ key ∈ keys, ∃ p, key = .pid p ∨ temporary = false ∧ key = .restarting (some p)) :
    (monitorDynamicChildren temporary keys).isSome = true := by
  induction keys with
  | nil => rfl
  | cons key keys ih =>
    obtain ⟨first, rest⟩ := forall_mem_cons.mp known
    obtain ⟨p, rfl | ⟨dict, rfl⟩⟩ := first
    · rw [monitorDynamicChildren, Option.isSome_map]
      exact ih rest
    · rw [monitorDynamicChildren, if_neg (by simp [dict])]
      exact ih rest

/-- Every key is a pid or is restarting, so the pids are those not counted. -/
theorem Keys.active {keys : List (Term W)} (ok : Keys starts restarts keys) :
    (keys.length : Int) - restarts = keys.countP Term.isPid := by
  have split := @List.length_eq_countP_add_countP _ Term.isRestarting keys
  have same : keys.countP (fun key => ¬key.isRestarting = true) = keys.countP Term.isPid := by
    refine countP_congr fun key member => ?_
    obtain ⟨p, -, rfl | rfl⟩ := ok.known key member <;> simp [Term.isRestarting, Term.isPid]
  rw [ok.count, split]
  omega

theorem countChildren_booked (booked : Booked child s) (alive : Pid → Bool) :
    countChildren alive s = some (dynamicCounts child.childType s.dynamics.keys.length
      (s.dynamics.keys.countP Term.isPid)) := by
  rw [countChildren, isSimple_eq booked.simple, booked.template]
  dsimp only
  split
  · rename_i temporary
    obtain ⟨-, pids⟩ := booked.temporary temporary
    rw [asSet_keys (show s.dynamics.Fits .temporary from temporary ▸ booked.fits),
      countP_eq_length.mpr pids]
    rfl
  · rename_i kept
    obtain ⟨db, dict, keys⟩ := asDict_keys booked.fits kept
    rw [dict, Option.map_some, keys, booked.keys.active]

theorem Booked.listed (booked : Booked child s) :
    s.dynamics.listed child.restartType = some s.dynamics.keys := by
  rw [Dynamics.listed]
  split
  · rename_i temporary
    exact asSet_keys (temporary ▸ booked.fits)
  · rename_i kept
    obtain ⟨db, dict, keys⟩ := asDict_keys booked.fits kept
    rw [dict, Option.map_some, keys]

theorem terminate_booked (booked : Booked child s) : (terminate s).isSome = true := by
  rw [terminate, isSimple_eq booked.simple, booked.template]
  dsimp only
  have monitored := monitorDynamicChildren_isSome (child.restartType = .temporary) s.dynamics.keys
    fun key member => by
      obtain ⟨p, -, rfl | rfl⟩ := booked.keys.known key member
      · exact ⟨p, .inl rfl⟩
      · refine ⟨p, .inr ⟨decide_eq_false fun temporary => ?_, rfl⟩⟩
        cases (booked.temporary temporary).2 _ member
  obtain ⟨pids, found⟩ := Option.isSome_iff_exists.mp monitored
  rw [terminateDynamicChildren, booked.listed]
  simp [found]

/-- The books of a `simple_one_for_one` supervisor are right after every run of careful
messages: every key is a pid or is restarting, the counter counts the latter, the active
children reported are the pids, and the supervisor can be stopped. -/
theorem dynamic_books_kept (env : Env W) (intensity period : Nat) (spec : Spec W)
    (initial s : State W) (started : init env .simpleOneForOne intensity period [spec] =
      some initial)
    (reachable : Reachable env (CarefulDynamic env) initial s) :
    (∀ key ∈ s.dynamics.keys, ∃ p, key = .pid p ∨ key = .restarting (some p)) ∧
    s.dynamicRestarts = s.dynamics.keys.countP Term.isRestarting ∧
    (∀ alive, countChildren alive s = some (dynamicCounts spec.childType s.dynamics.keys.length
      (s.dynamics.keys.countP Term.isPid))) ∧
    (terminate s).isSome = true := by
  have booked := booked_of_reachable started reachable
  refine ⟨fun key member => ?_, booked.keys.count, countChildren_booked booked,
    terminate_booked booked⟩
  obtain ⟨p, -, form⟩ := booked.keys.known key member
  exact ⟨p, form⟩

/-! Terms for runs on fixed messages. -/

def plainWorld : World :=
  ⟨Nat, Unit, Unit, Unit, Unit, inferInstance⟩

def plainId (n : Nat) : Term plainWorld :=
  .name n

def plainSpec (restartType : RestartType) (name : Term plainWorld) : Spec plainWorld :=
  ⟨name, (), [], restartType, .brutalKill, .worker, ()⟩

def dynamicStart : Msg plainWorld :=
  .call (.startChild (.args []))

def alwaysStarts : Env plainWorld :=
  fun _ => .ok

/-- The second start, which is for a restart, has the given outcome, and the others succeed. -/
def restartsWith (outcome : Outcome plainWorld) : Env plainWorld :=
  fun n => if n = 1 then outcome else .ok

/-- A child exits, its restart fails and is retried. -/
theorem dynamic_books_kept_started : ∃ initial failed s,
    init (restartsWith (.error ())) .simpleOneForOne 2 5 [plainSpec .permanent (plainId 0)] =
      some initial ∧
    Reachable (restartsWith (.error ()))
      (CarefulDynamic (restartsWith (.error ()))) initial failed ∧
    failed.dynamics.keys = [.restarting (some 0)] ∧ failed.dynamicRestarts = 1 ∧
    Reachable (restartsWith (.error ())) (CarefulDynamic (restartsWith (.error ()))) initial s ∧
    s.dynamics.keys = [.pid 2] ∧ s.dynamicRestarts = 0 ∧ (terminate s).isSome = true := by
  have begun : Reachable (restartsWith (.error ())) (CarefulDynamic (restartsWith (.error ())))
      { emptyState plainWorld .simpleOneForOne 2 5 with
        children := [(plainSpec .permanent (plainId 0)).child] } _ := .initial
  have failed := (begun.step dynamicStart trivial rfl).step (.exit 0 .other 0)
    (fun _ _ ignored => by cases ignored) rfl
  have retried := failed.step (.tryAgain 1) (fun _ ignored => by cases ignored) rfl
  refine ⟨_, _, _, rfl, failed, rfl, rfl, retried, rfl, rfl, ?_⟩
  exact (dynamic_books_kept _ 2 5 (plainSpec .permanent (plainId 0)) _ _ rfl retried).2.2.2

/-- A child exits. If the start that should replace it is ignored, the dictionary gets a key
for no process, on which the supervisor fails when it is stopped. If that start fails and the
child is terminated before the retry, it is counted as restarting although it is gone. -/
theorem dynamic_books_broken : (∃ initial s,
      init (restartsWith .ignore) .simpleOneForOne 1 5 [plainSpec .permanent (plainId 0)] =
        some initial ∧
      Reachable (restartsWith .ignore) (fun _ _ => True) initial s ∧
      s.dynamics.keys = [.undefined] ∧ terminate s = none) ∧
    (∃ initial s,
      init (restartsWith (.error ())) .simpleOneForOne 1 5 [plainSpec .permanent (plainId 0)] =
        some initial ∧
      Reachable (restartsWith (.error ())) (fun _ _ => True) initial s ∧
      s.dynamics.keys = [] ∧ s.dynamicRestarts = 1 ∧
      countChildren (fun _ => false) s = some (.counts 1 (-1) 0 0)) :=
  ⟨⟨_, _, rfl, (Reachable.initial.step dynamicStart trivial rfl).step
    (.exit 0 .other 0) trivial rfl,
      rfl, rfl⟩,
    ⟨_, _, rfl, ((Reachable.initial.step dynamicStart trivial rfl).step
      (.exit 0 .other 0) trivial rfl).step
      (.call (.terminateChild (.pid 0) false)) trivial rfl, rfl, rfl, rfl⟩⟩

end Otp.Supervisor
