import Otp.Stdlib.SupervisorShutdown

/-! Restart intensity: the supervisor gives up when more restarts than allowed were attempted
within the last period. -/

namespace Otp.Supervisor

open List

variable {W : World} {env : Env W}

/-- What decides whether a restart is allowed. -/
def State.window (s : State W) : List Int × Nat × Nat :=
  (s.restarts, s.intensity, s.period)

/-- The window and the strategy. -/
def State.frame (s : State W) : Strategy × List Int × Nat × Nat :=
  (s.strategy, s.window)

theorem doStartChild_frame (env : Env W) (child : Child W) (s : State W) :
    (doStartChild env child s).2.frame = s.frame := by
  have result := doStartChild_result env child s
  generalize doStartChild env child s = r at result
  cases result <;> rfl

theorem startChildren_frame (env : Env W) (children nChildren : List (Child W)) (s : State W) :
    (startChildren env children nChildren s).2.2.frame = s.frame := by
  induction children generalizing nChildren s with
  | nil => rfl
  | cons child children ih =>
    have same := doStartChild_frame env child s
    rw [startChildren]
    split
    · rename_i s' started
      rw [started] at same
      split <;> exact (ih _ s').trans same
    · rename_i s' started
      rw [started] at same
      exact (ih _ s').trans same
    · rename_i s' started
      rw [started] at same
      exact same

theorem replaceChild_frame {s' : State W} (replaced : replaceChild child s = some s') :
    s'.frame = s.frame := by
  obtain ⟨children, -, rfl⟩ := Option.map_eq_some_iff.mp replaced
  rfl

theorem restarted_frame (done : restarted child before result = some attempt) {id : Term W} :
    (attempt.leave id).frame = result.2.2.frame := by
  rw [restarted.eq_def] at done
  split at done
  · cases done
    rfl
  · split at done
    · obtain ⟨s', replaced, rfl⟩ := Option.map_eq_some_iff.mp done
      exact (replaceChild_frame replaced :)
    · split at done
      · cases done
      · obtain ⟨s', replaced, rfl⟩ := Option.map_eq_some_iff.mp done
        exact (replaceChild_frame replaced :)

theorem restart_3_frame (done : restart_3 env child s = some attempt) {id : Term W} :
    (attempt.leave id).frame = s.frame := by
  rw [restart_3] at done
  have result := doStartChild_frame env child
  split at done
  · rw [restartSimpleOneForOne] at done
    have same := result (s.uncount child.pid)
    have uncounted : (s.uncount child.pid).frame = s.frame := by
      cases child.pid <;> rfl
    generalize doStartChild env child (s.uncount child.pid) = r at *
    split at done
    · cases done
    · split at done <;> cases done <;> exact same.trans uncounted
  · rw [restartOneForOne] at done
    have same := result s
    generalize doStartChild env child s = r at *
    split at done <;> obtain ⟨s', replaced, rfl⟩ := Option.map_eq_some_iff.mp done <;>
      exact (replaceChild_frame replaced).trans same
  · rw [restartRestForOne] at done
    simp only [terminateChildren_eq] at done
    exact (restarted_frame done).trans (startChildren_frame ..)
  · rw [restartOneForAll] at done
    simp only [terminateChildren_eq] at done
    exact (restarted_frame done).trans (startChildren_frame ..)

/-- In a list that goes back in time, all that is cut off is out of the period. -/
theorem addRestartIn_split (descending : times.Pairwise (· ≥ ·)) :
    ∃ old, times = addRestartIn now period times ++ old ∧
      (∀ t ∈ addRestartIn now period times, now - t ≤ period) ∧ ∀ t ∈ old, period < now - t := by
  induction times with
  | nil => exact ⟨[], rfl, nofun, nofun⟩
  | cons t times ih =>
    obtain ⟨newest, descending⟩ := pairwise_cons.mp descending
    rw [addRestartIn]
    split
    · obtain ⟨old, split, kept, dropped⟩ := ih descending
      exact ⟨old, congrArg (t :: ·) split, forall_mem_cons.mpr ⟨by omega, kept⟩, dropped⟩
    · refine ⟨t :: times, rfl, nofun, forall_mem_cons.mpr ⟨by omega, fun r member => ?_⟩⟩
      have := newest r member
      omega

/-- Attempts to restart children, newest first, none of which made the supervisor give up;
between them it does anything that leaves the window as it is. -/
inductive Attempts (env : Env W) (initial : State W) : List Int → State W → Prop
  | start : Attempts env initial [] initial
  | other (before : Attempts env initial times s) (same : s'.window = s.window) :
      Attempts env initial times s'
  | attempt (before : Attempts env initial times s) (later : ∀ t ∈ times, t ≤ now)
      (restarts : restart env now child s = some (.ok s')) : Attempts env initial (now :: times) s'

/-- More attempts than allowed within the period before the newest, itself included. -/
def exceeds (intensity period : Nat) : List Int → Bool
  | [] => false
  | now :: times => intensity < (now :: times).countP fun t => now - t ≤ period

/-- The list of restarts is the attempts but for those that no later attempt can count. -/
structure Windowed (intensity period : Nat) (times restarts : List Int) : Prop where
  latest : times.head? = restarts.head?
  descending : times.Pairwise (· ≥ ·)
  split : ∃ old, times = restarts ++ old ∧ ∀ t ∈ old, ∃ last ∈ times, period < last - t
  calm : ∀ earlier ∈ times.tails, exceeds intensity period earlier = false

/-- The attempts that an attempt counts are the entries that it leaves in the list. -/
theorem Windowed.counts (windowed : Windowed intensity period times restarts)
    (later : ∀ t ∈ times, t ≤ now) :
    ∃ old, now :: times = addRestartIn now period (now :: restarts) ++ old ∧
      (∀ t ∈ old, period < now - t) ∧ (now :: times).countP (fun t => now - t ≤ period) =
        (addRestartIn now period (now :: restarts)).length := by
  obtain ⟨gone, rfl, out⟩ := windowed.split
  have descending : (now :: restarts).Pairwise (· ≥ ·) := by
    refine pairwise_cons.mpr ⟨fun t member => later t (by simp [member]), ?_⟩
    exact (pairwise_append.mp windowed.descending).1
  obtain ⟨old, split, kept, dropped⟩ := addRestartIn_split descending
  have all : ∀ t ∈ old ++ gone, period < now - t := by
    refine forall_mem_append.mpr ⟨dropped, fun t member => ?_⟩
    obtain ⟨last, present, far⟩ := out t member
    have := later last present
    omega
  have whole : now :: (restarts ++ gone) = addRestartIn now period (now :: restarts) ++
    (old ++ gone) := by
    rw [← append_assoc, ← split, cons_append]
  refine ⟨_, whole, all, ?_⟩
  rw [whole, countP_append, countP_eq_length.mpr (by simpa using kept),
    countP_eq_zero.mpr fun t member => by
      simpa only [decide_eq_true_iff, Int.not_le] using all t member,
    Nat.add_zero]

theorem Windowed.attempt (windowed : Windowed intensity period times restarts)
    (later : ∀ t ∈ times, t ≤ now)
    (allowed : (addRestartIn now period (now :: restarts)).length ≤ intensity) :
    Windowed intensity period (now :: times) (addRestartIn now period (now :: restarts)) := by
  obtain ⟨old, split, dropped, count⟩ := windowed.counts later
  refine ⟨by rw [addRestartIn, if_pos (by omega)]; rfl,
    pairwise_cons.mpr ⟨later, windowed.descending⟩,
    ⟨old, split, fun t member => ⟨now, by simp, dropped t member⟩⟩, ?_⟩
  refine forall_mem_cons.mpr ⟨?_, windowed.calm⟩
  rw [exceeds, count, decide_eq_false allowed.not_gt]

theorem init_frame (started : init env strategy intensity period specs = some s) :
    s.frame = (strategy, [], intensity, period) := by
  unfold init at started
  dsimp only at started
  split at started
  · split at started
    · split at started <;> cases started
      rfl
    · have same :=
        startChildren_frame env (specs.map Spec.child) [] (emptyState W strategy intensity period)
      generalize startChildren env _ _ _ = r at *
      split at started <;> cases started
      exact same
  · cases started

/-- The supervisor gives up, or the attempt is entered. -/
theorem restart_window (window : s.window = (list, intensity, period)) (env : Env W) (now : Int)
    (child : Child W) :
    if intensity < (addRestartIn now period (now :: list)).length then
      ∃ s', restart env now child s = some (.shutdown s')
    else ∀ next, restart env now child s = some next → ∃ s', next = .ok s' ∧
      s'.window = (addRestartIn now period (now :: list), intensity, period) := by
  cases window
  rw [restart, addRestart]
  split
  · rename_i more
    simp [Nat.not_le.mpr more]
  · rename_i allowed
    rw [decide_eq_true (Nat.not_lt.mp allowed)]
    intro next restarts
    obtain ⟨attempt, made, rfl⟩ := Option.map_eq_some_iff.mp restarts
    exact ⟨_, rfl, (Prod.mk.inj (restart_3_frame made)).2⟩

theorem Attempts.windowed (started : init env strategy intensity period specs = some initial)
    (attempts : Attempts env initial times s) : ∃ restarts,
      s.window = (restarts, intensity, period) ∧ Windowed intensity period times restarts := by
  induction attempts with
  | start =>
    exact ⟨[], (Prod.mk.inj (init_frame started)).2, rfl, .nil, ⟨[], by simp⟩, by simp [exceeds]⟩
  | other before same ih =>
    obtain ⟨restarts, window, windowed⟩ := ih
    exact ⟨restarts, same.trans window, windowed⟩
  | @attempt _ _ now child _ before later restarts ih =>
    obtain ⟨list, window, windowed⟩ := ih
    have step := restart_window window env now child
    split at step
    · obtain ⟨s', gone⟩ := step
      cases gone.symm.trans restarts
    · rename_i allowed
      obtain ⟨s', same, window⟩ := step _ restarts
      cases same
      exact ⟨_, window, windowed.attempt later (Nat.not_lt.mp allowed)⟩

theorem saveDynamicChild_frame (saved : saveDynamicChild restartType pid args s = some s') :
    s'.frame = s.frame := by
  unfold saveDynamicChild at saved
  split at saved <;> obtain ⟨db, -, rfl⟩ := Option.map_eq_some_iff.mp saved <;> rfl

theorem stateDelChild_frame (deleted : stateDelChild child s = some s') : s'.frame = s.frame := by
  unfold stateDelChild at deleted
  split at deleted
  · split at deleted <;> obtain ⟨db, -, rfl⟩ := Option.map_eq_some_iff.mp deleted <;> rfl
  · cases deleted
    rfl

def Msg.time : Msg W → Option Int
  | .call _ => none
  | .exit _ _ now | .tryAgain now => some now

/-- A message makes one attempt to restart a child, at its time, or leaves intensity, period and
the list of restarts as they are. -/
theorem handle_frame (shape : s.isSimple = false ∨ ∃ child, Template child s)
    (handled : handle env s msg = some (.ok s')) :
    s'.frame = s.frame ∨ ∃ now child s0, msg.time = some now ∧ s0.frame = s.frame ∧
      restart env now child s0 = some (.ok s') := by
  rcases shape with ordinary | ⟨child, template⟩
  · cases handle_effect ordinary handled with
    | restart children first found kept restarts =>
      exact .inr ⟨_, _, s.exited _, rfl, rfl, restarts⟩
    | retry casts located waits restarts =>
      refine .inr ⟨_, _, _, rfl, ?_, restarts⟩
      rfl
    | _ => exact .inl rfl
  · cases handle_dynamic template handled with
    | saved started saved => exact .inl (saveDynamicChild_frame saved :)
    | ended which deleted => exact .inl (stateDelChild_frame deleted :)
    | dropped deleted => exact .inl (stateDelChild_frame deleted :)
    | restart due found restarts => exact .inr ⟨_, _, s.exited _, rfl, rfl, restarts⟩
    | retry casts found restarts =>
      refine .inr ⟨_, _, _, rfl, ?_, restarts⟩
      rfl
    | _ => exact .inl rfl

theorem restart_strategy (restarts : restart env now child s = some (.ok s')) :
    s'.strategy = s.strategy := by
  obtain ⟨list, ⟨attempt, made, same⟩ | same⟩ := restart_cases restarts
  · cases same
    exact (Prod.mk.inj (restart_3_frame made)).1
  · cases same

/-- Time does not go back between two attempts. -/
def OnTime (s : State W) (msg : Msg W) : Prop :=
  ∀ now ∈ msg.time, ∀ last ∈ s.restarts.head?, last ≤ now

theorem Attempts.handled (started : init env strategy intensity period specs = some initial)
    (attempts : Attempts env initial times s)
    (shape : s.isSimple = false ∨ ∃ child, Template child s) (onTime : OnTime s msg)
    (handled : handle env s msg = some (.ok s')) :
    s'.strategy = s.strategy ∧ ∃ times, Attempts env initial times s' := by
  rcases handle_frame shape handled with same | ⟨now, child, s0, time, same, restarts⟩
  · exact ⟨(Prod.mk.inj same).1, times, attempts.other (Prod.mk.inj same).2⟩
  · refine ⟨(restart_strategy restarts).trans (Prod.mk.inj same).1, now :: times, ?_⟩
    refine (attempts.other (Prod.mk.inj same).2).attempt (fun t member => ?_) restarts
    obtain ⟨list, window, windowed⟩ := attempts.windowed started
    have latest := windowed.latest
    rw [show list = s.restarts from (Prod.mk.inj window).1.symm] at latest
    rcases times with _ | ⟨last, times⟩
    · cases member
    · have before := onTime now time last latest.symm
      rcases mem_cons.mp member with rfl | earlier
      · exact before
      · have later := rel_of_pairwise_cons windowed.descending earlier
        omega

/-- What a supervisor does on messages is a run of attempts. -/
theorem attempts_of_reachable (started : init env strategy intensity period specs = some initial)
    (run : Reachable env OnTime initial s) : ∃ times, Attempts env initial times s := by
  have kept : s.strategy = strategy ∧ ∃ times, Attempts env initial times s := by
    induction run with
    | initial => exact ⟨(Prod.mk.inj (init_frame started)).1, [], .start⟩
    | @step s s' before msg onTime handled ih =>
      obtain ⟨same, times, attempts⟩ := ih
      have shape : s.isSimple = false ∨ ∃ child, Template child s := by
        by_cases simple : strategy = .simpleOneForOne
        · subst simple
          obtain ⟨child, initially⟩ := init_template started
          exact .inr ⟨child, template_of_reachable initially before⟩
        · exact .inl (decide_eq_false (same ▸ simple))
      obtain ⟨strategy, attempts⟩ := attempts.handled started shape onTime handled
      exact ⟨strategy.trans same, attempts⟩
  exact kept.2

/-- The supervisor gives up at the first attempt with more than `intensity` attempts, itself
included, in the last `period` seconds. -/
theorem gives_up_when_window_exceeded (env : Env W) (strategy : Strategy) (intensity period : Nat)
    (specs : List (Spec W)) (initial s : State W) (times : List Int) (now : Int) (child : Child W)
    (started : init env strategy intensity period specs = some initial)
    (attempts : Attempts env initial times s) (later : ∀ t ∈ times, t ≤ now) :
    (∃ s', restart env now child s = some (.shutdown s')) ↔
    exceeds intensity period (now :: times) = true ∧
        ∀ earlier ∈ times.tails, exceeds intensity period earlier = false := by
  obtain ⟨list, window, windowed⟩ := attempts.windowed started
  obtain ⟨old, -, -, count⟩ := windowed.counts later
  have step := restart_window window env now child
  rw [exceeds, count, decide_eq_true_iff]
  split at step
  · rename_i more
    exact iff_of_true step ⟨more, windowed.calm⟩
  · rename_i allowed
    refine iff_of_false (fun ⟨s', gone⟩ => ?_) fun both => allowed both.1
    obtain ⟨s'', same, -⟩ := step _ gone
    cases same

def onlyChild : Child plainWorld :=
  { (plainSpec .permanent (plainId 0)).child with pid := .pid 0 }

theorem gives_up_when_window_exceeded_second :
    ∃ initial s, init alwaysStarts .oneForOne 1 5 [plainSpec .permanent (plainId 0)] =
      some initial ∧
      Attempts alwaysStarts initial [3] s ∧
      ∃ s', restart alwaysStarts 8 onlyChild s = some (.shutdown s') := by
  refine ⟨_, _, rfl, @Attempts.attempt _ _ _ _ _ _ onlyChild _ .start nofun rfl, ?_⟩
  exact (gives_up_when_window_exceeded alwaysStarts .oneForOne 1 5
    [plainSpec .permanent (plainId 0)] _ _
    [3] 8 onlyChild rfl (@Attempts.attempt _ _ _ _ _ _ onlyChild _ .start nofun rfl)
      (by decide)).mpr
    (by decide)

end Otp.Supervisor
