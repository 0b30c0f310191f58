import Otp.Stdlib.SupervisorOrder

/-! Runs of a supervisor with the ids that it should have: in which order the children are, and
what every restart does to them. -/

namespace Otp.Supervisor

open List hiding after

variable {W : World} {env : Env W}

/-- The ids of the children that are not temporary, in start order, after a request. -/
def orderAfter (order : List (Term W)) : Call W → Answer W → List (Term W)
  | .startChild (.spec spec), .okPid _ => if spec.child.isKept then order ++ [spec.name] else order
  | .startChild (.spec spec), .okExtra _ _ =>
    if spec.child.isKept then order ++ [spec.name] else order
  | .deleteChild id, .ok => order.erase id
  | _, _ => order

/-- The states of a supervisor with the start order of its children. -/
inductive History (env : Env W) (initial : State W) (first : List (Term W)) :
    State W → List (Term W) → Prop
  | initial : History env initial first initial first
  | call (before : History env initial first s order) (call : Call W)
  (arrives : InMailbox s (.call call))
      (answered : handleCall env call s = some (answer, s')) :
      History env initial first s' (orderAfter order call answer)
  | exit (before : History env initial first s order) (p : Pid) (reason : Reason) (now : Int)
      (arrives : InMailbox s (.exit p reason now))
      (handled : handle env s (.exit p reason now) =
        some (.ok s')) : History env initial first s' order
  | tryAgain (before : History env initial first s order) (now : Int)
      (handled : handle env s (.tryAgain now) = some (.ok s')) : History env initial first s' order

theorem saveChild_order {spec : Spec W} (order : keptNames s.children = names.reverse)
    (pid : Term W) : keptNames (saveChild { spec.child with pid } s).children =
      (if spec.child.isKept then names ++ [spec.name] else names).reverse := by
  rw [saveChild]
  split
  · rename_i temporary
    have gone : ¬spec.child.isKept := by simpa [Child.isKept] using temporary
    rw [if_neg gone]
    rw [keptNames_cons, order]
    exact if_neg gone
  · rename_i permanent
    have kept : spec.child.isKept := by simpa [Child.isKept] using permanent
    rw [if_pos kept]
    rw [keptNames_cons_pid, keptNames_cons, if_pos kept, order, reverse_append]
    rfl

theorem handleStartChild_order (order : keptNames s.children = names.reverse)
    (answered : handleStartChild env spec.child s = (answer, s')) :
    keptNames s'.children = (orderAfter names (.startChild (.spec spec)) answer).reverse := by
  rw [handleStartChild] at answered
  split at answered
  · have result := doStartChild_result env spec.child s
    generalize doStartChild env spec.child s = r at result answered
    cases result with
    | ok | okExtra =>
      cases answered
      exact saveChild_order (s := s.born spec.child) order _
    | ignore ignored =>
      dsimp only at answered
      split at answered
      · rename_i temporary
        cases answered
        have gone : ¬spec.child.isKept := by simpa [Child.isKept] using temporary.2
        rw [orderAfter, if_neg gone]
        exact order
      · cases answered
        exact saveChild_order (s := s.asked spec.child) order _
    | error what =>
      cases answered
      exact order
  · split at answered
    · cases answered
      exact order
    · cases answered
      exact order

theorem handleDeleteChild_order {id : Term W} (tracked : Tracked s)
    (order : keptNames s.children = names.reverse)
    (answered : handleDeleteChild id s = (answer, s')) :
    keptNames s'.children = (orderAfter names (.deleteChild id) answer).reverse := by
  rw [handleDeleteChild, tracked.ordinary, if_neg (by simp)] at answered
  split at answered
  · cases answered
    exact order
  · rename_i child found
    obtain ⟨rfl, after, before, located⟩ := located_of_findName found
    split at answered
    · cases answered
      change keptNames (s.children.eraseP fun ch => ch.name = child.name) =
        (names.erase child.name).reverse
      rw [eraseP_located located]
      have others := located.others tracked.names
      have missing {part : List (Child W)} (inside : ∀ ch ∈ part, ch ∈ after ++ before) :
          child.name ∉ keptNames part := by
        intro member
        obtain ⟨ch, present, same⟩ := mem_keptNames member
        exact (others ch (inside ch present)).2 same
      rw [← reverse_reverse names, ← order, located.children, keptNames_append, keptNames_append,
        keptNames_cons]
      split
      · rw [reverse_append, reverse_cons, append_assoc, erase_append_right,
          singleton_append, erase_cons_head, reverse_append, reverse_reverse, reverse_reverse]
        simpa using missing fun ch member => mem_append_right after member
      · rw [erase_of_not_mem, reverse_reverse]
        rw [mem_reverse, ← keptNames_append]
        exact missing fun ch member => member
    · cases answered
      exact order
    · cases answered
      exact order

theorem handleCall_order (sequenced : Sequenced s) (tracked : Tracked s)
    (arrives : InMailbox s (.call call)) (order : keptNames s.children = names.reverse)
    (answered : handleCall env call s = some (answer, s')) :
    keptNames s'.children = (orderAfter names call answer).reverse := by
  have effect := handleCall_effect tracked.ordinary answered
  have unchanged (notStart : ∀ spec, call ≠ .startChild (.spec spec))
      (notDelete : ∀ id, call ≠ .deleteChild id) :
      keptNames s'.children = names.reverse :=
    ((effect_sequenced sequenced tracked arrives effect).2 (by simpa using notStart)
      (by simpa using notDelete)).trans order
  match call, answered with
  | .startChild (.spec spec), answered =>
    rw [handleCall, tracked.ordinary] at answered
    exact handleStartChild_order order (Option.some.inj answered)
  | .deleteChild id, answered =>
    exact handleDeleteChild_order tracked order (Option.some.inj answered)
  | .startChild (.args _), _ => exact unchanged (by simp) (by simp)
  | .startChild (.invalid _), _ => exact unchanged (by simp) (by simp)
  | .terminateChild .., _ => exact unchanged (by simp) (by simp)
  | .restartChild _, _ => exact unchanged (by simp) (by simp)
  | .whichChildren, _ => exact unchanged (by simp) (by simp)
  | .countChildren _, _ => exact unchanged (by simp) (by simp)

/-- The invariant with the order. -/
structure InOrder (s : State W) (order : List (Term W)) : Prop where
  tracked : Tracked s
  sequenced : Sequenced s
  order : keptNames s.children = order.reverse

theorem InOrder.step {order : List (Term W)} (ordered : InOrder s order) (arrives : InMailbox s msg)
    (handled : handle env s msg = some (.ok s')) :
    Tracked s' ∧ Sequenced s' ∧
    ((∀ call, msg ≠ .call call) → keptNames s'.children = order.reverse) := by
  have effect := handle_effect ordered.tracked.ordinary handled
  obtain ⟨sequenced, names⟩ := effect_sequenced ordered.sequenced ordered.tracked arrives effect
  exact ⟨effect_tracked ordered.tracked arrives.plainIds effect, sequenced,
    fun other => (names (fun _ => other _) fun _ => other _).trans ordered.order⟩

theorem inOrder_of_history (initially : InOrder initial first)
    (run : History env initial first s order) : InOrder s order := by
  induction run with
  | initial => exact initially
  | @call s order answer s' before call arrives answered ih =>
    have handled : handle env s (.call call) = some (.ok s') := by rw [handle, answered]; rfl
    obtain ⟨tracked, sequenced, -⟩ := ih.step arrives handled
    exact ⟨tracked, sequenced, handleCall_order ih.sequenced ih.tracked arrives ih.order answered⟩
  | exit before p reason now arrives handled ih =>
    obtain ⟨tracked, sequenced, names⟩ := ih.step arrives handled
    exact ⟨tracked, sequenced, names fun _ same => by cases same⟩
  | @tryAgain s order s' before now handled ih =>
    have arrives : InMailbox s (.tryAgain now) := trivial
    obtain ⟨tracked, sequenced, names⟩ := ih.step arrives handled
    exact ⟨tracked, sequenced, names fun _ same => by cases same⟩

theorem StartsAll.sequenced {specs : List (Spec W)}
    (all : StartsAll env s (specs.map Spec.child) started s')
    (plain : ∀ spec ∈ specs, spec.name.IsPlain) (casts : s.casts = []) :
    Sequenced { s' with children := started.reverse } := by
  have none : s'.casts = [] := all.casts.trans casts
  refine ⟨⟨fun ch member => ?_, fun ch member => ?_, fun a first b second p one other => ?_, ?_⟩,
    ?_, fun _ => pairwise_settled_of_calm all.calm⟩
  · obtain ⟨old, found, same, -⟩ := all.mem (mem_reverse.mp member)
    obtain ⟨spec, inside, rfl⟩ := mem_map.mp found
    rw [same]
    exact plain spec inside
  · obtain ⟨-, -, -, idle | ⟨p, pid, -, high⟩⟩ := all.mem (mem_reverse.mp member)
    · rw [idle]
      trivial
    · rw [pid]
      exact high
  · rw [all.once (mem_reverse.mp first) (mem_reverse.mp second) one other]
  · simp [none]
  · exact fun ch member o waits => absurd waits (all.calm ch member o)

theorem init_inOrder (ordinary : strategy ≠ .simpleOneForOne)
    (plain : ∀ spec ∈ specs, spec.name.IsPlain)
    (begun : init env strategy intensity period specs = some initial) :
    InOrder initial (keptNames (specs.map Spec.child)) := by
  obtain ⟨started, s', all, distinct, rfl⟩ := init_starts ordinary begun
  have notSimple : (emptyState W strategy intensity period).isSimple = false := by
    simp [State.isSimple, emptyState, ordinary]
  refine ⟨all.tracked notSimple rfl distinct plain, all.sequenced plain rfl, ?_⟩
  rw [keptNames_reverse, all.keptNames]

def RestartType.restartsAfter : RestartType → Reason → Bool
  | .permanent, _ => true
  | .transient, reason => reason = .other
  | .temporary, _ => false

/-- The child that a message makes the supervisor restart. -/
def failedChild (s : State W) : Msg W → Option (Child W)
  | .call _ => none
  | .exit p reason _ =>
    (findPid (.pid p) s.children).filter fun child => child.restartType.restartsAfter reason
  | .tryAgain _ =>
    match s.casts with
    | [] => none
    | (id, _) :: _ => (findName id s.children).filter fun child => child.pid.isRestarting

theorem doRestart_eq (fails : child.restartType.restartsAfter reason = true) :
    child.isKept ∧ doRestart env now reason child s = restart env now child s := by
  rw [Child.isKept]
  cases restartType : child.restartType with
  | permanent => exact ⟨by simp, by rw [doRestart.eq_def, restartType]⟩
  | transient =>
    rw [restartType] at fails
    cases of_decide_eq_true fails
    exact ⟨by simp, by rw [doRestart.eq_def, restartType]⟩
  | temporary =>
    rw [restartType] at fails
    cases fails

/-- Such a message restarts the child that stands at a place of its own. -/
theorem handle_failed (ordered : InOrder s order) (arrives : InMailbox s msg)
    (failed : failedChild s msg = some child) :
    (∃ now, handle env s msg = restart env now child (s.taken msg)) ∧
      ∃ after before, Chosen (s.taken msg) child after before := by
  have ordinary := ordered.tracked.ordinary
  match msg, failed with
  | .exit p reason now, failed =>
    obtain ⟨found, fails⟩ := Option.filter_eq_some_iff.mp failed
    obtain ⟨same, after, before, children, others⟩ := find?_eq_some_iff_append.mp found
    have running : child.pid = .pid p := by simpa using same
    obtain ⟨kept, restarts⟩ := doRestart_eq fails
    refine ⟨⟨now, ?_⟩, after, before,
      chosen_exited ordered.sequenced children (fun ch member => ?_) running kept
      arrives⟩
    · change restartChild env now (.pid p) reason (s.exited p) = _
      have plain : (s.exited p).isSimple = false := ordinary
      rw [restartChild, plain]
      dsimp only
      rw [show findPid (.pid p) (s.exited p).children = some child from found]
      exact restarts
    · simpa [running] using others ch member
  | .tryAgain now, failed =>
    rw [failedChild] at failed
    split at failed
    · cases failed
    · rename_i id mark rest casts
      obtain ⟨found, waits⟩ := Option.filter_eq_some_iff.mp failed
      obtain ⟨rfl, after, before, located⟩ := located_of_findName found
      obtain ⟨o, pid⟩ : ∃ o, child.pid = .restarting o := by
        cases pid : child.pid with
        | restarting o => exact ⟨o, rfl⟩
        | undefined => rw [pid] at waits; cases waits
        | pid p => rw [pid] at waits; cases waits
        | name n => rw [pid] at waits; cases waits
      have chosen := chosen_retry ordered.sequenced ordered.tracked located pid casts
      have taken : s.taken (.tryAgain now) = { s with casts := rest } := by
        simp [State.taken, casts]
      rw [taken]
      refine ⟨⟨now, ?_⟩, after, before, chosen⟩
      have plain : ({ s with casts := rest } : State W).isSimple = false := ordinary
      rw [handle, casts]
      dsimp only
      rw [handleCast, plain]
      dsimp only
      rw [found]
      dsimp only
      rw [pid]

/-- A message gives the supervisor up, or restarts a group of children in order. -/
def Restarts (env : Env W) (s : State W) (msg : Msg W) (group before : List (Child W)) : Prop :=
  (∃ s', handle env s msg = some (.shutdown s')) ∨
    ∃ s', handle env s msg = some (.ok s') ∧ RestartsInOrder (s.taken msg) s' group before

theorem restarts_of_attempts (tracked : Tracked (s.taken msg))
    (busy : (∃ p, child.pid = .pid p) ∨ ∃ o, child.pid = .restarting o)
    (handled : handle env s msg = restart env now child (s.taken msg))
    (attempts : ∀ list, ∃ attempt, restart_3 env child { s.taken msg with restarts := list } =
      some attempt ∧
      Attempted env child group before { s.taken msg with restarts := list } attempt) :
    Restarts env s msg group before := by
  rw [Restarts, handled, restart]
  split
  · rename_i nState allowed
    obtain ⟨attempt, made, attempted⟩ :=
      attempts (addRestartIn now (s.taken msg).period (now :: (s.taken msg).restarts))
    obtain ⟨-, rfl⟩ := Prod.mk.inj allowed
    refine .inr ⟨attempt.leave child.name, ?_, attempted.in_order busy⟩
    rw [made, tracked.ordinary]
    rfl
  · exact .inl ⟨_, rfl⟩

theorem Tracked.taken (tracked : Tracked s) (msg : Msg W) : Tracked (s.taken msg) := by
  cases msg with
  | call _ => exact tracked
  | exit p _ _ => exact tracked.exited p
  | tryAgain _ => exact tracked.withCasts _

theorem Fielded.taken (fielded : Fielded s) (msg : Msg W) : Fielded (s.taken msg) := by
  cases msg with
  | call _ => exact fielded
  | exit p _ _ => exact ⟨fielded.plain, fielded.fields, fielded.once, fielded.marks⟩
  | tryAgain _ => exact fielded.withCasts _ (tail_sublist _).subset

theorem children_taken {s : State W} : (s.taken msg).children = s.children := by
  cases msg <;> rfl

theorem strategy_taken {s : State W} : (s.taken msg).strategy = s.strategy := by
  cases msg <;> rfl

/-- No process of a child before the failed one is shut down. -/
theorem Sequenced.untouched {s : State W} (sequenced : Sequenced s)
    (names : (s.children.map Child.name).Nodup) (children : s.children = after ++ child :: before) :
    ∀ ch ∈ before, ∀ p how, ch.pid = .pid p →
      Action.shutdown p how ∉ (after ++ [child.stopped]).filterMap Child.shutdown? := by
  intro ch member p how pid shut
  obtain ⟨other, inside, is⟩ := mem_filterMap.mp shut
  have running : other.pid = .pid p := by
    rw [Child.shutdown?] at is
    split at is
    · cases is
      assumption
    · cases is
  have later : other ∈ after := by
    rcases mem_append.mp inside with later | itself
    · exact later
    · rw [mem_singleton.mp itself] at running
      cases running
  have same :=
    sequenced.once other (by simp [children, later]) ch (by simp [children, member]) p running pid
  rw [children, map_append, nodup_append] at names
  exact names.2.2 _ (mem_map_of_mem later) _ (mem_cons_of_mem _ (mem_map_of_mem member)) same

/-- In every run of a supervisor whose ids are plain, the children that are not temporary are
in the reverse of their start order, a child that waits for a restart has a retry on its way,
and a restart for a failed child takes down and up again, in order, the children from that one
on (`rest_for_one`) or all of them (`one_for_all`). -/
theorem start_order_kept (env : Env W) (strategy : Strategy) (intensity period : Nat)
    (specs : List (Spec W)) (initial s : State W) (order : List (Term W))
    (ordinary : strategy ≠ .simpleOneForOne) (plain : ∀ spec ∈ specs, spec.name.IsPlain)
    (begun : init env strategy intensity period specs = some initial)
    (run : History env initial (keptNames (specs.map Spec.child)) s order) :
    (s.children.map Child.name).Nodup ∧ keptNames s.children = order.reverse ∧
    (∀ ch ∈ s.children, ∀ o, ch.pid = .restarting o → ∃ mark, (ch.name, mark) ∈ s.casts) ∧
    ∀ msg child, InMailbox s msg → failedChild s msg = some child →
      ∃ after before, s.children = after ++ child :: before ∧
        (s.strategy = .restForOne → Restarts env s msg (after ++ [child.stopped]) before ∧
          ∀ ch ∈ before, ∀ p how, ch.pid = .pid p →
            Action.shutdown p how ∉ (after ++ [child.stopped]).filterMap Child.shutdown?) ∧
        (s.strategy = .oneForAll → Restarts env s msg (after ++ child.stopped :: before) []) := by
  have ordered := inOrder_of_history (init_inOrder ordinary plain begun) run
  refine ⟨ordered.tracked.names, ordered.order, ordered.sequenced.pending,
    fun msg child arrives failed => ?_⟩
  obtain ⟨⟨now, handled⟩, after, before, chosen⟩ := handle_failed ordered arrives failed
  have tracked := ordered.tracked.taken msg
  have fielded := ordered.sequenced.toFielded.taken msg
  have children : s.children = after ++ child :: before :=
    (children_taken).symm.trans chosen.children
  refine ⟨after, before, children, fun rest => ⟨?_, ?_⟩, fun all => ?_⟩
  · refine restarts_of_attempts tracked chosen.busy handled fun list => ?_
    exact (chosen.counted list).attempts_rest (fielded.counted list) tracked.names
      ((strategy_taken).trans rest)
  · exact ordered.sequenced.untouched ordered.tracked.names children
  · refine restarts_of_attempts tracked chosen.busy handled fun list => ?_
    exact (chosen.counted list).attempts_all (fielded.counted list) tracked.names
      ((strategy_taken).trans all)

/-- The first of three children exits, and the second fails to start again once. -/
def secondFails : Env plainWorld :=
  fun n => if n = 4 then .error () else .ok

theorem start_order_kept_failing : ∃ initial s, init secondFails .restForOne 5 5
        [plainSpec .permanent (plainId 0), plainSpec .permanent (plainId 1),
          plainSpec .permanent (plainId 2)] = some initial ∧
      History secondFails initial [plainId 0, plainId 1, plainId 2] s
        [plainId 0, plainId 1, plainId 2] ∧
      s.casts = [(plainId 1, 5)] ∧ keptNames s.children = [plainId 2, plainId 1, plainId 0] := by
  have plain : ∀ spec ∈ [plainSpec .permanent (plainId 0), plainSpec .permanent (plainId 1),
      plainSpec .permanent (plainId 2)], spec.name.IsPlain := by
    simp [plainSpec, plainId, Term.IsPlain]
  refine ⟨_, _, rfl, .exit .initial 0 .other 0 (by intro cast queued; cases queued) rfl, rfl, ?_⟩
  exact (start_order_kept secondFails .restForOne 5 5
    [plainSpec .permanent (plainId 0), plainSpec .permanent (plainId 1),
      plainSpec .permanent (plainId 2)] _ _
    [plainId 0, plainId 1, plainId 2] (by decide) plain rfl
    (.exit .initial 0 .other 0 (by intro cast queued; cases queued) rfl)).2.1

/-- The third id is what the pid field of the second child holds while it waits: the retry
starts the third child, and the second one waits for ever. -/
theorem start_order_broken : ∃ initial s s', init secondFails .restForOne 5 5
        [plainSpec .permanent (plainId 0), plainSpec .permanent (plainId 1),
          plainSpec .permanent (.restarting none)] = some initial ∧
      handle secondFails initial (.exit 0 .other 0) = some (.ok s) ∧
      s.casts = [(plainId 1, 5)] ∧
      handle secondFails s (.tryAgain 0) = some (.ok s') ∧
      s'.log = s.log ++ [.start (.restarting none)] ∧ s'.casts = [] ∧
      s'.children.map (fun ch => (ch.name, ch.pid)) =
        [(.restarting none, .pid 5), (plainId 1, .restarting none), (plainId 0, .pid 3)] :=
  ⟨_, _, _, rfl, rfl, rfl, rfl, rfl, rfl, rfl⟩

end Otp.Supervisor
