import Otp.Stdlib.SupervisorRestart

/-! Everything that one message can do to a supervisor whose children have ids, and to one whose
children are dynamic. -/

namespace Otp.Supervisor

variable {W : World} {env : Env W}
variable {s : State W} {id : Term W}

/-- The process has terminated. -/
def State.exited (s : State W) (p : Pid) : State W :=
  { s with running := s.running.filter fun r => r.1 ≠ p }

/-- The child of that id, with the children after and before it. -/
structure Located (s : State W) (child : Child W) (after before : List (Child W)) : Prop where
  children : s.children = after ++ child :: before
  first : ∀ ch ∈ after, ch.name ≠ child.name

/-- What a message does. -/
inductive Effect (env : Env W) (s : State W) : Msg W → Next W → Prop
  | same : Effect env s msg (.ok s)
  | asked (child : Child W) : Effect env s (.call call) (.ok (s.asked child))
  | added (absent : ∀ ch ∈ s.children, ch.name ≠ spec.name) (args : Args W) :
      Effect env s (.call (.startChild (.spec spec))) (.ok { s.born spec.child with
        children := { spec.child with pid := .pid s.starts, args } :: s.children })
  | ignored (absent : ∀ ch ∈ s.children, ch.name ≠ spec.name) (kept : spec.child.isKept) :
      Effect env s (.call (.startChild (.spec spec)))
        (.ok { s.asked spec.child with children := spec.child :: s.children })
  | stopped (located : Located s child after before) (kept : child.isKept) :
      Effect env s (.call (.terminateChild child.name alive))
        (.ok { s.terminated [child] with children := after ++ child.stopped :: before })
  | removed (located : Located s child after before) (temporary : child.isKept = false) :
      Effect env s (.call (.terminateChild child.name alive))
        (.ok { s.terminated [child] with children := delChild child.name s.children })
  | started (located : Located s child after before) (idle : child.pid = .undefined) :
      Effect env s (.call (.restartChild child.name)) (.ok { s.born child with
        children := after ++ { child with pid := .pid s.starts } :: before })
  | deleted (located : Located s child after before) (idle : child.pid = .undefined) :
      Effect env s (.call (.deleteChild child.name)) (.ok { s with children := after ++ before })
  | exited : Effect env s (.exit p reason now) (.ok (s.exited p))
  | dropped (member : child ∈ s.children) (found : child.pid = .pid p) :
      Effect env s (.exit p reason now)
        (.ok { s.exited p with children := delChild child.name s.children })
  | restart (children : s.children = after ++ child :: before)
  (first : ∀ ch ∈ after, ch.pid ≠ child.pid)
      (found : child.pid = .pid p) (kept : child.isKept)
      (restarts : restart env now child (s.exited p) = some next) :
      Effect env s (.exit p reason now) next
  | passed (casts : s.casts = head :: rest)
      (idle : ∀ child, findName head.1 s.children = some child → ∀ o, child.pid ≠ .restarting o) :
      Effect env s (.tryAgain now) (.ok { s with casts := rest })
  | retry (casts : s.casts = (child.name, mark) :: rest) (located : Located s child after before)
      (waits : child.pid = .restarting o)
      (restarts : Supervisor.restart env now child { s with casts := rest } = some next) :
      Effect env s (.tryAgain now) next

theorem located_of_findName (found : findName name s.children = some child) :
    child.name = name ∧ ∃ after before, Located s child after before := by
  obtain ⟨same, after, before, split, others⟩ := List.find?_eq_some_iff_append.mp found
  have named : child.name = name := by simpa using same
  refine ⟨named, after, before, split, fun ch member => ?_⟩
  simpa [named] using others ch member

theorem findName_eq_none {children : List (Child W)} (missing : findName name children = none) :
    ∀ ch ∈ children, ch.name ≠ name := by
  intro ch member
  simpa using List.find?_eq_none.mp missing ch member

theorem replaceChild_located (located : Located s child after before) (s0 : State W)
    (children : s0.children = s.children) (pid : Term W) :
    replaceChild { child with pid } s0 =
      some { s0 with children := after ++ { child with pid } :: before } :=
  replaceChild_eq { child with pid } child (children.trans located.children) located.first rfl

theorem handleStartChild_effect (env : Env W) (s : State W) (spec : Spec W) :
    Effect env s (.call (.startChild (.spec spec)))
      (.ok (handleStartChild env spec.child s).2) := by
  rw [handleStartChild]
  split
  · rename_i missing
    have absent := findName_eq_none missing
    have result := doStartChild_result env spec.child s
    generalize doStartChild env spec.child s = r at result
    have saved (args : Args W) : Effect env s (.call (.startChild (.spec spec)))
        (.ok (saveChild { spec.child with pid := .pid s.starts } (s.born spec.child))) := by
      rw [saveChild]
      split
      · exact .added absent none
      · exact .added absent spec.child.args
    cases result with
    | ok => exact saved none
    | okExtra extra => exact saved none
    | ignore ignored =>
      dsimp only
      by_cases temporary : spec.child.restartType = .temporary
      · rw [if_pos ⟨rfl, temporary⟩]
        exact .asked _
      · rw [if_neg (fun h => temporary h.2), saveChild, if_neg temporary]
        exact .ignored absent (by simpa [Child.isKept] using temporary)
    | error what => exact .asked _
  · split <;> exact .same

theorem terminateChild_effect (ordinary : s.isSimple = false)
    (ended : terminateChild id alive s = some (answer, s')) :
    Effect env s (.call (.terminateChild id alive)) (.ok s') := by
  rw [terminateChild, if_neg (by simp [ordinary]), ordinary] at ended
  dsimp only at ended
  split at ended
  · cases ended
  · cases ended
    exact .same
  · rename_i child found
    obtain ⟨rfl, after, before, located⟩ := located_of_findName (Option.some.inj found)
    rw [terminateFound, doTerminate_eq] at ended
    dsimp only at ended
    have plain : (s.terminated [child]).isSimple = false := ordinary
    split at ended
    · rename_i temporary
      rw [stateDelChild, if_neg (by simp [plain])] at ended
      cases ended
      exact .removed located (by simpa [Child.isKept, plain, Child.stopped] using temporary)
    · rename_i kept
      obtain ⟨next, replaced, same⟩ := Option.map_eq_some_iff.mp ended
      rw [Child.stopped, replaceChild_located located (s.terminated [child]) rfl] at replaced
      cases same
      cases replaced
      exact .stopped located (by simpa [Child.isKept, plain, Child.stopped] using kept)

theorem handleRestartChild_effect (ordinary : s.isSimple = false)
    (answered : handleRestartChild env id s = some (answer, s')) :
    Effect env s (.call (.restartChild id)) (.ok s') := by
  rw [handleRestartChild, if_neg (by simp [ordinary])] at answered
  split at answered
  · cases answered
    exact .same
  · rename_i child found
    obtain ⟨rfl, after, before, located⟩ := located_of_findName found
    split at answered
    · rename_i idle
      have result := doStartChild_result env child s
      generalize doStartChild env child s = r at result answered
      cases result with
      | ok | okExtra =>
        dsimp only at answered
        rw [replaceChild_located located (s.born child) rfl] at answered
        cases answered
        exact .started located idle
      | ignore ignored =>
        dsimp only at answered
        rw [replaceChild_located located (s.asked child) rfl] at answered
        cases answered
        have same : ({ child with pid := .undefined } : Child W) = child := by rw [← idle]
        rw [same, ← located.children]
        exact .asked child
      | error what =>
        cases answered
        exact .asked child
    · cases answered
      exact .same
    · cases answered
      exact .same

theorem eraseP_located (located : Located s child after before) :
    s.children.eraseP (fun ch => ch.name = child.name) = after ++ before := by
  rw [located.children, List.eraseP_append_right _ (by simpa using located.first)]
  simp

theorem handleDeleteChild_effect (env : Env W) (ordinary : s.isSimple = false) (id : Term W) :
    Effect env s (.call (.deleteChild id)) (.ok (handleDeleteChild id s).2) := by
  rw [handleDeleteChild, if_neg (by simp [ordinary])]
  split
  · exact .same
  · rename_i child found
    obtain ⟨rfl, after, before, located⟩ := located_of_findName found
    split
    · rename_i idle
      rw [removeChild, eraseP_located located]
      exact .deleted located idle
    · exact .same
    · exact .same

theorem handleCall_effect (ordinary : s.isSimple = false)
    (answered : handleCall env call s = some (answer, s')) :
    Effect env s (.call call) (.ok s') := by
  cases call with
  | startChild arg =>
    rw [handleCall.eq_def] at answered
    dsimp only at answered
    rw [if_neg (by simp [ordinary])] at answered
    cases arg with
    | spec spec =>
      have effect := handleStartChild_effect env s spec
      rwa [Option.some.inj answered] at effect
    | args | invalid =>
      cases answered
      exact .same
  | terminateChild id alive => exact terminateChild_effect ordinary answered
  | restartChild id => exact handleRestartChild_effect ordinary answered
  | deleteChild id =>
    have effect := handleDeleteChild_effect env ordinary id
    rwa [Option.some.inj answered] at effect
  | whichChildren | countChildren =>
    obtain ⟨reply, -, same⟩ := Option.map_eq_some_iff.mp answered
    cases same
    exact .same

/-- The exits after which `do_restart/3` restarts a child. -/
def Child.Due (child : Child W) (reason : Reason) : Prop :=
  child.restartType = .permanent ∨ child.restartType = .transient ∧ reason = .other

theorem Child.Due.kept {child : Child W} (due : child.Due reason) : child.isKept = true := by
  rcases due with permanent | ⟨transient, -⟩
  · simp [Child.isKept, permanent]
  · simp [Child.isKept, transient]

theorem doRestart_cases (restarts : doRestart env now reason child s = some next) :
    child.Due reason ∧ restart env now child s = some next ∨
      (stateDelChild child s).map Next.ok = some next := by
  rw [doRestart.eq_def] at restarts
  split at restarts
  · rename_i permanent
    exact .inl ⟨.inl permanent, restarts⟩
  · exact .inr restarts
  · exact .inr restarts
  · exact .inr restarts
  · rename_i transient
    exact .inl ⟨.inr ⟨transient, rfl⟩, restarts⟩
  · exact .inr restarts

theorem handle_effect (ordinary : s.isSimple = false)
    (handled : handle env s msg = some next) : Effect env s msg next := by
  cases msg with
  | call call =>
    obtain ⟨⟨answer, s'⟩, answered, rfl⟩ := Option.map_eq_some_iff.mp handled
    exact handleCall_effect ordinary answered
  | exit p reason now =>
    change restartChild env now (.pid p) reason (s.exited p) = some next at handled
    have plain : (s.exited p).isSimple = false := ordinary
    rw [restartChild, plain] at handled
    dsimp only at handled
    split at handled
    · rename_i child found
      obtain ⟨same, after, before, children, others⟩ := List.find?_eq_some_iff_append.mp found
      have running : child.pid = .pid p := by simpa using same
      rcases doRestart_cases handled with ⟨due, restarts⟩ | deleted
      · refine .restart children (fun ch member => ?_) running due.kept restarts
        simpa [running] using others ch member
      · rw [stateDelChild, if_neg (by simp [plain])] at deleted
        cases deleted
        exact .dropped (List.mem_of_find?_eq_some found) running
    · cases handled
      exact .exited
  | tryAgain now =>
    rw [handle] at handled
    split at handled
    · cases handled
      exact .same
    · rename_i id mark casts waiting
      have plain : ({ s with casts } : State W).isSimple = false := ordinary
      rw [handleCast, plain] at handled
      dsimp only at handled
      split at handled
      · rename_i child found
        obtain ⟨rfl, after, before, located⟩ := located_of_findName found
        split at handled
        · rename_i o waits
          exact .retry waiting located waits handled
        · rename_i idle
          cases handled
          refine .passed waiting fun ch same => ?_
          cases found.symm.trans same
          exact idle
      · rename_i missing
        cases handled
        refine .passed waiting fun ch same => ?_
        cases missing.symm.trans same

/-- The supervisor of dynamic children has its child specification. -/
structure Template (child : Child W) (s : State W) : Prop where
  strategy : s.strategy = .simpleOneForOne
  children : s.children = [child]

theorem isSimple_eq (simple : s.strategy = .simpleOneForOne) : s.isSimple = true :=
  decide_eq_true simple

theorem Template.simple (template : Template child s) : s.isSimple = true :=
  isSimple_eq template.strategy

/-- What a message does to the supervisor of dynamic children. -/
inductive DynamicEffect (env : Env W) (child : Child W) (s : State W) : Msg W → Next W → Prop
  | same : DynamicEffect env child s msg (.ok s)
  | asked (started : Child W) : DynamicEffect env child s (.call call) (.ok (s.asked started))
  | saved (started : Child W)
      (saved : saveDynamicChild child.restartType (.pid s.starts) args (s.born started) = some s') :
      DynamicEffect env child s (.call call) (.ok s')
  | ended (which : key = .pid p ∨ isDynamicPid (restarting (.pid p)) s.dynamics ∨ key = child.pid)
      (deleted : stateDelChild { child with pid := key }
        (s.terminated [{ child with pid := key }]) = some s') :
      DynamicEffect env child s (.call (.terminateChild (.pid p) alive)) (.ok s')
  | exited : DynamicEffect env child s (.exit p reason now) (.ok (s.exited p))
  | dropped (deleted : stateDelChild { child with pid := .pid p, args } (s.exited p) = some s') :
      DynamicEffect env child s (.exit p reason now) (.ok s')
  | restart (due : child.Due reason)
      (found : dynamicChildArgs (.pid p) child.restartType s.dynamics = some args)
      (restarts : restart env now { child with pid := .pid p, args } (s.exited p) = some next) :
      DynamicEffect env child s (.exit p reason now) next
  | passed (casts : s.casts = head :: rest) :
      DynamicEffect env child s (.tryAgain now) (.ok { s with casts := rest })
  | retry (casts : s.casts = head :: rest)
      (found : dynamicChildArgs (restarting head.1) child.restartType s.dynamics = some args)
      (restarts : Supervisor.restart env now { child with pid := restarting head.1, args } { s with casts := rest } =
        some next) : DynamicEffect env child s (.tryAgain now) next

section

variable {s s' : State W} {child : Child W} (template : Template child s)

include template

theorem startDynamicChild_effect (started : startDynamicChild env eArgs s = some (answer, s')) :
    DynamicEffect env child s (.call call) (.ok s') := by
  rw [startDynamicChild, template.children] at started
  dsimp only at started
  have result := doStartChild_result env { child with args := child.args.map (· ++ eArgs) } s
  generalize doStartChild env _ s = r at result started
  cases result with
  | ok | okExtra =>
    obtain ⟨next, saved, same⟩ := Option.map_eq_some_iff.mp started
    cases same
    exact .saved _ saved
  | ignore | error =>
    cases started
    exact .asked _

theorem terminateFound_dynamic
    (ended : terminateFound { child with pid := key } s = some (answer, s')) :
    stateDelChild { child with pid := key } (s.terminated [{ child with pid := key }]) =
      some s' := by
  rw [terminateFound, doTerminate_eq] at ended
  dsimp only at ended
  rw [if_pos (.inr template.simple)] at ended
  obtain ⟨next, deleted, reply⟩ := Option.map_eq_some_iff.mp ended
  cases reply
  exact deleted

/-- `terminate_child` finds a child that runs or waits, or one that it does not know and that
is dead. -/
theorem terminateChild_dynamic (ended : terminateChild (.pid p) alive s = some (answer, s')) :
    DynamicEffect env child s (.call (.terminateChild (.pid p) alive)) (.ok s') := by
  rw [terminateChild, if_neg (by simp [Term.isPid]), if_pos template.simple, getDynamicChild,
    template.children] at ended
  dsimp only at ended
  by_cases running : isDynamicPid (.pid p) s.dynamics
  · rw [if_pos running] at ended
    exact .ended (.inl rfl) (terminateFound_dynamic template ended)
  · rw [if_neg running] at ended
    by_cases waiting : isDynamicPid (restarting (.pid p)) s.dynamics
    · rw [if_pos waiting] at ended
      exact .ended (.inr (.inl waiting)) (terminateFound_dynamic template ended)
    · rw [if_neg waiting] at ended
      cases alive with
      | true =>
        cases ended
        exact .same
      | false => exact .ended (.inr (.inr rfl)) (terminateFound_dynamic template ended)

theorem handleCall_dynamic (answered : handleCall env call s = some (answer, s')) :
    DynamicEffect env child s (.call call) (.ok s') := by
  cases call with
  | startChild arg =>
    rw [handleCall.eq_def] at answered
    dsimp only at answered
    rw [if_pos template.simple] at answered
    split at answered
    · exact startDynamicChild_effect template answered
    · cases answered
      exact .same
  | terminateChild id alive =>
    cases id with
    | pid p => exact terminateChild_dynamic template answered
    | _ =>
      rw [handleCall, terminateChild, if_pos ⟨by simp [Term.isPid], template.simple⟩] at answered
      cases answered
      exact .same
  | restartChild id =>
    rw [handleCall, handleRestartChild, if_pos template.simple] at answered
    cases answered
    exact .same
  | deleteChild id =>
    rw [handleCall, handleDeleteChild, if_pos template.simple] at answered
    cases answered
    exact .same
  | whichChildren | countChildren =>
    obtain ⟨reply, -, same⟩ := Option.map_eq_some_iff.mp answered
    cases same
    exact .same

theorem handleCast_dynamic (handled : handleCast env now id s = some next) :
    (∃ args, dynamicChildArgs (restarting id) child.restartType s.dynamics = some args ∧
        restart env now { child with pid := restarting id, args } s = some next) ∨
        next = .ok s := by
  rw [handleCast, template.simple, template.children] at handled
  dsimp only at handled
  split at handled
  · rename_i args found
    exact .inl ⟨args, found, handled⟩
  · cases handled
    exact .inr rfl

theorem handle_dynamic (handled : handle env s msg = some next) :
    DynamicEffect env child s msg next := by
  cases msg with
  | call call =>
    obtain ⟨⟨answer, s'⟩, answered, rfl⟩ := Option.map_eq_some_iff.mp handled
    exact handleCall_dynamic template answered
  | exit p reason now =>
    have left : Template child (s.exited p) := ⟨template.strategy, template.children⟩
    change restartChild env now (.pid p) reason (s.exited p) = some next at handled
    rw [restartChild, left.simple, left.children] at handled
    dsimp only at handled
    split at handled
    · rename_i args found
      rcases doRestart_cases handled with ⟨due, restarts⟩ | deleted
      · exact .restart due found restarts
      · obtain ⟨s', gone, rfl⟩ := Option.map_eq_some_iff.mp deleted
        exact .dropped gone
    · cases handled
      exact .exited
  | tryAgain now =>
    rw [handle] at handled
    split at handled
    · cases handled
      exact .same
    · rename_i id mark casts waiting
      have taken : Template child { s with casts } := ⟨template.strategy, template.children⟩
      rcases handleCast_dynamic taken handled with ⟨args, found, restarts⟩ | rfl
      · exact .retry waiting found restarts
      · exact .passed waiting

end

end Otp.Supervisor
