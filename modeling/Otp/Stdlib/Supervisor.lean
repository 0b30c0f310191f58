import Mathlib.Data.List.AList

/-! The supervisor of `supervisor.erl`: its state, the requests and messages it serves, and
what it does to processes. A start is numbered, and the process that it creates has that
number for a pid, so pids are in the order of birth. -/

namespace Otp.Supervisor

/-- The terms that the supervisor stores and passes on without a look inside. -/
structure World where
  Name : Type
  Fun : Type
  Arg : Type
  Info : Type
  Modules : Type
  decName : DecidableEq Name

instance (W : World) : DecidableEq W.Name := W.decName

variable {W : World}

abbrev Pid := Nat

/-- A term that stands for a child: its id, what its pid field holds, a key of `dynamics`.
Ids are taken up to `==`. -/
inductive Term (W : World) where
  | undefined
  | pid (p : Pid)
  | restarting (of : Option Pid)
  | name (n : W.Name)
  deriving DecidableEq

inductive RestartType where
  | permanent | transient | temporary
  deriving DecidableEq, Repr

inductive Shutdown where
  | brutalKill
  | infinity
  | time (ms : Nat)
  deriving DecidableEq, Repr

inductive ChildType where
  | worker | supervisor
  deriving DecidableEq, Repr

inductive Strategy where
  | oneForOne | oneForAll | restForOne | simpleOneForOne
  deriving DecidableEq, Repr

/-- The arguments of a start function; `none` is `undefined`. -/
abbrev Args (W : World) := Option (List W.Arg)

/-- `#child{}`; `mfargs` is kept as the function and its arguments. -/
structure Child (W : World) where
  pid : Term W
  name : Term W
  fn : W.Fun
  args : Args W
  restartType : RestartType
  shutdown : Shutdown
  childType : ChildType
  modules : W.Modules

/-- A child specification that `check_childspec/1` accepted. -/
structure Spec (W : World) where
  name : Term W
  fn : W.Fun
  args : List W.Arg
  restartType : RestartType
  shutdown : Shutdown
  childType : ChildType
  modules : W.Modules

def Spec.child (spec : Spec W) : Child W :=
  ⟨.undefined, spec.name, spec.fn, some spec.args, spec.restartType, spec.shutdown, spec.childType,
    spec.modules⟩

/-- The `dynamics` field. -/
inductive Dynamics (W : World) where
  | undefined
  | dict (db : AList fun _ : Term W => Args W)
  | set (db : List (Term W))

/-- What the supervisor does to processes. -/
inductive Action (W : World) where
  | start (name : Term W)
  | shutdown (p : Pid) (how : Shutdown)
  deriving DecidableEq

/-- `#state{}`, and below the line the world around: the starts so far, the retry casts not
yet received with the number of starts when they were sent, the processes that were started
and have not terminated with the shutdown of their child, and the actions so far. -/
structure State (W : World) where
  strategy : Strategy
  children : List (Child W)
  dynamics : Dynamics W
  intensity : Nat
  period : Nat
  restarts : List Int
  dynamicRestarts : Int
  starts : Nat
  casts : List (Term W × Nat)
  running : List (Pid × Shutdown)
  log : List (Action W)

/-- What a start function returns, or fails with. -/
inductive Outcome (W : World) where
  | ok
  | okExtra (extra : W.Info)
  | ignore
  | error (what : W.Info)

/-- The outcome of each start. -/
abbrev Env (W : World) := Nat → Outcome W

def State.isSimple (s : State W) : Bool :=
  s.strategy = .simpleOneForOne

def Term.isPid : Term W → Bool
  | .pid _ => true
  | _ => false

/-- `restarting/1` -/
def restarting : Term W → Term W
  | .pid p => .restarting (some p)
  | rPid => rPid

/-- What `do_start_child` returns. -/
inductive Started (W : World) where
  | ok (pid : Term W)
  | okExtra (pid : Term W) (extra : W.Info)
  | error (what : Option W.Info)

/-- A start function is called. -/
def State.asked (s : State W) (child : Child W) : State W :=
  { s with starts := s.starts + 1, log := s.log ++ [.start child.name] }

/-- A start function is called and creates a process. -/
def State.born (s : State W) (child : Child W) : State W :=
  { s.asked child with running := s.running ++ [(s.starts, child.shutdown)] }

section

variable (env : Env W)

/-- `do_start_child/2` and `do_start_child_i/3`. No function is applied to `undefined`. -/
def doStartChild (child : Child W) (s : State W) : Started W × State W :=
  match child.args with
  | none => (.error none, s.asked child)
  | some _ =>
    match env s.starts with
    | .ok => (.ok (.pid s.starts), s.born child)
    | .okExtra extra => (.okExtra (.pid s.starts) extra, s.born child)
    | .ignore => (.ok .undefined, s.asked child)
    | .error what => (.error (some what), s.asked child)

/-- What a start can come to. -/
inductive StartResult (env : Env W) (child : Child W) (s : State W) : Started W × State W → Prop
  | ok : StartResult env child s (.ok (.pid s.starts), s.born child)
  | okExtra (extra : W.Info) : StartResult env child s (.okExtra (.pid s.starts) extra,
    s.born child)
  | ignore (ignored : env s.starts = .ignore) : StartResult env child s (.ok .undefined,
    s.asked child)
  | error (what : Option W.Info) : StartResult env child s (.error what, s.asked child)

theorem doStartChild_result (child : Child W) (s : State W) :
    StartResult env child s (doStartChild env child s) := by
  rw [doStartChild]
  split
  · exact .error none
  · split
    · exact .ok
    · exact .okExtra _
    · rename_i ignored
      exact .ignore ignored
    · exact .error _

/-- `start_children/3`: the child that could not be started, if any, and the children in
reverse start order. -/
def startChildren (env : Env W) : List (Child W) → List (Child W) → State W →
    Option (Term W) × List (Child W) × State W
  | child :: chs, nChildren, s =>
    match doStartChild env child s with
    | (.ok pid, s) =>
      if pid = .undefined ∧ child.restartType = .temporary then startChildren env chs nChildren s
      else startChildren env chs ({ child with pid } :: nChildren) s
    | (.okExtra pid _, s) => startChildren env chs ({ child with pid } :: nChildren) s
    | (.error _, s) => (some child.name, chs.reverse ++ child :: nChildren, s)
  | [], nChildren, s => (none, nChildren, s)

/-- `shutdown/2`: afterwards the process has terminated. -/
def State.shutdown (s : State W) (p : Pid) (how : Shutdown) : State W :=
  { s with running := s.running.filter fun r => r.1 ≠ p, log := s.log ++ [.shutdown p how] }

def doTerminate (child : Child W) (s : State W) : Child W × State W :=
  match child.pid with
  | .pid p => ({ child with pid := .undefined }, s.shutdown p child.shutdown)
  | _ => ({ child with pid := .undefined }, s)

/-- `terminate_children/3` -/
def terminateChildren : List (Child W) → List (Child W) → State W → List (Child W) × State W
  | child :: children, res, s =>
    let (nChild, s) := doTerminate child s
    if child.restartType = .temporary then terminateChildren children res s
    else terminateChildren children (nChild :: res) s
  | [], res, s => (res, s)

/-- `dynamics_db/2` where a dictionary is expected. -/
def Dynamics.asDict : Dynamics W → Option (AList fun _ : Term W => Args W)
  | .undefined => some ∅
  | .dict db => some db
  | .set _ => none

/-- `dynamics_db/2` where a set is expected. -/
def Dynamics.asSet : Dynamics W → Option (List (Term W))
  | .undefined => some []
  | .set db => some db
  | .dict _ => none

/-- The elements of the set of a temporary child, or the keys of the dictionary. -/
def Dynamics.listed (restartType : RestartType) (dynamics : Dynamics W) : Option (List (Term W)) :=
  if restartType = .temporary then dynamics.asSet else dynamics.asDict.map AList.keys

/-- `monitor_dynamic_children/2`: the processes to stop. An entry that is neither a pid nor,
in a dictionary, restarting has no clause. -/
def monitorDynamicChildren (temporary : Bool) : List (Term W) → Option (List Pid)
  | [] => some []
  | .pid p :: keys => (monitorDynamicChildren temporary keys).map (p :: ·)
  | .restarting _ :: keys => if temporary then none else monitorDynamicChildren temporary keys
  | _ :: _ => none

/-- `terminate_dynamic_children/3` -/
def terminateDynamicChildren (child : Child W) (s : State W) : Option (State W) := do
  let keys ← s.dynamics.listed child.restartType
  let pids ← monitorDynamicChildren (child.restartType = .temporary) keys
  return pids.foldl (fun s p => s.shutdown p child.shutdown) s

/-- `terminate/2` -/
def terminate (s : State W) : Option (State W) :=
  match s.isSimple, s.children with
  | true, [child] => terminateDynamicChildren child s
  | _, children => some (terminateChildren children [] s).2

/-- `del_child/2` -/
def delChild (key : Term W) : List (Child W) → List (Child W)
  | ch :: chs =>
    if ch.name = key ∨ ch.pid = key then
      if ch.restartType = .temporary then chs else { ch with pid := .undefined } :: chs
    else ch :: delChild key chs
  | [] => []

/-- `split_child/3` -/
def splitChild (key : Term W) : List (Child W) → List (Child W) → List (Child W) × List (Child W)
  | ch :: chs, after =>
    if ch.name = key ∨ ch.pid = key then (({ ch with pid := .undefined } :: after).reverse, chs)
    else splitChild key chs (ch :: after)
  | [], after => (after.reverse, [])

/-- `do_replace_child/2` -/
def doReplaceChild (child : Child W) : List (Child W) → Option (List (Child W))
  | ch :: chs =>
    if ch.name = child.name then some (child :: chs)
    else (doReplaceChild child chs).map (ch :: ·)
  | [] => none

def replaceChild (child : Child W) (s : State W) : Option (State W) :=
  (doReplaceChild child s.children).map fun children => { s with children }

/-- `remove_child/2` -/
def removeChild (child : Child W) (s : State W) : State W :=
  { s with children := s.children.eraseP fun ch => ch.name = child.name }

/-- `lists:keyfind(Name, #child.name, Children)` -/
def findName (name : Term W) (children : List (Child W)) : Option (Child W) :=
  children.find? fun ch => ch.name = name

/-- `lists:keyfind(Pid, #child.pid, Children)` -/
def findPid (pid : Term W) (children : List (Child W)) : Option (Child W) :=
  children.find? fun ch => ch.pid = pid

/-- `state_del_child/2` -/
def stateDelChild (child : Child W) (s : State W) : Option (State W) :=
  if s.isSimple then
    if child.restartType = .temporary then
      s.dynamics.asSet.map fun db => { s with dynamics := .set (db.erase child.pid) }
    else s.dynamics.asDict.map fun db => { s with dynamics := .dict (db.erase child.pid) }
  else some { s with children := delChild child.name s.children }

def saveChild (child : Child W) (s : State W) : State W :=
  if child.restartType = .temporary then
    { s with children := { child with args := none } :: s.children }
  else { s with children := child :: s.children }

def saveDynamicChild (restartType : RestartType) (pid : Term W) (args : Args W) (s : State W) :
    Option (State W) :=
  if restartType = .temporary then
    s.dynamics.asSet.map fun db => { s with dynamics := .set (db.insert pid) }
  else s.dynamics.asDict.map fun db => { s with dynamics := .dict (db.insert pid args) }

/-- `dynamic_child_args/3` -/
def dynamicChildArgs (key : Term W) (restartType : RestartType) : Dynamics W → Option (Args W)
  | .dict db => if restartType = .temporary then some none else db.lookup key
  | _ => if restartType = .temporary then some none else none

/-- `add_restart/3` -/
def addRestartIn (now : Int) (period : Nat) : List Int → List Int
  | r :: restarts => if now ≤ r + period then r :: addRestartIn now period restarts else []
  | [] => []

/-- `add_restart/1`: whether the intensity allows another restart. -/
def addRestart (now : Int) (s : State W) : Bool × State W :=
  let restarts := addRestartIn now s.period (now :: s.restarts)
  (restarts.length ≤ s.intensity, { s with restarts })

/-- What `restart/3` returns; `tryAgainAt` names the child whose start failed. -/
inductive Attempt (W : World) where
  | ok (s : State W)
  | tryAgain (s : State W)
  | tryAgainAt (s : State W) (child : Child W)

/-- A child that was restarting is not counted any more. -/
def State.uncount (s : State W) : Term W → State W
  | .restarting _ => { s with dynamicRestarts := s.dynamicRestarts - 1 }
  | _ => s

section

variable (child : Child W)

def restartSimpleOneForOne (s : State W) : Option (Attempt W) :=
  let s := s.uncount child.pid
  match s.dynamics.asDict with
  | none => none
  | some db =>
    let dynamics := db.erase child.pid
    match doStartChild env child s with
    | (.ok pid, s) | (.okExtra pid _, s) =>
      some (.ok { s with dynamics := .dict (dynamics.insert pid child.args) })
    | (.error _, s) =>
      some (.tryAgain { s with
        dynamicRestarts := s.dynamicRestarts + 1
        dynamics := .dict (dynamics.insert (restarting child.pid) child.args) })

def restartOneForOne (s : State W) : Option (Attempt W) :=
  match doStartChild env child s with
  | (.ok pid, s) | (.okExtra pid _, s) => (replaceChild { child with pid } s).map .ok
  | (.error _, s) => (replaceChild { child with pid := restarting child.pid } s).map .tryAgain

/-- The end of `restart/3` for `rest_for_one` and `one_for_all`, once the children in
question are started: the rest of the list and what `start_children/2` returned. -/
def restarted (before : List (Child W)) : Option (Term W) × List (Child W) × State W →
    Option (Attempt W)
  | (none, children, s) => some (.ok { s with children := children ++ before })
  | (some chName, children, s) =>
    let nState := { s with children := children ++ before }
    if chName = child.name then
      (replaceChild { child with pid := restarting child.pid } nState).map .tryAgain
    else
      match findName chName children with
      | none => none
      | some nChild =>
        let nChild2 := { nChild with pid := .restarting none }
        (replaceChild nChild2 nState).map fun s => .tryAgainAt s nChild2

def restartRestForOne (s : State W) : Option (Attempt W) :=
  let (chAfter, chBefore) := splitChild child.pid s.children []
  let (chAfter2, s) := terminateChildren chAfter [] s
  restarted child chBefore (startChildren env chAfter2 [] s)

def restartOneForAll (s : State W) : Option (Attempt W) :=
  let children1 := delChild child.pid s.children
  let (children2, s) := terminateChildren children1 [] s
  restarted child [] (startChildren env children2 [] s)

/-- `restart/3` -/
def restart_3 (s : State W) : Option (Attempt W) :=
  match s.strategy with
  | .simpleOneForOne => restartSimpleOneForOne env child s
  | .oneForOne => restartOneForOne env child s
  | .restForOne => restartRestForOne env child s
  | .oneForAll => restartOneForAll env child s

end

/-- What the server does next. -/
inductive Next (W : World) where
  | ok (s : State W)
  | shutdown (s : State W)

/-- `try_again_restart/2`, a cast to the supervisor itself. -/
def State.tryAgainRestart (s : State W) (id : Term W) : State W :=
  { s with casts := s.casts ++ [(id, s.starts)] }

/-- The state after an attempt: a retry is sent for the child, or for the one that failed. -/
def Attempt.leave (id : Term W) : Attempt W → State W
  | .ok s => s
  | .tryAgain s => s.tryAgainRestart id
  | .tryAgainAt s child => s.tryAgainRestart child.name

/-- `restart/2` -/
def restart (now : Int) (child : Child W) (s : State W) : Option (Next W) :=
  match addRestart now s with
  | (true, nState) =>
    (restart_3 env child nState).map fun attempt =>
      .ok (attempt.leave (if s.isSimple then child.pid else child.name))
  | (false, nState) => some (.shutdown (removeChild child nState))

end

/-- A restart is an attempt, or the supervisor gives up. -/
theorem restart_cases {s : State W} (restarts : restart env now child s = some next) :
    ∃ list, (∃ attempt, restart_3 env child { s with restarts := list } = some attempt ∧
        next = .ok (attempt.leave (if s.isSimple then child.pid else child.name))) ∨
      next = .shutdown (removeChild child { s with restarts := list }) := by
  rw [restart] at restarts
  refine ⟨addRestartIn now s.period (now :: s.restarts), ?_⟩
  split at restarts
  · rename_i nState allowed
    obtain ⟨-, rfl⟩ := Prod.mk.inj allowed
    obtain ⟨attempt, made, rfl⟩ := Option.map_eq_some_iff.mp restarts
    exact .inl ⟨attempt, made, rfl⟩
  · rename_i nState allowed
    obtain ⟨-, rfl⟩ := Prod.mk.inj allowed
    cases restarts
    exact .inr rfl

/-- Why a process terminated. -/
inductive Reason where
  | normal
  | shutdown
  | shutdownTerm
  | other
  deriving DecidableEq, Repr

section

variable (env : Env W)

/-- `do_restart/4` -/
def doRestart (now : Int) (reason : Reason) (child : Child W) (s : State W) : Option (Next W) :=
  match child.restartType, reason with
  | .permanent, _ => restart env now child s
  | _, .normal | _, .shutdown | _, .shutdownTerm => (stateDelChild child s).map .ok
  | .transient, .other => restart env now child s
  | .temporary, .other => (stateDelChild child s).map .ok

/-- `restart_child/3` -/
def restartChild (now : Int) (pid : Term W) (reason : Reason) (s : State W) : Option (Next W) :=
  match s.isSimple, s.children with
  | true, [child] =>
    match dynamicChildArgs pid child.restartType s.dynamics with
    | some args => doRestart env now reason { child with pid, args } s
    | none => some (.ok s)
  | _, children =>
    match findPid pid children with
    | some child => doRestart env now reason child s
    | none => some (.ok s)

/-- `handle_cast/2` -/
def handleCast (now : Int) (id : Term W) (s : State W) : Option (Next W) :=
  match s.isSimple, s.children with
  | true, [child] =>
    let rPid := restarting id
    match dynamicChildArgs rPid child.restartType s.dynamics with
    | some args => restart env now { child with pid := rPid, args } s
    | none => some (.ok s)
  | _, children =>
    match findName id children with
    | some child =>
      match child.pid with
      | .restarting _ => restart env now child s
      | _ => some (.ok s)
    | none => some (.ok s)

inductive Answer (W : World) where
  | ok
  | okPid (pid : Term W)
  | okExtra (pid : Term W) (extra : W.Info)
  | error (what : Option W.Info)
  | errorAtChild (what : Option W.Info) (child : Child W)
  | alreadyStarted (pid : Term W)
  | alreadyPresent
  | notFound
  | running
  | restarting
  | simpleOneForOne
  | children (list : List (Term W × Term W × ChildType × W.Modules))
  | counts (specs active supervisors workers : Int)

/-- The argument of `start_child`: arguments, or a child specification. -/
inductive StartArg (W : World) where
  | args (list : List W.Arg)
  | spec (spec : Spec W)
  | invalid (what : W.Info)

inductive Call (W : World) where
  | startChild (arg : StartArg W)
  | terminateChild (id : Term W) (alive : Bool)
  | restartChild (id : Term W)
  | deleteChild (id : Term W)
  | whichChildren
  | countChildren (alive : Pid → Bool)

def handleStartChild (child : Child W) (s : State W) : Answer W × State W :=
  match findName child.name s.children with
  | none =>
    match doStartChild env child s with
    | (.ok pid, s) =>
      if pid = .undefined ∧ child.restartType = .temporary then (.okPid .undefined, s)
      else (.okPid pid, saveChild { child with pid } s)
    | (.okExtra pid extra, s) => (.okExtra pid extra, saveChild { child with pid } s)
    | (.error what, s) => (.errorAtChild what child, s)
  | some oldChild =>
    if oldChild.pid.isPid then (.alreadyStarted oldChild.pid, s) else (.alreadyPresent, s)

/-- `start_child` of a `simple_one_for_one` supervisor. -/
def startDynamicChild (eArgs : List W.Arg) (s : State W) : Option (Answer W × State W) :=
  match s.children with
  | [] => none
  | child :: _ =>
    let args := child.args.map (· ++ eArgs)
    match doStartChild env { child with args } s with
    | (.ok pid, s) =>
      if pid = .undefined then some (.okPid .undefined, s)
      else (saveDynamicChild child.restartType pid args s).map fun s => (.okPid pid, s)
    | (.okExtra pid extra, s) =>
      (saveDynamicChild child.restartType pid args s).map fun s => (.okExtra pid extra, s)
    | (.error what, s) => some (.error what, s)

/-- `is_dynamic_pid/2` -/
def isDynamicPid (pid : Term W) : Dynamics W → Bool
  | .dict db => pid ∈ db.keys
  | .set db => pid ∈ db
  | .undefined => false

/-- `get_dynamic_child/2`; `alive` is the answer of `is_process_alive/1`. -/
def getDynamicChild (pid : Term W) (alive : Bool) (s : State W) : Option (Option (Child W)) :=
  match s.children with
  | [child] =>
    if isDynamicPid pid s.dynamics then some (some { child with pid })
    else if isDynamicPid (restarting pid) s.dynamics then
      some (some { child with pid := restarting pid })
    else if alive then some none
    else some (some child)
  | _ => none

/-- `terminate_child` of a child that was found. -/
def terminateFound (child : Child W) (s : State W) : Option (Answer W × State W) :=
  let (nChild, s) := doTerminate child s
  if nChild.restartType = .temporary ∨ s.isSimple then
    (stateDelChild child s).map fun s => (.ok, s)
  else (replaceChild nChild s).map fun s => (.ok, s)

def terminateChild (id : Term W) (alive : Bool) (s : State W) : Option (Answer W × State W) :=
  if ¬id.isPid ∧ s.isSimple then some (.simpleOneForOne, s)
  else
    let found := if s.isSimple then getDynamicChild id alive s else some (findName id s.children)
    match found with
    | none => none
    | some none => some (.notFound, s)
    | some (some child) => terminateFound child s

def handleRestartChild (id : Term W) (s : State W) : Option (Answer W × State W) :=
  if s.isSimple then some (.simpleOneForOne, s)
  else
    match findName id s.children with
    | none => some (.notFound, s)
    | some child =>
      match child.pid with
      | .undefined =>
        match doStartChild env child s with
        | (.ok pid, s) => (replaceChild { child with pid } s).map fun s => (.okPid pid, s)
        | (.okExtra pid extra, s) =>
          (replaceChild { child with pid } s).map fun s => (.okExtra pid extra, s)
        | (.error what, s) => some (.error what, s)
      | .restarting _ => some (.restarting, s)
      | _ => some (.running, s)

def handleDeleteChild (id : Term W) (s : State W) : Answer W × State W :=
  if s.isSimple then (.simpleOneForOne, s)
  else
    match findName id s.children with
    | none => (.notFound, s)
    | some child =>
      match child.pid with
      | .undefined => (.ok, removeChild child s)
      | .restarting _ => (.restarting, s)
      | _ => (.running, s)

/-- The atom `restarting` in place of a pid that is restarting. -/
def shownPid : Term W → Term W
  | .restarting _ => .restarting none
  | pid => pid

def whichChildren (s : State W) : Option (Answer W) :=
  match s.isSimple, s.children with
  | true, [child] =>
    (s.dynamics.listed child.restartType).map fun keys => .children (keys.map fun key =>
      (.undefined, shownPid key, child.childType, child.modules))
  | _, children =>
    some (.children (children.map fun ch => (ch.name, shownPid ch.pid, ch.childType, ch.modules)))

/-- The reply for `size` dynamic children of which `active` are running. -/
def dynamicCounts (childType : ChildType) (size active : Int) : Answer W :=
  match childType with
  | .supervisor => .counts 1 active size 0
  | .worker => .counts 1 active 0 size

/-- `count_child/2` -/
def countChild (alive : Pid → Bool) (counts : Int × Int × Int × Int) (child : Child W) :
    Int × Int × Int × Int :=
  let (specs, active, supers, workers) := counts
  let runs := match child.pid with
    | .pid p => alive p
    | _ => false
  let active := if runs then active + 1 else active
  match child.childType with
  | .worker => (specs + 1, active, supers, workers + 1)
  | .supervisor => (specs + 1, active, supers + 1, workers)

def countChildren (alive : Pid → Bool) (s : State W) : Option (Answer W) :=
  match s.isSimple, s.children with
  | true, [child] =>
    if child.restartType = .temporary then
      s.dynamics.asSet.map fun db => dynamicCounts child.childType db.length db.length
    else
      s.dynamics.asDict.map fun db =>
        dynamicCounts child.childType db.keys.length (db.keys.length - s.dynamicRestarts)
  | _, children =>
    let (specs, active, supers, workers) := children.foldl (countChild alive) (0, 0, 0, 0)
    some (.counts specs active supers workers)

/-- `handle_call/3` -/
def handleCall : Call W → State W → Option (Answer W × State W)
  | .startChild arg, s =>
    if s.isSimple then
      match arg with
      | .args eArgs => startDynamicChild env eArgs s
      -- the argument list is improper and the start function is not found
      | _ => some (.error none, s)
    else
      match arg with
      | .spec spec => some (handleStartChild env spec.child s)
      | .invalid what => some (.error (some what), s)
      | .args _ => some (.error none, s)
  | .terminateChild id alive, s => terminateChild id alive s
  | .restartChild id, s => handleRestartChild env id s
  | .deleteChild id, s => some (handleDeleteChild id s)
  | .whichChildren, s => (whichChildren s).map fun reply => (reply, s)
  | .countChildren alive, s => (countChildren alive s).map fun reply => (reply, s)

/-- What the supervisor receives: a request, the exit of a process, or the oldest of the
casts that wait for it. -/
inductive Msg (W : World) where
  | call (call : Call W)
  | exit (p : Pid) (reason : Reason) (now : Int)
  | tryAgain (now : Int)

/-- One message; `none` is a crash of the supervisor. -/
def handle (s : State W) : Msg W → Option (Next W)
  | .call call => (handleCall env call s).map fun (_, s) => .ok s
  | .exit p reason now =>
    restartChild env now (.pid p) reason { s with running := s.running.filter fun r => r.1 ≠ p }
  | .tryAgain now =>
    match s.casts with
    | [] => some (.ok s)
    | (id, _) :: casts => handleCast env now id { s with casts }

/-- The states in which the supervisor can be after messages that meet a condition. -/
inductive Reachable (env : Env W) (allowed : State W → Msg W → Prop) (initial : State W) :
    State W → Prop
  | initial : Reachable env allowed initial initial
  | step (before : Reachable env allowed initial s) (msg : Msg W) (meets : allowed s msg)
      (handled : handle env s msg = some (.ok s')) : Reachable env allowed initial s'

/-- A supervisor without children. -/
def emptyState (W : World) (strategy : Strategy) (intensity period : Nat) : State W :=
  ⟨strategy, [], .undefined, intensity, period, [], 0, 0, [], [], []⟩

/-- `init/1` for specifications that are valid one by one; `check_startspec/1` refuses equal
ids, and the supervisor stops if a child could not be started. -/
def init (strategy : Strategy) (intensity period : Nat) (specs : List (Spec W)) :
    Option (State W) :=
  let s := emptyState W strategy intensity period
  if (specs.map Spec.name).Nodup then
    if s.isSimple then
      match specs with
      | [spec] => some { s with children := [spec.child] }
      | _ => none
    else
      match startChildren env (specs.map Spec.child) [] s with
      | (none, children, s) => some { s with children }
      | (some _, _, _) => none
  else none

end

end Otp.Supervisor
