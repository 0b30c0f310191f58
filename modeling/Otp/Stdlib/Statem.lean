import Otp.Library.RetryQueue

/-! The event loop of `gen_statem.erl`. What other processes send, the callback module answers and
the clock does is the input of a step; debug printing is left out. -/

namespace Otp.Stdlib.Statem

open Otp.Library.RetryQueue (Entry)

/-- What the loop asks about terms, and the terms that it makes. -/
structure Terms (Term : Type) where
  isFrom : Term → Bool
  isPair : Term → Bool
  ofTime : Nat → Term
  timeoutMessage : Nat → Term → Term
  initialState : Term

inductive EventType (Term : Type) where
  | call (client : Term)
  | cast
  | info
  | timeout
  | internal
  | other (type : Term)
deriving DecidableEq, Repr

/-- Events are numbered as they come up, to follow them; nothing reads the numbers. -/
structure Event (Term : Type) where
  number : Nat
  type : EventType Term
  content : Term
deriving DecidableEq, Repr

inductive CallbackMode where
  | stateFunctions
  | handleEventFunction
deriving DecidableEq, Repr

/-- In `{postpone,_}`, `{hibernate,_}` and `{timeout,_,_}` there is `none` for a term of another
type. -/
inductive Action (Term : Type) where
  | reply (client reply : Term)
  | nextEvent (type : EventType Term) (content : Term)
  | setPostpone (postpone : Option Bool)
  | postpone
  | setHibernate (hibernate : Option Bool)
  | hibernate
  | timeoutInfinity
  | timeout (time : Option Nat) (content : Term)
  | infinity
  | time (time : Nat)
  | other (action : Term)
deriving DecidableEq, Repr

/-- What a state function may return or throw; one action alone is a list of one. -/
inductive Result (State Data Term : Type) where
  | stop
  | stopReason (reason : Term)
  | stopData (reason : Term) (newData : Data)
  | stopAndReply (reason : Term) (replies : List (Action Term)) (newData : Option Data)
  | nextState (nextState : State) (newData : Data) (actions : List (Action Term))
  | keepState (newData : Data) (actions : List (Action Term))
  | keepStateAndData (actions : List (Action Term))
  | other (result : Term)

inductive Outcome (State Data Term : Type) where
  | result (result : Result State Data Term)
  | undef
  | exception (reason : Term)

inductive Reason (Term : Type) where
  | normal
  | exit (reason : Term)
  | exception (reason : Term)
  | undefCallback
  | undefStateFunction
  | badReturnFromCallbackMode
  | badReturnFromStateFunction (result : Term)
  | badActionFromStateFunction (action : Action Term)
  | badReplyActionFromStateFunction (action : Action Term)
deriving DecidableEq, Repr

/-- System requests. The functions may fail, and the other requests change nothing. -/
inductive Request (State Data Term : Type) where
  | suspend
  | resume
  | replaceState (stateFun : State → Data → Option (State × Data))
  | changeCode (codeChange : State → Data → Option (State × Data))
  | terminate (reason : Term)
  | other

/-- A message in the mailbox; a message that is an event has its number. -/
inductive Msg (State Data Term : Type) where
  | system (request : Request State Data Term)
  | exit (reason : Term)
  | timeout (timer : Nat) (content : Term)
  | call (number : Nat) (client request : Term)
  | cast (number : Nat) (content : Term)
  | info (number : Nat) (content : Term)

/-- The engine state map. -/
structure S (State Data Term : Type) where
  callbackMode : Option CallbackMode
  state : State
  data : Data
  postponed : List (Event Term)
  hibernate : Bool
  timer : Option Nat

/-- What the loop works on beside its arguments. -/
structure Process (State Data Term : Type) where
  mailbox : List (Msg State Data Term)
  timers : List (Nat × Term)
  nextTimer : Nat
  nextNumber : Nat
  replies : List (Term × Term)
  log : List (Entry (Event Term) State (Option (Nat × Term)))

/-- Where the process is: in `loop_receive/3`, in `sys:suspend_loop/6`, at the call of the
callback module in `loop_event/9`, or gone. -/
inductive Control (State Data Term : Type) where
  | receiving (s : S State Data Term)
  | suspended (s : S State Data Term)
  | event (s : S State Data Term) (events : List (Event Term)) (state : State) (data : Data)
  (p : List (Event Term))
      (event : Event Term) (hibernate : Bool)
  | terminated (reason : Reason Term) (q : List (Event Term)) (state : State) (data : Data)
  (p : List (Event Term))

structure Machine (State Data Term : Type) where
  control : Control State Data Term
  process : Process State Data Term

section Loop

variable {State Data Term : Type} [DecidableEq State] (terms : Terms Term)

def terminate (reason : Reason Term) (q : List (Event Term)) (state : State) (data : Data)
    (p : List (Event Term)) (process : Process State Data Term) : Machine State Data Term :=
  ⟨.terminated reason q state data p, process⟩

section

variable (s : S State Data Term)

/-- Hibernation ends in `loop_receive/3` as well. -/
def loopEventsDone (timer : Option Nat) (state : State) (data : Data) (p : List (Event Term))
    (hibernate : Bool) (process : Process State Data Term) : Machine State Data Term :=
  ⟨.receiving { s with state := state, data := data, postponed := p, hibernate := hibernate, timer := timer }, process⟩

/-- An event timeout. -/
def timeoutEvent (content : Term) (process : Process State Data Term) : Event Term :=
  ⟨process.nextNumber, .timeout, content⟩

def Process.urgent (process : Process State Data Term) (event : Event Term) :
    Process State Data Term :=
  { process with nextNumber := process.nextNumber + 1, log := .urgent event :: process.log }

section

variable (events : List (Event Term))

def loopEvents (state : State) (data : Data) (p : List (Event Term)) (hibernate : Bool)
    (timeout : Option (Nat × Term)) (process : Process State Data Term) : Machine State Data Term :=
  match events with
  | event :: events => ⟨.event s events state data p event hibernate, process⟩
  | [] =>
    match timeout with
    | some (0, content) =>
      let event := timeoutEvent content process
      ⟨.event s [] state data p event hibernate, process.urgent event⟩
    | some (_ + 1, content) =>
      loopEventsDone s (some process.nextTimer) state data p hibernate { process with
          timers := (process.nextTimer, content) :: process.timers
          nextTimer := process.nextTimer + 1 }
    | none => loopEventsDone s none state data p hibernate process

def eventType : EventType Term → Bool
  | .call client => terms.isFrom client
  | .other _ => false
  | _ => true

/-- The end of the action list: the state transition. -/
def endOfActions (state : State) (newData : Data) (p0 : List (Event Term)) (event : Event Term)
    (nextState : State) (postpone hibernate : Bool) (timeout : Option (Nat × Term))
    (nextEvents : List (Event Term)) (process : Process State Data Term) :
    Machine State Data Term :=
  let p1 := if postpone then event :: p0 else p0
  let q2 := if nextState = state then events else p1.reverse ++ events
  let p := if nextState = state then p1 else []
  let q := nextEvents.reverse ++ q2
  loopEvents s q nextState newData p hibernate timeout
    { process with log := .done event ⟨postpone, state, nextState, nextEvents.reverse, timeout⟩ :: process.log }

def loopEventActions (s : S State Data Term) (events : List (Event Term)) (state : State)
    (newData : Data) (p : List (Event Term)) (event : Event Term) (nextState : State) :
    List (Action Term) → Bool → Bool → Option (Nat × Term) → List (Event Term) →
    Process State Data Term →
      Machine State Data Term
  | [], postpone, hibernate, timeout, nextEvents, process =>
    endOfActions s events state newData p event nextState postpone hibernate timeout nextEvents process
  | action :: actions, postpone, hibernate, timeout, nextEvents, process =>
    let next := loopEventActions s events state newData p event nextState actions
    let bad :=
      terminate (.badActionFromStateFunction action) (event :: events) state newData p process
    match action with
    | .reply client reply =>
      if terms.isFrom client then
        next postpone hibernate timeout nextEvents { process with replies := (client, reply) :: process.replies }
      else bad
    | .nextEvent type content =>
      if eventType terms type then
        next postpone hibernate timeout (⟨process.nextNumber, type, content⟩ :: nextEvents)
          { process with nextNumber := process.nextNumber + 1 }
      else bad
    | .setPostpone (some newPostpone) => next newPostpone hibernate timeout nextEvents process
    | .setPostpone none => bad
    | .postpone => next true hibernate timeout nextEvents process
    | .setHibernate (some newHibernate) => next postpone newHibernate timeout nextEvents process
    | .setHibernate none => bad
    | .hibernate => next postpone true timeout nextEvents process
    | .timeoutInfinity => next postpone hibernate none nextEvents process
    | .timeout (some time) content =>
      next postpone hibernate (some (time, content)) nextEvents process
    | .timeout none _ => bad
    | .infinity => next postpone hibernate none nextEvents process
    | .time time => next postpone hibernate (some (time, terms.ofTime time)) nextEvents process
    | .other _ => bad

def doReplyThenTerminate (reason : Reason Term) (q : List (Event Term)) (state : State)
    (data : Data) (p : List (Event Term)) : List (Action Term) → Process State Data Term →
    Machine State Data Term
  | [], process => terminate reason q state data p process
  | r :: rs, process =>
    match r with
    | .reply client reply =>
      if terms.isPair client then
        doReplyThenTerminate reason q state data p rs { process with replies := (client, reply) :: process.replies }
      else terminate (.badReplyActionFromStateFunction r) q state data p process
    | _ => terminate (.badReplyActionFromStateFunction r) q state data p process

def loopEventResult (state : State) (data : Data) (p : List (Event Term)) (event : Event Term)
    (process : Process State Data Term) : Result State Data Term → Machine State Data Term
  | .stop => terminate .normal (event :: events) state data p process
  | .stopReason reason => terminate (.exit reason) (event :: events) state data p process
  | .stopData reason newData => terminate (.exit reason) (event :: events) state newData p process
  | .stopAndReply reason replies newData =>
    doReplyThenTerminate terms (.exit reason) (event :: events) state
      (newData.getD data) p replies process
  | .nextState nextState newData actions =>
    loopEventActions terms s events state newData p event nextState actions false false none
      [] process
  | .keepState newData actions =>
    loopEventActions terms s events state newData p event state actions false false none [] process
  | .keepStateAndData actions =>
    loopEventActions terms s events state data p event state actions false false none [] process
  | .other result =>
    terminate (.badReturnFromStateFunction result) (event :: events) state data p process

/-- The call of a state function, when the callback mode is known. -/
def loopEvent (state : State) (data : Data) (p : List (Event Term)) (event : Event Term)
    (process : Process State Data Term) (outcome : Outcome State Data Term) :
    Machine State Data Term :=
  let process := { process with log := .handed event :: process.log }
  match outcome with
  | .result result => loopEventResult terms s events state data p event process result
  | .undef => terminate .undefStateFunction (event :: events) state data p process
  | .exception reason => terminate (.exception reason) (event :: events) state data p process

inductive ModeOutcome (Term : Type) where
  | mode (callbackMode : CallbackMode)
  | other (result : Term)
  | undef
  | exception (reason : Term)

/-- The call of `callback_mode/0`, when it is not known. -/
def loopEventCallbackMode (state : State) (data : Data) (p : List (Event Term)) (event : Event Term)
    (process : Process State Data Term) : ModeOutcome Term → Machine State Data Term
  | .mode callbackMode =>
    ⟨.event { s with callbackMode := some callbackMode } events state data p event false, process⟩
  | .other _ => terminate .badReturnFromCallbackMode (event :: events) state data p process
  | .undef => terminate .undefCallback (event :: events) state data p process
  | .exception reason => terminate (.exception reason) (event :: events) state data p process

end

/-- Here the queue of not yet handled events is created. -/
def loopReceiveResult (event : Event Term) (process : Process State Data Term) :
    Machine State Data Term :=
  ⟨.event s [] s.state s.data s.postponed event false, process⟩

def Msg.isTimeout (timer : Nat) : Msg State Data Term → Bool
  | .timeout other _ => other = timer
  | _ => false

/-- A timer that does not run any more has sent its message. -/
def cancelTimer (timer : Option Nat) (process : Process State Data Term) :
    Process State Data Term :=
  match timer with
  | none => process
  | some timer =>
    if (process.timers.lookup timer).isSome then
      { process with timers := process.timers.eraseP fun running => running.1 == timer }
    else { process with mailbox := process.mailbox.eraseP (Msg.isTimeout timer) }

/-- The function `sys:handle_system_msg/7` with `sys:do_cmd/6`. -/
def handleSystemMsg (suspended : Bool) (s : S State Data Term) (process : Process State Data Term) :
    Request State Data Term → Machine State Data Term
  | .suspend => ⟨.suspended s, process⟩
  | .resume => ⟨.receiving s, process⟩
  | .terminate reason => terminate (.exit reason) [] s.state s.data s.postponed process
  | .replaceState stateFun =>
    let s :=
      match stateFun s.state s.data with
      | some (newState, newData) => { s with state := newState, data := newData }
      | none => s
    ⟨if suspended then .suspended s else .receiving s, process⟩
  | .changeCode codeChange =>
    if suspended then
      match codeChange s.state s.data with
      | some (newState, newData) =>
        ⟨.suspended { s with callbackMode := none, state := newState, data := newData }, process⟩
      | none => ⟨.suspended s, process⟩
    else ⟨.receiving s, process⟩
  | .other => ⟨if suspended then .suspended s else .receiving s, process⟩

def loopReceive (process : Process State Data Term) : Msg State Data Term → Machine State Data Term
  | .system request => handleSystemMsg false s process request
  | .exit reason => terminate (.exit reason) [] s.state s.data s.postponed process
  | .timeout timer content =>
    if s.timer = some timer then
      let event := timeoutEvent content process
      loopReceiveResult s event (process.urgent event)
    else
      let event : Event Term := ⟨process.nextNumber, .info, terms.timeoutMessage timer content⟩
      loopReceiveResult s event ((cancelTimer s.timer process).urgent event)
  | .call number client request =>
    loopReceiveResult s ⟨number, .call client, request⟩ (cancelTimer s.timer process)
  | .cast number content =>
    loopReceiveResult s ⟨number, .cast, content⟩ (cancelTimer s.timer process)
  | .info number content =>
    loopReceiveResult s ⟨number, .info, content⟩ (cancelTimer s.timer process)

/-- The messages that `sys:suspend_loop/6` receives. -/
def Msg.isSystem : Msg State Data Term → Bool
  | .system _ => true
  | .exit _ => true
  | _ => false

def suspendLoop (process : Process State Data Term) : Msg State Data Term → Machine State Data Term
  | .system request => handleSystemMsg true s process request
  | .exit reason => terminate (.exit reason) [] s.state s.data s.postponed process
  | _ => ⟨.suspended s, process⟩

end

/-- What other processes send. -/
inductive Incoming (State Data Term : Type) where
  | system (request : Request State Data Term)
  | exit (reason : Term)
  | call (client request : Term)
  | cast (content : Term)
  | info (content : Term)

def Process.arrive (process : Process State Data Term) (msg : Msg State Data Term)
    (event : Event Term) :
    Process State Data Term :=
  { process with
    mailbox := process.mailbox ++ [msg]
    nextNumber := process.nextNumber + 1
    log := .arrived event :: process.log }

def arrive (process : Process State Data Term) : Incoming State Data Term → Process State Data Term
  | .system request => { process with mailbox := process.mailbox ++ [.system request] }
  | .exit reason => { process with mailbox := process.mailbox ++ [.exit reason] }
  | .call client request =>
    process.arrive (.call process.nextNumber client request) ⟨process.nextNumber,
      .call client, request⟩
  | .cast content =>
    process.arrive (.cast process.nextNumber content) ⟨process.nextNumber, .cast, content⟩
  | .info content =>
    process.arrive (.info process.nextNumber content) ⟨process.nextNumber, .info, content⟩

inductive Input (State Data Term : Type) where
  | arrive (msg : Incoming State Data Term)
  | expire (timer : Nat)
  | receive
  | callbackMode (outcome : ModeOutcome Term)
  | callback (outcome : Outcome State Data Term)

def step (machine : Machine State Data Term) :
    Input State Data Term → Option (Machine State Data Term)
  | .arrive msg => some { machine with process := arrive machine.process msg }
  | .expire timer =>
    match machine.process.timers.lookup timer with
    | some content =>
      some { machine with process :=
        { machine.process with
          timers := machine.process.timers.eraseP fun running => running.1 == timer
          mailbox := machine.process.mailbox ++ [.timeout timer content] } }
    | none => none
  | .receive =>
    match machine.control with
    | .receiving s =>
      match machine.process.mailbox with
      | msg :: mailbox => some (loopReceive terms s { machine.process with mailbox := mailbox } msg)
      | [] => none
    | .suspended s =>
      match machine.process.mailbox.find? Msg.isSystem with
      | some msg =>
        some (suspendLoop s { machine.process with mailbox := machine.process.mailbox.eraseP Msg.isSystem } msg)
      | none => none
    | _ => none
  | .callbackMode outcome =>
    match machine.control with
    | .event s events state data p event _ =>
      if s.callbackMode = none then
        some (loopEventCallbackMode s events state data p event machine.process outcome)
      else none
    | _ => none
  | .callback outcome =>
    match machine.control with
    | .event s events state data p event _ =>
      if s.callbackMode = none then none
      else some (loopEvent terms s events state data p event machine.process outcome)
    | _ => none

/-- The start, with the actions that `init/1` returned. -/
def enter (state : State) (data : Data) (actions : List (Action Term))
    (process : Process State Data Term) :
    Machine State Data Term :=
  loopEventActions terms ⟨none, state, data, [], false, none⟩ [] state data []
    ⟨process.nextNumber, .internal, terms.initialState⟩ state
      (actions ++ [.setPostpone (some false)]) false false none []
    { process with nextNumber := process.nextNumber + 1 }

/-- The states of a server: messages may arrive before it enters the loop. -/
inductive Reachable : Machine State Data Term → Prop where
  | enter (state : State) (data : Data) (actions : List (Action Term))
  (msgs : List (Incoming State Data Term)) :
      Reachable (enter terms state data actions (msgs.foldl arrive ⟨[], [], 0, 0, [], []⟩))
  | step {machine next : Machine State Data Term}
  (input : Input State Data Term) : Reachable machine →
      step terms machine input = some next → Reachable next

end Loop

end Otp.Stdlib.Statem
