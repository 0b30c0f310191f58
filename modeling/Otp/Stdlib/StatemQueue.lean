import Otp.Stdlib.Statem

/-! The events of a server are handed over in the order of one queue. -/

namespace Otp.Stdlib.Statem

open List
open Otp.Library.RetryQueue (Entry Turn Replay came mem_came_cons)

variable {State Data Term : Type}
variable {control : Control State Data Term}

def Msg.event : Msg State Data Term → Option (Event Term)
  | .call number client request => some ⟨number, .call client, request⟩
  | .cast number content => some ⟨number, .cast, content⟩
  | .info number content => some ⟨number, .info, content⟩
  | _ => none

def Msg.expired : Msg State Data Term → Option (Nat × Term)
  | .timeout timer content => some (timer, content)
  | _ => none

/-- The events in the hands of the loop, the next one first. -/
def Control.pending : Control State Data Term → List (Event Term)
  | .receiving _ => []
  | .suspended _ => []
  | .event _ events _ _ _ current _ => current :: events
  | .terminated _ q _ _ _ => q

/-- The loop keeps the last one first. -/
def Control.postponed : Control State Data Term → List (Event Term)
  | .receiving s => s.postponed.reverse
  | .suspended s => s.postponed.reverse
  | .event _ _ _ _ p _ _ => p.reverse
  | .terminated _ _ _ _ p => p.reverse

section

variable (process : Process State Data Term)

def Process.events : List (Event Term) := process.mailbox.filterMap Msg.event

def Machine.queue (machine : Machine State Data Term) : List (Event Term) :=
  machine.control.pending ++ machine.process.events

/-- The timers that run and the messages of those that have expired. -/
def Process.timeouts : List (Nat × Term) :=
  process.timers ++ process.mailbox.filterMap Msg.expired

abbrev Log (State Term : Type) := List (Entry (Event Term) State (Option (Nat × Term)))

/-- The content of the event timeout that the last callback asked for, when nothing was handed
over since. -/
def requested : Log State Term → Option Term
  | .done _ turn :: _ => turn.request.map Prod.snd
  | .arrived _ :: log => requested log
  | .urgent _ :: log => requested log
  | _ => none

/-- The event was inserted by a callback. -/
def Inserted (event : Event Term) (log : Log State Term) : Prop :=
  ∃ other turn, .done other turn ∈ log ∧ event ∈ turn.inserted

/-- The event is not an event timeout that comes up now. -/
def Old (event : Event Term) (log : Log State Term) : Prop :=
  event.type = .timeout → Inserted event log ∨ .handed event ∈ log

/-- The event may be handed over. -/
def Due (event : Event Term) (log : Log State Term) : Prop :=
  event.type = .timeout → Inserted event log ∨ .handed event ∈ log ∨
  requested log = some event.content

def AllDue : Log State Term → Prop
  | [] => True
  | .handed event :: log => Due event log ∧ AllDue log
  | _ :: log => AllDue log

/-- The numbers of the events so far and of those collected from an action list. -/
structure Numbered (nextEvents : List (Event Term)) (process : Process State Data Term) : Prop where
  distinct : ((nextEvents ++ came process.log).map Event.number).Nodup
  below : ∀ event ∈ nextEvents ++ came process.log, event.number < process.nextNumber

/-- At most one timer is started; it is the one that the loop knows of. -/
def Timed (timer : Option Nat) (process : Process State Data Term) : Prop :=
  match timer with
  | none => process.timeouts = []
  | some timer =>
    ∃ content, process.timeouts = [(timer, content)] ∧ requested process.log = some content

/-- What holds of the loop wherever it is. -/
def Control.Sound : Control State Data Term → Prop
  | .receiving s => Timed s.timer process
  | .suspended s => Timed s.timer process
  | .event _ events _ _ _ current _ =>
    process.timeouts = [] ∧ Due current process.log ∧ ∀ other ∈ events, Old other process.log
  | .terminated _ _ _ _ _ => True

end

def Control.running : Control State Data Term → Bool
  | .terminated _ _ _ _ _ => false
  | _ => true

/-! Entries of the log -/

section Entries

variable {log : Log State Term} {process : Process State Data Term}
  (entry : Entry (Event Term) State (Option (Nat × Term)))

theorem Inserted.cons (inserted : Inserted event log) : Inserted event (entry :: log) := by
  obtain ⟨other, turn, member, new⟩ := inserted
  exact ⟨other, turn, mem_cons_of_mem _ member, new⟩

theorem Old.cons (old : Old event log) : Old event (entry :: log) :=
  fun timeout => (old timeout).imp (·.cons entry) (mem_cons_of_mem _)

theorem Old.due (old : Old event log) : Due event log :=
  fun timeout => (old timeout).imp id Or.inl

theorem Due.cons (due : Due event log) (same : requested (entry :: log) = requested log) :
    Due event (entry :: log) :=
  fun timeout => (due timeout).imp (·.cons entry) (Or.imp (mem_cons_of_mem _) same.trans)

theorem Numbered.weaken (numbered : Numbered nextEvents process) : Numbered [] process := by
  refine ⟨?_, fun event member => numbered.below event (mem_append_right _ member)⟩
  have distinct := numbered.distinct
  rw [map_append] at distinct
  exact (nodup_append.mp distinct).2.1

/-- One more number. -/
theorem Numbered.cons (numbered : Numbered nextEvents process) (type : EventType Term)
    (content : Term) :
    Numbered (⟨process.nextNumber, type, content⟩ :: nextEvents)
      { process with nextNumber := process.nextNumber + 1 } := by
  refine ⟨nodup_cons.mpr ⟨?_, numbered.distinct⟩, ?_⟩
  · intro member
    obtain ⟨event, old, same⟩ := mem_map.mp member
    exact absurd same (Nat.ne_of_lt (numbered.below event old))
  · refine forall_mem_cons.mpr ⟨Nat.lt_succ_self _, fun event member => ?_⟩
    exact Nat.lt_succ_of_lt (numbered.below event member)

/-- A new event that goes into the log. -/
theorem Numbered.logged (numbered : Numbered [] process) (event : Event Term)
    (number : event.number = process.nextNumber) (new : entry.came = [event]) :
    Numbered []
      { process with nextNumber := process.nextNumber + 1, log := entry :: process.log } := by
  obtain ⟨_, type, content⟩ := event
  cases number
  have more := numbered.cons type content
  have same : came (entry :: process.log) =
      ⟨process.nextNumber, type, content⟩ :: came process.log := by
    rw [came, flatMap_cons, new]
    rfl
  refine ⟨?_, ?_⟩
  · simpa only [nil_append, singleton_append, same] using more.distinct
  · simpa only [nil_append, singleton_append, same] using more.below

/-- The numbers of the collected events are in the log with the transition. -/
theorem Numbered.done (numbered : Numbered nextEvents process) (event : Event Term)
    (turn : Turn (Event Term) State (Option (Nat × Term)))
    (inserted : turn.inserted = nextEvents.reverse) :
    Numbered [] { process with log := .done event turn :: process.log } := by
  have same : came (.done event turn :: process.log) = nextEvents.reverse ++ came process.log := by
    rw [came, flatMap_cons, Entry.came, inserted]
    rfl
  have perm : (nextEvents.reverse ++ came process.log).Perm (nextEvents ++ came process.log) :=
    (reverse_perm _).append_right _
  refine ⟨?_, ?_⟩
  · rw [same]
    exact (perm.map _).nodup_iff.mpr numbered.distinct
  · intro other member
    rw [same] at member
    exact numbered.below other (perm.mem_iff.mp member)

end Entries

variable [DecidableEq State]

/-- When the server ends, the event in hand may be handed over already. -/
structure Sound (machine : Machine State Data Term) : Prop where
  replay : ∃ hand queue current, machine.queue = hand ++ queue ∧
    Replay machine.process.log queue machine.control.postponed current ∧
      (machine.control.running → hand = [] ∧ current = none)
  numbered : Numbered [] machine.process
  handed : ∀ event ∈ machine.control.postponed, .handed event ∈ machine.process.log
  due : AllDue machine.process.log
  control : machine.control.Sound machine.process

theorem Sound.queued {machine : Machine State Data Term} (sound : Sound machine)
    (running : machine.control.running) :
    Replay machine.process.log machine.queue machine.control.postponed none := by
  obtain ⟨hand, queue, current, same, replay, free⟩ := sound.replay
  obtain ⟨rfl, rfl⟩ := free running
  exact same ▸ replay

/-- What holds while no timer runs. -/
structure Ready (q p : List (Event Term)) (process : Process State Data Term)
    (current : Option (Event Term)) : Prop where
  replay : Replay process.log (q ++ process.events) p.reverse current
  handed : ∀ event ∈ p, .handed event ∈ process.log
  due : AllDue process.log
  idle : process.timeouts = []
  old : ∀ event ∈ q, Old event process.log

variable {process : Process State Data Term} {q p events : List (Event Term)}
  {current : Option (Event Term)}

theorem terminate_sound (replay : Replay process.log (q ++ process.events) p.reverse current)
    (numbered : Numbered [] process) (handed : ∀ event ∈ p, .handed event ∈ process.log)
    (due : AllDue process.log) (hand : List (Event Term)) (reason : Reason Term) (state : State)
    (data : Data) :
    Sound (terminate reason (hand ++ q) state data p process) where
  replay := ⟨hand, _, current, append_assoc _ _ _, replay, nofun⟩
  numbered := numbered
  handed := fun event member => handed event (mem_reverse.mp member)
  due := due
  control := trivial

theorem Ready.terminate (ready : Ready events p process (some event))
    (numbered : Numbered [] process) (reason : Reason Term) (state : State) (data : Data) :
    Sound (Statem.terminate reason (event :: events) state data p process) :=
  terminate_sound ready.replay numbered ready.handed ready.due [event] reason state data

theorem loopEvents_sound (ready : Ready q p process none) (numbered : Numbered [] process)
    (asked : requested process.log = timeout.map Prod.snd) (s : S State Data Term) (state : State)
    (data : Data) (hibernate : Bool) :
    Sound (loopEvents s q state data p hibernate timeout process) := by
  have handed : ∀ event ∈ p.reverse, .handed event ∈ process.log :=
    fun event member => ready.handed event (mem_reverse.mp member)
  unfold loopEvents
  split
  case h_1 event rest =>
    obtain ⟨first, others⟩ := forall_mem_cons.mp ready.old
    exact ⟨⟨[], _, none, rfl, ready.replay, fun _ => ⟨rfl, rfl⟩⟩, numbered, handed, ready.due,
      ready.idle, first.due, others⟩
  case h_2 =>
    split
    case h_1 content =>
      refine ⟨⟨[], _, none, rfl, Replay.urgent _ ready.replay, fun _ => ⟨rfl, rfl⟩⟩,
        numbered.logged _ _ rfl rfl, ?_, ready.due, ready.idle, ?_, ?_⟩
      · exact fun event member => mem_cons_of_mem _ (handed event member)
      · exact fun _ => .inr (.inr asked)
      · exact nofun
    case h_2 time content =>
      refine ⟨⟨[], _, none, rfl, ready.replay, fun _ => ⟨rfl, rfl⟩⟩,
        ⟨numbered.distinct, numbered.below⟩, handed, ready.due, content, ?_, asked⟩
      have idle := ready.idle
      rw [Process.timeouts, append_eq_nil_iff] at idle
      simp only [loopEventsDone, Process.timeouts, idle.1, idle.2, append_nil]
    case h_3 =>
      exact ⟨⟨[], _, none, rfl, ready.replay, fun _ => ⟨rfl, rfl⟩⟩, numbered, handed,
        ready.due, ready.idle⟩

theorem endOfActions_sound (ready : Ready events p process (some event))
    (handed : .handed event ∈ process.log) (numbered : Numbered nextEvents process) :
    Sound (endOfActions s events state newData p event nextState postpone hibernate timeout
      nextEvents process) := by
  have aside : ∀ other ∈ if postpone then event :: p else p, .handed other ∈ process.log := by
    split
    · exact forall_mem_cons.mpr ⟨handed, ready.handed⟩
    · exact ready.handed
  have reversed : (if postpone then event :: p else p).reverse = if postpone then
    p.reverse ++ [event] else p.reverse := by
    split
    · exact reverse_cons
    · rfl
  have replay := Replay.done ⟨postpone, state, nextState, nextEvents.reverse, timeout⟩ ready.replay
  refine loopEvents_sound ?_ (numbered.done event _ rfl) rfl s nextState newData hibernate
  refine ⟨?_, ?_, ready.due, ready.idle, ?_⟩
  · by_cases same : nextState = state
    · simp only [Turn.queue, Turn.postponed, if_pos same.symm] at replay
      simp only [if_pos same, reversed, append_assoc]
      exact replay
    · have other : ¬ state = nextState := fun back => same back.symm
      simp only [Turn.queue, Turn.postponed, if_neg other] at replay
      simp only [if_neg same, reversed, append_assoc]
      exact replay
  · intro other member
    split at member
    · exact mem_cons_of_mem _ (aside other member)
    · exact absurd member not_mem_nil
  · intro other member
    rcases mem_append.mp member with new | old
    · exact fun _ => .inl ⟨event, _, mem_cons_self, new⟩
    split at old
    · exact (ready.old other old).cons _
    · rcases mem_append.mp old with retried | old
      · exact fun _ => .inr (mem_cons_of_mem _ (aside other (mem_reverse.mp retried)))
      · exact (ready.old other old).cons _

/-- The transition that starts the loop, of an event that was never handed over. -/
theorem endOfActions_enter (ready : Ready [] [] process none)
    (arrivals : ∀ entry ∈ process.log, ∃ other, entry = .arrived other)
    (numbered : Numbered nextEvents process) (s : S State Data Term) (event : Event Term)
    (state : State) (newData : Data) (hibernate : Bool) (timeout : Option (Nat × Term)) :
    Sound (endOfActions s [] state newData
      [] event state false hibernate timeout nextEvents process) := by
  have replay :=
    Replay.entered event ⟨false, state, state, nextEvents.reverse,
    timeout⟩ ready.replay arrivals rfl rfl
  refine loopEvents_sound ?_ (numbered.done event _ rfl) rfl s state newData hibernate
  simp only [if_true, append_nil]
  refine ⟨?_, nofun, ready.due, ready.idle, ?_⟩
  · exact replay
  · exact fun other new _ => .inl ⟨event, _, mem_cons_self, new⟩

/-! Action lists -/

def Action.inserts : Action Term → Option (EventType Term × Term)
  | .nextEvent type content => some (type, content)
  | _ => none

def Action.postpones (postpone : Bool) : Action Term → Bool
  | .setPostpone (some newPostpone) => newPostpone
  | .postpone => true
  | _ => postpone

def Action.requests (terms : Terms Term) (timeout : Option (Nat × Term)) :
    Action Term → Option (Nat × Term)
  | .timeoutInfinity => none
  | .timeout (some t) content => some (t, content)
  | .infinity => none
  | .time t => some (t, terms.ofTime t)
  | _ => timeout

/-- The action list inserts the events, in its order. -/
def Inserts (actions : List (Action Term)) (events : List (Event Term)) : Prop :=
  events.map (fun event => (event.type, event.content)) = actions.filterMap Action.inserts

/-- The rest of an action list is worked off. -/
def Collected (terms : Terms Term) (s : S State Data Term) (events : List (Event Term))
    (state : State) (newData : Data) (p : List (Event Term)) (event : Event Term)
    (nextState : State) (actions : List (Action Term)) (postpone : Bool)
    (timeout : Option (Nat × Term)) (nextEvents : List (Event Term))
    (process : Process State Data Term) (machine : Machine State Data Term) : Prop :=
  ∃ replies number inserted,
    Numbered (inserted.reverse ++
    nextEvents) { process with replies := replies, nextNumber := number } ∧
    ((∃ reason, machine =
        terminate reason (event :: events) state newData p
          { process with replies := replies, nextNumber := number }) ∨
      Inserts actions inserted ∧ ∃ hibernate,
        machine = endOfActions s events state newData p event nextState
        (actions.foldl Action.postpones postpone) hibernate
          (actions.foldl (Action.requests terms) timeout)
        (inserted.reverse ++ nextEvents) { process with replies := replies, nextNumber := number })

theorem loopEventActions_collected (terms : Terms Term) (s : S State Data Term)
    (events p : List (Event Term)) (state nextState : State) (newData : Data) (event : Event Term)
    (actions : List (Action Term)) (postpone hibernate : Bool) (timeout : Option (Nat × Term))
    (numbered : Numbered nextEvents process) :
    Collected terms s events state newData p event nextState actions postpone timeout nextEvents process
      (loopEventActions terms s events state newData p event nextState actions postpone hibernate timeout nextEvents
        process) := by
  induction actions generalizing postpone hibernate timeout nextEvents process with
  | nil => exact ⟨process.replies, process.nextNumber, [], numbered, .inr ⟨rfl, hibernate, rfl⟩⟩
  | cons action actions ih =>
    have bad : Collected terms s events state newData p event nextState
      (action :: actions) postpone timeout nextEvents
        process (terminate (.badActionFromStateFunction action)
          (event :: events) state newData p process) :=
      ⟨process.replies, process.nextNumber, [], numbered, .inl ⟨_, rfl⟩⟩
    unfold loopEventActions
    cases action with
    | reply client reply =>
      dsimp only
      split
      · have same :
            Numbered nextEvents { process with replies := (client, reply) :: process.replies } :=
          ⟨numbered.distinct, numbered.below⟩
        exact ih postpone hibernate timeout same
      · exact bad
    | nextEvent type content =>
      dsimp only
      split
      · obtain ⟨replies, number, inserted, more, found⟩ :=
          ih postpone hibernate timeout (numbered.cons type content)
        have shape : inserted.reverse ++ ⟨process.nextNumber, type, content⟩ :: nextEvents =
            (⟨process.nextNumber, type, content⟩ :: inserted).reverse ++ nextEvents := by
          rw [reverse_cons, append_assoc, singleton_append]
        rw [shape] at more found
        exact ⟨replies, number, _, more,
          found.imp id (And.imp_left (congrArg (cons (type, content))))⟩
      · exact bad
    | setPostpone value =>
      cases value with
      | none => exact bad
      | some value => exact ih value hibernate timeout numbered
    | postpone => exact ih true hibernate timeout numbered
    | setHibernate value =>
      cases value with
      | none => exact bad
      | some value => exact ih postpone value timeout numbered
    | hibernate => exact ih postpone true timeout numbered
    | timeoutInfinity | infinity => exact ih postpone hibernate none numbered
    | timeout time content =>
      cases time with
      | none => exact bad
      | some time => exact ih postpone hibernate (some (time, content)) numbered
    | time time => exact ih postpone hibernate _ numbered
    | other term => exact bad

theorem loopEventActions_sound (ready : Ready events p process (some event))
    (handed : .handed event ∈ process.log) (numbered : Numbered [] process) :
    Sound (loopEventActions terms s events state newData p event nextState actions false false none
      [] process) := by
  obtain ⟨replies, number, inserted, more, found⟩ :=
    loopEventActions_collected terms s events p state nextState
    newData event actions false false none numbered
  have ready : Ready events p { process with replies := replies, nextNumber := number }
    (some event) :=
    ⟨ready.replay, ready.handed, ready.due, ready.idle, ready.old⟩
  rcases found with ⟨reason, same⟩ | ⟨-, hibernate, same⟩
  · rw [same]
    exact ready.terminate more.weaken reason state newData
  · rw [same]
    exact endOfActions_sound ready handed more

theorem doReplyThenTerminate_sound (ready : Ready events p process (some event))
    (numbered : Numbered [] process) :
    Sound (doReplyThenTerminate terms reason (event :: events) state data p replies process) := by
  induction replies generalizing process with
  | nil => exact ready.terminate numbered reason state data
  | cons reply replies ih =>
    unfold doReplyThenTerminate
    split
    case h_1 client answer =>
      split
      · exact ih ⟨ready.replay, ready.handed, ready.due, ready.idle, ready.old⟩ ⟨numbered.distinct,
          numbered.below⟩
      · exact ready.terminate numbered _ state data
    case h_2 => exact ready.terminate numbered _ state data

/-- The event in hand is handed over. -/
theorem loopEvent_sound (sound : Sound ⟨.event s' events state data p event hibernate, process⟩) :
    Sound (loopEvent terms s events state data p event process outcome) := by
  have replay := sound.queued rfl
  obtain ⟨-, numbered, handed, due, idle, now, old⟩ := sound
  have numbered : Numbered [] { process with log := .handed event :: process.log } :=
    ⟨numbered.distinct, numbered.below⟩
  have ready : Ready events p { process with log := .handed event :: process.log }
    (some event) := by
    refine ⟨Replay.handed replay, ?_, ⟨now, due⟩, idle,
      fun other member => (old other member).cons _⟩
    exact fun other member => mem_cons_of_mem _ (handed other (mem_reverse.mpr member))
  cases outcome with
  | undef | exception => exact ready.terminate numbered _ state data
  | result result =>
    cases result with
    | stop | stopReason | other => exact ready.terminate numbered _ state data
    | stopData reason newData => exact ready.terminate numbered _ state newData
    | stopAndReply reason replies newData => exact doReplyThenTerminate_sound ready numbered
    | nextState | keepState | keepStateAndData =>
      exact loopEventActions_sound ready mem_cons_self numbered

theorem loopEventCallbackMode_sound
    (sound : Sound ⟨.event s events state data p event hibernate, process⟩) :
    Sound (loopEventCallbackMode s events state data p event process outcome) := by
  have ended : ∀ reason, Sound (terminate reason (event :: events) state data p process) := by
    intro reason
    have replay : Replay process.log (event :: events ++ process.events) p.reverse none :=
      sound.queued rfl
    have handed : ∀ other ∈ p, .handed other ∈ process.log :=
      fun other member => sound.handed other (mem_reverse.mpr member)
    exact terminate_sound replay sound.numbered handed sound.due [] reason state data
  cases outcome with
  | mode callbackMode =>
    exact ⟨sound.replay, sound.numbered, sound.handed, sound.due, sound.control⟩
  | other | undef | exception => exact ended _

section Messages

omit [DecidableEq State]

theorem filterMap_eraseP {f : α → Option β} (other : ∀ a, here a = true → f a = none) (l : List α) :
    (l.eraseP here).filterMap f = l.filterMap f := by
  induction l with
  | nil => rfl
  | cons a l ih =>
    by_cases first : here a
    · rw [eraseP_cons_of_pos first, filterMap_cons_none (other a first)]
    · rw [eraseP_cons_of_neg first, filterMap_cons, filterMap_cons, ih]

theorem Msg.event_of_isTimeout (msg : Msg State Data Term) (timeout : msg.isTimeout timer = true) :
    msg.event = none := by
  cases msg <;> first | rfl | cases timeout

theorem Msg.event_of_isSystem (msg : Msg State Data Term) (system : msg.isSystem = true) :
    msg.event = none := by
  cases msg <;> first | rfl | cases system

theorem Msg.expired_of_isSystem (msg : Msg State Data Term) (system : msg.isSystem = true) :
    msg.expired = none := by
  cases msg <;> first | rfl | cases system

theorem eraseP_expired (mailbox : List (Msg State Data Term))
    (one : mailbox.filterMap Msg.expired = [(timer, content)]) :
    (mailbox.eraseP (Msg.isTimeout timer)).filterMap Msg.expired = [] := by
  induction mailbox with
  | nil => rfl
  | cons msg mailbox ih =>
    cases msg with
    | timeout other content' =>
      obtain ⟨same, rest⟩ := cons.inj one
      cases same
      rw [eraseP_cons_of_pos (by simp [Msg.isTimeout]), rest]
    | system | exit | call | cast | info => exact ih one

/-- Where the only timeout is. -/
theorem timeouts_single (one : process.timeouts = [(timer, content)]) :
    process.timers = [(timer, content)] ∧ process.mailbox.filterMap Msg.expired = [] ∨
      process.timers = [] ∧ process.mailbox.filterMap Msg.expired = [(timer, content)] := by
  rcases append_eq_cons_iff.mp one with ⟨none, sent⟩ | ⟨rest, runs, none⟩
  · exact .inr ⟨none, sent⟩
  · obtain ⟨rfl, sent⟩ := append_eq_nil_iff.mp none.symm
    exact .inl ⟨runs, sent⟩

theorem Timed.frame {process process' : Process State Data Term} (timed : Timed timer process)
    (timeouts : process'.timeouts = process.timeouts)
    (asked : requested process'.log = requested process.log) : Timed timer process' := by
  cases timer with
  | none => exact timeouts.trans timed
  | some timer =>
    obtain ⟨content, one, request⟩ := timed
    exact ⟨content, timeouts.trans one, asked.trans request⟩

theorem cancelTimer_spec (timed : Timed timer process) :
    (cancelTimer timer process).timeouts = [] ∧ (cancelTimer timer process).events =
      process.events ∧
      (cancelTimer timer process).log = process.log ∧ (cancelTimer timer process).nextNumber =
        process.nextNumber := by
  cases timer with
  | none => exact ⟨timed, rfl, rfl, rfl⟩
  | some timer =>
    obtain ⟨content, one, -⟩ := timed
    rcases timeouts_single one with ⟨runs, sent⟩ | ⟨none, sent⟩
    · simp [cancelTimer, runs, Process.timeouts, Process.events, sent]
    · have timeout : ∀ msg : Msg State Data Term, msg.isTimeout timer = true → msg.event = .none :=
        Msg.event_of_isTimeout
      have events := filterMap_eraseP timeout process.mailbox
      simp [cancelTimer, none, Process.timeouts, Process.events, eraseP_expired _ sent, events]

end Messages

theorem Sound.move (sound : Sound ⟨control, process⟩)
    (log : process'.log = process.log) (number : process'.nextNumber = process.nextNumber)
    (events : process'.events = process.events) (place : control.Sound process') :
    Sound ⟨control, process'⟩ := by
  obtain ⟨⟨hand, queue, current, same, replay, free⟩, ⟨distinct, below⟩, handed, due, -⟩ := sound
  simp only [← log, ← number] at replay distinct below handed due
  refine ⟨⟨hand, queue, current, ?_, replay, free⟩, ⟨distinct, below⟩, handed, due, place⟩
  rw [Machine.queue, events]
  exact same

/-- Only the log, the numbers, the events and the timeouts count. -/
theorem Sound.frame (sound : Sound ⟨control, process⟩)
    (log : process'.log = process.log) (number : process'.nextNumber = process.nextNumber)
    (events : process'.events = process.events) (timeouts : process'.timeouts = process.timeouts) :
    Sound ⟨control, process'⟩ := by
  refine sound.move log number events ?_
  have place := sound.control
  cases control with
  | terminated => exact place
  | receiving | suspended => exact Timed.frame place timeouts (congrArg requested log)
  | event s events state data p now hibernate =>
    rw [Control.Sound, ← log, ← timeouts] at place
    exact place

section

variable {s : S State Data Term} (sound : Sound ⟨.receiving s, process⟩)

include sound

theorem Sound.waiting (postponed : s'.postponed = s.postponed) (timer : s'.timer = s.timer) :
    Sound ⟨.receiving s', process⟩ ∧ Sound ⟨.suspended s', process⟩ := by
  obtain ⟨⟨hand, queue, current, same, replay, free⟩, numbered, handed, due, place⟩ := sound
  rw [Control.postponed, ← postponed] at replay handed
  rw [Control.Sound, ← timer] at place
  exact ⟨⟨⟨hand, queue, current, same, replay, free⟩, numbered, handed, due, place⟩,
    ⟨⟨hand, queue, current, same, replay, free⟩, numbered, handed, due, place⟩⟩

theorem Sound.terminate (reason : Reason Term) :
    Sound (Statem.terminate reason [] s.state s.data s.postponed process) := by
  have replay : Replay process.log ([] ++ process.events) s.postponed.reverse none :=
    sound.queued rfl
  have handed : ∀ other ∈ s.postponed, .handed other ∈ process.log :=
    fun other member => sound.handed other (mem_reverse.mpr member)
  exact terminate_sound replay sound.numbered handed sound.due [] reason s.state s.data

theorem handleSystemMsg_sound : Sound (handleSystemMsg suspended s process request) := by
  have either : ∀ s' : S State Data Term, s'.postponed = s.postponed → s'.timer = s.timer →
      Sound ⟨if suspended then .suspended s' else .receiving s', process⟩ := by
    intro s' postponed timer
    split
    · exact (sound.waiting postponed timer).2
    · exact (sound.waiting postponed timer).1
  cases request with
  | suspend => exact (sound.waiting rfl rfl).2
  | resume => exact sound
  | terminate reason => exact sound.terminate _
  | replaceState stateFun =>
    refine either _ ?_ ?_
    · split <;> rfl
    · split <;> rfl
  | changeCode codeChange =>
    have suspend : ∀ s' : S State Data Term, s'.postponed = s.postponed → s'.timer = s.timer →
        Sound ⟨.suspended s', process⟩ :=
          fun s' postponed timer => (sound.waiting postponed timer).2
    simp only [handleSystemMsg]
    split
    · split
      · exact suspend _ rfl rfl
      · exact suspend _ rfl rfl
    · exact sound
  | other => exact either s rfl rfl

/-- A message that is an event is received. -/
theorem loopReceiveResult_sound (type : event.type ≠ .timeout)
    (first : process.events = event :: process'.events)
    (timeouts : process'.timeouts = process.timeouts) (log : process'.log = process.log)
    (number : process'.nextNumber = process.nextNumber) :
    Sound (loopReceiveResult s event (cancelTimer s.timer process')) := by
  have timed : Timed s.timer process' := Timed.frame sound.control timeouts (congrArg requested log)
  obtain ⟨idle, events, log', number'⟩ := cancelTimer_spec timed
  have replay : Replay process.log (event :: process'.events) s.postponed.reverse none := by
    have replay := sound.queued rfl
    rwa [Machine.queue, Control.pending, nil_append, first] at replay
  have numbered := sound.numbered
  refine ⟨⟨[], _, none, rfl, ?_, fun _ => ⟨rfl, rfl⟩⟩, ⟨?_, ?_⟩, ?_, ?_, idle,
    fun timeout => absurd timeout type, ?_⟩
  all_goals simp only [loopReceiveResult, log', log, events, number', number]
  · exact replay
  · exact numbered.distinct
  · exact numbered.below
  · exact sound.handed
  · exact sound.due
  · exact nofun

/-- The timer that the loop knows of has expired. -/
theorem loopReceive_timeout (mail : process.mailbox = .timeout timer content :: mailbox) :
    Sound (loopReceive terms s { process with mailbox := mailbox } (.timeout timer content)) := by
  have timeouts : process.timeouts =
      process.timers ++ (timer, content) :: mailbox.filterMap Msg.expired := by
    rw [Process.timeouts, mail]
    rfl
  have timed := sound.control
  have replay : Replay process.log ([] ++ process.events) s.postponed.reverse none :=
    sound.queued rfl
  have events : process.events = mailbox.filterMap Msg.event := by
    rw [Process.events, mail]
    rfl
  cases known : s.timer with
  | none =>
    have none : process.timeouts = [] := by
      simpa only [Control.Sound, known, Timed] using timed
    rw [timeouts] at none
    exact absurd (append_eq_nil_iff.mp none).2 (cons_ne_nil _ _)
  | some other =>
    obtain ⟨content', one, asked⟩ : ∃ content, process.timeouts = [(other, content)] ∧
      requested process.log = some content := by
      simpa only [Control.Sound, known, Timed] using timed
    have single : process.timers = [] ∧ (timer, content) :: mailbox.filterMap Msg.expired =
      [(other, content')] := by
      rcases timeouts_single one with ⟨-, sent⟩ | ⟨none, sent⟩
      · rw [mail] at sent
        cases sent
      · rw [mail] at sent
        exact ⟨none, sent⟩
    obtain ⟨none, sent⟩ := single
    obtain ⟨same, rest⟩ := cons.inj sent
    cases same
    simp only [loopReceive, if_pos known]
    refine ⟨⟨[], _, .none, rfl, ?_, fun _ => ⟨rfl, rfl⟩⟩, ?_, ?_, sound.due, ?_,
      fun _ => .inr (.inr asked), ?_⟩
    · rw [events] at replay
      exact Replay.urgent _ replay
    · have numbered : Numbered [] { process with mailbox := mailbox } :=
        ⟨sound.numbered.distinct, sound.numbered.below⟩
      exact numbered.logged (.urgent _) _ rfl rfl
    · exact fun event member => mem_cons_of_mem _ (sound.handed event member)
    · simp only [loopReceiveResult, Process.urgent, Process.timeouts, none, rest, append_nil]
    · exact fun _ member => absurd member not_mem_nil

theorem loopReceive_sound (mail : process.mailbox = msg :: mailbox) :
    Sound (loopReceive terms s { process with mailbox := mailbox } msg) := by
  have rest : msg.event = none → msg.expired = none →
    Sound ⟨.receiving s, { process with mailbox := mailbox }⟩ := by
    intro event expired
    refine sound.frame rfl rfl ?_ ?_
    · simp only [Process.events, mail, filterMap_cons_none event]
    · simp only [Process.timeouts, mail, filterMap_cons_none expired]
  have received : ∀ event : Event Term, event.type ≠ .timeout → msg.event = some event →
    msg.expired = none →
      Sound (loopReceiveResult s event
        (cancelTimer s.timer { process with mailbox := mailbox })) := by
    intro event type here expired
    refine loopReceiveResult_sound sound type ?_ ?_ rfl rfl
    · simp only [Process.events, mail, filterMap_cons_some here]
    · simp only [Process.timeouts, mail, filterMap_cons_none expired]
  cases msg with
  | system request => exact handleSystemMsg_sound (rest rfl rfl)
  | exit reason => exact (rest rfl rfl).terminate _
  | timeout timer content => exact loopReceive_timeout sound mail
  | call | cast | info => exact received _ nofun rfl rfl

end

theorem suspendLoop_sound (sound : Sound ⟨.suspended s, process⟩) :
    Sound (suspendLoop s { process with mailbox := process.mailbox.eraseP Msg.isSystem } msg) := by
  have events := filterMap_eraseP Msg.event_of_isSystem process.mailbox
  have expired := filterMap_eraseP Msg.expired_of_isSystem process.mailbox
  have receiving : Sound ⟨.receiving s,
    { process with mailbox := process.mailbox.eraseP Msg.isSystem }⟩ := by
    have receiving : Sound ⟨.receiving s, process⟩ :=
      ⟨sound.replay, sound.numbered, sound.handed, sound.due, sound.control⟩
    refine receiving.frame rfl rfl ?_ ?_
    · simp only [Process.events, events]
    · simp only [Process.timeouts, expired]
  cases msg with
  | system request => exact handleSystemMsg_sound receiving
  | exit reason => exact receiving.terminate _
  | timeout | call | cast | info => exact (receiving.waiting rfl rfl).2

/-- A message arrives. -/
theorem arrive_sound (sound : Sound ⟨control, process⟩) : Sound ⟨control, arrive process msg⟩ := by
  have plain : ∀ msg : Msg State Data Term, msg.event = none → msg.expired = none →
      Sound ⟨control, { process with mailbox := process.mailbox ++ [msg] }⟩ := by
    intro msg event expired
    refine sound.frame rfl rfl ?_ ?_
    · simp only [Process.events, filterMap_append, filterMap_cons_none event,
        filterMap_nil, append_nil]
    · simp only [Process.timeouts, filterMap_append, filterMap_cons_none expired,
        filterMap_nil, append_nil]
  have numbered : ∀ (msg : Msg State Data Term) (event : Event Term),
    event.number = process.nextNumber →
      msg.event = some event → msg.expired = none → Sound ⟨control, process.arrive msg event⟩ := by
    intro msg event number here expired
    obtain ⟨⟨hand, queue, current, same, replay, free⟩, numbers, handed, due, place⟩ := sound
    have events : (process.arrive msg event).events = process.events ++ [event] := by
      simp only [Process.events, Process.arrive, filterMap_append, filterMap_cons_some here,
        filterMap_nil]
    have timeouts : (process.arrive msg event).timeouts = process.timeouts := by
      simp only [Process.timeouts, Process.arrive, filterMap_append, filterMap_cons_none expired,
        filterMap_nil, append_nil]
    refine ⟨⟨hand, _, current, ?_, Replay.arrived event replay, free⟩, ?_, ?_, due, ?_⟩
    · rw [Machine.queue, events, ← append_assoc]
      exact (congrArg (· ++ [event]) same).trans (append_assoc _ _ _)
    · have numbers : Numbered [] { process with mailbox := process.mailbox ++ [msg] } :=
        ⟨numbers.distinct, numbers.below⟩
      exact numbers.logged (.arrived event) event number rfl
    · exact fun other member => mem_cons_of_mem _ (handed other member)
    · cases control with
      | terminated => exact place
      | event s events state data p now hibernate =>
        obtain ⟨idle, first, old⟩ := place
        exact ⟨timeouts.trans idle, first.cons _ rfl, fun other member => (old other member).cons _⟩
      | receiving | suspended => exact Timed.frame place timeouts rfl
  cases msg with
  | system | exit => exact plain _ rfl rfl
  | call | cast | info => exact numbered _ _ rfl rfl rfl

/-- A timer expires. -/
theorem expire_sound (sound : Sound ⟨control, process⟩)
    (running : process.timers.lookup timer = some content) :
    Sound ⟨control, { process with
        timers := process.timers.eraseP fun running => running.1 == timer
        mailbox := process.mailbox ++ [.timeout timer content] }⟩ := by
  refine sound.move rfl rfl ?_ ?_
  · simp only [Process.events, filterMap_append]
    exact append_nil _
  have place := sound.control
  have timed : ∀ known, Timed known process → Timed known { process with
        timers := process.timers.eraseP fun running => running.1 == timer
        mailbox := process.mailbox ++ [.timeout timer content] } := by
    intro known timed
    refine timed.frame ?_ rfl
    cases known with
    | none =>
      rw [(append_eq_nil_iff.mp timed).1] at running
      cases running
    | some other =>
      obtain ⟨content', one, -⟩ := timed
      rcases timeouts_single one with ⟨runs, sent⟩ | ⟨none, -⟩
      · rw [runs, lookup_cons] at running
        by_cases same : timer == other
        · cases beq_iff_eq.mp same
          rw [beq_self_eq_true] at running
          cases running
          simp [Process.timeouts, runs, sent, Msg.expired]
        · rw [Bool.not_eq_true] at same
          rw [same] at running
          cases running
      · rw [none] at running
        cases running
  cases control with
  | terminated => exact place
  | receiving | suspended => exact timed _ place
  | event s events state data p now hibernate =>
    rw [(append_eq_nil_iff.mp place.1).1] at running
    cases running

theorem step_sound (sound : Sound machine) {input : Input State Data Term}
    {next : Machine State Data Term} (taken : step terms machine input = some next) :
    Sound next := by
  obtain ⟨control, process⟩ := machine
  cases input with
  | arrive msg =>
    cases taken
    exact arrive_sound sound
  | expire timer =>
    simp only [step] at taken
    split at taken
    case h_1 content running =>
      cases taken
      exact expire_sound sound running
    case h_2 => cases taken
  | receive =>
    cases control with
    | receiving s =>
      simp only [step] at taken
      split at taken
      case h_1 msg mailbox mail =>
        cases taken
        exact loopReceive_sound sound mail
      case h_2 => cases taken
    | suspended s =>
      simp only [step] at taken
      split at taken
      case h_1 msg _ =>
        cases taken
        exact suspendLoop_sound sound
      case h_2 => cases taken
    | event | terminated => cases taken
  | callbackMode outcome =>
    cases control with
    | event s events state data p event hibernate =>
      simp only [step] at taken
      split at taken
      · cases taken
        exact loopEventCallbackMode_sound sound
      · cases taken
    | receiving | suspended | terminated => cases taken
  | callback outcome =>
    cases control with
    | event s events state data p event hibernate =>
      simp only [step] at taken
      split at taken
      · cases taken
      · cases taken
        exact loopEvent_sound sound
    | receiving | suspended | terminated => cases taken

omit [DecidableEq State] in
theorem arrive_log {process : Process State Data Term} {msg : Incoming State Data Term}
    (arrivals : ∀ entry ∈ process.log, ∃ other, entry = .arrived other) :
    ∀ entry ∈ (arrive process msg).log, ∃ other, entry = .arrived other := by
  cases msg with
  | system | exit => exact arrivals
  | call | cast | info => exact forall_mem_cons.mpr ⟨⟨_, rfl⟩, arrivals⟩

/-- Before the loop there are only messages. -/
theorem arrivals_sound (msgs : List (Incoming State Data Term))
    (sound : Sound ⟨.receiving s, process⟩)
    (arrivals : ∀ entry ∈ process.log, ∃ other, entry = .arrived other) :
    Sound ⟨.receiving s, msgs.foldl arrive process⟩ ∧
      ∀ entry ∈ (msgs.foldl arrive process).log, ∃ other, entry = .arrived other := by
  induction msgs generalizing process with
  | nil => exact ⟨sound, arrivals⟩
  | cons msg msgs ih => exact ih (arrive_sound sound) (arrive_log arrivals)

theorem arrived_sound (state : State) (data : Data) (msgs : List (Incoming State Data Term)) :
    Sound ⟨.receiving ⟨none, state, data, [], false, none⟩,
      msgs.foldl arrive ⟨[], [], 0, 0, [], []⟩⟩ ∧
      ∀ entry ∈ (msgs.foldl arrive ⟨[], [], 0, 0, [], []⟩).log, ∃ other,
        entry = .arrived other := by
  have empty : Sound (⟨.receiving ⟨none, state, data, [], false, none⟩,
    ⟨[], [], 0, 0, [], []⟩⟩ : Machine State Data Term) :=
    ⟨⟨[], [], none, rfl, .start, fun _ => ⟨rfl, rfl⟩⟩, ⟨nodup_nil, nofun⟩, nofun, trivial, rfl⟩
  exact arrivals_sound msgs empty nofun

theorem Sound.numbered_succ (sound : Sound ⟨control, process⟩) :
    Numbered [] { process with nextNumber := process.nextNumber + 1 } :=
  ⟨sound.numbered.distinct,
    fun event member => Nat.lt_succ_of_lt (sound.numbered.below event member)⟩

theorem enter_sound {msgs : List (Incoming State Data Term)} :
    Sound (enter terms state data actions (msgs.foldl arrive ⟨[], [], 0, 0, [], []⟩)) := by
  obtain ⟨sound, arrivals⟩ := arrived_sound state data msgs
  generalize msgs.foldl arrive ⟨[], [], 0, 0, [], []⟩ = process at sound arrivals ⊢
  have numbered := sound.numbered_succ
  obtain ⟨replies, number, inserted, more, found⟩ :=
    loopEventActions_collected terms ⟨none, state, data, [], false, none⟩
    [] [] state state data ⟨process.nextNumber, .internal, terms.initialState⟩
      (actions ++ [.setPostpone (some false)])
    false false none numbered
  have replay : Replay process.log ([] ++ process.events) [] none := sound.queued rfl
  have ready : Ready [] [] { process with replies := replies, nextNumber := number } none :=
    ⟨replay, nofun, sound.due, sound.control, nofun⟩
  rcases found with ⟨reason, same⟩ | ⟨-, hibernate, same⟩
  · rw [enter, same]
    exact terminate_sound replay more.weaken (fun _ member => absurd member not_mem_nil) sound.due
      [_] reason state data
  · rw [foldl_append] at same
    rw [enter, same]
    exact endOfActions_enter ready arrivals more _ _ state data hibernate _

theorem Reachable.sound {machine : Machine State Data Term} (reachable : Reachable terms machine) :
    Sound machine := by
  induction reachable with
  | enter state data actions msgs => exact enter_sound
  | step input _ taken ih => exact step_sound ih taken

omit [DecidableEq State] in
theorem AllDue.due {later before : Log State Term}
    (all : AllDue (later ++ .handed event :: before)) : Due event before := by
  induction later with
  | nil => exact all.1
  | cons entry later ih =>
    cases entry with
    | handed other => exact ih all.2
    | arrived | urgent | done => exact ih all

/-- No turn is logged. -/
def Quiet (before after : Log State Term) : Prop :=
  ∃ new, after = new ++ before ∧ ∀ event turn, .done event turn ∉ new

omit [DecidableEq State] in
theorem Quiet.same {log : Log State Term} : Quiet log log := ⟨[], rfl, nofun⟩

/-- Numbers for terms. -/
def numbers : Terms Nat := ⟨fun _ => true, fun _ => true, id, fun timer _ => timer, 0⟩

end Otp.Stdlib.Statem
