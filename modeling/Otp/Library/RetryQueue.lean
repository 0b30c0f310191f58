import Mathlib.Data.List.Count
import Mathlib.Data.List.Nodup

/-! A queue of events that are handed over one at a time. Whoever takes an event may put others
first in the queue, and may put the event aside until the state changes. The queue is replayed
from a log, newest entry first. -/

namespace Otp.Library.RetryQueue

open List

/-- What was done with an event. -/
structure Turn (Event State Request : Type) where
  postpone : Bool
  state : State
  nextState : State
  inserted : List Event
  request : Request

inductive Entry (Event State Request : Type) where
  | arrived (event : Event)
  | urgent (event : Event)
  | handed (event : Event)
  | done (event : Event) (turn : Turn Event State Request)

variable {Event State Request : Type}

/-- The events that are new with an entry. -/
def Entry.came : Entry Event State Request → List Event
  | .arrived event => [event]
  | .urgent event => [event]
  | .handed _ => []
  | .done _ turn => turn.inserted

def came (log : List (Entry Event State Request)) : List Event := log.flatMap Entry.came

section

variable {entry : Entry Event State Request}

theorem mem_came_cons : event ∈ came (entry :: log) ↔ event ∈ entry.came ∨ event ∈ came log := by
  rw [came, flatMap_cons, mem_append, came]

/-- An event in the queue, or aside, was put aside after it was handed over last. -/
def PutAside (event : Event) (log : List (Entry Event State Request)) : Prop :=
  ∀ later before, log = later ++ .handed event :: before → ∃ turn, .done event turn ∈ later ∧
  turn.postpone = true

/-- The state changed after the event was handed over last. -/
def Changed (event : Event) (log : List (Entry Event State Request)) : Prop :=
  ∀ later before, log = later ++ .handed event :: before →
    ∃ other turn, .done other turn ∈ later ∧ turn.state ≠ turn.nextState

theorem later_cons (same : entry :: log = later ++ .handed event :: before)
    (other : entry ≠ .handed event) :
    ∃ rest, later = entry :: rest ∧ log = rest ++ .handed event :: before := by
  rcases cons_eq_append_iff.mp same with ⟨-, first⟩ | ⟨rest, shape, tail⟩
  · exact absurd (cons.inj first).1.symm other
  · exact ⟨rest, shape, tail⟩

theorem PutAside.cons (aside : PutAside event log) (other : entry ≠ .handed event) :
    PutAside event (entry :: log) := by
  intro later before same
  obtain ⟨rest, rfl, tail⟩ := later_cons same other
  obtain ⟨turn, member, postponed⟩ := aside rest before tail
  exact ⟨turn, mem_cons_of_mem _ member, postponed⟩

theorem retry_cons (waits : PutAside event log ∧ Changed event log)
    (other : entry ≠ .handed event) :
    PutAside event (entry :: log) ∧ Changed event (entry :: log) := by
  refine ⟨waits.1.cons other, fun later before same => ?_⟩
  obtain ⟨rest, rfl, tail⟩ := later_cons same other
  obtain ⟨by', turn, member, change⟩ := waits.2 rest before tail
  exact ⟨by', turn, mem_cons_of_mem _ member, change⟩

end

section Replay

variable [DecidableEq State]

/-- The events put aside, the oldest one first. -/
def Turn.aside (turn : Turn Event State Request) (event : Event) (postponed : List Event) :
    List Event :=
  if turn.postpone then postponed ++ [event] else postponed

/-- Inserted events come first, then after a state change those put aside, then the others. -/
def Turn.queue (turn : Turn Event State Request) (event : Event) (queue postponed : List Event) :
    List Event :=
  turn.inserted ++ ((if turn.state = turn.nextState then [] else turn.aside event postponed) ++
    queue)

def Turn.postponed (turn : Turn Event State Request) (event : Event) (postponed : List Event) :
    List Event :=
  if turn.state = turn.nextState then turn.aside event postponed else []

/-- The queue, the events put aside and the event in hand after the entries of a log. -/
inductive Replay : List (Entry Event State Request) → List Event → List Event →
    Option Event → Prop where
  | start : Replay [] [] [] none
  | arrived (event : Event) : Replay log queue postponed current →
      Replay (.arrived event :: log) (queue ++ [event]) postponed current
  | urgent (event : Event) : Replay log queue postponed none →
      Replay (.urgent event :: log) (event :: queue) postponed none
  | handed : Replay log (event :: queue) postponed none →
    Replay (.handed event :: log) queue postponed (some event)
  | entered (event : Event) (turn : Turn Event State Request) : Replay log queue [] none →
      (∀ entry ∈ log, ∃ event, entry = .arrived event) → turn.postpone = false →
      turn.state = turn.nextState →
      Replay (.done event turn :: log) (turn.inserted ++ queue) [] none
  | done (turn : Turn Event State Request) : Replay log queue postponed (some event) →
      Replay (.done event turn :: log) (turn.queue event queue postponed)
        (turn.postponed event postponed) none

variable {log : List (Entry Event State Request)} {queue postponed : List Event}
  {current : Option Event}

/-- Nothing is lost. -/
theorem Replay.kept (replay : Replay log queue postponed current) (new : event ∈ came log) :
    event ∈ queue ∨ .handed event ∈ log := by
  induction replay with
  | start => exact absurd new not_mem_nil
  | arrived other _ ih =>
    rcases mem_came_cons.mp new with here | before
    · exact .inl (mem_append_right _ here)
    · exact (ih before).imp (mem_append_left _) (mem_cons_of_mem _)
  | urgent other _ ih =>
    rcases mem_came_cons.mp new with here | before
    · exact .inl (mem_cons.mpr (.inl (mem_singleton.mp here)))
    · exact (ih before).imp (mem_cons_of_mem _) (mem_cons_of_mem _)
  | handed _ ih =>
    rcases ih new with queued | before
    · rcases mem_cons.mp queued with rfl | rest
      · exact .inr mem_cons_self
      · exact .inl rest
    · exact .inr (mem_cons_of_mem _ before)
  | entered other turn _ _ _ _ ih =>
    rcases mem_came_cons.mp new with here | before
    · exact .inl (mem_append_left _ here)
    · exact (ih before).imp (mem_append_right _) (mem_cons_of_mem _)
  | done turn _ ih =>
    rcases mem_came_cons.mp new with here | before
    · exact .inl (mem_append_left _ here)
    · exact (ih before).imp (fun queued => mem_append_right _ (mem_append_right _ queued))
        (mem_cons_of_mem _)

/-- Nothing is doubled. -/
theorem Replay.count_le [DecidableEq Event] (replay : Replay log queue postponed current)
    (event : Event) : (queue ++ postponed ++ current.toList).count event ≤
      (came log).count event := by
  induction replay with
  | start => exact Nat.le_refl _
  | arrived other _ ih =>
    simp only [came, Entry.came, flatMap_cons, count_append] at ih ⊢
    omega
  | urgent other _ ih =>
    simp only [came, Entry.came, flatMap_cons, count_append, count_cons] at ih ⊢
    omega
  | handed _ ih =>
    simp only [came, flatMap_cons, count_append, count_cons, Option.toList_none,
      Option.toList_some] at ih ⊢
    omega
  | entered other turn _ _ _ _ ih =>
    simp only [came, Entry.came, flatMap_cons, count_append] at ih ⊢
    omega
  | done turn _ ih =>
    simp only [came, Entry.came, flatMap_cons, count_append, Turn.queue, Turn.postponed,
      Option.toList_some, Option.toList_none] at ih ⊢
    unfold Turn.aside
    split <;> split <;> simp only [count_append, count_nil] <;> omega

theorem Replay.tail (replay : Replay (entry :: log) queue postponed current) :
    ∃ queue postponed current, Replay log queue postponed current := by
  cases replay with
  | arrived _ before | urgent _ before | handed before | entered _ _ before | done _ before =>
    exact ⟨_, _, _, before⟩

theorem Replay.earlier (later : List (Entry Event State Request))
    (replay : Replay (later ++ log) queue postponed current) :
    ∃ queue postponed current, Replay log queue postponed current := by
  induction later generalizing queue postponed current with
  | nil => exact ⟨_, _, _, replay⟩
  | cons entry later ih =>
    obtain ⟨_, _, _, before⟩ := replay.tail
    exact ih before

section Retry

variable [DecidableEq Event]

theorem Replay.came_of_mem (replay : Replay log queue postponed current)
    (member : event ∈ queue ++ postponed ++ current.toList) : event ∈ came log :=
  count_pos_iff.mp (Nat.lt_of_lt_of_le (count_pos_iff.mpr member) (replay.count_le event))

theorem Replay.came_of_handed (replay : Replay log queue postponed current)
    (before : .handed event ∈ log) : event ∈ came log := by
  obtain ⟨later, earlier, rfl⟩ := append_of_mem before
  obtain ⟨_, _, _, here⟩ := replay.earlier later
  cases here with
  | handed rest =>
    rw [came, flatMap_append]
    exact mem_append_right _ (mem_came_cons.mpr (.inr (rest.came_of_mem (by simp))))

theorem Replay.never (replay : Replay log queue postponed current) (fresh : event ∉ came log) :
    PutAside event log ∧ Changed event log := by
  have never : Entry.handed event ∉ log := fun before => fresh (replay.came_of_handed before)
  constructor
  · rintro later before rfl
    exact absurd (mem_append_right _ mem_cons_self) never
  · rintro later before rfl
    exact absurd (mem_append_right _ mem_cons_self) never

theorem Replay.retry (replay : Replay log queue postponed current) (distinct : (came log).Nodup) :
    (∀ event ∈ queue, PutAside event log ∧ Changed event log) ∧ ∀ event ∈ postponed,
      PutAside event log := by
  induction replay with
  | start => simp
  | arrived event before ih =>
    obtain ⟨fresh, distinct⟩ := nodup_cons.mp (show (event :: came _).Nodup from distinct)
    obtain ⟨queued, aside⟩ := ih distinct
    refine ⟨fun other member => ?_, fun other member => (aside other member).cons nofun⟩
    rcases mem_append.mp member with old | new
    · exact retry_cons (queued other old) nofun
    · cases mem_singleton.mp new
      exact retry_cons (before.never fresh) nofun
  | urgent event before ih =>
    obtain ⟨fresh, distinct⟩ := nodup_cons.mp (show (event :: came _).Nodup from distinct)
    obtain ⟨queued, aside⟩ := ih distinct
    refine ⟨fun other member => ?_, fun other member => (aside other member).cons nofun⟩
    rcases mem_cons.mp member with rfl | old
    · exact retry_cons (before.never fresh) nofun
    · exact retry_cons (queued other old) nofun
  | @handed log event queue postponed before ih =>
    obtain ⟨queued, aside⟩ := ih distinct
    -- the event in hand is nowhere else
    have once := Nat.le_trans (before.count_le event) (nodup_iff_count_le_one.mp distinct event)
    have apart : ∀ other, other ∈ queue ++ postponed →
        (.handed event : Entry Event State Request) ≠ .handed other := by
      rintro other member same
      cases same
      have more := count_pos_iff.mpr member
      simp only [count_append, count_cons_self] at once more
      omega
    refine ⟨fun other member => ?_, fun other member => ?_⟩
    · exact retry_cons (queued other (mem_cons_of_mem _ member))
        (apart other (mem_append_left _ member))
    · exact (aside other member).cons (apart other (mem_append_right _ member))
  | entered event turn before _ _ _ ih =>
    obtain ⟨-, distinct, fresh⟩ :=
      nodup_append.mp (show (turn.inserted ++ came _).Nodup from distinct)
    obtain ⟨queued, aside⟩ := ih distinct
    refine ⟨fun other member => ?_, fun other member => absurd member not_mem_nil⟩
    rcases mem_append.mp member with new | old
    · exact retry_cons (before.never fun seen => fresh other new other seen rfl) nofun
    · exact retry_cons (queued other old) nofun
  | @done log queue postponed event turn before ih =>
    obtain ⟨-, distinct, fresh⟩ :=
      nodup_append.mp (show (turn.inserted ++ came _).Nodup from distinct)
    obtain ⟨queued, aside⟩ := ih distinct
    have kept : ∀ other ∈ turn.aside event postponed, PutAside other (.done event turn :: log) := by
      intro other member
      unfold Turn.aside at member
      split at member
      case isTrue postpone =>
        rcases mem_append.mp member with old | here
        · exact (aside other old).cons nofun
        · cases mem_singleton.mp here
          intro later earlier same
          obtain ⟨rest, rfl, -⟩ := later_cons same nofun
          exact ⟨turn, mem_cons_self, postpone⟩
      case isFalse => exact (aside other member).cons nofun
    refine ⟨fun other member => ?_, fun other member => ?_⟩
    · rcases mem_append.mp member with new | old
      · exact retry_cons (before.never fun seen => fresh other new other seen rfl) nofun
      rcases mem_append.mp old with retried | old
      · split at retried
        case isTrue => exact absurd retried not_mem_nil
        case isFalse change =>
          refine ⟨kept other retried, fun later earlier same => ?_⟩
          obtain ⟨rest, rfl, -⟩ := later_cons same nofun
          exact ⟨event, turn, mem_cons_self, change⟩
      · exact retry_cons (queued other old) nofun
    · unfold Turn.postponed at member
      split at member
      case isTrue => exact kept other member
      case isFalse => exact absurd member not_mem_nil

end Retry

end Replay

end Otp.Library.RetryQueue
