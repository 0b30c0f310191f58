import Mathlib.Data.List.Infix
import Mathlib.Data.Int.Order.Lemmas
import Mathlib.Logic.Relation

/-! Packets cut out of a stream that arrives in pieces. A framing function looks at what has arrived
and answers the length of the first packet, zero if it needs more, or a negative number if there is
no packet. -/

namespace Otp.Library.Framing

open List

variable {State Item : Type}

/-- A reader waits for more, or has met an error. -/
inductive Status (State Item : Type) where
  | waiting (state : State) (buffer : List Item)
  | stopped

/-- `advance` is the state after a packet. -/
def drain (next : State → List Item → Int) (advance : State → List Item → State) (state : State)
    (buffer : List Item) : List (List Item) × Status State Item :=
  if next state buffer < 0 then ([], .stopped)
  else if 0 < next state buffer ∧ next state buffer ≤ buffer.length then
    let length := (next state buffer).toNat
    let rest := drain next advance (advance state (buffer.take length)) (buffer.drop length)
    (buffer.take length :: rest.1, rest.2)
  else ([], .waiting state buffer)
termination_by buffer.length
decreasing_by
  rw [length_drop]
  omega

/-- The pieces one after the other. -/
def feed (next : State → List Item → Int) (advance : State → List Item → State) :
    Status State Item → List (List Item) → List (List Item) × Status State Item
  | .stopped, _ => ([], .stopped)
  | .waiting state buffer, [] => ([], .waiting state buffer)
  | .waiting state buffer, piece :: pieces =>
    let first := drain next advance state (buffer ++ piece)
    let rest := feed next advance first.2 pieces
    (first.1 ++ rest.1, rest.2)

/-- An answer stays the same when more arrives. -/
def Stable (next : State → List Item → Int) (state : State) (stream : List Item) : Prop :=
  ∀ n m, n ≤ m → m ≤ stream.length → next state (stream.take n) ≠ 0 →
    next state (stream.take m) = next state (stream.take n)

variable {next : State → List Item → Int} {advance : State → List Item → State}

theorem Stable.append (stable : Stable next state (buffer ++ more))
    (answered : next state buffer ≠ 0) : next state (buffer ++ more) = next state buffer := by
  have same := stable buffer.length (buffer ++ more).length (by simp) (Nat.le_refl _)
  rw [take_left, take_length] at same
  exact same answered

theorem stable_of_append (kept : ∀ buffer more, buffer ++ more <+: stream → next state buffer ≠ 0 →
    next state (buffer ++ more) = next state buffer) : Stable next state stream := by
  intro n m before within answered
  have shape : stream.take m = stream.take n ++ (stream.take m).drop n := by
    conv_lhs => rw [← take_append_drop n (stream.take m), take_take, Nat.min_eq_left before]
  rw [shape]
  exact kept _ _ (shape ▸ take_prefix m stream) answered

/-- From one start of a packet to the next. -/
def Packet (next : State → List Item → Int) (advance : State → List Item → State)
    (s s' : State × List Item) : Prop :=
  0 < next s.1 s.2 ∧ next s.1 s.2 ≤ s.2.length ∧
    s' = (advance s.1 (s.2.take (next s.1 s.2).toNat), s.2.drop (next s.1 s.2).toNat)

/-- `s` is the start of a packet in the stream, with the state there. -/
abbrev Starts (next : State → List Item → Int) (advance : State → List Item → State) :
    State × List Item → State × List Item → Prop :=
  Relation.ReflTransGen (Packet next advance)

theorem Starts.length_le (starts : Starts next advance s s') : s'.2.length ≤ s.2.length := by
  induction starts with
  | refl => exact Nat.le_refl _
  | tail _ packet ih =>
    rw [packet.2.2, length_drop]
    omega

/-- Where a packet of the buffer ends, with more behind it. -/
theorem Packet.append (stable : Stable next state (buffer ++ more))
    (fits : 0 < next state buffer ∧ next state buffer ≤ buffer.length) :
    Packet next advance (state, buffer ++ more)
      (advance state (buffer.take (next state buffer).toNat),
      buffer.drop (next state buffer).toNat ++ more) := by
  have same := stable.append (by omega)
  have within : (next state buffer).toNat ≤ buffer.length := by omega
  refine ⟨by rw [same]; exact fits.1, by rw [same, length_append]; omega, ?_⟩
  rw [same, take_append_of_le_length within, drop_append_of_le_length within]

/-- What is left of a drained buffer has no packet, and is the start of one with more behind it. -/
theorem drain_drained (state : State) (buffer : List Item)
    (result : drain next advance state buffer = (packets, .waiting last left)) :
    drain next advance last left = ([], .waiting last left) ∧
      ∀ more, (∀ s, Starts next advance (state, buffer ++ more) s → Stable next s.1 s.2) →
        Starts next advance (state, buffer ++ more) (last, left ++ more) := by
  rw [drain] at result
  split at result
  case isTrue => cases result
  case isFalse positive =>
    split at result
    case isTrue fits =>
      obtain ⟨-, status⟩ := Prod.mk.inj result
      obtain ⟨still, starts⟩ :=
        drain_drained (advance state (buffer.take (next state buffer).toNat))
        (buffer.drop (next state buffer).toNat) (Prod.ext rfl status)
      refine ⟨still, fun more stable => ?_⟩
      have packet : Packet next advance _ _ := .append (stable _ .refl) fits
      exact (starts more fun s run => stable s (run.head packet)).head packet
    case isFalse short =>
      cases result
      refine ⟨?_, fun _ _ => .refl⟩
      rw [drain, if_neg positive, if_neg short]
termination_by buffer.length
decreasing_by
  rw [length_drop]
  omega

/-- The rest of a drained buffer, with more behind it. -/
def resume (next : State → List Item → Int) (advance : State → List Item → State) (more : List Item)
    (done : List (List Item) × Status State Item) : List (List Item) × Status State Item :=
  match done.2 with
  | .stopped => done
  | .waiting state buffer =>
    let rest := drain next advance state (buffer ++ more)
    (done.1 ++ rest.1, rest.2)

theorem resume_cons (packet : List Item) (done : List (List Item) × Status State Item) :
    resume next advance more (packet :: done.1, done.2) =
      (packet :: (resume next advance more done).1, (resume next advance more done).2) := by
  obtain ⟨packets, status⟩ := done
  cases status <;> rfl

theorem drain_append (state : State) (buffer more : List Item)
    (stable : ∀ s, Starts next advance (state, buffer ++ more) s → Stable next s.1 s.2) :
    drain next advance state (buffer ++ more) =
      resume next advance more (drain next advance state buffer) := by
  have here : Stable next state (buffer ++ more) := stable _ .refl
  have same := here.append
  by_cases failed : next state buffer < 0
  · rw [drain, same (by omega), if_pos failed, drain, if_pos failed]
    rfl
  by_cases fits : 0 < next state buffer ∧ next state buffer ≤ buffer.length
  · have packet : Packet next advance _ _ := .append here fits
    have inner := drain_append (advance state (buffer.take (next state buffer).toNat))
      (buffer.drop (next state buffer).toNat) more fun s run => stable s (run.head packet)
    have within : (next state buffer).toNat ≤ buffer.length := by omega
    rw [drain, same (by omega), if_neg failed, if_pos ⟨fits.1, by rw [length_append]; omega⟩,
      drain.eq_def next advance state buffer, if_neg failed, if_pos fits, resume_cons, ← inner]
    dsimp only
    rw [take_append_of_le_length within, drop_append_of_le_length within]
  · rw [drain.eq_def next advance state buffer, if_neg failed, if_neg fits]
    rfl
termination_by buffer.length
decreasing_by
  rw [length_drop]
  omega

theorem feed_drained (pieces : List (List Item)) (state : State) (buffer : List Item)
    (drained : drain next advance state buffer = ([], .waiting state buffer))
    (stable : ∀ s, Starts next advance (state, buffer ++ pieces.flatten) s → Stable next s.1 s.2) :
    feed next advance (.waiting state buffer) pieces =
      drain next advance state (buffer ++ pieces.flatten) := by
  induction pieces generalizing state buffer with
  | nil => rw [feed, flatten_nil, append_nil, drained]
  | cons piece pieces ih =>
    rw [flatten_cons, ← append_assoc] at stable ⊢
    rw [drain_append state (buffer ++ piece) pieces.flatten stable, feed]
    cases first : drain next advance state (buffer ++ piece) with
    | mk packets status =>
      cases status with
      | stopped => simp [feed, resume]
      | waiting last left =>
        obtain ⟨still, starts⟩ := drain_drained _ _ first
        simp only [resume]
        rw [ih last left still fun s run => stable s ((starts _ stable).trans run)]

/-- A packet of some bytes and an error for others. -/
theorem feed_differs (failed : next state (stream.take n) < 0)
    (cut : 0 < next state (stream.take m))
    (fits : next state (stream.take m) ≤ (stream.take m).length) :
    ¬ ∀ pieces : List (List Item), pieces.flatten = stream →
      feed next advance (.waiting state []) pieces = drain next advance state stream := by
  intro same
  have first := same [stream.take n, stream.drop n] (by simp)
  have second := same [stream.take m, stream.drop m] (by simp)
  rw [← second, feed, feed, nil_append, nil_append, drain, if_pos failed, drain, if_neg (by omega),
    if_pos ⟨cut, fits⟩] at first
  cases first

end Otp.Library.Framing
