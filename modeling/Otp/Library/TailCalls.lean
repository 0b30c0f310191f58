import Mathlib.Data.List.Infix

/-! Programs whose functions end in a call of another one or in an outcome, and what happens to a
run when its input grows. -/

namespace Otp.Library.TailCalls

variable {Call Outcome View Item : Type}

structure Program (Call Outcome : Type) where
  step : Call → Call ⊕ Outcome
  size : Call → Nat
  smaller : step call = .inl next → size next < size call

namespace Program

variable (program : Program Call Outcome)

def run (call : Call) : Outcome :=
  match _called : program.step call with
  | .inl next => run next
  | .inr outcome => outcome
termination_by program.size call
decreasing_by exact program.smaller _called

/-- The calls a run makes. -/
inductive Reaches : Call → Call → Prop where
  | here : Reaches call call
  | later : program.step call = .inl next → Reaches next last → Reaches call last

variable {program}

theorem run_call (called : program.step call = .inl next) :
    program.run call = program.run next := by
  rw [run.eq_def program call]
  split
  case h_1 same =>
    rw [called] at same
    cases same
    rfl
  case h_2 ended =>
    rw [called] at ended
    cases ended

theorem run_outcome (ended : program.step call = .inr outcome) : program.run call = outcome := by
  rw [run.eq_def program call]
  split
  case h_1 called =>
    rw [ended] at called
    cases called
  case h_2 same =>
    rw [ended] at same
    cases same
    rfl

theorem Reaches.invariant {Holds : Call → Prop}
    (kept : ∀ call next, Holds call → program.step call = .inl next → Holds next)
    (holds : Holds start) (reached : program.Reaches start call) : Holds call := by
  induction reached with
  | here => exact holds
  | later called _ ih => exact ih (kept _ _ holds called)

theorem Reaches.of_call (called : program.step call = .inl next)
    (reached : program.Reaches call last) : last = call ∨ program.Reaches next last := by
  cases reached with
  | here => exact .inl rfl
  | later other rest =>
    rw [called] at other
    cases other
    exact .inr rest

theorem Reaches.of_outcome (ended : program.step call = .inr outcome)
    (reached : program.Reaches call last) : last = call := by
  cases reached with
  | here => rfl
  | later other _ =>
    rw [ended] at other
    cases other

/-- A run ends in the outcome of one of its calls. -/
theorem exists_reaches_run (start : Call) :
    ∃ call, program.Reaches start call ∧ program.step call = .inr (program.run start) := by
  cases stepped : program.step start with
  | inl next =>
    obtain ⟨call, reached, ended⟩ := exists_reaches_run next
    exact ⟨call, .later stepped reached, by rw [run_call stepped, ended]⟩
  | inr outcome => exact ⟨start, .here, by rw [run_outcome stepped, stepped]⟩
termination_by program.size start
decreasing_by exact program.smaller stepped

/-- `grow` adds input to a call and `again` to an outcome. If that makes no difference to each call
of a run, it makes none to the run. -/
theorem view_grow (view : Outcome → View) (grow : Call → Call) (again : Outcome → Outcome)
    (start : Call) (called : ∀ call next, program.Reaches start call →
      program.step call = .inl next →
      view (program.run (grow call)) = view (program.run (grow next)))
    (ended : ∀ call outcome, program.Reaches start call → program.step call = .inr outcome →
      view (program.run (grow call)) = view (again outcome)) :
    view (program.run (grow start)) = view (again (program.run start)) := by
  cases stepped : program.step start with
  | inl next =>
    rw [run_call stepped, called start next .here stepped]
    exact view_grow view grow again next
      (fun call after reached => called call after (.later stepped reached))
      fun call outcome reached => ended call outcome (.later stepped reached)
  | inr outcome => rw [run_outcome stepped, ended start outcome .here stepped]
termination_by program.size start
decreasing_by exact program.smaller stepped

end Program

/-- More input does not make a pattern fit that has failed inside the input. -/
theorem prefix_append_iff (apart : ¬ data <+: pattern) (more : List Item) :
    pattern <+: data ++ more ↔ pattern <+: data := by
  constructor
  · intro fits
    rcases List.prefix_or_prefix_of_prefix fits (List.prefix_append data more) with inside | beyond
    · exact inside
    · exact absurd beyond apart
  · intro fits
    exact fits.trans (List.prefix_append data more)

end Otp.Library.TailCalls
