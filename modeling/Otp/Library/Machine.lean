import Mathlib.Data.List.Basic

/-! Machines that take one operation after another and answer each. A concrete
machine may get stuck; an abstract one answers always. -/

namespace Otp.Library

variable {State Abstract Op Reply : Type}

/-- Run a list of operations, collecting the replies; `none` when a step gets stuck. -/
def run (step : State → Op → Option (State × Reply)) : State → List Op → Option (State × List Reply)
  | state, [] => some (state, [])
  | state, op :: ops => do
    let (state, reply) ← step state op
    let (state, replies) ← run step state ops
    some (state, reply :: replies)

/-- Run a machine that always answers. -/
def runTotal (step : Abstract → Op → Abstract × Reply) : Abstract → List Op → Abstract × List Reply
  | state, [] => (state, [])
  | state, op :: ops =>
    let (state, reply) := step state op
    let (state, replies) := runTotal step state ops
    (state, reply :: replies)

/-- If every related step answers as the abstract machine does and stays
related, so does every run. -/
theorem run_simulates {spec : Abstract → Op → Abstract × Reply} (Related : State → Abstract → Prop)
    (forward : ∀ state abstract op, Related state abstract →
      ∃ next, step state op = some (next, (spec abstract op).2) ∧ Related next (spec abstract op).1)
    (ops : List Op) (related : Related state abstract) :
    ∃ final, run step state ops = some (final, (runTotal spec abstract ops).2) ∧
      Related final (runTotal spec abstract ops).1 := by
  induction ops generalizing state abstract with
  | nil => exact ⟨state, rfl, related⟩
  | cons op ops ih =>
    obtain ⟨next, stepped, still⟩ := forward state abstract op related
    obtain ⟨final, rest, kept⟩ := ih still
    exact ⟨final, by simp [run, stepped, rest, runTotal], kept⟩

/-- If two machines that always answer give the same answers in related states and
stay related, so do their runs. -/
theorem runTotal_simulates {spec : Abstract → Op → Abstract × Reply}
    (Related : State → Abstract → Prop) (forward : ∀ state abstract op, Related state abstract →
      Related (step state op).1 (spec abstract op).1 ∧ (step state op).2 = (spec abstract op).2)
    (ops : List Op) (related : Related state abstract) :
    Related (runTotal step state ops).1 (runTotal spec abstract ops).1 ∧
      (runTotal step state ops).2 = (runTotal spec abstract ops).2 := by
  induction ops generalizing state abstract with
  | nil => exact ⟨related, rfl⟩
  | cons op ops ih =>
    obtain ⟨still, answer⟩ := forward state abstract op related
    obtain ⟨final, answers⟩ := ih still
    exact ⟨final, by simp [runTotal, answer, answers]⟩

theorem runTotal_append (spec : Abstract → Op → Abstract × Reply) (state : Abstract)
    (first second : List Op) : (runTotal spec state (first ++ second)).1 =
      (runTotal spec (runTotal spec state first).1 second).1 := by
  induction first generalizing state with
  | nil => rfl
  | cons op ops ih => exact ih _

end Otp.Library
