import Otp.Stdlib.Supervisor

/-! What an attempt to restart does to a list of children: whom it shuts down and in which
order, whom it starts, and what the list is like if a start fails midway. -/

namespace Otp.Supervisor

open List

variable {W : World} {env : Env W}
variable {after before : List (Child W)} {attempt : Attempt W} {id : Term W}

def Child.stopped (child : Child W) : Child W :=
  { child with pid := .undefined }

/-- Whether the child is kept when it is terminated. -/
def Child.isKept (child : Child W) : Bool :=
  child.restartType ≠ .temporary

/-- The shutdown that terminating the child takes. -/
def Child.shutdown? (child : Child W) : Option (Action W) :=
  match child.pid with
  | .pid p => some (.shutdown p child.shutdown)
  | _ => none

@[simp]
theorem name_stopped {child : Child W} : child.stopped.name = child.name := rfl

@[simp]
theorem isKept_stopped {child : Child W} : child.stopped.isKept = child.isKept := rfl

/-- The ids of the children that are not temporary. -/
def keptNames (children : List (Child W)) : List (Term W) :=
  (children.filter Child.isKept).map Child.name

@[simp]
theorem keptNames_nil : keptNames ([] : List (Child W)) = [] := rfl

theorem keptNames_cons {children : List (Child W)} :
    keptNames (child :: children) = if child.isKept then
      child.name :: keptNames children else keptNames children := by
  rw [keptNames, filter_cons]
  split <;> rfl

@[simp]
theorem keptNames_append {first second : List (Child W)} :
    keptNames (first ++ second) = keptNames first ++ keptNames second := by
  simp [keptNames]

/-- The pid of a child does not matter. -/
@[simp]
theorem keptNames_cons_pid {children : List (Child W)} :
    keptNames ({ child with pid } :: children) = keptNames (child :: children) := by
  rw [keptNames_cons, keptNames_cons]
  rfl

@[simp]
theorem keptNames_cons_stopped {children : List (Child W)} :
    keptNames (child.stopped :: children) = keptNames (child :: children) :=
  keptNames_cons_pid

/-- The state once the children are terminated in the order of the list. -/
def State.terminated (s : State W) (children : List (Child W)) : State W :=
  { s with
    running := s.running.filter fun r => ∀ child ∈ children, child.pid ≠ .pid r.1
    log := s.log ++ children.filterMap Child.shutdown? }

theorem doTerminate_eq {s : State W} :
    doTerminate child s = (child.stopped, s.terminated [child]) := by
  rw [doTerminate]
  split
  · rename_i p running
    have shutdown : child.shutdown? = some (.shutdown p child.shutdown) := by
      simp [Child.shutdown?, running]
    simp [State.shutdown, State.terminated, Child.stopped, shutdown, running, eq_comm]
  · rename_i gone
    have shutdown : child.shutdown? = none := by
      rw [Child.shutdown?]
      split
      · rename_i p running
        exact absurd running (gone p)
      · rfl
    have kept : s.running.filter (fun r => ∀ c ∈ [child], c.pid ≠ .pid r.1) = s.running := by
      refine filter_eq_self.mpr fun r _ => ?_
      simpa using gone r.1
    rw [State.terminated, kept]
    simp [Child.stopped, shutdown]

theorem terminated_terminated {s : State W} :
    (s.terminated first).terminated second = s.terminated (first ++ second) := by
  simp only [State.terminated, filter_filter, filterMap_append, append_assoc]
  congr 1
  refine filter_congr fun r _ => ?_
  rw [Bool.eq_iff_iff]
  simp only [Bool.and_eq_true, decide_eq_true_eq, forall_mem_append, and_comm]

theorem terminated_nil {s : State W} : s.terminated [] = s := by
  simp [State.terminated]

/-- `terminate_children/3` shuts down the running children in order and returns those that
are kept in reverse order. -/
theorem terminateChildren_eq {s : State W} : terminateChildren children res s =
      (((children.filter Child.isKept).map Child.stopped).reverse ++ res,
        s.terminated children) := by
  induction children generalizing res s with
  | nil => simp [terminateChildren, terminated_nil]
  | cons child children ih =>
    rw [terminateChildren, doTerminate_eq]
    dsimp only
    split
    · rename_i temporary
      rw [ih, terminated_terminated, singleton_append,
        filter_cons_of_neg (by simp [Child.isKept, temporary])]
    · rename_i kept
      rw [ih, terminated_terminated, filter_cons_of_pos (by simp [Child.isKept, kept])]
      simp

/-- All these children were started one after the other: the children as they are then. -/
inductive StartsAll (env : Env W) : State W → List (Child W) → List (Child W) → State W → Prop
  | nil (s : State W) : StartsAll env s [] [] s
  | born (next : StartsAll env (s.born child) children started s') :
      StartsAll env s (child :: children) ({ child with pid := .pid s.starts } :: started) s'
  | ignored (kept : child.isKept) (next : StartsAll env (s.asked child) children started s') :
      StartsAll env s (child :: children) (child.stopped :: started) s'
  | dropped (temporary : child.isKept = false)
      (next : StartsAll env (s.asked child) children started s') :
      StartsAll env s (child :: children) started s'

/-- `start_children/3` starts the children in order, up to one that fails. -/
theorem startChildren_spec (env : Env W) (children nChildren : List (Child W)) (s : State W) :
    ∃ done started s', StartsAll env s done started s' ∧
      (children = done ∧ startChildren env children nChildren s =
        (none, started.reverse ++ nChildren, s') ∨
        ∃ failed rest, children = done ++ failed :: rest ∧ startChildren env children nChildren s =
          (some failed.name, rest.reverse ++ failed :: (started.reverse ++ nChildren),
            s'.asked failed)) := by
  induction children generalizing nChildren s with
  | nil => exact ⟨[], [], s, .nil s, .inl ⟨rfl, rfl⟩⟩
  | cons child children ih =>
    rw [startChildren]
    have result := doStartChild_result env child s
    generalize doStartChild env child s = r at result
    have alive : ∃ done started s', StartsAll env s done started s' ∧
        (child :: children = done ∧ startChildren env children
            ({ child with pid := .pid s.starts } :: nChildren) (s.born child) =
              (none, started.reverse ++ nChildren, s') ∨
          ∃ failed rest, child :: children = done ++ failed :: rest ∧ startChildren env children
            ({ child with pid := .pid s.starts } :: nChildren) (s.born child) =
              (some failed.name, rest.reverse ++ failed :: (started.reverse ++ nChildren),
                s'.asked failed)) := by
      obtain ⟨done, started, s', all, ⟨rfl, ended⟩ | ⟨failed, rest, rfl, ended⟩⟩ :=
        ih ({ child with pid := .pid s.starts } :: nChildren) (s.born child)
      · exact ⟨_, _, s', .born all, .inl ⟨rfl, by simpa using ended⟩⟩
      · exact ⟨_, _, s', .born all, .inr ⟨failed, rest, rfl, by simpa using ended⟩⟩
    cases result with
    | ok | okExtra => exact alive
    | ignore ignored =>
      dsimp only
      by_cases temporary : child.restartType = .temporary
      · rw [if_pos ⟨rfl, temporary⟩]
        have gone : child.isKept = false := by simp [Child.isKept, temporary]
        obtain ⟨done, started, s', all, ⟨rfl, ended⟩ | ⟨failed, rest, rfl, ended⟩⟩ :=
          ih nChildren (s.asked child)
        · exact ⟨_, _, s', .dropped gone all, .inl ⟨rfl, ended⟩⟩
        · exact ⟨_, _, s', .dropped gone all, .inr ⟨failed, rest, rfl, ended⟩⟩
      · rw [if_neg (fun h => temporary h.2)]
        have kept : child.isKept = true := by simp [Child.isKept, temporary]
        obtain ⟨done, started, s', all, ⟨rfl, ended⟩ | ⟨failed, rest, rfl, ended⟩⟩ :=
          ih (child.stopped :: nChildren) (s.asked child)
        · exact ⟨_, _, s', .ignored kept all, .inl ⟨rfl, by simpa [Child.stopped] using ended⟩⟩
        · exact ⟨_, _, s', .ignored kept all,
            .inr ⟨failed, rest, rfl, by simpa [Child.stopped] using ended⟩⟩
    | error what => exact ⟨[], [], s, .nil s, .inr ⟨child, children, rfl, rfl⟩⟩

/-- Neither a pid nor restarting: an id that no pid field holds while it matters. -/
def Term.IsPlain (id : Term W) : Prop :=
  (∀ p, id ≠ .pid p) ∧ ∀ o, id ≠ .restarting o

/-- The key stands for this child and for none before it in the list. -/
def Absent (key : Term W) (children : List (Child W)) : Prop :=
  ∀ ch ∈ children, ch.name ≠ key ∧ ch.pid ≠ key

section

variable {after : List (Child W)}

theorem splitChild_eq (absent : Absent key after) (found : child.pid = key) :
    splitChild key (after ++ child :: before) res = (res.reverse ++ after ++ [child.stopped],
      before) := by
  induction after generalizing res with
  | nil => simp [splitChild, found, Child.stopped]
  | cons ch after ih =>
    obtain ⟨first, rest⟩ := forall_mem_cons.mp absent
    rw [cons_append, splitChild, if_neg (by simp [first]), ih rest]
    simp

theorem delChild_eq (absent : Absent key after) (found : child.name = key ∨ child.pid = key) :
    delChild key (after ++ child :: before) =
      after ++ (if child.isKept then child.stopped :: before else before) := by
  induction after with
  | nil =>
    rw [nil_append, delChild, if_pos found, Child.isKept]
    by_cases temporary : child.restartType = .temporary <;> simp [Child.stopped]
  | cons ch after ih =>
    obtain ⟨first, rest⟩ := forall_mem_cons.mp absent
    rw [cons_append, delChild, if_neg (by simp [first]), ih rest, cons_append]

theorem doReplaceChild_eq (absent : ∀ ch ∈ after, ch.name ≠ child.name)
    (same : old.name = child.name) :
    doReplaceChild child (after ++ old :: before) = some (after ++ child :: before) := by
  induction after with
  | nil => simp [doReplaceChild, same]
  | cons ch after ih =>
    obtain ⟨first, rest⟩ := forall_mem_cons.mp absent
    rw [cons_append, doReplaceChild, if_neg first, ih rest]
    rfl

theorem replaceChild_eq (child old : Child W)
    (children : s.children = after ++ old :: before) (absent : ∀ ch ∈ after, ch.name ≠ child.name)
    (same : old.name = child.name) :
    replaceChild child s = some { s with children := after ++ child :: before } := by
  rw [replaceChild, children, doReplaceChild_eq absent same]
  rfl

theorem findName_eq (absent : ∀ ch ∈ after, ch.name ≠ child.name) (before : List (Child W)) :
    findName child.name (after ++ child :: before) = some child := by
  rw [findName, find?_append, find?_eq_none.mpr (by simpa using absent)]
  simp

end

/-- The children that an attempt starts, in start order. -/
def todo (group : List (Child W)) : List (Child W) :=
  ((group.filter Child.isKept).map Child.stopped).reverse

/-- An attempt to restart `child`: the children of `group`, which are in termination order,
are terminated and started again, and those `before` are left alone. -/
inductive Attempted (env : Env W) (child : Child W) (group before : List (Child W)) (s : State W) :
    Attempt W → Prop
  | ok (all : StartsAll env (s.terminated group) (todo group) started s') :
      Attempted env child group before s (.ok { s' with children := started.reverse ++ before })
  | itself (split : todo group = done ++ failed :: rest) (same : failed.name = child.name)
      (all : StartsAll env (s.terminated group) done started s') :
      Attempted env child group before s (.tryAgain { s'.asked failed with
        children := rest.reverse ++ { child with pid := restarting child.pid } ::
          (started.reverse ++ before) })
  | other (split : todo group = done ++ failed :: rest) (different : failed.name ≠ child.name)
      (all : StartsAll env (s.terminated group) done started s') :
      Attempted env child group before s (.tryAgainAt { s'.asked failed with
        children := rest.reverse ++ { failed with pid := .restarting none } ::
          (started.reverse ++ before) } { failed with pid := .restarting none })

theorem restarted_spec (names : ((todo group).map Child.name).Nodup) :
    ∃ attempt, restarted child before (startChildren env (todo group) [] (s.terminated group)) =
      some attempt ∧
      Attempted env child group before s attempt := by
  obtain ⟨done, started, s', all, ⟨same, ended⟩ | ⟨failed, rest, split, ended⟩⟩ :=
    startChildren_spec env (todo group) [] (s.terminated group)
  · rw [ended, append_nil]
    exact ⟨_, rfl, .ok (same ▸ all)⟩
  · rw [ended, append_nil, restarted]
    have absent : ∀ ch ∈ rest.reverse, ch.name ≠ failed.name := by
      rw [split, map_append, nodup_append] at names
      intro ch member same
      have := (nodup_cons.mp names.2.1).1
      exact this (same ▸ mem_map_of_mem (mem_reverse.mp member))
    split
    · rename_i same
      rw [replaceChild_eq { child with pid := restarting child.pid } failed
        (append_assoc rest.reverse (failed :: started.reverse) before)
        (fun ch member => same ▸ absent ch member) same]
      exact ⟨_, rfl, .itself split same all⟩
    · rename_i different
      rw [findName_eq absent]
      dsimp only
      rw [replaceChild_eq { failed with pid := .restarting none } failed
        (append_assoc rest.reverse (failed :: started.reverse) before) absent rfl]
      exact ⟨_, rfl, .other split different all⟩

/-- `rest_for_one`: the child that the pid field finds and those after it. -/
theorem restartRestForOne_spec (children : s.children = after ++ first :: before)
    (absent : Absent child.pid after) (found : first.pid = child.pid)
    (names : ((todo (after ++ [first.stopped])).map Child.name).Nodup) :
    ∃ attempt, restartRestForOne env child s = some attempt ∧
      Attempted env child (after ++ [first.stopped]) before s attempt := by
  rw [restartRestForOne, children, splitChild_eq absent found]
  dsimp only
  rw [terminateChildren_eq, append_nil, reverse_nil]
  exact restarted_spec names

/-- `one_for_all`: all children. -/
theorem restartOneForAll_spec (children : s.children = after ++ first :: before)
    (absent : Absent child.pid after) (found : first.pid = child.pid) (kept : first.isKept)
    (names : ((todo (after ++ first.stopped :: before)).map Child.name).Nodup) :
    ∃ attempt, restartOneForAll env child s = some attempt ∧
      Attempted env child (after ++ first.stopped :: before) [] s attempt := by
  rw [restartOneForAll, children, delChild_eq absent (.inr found), if_pos kept]
  rw [terminateChildren_eq, append_nil]
  exact restarted_spec names

def Attempt.state : Attempt W → State W
  | .ok s => s
  | .tryAgain s => s
  | .tryAgainAt s _ => s

@[simp]
theorem children_leave : (attempt.leave id).children = attempt.state.children := by
  cases attempt <;> rfl

@[simp]
theorem running_leave : (attempt.leave id).running = attempt.state.running := by
  cases attempt <;> rfl

@[simp]
theorem strategy_leave : (attempt.leave id).strategy = attempt.state.strategy := by
  cases attempt <;> rfl

/-- A child of the list as it was, but for the pid, which is that of a start in between. -/
def Renewed (low high : Nat) (children : List (Child W)) (ch : Child W) : Prop :=
  ∃ old ∈ children, ch = { old with pid := ch.pid } ∧
    (ch.pid = .undefined ∨ ∃ p, ch.pid = .pid p ∧ low ≤ p ∧ p < high)

theorem Renewed.later (renewed : Renewed (low + 1) high children ch) :
    Renewed low high (child :: children) (ch : Child W) := by
  obtain ⟨old, found, same, idle | ⟨p, pid, above, below⟩⟩ := renewed
  · exact ⟨old, mem_cons_of_mem _ found, same, .inl idle⟩
  · exact ⟨old, mem_cons_of_mem _ found, same, .inr ⟨p, pid, Nat.le_of_succ_le above, below⟩⟩

section

variable {env : Env W} {s s' : State W} {children started : List (Child W)}
  (all : StartsAll env s children started s')

include all

theorem StartsAll.starts : s.starts ≤ s'.starts := by
  induction all with
  | nil => exact Nat.le_refl _
  | born _ ih | ignored _ _ ih | dropped _ _ ih => exact Nat.le_of_succ_le ih

theorem StartsAll.casts : s'.casts = s.casts := by
  induction all with
  | nil => rfl
  | born _ ih | ignored _ _ ih | dropped _ _ ih => exact ih

theorem StartsAll.log : s'.log = s.log ++ children.map fun ch => .start ch.name := by
  induction all with
  | nil => simp
  | born _ ih => simp [ih, State.born, State.asked]
  | ignored _ _ ih | dropped _ _ ih => simp [ih, State.asked]

theorem StartsAll.mem (member : ch ∈ started) : Renewed s.starts s'.starts children ch := by
  induction all with
  | nil => cases member
  | born next ih =>
    rcases mem_cons.mp member with rfl | rest
    · exact ⟨_, mem_cons_self, rfl, .inr ⟨_, rfl, Nat.le_refl _, next.starts⟩⟩
    · exact (ih rest).later
  | ignored kept next ih =>
    rcases mem_cons.mp member with rfl | rest
    · exact ⟨_, mem_cons_self, rfl, .inl rfl⟩
    · exact (ih rest).later
  | dropped temporary next ih => exact (ih member).later

theorem StartsAll.calm : ∀ ch ∈ started.reverse, ∀ o, ch.pid ≠ .restarting o := by
  intro ch member o waits
  obtain ⟨-, -, -, idle | ⟨p, running, -⟩⟩ := all.mem (mem_reverse.mp member)
  · cases idle.symm.trans waits
  · cases running.symm.trans waits

/-- Every start that creates a process creates another one. -/
theorem StartsAll.once (first : a ∈ started)
    (second : b ∈ started) (one : a.pid = .pid p) (other : b.pid = .pid p) : a = b := by
  induction all with
  | nil => cases first
  | @born children started s' s child next ih =>
    have old {ch : Child W} (member : ch ∈ started) : ch.pid ≠ .pid s.starts := by
      intro same
      obtain ⟨-, -, -, idle | ⟨q, pid, low, -⟩⟩ := next.mem member
      · rw [same] at idle
        cases idle
      · cases pid.symm.trans same
        exact Nat.lt_irrefl _ low
    rcases mem_cons.mp first with rfl | rest
    · cases one
      rcases mem_cons.mp second with rfl | rest
      · rfl
      · exact absurd other (old rest)
    · rcases mem_cons.mp second with rfl | rest'
      · cases other
        exact absurd one (old rest)
      · exact ih rest rest'
  | ignored kept next ih =>
    rcases mem_cons.mp first with rfl | rest
    · cases one
    · rcases mem_cons.mp second with rfl | rest'
      · cases other
      · exact ih rest rest'
  | dropped temporary next ih => exact ih first second

theorem StartsAll.names (kept : ∀ ch ∈ children, ch.isKept) :
    started.map Child.name = children.map Child.name := by
  induction all with
  | nil => rfl
  | born next ih | ignored _ next ih => simp [ih (forall_mem_cons.mp kept).2]
  | dropped temporary next ih =>
    rw [(forall_mem_cons.mp kept).1] at temporary
    cases temporary

theorem StartsAll.keptNames : keptNames started = keptNames children := by
  induction all with
  | nil => rfl
  | born next ih => rw [keptNames_cons_pid, keptNames_cons, keptNames_cons, ih]
  | ignored kept next ih => rw [keptNames_cons_stopped, keptNames_cons, keptNames_cons, ih]
  | dropped temporary next ih =>
    rw [keptNames_cons, temporary, ih]
    rfl

theorem StartsAll.names_sublist : (started.map Child.name).Sublist (children.map Child.name) := by
  induction all with
  | nil => exact .slnil
  | born _ ih | ignored _ _ ih => exact ih.cons_cons _
  | dropped _ _ ih => exact ih.cons _

theorem StartsAll.strategy : s'.strategy = s.strategy := by
  induction all with
  | nil => rfl
  | born _ ih | ignored _ _ ih | dropped _ _ ih => exact ih

end

theorem isKept_todo (group : List (Child W)) : ∀ ch ∈ todo group, ch.isKept := by
  intro ch member
  obtain ⟨old, found, rfl⟩ := mem_map.mp (mem_reverse.mp member)
  exact (mem_filter.mp found).2

theorem names_todo (group : List (Child W)) :
    (todo group).map Child.name = ((group.filter Child.isKept).map Child.name).reverse := by
  rw [todo, map_reverse, map_map]
  rfl

theorem names_failed (split : todo group = done ++ failed :: rest)
    (all : StartsAll env s done started s') : (rest.map Child.name).reverse ++ failed.name ::
      (started.map Child.name).reverse =
      (group.filter Child.isKept).map Child.name := by
  have order := names_todo group
  rw [split] at order
  rw [all.names fun ch member => isKept_todo group ch (split ▸ mem_append_left _ member),
    ← reverse_reverse ((group.filter Child.isKept).map Child.name), ← order]
  simp

/-- An attempt keeps the children that are not temporary, in their order. -/
theorem Attempted.names (attempted : Attempted env child group before s attempt) :
    attempt.state.children.map Child.name =
      (group.filter Child.isKept).map Child.name ++ before.map Child.name := by
  cases attempted with
  | ok all =>
    rw [Attempt.state, map_append, map_reverse, all.names (isKept_todo group), names_todo,
      reverse_reverse]
  | itself split same all =>
    rw [← names_failed split all]
    simp [Attempt.state, same]
  | other split different all =>
    rw [← names_failed split all]
    simp [Attempt.state]

theorem Attempted.strategy (attempted : Attempted env child group before s attempt) :
    attempt.state.strategy = s.strategy := by
  cases attempted with
  | ok all | itself _ _ all | other _ _ all => exact all.strategy

end Otp.Supervisor
