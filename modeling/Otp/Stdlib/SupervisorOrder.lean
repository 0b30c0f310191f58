import Otp.Stdlib.SupervisorShutdown

/-! The children stay in the reverse order of their first starts, and a restart takes a group
of them down and up again in that order. A start that fails midway leaves one child that waits
for a retry; children after it are not started before the retry but by a request, and what such
a child does arrives later than the retry. -/

namespace Otp.Supervisor

open List hiding after

variable {W : World} {env : Env W}
variable {s s' : State W}

/-- What a pid field holds after so many starts. -/
def Term.IsField (starts : Nat) : Term W → Prop
  | .undefined => True
  | .pid p => p < starts
  | .restarting _ => True
  | .name _ => False

/-- Not started, or started after so many starts. -/
def Term.AtLeast (mark : Nat) : Term W → Prop
  | .undefined => True
  | .pid p => mark ≤ p
  | .restarting _ => False
  | .name _ => False

/-- If a child waits for a retry, a child after it is new. -/
def Settled (casts : List (Term W × Nat)) (later child : Child W) : Prop :=
  ∀ o, child.pid = .restarting o → ∃ mark, (child.name, mark) ∈ casts ∧ later.pid.AtLeast mark

structure Fielded (s : State W) : Prop where
  plain : ∀ ch ∈ s.children, ch.name.IsPlain
  fields : ∀ ch ∈ s.children, ch.pid.IsField s.starts
  once : ∀ a ∈ s.children, ∀ b ∈ s.children, ∀ p, a.pid = .pid p → b.pid = .pid p → a.name = b.name
  marks : ∀ cast ∈ s.casts, cast.2 ≤ s.starts

structure Sequenced (s : State W) : Prop extends Fielded s where
  pending : ∀ ch ∈ s.children, ∀ o, ch.pid = .restarting o → ∃ mark, (ch.name, mark) ∈ s.casts
  settled : s.strategy ≠ .oneForOne → s.children.Pairwise (Settled s.casts)

theorem Term.IsField.mono {term : Term W} (field : term.IsField starts) (more : starts ≤ starts') :
    term.IsField starts' := by
  cases term with
  | pid p => exact Nat.lt_of_lt_of_le field more
  | undefined | restarting o | name n => exact field

theorem not_atLeast_restarting {term : Term W} (least : term.AtLeast mark) :
    term ≠ .restarting o := by
  rintro rfl
  exact least

/-- Every child is one that was there, and its pid field is as it was or holds no old pid. -/
def Changed (s s' : State W) (old new : Child W) : Prop :=
  new.name = old.name ∧ (new.pid = old.pid ∨ new.pid = .undefined ∨ (∃ o, new.pid = .restarting o) ∨
    ∃ p, new.pid = .pid p ∧ s.starts ≤ p ∧ p < s'.starts)

theorem Fielded.step (fielded : Fielded s) (starts : s.starts ≤ s'.starts)
    (marks : ∀ cast ∈ s'.casts, cast.2 ≤ s'.starts)
    (changed : ∀ ch ∈ s'.children, ∃ old ∈ s.children, Changed s s' old ch)
    (once : ∀ a ∈ s'.children, ∀ b ∈ s'.children, ∀ p, s.starts ≤ p → a.pid = .pid p →
      b.pid = .pid p →
      a.name = b.name) : Fielded s' := by
  refine ⟨fun ch member => ?_, fun ch member => ?_, fun a first b second p one other => ?_, marks⟩
  · obtain ⟨old, found, same, -⟩ := changed ch member
    exact same ▸ fielded.plain old found
  · obtain ⟨old, found, -, same | idle | ⟨o, waits⟩ | ⟨p, new, -, high⟩⟩ := changed ch member
    · rw [same]
      exact (fielded.fields old found).mono starts
    · rw [idle]
      trivial
    · rw [waits]
      trivial
    · rw [new]
      exact high
  · by_cases new : s.starts ≤ p
    · exact once a first b second p new one other
    · have held {ch : Child W} (member : ch ∈ s'.children) (pid : ch.pid = .pid p) :
          ∃ old ∈ s.children, ch.name = old.name ∧ old.pid = .pid p := by
        obtain ⟨old, found, name, same | idle | ⟨o, waits⟩ | ⟨q, fresh, low, -⟩⟩ :=
          changed ch member
        · exact ⟨old, found, name, same.symm.trans pid⟩
        · cases idle.symm.trans pid
        · cases waits.symm.trans pid
        · cases fresh.symm.trans pid
          exact absurd low new
      obtain ⟨a', first', name, one'⟩ := held first one
      obtain ⟨b', second', name', other'⟩ := held second other
      rw [name, name']
      exact fielded.once a' first' b' second' p one' other'

theorem Changed.refl (s s' : State W) (child : Child W) : Changed s s' child child :=
  ⟨rfl, .inl rfl⟩

theorem Fielded.old (fielded : Fielded s) (member : ch ∈ s.children)
    (new : s.starts ≤ p) : ch.pid ≠ .pid p := by
  intro same
  have field := fielded.fields ch member
  rw [same] at field
  exact absurd field (Nat.not_lt_of_le new)

/-- One child gets another pid field. -/
theorem Fielded.replace (fielded : Fielded s) (starts : s.starts ≤ s'.starts)
    (marks : ∀ cast ∈ s'.casts, cast.2 ≤ s'.starts)
    (children : s.children = after ++ child :: before)
    (replaced : s'.children = after ++ new :: before) (changed : Changed s s' child new) :
    Fielded s' := by
  have inside : ∀ ch ∈ after ++ before, ch ∈ s.children := by
    intro ch member
    rw [children]
    rcases mem_append.mp member with later | earlier
    · exact mem_append_left _ later
    · exact mem_append_right _ (mem_cons_of_mem _ earlier)
  have cases {ch : Child W} (member : ch ∈ s'.children) : ch = new ∨ ch ∈ s.children := by
    rw [replaced] at member
    rcases mem_append.mp member with later | rest
    · exact .inr (inside ch (mem_append_left _ later))
    · rcases mem_cons.mp rest with same | earlier
      · exact .inl same
      · exact .inr (inside ch (mem_append_right _ earlier))
  refine fielded.step starts marks (fun ch member => ?_) fun a first b second p fresh one other =>
    ?_
  · rcases cases member with rfl | old
    · exact ⟨child, by simp [children], changed⟩
    · exact ⟨ch, old, .refl s s' ch⟩
  · rcases cases first with rfl | old
    · rcases cases second with rfl | old
      · rfl
      · exact absurd other (fielded.old old fresh)
    · exact absurd one (fielded.old old fresh)

theorem Fielded.sublist (fielded : Fielded s) (starts : s.starts ≤ s'.starts)
    (marks : ∀ cast ∈ s'.casts, cast.2 ≤ s'.starts) (inside : ∀ ch ∈ s'.children, ch ∈ s.children) :
    Fielded s' :=
  fielded.step starts marks (fun ch member => ⟨ch, inside ch member, .refl s s' ch⟩)
    fun a first _ _ _ fresh one _ => absurd one (fielded.old (inside a first) fresh)



@[simp]
theorem keptNames_reverse (children : List (Child W)) :
    keptNames children.reverse = (keptNames children).reverse := by
  simp [keptNames]

theorem keptNames_eq {children : List (Child W)} (kept : ∀ ch ∈ children, ch.isKept) :
    keptNames children = children.map Child.name := by
  rw [keptNames, filter_eq_self.mpr kept]

theorem mem_keptNames {id : Term W} (member : id ∈ keptNames children) :
    ∃ ch ∈ children, ch.name = id := by
  obtain ⟨ch, found, same⟩ := mem_map.mp member
  exact ⟨ch, (mem_filter.mp found).1, same⟩

theorem keptNames_delChild (key : Term W) (children : List (Child W)) :
    keptNames (delChild key children) = keptNames children := by
  rcases delChild_cases key children with same | ⟨after, child, before, rfl, -, gone⟩
  · rw [same]
  · rw [gone, keptNames_append, keptNames_append]
    split
    · rw [keptNames_cons_stopped]
    · rename_i temporary
      rw [keptNames_cons, if_neg temporary]

theorem keptNames_todo (group : List (Child W)) :
    keptNames (todo group) = (keptNames group).reverse := by
  rw [keptNames_eq (isKept_todo group), names_todo, keptNames]

theorem StartsAll.keptNames_failed (all : StartsAll env s done started s')
    (split : todo group = done ++ failed :: rest) (marked : Child W) (kept : marked.isKept)
    (same : marked.name = failed.name) (before : List (Child W)) :
    Supervisor.keptNames (rest.reverse ++ marked :: (started.reverse ++ before)) =
      Supervisor.keptNames group ++ Supervisor.keptNames before := by
  have failed_kept : failed.isKept := isKept_todo group failed (by simp [split])
  have order := keptNames_todo group
  rw [split, keptNames_append, keptNames_cons, if_pos failed_kept, ← all.keptNames] at order
  rw [← reverse_reverse (Supervisor.keptNames group), ← order, keptNames_append, keptNames_cons,
    if_pos kept, same]
  simp

/-- An attempt keeps the children that are not temporary in their order. -/
theorem Attempted.keptNames_state (attempted : Attempted env child group before s attempt)
    (kept : child.isKept) :
    keptNames attempt.state.children = keptNames group ++ keptNames before := by
  cases attempted with
  | @ok started s' all =>
    change keptNames (started.reverse ++ before) = _
    rw [keptNames_append, keptNames_reverse, all.keptNames, keptNames_todo, reverse_reverse]
  | itself split same all =>
    exact all.keptNames_failed split { child with pid := restarting child.pid } kept same.symm before
  | @other done failed rest started s' split different all =>
    have failed_kept : failed.isKept := isKept_todo group failed (by simp [split])
    exact all.keptNames_failed split { failed with pid := .restarting none } failed_kept rfl before

/-- The children of `group`, which has the latest first, are shut down in that order, and those
that are not temporary are started again, the earliest first; those `before` are left alone. If
a start fails, the children after it are not started, and it waits for the retry that is sent. -/
def RestartsInOrder (s s' : State W) (group before : List (Child W)) : Prop :=
  ∃ again, s'.children = again ++ before ∧ again.map Child.name = keptNames group ∧
    ((s'.log = s.log ++ group.filterMap Child.shutdown? ++
      (again.reverse.map fun ch => .start ch.name) ∧
        s'.casts = s.casts ∧ ∀ ch ∈ again, ∀ o, ch.pid ≠ .restarting o) ∨
      ∃ rest failed done, again = rest ++ failed :: done ∧
        s'.log = s.log ++ group.filterMap Child.shutdown? ++
          ((failed :: done).reverse.map fun ch => .start ch.name) ∧
        s'.casts = s.casts ++ [(failed.name, s'.starts)] ∧ (∃ o, failed.pid = .restarting o) ∧
        (∀ ch ∈ rest, ch.pid = .undefined) ∧ ∀ ch ∈ done, ∀ o, ch.pid ≠ .restarting o)

theorem StartsAll.start_log (all : StartsAll env s children started s')
    (kept : ∀ ch ∈ children, ch.isKept) :
    s'.log = s.log ++ started.map fun ch => .start ch.name := by
  have names := congrArg (map Action.start) (all.names kept)
  rw [map_map, map_map] at names
  rw [all.log]
  exact congrArg (s.log ++ ·) names.symm

theorem idle_todo {group : List (Child W)} (split : todo group = done ++ failed :: rest) :
    ∀ ch ∈ rest.reverse, ch.pid = .undefined := by
  intro ch member
  have inside : ch ∈ todo group := by simp [split, mem_reverse.mp member]
  obtain ⟨old, -, rfl⟩ := mem_map.mp (mem_reverse.mp inside)
  rfl

/-- The failed child is marked, and a retry is sent for it. -/
theorem StartsAll.failed_in_order (before : List (Child W))
    (all : StartsAll env (s.terminated group) done started s')
    (split : todo group = done ++ failed :: rest) (marked : Child W)
    (same : marked.name = failed.name) (waits : ∃ o, marked.pid = .restarting o) :
    RestartsInOrder s (State.tryAgainRestart { s'.asked failed with
      children := rest.reverse ++ marked ::
        (started.reverse ++ before) } failed.name) group before := by
  have kept : ∀ ch ∈ done, ch.isKept :=
    fun ch member => isKept_todo group ch (by simp [split, member])
  refine ⟨rest.reverse ++ marked :: started.reverse, ?_, ?_,
    .inr ⟨rest.reverse, marked, started.reverse, rfl, ?_, ?_, waits, idle_todo split, all.calm⟩⟩
  · simp [State.tryAgainRestart]
  · have names := names_failed split all
    rw [Supervisor.keptNames, ← names]
    simp [same]
  · simp [State.tryAgainRestart, State.asked, all.start_log kept, State.terminated, same]
  · simp [State.tryAgainRestart, State.asked, all.casts, State.terminated, same]

theorem restarting_busy {child : Child W}
    (busy : (∃ p, child.pid = .pid p) ∨ ∃ o, child.pid = .restarting o) :
    ∃ o, restarting child.pid = .restarting o := by
  rcases busy with ⟨p, pid⟩ | ⟨o, pid⟩
  · exact ⟨some p, by rw [pid]; rfl⟩
  · exact ⟨o, by rw [pid]; rfl⟩

theorem Attempted.in_order (attempted : Attempted env child group before s attempt)
    (busy : (∃ p, child.pid = .pid p) ∨ ∃ o, child.pid = .restarting o) :
    RestartsInOrder s (attempt.leave child.name) group before := by
  cases attempted with
  | @ok started s' all =>
    have names : started.reverse.map Child.name = keptNames group := by
      rw [map_reverse, all.names (isKept_todo group), names_todo, reverse_reverse]
      rfl
    refine ⟨started.reverse, rfl, names, .inl ⟨?_, all.casts, all.calm⟩⟩
    have log := all.start_log (isKept_todo group)
    rw [reverse_reverse]
    exact log
  | @itself done failed rest started s' split same all =>
    have ordered := all.failed_in_order before split { child with pid := restarting child.pid }
      same.symm (restarting_busy busy)
    rw [same] at ordered
    exact ordered
  | other split different all => exact all.failed_in_order before split _ rfl ⟨none, rfl⟩

/-- What a restart in order leaves to retry. -/
theorem RestartsInOrder.pending (ordered : RestartsInOrder s s' group before)
    (calm : ∀ ch ∈ before, ∀ o, ch.pid ≠ .restarting o) :
    ∀ ch ∈ s'.children, ∀ o, ch.pid = .restarting o → ∃ mark, (ch.name, mark) ∈ s'.casts := by
  obtain ⟨again, children, -, ⟨-, -, none⟩ | ⟨rest, failed, done, rfl, -, casts, -, idle, none⟩⟩ :=
    ordered
  · intro ch member o waits
    rw [children] at member
    rcases mem_append.mp member with new | old
    · exact absurd waits (none ch new o)
    · exact absurd waits (calm ch old o)
  · intro ch member o waits
    rw [children] at member
    simp only [mem_append, mem_cons] at member
    rcases member with (later | rfl | earlier) | old
    · cases (idle ch later).symm.trans waits
    · exact ⟨s'.starts, by simp [casts]⟩
    · exact absurd waits (none ch earlier o)
    · exact absurd waits (calm ch old o)

theorem pairwise_settled_of_calm {children : List (Child W)}
    (calm : ∀ ch ∈ children, ∀ o, ch.pid ≠ .restarting o) : children.Pairwise (Settled casts) :=
  pairwise_of_forall_mem_list fun _ _ ch member o waits => absurd waits (calm ch member o)

theorem RestartsInOrder.settled (ordered : RestartsInOrder s s' group before)
    (calm : ∀ ch ∈ before, ∀ o, ch.pid ≠ .restarting o) :
    s'.children.Pairwise (Settled s'.casts) := by
  obtain ⟨again, children, -, ⟨-, -, none⟩ | ⟨rest, failed, done, rfl, -, casts, -, idle, none⟩⟩ :=
    ordered
  · rw [children]
    exact pairwise_settled_of_calm (forall_mem_append.mpr ⟨none, calm⟩)
  · have later : ∀ ch ∈ rest, ∀ o, ch.pid ≠ .restarting o := by
      intro ch member o waits
      cases (idle ch member).symm.trans waits
    have earlier := forall_mem_append.mpr ⟨none, calm⟩
    rw [children, append_assoc, cons_append, pairwise_append, pairwise_cons]
    refine ⟨pairwise_settled_of_calm later, ⟨?_, pairwise_settled_of_calm earlier⟩, ?_⟩
    · exact fun ch member o waits => absurd waits (earlier ch member o)
    · intro ch member x inside o waits
      rcases mem_cons.mp inside with rfl | rest
      · refine ⟨s'.starts, by simp [casts], ?_⟩
        rw [idle ch member]
        trivial
      · exact absurd waits (earlier x rest o)

/-- The child of a restart, with those after and before it. -/
structure Chosen (s : State W) (child : Child W) (after before : List (Child W)) : Prop where
  children : s.children = after ++ child :: before
  kept : child.isKept
  busy : (∃ p, child.pid = .pid p) ∨ ∃ o, child.pid = .restarting o
  first : s.strategy ≠ .oneForOne → ∀ ch ∈ after, ch.pid ≠ child.pid
  calm : s.strategy ≠ .oneForOne → ∀ ch ∈ before, ∀ o, ch.pid ≠ .restarting o
  pending : ∀ ch ∈ s.children, ch.name ≠ child.name → ∀ o, ch.pid = .restarting o →
    ∃ mark, (ch.name, mark) ∈ s.casts

theorem Chosen.absent (chosen : Chosen s child after before) (fielded : Fielded s)
    (several : s.strategy ≠ .oneForOne) : Absent child.pid after := by
  intro ch member
  refine ⟨fun same => ?_, chosen.first several ch member⟩
  have plain := fielded.plain ch (by simp [chosen.children, member])
  rcases chosen.busy with ⟨p, pid⟩ | ⟨o, pid⟩
  · exact plain.1 p (same.trans pid)
  · exact plain.2 o (same.trans pid)

theorem Chosen.attempts_rest (chosen : Chosen s child after before) (fielded : Fielded s)
    (names : (s.children.map Child.name).Nodup) (strategy : s.strategy = .restForOne) :
    ∃ attempt, restart_3 env child s = some attempt ∧
      Attempted env child (after ++ [child.stopped]) before s attempt := by
  rw [chosen.children] at names
  rw [restart_3, strategy]
  refine restartRestForOne_spec chosen.children (chosen.absent fielded (by simp [strategy])) rfl
    (nodup_todo ?_)
  exact names.sublist (by simp)

theorem Chosen.attempts_all (chosen : Chosen s child after before) (fielded : Fielded s)
    (names : (s.children.map Child.name).Nodup) (strategy : s.strategy = .oneForAll) :
    ∃ attempt, restart_3 env child s = some attempt ∧
      Attempted env child (after ++ child.stopped :: before) [] s attempt := by
  rw [chosen.children] at names
  rw [restart_3, strategy]
  refine restartOneForAll_spec chosen.children (chosen.absent fielded (by simp [strategy])) rfl
    chosen.kept (nodup_todo ?_)
  simpa using names

/-- Children that were there, new processes, and children without a process. -/
theorem StartsAll.fielded (all : StartsAll env (s.terminated group) done started s')
    (fielded : Fielded s) (names : ∀ ch ∈ done, ∃ old ∈ s.children, ch.name = old.name)
    (starts : s'.starts ≤ final.starts) (marks : ∀ cast ∈ final.casts, cast.2 ≤ final.starts)
    (children : ∀ ch ∈ final.children, ch ∈ started ∨ ch ∈ s.children ∨
      (∃ old ∈ s.children, ch.name = old.name) ∧
        (ch.pid = .undefined ∨ ∃ o, ch.pid = .restarting o)) :
    Fielded final := by
  have low : s.starts ≤ s'.starts := all.starts
  refine fielded.step (Nat.le_trans low starts) marks
    (fun ch member => ?_) fun a first b second p fresh one other => ?_
  · rcases children ch member with new | old | ⟨⟨old, found, same⟩, idle | waits⟩
    · obtain ⟨base, inside, same, idle | ⟨p, pid, low, high⟩⟩ := all.mem new
      · obtain ⟨old, found, name⟩ := names base inside
        exact ⟨old, found, by rw [same]; exact name, .inr (.inl idle)⟩
      · obtain ⟨old, found, name⟩ := names base inside
        exact ⟨old, found, by rw [same]; exact name,
          .inr (.inr (.inr ⟨p, pid, low, Nat.lt_of_lt_of_le high starts⟩))⟩
    · exact ⟨ch, old, .refl s final ch⟩
    · exact ⟨old, found, same, .inr (.inl idle)⟩
    · exact ⟨old, found, same, .inr (.inr (.inl waits))⟩
  · have new {ch : Child W} (member : ch ∈ final.children) (pid : ch.pid = .pid p) :
        ch ∈ started := by
      rcases children ch member with new | old | ⟨-, idle | ⟨o, waits⟩⟩
      · exact new
      · exact absurd pid (fielded.old old fresh)
      · cases idle.symm.trans pid
      · cases waits.symm.trans pid
    rw [all.once (new first one) (new second other) one other]

theorem name_todo (inside : ∀ ch ∈ group, ∃ old ∈ s.children, ch.name = old.name) :
    ∀ ch ∈ todo group, ∃ old ∈ s.children, ch.name = old.name := by
  intro ch member
  obtain ⟨old, found, rfl⟩ := mem_map.mp (mem_reverse.mp member)
  exact inside old (mem_filter.mp found).1

theorem marks_append {casts : List (Term W × Nat)} (marks : ∀ cast ∈ casts, cast.2 ≤ starts)
    (more : starts ≤ starts') {id : Term W} :
    ∀ cast ∈ casts ++ [(id, starts')], cast.2 ≤ starts' := by
  refine forall_mem_append.mpr ⟨fun cast member => Nat.le_trans (marks cast member) more, ?_⟩
  simp

theorem StartsAll.failed_fielded (all : StartsAll env (s.terminated group) done started s')
    (split : todo group = done ++ failed :: rest) (fielded : Fielded s)
    (names : ∀ ch ∈ todo group, ∃ old ∈ s.children, ch.name = old.name)
    (left : ∀ ch ∈ before, ch ∈ s.children) (marked : Child W)
    (known : ∃ old ∈ s.children, marked.name = old.name) (waits : ∃ o, marked.pid = .restarting o)
    (id : Term W) :
    Fielded (State.tryAgainRestart { s'.asked failed with
      children := rest.reverse ++ marked :: (started.reverse ++ before) } id) := by
  have marks : ∀ cast ∈ s'.casts ++ [(id, s'.starts + 1)], cast.2 ≤ s'.starts + 1 := by
    rw [all.casts]
    exact marks_append fielded.marks (Nat.le_succ_of_le all.starts)
  refine all.fielded fielded (fun ch found => names ch (by simp [split, found]))
    (Nat.le_succ _) marks
    fun ch present => ?_
  rcases mem_append.mp present with later | more
  · exact .inr (.inr ⟨names ch (by simp [split, mem_reverse.mp later]),
      .inl (idle_todo split ch later)⟩)
  · rcases mem_cons.mp more with rfl | more
    · exact .inr (.inr ⟨known, .inr waits⟩)
    · rcases mem_append.mp more with new | old
      · exact .inl (mem_reverse.mp new)
      · exact .inr (.inl (left ch old))

theorem Attempted.fielded (attempted : Attempted env child group before s attempt)
    (fielded : Fielded s) (member : child ∈ s.children)
    (busy : (∃ p, child.pid = .pid p) ∨ ∃ o, child.pid = .restarting o)
    (inside : ∀ ch ∈ group, ∃ old ∈ s.children, ch.name = old.name)
    (left : ∀ ch ∈ before, ch ∈ s.children) (id : Term W) : Fielded (attempt.leave id) := by
  have names := name_todo inside
  cases attempted with
  | @ok started s' all =>
    refine all.fielded fielded names (Nat.le_refl _) ?_ fun ch present => ?_
    · intro cast queued
      exact Nat.le_trans (fielded.marks cast (all.casts ▸ queued)) all.starts
    · rcases mem_append.mp present with new | old
      · exact .inl (mem_reverse.mp new)
      · exact .inr (.inl (left ch old))
  | itself split same all =>
    exact all.failed_fielded split fielded names left { child with pid := restarting child.pid }
      ⟨child, member, rfl⟩ (restarting_busy busy) id
  | @other done failed rest started s' split different all =>
    exact all.failed_fielded split fielded names left { failed with pid := .restarting none }
      (names failed (by simp [split])) ⟨none, rfl⟩ _

theorem Located.others (located : Located s child after before)
    (names : (s.children.map Child.name).Nodup) : ∀ ch ∈ after ++ before, ch ∈ s.children ∧
    ch.name ≠ child.name := by
  rw [located.children] at names ⊢
  rw [map_append, nodup_append] at names
  intro ch member
  rcases mem_append.mp member with later | earlier
  · exact ⟨mem_append_left _ later, located.first ch later⟩
  · refine ⟨mem_append_right _ (mem_cons_of_mem _ earlier), fun same => ?_⟩
    exact (nodup_cons.mp names.2.1).1 (same ▸ mem_map_of_mem earlier)

theorem Chosen.located (chosen : Chosen s child after before)
    (names : (s.children.map Child.name).Nodup) : Located s child after before := by
  refine ⟨chosen.children, fun ch found same => ?_⟩
  rw [chosen.children, map_append, nodup_append] at names
  exact names.2.2 _ (mem_map_of_mem found) _ mem_cons_self same

/-- One child is restarted in its place. -/
theorem Chosen.restarts_one (chosen : Chosen s child after before) (fielded : Fielded s)
    (names : (s.children.map Child.name).Nodup) (strategy : s'.strategy = .oneForOne)
    (children : s'.children = after ++ new :: before) (starts : s.starts ≤ s'.starts)
    (changed : Changed s s' child new) (marks : ∀ cast ∈ s'.casts, cast.2 ≤ s'.starts)
    (casts : s.casts ⊆ s'.casts)
    (waits : ∀ o, new.pid = .restarting o → ∃ mark, (new.name, mark) ∈ s'.casts) :
    Sequenced s' := by
  refine ⟨fielded.replace starts marks chosen.children children changed,
    fun ch member o restarting => ?_, fun other => absurd strategy other⟩
  have others := (chosen.located names).others names
  rw [children] at member
  simp only [mem_append, mem_cons] at member
  have old (inside : ch ∈ after ++ before) : ∃ mark, (ch.name, mark) ∈ s'.casts := by
    obtain ⟨mark, queued⟩ :=
      chosen.pending ch (others ch inside).1 (others ch inside).2 o restarting
    exact ⟨mark, casts queued⟩
  rcases member with later | rfl | earlier
  · exact old (mem_append_left _ later)
  · exact waits o restarting
  · exact old (mem_append_right _ earlier)

theorem Chosen.one_sequenced (chosen : Chosen s child after before) (fielded : Fielded s)
    (names : (s.children.map Child.name).Nodup) (strategy : s.strategy = .oneForOne)
    (made : restart_3 env child s = some attempt) :
    Sequenced (attempt.leave child.name) ∧ keptNames attempt.state.children =
      keptNames s.children := by
  rw [restart_3, strategy] at made
  have marks : ∀ cast ∈ s.casts, cast.2 ≤ s.starts + 1 :=
    fun cast queued => Nat.le_succ_of_le (fielded.marks cast queued)
  have kept (new : Child W) (isKept : new.isKept = child.isKept) (name : new.name = child.name) :
      keptNames (after ++ new :: before) = keptNames s.children := by
    rw [chosen.children, keptNames_append, keptNames_append, keptNames_cons, keptNames_cons,
      isKept, name]
  rcases restartOneForOne_cases (chosen.located names) made with rfl | rfl | rfl
  · refine ⟨?_, kept _ rfl rfl⟩
    exact chosen.restarts_one fielded names strategy rfl (Nat.le_succ _)
      ⟨rfl, .inr (.inr (.inr ⟨s.starts, rfl, Nat.le_refl _, Nat.lt_succ_self _⟩))⟩ marks
      (List.Subset.refl _) (fun o none => by cases none)
  · refine ⟨?_, kept _ rfl rfl⟩
    exact chosen.restarts_one fielded names strategy rfl (Nat.le_succ _) ⟨rfl,
      .inr (.inl rfl)⟩ marks
      (List.Subset.refl _) (fun o none => by cases none)
  · refine ⟨?_, kept _ rfl rfl⟩
    exact chosen.restarts_one fielded names strategy rfl (Nat.le_succ _)
      ⟨rfl, .inr (.inr (.inl (restarting_busy chosen.busy)))⟩
      (marks_append fielded.marks (Nat.le_succ _)) (subset_append_left _ _)
      fun o _ => ⟨s.starts + 1, mem_append_right _ (mem_singleton.mpr rfl)⟩

/-- An attempt keeps the invariant, and the children that are not temporary in their order. -/
theorem Chosen.attempt_sequenced (chosen : Chosen s child after before) (tracked : Tracked s)
    (fielded : Fielded s) (made : restart_3 env child s = some attempt) :
    Sequenced (attempt.leave child.name) ∧ keptNames attempt.state.children =
      keptNames s.children := by
  have member : child ∈ s.children := by simp [chosen.children]
  cases strategy : s.strategy with
  | simpleOneForOne =>
    have ordinary := tracked.ordinary
    rw [State.isSimple, strategy] at ordinary
    cases ordinary
  | oneForOne => exact chosen.one_sequenced fielded tracked.names strategy made
  | restForOne =>
    obtain ⟨_, is, attempted⟩ := chosen.attempts_rest fielded tracked.names strategy
    cases is.symm.trans made
    have calm := chosen.calm (by simp [strategy])
    have ordered := attempted.in_order chosen.busy
    refine ⟨⟨attempted.fielded fielded member chosen.busy (fun ch inside => ?_)
      (fun ch inside => ?_) _, ordered.pending calm, fun _ => ordered.settled calm⟩, ?_⟩
    · rcases mem_append.mp inside with later | itself
      · exact ⟨ch, by simp [chosen.children, later], rfl⟩
      · rw [mem_singleton.mp itself]
        exact ⟨child, member, rfl⟩
    · simp [chosen.children, inside]
    · rw [attempted.keptNames_state chosen.kept, chosen.children]
      simp [keptNames_cons, chosen.kept]
  | oneForAll =>
    obtain ⟨_, is, attempted⟩ := chosen.attempts_all fielded tracked.names strategy
    cases is.symm.trans made
    have ordered := attempted.in_order chosen.busy
    have nobody : ∀ ch : Child W, ch ∈ ([] : List (Child W)) → False :=
      fun _ inside => absurd inside not_mem_nil
    refine ⟨⟨attempted.fielded fielded member chosen.busy (fun ch inside => ?_)
      (fun ch inside => (nobody ch inside).elim) _,
      ordered.pending (fun ch inside => (nobody ch inside).elim),
      fun _ => ordered.settled (fun ch inside => (nobody ch inside).elim)⟩, ?_⟩
    · rcases mem_append.mp inside with later | rest
      · exact ⟨ch, by simp [chosen.children, later], rfl⟩
      · rcases mem_cons.mp rest with rfl | earlier
        · exact ⟨child, member, rfl⟩
        · exact ⟨ch, by simp [chosen.children, earlier], rfl⟩
    · rw [attempted.keptNames_state chosen.kept, chosen.children]
      simp

/-- Ids are plain, and messages arrive in order: a process that was started after a cast was
sent exits after the cast has arrived. -/
def InMailbox (s : State W) : Msg W → Prop
  | .call (.startChild (.spec spec)) => spec.name.IsPlain
  | .exit p _ _ => ∀ cast ∈ s.casts, p < cast.2
  | _ => True

theorem InMailbox.plainIds (arrives : InMailbox s msg) : PlainIds s msg := by
  match msg, arrives with
  | .call (.startChild (.spec spec)), plain => exact plain
  | .call (.startChild (.args _)), _ => trivial
  | .call (.startChild (.invalid _)), _ => trivial
  | .call (.terminateChild ..), _ => trivial
  | .call (.restartChild _), _ => trivial
  | .call (.deleteChild _), _ => trivial
  | .call .whichChildren, _ => trivial
  | .call (.countChildren _), _ => trivial
  | .exit .., _ => trivial
  | .tryAgain _, _ => trivial

theorem settled_middle {after before : List (Child W)}
    (settled : (after ++ child :: before).Pairwise (Settled casts)) : (∀ ch ∈ after,
      Settled casts ch child) ∧ ∀ ch ∈ before, Settled casts child ch := by
  obtain ⟨-, rest, across⟩ := pairwise_append.mp settled
  exact ⟨fun ch member => across ch member child mem_cons_self, (pairwise_cons.mp rest).1⟩

/-- When a process exits no child before its own waits for a retry. -/
theorem chosen_exited (sequenced : Sequenced s) (children : s.children = after ++ child :: before)
    (first : ∀ ch ∈ after, ch.pid ≠ child.pid) (found : child.pid = .pid p) (kept : child.isKept)
    (arrives : ∀ cast ∈ s.casts, p < cast.2) : Chosen (s.exited p) child after before where
  children := children
  kept := kept
  busy := .inl ⟨p, found⟩
  first _ := first
  calm several ch member o waits := by
    have settled := sequenced.settled several
    rw [children] at settled
    obtain ⟨mark, queued, least⟩ := (settled_middle settled).2 ch member o waits
    rw [found] at least
    exact Nat.not_lt_of_le least (arrives _ queued)
  pending ch member _ := sequenced.pending ch member

theorem chosen_retry (sequenced : Sequenced s) (tracked : Tracked s)
    (located : Located s child after before) (waits : child.pid = .restarting o)
    (casts : s.casts = (child.name, mark) :: rest) :
    Chosen { s with casts := rest } child after before where
  children := located.children
  kept := tracked.kept child located.mem o waits
  busy := .inr ⟨o, waits⟩
  first several ch member same := by
    have settled := sequenced.settled several
    rw [located.children] at settled
    obtain ⟨mark, -, least⟩ := (settled_middle settled).1 ch member o waits
    exact not_atLeast_restarting least (same.trans waits)
  calm several ch member o' waits' := by
    have settled := sequenced.settled several
    rw [located.children] at settled
    obtain ⟨mark, -, least⟩ := (settled_middle settled).2 ch member o' waits'
    exact not_atLeast_restarting least waits
  pending ch member other o' waits' := by
    obtain ⟨mark, queued⟩ := sequenced.pending ch member o' waits'
    rw [casts] at queued
    rcases mem_cons.mp queued with same | queued
    · exact absurd (congrArg Prod.fst same) other
    · exact ⟨mark, queued⟩

theorem Fielded.withCasts (fielded : Fielded s) (casts : List (Term W × Nat))
    (old : casts ⊆ s.casts) : Fielded { s with casts } :=
  ⟨fielded.plain, fielded.fields, fielded.once, fun cast queued => fielded.marks cast (old queued)⟩

theorem Chosen.counted (chosen : Chosen s child after before) (list : List Int) :
    Chosen { s with restarts := list } child after before :=
  ⟨chosen.children, chosen.kept, chosen.busy, chosen.first, chosen.calm, chosen.pending⟩

theorem Fielded.counted (fielded : Fielded s) (list : List Int) :
    Fielded { s with restarts := list } :=
  ⟨fielded.plain, fielded.fields, fielded.once, fielded.marks⟩

theorem restart_sequenced (chosen : Chosen s child after before) (tracked : Tracked s)
    (fielded : Fielded s) (restarts : restart env now child s = some (.ok s')) :
    Sequenced s' ∧ keptNames s'.children = keptNames s.children := by
  obtain ⟨list, ⟨attempt, made, same⟩ | gone⟩ := restart_cases restarts
  · have result :=
      (chosen.counted list).attempt_sequenced (tracked.congr rfl rfl rfl)
        (fielded.counted list) made
    rw [tracked.ordinary] at same
    cases same
    rw [children_leave]
    exact result
  · cases gone

theorem Fielded.marks_of (fielded : Fielded s) (casts : s'.casts = s.casts)
    (starts : s.starts ≤ s'.starts) : ∀ cast ∈ s'.casts, cast.2 ≤ s'.starts :=
  fun cast queued => Nat.le_trans (fielded.marks cast (casts ▸ queued)) starts

/-- Some children go, and the rest is as it was. -/
theorem Sequenced.sublist (sequenced : Sequenced s) (strategy : s'.strategy = s.strategy)
    (children : s'.children.Sublist s.children) (casts : s'.casts = s.casts)
    (starts : s.starts ≤ s'.starts) : Sequenced s' := by
  refine ⟨sequenced.toFielded.sublist starts (sequenced.marks_of casts starts)
    (fun ch member => children.subset member),
    ?_, fun several => ?_⟩
  · rw [casts]
    exact fun ch member => sequenced.pending ch (children.subset member)
  · rw [casts]
    exact (sequenced.settled (strategy ▸ several)).sublist children

/-- A child without a process, or with the process of the next start. -/
def New (s s' : State W) (child : Child W) : Prop :=
  child.pid = .undefined ∨ child.pid = .pid s.starts ∧ s.starts < s'.starts

theorem New.cases {motive : Term W → Prop} (new : New s s' child) (idle : motive .undefined)
    (running : s.starts < s'.starts → motive (.pid s.starts)) : motive child.pid := by
  rcases new with pid | ⟨pid, more⟩
  · exact pid ▸ idle
  · exact pid ▸ running more

theorem New.calm (new : New s s' child) : ∀ o, child.pid ≠ .restarting o :=
  new.cases (motive := fun pid => ∀ o, pid ≠ .restarting o) nofun fun _ => nofun

theorem New.atLeast (new : New s s' child) (old : mark ≤ s.starts) : child.pid.AtLeast mark :=
  new.cases trivial fun _ => old

/-- A child is stopped, or one that was not started is. -/
theorem Sequenced.replace (sequenced : Sequenced s)
    (strategy : s'.strategy = s.strategy) (children : s.children = after ++ child :: before)
    (replaced : s'.children = after ++ new :: before)
    (casts : s'.casts = s.casts) (starts : s.starts ≤ s'.starts) (name : new.name = child.name)
    (changed : New s s' new) : Sequenced s' := by
  have change : Changed s s' child new := by
    refine ⟨name, .inr ?_⟩
    rcases changed with idle | ⟨pid, more⟩
    · exact .inl idle
    · exact .inr (.inr ⟨s.starts, pid, Nat.le_refl _, more⟩)
  refine ⟨sequenced.toFielded.replace starts
    (sequenced.marks_of casts starts) children replaced change, ?_,
    fun several => ?_⟩
  · rw [casts, replaced]
    intro ch member o waits
    simp only [mem_append, mem_cons] at member
    rcases member with later | rfl | earlier
    · exact sequenced.pending ch (by simp [children, later]) o waits
    · exact absurd waits (changed.calm o)
    · exact sequenced.pending ch (by simp [children, earlier]) o waits
  · have settled := sequenced.settled (strategy ▸ several)
    rw [children] at settled
    obtain ⟨-, earlier⟩ := settled_middle settled
    rw [pairwise_append, pairwise_cons] at settled
    rw [casts, replaced, pairwise_append, pairwise_cons]
    refine ⟨settled.1, ⟨fun ch member o waits => ?_, settled.2.1.2⟩, fun ch member x inside => ?_⟩
    · obtain ⟨mark, queued, -⟩ := earlier ch member o waits
      exact ⟨mark, queued, changed.atLeast (sequenced.marks _ queued)⟩
    · rcases mem_cons.mp inside with rfl | rest
      · exact fun o waits => absurd waits (changed.calm o)
      · exact settled.2.2 ch member x (mem_cons_of_mem _ rest)

/-- A new child comes first. -/
theorem Sequenced.cons (sequenced : Sequenced s) (strategy : s'.strategy = s.strategy)
    (children : s'.children = child :: s.children) (plain : child.name.IsPlain)
    (casts : s'.casts = s.casts) (starts : s.starts ≤ s'.starts)
    (new : New s s' child) : Sequenced s' := by
  have fresh {p : Pid} (is : child.pid = .pid p) : s.starts ≤ p := by
    have least := new.atLeast (Nat.le_refl _)
    rw [is] at least
    exact least
  refine ⟨⟨?_, ?_, ?_, sequenced.marks_of casts starts⟩, ?_, fun several => ?_⟩
  · rw [children]
    exact forall_mem_cons.mpr ⟨plain, sequenced.plain⟩
  · rw [children]
    refine forall_mem_cons.mpr ⟨?_, fun ch member => (sequenced.fields ch member).mono starts⟩
    exact new.cases trivial id
  · rw [children]
    intro a first b second p one other
    rcases mem_cons.mp first with rfl | known
    · rcases mem_cons.mp second with rfl | known'
      · rfl
      · exact absurd other (sequenced.toFielded.old known' (fresh one))
    · rcases mem_cons.mp second with rfl | known'
      · exact absurd one (sequenced.toFielded.old known (fresh other))
      · exact sequenced.once a known b known' p one other
  · rw [casts, children]
    exact forall_mem_cons.mpr ⟨fun o waits => absurd waits (new.calm o), sequenced.pending⟩
  · rw [casts, children]
    refine pairwise_cons.mpr ⟨fun ch member o waits => ?_, sequenced.settled (strategy ▸ several)⟩
    obtain ⟨mark, queued⟩ := sequenced.pending ch member o waits
    exact ⟨mark, queued, new.atLeast (sequenced.marks _ queued)⟩

/-- A child is forgotten if it is temporary, and stopped if not. -/
theorem Sequenced.delChild (sequenced : Sequenced s) (strategy : s'.strategy = s.strategy)
    (children : s'.children = delChild key s.children) (casts : s'.casts = s.casts)
    (starts : s'.starts = s.starts) :
    Sequenced s' ∧ keptNames s'.children = keptNames s.children := by
  refine ⟨?_, by rw [children, keptNames_delChild]⟩
  rcases delChild_cases key s.children with same | ⟨after, child, before, split, -, gone⟩
  · refine sequenced.sublist strategy ?_ casts (Nat.le_of_eq starts.symm)
    rw [children, same]
  · rw [gone] at children
    split at children
    · exact sequenced.replace strategy split children casts (Nat.le_of_eq starts.symm) rfl
        (.inl rfl)
    · refine sequenced.sublist strategy ?_ casts (Nat.le_of_eq starts.symm)
      rw [children, split]
      simp

/-- Only starting a child by its specification and deleting one change the ids. -/
theorem effect_sequenced (sequenced : Sequenced s) (tracked : Tracked s)
    (arrives : InMailbox s msg) (effect : Effect env s msg (.ok s')) :
    Sequenced s' ∧ ((∀ spec, msg ≠ .call (.startChild (.spec spec))) →
      (∀ id, msg ≠ .call (.deleteChild id)) →
      keptNames s'.children = keptNames s.children) := by
  cases effect with
  | same => exact ⟨sequenced, fun _ _ => rfl⟩
  | asked child =>
    exact ⟨sequenced.sublist rfl (List.Sublist.refl _) rfl (Nat.le_succ _), fun _ _ => rfl⟩
  | @added spec absent args =>
    exact ⟨sequenced.cons rfl rfl arrives rfl (Nat.le_succ _) (.inr ⟨rfl, Nat.lt_succ_self _⟩),
      fun notStart _ => absurd rfl (notStart _)⟩
  | @ignored spec absent kept =>
    exact ⟨sequenced.cons rfl rfl arrives rfl (Nat.le_succ _) (.inl rfl),
      fun notStart _ => absurd rfl (notStart _)⟩
  | stopped located kept =>
    refine ⟨sequenced.replace rfl located.children rfl rfl (Nat.le_refl _) rfl (.inl rfl),
      fun _ _ => ?_⟩
    rw [located.children]
    simp
  | removed located temporary =>
    exact And.imp_right (fun names _ _ => names) (sequenced.delChild rfl rfl rfl rfl)
  | started located idle =>
    refine ⟨sequenced.replace rfl located.children rfl rfl (Nat.le_succ _) rfl
      (.inr ⟨rfl, Nat.lt_succ_self _⟩),
      fun _ _ => ?_⟩
    rw [located.children]
    simp
  | deleted located idle =>
    refine ⟨sequenced.sublist rfl ?_ rfl (Nat.le_refl _),
      fun _ notDelete => absurd rfl (notDelete _)⟩
    rw [located.children]
    simp
  | exited =>
    exact ⟨sequenced.sublist rfl (List.Sublist.refl _) rfl (Nat.le_refl _), fun _ _ => rfl⟩
  | dropped member found =>
    exact And.imp_right (fun names _ _ => names) (sequenced.delChild rfl rfl rfl rfl)
  | restart children first found kept restarts =>
    have chosen := chosen_exited sequenced children first found kept arrives
    obtain ⟨remains, names⟩ := restart_sequenced chosen (tracked.exited _)
      ⟨sequenced.plain, sequenced.fields, sequenced.once, sequenced.marks⟩ restarts
    exact ⟨remains, fun _ _ => names⟩
  | @passed head rest now casts idle =>
    have queued {ch : Child W} {o : Option Pid} (member : ch ∈ s.children)
        (waits : ch.pid = .restarting o)
        {mark : Nat} (sent : (ch.name, mark) ∈ s.casts) : (ch.name, mark) ∈ rest := by
      rw [casts] at sent
      rcases mem_cons.mp sent with rfl | sent
      · obtain ⟨after, before, located⟩ := located_of_mem tracked.names member
        refine absurd waits (idle ch ?_ o)
        rw [located.children]
        exact findName_eq located.first before
      · exact sent
    refine ⟨⟨sequenced.toFielded.withCasts rest (by simp [casts]), fun ch member o waits => ?_,
      fun several => ?_⟩, fun _ _ => rfl⟩
    · obtain ⟨mark, sent⟩ := sequenced.pending ch member o waits
      exact ⟨mark, queued member waits sent⟩
    · refine (sequenced.settled several).imp_of_mem fun {later ch} _ member settled o waits => ?_
      obtain ⟨mark, sent, least⟩ := settled o waits
      exact ⟨mark, queued member waits sent, least⟩
  | @retry mark rest child after before o now _ casts located waits restarts =>
    have chosen := chosen_retry sequenced tracked located waits casts
    obtain ⟨remains, names⟩ := restart_sequenced chosen (tracked.withCasts rest)
      (sequenced.toFielded.withCasts rest (by simp [casts])) restarts
    exact ⟨remains, fun _ _ => names⟩

end Otp.Supervisor
