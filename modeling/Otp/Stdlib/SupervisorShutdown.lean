import Otp.Stdlib.SupervisorStep
import Otp.Stdlib.SupervisorDynamic

/-! A supervisor that gives up terminates its children. It keeps a child for every process
that it started and that has not terminated; the exception is the supervisor of dynamic
children, which forgets its only child specification when it gives up. -/

namespace Otp.Supervisor

open List hiding after

variable {W : World} {env : Env W}
variable {s s' : State W} {children after : List (Child W)}

/-- Every process has its child, with the shutdown that the process was started for. -/
def Covers (children : List (Child W)) (running : List (Pid × Shutdown)) : Prop :=
  ∀ r ∈ running, ∃ ch ∈ children, ch.pid = .pid r.1 ∧ ch.shutdown = r.2

theorem Covers.mono {more : List (Child W)} (covers : Covers children running)
    (children_le : ∀ ch ∈ children, ch ∈ more) : Covers more running := by
  intro r member
  obtain ⟨ch, found, same⟩ := covers r member
  exact ⟨ch, children_le ch found, same⟩

theorem Covers.filter (covers : Covers children running)
    (p : Pid × Shutdown → Bool) : Covers children (running.filter p) :=
  fun r member => covers r (mem_filter.mp member).1

theorem Covers.append (first : Covers children running)
    (second : Covers children more) : Covers children (running ++ more) := by
  intro r member
  rcases mem_append.mp member with old | new
  · exact first r old
  · exact second r new

/-- A child whose process does not run may change. -/
theorem Covers.replace {before : List (Child W)}
    (covers : Covers (after ++ child :: before) running)
    (gone : ∀ r ∈ running, child.pid ≠ .pid r.1) (others : ∀ ch ∈ after ++ before, ch ∈ children) :
    Covers children running := by
  intro r member
  obtain ⟨ch, found, pid, how⟩ := covers r member
  rcases mem_append.mp found with later | rest
  · exact ⟨ch, others ch (mem_append_left _ later), pid, how⟩
  · rcases mem_cons.mp rest with rfl | earlier
    · exact absurd pid (gone r member)
    · exact ⟨ch, others ch (mem_append_right _ earlier), pid, how⟩

theorem delChild_cases (key : Term W) (children : List (Child W)) :
    delChild key children = children ∨ ∃ after child before, children = after ++ child :: before ∧
      (child.name = key ∨ child.pid = key) ∧
      delChild key children = after ++
        (if child.isKept then child.stopped :: before else before) := by
  induction children with
  | nil => exact .inl rfl
  | cons head children ih =>
    rw [delChild]
    split
    case isTrue found =>
      refine .inr ⟨[], head, children, rfl, found, ?_⟩
      by_cases temporary : head.restartType = .temporary <;>
        simp [Child.isKept, Child.stopped, temporary]
    case isFalse =>
      rcases ih with same | ⟨after, child, before, rfl, found, gone⟩
      · exact .inl (congrArg _ same)
      · exact .inr ⟨head :: after, child, before, rfl, found, by rw [gone, cons_append]⟩

structure Tracked (s : State W) : Prop where
  ordinary : s.isSimple = false
  names : (s.children.map Child.name).Nodup
  plain : ∀ ch ∈ s.children, ch.name.IsPlain
  kept : ∀ ch ∈ s.children, ∀ o, ch.pid = .restarting o → ch.isKept
  covers : Covers s.children s.running

/-- The children keep their ids, and some may go. -/
theorem Tracked.of_sublist (tracked : Tracked s) (strategy : s'.strategy = s.strategy)
    (names : (s'.children.map Child.name).Sublist (s.children.map Child.name))
    (kept : ∀ ch ∈ s'.children, ∀ o, ch.pid = .restarting o → ch.isKept)
    (covers : Covers s'.children s'.running) : Tracked s' := by
  refine ⟨?_, tracked.names.sublist names, fun ch member => ?_, kept, covers⟩
  · rw [State.isSimple, strategy]
    exact tracked.ordinary
  · obtain ⟨old, found, same⟩ := mem_map.mp (names.subset (mem_map_of_mem member))
    exact same ▸ tracked.plain old found

/-- A child has another pid, as its process does not run. -/
theorem Tracked.replace (tracked : Tracked s) (strategy : s'.strategy = s.strategy)
    (children : s.children = after ++ child :: before)
    (replaced : s'.children = after ++ new :: before) (name : new.name = child.name)
    (kept : ∀ o, new.pid = .restarting o → new.isKept) (running : ∀ r ∈ s'.running, r ∈ s.running ∧
      child.pid ≠ .pid r.1 ∨ new.pid = .pid r.1 ∧ new.shutdown = r.2) :
    Tracked s' := by
  have old := tracked.kept
  rw [children, forall_mem_append, forall_mem_cons] at old
  refine tracked.of_sublist strategy ?_ ?_ fun r member => ?_
  · simp [children, replaced, name]
  · rw [replaced]
    exact forall_mem_append.mpr ⟨old.1, forall_mem_cons.mpr ⟨kept, old.2.2⟩⟩
  · rw [replaced]
    rcases running r member with ⟨present, gone⟩ | same
    · obtain ⟨ch, found, how⟩ := tracked.covers r present
      rw [children, mem_append, mem_cons] at found
      rcases found with later | rfl | earlier
      · exact ⟨ch, by simp [later], how⟩
      · exact absurd how.1 gone
      · exact ⟨ch, by simp [earlier], how⟩
    · exact ⟨new, by simp, same⟩

theorem Tracked.remove (tracked : Tracked s) (strategy : s'.strategy = s.strategy)
    (children : s.children = after ++ child :: before) (removed : s'.children = after ++ before)
    (running : ∀ r ∈ s'.running, r ∈ s.running ∧ child.pid ≠ .pid r.1) : Tracked s' := by
  have covers : Covers s.children s'.running :=
    fun r member => tracked.covers r (running r member).1
  have inside : s'.children.Sublist s.children := by simp [children, removed]
  rw [children] at covers
  exact tracked.of_sublist strategy (inside.map _)
    (fun ch member => tracked.kept ch (inside.subset member))
    (covers.replace (fun r member => (running r member).2) fun ch member => removed ▸ member)

theorem Tracked.delChild (tracked : Tracked s) (member : child ∈ s.children)
    (strategy : s'.strategy = s.strategy) (children : s'.children = delChild child.name s.children)
    (running : ∀ r ∈ s'.running, r ∈ s.running ∧ child.pid ≠ .pid r.1) : Tracked s' := by
  rcases delChild_cases child.name s.children with same | ⟨after, hit, before, split, found, gone⟩
  · rw [same] at children
    exact tracked.of_sublist strategy (children ▸ List.Sublist.refl _) (children ▸ tracked.kept)
      fun r present => children ▸ tracked.covers r (running r present).1
  · have idle : ∀ r ∈ s'.running, r ∈ s.running ∧ hit.pid ≠ .pid r.1 := by
      intro r present
      refine ⟨(running r present).1, ?_⟩
      rcases found with same | same
      · rw [inj_on_of_nodup_map tracked.names (by simp [split]) member same]
        exact (running r present).2
      · rw [same]
        exact (tracked.plain child member).1 r.1
    rw [gone] at children
    split at children
    · exact tracked.replace strategy split children rfl (by nofun) fun r present =>
        .inl (idle r present)
    · exact tracked.remove strategy split children idle

theorem mem_terminated (present : r ∈ (s.terminated [child]).running) :
    r ∈ s.running ∧ child.pid ≠ .pid r.1 :=
  ⟨(mem_filter.mp present).1, of_decide_eq_true (mem_filter.mp present).2 child mem_cons_self⟩

theorem mem_exited {child : Child W} (found : child.pid = .pid p)
    (present : r ∈ (s.exited p).running) :
    r ∈ s.running ∧ child.pid ≠ .pid r.1 := by
  obtain ⟨old, other⟩ := mem_filter.mp present
  refine ⟨old, fun same => ?_⟩
  cases found.symm.trans same
  exact of_decide_eq_true other rfl

theorem StartsAll.covers (all : StartsAll env s children started s') :
    ∃ born, s'.running = s.running ++ born ∧ Covers started born := by
  induction all with
  | nil => exact ⟨[], by simp, by simp [Covers]⟩
  | @born children started s' s child next ih =>
    obtain ⟨born, running, covers⟩ := ih
    refine ⟨(s.starts, child.shutdown) :: born, by simp [running, State.born], ?_⟩
    intro r member
    rcases mem_cons.mp member with rfl | rest
    · exact ⟨_, mem_cons_self, rfl, rfl⟩
    · exact (covers.mono fun ch member => mem_cons_of_mem _ member) r rest
  | ignored kept next ih =>
    obtain ⟨born, running, covers⟩ := ih
    exact ⟨born, running, covers.mono fun ch member => mem_cons_of_mem _ member⟩
  | dropped temporary next ih => exact ih

/-- What was terminated does not run, so the others are those before. -/
theorem covers_terminated (covers : Covers (group ++ before) s.running) :
    Covers before (s.terminated group).running := by
  intro r member
  obtain ⟨present, survives⟩ := mem_filter.mp member
  obtain ⟨ch, found, pid, how⟩ := covers r present
  rcases mem_append.mp found with inside | outside
  · exact absurd pid (of_decide_eq_true survives ch inside)
  · exact ⟨ch, outside, pid, how⟩

theorem Attempted.covers (attempted : Attempted env child group before s attempt)
    (covers : Covers (group ++ before) s.running) :
    Covers attempt.state.children attempt.state.running := by
  have left := covers_terminated covers
  have both {started : List (Child W)} {s' : State W} {done : List (Child W)}
      (all : StartsAll env (s.terminated group) done started s') :
      Covers (started.reverse ++ before) s'.running := by
    obtain ⟨born, running, fresh⟩ := all.covers
    rw [running]
    exact (left.mono (by simp +contextual)).append (fresh.mono (by simp +contextual))
  cases attempted with
  | ok all =>
    have covered := both all
    exact covered
  | itself split same all | other split different all =>
    have covered := both all
    exact covered.mono (by simp +contextual [Attempt.state])

theorem Attempted.kept (attempted : Attempted env child group before s attempt)
    (keeps : child.isKept) (others : ∀ ch ∈ before, ∀ o, ch.pid = .restarting o → ch.isKept) :
    ∀ ch ∈ attempt.state.children, ∀ o, ch.pid = .restarting o → ch.isKept := by
  have ended {started : List (Child W)} {s' : State W} {done : List (Child W)}
      (all : StartsAll env (s.terminated group) done started s') :
      ∀ ch ∈ started.reverse ++ before, ∀ o, ch.pid = .restarting o → ch.isKept := by
    intro ch member o waits
    rcases mem_append.mp member with new | old
    · exact absurd waits (all.calm ch new o)
    · exact others ch old o waits
  have rest {first : List (Child W)} {failed : Child W} {last : List (Child W)}
      (split : todo group = first ++ failed :: last) :
      failed.isKept ∧ ∀ ch ∈ last.reverse, ∀ o, ch.pid = .restarting o → ch.isKept :=
    ⟨isKept_todo group failed (by simp [split]), fun ch member _ _ =>
      isKept_todo group ch (by simp [split, mem_reverse.mp member])⟩
  cases attempted with
  | ok all => exact ended all
  | itself split same all =>
    refine forall_mem_append.mpr ⟨(rest split).2, forall_mem_cons.mpr ⟨?_, ended all⟩⟩
    exact fun _ _ => keeps
  | other split different all =>
    refine forall_mem_append.mpr ⟨(rest split).2, forall_mem_cons.mpr ⟨?_, ended all⟩⟩
    exact fun _ _ => (rest split).1

/-- `one_for_one`: the child is started, ignored, or waits for a retry. -/
theorem restartOneForOne_cases (located : Located s child after before)
    (made : restartOneForOne env child s = some attempt) :
    attempt =
      .ok { s.born child with children := after ++ { child with pid := .pid s.starts } :: before } ∨
    attempt = .ok { s.asked child with children := after ++ child.stopped :: before } ∨
    attempt = .tryAgain { s.asked child with
      children := after ++ { child with pid := restarting child.pid } :: before } := by
  rw [restartOneForOne] at made
  have result := doStartChild_result env child s
  generalize doStartChild env child s = r at result made
  cases result with
  | ok | okExtra =>
    dsimp only at made
    rw [replaceChild_located located (s.born child) rfl] at made
    exact .inl (Option.some.inj made).symm
  | ignore ignored =>
    dsimp only at made
    rw [replaceChild_located located (s.asked child) rfl] at made
    exact .inr (.inl (Option.some.inj made).symm)
  | error what =>
    dsimp only at made
    rw [replaceChild_located located (s.asked child) rfl] at made
    exact .inr (.inr (Option.some.inj made).symm)

/-- The first child in the list whose pid field is the same. -/
theorem exists_first (member : child ∈ children) :
    ∃ after first before, findPid child.pid children = some first ∧
      children = after ++ first :: before ∧ first.pid = child.pid ∧ ∀ ch ∈ after,
        ch.pid ≠ child.pid := by
  cases found : findPid child.pid children with
  | none =>
    have missing := find?_eq_none.mp found child member
    simp at missing
  | some first =>
    obtain ⟨same, after, before, split, none⟩ := find?_eq_some_iff_append.mp found
    exact ⟨after, first, before, rfl, split, by simpa using same,
      fun ch found => by simpa using none ch found⟩

theorem located_of_mem (names : (s.children.map Child.name).Nodup)
    (member : child ∈ s.children) : ∃ after before, Located s child after before := by
  obtain ⟨after, before, split⟩ := append_of_mem member
  refine ⟨after, before, split, fun ch found same => ?_⟩
  rw [split, map_append, nodup_append] at names
  exact names.2.2 _ (mem_map_of_mem found) _ mem_cons_self same

/-- The child of a restart: it is kept, and its process has terminated. -/
structure Failed (s : State W) (child : Child W) : Prop where
  member : child ∈ s.children
  kept : child.isKept
  busy : (∃ p, child.pid = .pid p) ∨ ∃ o, child.pid = .restarting o
  gone : ∀ r ∈ s.running, child.pid ≠ .pid r.1
  first : ∀ first, findPid child.pid s.children = some first → first.isKept

theorem Failed.absent (failed : Failed s child) (tracked : Tracked s)
    (inside : ∀ ch ∈ after, ch ∈ s.children) (others : ∀ ch ∈ after, ch.pid ≠ child.pid) :
    Absent child.pid after := by
  intro ch member
  refine ⟨?_, others ch member⟩
  obtain ⟨notPid, notRestarting⟩ := tracked.plain ch (inside ch member)
  rcases failed.busy with ⟨p, same⟩ | ⟨o, same⟩
  · exact same ▸ notPid p
  · exact same ▸ notRestarting o

theorem attempted_tracked (tracked : Tracked s) (failed : Failed s child)
    (children : s.children = after ++ first :: more) (same : first.pid = child.pid)
    (attempted : Attempted env child (after ++ first.stopped :: middle) before s attempt)
    (split : more = middle ++ before) : Tracked attempt.state := by
  subst split
  refine tracked.of_sublist attempted.strategy ?_ ?_ ?_
  · rw [attempted.names, ← map_append, children]
    refine (((filter_sublist.append (List.Sublist.refl before)).map _).trans ?_)
    simp
  · refine attempted.kept failed.kept fun ch member => tracked.kept ch ?_
    rw [children]
    simp [member]
  · refine attempted.covers ?_
    have covers := tracked.covers
    rw [children] at covers
    exact covers.replace (fun r member => same ▸ failed.gone r member)
      (by simp +contextual [or_imp])

theorem nodup_todo {group : List (Child W)} (names : (group.map Child.name).Nodup) :
    ((todo group).map Child.name).Nodup := by
  rw [names_todo, nodup_reverse]
  exact names.sublist (filter_sublist.map _)

theorem restartOneForOne_tracked (tracked : Tracked s) (failed : Failed s child)
    (located : Located s child after before) (made : restartOneForOne env child s = some attempt) :
    Tracked attempt.state := by
  rcases restartOneForOne_cases located made with rfl | rfl | rfl
  · refine tracked.replace rfl located.children rfl rfl (fun _ _ => failed.kept) fun r member => ?_
    rcases mem_append.mp member with old | new
    · exact .inl ⟨old, failed.gone r old⟩
    · rw [mem_singleton.mp new]
      exact .inr ⟨rfl, rfl⟩
  · exact tracked.replace rfl located.children rfl rfl (fun _ _ => failed.kept) fun r member =>
      .inl ⟨member, failed.gone r member⟩
  · exact tracked.replace rfl located.children rfl rfl (fun _ _ => failed.kept) fun r member =>
      .inl ⟨member, failed.gone r member⟩

theorem restart_3_tracked (tracked : Tracked s) (failed : Failed s child)
    (made : restart_3 env child s = some attempt) : Tracked attempt.state := by
  obtain ⟨after, first, before, found, children, same, others⟩ := exists_first failed.member
  have absent := failed.absent tracked (fun ch member => by simp [children, member]) others
  have kept := failed.first first found
  have names := tracked.names
  rw [children] at names
  have nodup : ((after ++ first.stopped :: before).map Child.name).Nodup := by simpa using names
  rw [restart_3] at made
  split at made
  · rename_i simple
    have ordinary := tracked.ordinary
    rw [State.isSimple, simple] at ordinary
    cases ordinary
  · obtain ⟨after, before, located⟩ := located_of_mem tracked.names failed.member
    exact restartOneForOne_tracked tracked failed located made
  · obtain ⟨_, is, attempted⟩ := restartRestForOne_spec children absent same
      (nodup_todo (nodup.sublist (by simp)))
    cases is.symm.trans made
    exact attempted_tracked tracked failed children same attempted (nil_append _).symm
  · obtain ⟨_, is, attempted⟩ := restartOneForAll_spec children absent same kept (nodup_todo nodup)
    cases is.symm.trans made
    exact attempted_tracked tracked failed children same attempted (append_nil _).symm

theorem Tracked.congr (tracked : Tracked s) (strategy : s'.strategy = s.strategy)
    (children : s'.children = s.children) (running : s'.running = s.running) : Tracked s' :=
  tracked.of_sublist strategy (children ▸ List.Sublist.refl _) (children ▸ tracked.kept)
    (children ▸ running ▸ tracked.covers)

theorem restart_tracked (tracked : Tracked s) (failed : Failed s child)
    (restarts : restart env now child s = some (.ok s')) : Tracked s' := by
  obtain ⟨list, ⟨attempt, made, same⟩ | gone⟩ := restart_cases restarts
  · have waiting : Tracked { s with restarts := list } := tracked.congr rfl rfl rfl
    have result :=
      restart_3_tracked waiting ⟨failed.member, failed.kept, failed.busy, failed.gone,
      failed.first⟩ made
    cases same
    exact result.congr (strategy_leave ..) (children_leave ..) (running_leave ..)
  · cases gone

/-- When the supervisor gives up, the child is removed and the others still cover. -/
theorem restart_gives_up (tracked : Tracked s) (failed : Failed s child)
    (restarts : restart env now child s = some (.shutdown s')) :
    s'.isSimple = false ∧ Covers s'.children s'.running := by
  obtain ⟨list, ⟨attempt, made, same⟩ | gone⟩ := restart_cases restarts
  · cases same
  · cases gone
    refine ⟨tracked.ordinary, ?_⟩
    obtain ⟨after, before, located⟩ := located_of_mem tracked.names failed.member
    have covers := tracked.covers
    rw [located.children] at covers
    change Covers (s.children.eraseP fun ch => ch.name = child.name) s.running
    rw [eraseP_located located]
    exact covers.replace failed.gone fun ch member => member

/-- New children have ids that are neither pids nor restarting. -/
def PlainIds (_ : State W) : Msg W → Prop
  | .call (.startChild (.spec spec)) => spec.name.IsPlain
  | _ => True

theorem Tracked.exited (tracked : Tracked s) (p : Pid) : Tracked (s.exited p) :=
  tracked.of_sublist rfl (List.Sublist.refl _) tracked.kept (tracked.covers.filter _)

theorem Tracked.withCasts (tracked : Tracked s) (casts : List (Term W × Nat)) :
    Tracked { s with casts } :=
  tracked.congr rfl rfl rfl

theorem findPid_eq {before : List (Child W)} (split : children = after ++ child :: before)
    (first : ∀ ch ∈ after, ch.pid ≠ child.pid) : findPid child.pid children = some child := by
  rw [findPid, split, find?_append, find?_eq_none.mpr (by simpa using first)]
  simp

theorem failed_exited (split : s.children = after ++ child :: before)
    (first : ∀ ch ∈ after, ch.pid ≠ child.pid) (found : child.pid = .pid p) (kept : child.isKept) :
    Failed (s.exited p) child where
  member := by simp [State.exited, split]
  kept := kept
  busy := .inl ⟨p, found⟩
  gone _ present := (mem_exited found present).2
  first ch ahead := by
    rw [show (s.exited p).children = s.children from rfl, findPid_eq split first] at ahead
    cases ahead
    exact kept

theorem failed_retry (tracked : Tracked s) (member : child ∈ s.children)
    (waits : child.pid = .restarting o) : Failed s child where
  member := member
  kept := tracked.kept child member o waits
  busy := .inr ⟨o, waits⟩
  gone r _ same := by
    rw [waits] at same
    cases same
  first ch ahead := by
    have same : ch.pid = child.pid := by simpa using find?_some ahead
    exact tracked.kept ch (mem_of_find?_eq_some ahead) o (same.trans waits)

theorem Located.mem (located : Located s child after before) : child ∈ s.children := by
  simp [located.children]

theorem Tracked.added (tracked : Tracked s) (child : Child W) (plain : child.name.IsPlain)
    (absent : ∀ ch ∈ s.children, ch.name ≠ child.name) (idle : ∀ o, child.pid ≠ .restarting o)
    (strategy : s'.strategy = s.strategy) (children : s'.children = child :: s.children)
    (covers : Covers s'.children s'.running) : Tracked s' := by
  refine ⟨?_, ?_, ?_, ?_, covers⟩
  · rw [State.isSimple, strategy]
    exact tracked.ordinary
  · rw [children, map_cons, nodup_cons]
    refine ⟨fun member => ?_, tracked.names⟩
    obtain ⟨ch, found, same⟩ := mem_map.mp member
    exact absent ch found same
  · rw [children]
    exact forall_mem_cons.mpr ⟨plain, tracked.plain⟩
  · rw [children]
    exact forall_mem_cons.mpr ⟨fun o waits => absurd waits (idle o), tracked.kept⟩

theorem effect_tracked (tracked : Tracked s) (plain : PlainIds s msg)
    (effect : Effect env s msg (.ok s')) : Tracked s' := by
  cases effect with
  | same => exact tracked
  | asked child => exact tracked.congr rfl rfl rfl
  | @added spec absent args =>
    refine tracked.added { spec.child with pid := .pid s.starts, args } plain absent
      (by nofun) rfl rfl ?_
    refine (tracked.covers.mono fun ch member => mem_cons_of_mem _ member).append ?_
    intro r member
    rw [mem_singleton.mp member]
    exact ⟨_, mem_cons_self, rfl, rfl⟩
  | @ignored spec absent kept =>
    refine tracked.added spec.child plain absent (by nofun) rfl rfl ?_
    exact tracked.covers.mono fun ch member => mem_cons_of_mem _ member
  | stopped located kept =>
    exact tracked.replace rfl located.children rfl rfl (by nofun) fun r present =>
      .inl (mem_terminated present)
  | removed located temporary =>
    exact tracked.delChild located.mem rfl rfl fun r present => mem_terminated present
  | started located idle =>
    refine tracked.replace rfl located.children rfl rfl (by nofun) fun r present => ?_
    rcases mem_append.mp present with old | new
    · exact .inl ⟨old, by simp [idle]⟩
    · rw [mem_singleton.mp new]
      exact .inr ⟨rfl, rfl⟩
  | deleted located idle =>
    exact tracked.remove rfl located.children rfl fun r present => ⟨present, by simp [idle]⟩
  | exited => exact tracked.exited _
  | dropped member found =>
    exact tracked.delChild member rfl rfl fun r present => mem_exited found present
  | restart children first found kept restarts =>
    exact restart_tracked (tracked.exited _) (failed_exited children first found kept) restarts
  | passed casts idle => exact tracked.congr rfl rfl rfl
  | @retry mark rest child after before o now _ casts located waits restarts =>
    have taken := tracked.withCasts rest
    exact restart_tracked taken (failed_retry taken located.mem waits) restarts

theorem effect_gives_up (tracked : Tracked s) (effect : Effect env s msg (.shutdown s')) :
    s'.isSimple = false ∧ Covers s'.children s'.running := by
  cases effect with
  | restart children first found kept restarts =>
    exact restart_gives_up (tracked.exited _) (failed_exited children first found kept) restarts
  | @retry mark rest child after before o now _ casts located waits restarts =>
    have taken := tracked.withCasts rest
    exact restart_gives_up taken (failed_retry taken located.mem waits) restarts

/-- The state as the supervisor takes a message. -/
def State.taken (s : State W) : Msg W → State W
  | .call _ => s
  | .exit p _ _ => s.exited p
  | .tryAgain _ => { s with casts := s.casts.tail }

theorem StartsAll.tracked {specs : List (Spec W)}
    (all : StartsAll env s (specs.map Spec.child) started s') (ordinary : s.isSimple = false)
    (idle : s.running = []) (distinct : (specs.map Spec.name).Nodup)
    (plain : ∀ spec ∈ specs, spec.name.IsPlain) :
    Tracked { s' with children := started.reverse } := by
  have names : (specs.map Spec.child).map Child.name = specs.map Spec.name := by
    rw [map_map]
    rfl
  have sub := all.names_sublist
  rw [names] at sub
  refine ⟨?_, ?_, fun ch member => ?_, fun ch member o waits => ?_, ?_⟩
  · rw [all.strategy]
    exact ordinary
  · simpa using distinct.sublist sub
  · have listed := mem_map_of_mem (f := Child.name) (mem_reverse.mp member)
    obtain ⟨spec, found, same⟩ := mem_map.mp (sub.subset listed)
    exact same ▸ plain spec found
  · exact absurd waits (all.calm ch member o)
  · obtain ⟨born, running, covers⟩ := all.covers
    rw [idle] at running
    rw [running]
    exact covers.mono fun ch member => mem_reverse.mpr member

theorem init_starts (ordinary : strategy ≠ .simpleOneForOne)
    (begun : init env strategy intensity period specs = some initial) :
    ∃ started s', StartsAll env (emptyState W strategy intensity period)
      (specs.map Spec.child) started s' ∧
      (specs.map Spec.name).Nodup ∧ initial = { s' with children := started.reverse } := by
  have notSimple : (emptyState W strategy intensity period).isSimple = false := by
    simp [State.isSimple, emptyState, ordinary]
  rw [init.eq_def] at begun
  dsimp only at begun
  rw [notSimple] at begun
  split at begun
  · rename_i distinct
    obtain ⟨done, started, s', all, ⟨rfl, ended⟩ | ⟨failed, rest, -, ended⟩⟩ :=
      startChildren_spec env (specs.map Spec.child) [] (emptyState W strategy intensity period)
    · rw [ended, append_nil] at begun
      exact ⟨started, s', all, distinct, (Option.some.inj begun).symm⟩
    · rw [ended] at begun
      cases begun
  · cases begun

theorem init_tracked (ordinary : strategy ≠ .simpleOneForOne)
    (plain : ∀ spec ∈ specs, spec.name.IsPlain)
    (begun : init env strategy intensity period specs = some initial) : Tracked initial := by
  obtain ⟨started, s', all, distinct, rfl⟩ := init_starts ordinary begun
  exact all.tracked (by simp [State.isSimple, emptyState, ordinary]) rfl distinct plain

theorem tracked_of_reachable (initially : Tracked initial)
    (plain : ∀ s msg, allowed s msg → PlainIds s msg) (run : Reachable env allowed initial s) :
    Tracked s := by
  induction run with
  | initial => exact initially
  | step before msg meets handled ih =>
    exact effect_tracked ih (plain _ _ meets) (handle_effect ih.ordinary handled)

/-- Ordinary children that are all there are all shut down. -/
theorem terminate_covers (ordinary : s.isSimple = false) (covers : Covers s.children s.running) :
    ∃ final acts, terminate s = some final ∧ final.log = s.log ++ acts ∧
      ∀ r ∈ s.running, Action.shutdown r.1 r.2 ∈ acts := by
  refine ⟨s.terminated s.children, s.children.filterMap Child.shutdown?, ?_, rfl,
    fun r member => ?_⟩
  · rw [terminate, ordinary]
    dsimp only
    rw [terminateChildren_eq]
  · obtain ⟨ch, found, pid, how⟩ := covers r member
    exact mem_filterMap.mpr ⟨ch, found, by rw [Child.shutdown?, pid, ← how]⟩

theorem Template.congr (template : Template child s) (strategy : s'.strategy = s.strategy)
    (children : s'.children = s.children) : Template child s' :=
  ⟨strategy.trans template.strategy, children.trans template.children⟩

theorem saveDynamicChild_template (template : Template child s)
    (saved : saveDynamicChild restartType pid args s = some s') : Template child s' := by
  rw [saveDynamicChild] at saved
  split at saved <;>
  · obtain ⟨db, -, rfl⟩ := Option.map_eq_some_iff.mp saved
    exact template.congr rfl rfl

theorem stateDelChild_template (template : Template child s)
    (deleted : stateDelChild gone s = some s') : Template child s' := by
  rw [stateDelChild, if_pos template.simple] at deleted
  split at deleted <;>
  · obtain ⟨db, -, rfl⟩ := Option.map_eq_some_iff.mp deleted
    exact template.congr rfl rfl

theorem restartSimpleOneForOne_template {id : Term W} (template : Template child s)
    (made : restartSimpleOneForOne env failed s = some attempt) :
    Template child (attempt.leave id) := by
  rw [restartSimpleOneForOne, uncount_eq] at made
  split at made
  · cases made
  · have result := doStartChild_result env failed { s with
      dynamicRestarts := if failed.pid.isRestarting then s.dynamicRestarts - 1
        else s.dynamicRestarts }
    generalize doStartChild env failed _ = r at result made
    cases result <;>
    · cases made
      exact template.congr rfl rfl

/-- What the supervisor goes on with keeps the specification. -/
theorem restart_template (template : Template child s)
    (restarts : restart env now failed s = some (.ok s')) : Template child s' := by
  obtain ⟨list, ⟨attempt, made, same⟩ | same⟩ := restart_cases restarts
  · have counted : Template child { s with restarts := list } := template.congr rfl rfl
    rw [restart_3_simple counted.strategy] at made
    cases same
    exact restartSimpleOneForOne_template counted made
  · cases same

theorem handle_template (template : Template child s) (handled : handle env s msg = some (.ok s')) :
    Template child s' := by
  have left (p : Pid) : Template child (s.exited p) := template.congr rfl rfl
  cases handle_dynamic template handled with
  | same => exact template
  | asked started => exact template.congr rfl rfl
  | saved started saved =>
    refine saveDynamicChild_template ?_ saved
    exact template.congr rfl rfl
  | ended which deleted =>
    refine stateDelChild_template ?_ deleted
    exact template.congr rfl rfl
  | exited => exact left _
  | dropped deleted => exact stateDelChild_template (left _) deleted
  | restart due found restarts => exact restart_template (left _) restarts
  | passed casts => exact template.congr rfl rfl
  | retry casts found restarts =>
    refine restart_template ?_ restarts
    exact template.congr rfl rfl

theorem template_of_reachable (initially : Template child initial)
    (run : Reachable env allowed initial s) : Template child s := by
  induction run with
  | initial => exact initially
  | step before msg meets handled ih => exact handle_template ih handled

/-- The supervisor of dynamic children gives up without its specification. -/
theorem template_gives_up (template : Template child s)
    (gives_up : handle env s msg = some (.shutdown s')) :
    s'.children = [] := by
  have removed {now : Int} {failed : Child W} {s0 : State W}
      (restarts : restart env now failed s0 = some (.shutdown s')) (kept : s0.children = s.children)
      (named : failed.name = child.name) : s'.children = [] := by
    obtain ⟨list, ⟨attempt, -, same⟩ | same⟩ := restart_cases restarts
    · cases same
    · cases same
      simp [removeChild, kept, template.children, named]
  cases handle_dynamic template gives_up with
  | restart due found restarts | retry casts found restarts => exact removed restarts rfl rfl

theorem init_template (begun : init env .simpleOneForOne intensity period specs = some initial) :
    ∃ child, Template child initial := by
  rw [init.eq_def] at begun
  dsimp only at begun
  rw [isSimple_eq (show (emptyState W .simpleOneForOne intensity period).strategy =
    _ from rfl)] at begun
  split at begun
  · rw [if_pos rfl] at begun
    split at begun
    · cases begun
      exact ⟨_, rfl, rfl⟩
    · cases begun
  · cases begun

theorem terminate_nil (empty : s.children = []) : terminate s = some s := by
  rw [terminate, empty]
  split
  · rename_i alone
    cases alone
  · exact congrArg some (by rw [terminateChildren])

/-- The processes that run when a supervisor gives up. -/
theorem effect_gives_up_running (effect : Effect env s msg (.shutdown s')) :
    s'.running = (s.taken msg).running := by
  cases effect with
  | restart children first found kept restarts | retry casts located waits restarts =>
    obtain ⟨list, ⟨attempt, -, same⟩ | same⟩ := restart_cases restarts
    · cases same
    · cases same
      rfl

/-- A supervisor that gives up shuts down every process that it started and that has not
terminated, unless the children are dynamic and one of them runs. The ids of children that are
not dynamic are plain. -/
theorem gives_up_shuts_down (env : Env W) (strategy : Strategy) (intensity period : Nat)
    (specs : List (Spec W)) (initial s s' : State W) (msg : Msg W)
    (plain : strategy ≠ .simpleOneForOne → ∀ spec ∈ specs, spec.name.IsPlain)
    (begun : init env strategy intensity period specs = some initial)
    (run : Reachable env (fun s msg => strategy ≠ .simpleOneForOne → PlainIds s msg) initial s)
    (gives_up : handle env s msg = some (.shutdown s')) :
    (∃ final acts, terminate s' = some final ∧ final.log = s'.log ++ acts ∧
        ∀ r ∈ (s.taken msg).running, Action.shutdown r.1 r.2 ∈ acts) ↔
      (strategy = .simpleOneForOne → (s.taken msg).running = []) := by
  by_cases simple : strategy = .simpleOneForOne
  · cases simple
    obtain ⟨child, initially⟩ := init_template begun
    rw [terminate_nil (template_gives_up (template_of_reachable initially run) gives_up)]
    constructor
    · rintro ⟨final, acts, ended, log, all⟩ -
      cases ended
      have none : acts = [] := by simpa using log
      refine eq_nil_iff_forall_not_mem.mpr fun r member => ?_
      simpa [none] using all r member
    · intro idle
      exact ⟨s', [], rfl, by simp, by simp [idle rfl]⟩
  · have tracked := tracked_of_reachable (init_tracked simple (plain simple) begun)
      (fun _ _ meets => meets simple) run
    have effect := handle_effect tracked.ordinary gives_up
    obtain ⟨ordinary, covers⟩ := effect_gives_up tracked effect
    rw [← effect_gives_up_running effect]
    exact ⟨fun _ same => absurd same simple, fun _ => terminate_covers ordinary covers⟩

/-- Two children are started, one exits and may not be restarted. -/
theorem gives_up_shuts_down_other : ∃ initial s' final acts,
      init alwaysStarts .oneForOne 0 5 [plainSpec .permanent (plainId 0),
        plainSpec .permanent (plainId 1)] = some initial ∧
      handle alwaysStarts initial (.exit 0 .other 0) = some (.shutdown s') ∧
      terminate s' = some final ∧ final.log = s'.log ++ acts ∧ .shutdown 1 .brutalKill ∈ acts := by
  obtain ⟨final, acts, ended, log, all⟩ := (gives_up_shuts_down alwaysStarts .oneForOne 0 5
    [plainSpec .permanent (plainId 0), plainSpec .permanent (plainId 1)] _ _ _ (.exit 0 .other 0)
    (fun _ => by simp [plainSpec, plainId, Term.IsPlain]) rfl .initial rfl).mpr nofun
  exact ⟨_, _, final, acts, rfl, rfl, ended, log, all (1, .brutalKill) (by decide)⟩

/-- Two dynamic children run, one exits and may not be restarted: the other one is left
running. So is an ordinary child whose pid is the id of a transient child that exited. -/
theorem gives_up_leaves_running : (∃ initial s s' final,
      init alwaysStarts .simpleOneForOne 0 5 [plainSpec .permanent (plainId 0)] = some initial ∧
      Reachable alwaysStarts PlainIds initial s ∧
      handle alwaysStarts s (.exit 0 .other 0) = some (.shutdown s') ∧
      s'.running = [(1, .brutalKill)] ∧ terminate s' = some final ∧ final.log = s'.log ∧
      final.running = [(1, .brutalKill)]) ∧
    (∃ initial s s' final,
      init alwaysStarts .oneForOne 0 5 [plainSpec .transient (.pid 1),
        plainSpec .permanent (plainId 0), plainSpec .permanent (plainId 2)] = some initial ∧
      Reachable alwaysStarts PlainIds initial s ∧
      handle alwaysStarts s (.exit 2 .other 0) = some (.shutdown s') ∧
      s'.running = [(1, .brutalKill)] ∧ terminate s' = some final ∧
      final.log = s'.log ++ [.shutdown 0 .brutalKill] ∧ final.running = [(1, .brutalKill)]) :=
  ⟨⟨_, _, _, _, rfl,
      (Reachable.initial.step dynamicStart trivial rfl).step dynamicStart trivial rfl, rfl, rfl,
        rfl, rfl, rfl⟩,
    ⟨_, _, _, _, rfl, Reachable.initial.step (.exit 0 .normal 0) trivial rfl, rfl, rfl,
      rfl, rfl, rfl⟩⟩

end Otp.Supervisor
