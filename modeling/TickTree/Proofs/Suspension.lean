import TickTree.Proofs.Following

/-!
# Suspension is transparent

Ticking an agent again and again in a delayed forest comes to what one tick comes to in
the original: the result, the states of the trees, the registries, the ambient value,
and the journal once it is collapsed.

Where a delayed task waits, or a linked tree in which one waits, its tick ends with Running
and the next tick begins at the same instruction with everything as it was, so the step is
made eventually (`Eventually`). Steps make up walks and walks make up runs.
-/

namespace TickTree

variable {K A : Type} [DecidableEq K]

/-! ## Between ticks -/

section

variable {B : Type}

/-- A world that differs from another in nothing that a tick is about. -/
structure World.Idle (v v' : World K B) : Prop where
  trees : v'.trees = v.trees
  registries : v'.registries = v.registries
  ambient : v'.ambient = v.ambient
  marks : ∀ t a, mark t a v'.journal = mark t a v.journal
  collapsed : collapse v'.journal = collapse v.journal

/-- A world in which a tick resumes that was suspended in another: in between it has been
left with Running. -/
structure World.Resumes (t : TreeId) (a : K) (v v' : World K B) : Prop where
  trees : v'.trees = v.trees
  registries : v'.registries = v.registries
  ambient : v'.ambient = v.ambient
  own : mark t a v'.journal = (mark t a v.journal).map fun m => (m.1, true)
  others : ∀ u b, ¬ (t = u ∧ a = b) → mark u b v'.journal = mark u b v.journal
  collapsed : collapse v'.journal = collapse v.journal

theorem World.Idle.refl (v : World K B) : v.Idle v := ⟨rfl, rfl, rfl, fun _ _ => rfl, rfl⟩

theorem World.Idle.tree {v v' : World K B} (h : v.Idle v') (t : TreeId) :
    v'.tree t = v.tree t := by
  rw [World.tree, World.tree, h.trees]

theorem World.Idle.agent? {v v' : World K B} (h : v.Idle v') (t : TreeId) (a : K) :
    v'.agent? t a = v.agent? t a := by
  rw [World.agent?, World.agent?, h.tree]

theorem World.Resumes.tree {t : TreeId} {a : K} {v v' : World K B} (h : v.Resumes t a v')
    (u : TreeId) : v'.tree u = v.tree u := by
  rw [World.tree, World.tree, h.trees]

/-- The repeated dispatch of the instruction a tick was suspended at leads back to where
the tick was. -/
theorem World.Resumes.dispatch {t : TreeId} {a : K} {v v' : World K B} {index : Nat}
    (h : v.Resumes t a v') (hmark : mark t a v.journal = some (index, false)) :
    v.Idle (v'.log (.dispatched t a index)) where
  trees := h.trees
  registries := h.registries
  ambient := h.ambient
  marks := by
    intro u b
    by_cases hub : t = u ∧ a = b
    · obtain ⟨rfl, rfl⟩ := hub
      simp [World.log, mark, hmark]
    · simp only [World.log, mark, if_neg hub, h.others u b hub]
  collapsed := by
    have hrepeated : (Event.dispatched t a index).Interim v'.journal := by
      simp [Event.Interim, h.own, hmark]
    exact (collapse_cons_of_interim hrepeated).trans h.collapsed

theorem Follows.idle {schedule : Progression} {w : World K A} {v v' : World K (A × Progression)}
    (h : Follows schedule w v) (hv : v.Idle v') : Follows schedule w v' where
  trees := hv.trees.trans h.trees
  registries := hv.registries.trans h.registries
  ambient := hv.ambient.trans h.ambient
  marks := fun t a => (hv.marks t a).trans (h.marks t a)
  collapsed := hv.collapsed.trans h.collapsed

/-- What is done from a frame comes to something in the end, over so many ticks of an
agent as it takes. -/
inductive Eventually (t : TreeId) (a : K)
    (go : Frame → World K B → Outcome (World K B) Progress)
    (goal : Progress → World K B → Prop) : Frame → World K B → Prop where
  | now {f : Frame} {v v' : World K B} {p : Progress} :
      go f v = .done p v' → goal p v' → Eventually t a go goal f v
  | later {f : Frame} {v v₁ : World K B} {s : AgentState} :
      go f v = .done (.ended (.ok .running) s) v₁ →
      (∀ v₂, v₁.Resumes t a v₂ → Eventually t a go goal (.begin s) v₂) →
      Eventually t a go goal f v

/-- Ticks come to something in the end, whatever idle worlds lie between them. -/
inductive EventuallyTicks (tick : World K B → Outcome (World K B) (Except RunError Status))
    (goal : World K B → Prop) (status : Status) : World K B → Prop where
  | now {v v' : World K B} :
      tick v = .done (.ok status) v' → goal v' → EventuallyTicks tick goal status v
  | later {v v₁ : World K B} :
      tick v = .done (.ok .running) v₁ →
      (∀ v₂, v₁.Idle v₂ → EventuallyTicks tick goal status v₂) →
      EventuallyTicks tick goal status v

end

/-! ## Steps -/

/-- Two frames a walk goes on from alike. What the agent's state says about where it
stands is out of date while the walk lasts. -/
structure Frame.Like (f g : Frame) : Prop where
  cursor : g.cursor = f.cursor
  resumed : g.resumed = f.resumed
  state : g.state.rewind = f.state.rewind

/-- Two steps that came to the same, or to frames that are alike. -/
def Progress.Like : Progress → Progress → Prop
  | .underway f, .underway g => f.Like g
  | .ended r s, .ended r' s' => r' = r ∧ s' = s
  | _, _ => False

/-- A step that did not suspend the walk, nor stop it with an error. -/
def Progress.Concludes : Progress → Prop
  | .underway _ => True
  | .ended r _ => ∃ status, r = .ok status ∧ status ≠ .running

/-- Runs answered by one handler, in delayed trees, come to what runs answered by the other
come to. -/
def Handler.FollowedBy (handler : Handler K A) (handler' : Handler K (A × Progression)) : Prop :=
  ∀ {t a w status w' m v}, handler (.run t a) w = .done (.ok status) w' → status ≠ .running →
    Follows { visits := m } w v →
    EventuallyTicks (handler' (.run t a)) (fun v' => ∃ m, Follows { visits := m } w' v') status v

theorem Frame.Like.refl (f : Frame) : f.Like f := ⟨rfl, rfl, rfl⟩

theorem Progress.Like.refl (p : Progress) : p.Like p := by
  cases p with
  | underway f => exact Frame.Like.refl f
  | ended r s => exact ⟨rfl, rfl⟩

theorem AgentState.rewind_setBoard {s s' : AgentState} (h : s'.rewind = s.rewind)
    (board : Blackboard) :
    AgentState.rewind { s' with board := board } = AgentState.rewind { s with board := board } := by
  have hcounters := congrArg AgentState.counters h
  simp only [AgentState.rewind] at hcounters ⊢
  rw [hcounters]

namespace Tick

variable {tick : Tick K A} {delays : Nat → Nat} {handler : Handler K A}
  {handler' : Handler K (A × Progression)} {w w₁ : World K A} {v : World K (A × Progression)}

section

variable (hfree : tick.tree.config.effectiveLimit = none)

include hfree

omit [DecidableEq K] hfree in
theorem get?_delayed (delays : Nat → Nat) {c : Nat} {i : Instruction Nat K A}
    (hget : tick.tree.program.get? c = some i) :
    (tick.delayed delays).tree.program.get? c =
      some ⟨i.op.delayed delays, i.onSuccess, i.onFail⟩ :=
  (Program.get?_delayed delays tick.tree.program c).trans (by rw [hget]; rfl)

theorem advance_task_delayed {task : RunnableTask K A} {c : Nat} {i : Instruction Nat K A}
    (hget : tick.tree.program.get? c = some i) (hop : i.op = .task task) {g : Frame}
    (hcursor : g.cursor = c) {answer : Status × Blackboard} {v' : World K (A × Progression)}
    (hvisit : (tick.delayed delays).visit handler' c (task.delayed delays) g.resumed g.state.board
      (v.log (.dispatched tick.id tick.agent c)) = .done answer v') :
    (tick.delayed delays).advance handler' g v =
      .done (follow g (.ofStatus i answer.1, { g.state with board := answer.2 })) v' := by
  obtain ⟨op, yes, no⟩ := i
  subst hop hcursor
  rw [advance_of_get? (tick.delayed delays) handler' g hfree (get?_delayed delays hget),
    dispatch_task _ _ rfl]
  rw [show (tick.delayed delays).visit handler' g.cursor (task.delayed delays) g.resumed
    g.state.board (v.log (.dispatched (tick.delayed delays).id (tick.delayed delays).agent
      g.cursor)) = .done answer v' from hvisit]
  rfl

/-- A visit is eventually made: `k` times it still has to wait. -/
theorem visit_eventually {task : RunnableTask K A} (hq : task.Asks Request.Quiet) {c : Nat}
    {i : Instruction Nat K A} (hget : tick.tree.program.get? c = some i) (hop : i.op = .task task)
    {board board' : Blackboard} {status : Status} (hstatus : status.isDone = true)
    (hmark : mark tick.id tick.agent w.journal = some (c, false))
    (hvisit : tick.visit handler c task true board w = .done (status, board') w₁)
    {s : AgentState} {spent k : Nat} {schedule : Progression}
    (hk : schedule.waited + k = delays schedule.visits) {g : Frame} (hcursor : g.cursor = c)
    (hstate : AgentState.rewind { g.state with board := board' } =
      AgentState.rewind { s with board := board' })
    {v₀ : World K (A × Progression)} (h : Follows schedule w v₀)
    (hreach : (tick.delayed delays).visit handler' c (task.delayed delays) g.resumed g.state.board
        (v.log (.dispatched tick.id tick.agent c)) =
      (tick.delayed delays).visit handler' c (task.delayed delays) true board v₀) :
    Eventually tick.id tick.agent ((tick.delayed delays).advance handler')
      (fun p v' => Progress.Like
          (.underway ⟨i.exit status, false, spent, { s with board := board' }⟩) p ∧
        ∃ m, Follows { visits := m } w₁ v') g v := by
  induction k generalizing schedule g v v₀ with
  | zero =>
    obtain ⟨v', hdone, hfollows⟩ := visit_concluding handler' hq h
      (by omega : ¬ schedule.waited < delays schedule.visits) hvisit
    have hstep := advance_task_delayed hfree hget hop hcursor (hreach.trans hdone)
    rw [Move.ofStatus, if_pos hstatus] at hstep
    exact .now hstep ⟨⟨rfl, rfl, hstate⟩, _, hfollows⟩
  | succ k ih =>
    obtain ⟨v', hdone, hfollows⟩ := visit_waiting tick handler' c task h
      (by omega : schedule.waited < delays schedule.visits) board
    have hstep := advance_task_delayed hfree hget hop hcursor (hreach.trans hdone)
    refine .later hstep fun v₂ hresumes => ?_
    have hidle := hresumes.dispatch (by rw [hfollows.marks, hmark])
    have hk' : ({ schedule with waited := schedule.waited + 1 } : Progression).waited + k =
        delays schedule.visits := by
      simp only
      omega
    exact ih hk' hcursor hstate (hfollows.idle hidle) rfl

omit hfree in
theorem visit_of_beginVisit {B : Type} {tick : Tick K B} {handler : Handler K B} {index : Nat}
    {task : RunnableTask K B} {board board₁ : Blackboard} {w w₁ : World K B}
    (h : tick.beginVisit handler index task board w = .done board₁ w₁) :
    tick.visit handler index task false board w = tick.visit handler index task true board₁ w₁ := by
  simp [visit, h]

omit hfree in
theorem beginVisit_mark {task : RunnableTask K A} (hq : task.Asks Request.Quiet) {index : Nat}
    {board board₁ : Blackboard} (h : tick.beginVisit handler index task board w = .done board₁ w₁) :
    mark tick.id tick.agent w₁.journal = mark tick.id tick.agent w.journal := by
  rw [beginVisit] at h
  cases hstart : task.start with
  | none =>
    rw [hstart] at h
    cases h
    rfl
  | some hook =>
    rw [hstart] at h
    obtain ⟨answer, hperform, rfl⟩ := Outcome.map_eq_done_iff.1 h
    rw [(Hook.perform_spares (hq.start hstart _) hperform tick.id).mark]
    rfl

theorem task_eventually {task : RunnableTask K A} (hq : task.Asks Request.Quiet) {f : Frame}
    {i : Instruction Nat K A} (hget : tick.tree.program.get? f.cursor = some i)
    (hop : i.op = .task task) {board' : Blackboard} {status : Status}
    (hstatus : status.isDone = true)
    (hvisit : tick.visit handler f.cursor task f.resumed f.state.board
      (w.log (.dispatched tick.id tick.agent f.cursor)) = .done (status, board') w₁)
    {m spent : Nat} (h : Follows { visits := m } w v) :
    Eventually tick.id tick.agent ((tick.delayed delays).advance handler')
      (fun p v' => Progress.Like
          (.underway ⟨i.exit status, false, spent, { f.state with board := board' }⟩) p ∧
        ∃ m, Follows { visits := m } w₁ v') f v := by
  have hlogged := h.log (.dispatched tick.id tick.agent f.cursor)
  have hmark : mark tick.id tick.agent
      (w.log (.dispatched tick.id tick.agent f.cursor)).journal = some (f.cursor, false) := by
    simp [World.log, mark]
  cases hresumed : f.resumed with
  | true =>
    rw [hresumed] at hvisit
    exact visit_eventually hfree hq hget hop hstatus hmark hvisit (k := delays m)
      (Nat.zero_add _) rfl rfl hlogged (by rw [hresumed])
  | false =>
    rw [hresumed] at hvisit
    cases hbegin : tick.beginVisit handler f.cursor task f.state.board
        (w.log (.dispatched tick.id tick.agent f.cursor)) with
    | cutOff w₂ => simp [visit, hbegin] at hvisit
    | done board₁ w₂ =>
      rw [visit_of_beginVisit hbegin] at hvisit
      have hstart := beginVisit_follows tick delays handler handler' f.cursor hq f.state.board
        hlogged
      rw [hbegin] at hstart
      obtain ⟨v₂, hbegin', h₂⟩ := hstart.done_inv
      exact visit_eventually hfree hq hget hop hstatus ((beginVisit_mark hq hbegin).trans hmark)
        hvisit (k := delays m) (Nat.zero_add _) rfl rfl h₂
        (by rw [hresumed]; exact visit_of_beginVisit hbegin')

/-- A link is eventually passed, if the ticks of the linked tree come to its status. While
these last, the tree of the link is ticking, so they leave it alone. -/
theorem link_eventually (hs : handler'.Spares) {link : Link} {c : Nat} {i : Instruction Nat K A}
    (hget : tick.tree.program.get? c = some i) (hop : i.op = .subTree link) {status : Status}
    (hstatus : status.isDone = true) {s : AgentState} {spent : Nat}
    {v₀ : World K (A × Progression)}
    (hticks : EventuallyTicks (handler' (.run link.tree tick.agent))
      (fun v' => ∃ m, Follows { visits := m } w₁ v') status v₀)
    {g : Frame} (hcursor : g.cursor = c) (hstate : g.state.rewind = s.rewind)
    (hreach : v₀ = v.log (.dispatched tick.id tick.agent c))
    (hrunning : (v.tree tick.id).running) :
    Eventually tick.id tick.agent ((tick.delayed delays).advance handler')
      (fun p v' => Progress.Like (.underway ⟨i.exit status, false, spent, s⟩) p ∧
        ∃ m, Follows { visits := m } w₁ v') g v := by
  have hget' := get?_delayed delays hget
  rw [hop] at hget'
  induction hticks generalizing g v with
  | @now v₀ v' hrun hgoal =>
    subst hreach hcursor
    have hstep := advance_of_get? (tick.delayed delays) handler' g hfree hget' v
    rw [dispatch_subTree _ _ rfl] at hstep
    rw [show handler' (.run link.tree (tick.delayed delays).agent)
      (v.log (.dispatched (tick.delayed delays).id (tick.delayed delays).agent g.cursor)) =
        .done (.ok status) v' from hrun] at hstep
    simp only [Outcome.bind_done, Outcome.map, Move.ofStatus, if_pos hstatus] at hstep
    exact .now hstep ⟨⟨rfl, rfl, hstate⟩, hgoal⟩
  | @later v₀ v₁ hrun _ ih =>
    subst hreach hcursor
    have hstep := advance_of_get? (tick.delayed delays) handler' g hfree hget' v
    rw [dispatch_subTree _ _ rfl] at hstep
    rw [show handler' (.run link.tree (tick.delayed delays).agent)
      (v.log (.dispatched (tick.delayed delays).id (tick.delayed delays).agent g.cursor)) =
        .done (.ok .running) v₁ from hrun] at hstep
    have hspared := hs hrun hrunning
    refine .later hstep fun v₂ hresumes => ?_
    have hmark : mark tick.id tick.agent v₁.journal = some (g.cursor, false) := by
      rw [hspared.mark]
      simp [World.log, mark]
    have hidle := hresumes.dispatch hmark
    refine ih _ hidle rfl hstate rfl ?_
    rw [hresumes.tree, hspared.tree]
    exact hrunning

/-- A step that does not suspend the original is eventually made in the delayed forest. -/
theorem advance_eventually (delays : Nat → Nat) (hq : tick.Quiet) (hs : handler'.Spares)
    (hd : handler.FollowedBy handler') {f : Frame} {p : Progress}
    (hadv : tick.advance handler f w = .done p w₁) (hp : p.Concludes)
    (hrunning : (w.tree tick.id).running) {m : Nat} (h : Follows { visits := m } w v) :
    Eventually tick.id tick.agent ((tick.delayed delays).advance handler')
      (fun p' v' => p.Like p' ∧ ∃ m, Follows { visits := m } w₁ v') f v := by
  cases hget : tick.tree.program.get? f.cursor with
  | none =>
    have hget' : (tick.delayed delays).tree.program.get? f.cursor = none :=
      (Program.get?_delayed delays tick.tree.program f.cursor).trans (by rw [hget]; rfl)
    rw [advance, hget] at hadv
    cases hadv
    have hstep : (tick.delayed delays).advance handler' f v =
        .done (.ended (tick.resultAt f.cursor) f.state.rewind) v := by
      rw [advance, hget']
      simp only [resultAt, Program.terminalStatus, Program.successIndex, Program.failIndex,
        delayed, Tree.delayed, Program.length_delayed]
      rfl
    exact .now hstep ⟨⟨rfl, rfl⟩, m, h⟩
  | some i =>
    rw [advance_of_get? _ _ _ hfree hget] at hadv
    obtain ⟨⟨move, s⟩, hdispatch, rfl⟩ := Outcome.map_eq_done_iff.1 hadv
    have hother (htask : ∀ task, i.op ≠ .task task) (hlink : ∀ link, i.op ≠ .subTree link) :
        Eventually tick.id tick.agent ((tick.delayed delays).advance handler')
          (fun p' v' => (follow f (move, s)).Like p' ∧ ∃ m, Follows { visits := m } w₁ v') f v := by
      have hsame := dispatch_follows tick delays handler handler' f.cursor htask hlink i.onSuccess
        i.onFail f.resumed
        f.state (h.log (.dispatched tick.id tick.agent f.cursor))
      rw [show tick.dispatch handler f.cursor f.resumed ⟨i.op, i.onSuccess, i.onFail⟩ f.state _ =
        .done (move, s) w₁ from hdispatch] at hsame
      obtain ⟨v₁, hv, h₁⟩ := hsame.done_inv
      have hstep := advance_of_get? (tick.delayed delays) handler' f hfree
        (get?_delayed delays hget) v
      rw [show (tick.delayed delays).dispatch handler' f.cursor f.resumed _ f.state
        (v.log (.dispatched (tick.delayed delays).id (tick.delayed delays).agent f.cursor)) =
          .done (move, s) v₁ from hv] at hstep
      exact .now hstep ⟨.refl _, m, h₁⟩
    cases hop : i.op with
    | task task =>
      rw [dispatch_task _ _ hop, Outcome.bind_eq_done_iff] at hdispatch
      obtain ⟨⟨status, board⟩, w₂, hvisit, hdone⟩ := hdispatch
      cases hdone
      have hquiet : task.Asks Request.Quiet := quiet_task hq hget hop
      cases status with
      | running =>
        obtain ⟨status, hstatus, hne⟩ := hp
        exact absurd (Except.ok.inj hstatus).symm hne
      | success => exact task_eventually hfree hquiet hget hop rfl hvisit h
      | failure => exact task_eventually hfree hquiet hget hop rfl hvisit h
    | subTree link =>
      rw [dispatch_subTree _ _ hop, Outcome.bind_eq_done_iff] at hdispatch
      obtain ⟨result, w₂, hrun, hdone⟩ := hdispatch
      cases result with
      | error e =>
        cases hdone
        obtain ⟨status, hstatus, -⟩ := hp
        cases hstatus
      | ok status =>
        cases hdone
        have hticks := fun hne => hd hrun hne (h.log (.dispatched tick.id tick.agent f.cursor))
        have hrunning' : (v.tree tick.id).running := by rw [h.tree, hrunning]
        cases status with
        | running =>
          obtain ⟨status, hstatus, hne⟩ := hp
          exact absurd (Except.ok.inj hstatus).symm hne
        | success =>
          exact link_eventually hfree hs hget hop rfl (hticks (by simp)) rfl rfl rfl hrunning'
        | failure =>
          exact link_eventually hfree hs hget hop rfl (hticks (by simp)) rfl rfl rfl hrunning'
    | _ => exact hother (by simp [hop]) (by simp [hop])

end

/-! ## Walks -/

section

variable {B : Type} {tick : Tick K B} {handler : Handler K B} {w w' : World K B}

theorem dispatch_like {index : Nat} {resumed : Bool} {i : Instruction Nat K B}
    {s s' s₁ : AgentState} {move : Move} (hs : s'.rewind = s.rewind)
    (h : tick.dispatch handler index resumed i s w = .done (move, s₁) w') :
    ∃ s₁', tick.dispatch handler index resumed i s' w = .done (move, s₁') w' ∧
      s₁'.rewind = s₁.rewind := by
  have hboard : s'.board = s.board := (congrArg AgentState.board hs :)
  obtain ⟨op, yes, no⟩ := i
  cases op with
  | task task =>
    rw [dispatch_task _ _ rfl, Outcome.bind_eq_done_iff] at h
    obtain ⟨answer, w₂, hvisit, hdone⟩ := h
    cases hdone
    rw [dispatch_task _ _ rfl, hboard, hvisit]
    exact ⟨_, rfl, AgentState.rewind_setBoard hs _⟩
  | query q =>
    simp only [dispatch, hboard] at h ⊢
    split at h <;> cases h <;> exact ⟨s', rfl, hs⟩
  | subTree link =>
    rw [dispatch_subTree _ _ rfl, Outcome.bind_eq_done_iff] at h
    obtain ⟨result, w₂, hrun, hdone⟩ := h
    rw [dispatch_subTree _ _ rfl, hrun]
    cases result with
    | ok status =>
      cases hdone
      exact ⟨s', rfl, hs⟩
    | error e =>
      cases hdone
      exact ⟨s', rfl, hs⟩
  | randomBranch table =>
    cases table with
    | nil =>
      cases h
      exact ⟨s', rfl, hs⟩
    | cons first rest =>
      obtain ⟨⟨place, drawn⟩, hdraw⟩ : ∃ p,
          Random.draw tick.tree.words (rest.length + 1) (w.tree tick.id).drawn = p := ⟨_, rfl⟩
      rw [dispatch_randomBranch _ _ rfl _ _ _ _ hdraw] at h ⊢
      cases h
      exact ⟨s', rfl, hs⟩
  | repeatStart counter =>
    cases h
    refine ⟨_, rfl, ?_⟩
    have hcounters : s'.counters = s.counters := (congrArg AgentState.counters hs :)
    simp only [AgentState.setRounds, AgentState.rewind, hboard, hcounters]
  | repeatCounter goal body =>
    have hcounters : s'.counters = s.counters := (congrArg AgentState.counters hs :)
    have hrounds : s'.rounds index = s.rounds index := by
      rw [AgentState.rounds, AgentState.rounds, hcounters]
    cases h
    simp only [dispatch, hrounds]
    refine ⟨_, rfl, ?_⟩
    simp only [AgentState.setRounds, AgentState.rewind, hboard, hcounters]
  | hangingSucceed | hangingFail =>
    cases h
    exact ⟨s', rfl, hs⟩

theorem advance_like (hfree : tick.tree.config.effectiveLimit = none) {f g : Frame}
    (hfg : f.Like g) {p : Progress} (h : tick.advance handler f w = .done p w') :
    ∃ p', tick.advance handler g w = .done p' w' ∧ p.Like p' := by
  cases hget : tick.tree.program.get? f.cursor with
  | none =>
    rw [advance, hget] at h
    cases h
    refine ⟨.ended (tick.resultAt f.cursor) g.state.rewind, ?_, rfl, hfg.state⟩
    rw [advance, hfg.cursor, hget]
  | some i =>
    rw [advance_of_get? _ _ _ hfree hget] at h
    obtain ⟨⟨move, s⟩, hdispatch, rfl⟩ := Outcome.map_eq_done_iff.1 h
    obtain ⟨s', hdispatch', hs'⟩ := dispatch_like hfg.state hdispatch
    rw [advance_of_get? _ _ _ hfree (by rw [hfg.cursor, hget]), hfg.cursor, hfg.resumed, hdispatch']
    refine ⟨_, rfl, ?_⟩
    cases move with
    | goto index => exact ⟨rfl, rfl, hs'⟩
    | suspend =>
      refine ⟨rfl, ?_⟩
      rw [hfg.cursor]
      exact (congrArg (fun s : AgentState => s.suspendAt f.cursor) hs' :)
    | stop e => exact ⟨rfl, hs'⟩

theorem walk_like (hfree : tick.tree.config.effectiveLimit = none) {n : Nat} {f g : Frame}
    (hfg : f.Like g) {p : Progress} (h : tick.walk handler n f w = .done p w') :
    ∃ p', tick.walk handler n g w = .done p' w' ∧ p.Like p' := by
  induction n generalizing f g w with
  | zero =>
    cases h
    exact ⟨_, rfl, hfg⟩
  | succ n ih =>
    rw [walk_succ, Outcome.bind_eq_done_iff] at h
    obtain ⟨p₁, w₁, hstep, hrest⟩ := h
    obtain ⟨p₂, hstep', hlike⟩ := advance_like hfree hfg hstep
    rw [walk_succ, hstep', Outcome.bind_done]
    cases p₁ with
    | underway f₁ =>
      cases p₂ with
      | underway g₁ => exact ih hlike hrest
      | ended r s => exact hlike.elim
    | ended r s =>
      cases p₂ with
      | underway g₁ => exact hlike.elim
      | ended r' s' =>
        obtain ⟨rfl, rfl⟩ := hlike
        cases hrest
        exact ⟨_, rfl, rfl, rfl⟩

/-- A walk that has ended in the end also does under a larger bound. -/
theorem eventually_walk_succ (tick : Tick K B) {n : Nat} {r : Except RunError Status}
    {s : AgentState}
    {goal : World K B → Prop} {f : Frame} {v : World K B}
    (h : Eventually tick.id tick.agent (tick.walk handler n)
      (fun p v' => p = .ended r s ∧ goal v') f v) :
    Eventually tick.id tick.agent (tick.walk handler (n + 1))
      (fun p v' => p = .ended r s ∧ goal v') f v := by
  induction h with
  | now hwalk hgoal =>
    obtain ⟨rfl, hgoal⟩ := hgoal
    exact .now (walk_mono hwalk (Nat.le_succ n)) ⟨rfl, hgoal⟩
  | later hwalk _ ih => exact .later (walk_mono hwalk (Nat.le_succ n)) ih

/-- A walk that is eventually made from a frame is from every frame like it. -/
theorem eventually_walk_like (tick : Tick K B) (hfree : tick.tree.config.effectiveLimit = none)
    {n : Nat}
    {r : Except RunError Status} {s : AgentState} {goal : World K B → Prop} {f g : Frame}
    {v : World K B} (hfg : f.Like g)
    (h : Eventually tick.id tick.agent (tick.walk handler n)
      (fun p v' => p = .ended r s ∧ goal v') f v) :
    Eventually tick.id tick.agent (tick.walk handler n)
      (fun p v' => p = .ended r s ∧ goal v') g v := by
  cases h with
  | now hwalk hgoal =>
    obtain ⟨rfl, hgoal⟩ := hgoal
    obtain ⟨p', hwalk', hlike⟩ := walk_like hfree hfg hwalk
    cases p' with
    | underway g₁ => exact hlike.elim
    | ended r' s' =>
      obtain ⟨rfl, rfl⟩ := hlike
      exact .now hwalk' ⟨rfl, hgoal⟩
  | later hwalk hnext =>
    obtain ⟨p', hwalk', hlike⟩ := walk_like hfree hfg hwalk
    cases p' with
    | underway g₁ => exact hlike.elim
    | ended r' s' =>
      obtain ⟨rfl, rfl⟩ := hlike
      exact .later hwalk' hnext

end

theorem walk_eventually (delays : Nat → Nat) (hfree : tick.tree.config.effectiveLimit = none)
    (hq : tick.Quiet)
    (hh : handler.Spares) (hs : handler'.Spares) (hd : handler.FollowedBy handler') {n : Nat}
    {f : Frame} {status : Status} {s : AgentState}
    (hwalk : tick.walk handler n f w = .done (.ended (.ok status) s) w₁)
    (hstatus : status ≠ .running) (hrunning : (w.tree tick.id).running) {m : Nat}
    (h : Follows { visits := m } w v) :
    Eventually tick.id tick.agent ((tick.delayed delays).walk handler' n)
      (fun p v' => p = .ended (.ok status) s ∧ ∃ m, Follows { visits := m } w₁ v') f v := by
  induction n generalizing f w v m with
  | zero => cases hwalk
  | succ n ih =>
    rw [walk_succ, Outcome.bind_eq_done_iff] at hwalk
    obtain ⟨p, w₂, hstep, hrest⟩ := hwalk
    have hconcludes : p.Concludes := by
      cases p with
      | underway f₁ => trivial
      | ended r s₁ =>
        cases hrest
        exact ⟨status, rfl, hstatus⟩
    have hrunning₂ : (w₂.tree tick.id).running := by
      rw [(advance_confined hq hh hrunning hstep).running, hrunning]
    have heventually := advance_eventually hfree delays hq hs hd hstep hconcludes
      hrunning h
    clear h hstep
    -- The step may take several ticks; the rest of the walk is made in the last of them.
    induction heventually with
    | @now g v v' p' hadv hgoal =>
      obtain ⟨hlike, m', hfollows⟩ := hgoal
      cases p with
      | ended r s₁ =>
        cases hrest
        cases p' with
        | underway g₁ => exact hlike.elim
        | ended r' s' =>
          obtain ⟨rfl, rfl⟩ := hlike
          exact .now (by rw [walk_succ, hadv]; rfl) ⟨rfl, m', hfollows⟩
      | underway f₁ =>
        cases p' with
        | ended r' s' => exact hlike.elim
        | underway g₁ =>
          have hnext := eventually_walk_like (tick.delayed delays) hfree hlike
            (ih hrest hrunning₂ hfollows)
          have hjoin : ∀ {p₂ v₂}, (tick.delayed delays).walk handler' n g₁ v' = .done p₂ v₂ →
              (tick.delayed delays).walk handler' (n + 1) g v = .done p₂ v₂ := by
            intro p₂ v₂ hwalk'
            rw [walk_succ, hadv]
            exact hwalk'
          cases hnext with
          | now hwalk' hgoal' => exact .now (hjoin hwalk') hgoal'
          | later hwalk' hlater =>
            exact .later (hjoin hwalk') fun v₂ hresumes =>
              eventually_walk_succ (tick.delayed delays) (hlater v₂ hresumes)
    | later hadv _ ihlater =>
      exact .later (by rw [walk_succ, hadv]; rfl) ihlater

/-- A walk that suspends an agent suspends it at an instruction. -/
theorem walk_running {B : Type} {tick : Tick K B} {handler : Handler K B} {n : Nat} {f : Frame}
    {v v' : World K B} {s : AgentState}
    (h : tick.walk handler n f v = .done (.ended (.ok .running) s) v') :
    s.cursor < tick.tree.program.length := by
  induction n generalizing f v with
  | zero => cases h
  | succ n ih =>
    rw [walk_succ, Outcome.bind_eq_done_iff] at h
    obtain ⟨p, v₁, hstep, hrest⟩ := h
    cases p with
    | underway f₁ => exact ih hrest
    | ended r s₁ =>
      cases hrest
      rw [advance] at hstep
      cases hget : tick.tree.program.get? f.cursor with
      | none =>
        simp only [hget, Outcome.done.injEq, Progress.ended.injEq] at hstep
        have hresult := hstep.1.1
        rw [resultAt, Program.terminalStatus] at hresult
        by_cases hsuccess : f.cursor = tick.tree.program.successIndex
        · rw [if_pos hsuccess] at hresult
          cases hresult
        · by_cases hfail : f.cursor = tick.tree.program.failIndex
          · rw [if_neg hsuccess, if_pos hfail] at hresult
            cases hresult
          · rw [if_neg hsuccess, if_neg hfail] at hresult
            cases hresult
      | some i =>
        simp only [hget] at hstep
        cases hex : tick.exhausted f with
        | some limit => simp [hex] at hstep
        | none =>
          rw [hex] at hstep
          obtain ⟨⟨move, s'⟩, -, hfollow⟩ := Outcome.map_eq_done_iff.1 hstep
          cases move with
          | goto index => cases hfollow
          | stop e => cases hfollow
          | suspend =>
            cases hfollow
            exact (List.getElem?_eq_some_iff.1 hget).1

end Tick

/-! ## Runs -/

section

variable {B : Type} {v v₁ v₂ : World K B} {t : TreeId}

omit [DecidableEq K] in
theorem World.trees_modifyTree_congr (h : v₁.trees = v₂.trees) (t : TreeId)
    (f : TreeState K → TreeState K) : (v₁.modifyTree t f).trees = (v₂.modifyTree t f).trees := by
  simp only [modifyTree, tree, h]

omit [DecidableEq K] in
theorem World.modifyTree_modifyTree (v : World K B) (t : TreeId)
    (f g : TreeState K → TreeState K) :
    (v.modifyTree t f).modifyTree t g = v.modifyTree t (g ∘ f) := by
  simp [modifyTree, tree]

omit [DecidableEq K] in
/-- A change that leaves the state of a tree in use as it is changes nothing. -/
theorem World.trees_modifyTree_self {f : TreeState K → TreeState K}
    (hrunning : (v.tree t).running = true) (hf : f (v.tree t) = v.tree t) :
    (v.modifyTree t f).trees = v.trees := by
  have hget : v.trees.get? t = some (v.tree t) := by
    rw [tree] at hrunning ⊢
    cases hget : v.trees.get? t with
    | none => simp [hget] at hrunning
    | some state => rfl
  simp only [modifyTree, hf, Table.set_of_get? hget]

/-- Leaving a tree with an agent suspended and entering it again leads back to where the
tick was. -/
theorem World.resumes_reentered {a : K} {s : AgentState} (hrunning : (v₁.tree t).running = true)
    (hagent : v₁.agent? t a = none)
    (h : World.Idle ((v₁.checkIn t a s).leave t a (.ok .running)) v₂) :
    v₁.Resumes t a ((v₂.enter t a).checkOut t a) where
  trees := by
    have hback : (v₁.modifyTree t fun x =>
        { x with running := true, agents := (x.agents.set a s).erase a }).trees = v₁.trees := by
      refine World.trees_modifyTree_self hrunning ?_
      have hagents : (v₁.tree t).agents.get? a = none := hagent
      simp only [Table.erase_set, Table.erase_of_get? hagents]
      rw [← hrunning]
    have hfold : ((v₂.enter t a).checkOut t a).trees =
        (v₂.modifyTree t fun x =>
          { x with running := true, agents := x.agents.erase a }).trees :=
      (congrArg World.trees (World.modifyTree_modifyTree v₂ t (fun x => { x with running := true })
        fun x => { x with agents := x.agents.erase a }) :)
    rw [hfold, World.trees_modifyTree_congr h.trees]
    have hsuspended : ((v₁.checkIn t a s).leave t a (.ok .running)).trees =
        (v₁.modifyTree t fun x => { x with running := false, agents := x.agents.set a s }).trees :=
      (congrArg World.trees (World.modifyTree_modifyTree v₁ t
        (fun x => { x with agents := x.agents.set a s }) fun x => { x with running := false }) :)
    rw [World.trees_modifyTree_congr hsuspended, World.modifyTree_modifyTree]
    exact hback
  registries := h.registries
  ambient := h.ambient
  own := by
    have hown := h.marks t a
    simp only [leave, log, mark] at hown
    simp only [checkOut, enter, log, modifyTree, mark, hown]
    simp [checkIn, modifyTree]
  others := by
    intro u b hub
    have hother := h.marks u b
    simp only [leave, log, mark, if_neg hub] at hother
    simp only [checkOut, enter, log, modifyTree, mark, hother]
    rfl
  collapsed := by
    have hcollapsed := h.collapsed
    have hentered : (Event.entered t a).Interim v₂.journal := trivial
    have hleft : (Event.left t a (.ok .running)).Interim v₁.journal := rfl
    exact (collapse_cons_of_interim hentered).trans
      (hcollapsed.trans (collapse_cons_of_interim hleft))

end

namespace Forest

variable {F : Forest K A} {delays : Nat → Nat} {handler : Handler K A}
  {handler' : Handler K (A × Progression)} {t : TreeId} {a : K}

omit [DecidableEq K] in
theorem tickOf_delayed (t : TreeId) (a : K) :
    (F.delayed delays).tickOf t a = (F.tickOf t a).delayed delays := by
  simp only [tickOf, tree_delayed, Tick.delayed]

/-- A tick that is eventually walked is eventually run. -/
theorem run_of_eventually (hF : F.Asks Request.Quiet) (hs : handler'.Spares) {n : Nat}
    {status : Status} {s' : AgentState} {w₁ : World K A}
    (hpoisoned₁ : (w₁.tree t).poisoned = false) {f : Frame} {v₀ v : World K (A × Progression)}
    (h : Eventually t a (((F.tickOf t a).delayed delays).walk handler' n)
      (fun p v' => p = .ended (.ok status) s' ∧ ∃ m, Follows { visits := m } w₁ v') f v₀)
    (hf : f = .begin (v.state t a)) (hv₀ : v₀ = (v.enter t a).checkOut t a)
    (hrunning : (v.tree t).running = false) (hpoisoned : (v.tree t).poisoned = false)
    (hcursor : (v.state t a).cursor < (F.tree t).program.length) :
    EventuallyTicks ((F.delayed delays).run handler' n t a)
      (fun v' => ∃ m, Follows { visits := m } ((w₁.checkIn t a s').leave t a (.ok status)) v')
      status v := by
  have hin : (v.state t a).cursor < ((F.tickOf t a).delayed delays).tree.program.length := by
    simpa [Tick.delayed, Tree.delayed] using hcursor
  induction h generalizing v with
  | @now f v₀ v' p hwalk hgoal =>
    obtain ⟨rfl, m, hfollows⟩ := hgoal
    subst hf hv₀
    have hperform := Tick.perform_of_walk hin hwalk
    rw [← tickOf_delayed] at hperform
    have hrun := run_of_perform hrunning hpoisoned hperform (by rw [hfollows.tree, hpoisoned₁])
    exact .now hrun ⟨m, ((hfollows.checkIn t a s').modifyTree t _).log _⟩
  | @later f v₀ v₁ s₁ hwalk _ ih =>
    subst hf hv₀
    have hconfined : Tick.Confined ((F.tickOf t a).delayed delays) _ v₁ := Tick.walk_confined
      (by rw [← tickOf_delayed]; exact delayed_quiet delays hF t) hs
      (by simp [Tick.delayed]) hwalk
    have hperform := Tick.perform_of_walk hin hwalk
    rw [← tickOf_delayed] at hperform
    have hrunning₁ : (v₁.tree t).running = true :=
      hconfined.running.trans (by simp [Tick.delayed])
    have hpoisoned₂ : (v₁.tree t).poisoned = false :=
      hconfined.poisoned.trans (by simpa [Tick.delayed] using hpoisoned)
    have hagent : v₁.agent? t a = none :=
      (hconfined.agent? a).trans (by simp [Tick.delayed, World.agent?_checkOut])
    have hrun := run_of_perform hrunning hpoisoned hperform hpoisoned₂
    refine .later hrun fun v₂ hidle => ?_
    have htree := hidle.tree t
    have hagent₂ : v₂.agent? t a = some s₁ := by
      rw [hidle.agent?]
      simp [World.agent?]
    have hstate : v₂.state t a = s₁ := by rw [World.state, hagent₂]; rfl
    have hin₁ := Tick.walk_running hwalk
    refine ih _ (World.resumes_reentered hrunning₁ hagent hidle) (by rw [hstate]) rfl ?_ ?_ ?_ ?_
    · rw [htree]
      simp
    · rw [htree]
      simpa using hpoisoned₂
    · rw [hstate]
      simpa [Tick.delayed, Tree.delayed] using hin₁
    · rw [hstate]
      exact hin₁

theorem run_eventually (hF : F.Asks Request.Quiet)
    (hfree : ∀ t, (F.tree t).config.effectiveLimit = none) (hh : handler.Spares)
    (hs : handler'.Spares) (hd : handler.FollowedBy handler') {n : Nat} {status : Status}
    {w w' : World K A} (h : F.run handler n t a w = .done (.ok status) w')
    (hstatus : status ≠ .running) {m : Nat} {v : World K (A × Progression)}
    (hv : Follows { visits := m } w v) :
    EventuallyTicks ((F.delayed delays).run handler' n t a)
      (fun v' => ∃ m, Follows { visits := m } w' v') status v := by
  cases run_cases h with
  | ticked hrunning hpoisoned hperform hpoisoned₁ =>
    have hstate : v.state t a = w.state t a := by rw [World.state, World.state, hv.agent?]
    have hcursor : (w.state t a).cursor < (F.tree t).program.length := by
      by_cases hout : (F.tree t).program.length ≤ (w.state t a).cursor
      · rw [Tick.perform, if_pos hout] at hperform
        cases hperform
      · omega
    have hwalk := Tick.walk_of_perform hcursor hperform
    have hin : Follows { visits := m } ((w.enter t a).checkOut t a) ((v.enter t a).checkOut t a) :=
      ((hv.modifyTree t _).log _).checkOut t a
    have heventually := Tick.walk_eventually delays (hfree t) (hF t) hh hs hd hwalk
      hstatus (by simp) hin
    rw [← hstate] at heventually hcursor
    exact run_of_eventually hF hs hpoisoned₁ heventually rfl rfl (by rw [hv.tree, hrunning])
      (by rw [hv.tree, hpoisoned]) hcursor

theorem serve_followedBy (hF : F.Asks Request.Quiet)
    (hfree : ∀ t, (F.tree t).config.effectiveLimit = none) (delays : Nat → Nat) (bound : Nat) :
    (F.serve bound).FollowedBy ((F.delayed delays).serve bound) := by
  induction bound with
  | zero =>
    intro t a w status w' m v h
    cases h
  | succ bound ih =>
    intro t a w status w' m v h hstatus hv
    exact run_eventually hF hfree (serve_spares hF bound)
      (serve_spares (delayed_quiet delays hF) bound) ih h hstatus hv

/-- Ticking an agent again and again, up to the first result that is not Running. -/
inductive TicksOn (F : Forest K A) (bound : Nat) (t : TreeId) (a : K) :
    World K A → Except RunError Status → World K A → Prop where
  | last {w w' : World K A} {r : Except RunError Status} :
      F.serve bound (.run t a) w = .done r w' → r ≠ .ok .running → TicksOn F bound t a w r w'
  | again {w w₁ w' : World K A} {r : Except RunError Status} :
      F.serve bound (.run t a) w = .done (.ok .running) w₁ → TicksOn F bound t a w₁ r w' →
      TicksOn F bound t a w r w'

/-- Suspension is transparent: if a tick comes to a status in which nothing is suspended,
then however often the visits of tasks are made to wait, ticking on comes to that status
and to the same world, with a journal that collapses to the same. -/
theorem ticksOn_delayed (hF : F.Asks Request.Quiet)
    (hfree : ∀ t, (F.tree t).config.effectiveLimit = none) (delays : Nat → Nat) {bound : Nat}
    {status : Status} {w w' : World K A}
    (h : F.serve bound (.run t a) w = .done (.ok status) w') (hstatus : status ≠ .running) :
    ∃ v', (F.delayed delays).TicksOn bound t a w.delayed (.ok status) v' ∧
      collapse v'.journal = collapse w'.journal ∧ v'.trees = w'.trees ∧
      v'.registries = w'.registries ∧ v'.ambient.1 = w'.ambient := by
  cases bound with
  | zero => cases h
  | succ bound =>
    have hticks := serve_followedBy hF hfree delays (bound + 1) h hstatus (Follows.delayed w)
    generalize w.delayed = v at hticks
    induction hticks with
    | now hrun hgoal =>
      obtain ⟨m, hfollows⟩ := hgoal
      refine ⟨_, .last hrun (fun heq => hstatus (Except.ok.inj heq)), hfollows.collapsed,
        hfollows.trees, hfollows.registries, by rw [hfollows.ambient]⟩
    | later hrun _ ih =>
      obtain ⟨v', hticks, hsame⟩ := ih _ (.refl _)
      exact ⟨v', .again hrun hticks, hsame⟩

/-- A task in a linked tree, made to wait twice. -/
theorem ticksOn_delayed_twice :
    let act : RunnableTask Unit Unit :=
      ⟨"act", some fun _ => pure (), fun _ => pure (.ok .success), none⟩
    let F : Forest Unit Unit :=
      ⟨[{ program := ⟨[⟨.task act, 1, 2⟩]⟩ }, { program := ⟨[⟨.subTree ⟨0, 1⟩, 1, 2⟩]⟩ }]⟩
    F.Asks Request.Quiet ∧ (∀ t, (F.tree t).config.effectiveLimit = none) ∧
      ∃ w' v', F.serve 4 (.run 1 ()) { ambient := () } = .done (.ok .success) w' ∧
        (F.delayed fun _ => 2).TicksOn 4 1 () (World.delayed { ambient := () }) (.ok .success) v' ∧
        collapse v'.journal = collapse w'.journal := by
  intro act F
  have hact : act.Asks Request.Quiet :=
    ⟨fun hstart _ => by cases hstart; exact .done (), fun _ => .done _,
      fun hfinish => by cases hfinish⟩
  have hquiet : F.Asks Request.Quiet := by
    intro t index task yes no hget
    match t, index, hget with
    | 0, 0, hget =>
      cases hget
      exact hact
    | 0, index + 1, hget => cases hget
    | 1, 0, hget => cases hget
    | 1, index + 1, hget => cases hget
    | t + 2, index, hget => cases hget
  have hfree : ∀ t, (F.tree t).config.effectiveLimit = none := by
    intro t
    match t with
    | 0 | 1 | t + 2 => rfl
  obtain ⟨w', hrun⟩ : ∃ w', F.serve 4 (.run 1 ()) { ambient := () } = .done (.ok .success) w' :=
    ⟨_, rfl⟩
  obtain ⟨v', hticks, hcollapse, -⟩ := ticksOn_delayed hquiet hfree (fun _ => 2) hrun (by simp)
  exact ⟨hquiet, hfree, w', v', hrun, hticks, hcollapse⟩

end Forest

end TickTree
