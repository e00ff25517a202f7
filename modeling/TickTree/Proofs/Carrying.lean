import TickTree.Proofs.Visits

/-!
# What ticks add to stories

A tick of a forest whose hooks operate on no tree goes on with the story of every agent in
every tree (`Forest.serve_carries`). In the tree that ticks, each step of the walk goes on
with the story of the agent that is ticked (`Tick.advance_continues`); everywhere else only
linked ticks do (`Tick.advance_carries`).
-/

namespace TickTree

variable {K A : Type} [DecidableEq K]

/-! ## Open tasks -/

/-- The task an agent is suspended on. -/
def Tree.openTask (T : Tree K A) (s : AgentState) : Option Nat :=
  match T.awaited s with
  | some (.task _) => some s.cursor
  | _ => none

/-- The task an agent is suspended on in a tree of a forest. -/
def Forest.openTask (F : Forest K A) (t : TreeId) (a : K) (w : World K A) : Option Nat :=
  (w.agent? t a).bind (F.tree t).openTask

section

variable {T : Tree K A} {s : AgentState} {i : Instruction Nat K A}

omit [DecidableEq K] in
theorem Tree.openTask_unpaused (h : s.paused = false) : T.openTask s = none := by
  rw [openTask, awaited_unpaused h]

omit [DecidableEq K] in
theorem Tree.openTask_outside (h : T.program.get? s.cursor = none) : T.openTask s = none := by
  cases hpaused : s.paused <;> simp [openTask, awaited, h, hpaused]

omit [DecidableEq K] in
theorem Tree.openTask_other (hget : T.program.get? s.cursor = some i)
    (hop : ∀ task, i.op ≠ .task task) : T.openTask s = none := by
  cases hpaused : s.paused with
  | false => exact openTask_unpaused hpaused
  | true =>
    rw [openTask, awaited_paused hpaused hget]
    split
    · rename_i task heq
      exact absurd (Option.some.inj heq) (hop task)
    · rfl

omit [DecidableEq K] in
theorem Tree.openTask_task {task : RunnableTask K A} (hpaused : s.paused = true)
    (hget : T.program.get? s.cursor = some i) (hop : i.op = .task task) :
    T.openTask s = some s.cursor := by
  rw [openTask, awaited_paused hpaused hget, hop]

omit [DecidableEq K] in
theorem Tree.openTask_inv {index : Nat} (h : T.openTask s = some index) :
    s.paused = true ∧ s.cursor = index ∧ ∃ task, T.program.HasTask index task := by
  rw [openTask] at h
  split at h
  · rename_i task hawaited
    cases h
    exact ⟨paused_of_awaited hawaited, rfl, task, awaited_inv hawaited⟩
  · cases h

omit [DecidableEq K] in
theorem Tree.openTask_congr {s' : AgentState} (hcursor : s'.cursor = s.cursor)
    (hpaused : s'.paused = s.paused) : T.openTask s' = T.openTask s := by
  simp only [openTask, awaited, hcursor, hpaused]

end

theorem Forest.openTask_of_agent? {F : Forest K A} {t : TreeId} {a : K} {w w' : World K A}
    (h : w'.agent? t a = w.agent? t a) : F.openTask t a w' = F.openTask t a w := by
  rw [openTask, openTask, h]

/-! ## Going on -/

/-- What has happened from one world to another goes on with the story of an agent in a
tree. -/
def Continues (p : Program K A) (t : TreeId) (a : K) (o : Option Nat) (w : World K A)
    (o' : Option Nat) (w' : World K A) : Prop :=
  ∃ new, w'.calls t a = w.calls t a ++ new ∧
    ∀ l, Story t a p l o → Story t a p (l ++ new) o'

section

variable {p : Program K A} {t : TreeId} {a : K} {o o' o'' : Option Nat} {w w' w'' : World K A}

theorem Continues.of_calls (h : w'.calls t a = w.calls t a) : Continues p t a o w o w' :=
  ⟨[], by simp [h], fun l hl => by simpa using hl⟩

theorem Continues.trans (h : Continues p t a o w o' w') (h' : Continues p t a o' w' o'' w'') :
    Continues p t a o w o'' w'' := by
  obtain ⟨new, hcalls, hstory⟩ := h
  obtain ⟨new', hcalls', hstory'⟩ := h'
  refine ⟨new ++ new', by rw [hcalls', hcalls, List.append_assoc], fun l hl => ?_⟩
  rw [← List.append_assoc]
  exact hstory' _ (hstory l hl)

end

/-- What has happened goes on with the story of an agent in a tree, up to the task that the
agent is suspended on there. -/
def Forest.Carries (F : Forest K A) (t : TreeId) (a : K) (w w' : World K A) : Prop :=
  Continues (F.tree t).program t a (F.openTask t a w) w (F.openTask t a w') w'

section

variable {F : Forest K A} {t : TreeId} {a : K} {w w' w'' : World K A}

theorem Forest.Carries.of_same (hagent : w'.agent? t a = w.agent? t a)
    (hcalls : w'.calls t a = w.calls t a) : F.Carries t a w w' := by
  rw [Carries, openTask_of_agent? hagent]
  exact .of_calls hcalls

theorem Forest.Carries.trans (h : F.Carries t a w w') (h' : F.Carries t a w' w'') :
    F.Carries t a w w'' := Continues.trans h h'

end

/-- Runs go on with the story of every agent in every tree. -/
def Forest.CarriedBy (F : Forest K A) (handler : Handler K A) : Prop :=
  ∀ {u b w r w'}, handler (.run u b) w = .done r w' → ∀ t a, F.Carries t a w w'

/-! ## Visits -/

namespace Tick

variable {tick : Tick K A} {handler : Handler K A} {index : Nat} {task : RunnableTask K A}
  {w w' : World K A}

theorem beginVisit_calls (hq : task.Asks Request.Quiet) {board board' : Blackboard}
    (h : tick.beginVisit handler index task board w = .done board' w') (t : TreeId) (a : K) :
    w'.calls t a = w.calls t a ++
      if tick.id = t ∧ tick.agent = a then opening t a index task else [] := by
  rw [beginVisit] at h
  cases hstart : task.start with
  | none =>
    rw [hstart] at h
    cases h
    simp [opening, hstart]
  | some hook =>
    rw [hstart] at h
    obtain ⟨answer, hperform, rfl⟩ := Outcome.map_eq_done_iff.1 h
    rw [(Hook.perform_spares (hq.start hstart _) hperform t).calls, World.calls_log]
    by_cases hta : tick.id = t ∧ tick.agent = a
    · obtain ⟨rfl, rfl⟩ := hta
      simp [Event.isCall, opening, hstart]
    · simp [Event.isCall, hta]

theorem endVisit_calls (hq : task.Asks Request.Quiet) {status : Status}
    {board board' : Blackboard}
    (h : tick.endVisit handler index task status board w = .done board' w') (t : TreeId) (a : K) :
    w'.calls t a = w.calls t a ++
      if tick.id = t ∧ tick.agent = a then closing t a index task status else [] := by
  rw [endVisit] at h
  cases hfinish : task.finish with
  | none =>
    rw [hfinish] at h
    cases h
    simp [closing, hfinish]
  | some hook =>
    rw [hfinish] at h
    obtain ⟨answer, hperform, rfl⟩ := Outcome.map_eq_done_iff.1 h
    rw [(Hook.perform_spares (hq.finish hfinish _ _) hperform t).calls, World.calls_log]
    by_cases hta : tick.id = t ∧ tick.agent = a
    · obtain ⟨rfl, rfl⟩ := hta
      simp [Event.isCall, closing, hfinish]
    · simp [Event.isCall, hta]

theorem visit_calls (hq : task.Asks Request.Quiet) {resumed : Bool} {board : Blackboard}
    {answer : Status × Blackboard}
    (h : tick.visit handler index task resumed board w = .done answer w') :
    ∃ result, TaskResult.status result = answer.1 ∧ ∀ t a, w'.calls t a = w.calls t a ++
      if tick.id = t ∧ tick.agent = a then visited t a index task resumed result else [] := by
  simp only [visit, Outcome.bind_eq_done_iff] at h
  obtain ⟨board₁, w₁, hbegin, ⟨result, board₂⟩, w₂, hrun, hend⟩ := h
  have hopening : ∀ t a, w₁.calls t a = w.calls t a ++
      if tick.id = t ∧ tick.agent = a then
        (if resumed then [] else opening t a index task) else [] := by
    intro t a
    cases resumed with
    | true =>
      cases hbegin
      simp
    | false => simpa using beginVisit_calls hq hbegin t a
  have hran : ∀ t a, (w₂.log (.ran tick.id tick.agent index task.name result)).calls t a =
      w₁.calls t a ++
        if tick.id = t ∧ tick.agent = a then [running t a index task result] else [] := by
    intro t a
    rw [World.calls_log, (Hook.perform_spares (hq.run _) hrun t).calls]
    by_cases hta : tick.id = t ∧ tick.agent = a
    · obtain ⟨rfl, rfl⟩ := hta
      simp [Event.isCall, running]
    · simp [Event.isCall, hta]
  by_cases hdone : (TaskResult.status result).isDone = true
  · rw [if_pos hdone] at hend
    obtain ⟨board₃, hfinish, rfl⟩ := Outcome.map_eq_done_iff.1 hend
    refine ⟨result, rfl, fun t a => ?_⟩
    rw [endVisit_calls hq hfinish t a, hran t a, hopening t a]
    by_cases hta : tick.id = t ∧ tick.agent = a
    · simp [hta, visited, hdone]
    · simp [hta]
  · rw [if_neg hdone] at hend
    cases hend
    refine ⟨result, rfl, fun t a => ?_⟩
    rw [hran t a, hopening t a]
    by_cases hta : tick.id = t ∧ tick.agent = a
    · simp [hta, visited, hdone]
    · simp [hta]

/-! ## Other agents and other trees -/

/-- An instruction that is no link does nothing to other agents, nor in other trees. -/
theorem dispatch_beside {t : TreeId} {a : K} (hne : ¬ (tick.id = t ∧ tick.agent = a))
    {i : Instruction Nat K A} (hq : ∀ {task}, i.op = .task task → task.Asks Request.Quiet)
    (hlink : ∀ link, i.op ≠ .subTree link) {resumed : Bool} {s : AgentState}
    {answer : Move × AgentState}
    (h : tick.dispatch handler index resumed i s w = .done answer w') :
    w'.agent? t a = w.agent? t a ∧ w'.calls t a = w.calls t a := by
  obtain ⟨op, yes, no⟩ := i
  cases op with
  | task task =>
    rw [dispatch_task _ _ rfl, Outcome.bind_eq_done_iff] at h
    obtain ⟨reply, w₁, hvisit, hdone⟩ := h
    cases hdone
    obtain ⟨result, -, hcalls⟩ := visit_calls (hq rfl) hvisit
    have hspared := visit_spares (hq rfl) hvisit
    have htree : w'.tree t = w.tree t := by
      by_cases ht : tick.id = t
      · rw [← ht, hspared.1]
      · exact (hspared.2 t ht).tree
    exact ⟨by rw [World.agent?, World.agent?, htree], by simp [hcalls, hne]⟩
  | query q =>
    simp only [dispatch] at h
    split at h <;> cases h
    · exact ⟨rfl, rfl⟩
    · exact ⟨rfl, rfl⟩
    · exact ⟨rfl, World.calls_log_of_not rfl w⟩
    · exact ⟨rfl, World.calls_log_of_not rfl w⟩
  | subTree link => exact absurd rfl (hlink link)
  | randomBranch table =>
    cases table with
    | nil =>
      cases h
      exact ⟨rfl, rfl⟩
    | cons first rest =>
      obtain ⟨⟨place, drawn⟩, hdraw⟩ : ∃ p,
          Random.draw tick.tree.words (rest.length + 1) (w.tree tick.id).drawn = p := ⟨_, rfl⟩
      rw [dispatch_randomBranch _ _ rfl _ _ _ _ hdraw] at h
      cases h
      refine ⟨?_, World.calls_log_of_not rfl _⟩
      by_cases ht : tick.id = t
      · subst ht
        simp [World.agent?]
      · simp [World.agent?, World.tree_modifyTree_of_ne w _ ht]
  | repeatStart | repeatCounter | hangingSucceed | hangingFail =>
    cases h
    exact ⟨rfl, rfl⟩

theorem dispatch_carries {F : Forest K A} {t : TreeId} {a : K}
    (hne : ¬ (tick.id = t ∧ tick.agent = a)) {i : Instruction Nat K A}
    (hq : ∀ {task}, i.op = .task task → task.Asks Request.Quiet) (hh : F.CarriedBy handler)
    {resumed : Bool} {s : AgentState} {answer : Move × AgentState}
    (h : tick.dispatch handler index resumed i s w = .done answer w') : F.Carries t a w w' := by
  by_cases hlink : ∃ link, i.op = .subTree link
  · obtain ⟨link, hop⟩ := hlink
    rw [dispatch_subTree _ _ hop, Outcome.bind_eq_done_iff] at h
    obtain ⟨result, w₁, hrun, hdone⟩ := h
    have hinner : F.Carries t a w w₁ := hh hrun t a
    cases result with
    | ok status =>
      cases hdone
      exact hinner
    | error e =>
      cases hdone
      exact hinner.trans (.of_same rfl (World.calls_log_of_not rfl w₁))
  · obtain ⟨hagent, hcalls⟩ := dispatch_beside hne hq (fun link hop => hlink ⟨link, hop⟩) h
    exact .of_same hagent hcalls

/-- A step of a tick goes on with the stories of other agents and in other trees, since
linked ticks do. -/
theorem advance_carries {F : Forest K A} {t : TreeId} {a : K}
    (hne : ¬ (tick.id = t ∧ tick.agent = a)) (hq : tick.Quiet) (hh : F.CarriedBy handler)
    {f : Frame} {p : Progress} (h : tick.advance handler f w = .done p w') :
    F.Carries t a w w' := by
  cases advance_cases h with
  | atEnd => exact .of_same rfl rfl
  | limited => exact .of_same rfl (World.calls_log_of_not rfl w)
  | dispatched hget _ hdispatch _ =>
    have hlog : F.Carries t a w (w.log (.dispatched tick.id tick.agent f.cursor)) :=
      .of_same rfl (World.calls_log_of_not rfl w)
    exact hlog.trans (dispatch_carries hne (quiet_task hq hget) hh hdispatch)

theorem walk_carries {F : Forest K A} {t : TreeId} {a : K}
    (hne : ¬ (tick.id = t ∧ tick.agent = a)) (hq : tick.Quiet) (hh : F.CarriedBy handler)
    {n : Nat} {f : Frame} {p : Progress} (h : tick.walk handler n f w = .done p w') :
    F.Carries t a w w' := by
  induction n generalizing f w with
  | zero =>
    cases h
    exact .of_same rfl rfl
  | succ n ih =>
    rw [walk_succ, Outcome.bind_eq_done_iff] at h
    obtain ⟨p₁, w₁, hstep, hrest⟩ := h
    have hfirst := advance_carries hne hq hh hstep
    cases p₁ with
    | underway f₁ => exact hfirst.trans (ih hrest)
    | ended r s =>
      cases hrest
      exact hfirst

/-! ## The agent of the tick -/

/-- The task an agent is suspended on after a step. -/
def openAfter (tick : Tick K A) : Progress → Option Nat
  | .underway f => tick.tree.openTask f.standing
  | .ended _ s => tick.tree.openTask s

omit [DecidableEq K] in
theorem openAfter_underway {g : Frame} (h : g.resumed = false) :
    tick.openAfter (.underway g) = none := Tree.openTask_unpaused h

/-- An instruction that is no task calls no hook of the tree it is in. -/
theorem dispatch_calls {i : Instruction Nat K A} (hop : ∀ task, i.op ≠ .task task)
    (hs : handler.Spares) {resumed : Bool} {s : AgentState} {answer : Move × AgentState}
    (hrunning : (w.tree tick.id).running)
    (h : tick.dispatch handler index resumed i s w = .done answer w') :
    w'.calls tick.id tick.agent = w.calls tick.id tick.agent := by
  obtain ⟨op, yes, no⟩ := i
  cases op with
  | task task => exact absurd rfl (hop task)
  | query q =>
    simp only [dispatch] at h
    split at h <;> cases h
    · rfl
    · rfl
    · exact World.calls_log_of_not rfl w
    · exact World.calls_log_of_not rfl w
  | subTree link =>
    rw [dispatch_subTree _ _ rfl, Outcome.bind_eq_done_iff] at h
    obtain ⟨result, w₁, hrun, hdone⟩ := h
    have hinner := (hs hrun hrunning).calls tick.agent
    cases result with
    | ok status =>
      cases hdone
      exact hinner
    | error e =>
      cases hdone
      exact (World.calls_log_of_not rfl w₁).trans hinner
  | randomBranch table =>
    cases table with
    | nil =>
      cases h
      rfl
    | cons first rest =>
      obtain ⟨⟨place, drawn⟩, hdraw⟩ : ∃ p,
          Random.draw tick.tree.words (rest.length + 1) (w.tree tick.id).drawn = p := ⟨_, rfl⟩
      rw [dispatch_randomBranch _ _ rfl _ _ _ _ hdraw] at h
      cases h
      exact World.calls_log_of_not rfl _
  | repeatStart | repeatCounter | hangingSucceed | hangingFail =>
    cases h
    rfl

omit [DecidableEq K] in
/-- A step that goes on does not resume what comes next. -/
theorem follow_underway {f g : Frame} {answer : Move × AgentState}
    (h : follow f answer = .underway g) : g.resumed = false := by
  obtain ⟨move, s⟩ := answer
  cases move with
  | goto index =>
    cases h
    rfl
  | suspend => cases h
  | stop e => cases h

omit [DecidableEq K] in
/-- After a step an agent can only be suspended on the task the step was at. -/
theorem openAfter_follow {f : Frame} {i : Instruction Nat K A}
    (hget : tick.tree.program.get? f.cursor = some i) (hop : ∀ task, i.op ≠ .task task)
    (answer : Move × AgentState) : tick.openAfter (follow f answer) = none := by
  obtain ⟨move, s⟩ := answer
  cases move with
  | goto index =>
    exact openAfter_underway (g := ⟨index, false, f.spent + 1, s⟩) rfl
  | suspend => exact Tree.openTask_other hget hop
  | stop e => exact Tree.openTask_unpaused (T := tick.tree) (s := s.rewind) rfl

/-- A step of a tick goes on with the story of its agent: a task is visited, and nothing
else calls a hook. What was suspended has not spent a step yet, so the limit of the tree
cannot come between. -/
theorem advance_continues (hq : tick.Quiet) (hs : handler.Spares) {f : Frame} {p : Progress}
    (hfresh : f.resumed = true → f.spent = 0) (hrunning : (w.tree tick.id).running)
    (h : tick.advance handler f w = .done p w') :
    Continues tick.tree.program tick.id tick.agent (tick.tree.openTask f.standing) w
      (tick.openAfter p) w' := by
  cases advance_cases h with
  | atEnd hget =>
    have hstanding : tick.tree.openTask f.standing = none := Tree.openTask_outside hget
    have hafter : tick.tree.openTask f.state.rewind = none := Tree.openTask_unpaused rfl
    rw [openAfter, hstanding, hafter]
    exact .of_calls rfl
  | limited _ hex =>
    have hresumed : f.resumed = false := by
      cases hres : f.resumed with
      | false => rfl
      | true =>
        rw [tick.exhausted_unspent (hfresh hres)] at hex
        cases hex
    have hstanding : tick.tree.openTask f.standing = none := Tree.openTask_unpaused hresumed
    have hafter : tick.tree.openTask f.state.rewind = none := Tree.openTask_unpaused rfl
    rw [openAfter, hstanding, hafter]
    exact .of_calls (World.calls_log_of_not rfl w)
  | @dispatched i answer _ _ hget _ hdispatch hfollow =>
    subst hfollow
    have hlogged : (w.log (.dispatched tick.id tick.agent f.cursor)).calls tick.id tick.agent =
        w.calls tick.id tick.agent := World.calls_log_of_not rfl w
    by_cases htask : ∃ task, i.op = .task task
    · obtain ⟨task, hop⟩ := htask
      rw [dispatch_task _ _ hop, Outcome.bind_eq_done_iff] at hdispatch
      obtain ⟨⟨status, board⟩, w₁, hvisit, hdone⟩ := hdispatch
      cases hdone
      obtain ⟨result, rfl, hcalls⟩ := visit_calls (quiet_task hq hget hop) hvisit
      have hstanding : tick.tree.openTask f.standing =
          if f.resumed then some f.cursor else none := by
        cases hres : f.resumed with
        | false => exact Tree.openTask_unpaused hres
        | true => exact Tree.openTask_task hres hget hop
      have hafter : tick.openAfter (follow f
          (.ofStatus i (TaskResult.status result), { f.state with board := board })) =
          if (TaskResult.status result).isDone then none else some f.cursor := by
        rw [Move.ofStatus]
        by_cases hdone : (TaskResult.status result).isDone = true
        · rw [if_pos hdone, if_pos hdone]
          exact openAfter_underway rfl
        · rw [if_neg hdone, if_neg hdone]
          exact Tree.openTask_task rfl hget hop
      refine ⟨visited tick.id tick.agent f.cursor task f.resumed result, ?_, fun l hl => ?_⟩
      · rw [hcalls, hlogged]
        simp
      · rw [hstanding] at hl
        rw [hafter]
        exact hl.visit ⟨i, hget, hop⟩ result
    · have hop : ∀ task, i.op ≠ .task task := fun task heq => htask ⟨task, heq⟩
      have hstanding : tick.tree.openTask f.standing = none := Tree.openTask_other hget hop
      rw [hstanding, openAfter_follow hget hop]
      have hrunning' : ((w.log (.dispatched tick.id tick.agent f.cursor)).tree
          tick.id).running := hrunning
      exact .of_calls ((dispatch_calls hop hs hrunning' hdispatch).trans hlogged)

theorem advance_underway {f g : Frame} (h : tick.advance handler f w = .done (.underway g) w') :
    g.resumed = false := by
  cases advance_cases h with
  | dispatched _ _ _ hfollow => exact follow_underway hfollow

theorem walk_continues (hq : tick.Quiet) (hs : handler.Spares) {n : Nat} {f : Frame}
    {p : Progress} (hfresh : f.resumed = true → f.spent = 0)
    (hrunning : (w.tree tick.id).running) (h : tick.walk handler n f w = .done p w') :
    Continues tick.tree.program tick.id tick.agent (tick.tree.openTask f.standing) w
      (tick.openAfter p) w' := by
  induction n generalizing f w with
  | zero =>
    cases h
    exact .of_calls rfl
  | succ n ih =>
    rw [walk_succ, Outcome.bind_eq_done_iff] at h
    obtain ⟨p₁, w₁, hstep, hrest⟩ := h
    have hfirst := advance_continues hq hs hfresh hrunning hstep
    cases p₁ with
    | underway f₁ =>
      have hresumed := advance_underway hstep
      have hrunning₁ : (w₁.tree tick.id).running := by
        rw [(advance_confined hq hs hrunning hstep).running, hrunning]
      exact hfirst.trans (ih (by simp [hresumed]) hrunning₁ hrest)
    | ended r s =>
      cases hrest
      exact hfirst

theorem perform_carries {F : Forest K A} {t : TreeId} {a : K}
    (hne : ¬ (tick.id = t ∧ tick.agent = a)) (hq : tick.Quiet) (hh : F.CarriedBy handler)
    {bound : Nat} {s : AgentState} {answer : Except RunError Status × AgentState}
    (h : tick.perform handler bound s w = .done answer w') : F.Carries t a w w' := by
  rw [perform] at h
  by_cases hout : tick.tree.program.length ≤ s.cursor
  · rw [if_pos hout] at h
    cases h
    exact .of_same rfl rfl
  · rw [if_neg hout] at h
    cases hwalk : tick.walk handler bound (.begin s) w with
    | cutOff w₁ => simp [hwalk] at h
    | done p w₁ =>
      rw [hwalk] at h
      cases p with
      | underway f => cases h
      | ended r s₁ =>
        cases h
        exact walk_carries hne hq hh hwalk

/-- A whole tick goes on with the story of its agent. -/
theorem perform_continues (hq : tick.Quiet) (hs : handler.Spares) {bound : Nat}
    {s s' : AgentState} {r : Except RunError Status} (hrunning : (w.tree tick.id).running)
    (h : tick.perform handler bound s w = .done (r, s') w') :
    Continues tick.tree.program tick.id tick.agent (tick.tree.openTask s) w
      (tick.tree.openTask s') w' := by
  by_cases hin : s.cursor < tick.tree.program.length
  · have hwalk := walk_of_perform hin h
    exact walk_continues hq hs (fun _ => rfl) hrunning hwalk
  · rw [perform, if_pos (by omega)] at h
    cases h
    have hnone : tick.tree.program.get? s.cursor = none :=
      List.getElem?_eq_none (by simpa [Program.length] using hin)
    have hafter : tick.tree.openTask s.rewind = none := Tree.openTask_unpaused rfl
    rw [Tree.openTask_outside hnone, hafter]
    exact .of_calls rfl

/-! ## Ticks that suspend nothing -/

omit [DecidableEq K] in
theorem follow_unpaused {f : Frame} {answer : Move × AgentState} {r : Except RunError Status}
    {s : AgentState} (hr : r ≠ .ok .running) (h : follow f answer = .ended r s) :
    s.paused = false := by
  obtain ⟨move, state⟩ := answer
  cases move with
  | goto index => cases h
  | suspend =>
    cases h
    exact absurd rfl hr
  | stop e =>
    cases h
    rfl

theorem advance_unpaused {f : Frame} {r : Except RunError Status} {s : AgentState}
    (hr : r ≠ .ok .running) (h : tick.advance handler f w = .done (.ended r s) w') :
    s.paused = false := by
  cases advance_cases h with
  | atEnd | limited => rfl
  | dispatched _ _ _ hfollow => exact follow_unpaused hr hfollow

theorem walk_unpaused {n : Nat} {f : Frame} {r : Except RunError Status} {s : AgentState}
    (hr : r ≠ .ok .running) (h : tick.walk handler n f w = .done (.ended r s) w') :
    s.paused = false := by
  induction n generalizing f w with
  | zero => cases h
  | succ n ih =>
    rw [walk_succ, Outcome.bind_eq_done_iff] at h
    obtain ⟨p, w₁, hstep, hrest⟩ := h
    cases p with
    | underway f₁ => exact ih hrest
    | ended r s₁ =>
      cases hrest
      exact advance_unpaused hr hstep

/-- Only a tick that returns Running suspends its agent. -/
theorem perform_unpaused {bound : Nat} {s s' : AgentState} {r : Except RunError Status}
    (hr : r ≠ .ok .running) (h : tick.perform handler bound s w = .done (r, s') w') :
    s'.paused = false := by
  by_cases hin : s.cursor < tick.tree.program.length
  · exact walk_unpaused hr (walk_of_perform hin h)
  · rw [perform, if_pos (by omega)] at h
    cases h
    rfl

end Tick

/-! ## Runs -/

namespace Forest

variable {F : Forest K A} {handler : Handler K A} {t u : TreeId} {a b : K} {w w' : World K A}

theorem calls_enter (w : World K A) (u t : TreeId) (b a : K) :
    (w.enter u b).calls t a = w.calls t a :=
  World.calls_log_of_not rfl (w.modifyTree u _)

theorem calls_leave (w : World K A) (u t : TreeId) (b a : K) (r : Except RunError Status) :
    (w.leave u b r).calls t a = w.calls t a :=
  World.calls_log_of_not rfl (w.modifyTree u _)

theorem openTask_state (F : Forest K A) (t : TreeId) (a : K) (w : World K A) :
    F.openTask t a w = (F.tree t).openTask (w.state t a) := by
  rw [openTask, World.state]
  cases w.agent? t a with
  | none => exact (Tree.openTask_unpaused rfl).symm
  | some s => rfl

theorem run_carries (hF : F.Asks Request.Quiet) (hs : handler.Spares) (hh : F.CarriedBy handler)
    {n : Nat} {r : Except RunError Status} (h : F.run handler n u b w = .done r w') (t : TreeId)
    (a : K) : F.Carries t a w w' := by
  cases run_cases h with
  | refused => exact .of_same rfl (World.calls_log_of_not rfl w)
  | poisoned =>
    refine .of_same ?_ ?_
    · rw [World.agent?_leave, World.agent?_enter]
    · rw [calls_leave, calls_enter]
  | lost _ hpoisoned hperform hlost =>
    have hconfined : (F.tickOf u b).Confined _ _ :=
      Tick.perform_confined (hF.quiet u b) hs (by simp) hperform
    rw [hconfined.poisoned] at hlost
    simp [hpoisoned] at hlost
  | @ticked r s w₁ _ _ hperform _ =>
    have hquiet : (F.tickOf u b).Quiet := hF.quiet u b
    by_cases hub : u = t ∧ b = a
    · obtain ⟨rfl, rfl⟩ := hub
      have hcontinues := Tick.perform_continues hquiet hs (by simp) hperform
      obtain ⟨new, hcalls, hstory⟩ := hcontinues
      refine ⟨new, ?_, fun l hl => ?_⟩
      · rw [calls_leave]
        exact hcalls.trans (congrArg (· ++ new) (calls_enter w u u b b))
      · rw [openTask_state] at hl
        have hafter : F.openTask u b ((w₁.checkIn u b s).leave u b r) = (F.tree u).openTask s := by
          rw [openTask, World.agent?_ticked]
          rfl
        rw [hafter]
        exact hstory l hl
    · have hin : F.Carries t a w ((w.enter u b).checkOut u b) := by
        refine .of_same ?_ (calls_enter w u t b a)
        rw [World.agent?_checkOut, if_neg hub, World.agent?_enter]
      have hout : F.Carries t a w₁ ((w₁.checkIn u b s).leave u b r) := by
        refine .of_same ?_ (calls_leave (w₁.checkIn u b s) u t b a r)
        rw [World.agent?_leave, World.agent?_checkIn, if_neg hub]
      exact (hin.trans (Tick.perform_carries hub hquiet hh hperform)).trans hout

/-- In a forest whose hooks operate on no tree, runs go on with all stories. -/
theorem serve_carries (hF : F.Asks Request.Quiet) (bound : Nat) :
    F.CarriedBy (F.serve bound) := by
  induction bound with
  | zero =>
    intro u b r w w' h
    cases h
  | succ bound ih =>
    intro u b r w w' h
    exact run_carries hF (serve_spares hF bound) ih h

end Forest

end TickTree
