import TickTree.Proofs.Delays

/-!
# Delayed forests follow the original

The world of a delayed forest follows that of the original forest, in which the same has
happened but for what delays add (`Follows`). A delayed task that waits changes nothing that
counts; one that waits no longer does what the original does, and so does every other
instruction (`Tick.dispatch_follows`).
-/

namespace TickTree

variable {K A : Type} [DecidableEq K]

/-! ## Following -/

/-- The world of a delayed forest follows a world of the original, so far in the schedule. -/
structure Follows (schedule : Progression) (w : World K A) (v : World K (A × Progression)) :
    Prop where
  trees : v.trees = w.trees
  registries : v.registries = w.registries
  ambient : v.ambient = (w.ambient, schedule)
  marks : ∀ t a, mark t a v.journal = mark t a w.journal
  collapsed : collapse v.journal = collapse w.journal

namespace Follows

variable {schedule : Progression} {w : World K A} {v : World K (A × Progression)}

theorem delayed (w : World K A) : Follows {} w w.delayed :=
  ⟨rfl, rfl, rfl, fun _ _ => rfl, rfl⟩

theorem tree (h : Follows schedule w v) (t : TreeId) : v.tree t = w.tree t := by
  rw [World.tree, World.tree, h.trees]

theorem registry (h : Follows schedule w v) (r : RegistryId) : v.registry r = w.registry r := by
  rw [World.registry, World.registry, h.registries]

theorem agent? (h : Follows schedule w v) (t : TreeId) (a : K) : v.agent? t a = w.agent? t a := by
  rw [World.agent?, World.agent?, h.tree]

theorem view (h : Follows schedule w v) (t : TreeId) (a : K) : v.view t a = w.view t a := by
  rw [World.view, World.view, h.agent?, h.tree]

theorem log (h : Follows schedule w v) (e : Event K) : Follows schedule (w.log e) (v.log e) where
  trees := h.trees
  registries := h.registries
  ambient := h.ambient
  marks := mark_cons_congr h.marks e
  collapsed := collapse_cons_congr h.marks h.collapsed e

theorem modifyTree (h : Follows schedule w v) (t : TreeId) (f : TreeState K → TreeState K) :
    Follows schedule (w.modifyTree t f) (v.modifyTree t f) where
  trees := by simp only [World.modifyTree, h.trees, h.tree]
  registries := h.registries
  ambient := h.ambient
  marks := h.marks
  collapsed := h.collapsed

theorem setRegistry (h : Follows schedule w v) (id : RegistryId) (r : Registry) :
    Follows schedule (w.setRegistry id r) (v.setRegistry id r) where
  trees := h.trees
  registries := by simp only [World.setRegistry, h.registries]
  ambient := h.ambient
  marks := h.marks
  collapsed := h.collapsed

theorem setAmbient (h : Follows schedule w v) (value : A) (schedule' : Progression) :
    Follows schedule' { w with ambient := value } { v with ambient := (value, schedule') } :=
  ⟨h.trees, h.registries, rfl, h.marks, h.collapsed⟩

theorem checkOut (h : Follows schedule w v) (t : TreeId) (a : K) :
    Follows schedule (w.checkOut t a) (v.checkOut t a) := h.modifyTree t _

theorem checkIn (h : Follows schedule w v) (t : TreeId) (a : K) (s : AgentState) :
    Follows schedule (w.checkIn t a s) (v.checkIn t a s) := h.modifyTree t _

/-- An event that only suspending and resuming account for may come on top. -/
theorem log_interim (h : Follows schedule w v) {e : Event K} (he : e.Interim v.journal)
    (hm : ∀ t a, mark t a (e :: v.journal) = mark t a w.journal) :
    Follows schedule w (v.log e) where
  trees := h.trees
  registries := h.registries
  ambient := h.ambient
  marks := hm
  collapsed := (collapse_cons_of_interim he).trans h.collapsed

end Follows

/-! ## Hooks -/

section

variable {handler : Handler K A} {handler' : Handler K (A × Progression)}
  {schedule : Progression} {w : World K A} {v : World K (A × Progression)}

theorem Hook.beside_follows {α : Type} {hook : Hook K A α} (hq : hook.Asks Request.Quiet)
    (board : Blackboard) (h : Follows schedule w v) :
    Outcome.Alike (Follows schedule) (hook.perform handler board w)
      (hook.beside.perform handler' board v) := by
  induction hook generalizing board w v with
  | done a => exact .done h
  | ask r next ih =>
    obtain ⟨hr, hnext⟩ := hq.inv
    cases r with
    | board => exact ih board (hnext board) board h
    | setBoard board' => exact ih () (hnext ()) board' h
    | ambient =>
      have hvalue : v.ambient.1 = w.ambient := by rw [h.ambient]
      simp only [beside, perform, Request.answer, hvalue]
      exact ih w.ambient (hnext w.ambient) board h
    | setAmbient value =>
      have hschedule : v.ambient.2 = schedule := by rw [h.ambient]
      simp only [beside, perform, Request.answer, hschedule]
      exact ih () (hnext ()) board (h.setAmbient value schedule)
    | registry id command =>
      simp only [beside, perform, Request.answer, h.registry id]
      exact ih _ (hnext _) board (h.setRegistry id _)
    | call c => exact hr.elim
    | inspect t a =>
      simp only [beside, perform, Request.answer, h.view t a, h.tree t]
      exact ih _ (hnext _) board (h.log _)
    | note n => exact ih () (hnext ()) board (h.log _)

variable {delays : Nat → Nat} {run : Hook K A TaskResult}

theorem Hook.perform_delayed_waiting (h : Follows schedule w v)
    (hwait : schedule.waited < delays schedule.visits) (board : Blackboard) :
    (run.delayed delays).perform handler' board v =
      .done (.ok .running, board)
        { v with ambient := (w.ambient, { schedule with waited := schedule.waited + 1 }) } := by
  simp only [delayed, perform, Request.answer, h.ambient, if_pos hwait]

theorem Hook.perform_delayed_done (handler' : Handler K (A × Progression))
    (hq : run.Asks Request.Quiet) (h : Follows schedule w v)
    (hwait : ¬ schedule.waited < delays schedule.visits) {board : Blackboard}
    {answer : TaskResult × Blackboard} {w' : World K A}
    (hrun : run.perform handler board w = .done answer w') :
    ∃ v', (run.delayed delays).perform handler' board v = .done answer v' ∧
      Follows { visits := schedule.visits + 1 } w' v' := by
  have hbeside : Outcome.Alike (Follows schedule) (run.perform handler board w)
      (run.beside.perform handler' board v) := Hook.beside_follows hq board h
  rw [hrun] at hbeside
  obtain ⟨v', hv, hfollows⟩ := hbeside.done_inv
  have hschedule : v'.ambient = (w'.ambient, schedule) := hfollows.ambient
  have hask : (run.delayed delays).perform handler' board v =
      (run.beside.bind fun result => .ask .ambient fun value =>
        .ask (.setAmbient (value.1, { visits := value.2.visits + 1 })) fun _ =>
        .done result).perform handler' board v := by
    simp only [delayed, perform, Request.answer, h.ambient, if_neg hwait]
  refine ⟨{ v' with ambient := (w'.ambient, { visits := schedule.visits + 1 }) }, ?_,
    hfollows.trees, hfollows.registries, rfl, hfollows.marks, hfollows.collapsed⟩
  rw [hask, Hook.perform_bind, hv]
  simp only [Outcome.bind_done, perform, Request.answer, hschedule]

end

/-! ## Visits -/

namespace Tick

variable {tick : Tick K A} {delays : Nat → Nat} {handler : Handler K A}
  {handler' : Handler K (A × Progression)} {schedule : Progression} {w : World K A}
  {v : World K (A × Progression)} {index : Nat} {task : RunnableTask K A}

/-- The tick in the delayed tree. -/
def delayed (delays : Nat → Nat) (tick : Tick K A) : Tick K (A × Progression) :=
  ⟨tick.tree.delayed delays, tick.id, tick.agent⟩

theorem beginVisit_follows (tick : Tick K A) (delays : Nat → Nat) (handler : Handler K A)
    (handler' : Handler K (A × Progression)) (index : Nat) (hq : task.Asks Request.Quiet)
    (board : Blackboard)
    (h : Follows schedule w v) :
    Outcome.Alike (Follows schedule) (tick.beginVisit handler index task board w)
      ((tick.delayed delays).beginVisit handler' index (task.delayed delays) board v) := by
  rw [beginVisit, beginVisit]
  cases hstart : task.start with
  | none =>
    simp only [RunnableTask.delayed, hstart, Option.map_none]
    exact .done h
  | some hook =>
    simp only [RunnableTask.delayed, hstart, Option.map_some]
    exact (Hook.beside_follows (hq.start hstart _) board (h.log _)).map _

theorem endVisit_follows (hq : task.Asks Request.Quiet) (status : Status) (board : Blackboard)
    (h : Follows schedule w v) :
    Outcome.Alike (Follows schedule) (tick.endVisit handler index task status board w)
      ((tick.delayed delays).endVisit handler' index (task.delayed delays) status board v) := by
  rw [endVisit, endVisit]
  cases hfinish : task.finish with
  | none =>
    simp only [RunnableTask.delayed, hfinish, Option.map_none]
    exact .done h
  | some hook =>
    simp only [RunnableTask.delayed, hfinish, Option.map_some]
    exact (Hook.beside_follows (hq.finish hfinish _ _) board (h.log _)).map _

/-- A visit that is to wait answers Running, and the world still follows. -/
theorem visit_waiting (tick : Tick K A) (handler' : Handler K (A × Progression)) (index : Nat)
    (task : RunnableTask K A) (h : Follows schedule w v)
    (hwait : schedule.waited < delays schedule.visits) (board : Blackboard) :
    ∃ v', (tick.delayed delays).visit handler' index (task.delayed delays) true board v =
        .done (.running, board) v' ∧
      Follows { schedule with waited := schedule.waited + 1 } w v' := by
  have hwaited : Follows { schedule with waited := schedule.waited + 1 } w
      { v with ambient := (w.ambient, { schedule with waited := schedule.waited + 1 }) } :=
    ⟨h.trees, h.registries, rfl, h.marks, h.collapsed⟩
  have hvisit : (tick.delayed delays).visit handler' index (task.delayed delays) true board v =
      .done (.running, board)
        (World.log
          { v with ambient := (w.ambient, { schedule with waited := schedule.waited + 1 }) }
          (.ran tick.id tick.agent index task.name (.ok .running))) := by
    simp only [visit, if_true, Outcome.bind_done, RunnableTask.delayed,
      Hook.perform_delayed_waiting h hwait, TaskResult.status, Status.isDone, Bool.false_eq_true,
      if_false]
    rfl
  exact ⟨_, hvisit, hwaited.log_interim rfl hwaited.marks⟩

/-- A visit that has waited as often as it is to comes to what the original visit comes
to. -/
theorem visit_concluding (handler' : Handler K (A × Progression))
    (hq : task.Asks Request.Quiet) (h : Follows schedule w v)
    (hwait : ¬ schedule.waited < delays schedule.visits) {board : Blackboard}
    {answer : Status × Blackboard} {w' : World K A}
    (hvisit : tick.visit handler index task true board w = .done answer w') :
    ∃ v', (tick.delayed delays).visit handler' index (task.delayed delays) true board v =
        .done answer v' ∧
      Follows { visits := schedule.visits + 1 } w' v' := by
  simp only [visit, if_true, Outcome.bind_done, Outcome.bind_eq_done_iff] at hvisit ⊢
  obtain ⟨result, w₁, hrun, hrest⟩ := hvisit
  obtain ⟨v₁, hrun', h₁⟩ := Hook.perform_delayed_done handler' (hq.run _) h hwait hrun
  have hran := h₁.log (.ran tick.id tick.agent index task.name result.1)
  have hlast : Outcome.Alike (Follows { visits := schedule.visits + 1 })
      (if (TaskResult.status result.1).isDone then
        (tick.endVisit handler index task (TaskResult.status result.1) result.2
          (w₁.log (.ran tick.id tick.agent index task.name result.1))).map
            fun board => (TaskResult.status result.1, board)
        else .done (TaskResult.status result.1, result.2)
          (w₁.log (.ran tick.id tick.agent index task.name result.1)))
      (if (TaskResult.status result.1).isDone then
        ((tick.delayed delays).endVisit handler' index (task.delayed delays)
          (TaskResult.status result.1) result.2
          (v₁.log (.ran tick.id tick.agent index task.name result.1))).map
            fun board => (TaskResult.status result.1, board)
        else .done (TaskResult.status result.1, result.2)
          (v₁.log (.ran tick.id tick.agent index task.name result.1))) := by
    split
    · exact (endVisit_follows hq _ _ hran).map _
    · exact .done hran
  rw [hrest] at hlast
  obtain ⟨v', hv, hfollows⟩ := hlast.done_inv
  exact ⟨v', ⟨result, v₁, hrun', hv⟩, hfollows⟩

/-! ## Other instructions -/

/-- An instruction that is no task and no link is the same instruction when delayed. -/
theorem dispatch_follows (tick : Tick K A) (delays : Nat → Nat) (handler : Handler K A)
    (handler' : Handler K (A × Progression)) (index : Nat) {op : Op K A}
    (htask : ∀ task, op ≠ .task task)
    (hlink : ∀ link, op ≠ .subTree link) (yes no : Nat) (resumed : Bool) (s : AgentState)
    (h : Follows schedule w v) :
    Outcome.Alike (Follows schedule) (tick.dispatch handler index resumed ⟨op, yes, no⟩ s w)
      ((tick.delayed delays).dispatch handler' index resumed ⟨op.delayed delays, yes, no⟩ s v) := by
  cases op with
  | task task => exact absurd rfl (htask task)
  | subTree link => exact absurd rfl (hlink link)
  | query q =>
    have hregistry : (tick.delayed delays).tree.registry.map v.registry =
        tick.tree.registry.map w.registry :=
      Option.map_congr fun r _ => h.registry r
    simp only [dispatch, Op.delayed, hregistry]
    cases q.find s.board (tick.tree.registry.map w.registry) with
    | error e => exact .done (h.log _)
    | ok found =>
      cases found with
      | none => exact .done (h.log _)
      | some b => cases b <;> exact .done h
  | randomBranch table =>
    cases table with
    | nil => exact .done h
    | cons first rest =>
      obtain ⟨⟨place, drawn⟩, hdraw⟩ : ∃ p,
          Random.draw tick.tree.words (rest.length + 1) (w.tree tick.id).drawn = p := ⟨_, rfl⟩
      have hdraw' : Random.draw (tick.delayed delays).tree.words (rest.length + 1)
          (v.tree (tick.delayed delays).id).drawn = (place, drawn) := by
        rw [h.tree]
        exact hdraw
      rw [dispatch_randomBranch _ _ rfl _ _ _ _ hdraw,
        dispatch_randomBranch (tick.delayed delays) _ rfl _ _ _ _ hdraw']
      exact .done ((h.modifyTree _ _).log _)
  | repeatStart | repeatCounter | hangingSucceed | hangingFail => exact .done h

end Tick

end TickTree
