import TickTree.Proofs.Operations
import TickTree.Proofs.Walks

/-!
# Hooks that operate on no tree

A hook is quiet when none of its requests is a call. In a forest of quiet hooks the
only calls are those of links, and these are runs. So a run cannot reach into a tree
that is ticking: it is refused there. What the run of one tree does leaves every other
tree that is ticking as it is, its state and its events (`Forest.serve_spares`).
-/

namespace TickTree

variable {K A : Type}

/-! ## What hooks ask for -/

/-- Every request of a hook, whatever it is answered, has a property. -/
inductive Hook.Asks {α : Type} (p : Request K A → Prop) : Hook K A α → Prop where
  | done (a : α) : Asks p (.done a)
  | ask {r : Request K A} {next : r.Reply → Hook K A α} :
      p r → (∀ reply, Asks p (next reply)) → Asks p (.ask r next)

theorem Hook.Asks.inv {α : Type} {p : Request K A → Prop} {r : Request K A}
    {next : r.Reply → Hook K A α} (h : (Hook.ask r next).Asks p) :
    p r ∧ ∀ reply, (next reply).Asks p := by
  cases h with
  | ask hr hnext => exact ⟨hr, hnext⟩

/-- The hooks of a task ask for nothing else. -/
structure RunnableTask.Asks (p : Request K A → Prop) (task : RunnableTask K A) : Prop where
  start : ∀ {hook}, task.start = some hook → ∀ a, (hook a).Asks p
  run : ∀ a, (task.run a).Asks p
  finish : ∀ {hook}, task.finish = some hook → ∀ a status, (hook a status).Asks p

/-- The hooks of a forest ask for nothing else. -/
def Forest.Asks (p : Request K A → Prop) (F : Forest K A) : Prop :=
  ∀ t index task yes no,
    (F.tree t).program.get? index = some ⟨.task task, yes, no⟩ → task.Asks p

/-- A request that is no operation on a tree. -/
def Request.Quiet : Request K A → Prop
  | .call _ => False
  | _ => True

/-! ## Sparing a tree -/

/-- The tree whose own event it is. A look at a tree is not the tree's. -/
def Event.tree? : Event K → Option TreeId
  | .left t .. | .dispatched t .. | .started t .. | .ran t .. | .finished t .. => some t
  | _ => none

/-- The events of a tree. -/
def eventsOf (u : TreeId) (journal : List (Event K)) : List (Event K) :=
  journal.filter fun e => e.tree? = some u

theorem eventsOf_cons_of_ne {u : TreeId} {e : Event K} (h : e.tree? ≠ some u)
    (journal : List (Event K)) : eventsOf u (e :: journal) = eventsOf u journal := by
  simp [eventsOf, h]

namespace World

/-- Nothing has happened to a tree, nor in it. -/
structure Spares (u : TreeId) (w w' : World K A) : Prop where
  tree : w'.tree u = w.tree u
  events : eventsOf u w'.journal = eventsOf u w.journal

variable {u t : TreeId} {w w' w'' : World K A}

theorem Spares.refl (u : TreeId) (w : World K A) : Spares u w w := ⟨rfl, rfl⟩

theorem Spares.trans (h : Spares u w w') (h' : Spares u w' w'') : Spares u w w'' :=
  ⟨h'.tree.trans h.tree, h'.events.trans h.events⟩

theorem spares_log {e : Event K} (he : e.tree? ≠ some u) (w : World K A) :
    Spares u w (w.log e) :=
  ⟨rfl, eventsOf_cons_of_ne he _⟩

theorem spares_modifyTree (h : t ≠ u) (w : World K A) (f : TreeState K → TreeState K) :
    Spares u w (w.modifyTree t f) :=
  ⟨tree_modifyTree_of_ne w f h, rfl⟩

theorem spares_checkOut [DecidableEq K] (h : t ≠ u) (w : World K A) (a : K) :
    Spares u w (w.checkOut t a) := spares_modifyTree h w _

theorem spares_checkIn [DecidableEq K] (h : t ≠ u) (w : World K A) (a : K) (s : AgentState) :
    Spares u w (w.checkIn t a s) := spares_modifyTree h w _

end World

variable [DecidableEq K] {handler : Handler K A}

/-- Runs leave trees that are ticking alone. -/
def Handler.Spares (handler : Handler K A) : Prop :=
  ∀ {t a w r w' u}, handler (.run t a) w = .done r w' → (w.tree u).running →
    World.Spares u w w'

/-! ## Hooks -/

theorem Request.answer_spares {r : Request K A} (hr : r.Quiet) {board : Blackboard}
    {w w' : World K A} {reply : r.Reply × Blackboard}
    (h : r.answer handler board w = .done reply w') (u : TreeId) : World.Spares u w w' := by
  cases r with
  | board | setBoard | ambient | setAmbient | registry =>
    cases h
    exact ⟨rfl, rfl⟩
  | call c => exact hr.elim
  | inspect t a =>
    cases h
    exact World.spares_log (by simp [Event.tree?]) w
  | note n =>
    cases h
    exact World.spares_log (by simp [Event.tree?]) w

theorem Hook.perform_spares {α : Type} {hook : Hook K A α} (hq : hook.Asks Request.Quiet)
    {board : Blackboard} {w w' : World K A} {answer : α × Blackboard}
    (h : hook.perform handler board w = .done answer w') (u : TreeId) : World.Spares u w w' := by
  induction hook generalizing board w with
  | done a =>
    cases h
    exact .refl u _
  | ask r next ih =>
    rw [Hook.perform_ask, Outcome.bind_eq_done_iff] at h
    obtain ⟨reply, w₁, hreply, hnext⟩ := h
    exact (Request.answer_spares hq.inv.1 hreply u).trans (ih reply.1 (hq.inv.2 reply.1) hnext)

namespace Tick

variable {tick : Tick K A} {task : RunnableTask K A} {index : Nat}

theorem beginVisit_spares (hq : task.Asks Request.Quiet) {board board' : Blackboard}
    {w w' : World K A} (h : tick.beginVisit handler index task board w = .done board' w') :
    w'.tree tick.id = w.tree tick.id ∧ ∀ u, tick.id ≠ u → World.Spares u w w' := by
  rw [beginVisit] at h
  cases hstart : task.start with
  | none =>
    rw [hstart] at h
    cases h
    exact ⟨rfl, fun u _ => .refl u w⟩
  | some hook =>
    rw [hstart] at h
    obtain ⟨answer, hperform, rfl⟩ := Outcome.map_eq_done_iff.1 h
    have hhook := Hook.perform_spares (hq.start hstart _) hperform
    exact ⟨(hhook _).tree, fun u hu => (World.spares_log (by simpa [Event.tree?] using hu) w).trans
      (hhook u)⟩

theorem endVisit_spares (hq : task.Asks Request.Quiet) {status : Status}
    {board board' : Blackboard} {w w' : World K A}
    (h : tick.endVisit handler index task status board w = .done board' w') :
    w'.tree tick.id = w.tree tick.id ∧ ∀ u, tick.id ≠ u → World.Spares u w w' := by
  rw [endVisit] at h
  cases hfinish : task.finish with
  | none =>
    rw [hfinish] at h
    cases h
    exact ⟨rfl, fun u _ => .refl u w⟩
  | some hook =>
    rw [hfinish] at h
    obtain ⟨answer, hperform, rfl⟩ := Outcome.map_eq_done_iff.1 h
    have hhook := Hook.perform_spares (hq.finish hfinish _ _) hperform
    exact ⟨(hhook _).tree, fun u hu => (World.spares_log (by simpa [Event.tree?] using hu) w).trans
      (hhook u)⟩

theorem endVisit_tree (hq : task.Asks Request.Quiet) {status : Status}
    {board board' : Blackboard} {w w' : World K A}
    (h : tick.endVisit handler index task status board w = .done board' w') (u : TreeId) :
    w'.tree u = w.tree u := by
  have hspared := endVisit_spares hq h
  by_cases hu : tick.id = u
  · rw [← hu, hspared.1]
  · exact (hspared.2 u hu).tree

theorem visit_spares (hq : task.Asks Request.Quiet) {resumed : Bool} {board : Blackboard}
    {w w' : World K A} {answer : Status × Blackboard}
    (h : tick.visit handler index task resumed board w = .done answer w') :
    w'.tree tick.id = w.tree tick.id ∧ ∀ u, tick.id ≠ u → World.Spares u w w' := by
  simp only [visit, Outcome.bind_eq_done_iff] at h
  obtain ⟨board₁, w₁, hbegin, result, w₂, hrun, hend⟩ := h
  have hstart : w₁.tree tick.id = w.tree tick.id ∧ ∀ u, tick.id ≠ u → World.Spares u w w₁ := by
    cases resumed with
    | true =>
      cases hbegin
      exact ⟨rfl, fun u _ => .refl u w⟩
    | false => exact beginVisit_spares hq hbegin
  have hhook := Hook.perform_spares (hq.run _) hrun
  have hran : ∀ u, tick.id ≠ u → World.Spares u w₂
      (w₂.log (.ran tick.id tick.agent index task.name result.1)) :=
    fun u hu => World.spares_log (by simpa [Event.tree?] using hu) w₂
  have hfirst := fun u hu => ((hstart.2 u hu).trans (hhook u)).trans (hran u hu)
  split at hend
  · obtain ⟨board₃, hfinish, rfl⟩ := Outcome.map_eq_done_iff.1 hend
    have hlast := endVisit_spares hq hfinish
    exact ⟨hlast.1.trans ((hhook _).tree.trans hstart.1),
      fun u hu => (hfirst u hu).trans (hlast.2 u hu)⟩
  · cases hend
    exact ⟨(hhook _).tree.trans hstart.1, hfirst⟩

/-! ## Ticks

What a tick changes in its own tree, while the agent's state is in its hands, is how
many random words are used. -/

/-- What a step of a tick does to trees that are ticking: nothing but draw from its own. -/
structure Confined (tick : Tick K A) (w w' : World K A) : Prop where
  own : ∃ drawn, w'.tree tick.id = { w.tree tick.id with drawn := drawn }
  others : ∀ u, tick.id ≠ u → (w.tree u).running → World.Spares u w w'

omit [DecidableEq K] in
theorem Confined.refl (tick : Tick K A) (w : World K A) : tick.Confined w w :=
  ⟨⟨(w.tree tick.id).drawn, rfl⟩, fun u _ _ => .refl u w⟩

omit [DecidableEq K] in
theorem Confined.trans {w w' w'' : World K A} (h : tick.Confined w w')
    (h' : tick.Confined w' w'') : tick.Confined w w'' := by
  obtain ⟨drawn, hown⟩ := h.own
  obtain ⟨drawn', hown'⟩ := h'.own
  refine ⟨⟨drawn', by rw [hown', hown]⟩, fun u hu hrunning => ?_⟩
  have hspared := h.others u hu hrunning
  exact hspared.trans (h'.others u hu (by rw [hspared.tree, hrunning]))

omit [DecidableEq K] in
theorem Confined.running {w w' : World K A} (h : tick.Confined w w') :
    (w'.tree tick.id).running = (w.tree tick.id).running := by
  obtain ⟨drawn, hown⟩ := h.own
  rw [hown]

omit [DecidableEq K] in
theorem Confined.poisoned {w w' : World K A} (h : tick.Confined w w') :
    (w'.tree tick.id).poisoned = (w.tree tick.id).poisoned := by
  obtain ⟨drawn, hown⟩ := h.own
  rw [hown]

theorem Confined.agent? {w w' : World K A} (h : tick.Confined w w') (a : K) :
    w'.agent? tick.id a = w.agent? tick.id a := by
  obtain ⟨drawn, hown⟩ := h.own
  rw [World.agent?, World.agent?, hown]

omit [DecidableEq K] in
theorem Confined.of_spares {w w' : World K A}
    (h : w'.tree tick.id = w.tree tick.id ∧ ∀ u, tick.id ≠ u → World.Spares u w w') :
    tick.Confined w w' :=
  ⟨⟨(w.tree tick.id).drawn, by rw [h.1]⟩, fun u hu _ => h.2 u hu⟩

omit [DecidableEq K] in
/-- An event of the tree itself, or of nobody, is confined. -/
theorem confined_log {e : Event K} (he : ∀ u, tick.id ≠ u → e.tree? ≠ some u) (w : World K A) :
    tick.Confined w (w.log e) :=
  .of_spares ⟨rfl, fun u hu => World.spares_log (he u hu) w⟩

theorem dispatch_confined {i : Instruction Nat K A}
    (hq : ∀ {task}, i.op = .task task → task.Asks Request.Quiet) (hh : handler.Spares)
    {resumed : Bool} {s : AgentState} {w w' : World K A} {answer : Move × AgentState}
    (hrunning : (w.tree tick.id).running)
    (h : tick.dispatch handler index resumed i s w = .done answer w') : tick.Confined w w' := by
  obtain ⟨op, yes, no⟩ := i
  cases op with
  | task task =>
    rw [dispatch_task _ _ rfl, Outcome.bind_eq_done_iff] at h
    obtain ⟨reply, w₁, hvisit, hdone⟩ := h
    cases hdone
    exact .of_spares (visit_spares (hq rfl) hvisit)
  | query q =>
    simp only [dispatch] at h
    split at h <;> cases h
    · exact .refl tick w
    · exact .refl tick w
    · exact confined_log (by simp [Event.tree?]) w
    · exact confined_log (by simp [Event.tree?]) w
  | subTree link =>
    rw [dispatch_subTree _ _ rfl, Outcome.bind_eq_done_iff] at h
    obtain ⟨result, w₁, hrun, hdone⟩ := h
    have hinner : tick.Confined w w₁ :=
      ⟨⟨(w.tree tick.id).drawn, by rw [(hh hrun hrunning).tree]⟩, fun u _ hu => hh hrun hu⟩
    cases result with
    | ok status =>
      cases hdone
      exact hinner
    | error e =>
      cases hdone
      exact hinner.trans (confined_log (by simp [Event.tree?]) w₁)
  | randomBranch table =>
    cases table with
    | nil =>
      cases h
      exact .refl tick w
    | cons first rest =>
      obtain ⟨⟨place, drawn⟩, hdraw⟩ : ∃ p,
          Random.draw tick.tree.words (rest.length + 1) (w.tree tick.id).drawn = p := ⟨_, rfl⟩
      rw [dispatch_randomBranch _ _ rfl _ _ _ _ hdraw] at h
      cases h
      have hdrawn : tick.Confined w (w.modifyTree tick.id fun t => { t with drawn := drawn }) :=
        ⟨⟨drawn, World.tree_modifyTree_self w _ _⟩, fun u hu _ => World.spares_modifyTree hu w _⟩
      exact hdrawn.trans (confined_log (by simp [Event.tree?]) _)
  | repeatStart | repeatCounter | hangingSucceed | hangingFail =>
    cases h
    exact .refl tick w

/-- The hooks of a program operate on no tree. -/
abbrev Quiet (tick : Tick K A) : Prop :=
  ∀ index task yes no,
    tick.tree.program.get? index = some ⟨.task task, yes, no⟩ → task.Asks Request.Quiet

omit [DecidableEq K] in
/-- A task that a quiet program has is quiet. -/
theorem quiet_task (hq : tick.Quiet) {i : Instruction Nat K A}
    (hget : tick.tree.program.get? index = some i) (hop : i.op = .task task) :
    task.Asks Request.Quiet := by
  obtain ⟨op, yes, no⟩ := i
  subst hop
  exact hq index task yes no hget

theorem advance_confined (hq : tick.Quiet) (hh : handler.Spares) {f : Frame} {w w' : World K A}
    {p : Progress} (hrunning : (w.tree tick.id).running)
    (h : tick.advance handler f w = .done p w') : tick.Confined w w' := by
  cases advance_cases h with
  | atEnd => exact .refl tick w
  | limited => exact confined_log (by simp [Event.tree?]) w
  | dispatched hget _ hdispatch _ =>
    have hlog : tick.Confined w (w.log (.dispatched tick.id tick.agent f.cursor)) :=
      confined_log (fun u hu => by simpa [Event.tree?] using hu) w
    exact hlog.trans (dispatch_confined (quiet_task hq hget) hh hrunning hdispatch)

theorem walk_confined (hq : tick.Quiet) (hh : handler.Spares) {n : Nat} {f : Frame}
    {w w' : World K A} {p : Progress} (hrunning : (w.tree tick.id).running)
    (h : tick.walk handler n f w = .done p w') : tick.Confined w w' := by
  induction n generalizing f w with
  | zero =>
    cases h
    exact .refl tick _
  | succ n ih =>
    rw [walk_succ, Outcome.bind_eq_done_iff] at h
    obtain ⟨p₁, w₁, hstep, hrest⟩ := h
    have hfirst := advance_confined hq hh hrunning hstep
    cases p₁ with
    | underway f₁ => exact hfirst.trans (ih (by rw [hfirst.running, hrunning]) hrest)
    | ended r s =>
      cases hrest
      exact hfirst

theorem perform_confined (hq : tick.Quiet) (hh : handler.Spares) {bound : Nat}
    {s : AgentState} {w w' : World K A} {answer : Except RunError Status × AgentState}
    (hrunning : (w.tree tick.id).running)
    (h : tick.perform handler bound s w = .done answer w') : tick.Confined w w' := by
  rw [perform] at h
  split at h
  · cases h
    exact .refl tick w
  · cases hwalk : tick.walk handler bound (.begin s) w with
    | cutOff w₁ => simp [hwalk] at h
    | done p w₁ =>
      rw [hwalk] at h
      cases p with
      | underway f => cases h
      | ended r s₁ =>
        cases h
        exact walk_confined hq hh hrunning hwalk

end Tick

/-! ## Runs -/

namespace Forest

variable {F : Forest K A}

omit [DecidableEq K] in
/-- Where the hooks of a forest operate on no tree, neither do those of the programs ticked. -/
theorem Asks.quiet (hF : F.Asks Request.Quiet) (t : TreeId) (a : K) : (F.tickOf t a).Quiet :=
  hF t

omit [DecidableEq K] in
theorem enter_spares {t u : TreeId} (htu : t ≠ u) (a : K) (w : World K A) :
    World.Spares u w (w.enter t a) :=
  (World.spares_modifyTree htu w _).trans (World.spares_log (by simp [Event.tree?]) _)

omit [DecidableEq K] in
theorem leave_spares {t u : TreeId} (htu : t ≠ u) (a : K) (r : Except RunError Status)
    (w : World K A) : World.Spares u w (w.leave t a r) :=
  (World.spares_modifyTree htu w _).trans
    (World.spares_log (by simpa [Event.tree?] using htu) _)

theorem run_spares (hF : F.Asks Request.Quiet) (hh : handler.Spares) {bound : Nat}
    {t u : TreeId} {a : K} {w w' : World K A} {r : Except RunError Status}
    (h : F.run handler bound t a w = .done r w') (hrunning : (w.tree u).running) :
    World.Spares u w w' := by
  by_cases htu : t = u
  · subst htu
    cases run_cases h with
    | refused => exact World.spares_log (by simp [Event.tree?]) w
    | poisoned hidle | lost hidle | ticked hidle => rw [hidle] at hrunning; cases hrunning
  · have hin := enter_spares htu a w
    have hout := hin.trans (World.spares_checkOut htu _ a)
    have htick : ∀ {answer w₁}, (F.tickOf t a).perform handler bound (w.state t a)
        ((w.enter t a).checkOut t a) = .done answer w₁ → World.Spares u w w₁ := by
      intro answer w₁ hperform
      have hconfined := Tick.perform_confined (hF.quiet t a) hh (by simp) hperform
      exact hout.trans (hconfined.others u htu (by rw [hout.tree, hrunning]))
    cases run_cases h with
    | refused => exact World.spares_log (by simp [Event.tree?]) w
    | poisoned => exact hin.trans (leave_spares htu a _ _)
    | lost _ _ hperform => exact (htick hperform).trans (leave_spares htu a _ _)
    | ticked _ _ hperform =>
      exact ((htick hperform).trans (World.spares_checkIn htu _ a _)).trans (leave_spares htu a _ _)

/-- In a forest whose hooks operate on no tree, a run leaves the trees that are ticking
alone. -/
theorem serve_spares (hF : F.Asks Request.Quiet) (bound : Nat) : (F.serve bound).Spares := by
  induction bound with
  | zero => exact fun h _ => by cases h
  | succ bound ih => exact fun h hrunning => run_spares hF ih h hrunning

/-- A tick of a tree that is neither ticking nor poisoned comes to its result. -/
theorem ticked_of_run (hF : F.Asks Request.Quiet) (hh : handler.Spares) {bound : Nat} {t : TreeId}
    {a : K} {w w' : World K A} {r : Except RunError Status} (hidle : (w.tree t).running = false)
    (hsound : (w.tree t).poisoned = false) (h : F.run handler bound t a w = .done r w') :
    ∃ s w₁, (F.tickOf t a).perform handler bound (w.state t a) ((w.enter t a).checkOut t a) =
      .done (r, s) w₁ ∧ w' = (w₁.checkIn t a s).leave t a r := by
  cases run_cases h with
  | refused hrefused => simp [hidle] at hrefused
  | poisoned _ hrefused => simp [hsound] at hrefused
  | lost _ _ hperform hlost =>
    rw [(Tick.perform_confined (hF t) hh (by simp) hperform).poisoned] at hlost
    simp [hsound] at hlost
  | ticked _ _ hperform _ => exact ⟨_, _, hperform, rfl⟩

end Forest

end TickTree
