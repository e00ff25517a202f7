import TickTree.Proofs.Quiet

/-!
# What a tick dispatches

A tree's own dispatches are counted in the journal (`World.dispatches`). While a tree with quiet
hooks is ticking, its walk alone adds to them, one for each instruction it stands at
(`Tick.advance_dispatches`): hooks dispatch nothing, and no linked tree can tick it meanwhile.

Quiet hooks always answer. So a step of a walk is made whenever the ticks in linked trees come to
an end (`Tick.advance_answers`).
-/

namespace TickTree

variable {K A : Type}

/-! ## Counting dispatches -/

/-- A dispatch of an instruction of a tree. -/
def Event.isDispatch (t : TreeId) : Event K → Bool
  | .dispatched u .. => u = t
  | _ => false

/-- How many instructions of a tree have been dispatched so far. -/
def World.dispatches (t : TreeId) (w : World K A) : Nat := w.journal.countP (·.isDispatch t)

namespace World

variable {t : TreeId} {w w' : World K A}

theorem dispatches_log (t : TreeId) (w : World K A) (e : Event K) :
    (w.log e).dispatches t = w.dispatches t + if e.isDispatch t then 1 else 0 := by
  simp [dispatches, log, List.countP_cons]

theorem dispatches_log_of_not {e : Event K} (h : e.isDispatch t = false) (w : World K A) :
    (w.log e).dispatches t = w.dispatches t := by
  simp [dispatches_log, h]

theorem dispatches_dispatched (t : TreeId) (a : K) (index : Nat) (w : World K A) :
    (w.log (.dispatched t a index)).dispatches t = w.dispatches t + 1 := by
  simp [dispatches_log, Event.isDispatch]

@[simp]
theorem dispatches_modifyTree (t u : TreeId) (f : TreeState K → TreeState K) (w : World K A) :
    (w.modifyTree u f).dispatches t = w.dispatches t := rfl

/-- Dispatches of a tree are events of the tree. -/
theorem Spares.dispatches (h : World.Spares t w w') : w'.dispatches t = w.dispatches t := by
  have hevents : ∀ journal : List (Event K),
      (eventsOf t journal).countP (·.isDispatch t) = journal.countP (·.isDispatch t) := by
    intro journal
    rw [eventsOf, List.countP_filter]
    refine List.countP_congr fun e _ => ?_
    cases e <;> simp [Event.isDispatch, Event.tree?]
  rw [World.dispatches, World.dispatches, ← hevents, h.events, hevents]

end World

variable [DecidableEq K] {handler : Handler K A}

namespace World

variable (t u : TreeId) (a : K) (w : World K A)

omit [DecidableEq K] in
@[simp]
theorem dispatches_enter : (w.enter u a).dispatches t = w.dispatches t :=
  dispatches_log_of_not rfl _

omit [DecidableEq K] in
@[simp]
theorem dispatches_leave (r : Except RunError Status) :
    (w.leave u a r).dispatches t = w.dispatches t :=
  dispatches_log_of_not rfl _

@[simp]
theorem dispatches_checkOut : (w.checkOut u a).dispatches t = w.dispatches t := rfl

@[simp]
theorem dispatches_checkIn (s : AgentState) : (w.checkIn u a s).dispatches t = w.dispatches t := rfl

end World

namespace Tick

variable {tick : Tick K A} {task : RunnableTask K A} {index : Nat} {w w' : World K A}

theorem beginVisit_dispatches (hq : task.Asks Request.Quiet) {board board' : Blackboard}
    (h : tick.beginVisit handler index task board w = .done board' w') (t : TreeId) :
    w'.dispatches t = w.dispatches t := by
  rw [beginVisit] at h
  cases hstart : task.start with
  | none =>
    rw [hstart] at h
    cases h
    rfl
  | some hook =>
    rw [hstart] at h
    obtain ⟨answer, hperform, rfl⟩ := Outcome.map_eq_done_iff.1 h
    exact (Hook.perform_spares (hq.start hstart _) hperform t).dispatches.trans
      (World.dispatches_log_of_not rfl w)

theorem endVisit_dispatches (hq : task.Asks Request.Quiet) {status : Status}
    {board board' : Blackboard}
    (h : tick.endVisit handler index task status board w = .done board' w') (t : TreeId) :
    w'.dispatches t = w.dispatches t := by
  rw [endVisit] at h
  cases hfinish : task.finish with
  | none =>
    rw [hfinish] at h
    cases h
    rfl
  | some hook =>
    rw [hfinish] at h
    obtain ⟨answer, hperform, rfl⟩ := Outcome.map_eq_done_iff.1 h
    exact (Hook.perform_spares (hq.finish hfinish _ _) hperform t).dispatches.trans
      (World.dispatches_log_of_not rfl w)

theorem visit_dispatches (hq : task.Asks Request.Quiet) {resumed : Bool} {board : Blackboard}
    {answer : Status × Blackboard}
    (h : tick.visit handler index task resumed board w = .done answer w') (t : TreeId) :
    w'.dispatches t = w.dispatches t := by
  simp only [visit, Outcome.bind_eq_done_iff] at h
  obtain ⟨board₁, w₁, hbegin, result, w₂, hrun, hend⟩ := h
  have hstart : w₁.dispatches t = w.dispatches t := by
    cases resumed with
    | true =>
      cases hbegin
      rfl
    | false => exact beginVisit_dispatches hq hbegin t
  have hran : (w₂.log (.ran tick.id tick.agent index task.name result.1)).dispatches t =
      w.dispatches t :=
    (World.dispatches_log_of_not rfl w₂).trans
      ((Hook.perform_spares (hq.run _) hrun t).dispatches.trans hstart)
  split at hend
  · obtain ⟨board₃, hfinish, rfl⟩ := Outcome.map_eq_done_iff.1 hend
    exact (endVisit_dispatches hq hfinish t).trans hran
  · cases hend
    exact hran

theorem dispatch_dispatches {i : Instruction Nat K A}
    (hq : ∀ {task}, i.op = .task task → task.Asks Request.Quiet) (hh : handler.Spares)
    {resumed : Bool} {s : AgentState} {answer : Move × AgentState}
    (hrunning : (w.tree tick.id).running)
    (h : tick.dispatch handler index resumed i s w = .done answer w') :
    w'.dispatches tick.id = w.dispatches tick.id := by
  obtain ⟨op, yes, no⟩ := i
  cases op with
  | task task =>
    rw [dispatch_task _ _ rfl, Outcome.bind_eq_done_iff] at h
    obtain ⟨reply, w₁, hvisit, hdone⟩ := h
    cases hdone
    exact visit_dispatches (hq rfl) hvisit tick.id
  | query q =>
    simp only [dispatch] at h
    split at h <;> cases h
    · rfl
    · rfl
    · exact World.dispatches_log_of_not rfl w
    · exact World.dispatches_log_of_not rfl w
  | subTree link =>
    rw [dispatch_subTree _ _ rfl, Outcome.bind_eq_done_iff] at h
    obtain ⟨result, w₁, hrun, hdone⟩ := h
    have hinner := (hh hrun hrunning).dispatches
    cases result with
    | ok status =>
      cases hdone
      exact hinner
    | error e =>
      cases hdone
      exact (World.dispatches_log_of_not rfl w₁).trans hinner
  | randomBranch table =>
    cases table with
    | nil =>
      cases h
      rfl
    | cons first rest =>
      obtain ⟨⟨place, drawn⟩, hdraw⟩ : ∃ p,
          Random.draw tick.tree.words (rest.length + 1) (w.tree tick.id).drawn = p := ⟨_, rfl⟩
      rw [dispatch_randomBranch _ _ rfl _ _ _ _ hdraw] at h
      cases h
      exact World.dispatches_log_of_not rfl _
  | repeatStart | repeatCounter | hangingSucceed | hangingFail =>
    cases h
    rfl

/-- A step of a walk dispatches the instruction it stands at, unless there is none or the limit is
used up: then it ends the walk. -/
theorem advance_dispatches (hq : tick.Quiet) (hh : handler.Spares) {f : Frame} {p : Progress}
    (hrunning : (w.tree tick.id).running) (h : tick.advance handler f w = .done p w') :
    (w'.dispatches tick.id = w.dispatches tick.id ∧ ∃ r s, p = .ended r s) ∨
      ∃ i answer, tick.tree.program.get? f.cursor = some i ∧
        w'.dispatches tick.id = w.dispatches tick.id + 1 ∧
        tick.dispatch handler f.cursor f.resumed i f.state
          (w.log (.dispatched tick.id tick.agent f.cursor)) = .done answer w' ∧
        p = follow f answer := by
  cases advance_cases h with
  | atEnd => exact .inl ⟨rfl, _, _, rfl⟩
  | limited => exact .inl ⟨World.dispatches_log_of_not rfl w, _, _, rfl⟩
  | @dispatched i answer _ _ hget _ hdispatch hfollow =>
    refine .inr ⟨i, answer, hget, ?_, hdispatch, hfollow.symm⟩
    rw [dispatch_dispatches (quiet_task hq hget) hh (by simpa using hrunning) hdispatch]
    exact World.dispatches_dispatched ..

end Tick

/-! ## Quiet hooks answer -/

/-- A quiet hook asks for nothing that may not be answered. -/
theorem Hook.Asks.performs {α : Type} {hook : Hook K A α} (hq : hook.Asks Request.Quiet)
    (handler : Handler K A) (board : Blackboard) (w : World K A) :
    ∃ answer w', hook.perform handler board w = .done answer w' := by
  induction hook generalizing board w with
  | done a => exact ⟨_, _, rfl⟩
  | ask r next ih =>
    have hreply : ∃ reply w', r.answer handler board w = .done reply w' := by
      cases r with
      | call c => exact hq.inv.1.elim
      | board | setBoard | ambient | setAmbient | registry | inspect | note => exact ⟨_, _, rfl⟩
    obtain ⟨reply, w', hreply⟩ := hreply
    obtain ⟨answer, w'', hanswer⟩ := ih reply.1 (hq.inv.2 reply.1) reply.2 w'
    exact ⟨answer, w'', by rw [Hook.perform_ask, hreply, Outcome.bind_done, hanswer]⟩

namespace Tick

section

variable (tick : Tick K A) (handler : Handler K A) {task : RunnableTask K A} (index : Nat)

theorem beginVisit_answers (hq : task.Asks Request.Quiet) (board : Blackboard) (w : World K A) :
    ∃ board' w', tick.beginVisit handler index task board w = .done board' w' := by
  rw [beginVisit]
  cases hstart : task.start with
  | none => exact ⟨_, _, rfl⟩
  | some hook =>
    obtain ⟨answer, w', hperform⟩ := (hq.start hstart tick.agent).performs handler board
      (w.log (.started tick.id tick.agent index task.name))
    exact ⟨answer.2, w', Outcome.map_eq_done_iff.2 ⟨answer, hperform, rfl⟩⟩

theorem endVisit_answers (hq : task.Asks Request.Quiet) (status : Status) (board : Blackboard)
    (w : World K A) :
    ∃ board' w', tick.endVisit handler index task status board w = .done board' w' := by
  rw [endVisit]
  cases hfinish : task.finish with
  | none => exact ⟨_, _, rfl⟩
  | some hook =>
    obtain ⟨answer, w', hperform⟩ := (hq.finish hfinish tick.agent status).performs handler board
      (w.log (.finished tick.id tick.agent index task.name status))
    exact ⟨answer.2, w', Outcome.map_eq_done_iff.2 ⟨answer, hperform, rfl⟩⟩

theorem visit_answers (hq : task.Asks Request.Quiet) (resumed : Bool) (board : Blackboard)
    (w : World K A) :
    ∃ answer w', tick.visit handler index task resumed board w = .done answer w' := by
  have hbegin : ∃ board' w', (if resumed then .done board w
      else tick.beginVisit handler index task board w) = .done board' w' := by
    cases resumed with
    | true => exact ⟨_, _, rfl⟩
    | false => exact tick.beginVisit_answers handler index hq board w
  obtain ⟨board₁, w₁, hbegin⟩ := hbegin
  obtain ⟨answer, w₂, hrun⟩ := (hq.run tick.agent).performs handler board₁ w₁
  simp only [visit, hbegin, Outcome.bind_done, hrun]
  split
  · obtain ⟨board₃, w₃, hend⟩ := tick.endVisit_answers handler index hq
      (TaskResult.status answer.1) answer.2
      (w₂.log (.ran tick.id tick.agent index task.name answer.1))
    exact ⟨_, w₃, Outcome.map_eq_done_iff.2 ⟨board₃, hend, rfl⟩⟩
  · exact ⟨_, _, rfl⟩

end

/-- A step of a walk is made, if the tick that it links to comes to an end. -/
theorem advance_answers {tick : Tick K A} (hq : tick.Quiet) {f : Frame} {w : World K A}
    (hlink : ∀ {i : Instruction Nat K A} {link : Link},
      tick.tree.program.get? f.cursor = some i → tick.exhausted f = none → i.op = .subTree link →
        ∃ reply w', handler (.run link.tree tick.agent)
          (w.log (.dispatched tick.id tick.agent f.cursor)) = .done reply w') :
    ∃ p w', tick.advance handler f w = .done p w' := by
  rw [advance]
  cases hget : tick.tree.program.get? f.cursor with
  | none => exact ⟨_, _, rfl⟩
  | some i =>
    cases hex : tick.exhausted f with
    | some limit => exact ⟨_, _, rfl⟩
    | none =>
      suffices h : ∃ answer w', tick.dispatch handler f.cursor f.resumed i f.state
          (w.log (.dispatched tick.id tick.agent f.cursor)) = .done answer w' by
        obtain ⟨answer, w', hdispatch⟩ := h
        exact ⟨_, w', Outcome.map_eq_done_iff.2 ⟨answer, hdispatch, rfl⟩⟩
      obtain ⟨op, yes, no⟩ := i
      cases op with
      | task task =>
        obtain ⟨answer, w', hvisit⟩ := tick.visit_answers handler f.cursor
          (hq f.cursor task yes no hget) f.resumed f.state.board _
        exact ⟨_, w', by rw [dispatch_task _ _ rfl, hvisit]; rfl⟩
      | subTree link =>
        obtain ⟨reply, w', hrun⟩ := hlink hget hex rfl
        rw [dispatch_subTree _ _ rfl, hrun]
        cases reply with
        | ok status => exact ⟨_, _, rfl⟩
        | error e => exact ⟨_, _, rfl⟩
      | query q =>
        simp only [dispatch]
        split <;> exact ⟨_, _, rfl⟩
      | randomBranch table =>
        cases table with
        | nil => exact ⟨_, _, rfl⟩
        | cons first rest =>
          obtain ⟨⟨place, drawn⟩, hdraw⟩ : ∃ p, Random.draw tick.tree.words (rest.length + 1)
            ((w.log (.dispatched tick.id tick.agent f.cursor)).tree tick.id).drawn = p := ⟨_, rfl⟩
          exact ⟨_, _, dispatch_randomBranch _ _ rfl _ _ _ _ hdraw⟩
      | repeatStart | repeatCounter | hangingSucceed | hangingFail => exact ⟨_, _, rfl⟩

end Tick

end TickTree
