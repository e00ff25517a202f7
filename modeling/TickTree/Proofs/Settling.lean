import TickTree.Proofs.Protocol

/-!
# What ticks begin and take up again

In a forest whose hooks operate on no tree, a tick that does not suspend its agent leaves no task
suspended but those that it does not come across (`Forest.serve_settles`). And wherever an agent is
suspended on a task, along links from the tree that is ticked, the first hook of that tree which
the tick calls is the run of this task (`Forest.Reaches.resumes`).
-/

namespace TickTree

variable {K A : Type} [DecidableEq K]

/-- An agent is suspended on no task of a tree, or nothing has happened to it there. -/
def Forest.Settles (F : Forest K A) (t : TreeId) (a : K) (w w' : World K A) : Prop :=
  F.openTask t a w' = none ∨ (w'.agent? t a = w.agent? t a ∧ w'.calls t a = w.calls t a)

/-- Runs that suspend nothing settle. -/
def Handler.Settles (F : Forest K A) (t : TreeId) (a : K) (handler : Handler K A) : Prop :=
  ∀ {u b w r w'}, r ≠ .ok .running → handler (.run u b) w = .done r w' → F.Settles t a w w'

section

variable {F : Forest K A} {t : TreeId} {a : K} {w w' w'' : World K A}

theorem Forest.Settles.trans (h : F.Settles t a w w') (h' : F.Settles t a w' w'') :
    F.Settles t a w w'' := by
  rcases h' with hclosed | ⟨hagent', hcalls'⟩
  · exact .inl hclosed
  · rcases h with hclosed | ⟨hagent, hcalls⟩
    · exact .inl ((Forest.openTask_of_agent? hagent').trans hclosed)
    · exact .inr ⟨hagent'.trans hagent, hcalls'.trans hcalls⟩

end

/-! ## Ticks -/

namespace Tick

variable {F : Forest K A} {tick : Tick K A} {handler : Handler K A} {t : TreeId} {a : K}
  {w w' : World K A} {index : Nat}

/-- An instruction after which a walk is not suspended settles where its link does. -/
theorem dispatch_settles (hne : ¬ (tick.id = t ∧ tick.agent = a)) {i : Instruction Nat K A}
    (hq : ∀ {task}, i.op = .task task → task.Asks Request.Quiet) (hh : handler.Settles F t a)
    {f : Frame} {answer : Move × AgentState}
    (h : tick.dispatch handler index f.resumed i f.state w = .done answer w')
    (hgoes : ∀ s, follow f answer ≠ .ended (.ok .running) s) : F.Settles t a w w' := by
  by_cases hlink : ∃ link, i.op = .subTree link
  · obtain ⟨link, hop⟩ := hlink
    rw [dispatch_subTree _ _ hop, Outcome.bind_eq_done_iff] at h
    obtain ⟨result, w₁, hrun, hdone⟩ := h
    cases result with
    | ok status =>
      cases hdone
      refine hh ?_ hrun
      rintro ⟨⟩
      exact hgoes _ rfl
    | error e =>
      cases hdone
      exact (hh (by simp) hrun).trans (.inr ⟨rfl, World.calls_log_of_not rfl w₁⟩)
  · exact .inr (dispatch_beside hne hq (fun link hop => hlink ⟨link, hop⟩) h)

theorem advance_settles (hne : ¬ (tick.id = t ∧ tick.agent = a)) (hq : tick.Quiet)
    (hh : handler.Settles F t a) {f : Frame} {p : Progress}
    (hp : ∀ s, p ≠ .ended (.ok .running) s) (h : tick.advance handler f w = .done p w') :
    F.Settles t a w w' := by
  cases advance_cases h with
  | atEnd => exact .inr ⟨rfl, rfl⟩
  | limited => exact .inr ⟨rfl, World.calls_log_of_not rfl w⟩
  | dispatched hget _ hdispatch hfollow =>
    subst hfollow
    have hlog : F.Settles t a w (w.log (.dispatched tick.id tick.agent f.cursor)) :=
      .inr ⟨rfl, World.calls_log_of_not rfl w⟩
    exact hlog.trans (dispatch_settles hne (quiet_task hq hget) hh hdispatch hp)

theorem walk_settles (hne : ¬ (tick.id = t ∧ tick.agent = a)) (hq : tick.Quiet)
    (hh : handler.Settles F t a) {n : Nat} {f : Frame} {r : Except RunError Status}
    {s : AgentState} (hr : r ≠ .ok .running)
    (h : tick.walk handler n f w = .done (.ended r s) w') : F.Settles t a w w' := by
  induction n generalizing f w with
  | zero => cases h
  | succ n ih =>
    rw [walk_succ, Outcome.bind_eq_done_iff] at h
    obtain ⟨p, w₁, hstep, hrest⟩ := h
    cases p with
    | underway f₁ => exact (advance_settles hne hq hh (by simp) hstep).trans (ih hrest)
    | ended r₁ s₁ =>
      cases hrest
      exact advance_settles hne hq hh (by simpa using hr) hstep

theorem perform_settles (hne : ¬ (tick.id = t ∧ tick.agent = a)) (hq : tick.Quiet)
    (hh : handler.Settles F t a) {bound : Nat} {s s' : AgentState} {r : Except RunError Status}
    (hr : r ≠ .ok .running) (h : tick.perform handler bound s w = .done (r, s') w') :
    F.Settles t a w w' := by
  by_cases hin : s.cursor < tick.tree.program.length
  · exact walk_settles hne hq hh hr (walk_of_perform hin h)
  · rw [perform, if_pos (Nat.le_of_not_lt hin)] at h
    cases h
    exact .inr ⟨rfl, rfl⟩

end Tick

namespace Forest

variable {F : Forest K A} {handler : Handler K A} {t u : TreeId} {a b : K} {w w' v : World K A}

theorem run_settles (hF : F.Asks Request.Quiet) (hs : handler.Spares)
    (hh : handler.Settles F t a) {n : Nat} {r : Except RunError Status} (hr : r ≠ .ok .running)
    (h : F.run handler n u b w = .done r w') : F.Settles t a w w' := by
  cases run_cases h with
  | refused => exact .inr ⟨rfl, World.calls_log_of_not rfl w⟩
  | poisoned =>
    exact .inr ⟨by rw [World.agent?_leave, World.agent?_enter], by rw [calls_leave, calls_enter]⟩
  | lost _ hpoisoned hperform hlost =>
    rw [(Tick.perform_confined (hF u) hs (by simp) hperform).poisoned] at hlost
    simp [hpoisoned] at hlost
  | @ticked r s w₁ _ _ hperform _ =>
    by_cases hub : u = t ∧ b = a
    · obtain ⟨rfl, rfl⟩ := hub
      refine .inl ?_
      rw [openTask, World.agent?_ticked]
      exact Tree.openTask_unpaused (Tick.perform_unpaused hr hperform)
    · have hin : F.Settles t a w ((w.enter u b).checkOut u b) := by
        refine .inr ⟨?_, calls_enter w u t b a⟩
        rw [World.agent?_checkOut, if_neg hub, World.agent?_enter]
      have hout : F.Settles t a w₁ ((w₁.checkIn u b s).leave u b r) := by
        refine .inr ⟨?_, calls_leave (w₁.checkIn u b s) u t b a r⟩
        rw [World.agent?_leave, World.agent?_checkIn, if_neg hub]
      exact (hin.trans (Tick.perform_settles hub (hF u) hh hr hperform)).trans hout

/-- A run that suspends nothing leaves no task suspended but where it does nothing. -/
theorem serve_settles (hF : F.Asks Request.Quiet) (bound : Nat) :
    (F.serve bound).Settles F t a := by
  induction bound with
  | zero =>
    intro u b w r w' _ h
    cases h
  | succ bound ih =>
    intro u b w r w' hr h
    exact run_settles hF (serve_spares hF bound) ih hr h

end Forest

/-! ## Suspended tasks -/

namespace Tick

variable {F : Forest K A} {tick : Tick K A} {handler : Handler K A} {w w' : World K A}

/-- Calls are added to those that were made. -/
theorem walk_calls (hq : tick.Quiet) (hs : handler.Spares) (hh : F.CarriedBy handler) {n : Nat}
    {f : Frame} {p : Progress} (hfresh : f.resumed = true → f.spent = 0)
    (hrunning : (w.tree tick.id).running) (h : tick.walk handler n f w = .done p w') (t : TreeId)
    (a : K) : ∃ new, w'.calls t a = w.calls t a ++ new := by
  by_cases hta : tick.id = t ∧ tick.agent = a
  · obtain ⟨rfl, rfl⟩ := hta
    obtain ⟨new, hcalls, -⟩ := walk_continues hq hs hfresh hrunning h
    exact ⟨new, hcalls⟩
  · obtain ⟨new, hcalls, -⟩ := walk_carries hta hq hh h
    exact ⟨new, hcalls⟩

/-- A tick in its program makes a step, whatever its limit, and then adds calls. -/
theorem perform_first (hq : tick.Quiet) (hs : handler.Spares) (hh : F.CarriedBy handler)
    {bound : Nat} {s : AgentState} {i : Instruction Nat K A}
    {answer : Except RunError Status × AgentState}
    (hget : tick.tree.program.get? s.cursor = some i) (hrunning : (w.tree tick.id).running)
    (h : tick.perform handler bound s w = .done answer w') :
    ∃ reply w₁, tick.dispatch handler s.cursor s.paused i { s with paused := false }
        (w.log (.dispatched tick.id tick.agent s.cursor)) = .done reply w₁ ∧
      ∀ t a, ∃ new, w'.calls t a = w₁.calls t a ++ new := by
  obtain ⟨r, s'⟩ := answer
  have hwalk := walk_of_perform (List.getElem?_eq_some_iff.1 hget).1 h
  cases bound with
  | zero => cases hwalk
  | succ bound =>
    rw [walk_succ, Outcome.bind_eq_done_iff] at hwalk
    obtain ⟨p, w₁, hstep, hrest⟩ := hwalk
    have hconfined := advance_confined hq hs hrunning hstep
    cases advance_cases hstep with
    | atEnd hnone => simp [Frame.begin, hget] at hnone
    | limited _ hex =>
      rw [tick.exhausted_unspent rfl] at hex
      cases hex
    | dispatched hget' _ hdispatch =>
      rw [show (Frame.begin s).cursor = s.cursor from rfl, hget] at hget'
      cases hget'
      refine ⟨_, w₁, hdispatch, fun t a => ?_⟩
      cases p with
      | ended r' s₁ =>
        cases hrest
        exact ⟨[], (List.append_nil _).symm⟩
      | underway f =>
        exact walk_calls hq hs hh (by simp [advance_underway hstep])
          (by rw [hconfined.running, hrunning]) hrest t a

end Tick

namespace Forest

variable {F : Forest K A} {t u : TreeId} {a : K} {w w' v : World K A}

/-- What is reached depends on where agents stand. -/
theorem Reaches.of_same (h : F.Reaches a w t u) (hagent : ∀ x, v.agent? x a = w.agent? x a)
    (hpoisoned : ∀ x, (v.tree x).poisoned = (w.tree x).poisoned) : F.Reaches a v t u := by
  induction h generalizing v with
  | here hsound hs => exact .here ((hpoisoned _).trans hsound) ((hagent _).trans hs)
  | @link w t u s link hsound hs hawaited _ ih =>
    refine .link ((hpoisoned t).trans hsound) ((hagent t).trans hs) hawaited
      (ih (fun x => ?_) fun x => ?_)
    · rw [World.agent?_checkOut, World.agent?_checkOut, hagent]
    · rw [(sameBeside_checkOut t a v).poisoned, (sameBeside_checkOut t a w).poisoned, hpoisoned]

/-- The tick of an agent that is suspended on a task of the tree first of all runs this task
again. -/
theorem resumes (hF : F.Asks Request.Quiet) (hidle : (w.tree t).running = false)
    (hsound : (w.tree t).poisoned = false) {index : Nat} (hopen : F.openTask t a w = some index)
    {n : Nat} {r : Except RunError Status} (hrun : F.run (F.serve n) n t a w = .done r w') :
    ∃ task result new, (F.tree t).program.HasTask index task ∧
      w'.calls t a = w.calls t a ++ running t a index task result :: new := by
  rw [openTask_state] at hopen
  obtain ⟨hpaused, hcursor, task, i, hget, hop⟩ := Tree.openTask_inv hopen
  obtain ⟨s', w₁, hperform, rfl⟩ := ticked_of_run hF (serve_spares hF n) hidle hsound hrun
  rw [← hcursor] at hget
  obtain ⟨reply, w₂, hdispatch, hlater⟩ := Tick.perform_first (hF t) (serve_spares hF n)
    (serve_carries hF n) hget (by simp) hperform
  obtain ⟨new, hnew⟩ := hlater t a
  rw [Tick.dispatch_task _ _ hop, Outcome.bind_eq_done_iff] at hdispatch
  obtain ⟨answer, w₃, hvisit, hdone⟩ := hdispatch
  cases hdone
  obtain ⟨result, -, hcalls⟩ :=
    Tick.visit_calls (Tick.quiet_task (hF.quiet t a) hget hop) hvisit
  have hbefore : (((w.enter t a).checkOut t a).log (.dispatched t a (w.state t a).cursor)).calls t a
      = w.calls t a := (World.calls_log_of_not rfl _).trans (calls_enter w t t a a)
  obtain ⟨closing, hvisited⟩ : ∃ closing, visited t a index task true result =
      running t a index task result :: closing := ⟨_, rfl⟩
  refine ⟨task, result, closing ++ new, ⟨i, hcursor ▸ hget, hop⟩, ?_⟩
  calc ((w₁.checkIn t a s').leave t a r).calls t a
      = w₁.calls t a := calls_leave (w₁.checkIn t a s') t t a a r
    _ = w₂.calls t a ++ new := hnew
    _ = w.calls t a ++ running t a index task result :: (closing ++ new) := by
        rw [hcalls, hbefore, if_pos ⟨rfl, rfl⟩, hpaused, hcursor, hvisited, List.append_assoc]
        rfl

/-- The tick of an agent that is suspended on a task, along links if need be, first of all runs this
task again. -/
theorem Reaches.resumes (hF : F.Asks Request.Quiet) (h : F.Reaches a w t u)
    (hidle : ∀ x, F.Reaches a w t x → (w.tree x).running = false) {index : Nat}
    (hopen : F.openTask u a w = some index) {n : Nat} {r : Except RunError Status}
    (hrun : F.serve n (.run t a) w = .done r w') :
    ∃ task result new, (F.tree u).program.HasTask index task ∧
      w'.calls u a = w.calls u a ++ running u a index task result :: new := by
  induction n generalizing t w r w' with
  | zero => cases hrun
  | succ n ih =>
    obtain ⟨hsound, s, hs, hwhere⟩ := h.inv
    have htidle := hidle t (.here hsound hs)
    rcases hwhere with rfl | ⟨link, hawaited, hnext⟩
    · exact Forest.resumes hF htidle hsound hopen hrun
    have htu : t ≠ u := by
      rintro rfl
      exact not_reaches_checkOut hnext
    obtain ⟨i, hget, hop⟩ := Tree.awaited_inv hawaited
    obtain ⟨s', w₁, hperform, rfl⟩ := ticked_of_run hF (serve_spares hF n) htidle hsound hrun
    rw [World.state_of_agent? hs] at hperform
    obtain ⟨reply, w₂, hdispatch, hlater⟩ := Tick.perform_first (hF t) (serve_spares hF n)
      (serve_carries hF n) hget (by simp) hperform
    obtain ⟨later, hlater⟩ := hlater u a
    rw [Tick.dispatch_subTree _ _ hop, Outcome.bind_eq_done_iff] at hdispatch
    obtain ⟨result, w₃, hlinked, hdone⟩ := hdispatch
    -- The linked tree is ticked as if the agent had only been taken out of this tree.
    obtain ⟨v, hv⟩ : ∃ v, v = ((w.enter t a).checkOut t a).log (.dispatched t a s.cursor) :=
      ⟨_, rfl⟩
    have htree : ∀ x, t ≠ x → v.tree x = w.tree x := by
      intro x htx
      rw [hv, World.tree_log, World.tree_checkOut_of_ne _ a htx, World.tree_enter_of_ne w a htx]
    have hagent : ∀ x, v.agent? x a = (w.checkOut t a).agent? x a := by
      intro x
      have hlog : v.agent? x a = ((w.enter t a).checkOut t a).agent? x a := by rw [hv]; rfl
      rw [hlog, World.agent?_checkOut, World.agent?_checkOut, World.agent?_enter]
    have hpoisoned : ∀ x, (v.tree x).poisoned = ((w.checkOut t a).tree x).poisoned := by
      intro x
      by_cases htx : t = x
      · subst htx
        simp [hv]
      · rw [htree x htx, World.tree_checkOut_of_ne w a htx]
    have hreach : F.Reaches a v link.tree u := hnext.of_same hagent hpoisoned
    have hopen' : F.openTask u a v = some index := by
      rw [openTask_of_agent? (hagent u), openTask_of_agent? ((sameBeside_checkOut t a w).agent?
        fun h => htu h.1), hopen]
    have hidle' : ∀ x, F.Reaches a v link.tree x → (v.tree x).running = false := by
      intro x hx
      have hx' : F.Reaches a (w.checkOut t a) link.tree x :=
        hx.of_same (fun y => (hagent y).symm) fun y => (hpoisoned y).symm
      have htx : t ≠ x := by
        rintro rfl
        exact not_reaches_checkOut hx'
      rw [htree x htx]
      exact hidle x (.link hsound hs hawaited hx')
    rw [show ((w.enter t a).checkOut t a).log (.dispatched t a s.cursor) = v from hv.symm]
      at hlinked
    obtain ⟨task, answer, new, htask, hcalls⟩ := ih hreach hidle' hopen' hlinked
    refine ⟨task, answer, new ++ later, htask, ?_⟩
    have hinner : w₂.calls u a = w₃.calls u a := by
      cases result with
      | ok status =>
        cases hdone
        rfl
      | error e =>
        cases hdone
        exact World.calls_log_of_not rfl w₃
    have hbefore : v.calls u a = w.calls u a := by
      rw [hv]
      exact (World.calls_log_of_not rfl _).trans (calls_enter w t u a a)
    calc ((w₁.checkIn t a s').leave t a r).calls u a
        = w₁.calls u a := calls_leave (w₁.checkIn t a s') t u a a r
      _ = w₂.calls u a ++ later := hlater
      _ = w.calls u a ++ running u a index task answer :: (new ++ later) := by
          rw [hinner, hcalls, hbefore, List.append_assoc]
          rfl

end Forest

end TickTree
