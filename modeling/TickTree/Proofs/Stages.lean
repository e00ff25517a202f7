import TickTree.Proofs.Bounds
import TickTree.Proofs.Dispatches

/-!
# Ticks taken stage by stage

After so many instructions a tick stands somewhere in its program (`Forest.Stage`), and it has its
answer when a step from there ends it (`Forest.Stage.answers`, `Forest.Answers.stage`).

Quiet hooks always answer. So after any number of instructions a tick is at another one, unless it
is over by then, or one of these instructions is a link and the tick in the linked tree has no end
(`Forest.stage_or`). A tick with stages without end has no answer
(`Forest.not_answers_of_stages`).
-/

namespace TickTree

variable {K A : Type} [DecidableEq K]

namespace Forest

variable {F : Forest K A} {t : TreeId} {a : K} {m n bound : Nat} {f f' : Frame}
  {w w' v v' : World K A}

/-- After so many instructions the tick of an agent stands here. -/
inductive Stage (F : Forest K A) (t : TreeId) (a : K) (w : World K A) :
    Nat → Frame → World K A → Prop where
  | begin : Stage F t a w 0 (.begin (w.state t a)) ((w.enter t a).checkOut t a)
  | next {m bound : Nat} {f f' : Frame} {v v' : World K A} : Stage F t a w m f v →
      (F.tickOf t a).advance (F.serve bound) f v = .done (.underway f') v' →
      Stage F t a w (m + 1) f' v'

/-- Among the first so many instructions of a tick is a link, and the tick in the linked tree has no
end. -/
def Hangs (F : Forest K A) (t : TreeId) (a : K) (w : World K A) (n : Nat) : Prop :=
  ∃ m f v, m < n ∧ F.Stage t a w m f v ∧ (F.tickOf t a).exhausted f = none ∧
    ∃ i link, (F.tree t).program.get? f.cursor = some i ∧ i.op = .subTree link ∧
      ∀ r v', ¬ F.Answers (.run link.tree a) (v.log (.dispatched t a f.cursor)) r v'

/-! ## What holds at a stage -/

/-- A tick of an agent that its tree does not know begins anew. -/
theorem Stage.anew (h : w.agent? t a = none) :
    F.Stage t a w 0 (.begin {}) ((w.enter t a).checkOut t a) := by
  have hstate : w.state t a = {} := by
    rw [World.state, h]
    rfl
  exact hstate ▸ .begin

theorem Stage.spent (h : F.Stage t a w m f v) : f.spent = m := by
  induction h with
  | begin => rfl
  | next _ hstep ih =>
    cases Tick.advance_cases hstep with
    | dispatched _ _ _ hfollow => rw [Tick.spent_follow hfollow, ih]

/-- A tick that has got somewhere began in its program. -/
theorem Stage.begun {i : Instruction Nat K A} (h : F.Stage t a w m f v)
    (hget : (F.tree t).program.get? f.cursor = some i) :
    (w.state t a).cursor < (F.tree t).program.length := by
  induction h generalizing i with
  | begin => exact (List.getElem?_eq_some_iff.1 hget).1
  | next _ hstep ih =>
    cases Tick.advance_cases hstep with
    | dispatched hget => exact ih hget

theorem Stage.walk (h : F.Stage t a w m f v) :
    ∃ bound, (F.tickOf t a).walk (F.serve bound) m (.begin (w.state t a))
      ((w.enter t a).checkOut t a) = .done (.underway f) v := by
  induction h with
  | begin => exact ⟨0, rfl⟩
  | @next m bound f f' v v' _ hstep ih =>
    obtain ⟨bound', hwalk⟩ := ih
    refine ⟨max bound bound', ?_⟩
    rw [Tick.walk_add 1 ((F.tickOf t a).walk_below
      (F.serve_mono (Nat.le_max_right bound bound')) _ _ _ _ _ hwalk)]
    exact Tick.walk_one ((F.tickOf t a).advance_below
      (F.serve_mono (Nat.le_max_left bound bound')) _ _ _ _ hstep)

/-- A tick stands at one place after so many instructions. -/
theorem Stage.unique (h : F.Stage t a w m f v) (h' : F.Stage t a w m f' v') : f = f' ∧ v = v' := by
  obtain ⟨bound, hwalk⟩ := h.walk
  obtain ⟨bound', hwalk'⟩ := h'.walk
  have hsame := (F.tickOf t a).walk_below (F.serve_mono (Nat.le_max_left bound bound')) _ _ _ _ _
    hwalk
  rw [(F.tickOf t a).walk_below (F.serve_mono (Nat.le_max_right bound bound')) _ _ _ _ _
    hwalk'] at hsame
  cases hsame
  exact ⟨rfl, rfl⟩

/-- A tick that gets further makes the step in between. -/
theorem Stage.step_of_lt (h : F.Stage t a w m f v) (h' : F.Stage t a w n f' v') (hmn : m < n) :
    ∃ bound g u, (F.tickOf t a).advance (F.serve bound) f v = .done (.underway g) u := by
  induction h' with
  | begin => omega
  | @next k bound g g' u u' hstage hstep ih =>
    by_cases hmk : m = k
    · subst hmk
      obtain ⟨rfl, rfl⟩ := h.unique hstage
      exact ⟨bound, g', u', hstep⟩
    · exact ih (by omega)

/-- Whatever the bound, a step is the one it is. -/
theorem advance_unique {b b' : Nat} {p p' : Progress}
    (h : (F.tickOf t a).advance (F.serve b) f v = .done p w)
    (h' : (F.tickOf t a).advance (F.serve b') f v = .done p' w') : p = p' ∧ w = w' := by
  have hsame := (F.tickOf t a).advance_below (F.serve_mono (Nat.le_max_left b b')) _ _ _ _ h
  rw [(F.tickOf t a).advance_below (F.serve_mono (Nat.le_max_right b b')) _ _ _ _ h'] at hsame
  cases hsame
  exact ⟨rfl, rfl⟩

section

variable (hF : F.Asks Request.Quiet)
include hF

theorem Stage.confined (h : F.Stage t a w m f v) :
    (F.tickOf t a).Confined ((w.enter t a).checkOut t a) v := by
  obtain ⟨bound, hwalk⟩ := h.walk
  exact Tick.walk_confined (hF t) (F.serve_spares hF bound) (by simp) hwalk

theorem Stage.running (h : F.Stage t a w m f v) : (v.tree t).running = true := by
  rw [(h.confined hF).running]
  simp

theorem Stage.poisoned (h : F.Stage t a w m f v) :
    (v.tree t).poisoned = (w.tree t).poisoned := by
  rw [(h.confined hF).poisoned]
  simp

theorem Stage.dispatches (h : F.Stage t a w m f v) :
    v.dispatches t = w.dispatches t + m := by
  induction h with
  | begin => rw [World.dispatches_checkOut, World.dispatches_enter, Nat.add_zero]
  | @next m bound f f' v v' hstage hstep ih =>
    rcases Tick.advance_dispatches (hF t) (F.serve_spares hF bound) (hstage.running hF) hstep with
      ⟨-, r, s, hp⟩ | ⟨i, answer, -, hmore, -, -⟩
    · cases hp
    · rw [hmore, ih]
      omega

end

/-! ## Stages and answers -/

/-- The answer of a tick whose cursor is no instruction. -/
theorem answers_outside (hidle : (w.tree t).running = false)
    (hsound : (w.tree t).poisoned = false)
    (hcursor : (F.tree t).program.length ≤ (w.state t a).cursor) :
    F.Answers (.run t a) w
      (.error (.invalidCursor (w.state t a).cursor (F.tree t).program.length))
      ((((w.enter t a).checkOut t a).checkIn t a (w.state t a).rewind).leave t a
        (.error (.invalidCursor (w.state t a).cursor (F.tree t).program.length))) := by
  refine ⟨1, run_of_perform hidle hsound ?_ (by simp [hsound])⟩
  rw [Tick.perform, if_pos hcursor]

/-- A step that ends a tick is what the whole tick comes to. -/
theorem Stage.performs {r : Except RunError Status} {s : AgentState}
    (hcursor : (w.state t a).cursor < (F.tree t).program.length) (h : F.Stage t a w m f v)
    (hend : (F.tickOf t a).advance (F.serve bound) f v = .done (.ended r s) v') :
    ∃ n, (F.tickOf t a).perform (F.serve n) n (w.state t a) ((w.enter t a).checkOut t a) =
      .done (r, s) v' := by
  obtain ⟨bound', hwalk⟩ := h.walk
  have hlong : (F.tickOf t a).walk (F.serve (max (max bound bound') (m + 1)))
      (max (max bound bound') (m + 1)) (.begin (w.state t a)) ((w.enter t a).checkOut t a) =
        .done (.ended r s) v' := by
    refine Tick.walk_mono (m := m + 1) ?_ (Nat.le_max_right _ _)
    rw [Tick.walk_add 1 ((F.tickOf t a).walk_below (F.serve_mono (by omega)) _ _ _ _ _ hwalk)]
    exact Tick.walk_one_ended
      ((F.tickOf t a).advance_below (F.serve_mono (by omega)) _ _ _ _ hend)
  exact ⟨_, Tick.perform_of_walk hcursor hlong⟩

/-- It is the answer of the tick, unless the tree has been poisoned meanwhile. -/
theorem Stage.concludes {r : Except RunError Status} {s : AgentState}
    (hidle : (w.tree t).running = false) (hsound : (w.tree t).poisoned = false)
    (hcursor : (w.state t a).cursor < (F.tree t).program.length) (h : F.Stage t a w m f v)
    (hend : (F.tickOf t a).advance (F.serve bound) f v = .done (.ended r s) v')
    (hsound' : (v'.tree t).poisoned = false) :
    F.Answers (.run t a) w r ((v'.checkIn t a s).leave t a r) := by
  obtain ⟨n, hperform⟩ := h.performs hcursor hend
  exact ⟨n + 1, run_of_perform hidle hsound hperform hsound'⟩

/-- If it has been, the tick answers this, and the agent's state is lost. -/
theorem Stage.drops {r : Except RunError Status} {s : AgentState}
    (hidle : (w.tree t).running = false) (hsound : (w.tree t).poisoned = false)
    (hcursor : (w.state t a).cursor < (F.tree t).program.length) (h : F.Stage t a w m f v)
    (hend : (F.tickOf t a).advance (F.serve bound) f v = .done (.ended r s) v')
    (hpoisoned : (v'.tree t).poisoned = true) :
    F.Answers (.run t a) w (.error .poisoned) (v'.leave t a (.error .poisoned)) := by
  obtain ⟨n, hperform⟩ := h.performs hcursor hend
  refine ⟨n + 1, ?_⟩
  change F.run (F.serve n) n t a w = _
  simp only [run_eq, hidle, hsound, hperform, Outcome.bind_done, hpoisoned, Bool.false_eq_true,
    if_false, if_true]

/-- A step along a link fails if the tick in the linked tree does, and says where. -/
theorem advance_linkFailed {v₁ : World K A} {i : Instruction Nat K A} {link : Link} {e : RunError}
    (hget : (F.tree t).program.get? f.cursor = some i) (hop : i.op = .subTree link)
    (hfree : (F.tickOf t a).exhausted f = none)
    (hlink : F.Answers (.run link.tree a) (v.log (.dispatched t a f.cursor)) (.error e) v₁) :
    ∃ bound, (F.tickOf t a).advance (F.serve bound) f v =
      .done (.ended (.error (.subTree f.cursor e)) f.state.rewind)
        (v₁.log (.linkFailed t a f.cursor e)) := by
  obtain ⟨bound, hserve⟩ := hlink
  have hget' : (F.tickOf t a).tree.program.get? f.cursor = some i := hget
  refine ⟨bound, ?_⟩
  simp only [Tick.advance, hget', hfree, Tick.dispatch_subTree _ _ hop, hserve]
  rfl

/-- A tick that follows a link fails if the tick in the linked tree does. -/
theorem Stage.link_fails {v₁ : World K A} {i : Instruction Nat K A} {link : Link} {e : RunError}
    (hidle : (w.tree t).running = false) (hsound : (w.tree t).poisoned = false)
    (h : F.Stage t a w m f v) (hget : (F.tree t).program.get? f.cursor = some i)
    (hop : i.op = .subTree link) (hfree : (F.tickOf t a).exhausted f = none)
    (hlink : F.Answers (.run link.tree a) (v.log (.dispatched t a f.cursor)) (.error e) v₁)
    (hsound' : (v₁.tree t).poisoned = false) :
    F.Answers (.run t a) w (.error (.subTree f.cursor e))
      (((v₁.log (.linkFailed t a f.cursor e)).checkIn t a f.state.rewind).leave t a
        (.error (.subTree f.cursor e))) := by
  obtain ⟨bound, hend⟩ := advance_linkFailed hget hop hfree hlink
  exact h.concludes hidle hsound (h.begun hget) hend hsound'

/-- A step that ends a tick is its answer. -/
theorem Stage.answers {r : Except RunError Status} {s : AgentState} (hF : F.Asks Request.Quiet)
    (hidle : (w.tree t).running = false) (hsound : (w.tree t).poisoned = false)
    (hcursor : (w.state t a).cursor < (F.tree t).program.length) (h : F.Stage t a w m f v)
    (hend : (F.tickOf t a).advance (F.serve bound) f v = .done (.ended r s) v') :
    F.Answers (.run t a) w r ((v'.checkIn t a s).leave t a r) := by
  refine h.concludes hidle hsound hcursor hend ?_
  rw [(Tick.advance_confined (hF t) (F.serve_spares hF bound) (h.running hF) hend).poisoned,
    h.poisoned hF, hsound]

theorem Stage.of_walk {r : Except RunError Status} {s : AgentState} (h : F.Stage t a w m f v)
    (hwalk : (F.tickOf t a).walk (F.serve bound) n f v = .done (.ended r s) v') :
    ∃ k g u, F.Stage t a w k g u ∧
      (F.tickOf t a).advance (F.serve bound) g u = .done (.ended r s) v' := by
  induction n generalizing m f v with
  | zero => cases hwalk
  | succ n ih =>
    rw [Tick.walk_succ, Outcome.bind_eq_done_iff] at hwalk
    obtain ⟨p, u, hstep, hrest⟩ := hwalk
    cases p with
    | underway g => exact ih (h.next hstep) hrest
    | ended r' s' =>
      cases hrest
      exact ⟨m, f, v, h, hstep⟩

/-- The answer of a tick is a step that ends it. -/
theorem Answers.stage {r : Except RunError Status} (hF : F.Asks Request.Quiet)
    (hidle : (w.tree t).running = false) (hsound : (w.tree t).poisoned = false)
    (hcursor : (w.state t a).cursor < (F.tree t).program.length)
    (h : F.Answers (.run t a) w r w') :
    ∃ m f v bound s v', F.Stage t a w m f v ∧
      (F.tickOf t a).advance (F.serve bound) f v = .done (.ended r s) v' ∧
      w' = (v'.checkIn t a s).leave t a r := by
  obtain ⟨bound, hrun⟩ := h
  cases bound with
  | zero => cases hrun
  | succ bound =>
    obtain ⟨s, v', hperform, rfl⟩ := ticked_of_run hF (F.serve_spares hF bound) hidle hsound hrun
    obtain ⟨m, f, v, hstage, hend⟩ := Stage.of_walk .begin (Tick.walk_of_perform hcursor hperform)
    exact ⟨m, f, v, bound, s, v', hstage, hend, rfl⟩

/-- A tick that has stages without end has no answer. -/
theorem not_answers_of_stages (hF : F.Asks Request.Quiet) (hidle : (w.tree t).running = false)
    (hsound : (w.tree t).poisoned = false)
    (hcursor : (w.state t a).cursor < (F.tree t).program.length)
    (h : ∀ m, ∃ n f v, m ≤ n ∧ F.Stage t a w n f v) (r : Except RunError Status) :
    ¬ F.Answers (.run t a) w r w' := by
  intro hanswer
  obtain ⟨m, f, v, bound, s, v', hstage, hend, -⟩ := hanswer.stage hF hidle hsound hcursor
  obtain ⟨n, f', u, hmn, hlater⟩ := h (m + 1)
  obtain ⟨bound', g, u', hstep⟩ := hstage.step_of_lt hlater hmn
  cases (advance_unique hend hstep).1

theorem Hangs.mono (h : F.Hangs t a w m) (hmn : m ≤ n) : F.Hangs t a w n := by
  obtain ⟨k, f, v, hk, hrest⟩ := h
  exact ⟨k, f, v, Nat.lt_of_lt_of_le hk hmn, hrest⟩

/-- A step is made, unless it follows a link and the tick there has no end. -/
theorem Stage.advances (hF : F.Asks Request.Quiet) (h : F.Stage t a w m f v)
    (hgoes : ¬ F.Hangs t a w (m + 1)) :
    ∃ bound p v', (F.tickOf t a).advance (F.serve bound) f v = .done p v' := by
  suffices hlink : ∃ bound, ∀ {i : Instruction Nat K A} {link : Link},
      (F.tree t).program.get? f.cursor = some i → (F.tickOf t a).exhausted f = none →
        i.op = .subTree link → ∃ reply v',
          F.serve bound (.run link.tree a) (v.log (.dispatched t a f.cursor)) = .done reply v' by
    obtain ⟨bound, hlink⟩ := hlink
    obtain ⟨p, v', hstep⟩ := Tick.advance_answers (hF.quiet t a) hlink
    exact ⟨bound, p, v', hstep⟩
  by_cases hop : ∃ i link, (F.tree t).program.get? f.cursor = some i ∧
      (F.tickOf t a).exhausted f = none ∧ i.op = .subTree link
  · obtain ⟨i, link, hget, hfree, hop⟩ := hop
    have hanswers : ∃ r v', F.Answers (.run link.tree a) (v.log (.dispatched t a f.cursor)) r v' :=
      Classical.byContradiction fun hnot => hgoes ⟨m, f, v, Nat.lt_succ_self m, h, hfree, i, link,
        hget, hop, fun r v' hr => hnot ⟨r, v', hr⟩⟩
    obtain ⟨r, v', bound, hrun⟩ := hanswers
    refine ⟨bound, fun hget' _ hop' => ?_⟩
    rw [hget] at hget'
    cases hget'
    rw [hop] at hop'
    cases hop'
    exact ⟨r, v', hrun⟩
  · exact ⟨0, fun hget' hfree hop' => absurd ⟨_, _, hget', hfree, hop'⟩ hop⟩

/-- After so many instructions a tick is at another, or it is over by then, or it hangs in a
link. -/
theorem stage_or (hF : F.Asks Request.Quiet) (a : K) (hidle : (w.tree t).running = false)
    (hsound : (w.tree t).poisoned = false) (n : Nat) :
    (∃ f v i, F.Stage t a w n f v ∧ (F.tree t).program.get? f.cursor = some i) ∨
      (∃ r w', F.Answers (.run t a) w r w' ∧ w'.dispatches t ≤ w.dispatches t + n) ∨
      F.Hangs t a w n := by
  by_cases hcursor : (w.state t a).cursor < (F.tree t).program.length
  · induction n with
    | zero => exact .inl ⟨_, _, _, .begin, List.getElem?_eq_getElem hcursor⟩
    | succ n ih =>
      by_cases hgoes : F.Hangs t a w (n + 1)
      · exact .inr (.inr hgoes)
      rcases ih with ⟨f, v, -, hstage, -⟩ | ⟨r, w', hanswer, hcount⟩ | hhangs
      · obtain ⟨bound, p, v', hstep⟩ := hstage.advances hF hgoes
        have hcount := hstage.dispatches hF
        cases p with
        | underway g =>
          have hnext := hstage.next hstep
          cases hget : (F.tree t).program.get? g.cursor with
          | some i => exact .inl ⟨g, v', i, hnext, hget⟩
          | none =>
            have hend : (F.tickOf t a).advance (F.serve 0) g v' =
                .done (.ended ((F.tickOf t a).resultAt g.cursor) g.state.rewind) v' := by
              rw [Tick.advance, show (F.tickOf t a).tree.program.get? g.cursor = none from hget]
            refine .inr (.inl ⟨_, _, hnext.answers hF hidle hsound hcursor hend, ?_⟩)
            exact Nat.le_of_eq
              (by rw [World.dispatches_leave, World.dispatches_checkIn, hnext.dispatches hF])
        | ended r s =>
          refine .inr (.inl ⟨r, _, hstage.answers hF hidle hsound hcursor hstep, ?_⟩)
          rw [World.dispatches_leave, World.dispatches_checkIn]
          have hstepped : v'.dispatches t ≤ v.dispatches t + 1 := by
            rcases Tick.advance_dispatches (hF t) (F.serve_spares hF bound) (hstage.running hF)
              hstep with ⟨hsame, -⟩ | ⟨i, answer, -, hmore, -, -⟩
            · exact Nat.le_succ_of_le (Nat.le_of_eq hsame)
            · exact Nat.le_of_eq hmore
          omega
      · exact .inr (.inl ⟨r, w', hanswer, by omega⟩)
      · exact .inr (.inr (hhangs.mono (Nat.le_succ n)))
  · refine .inr (.inl ⟨_, _, answers_outside hidle hsound (Nat.le_of_not_lt hcursor), ?_⟩)
    rw [World.dispatches_leave, World.dispatches_checkIn, World.dispatches_checkOut,
      World.dispatches_enter]
    exact Nat.le_add_right _ _

/-- A tick that hangs has no end. -/
theorem Hangs.not_answers (hF : F.Asks Request.Quiet) (hidle : (w.tree t).running = false)
    (hsound : (w.tree t).poisoned = false) (h : F.Hangs t a w n) (r : Except RunError Status)
    (w' : World K A) : ¬ F.Answers (.run t a) w r w' := by
  intro hanswer
  obtain ⟨m, f, v, -, hstage, hfree, i, link, hget, hop, hnever⟩ := h
  have hstuck : ∀ {bound p u}, (F.tickOf t a).advance (F.serve bound) f v ≠ .done p u := by
    intro bound p u hstep
    cases Tick.advance_cases hstep with
    | atEnd hnone => simp [hget] at hnone
    | limited _ hex => simp [hfree] at hex
    | dispatched hget' _ hdispatch =>
      rw [hget] at hget'
      cases hget'
      rw [Tick.dispatch_subTree _ _ hop, Outcome.bind_eq_done_iff] at hdispatch
      obtain ⟨r, v', hrun, -⟩ := hdispatch
      exact hnever r v' ⟨bound, hrun⟩
  obtain ⟨m', f', v', bound, s, u, hstage', hend, -⟩ :=
    hanswer.stage hF hidle hsound (hstage.begun hget)
  rcases Nat.lt_trichotomy m m' with hlt | rfl | hlt
  · obtain ⟨bound', g, u', hstep⟩ := hstage.step_of_lt hstage' hlt
    exact hstuck hstep
  · obtain ⟨rfl, rfl⟩ := hstage.unique hstage'
    exact hstuck hend
  · obtain ⟨bound', g, u', hstep⟩ := hstage'.step_of_lt hstage hlt
    cases (advance_unique hend hstep).1

end Forest

end TickTree
