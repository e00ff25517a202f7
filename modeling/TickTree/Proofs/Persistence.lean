import TickTree.Proofs.Contracts

/-!
# What operations leave of an agent

An operation changes what a tree holds of an agent only if it is for this agent in this tree,
or if one in its course is (`Forest.course_keeps`). So what one operation has brought about is
there when the outermost operation is over, if no operation around it is for the same agent in
the same tree, and none after it changes it again (`Forest.Does.kept`). This holds of the board
that an edit has left, and of the instruction that a tick was suspended at
(`Forest.nothing_lost`).

It does not hold inside a tick or an abort of the same agent, for these put back the state they
have taken out (`Forest.lost_inside`); an abort leaves the agent at the beginning, whatever was
done for it meanwhile (`Forest.Does.rewound`).
-/

namespace TickTree

variable {K A β : Type}

/-- A call for an agent in a tree. -/
def Call.On (t : TreeId) (a : K) (c : Call K) : Prop := c.tree = t ∧ c.agent = a

variable [DecidableEq K] {see : AgentState → β} {t : TreeId} {a : K}

/-! ## Operations elsewhere -/

/-- A tree that knows an agent in one world knows it in the other, and what is seen of it
there is the same. -/
def World.Agree (see : AgentState → β) (t : TreeId) (a : K) (w v : World K A) : Prop :=
  ∀ s, w.agent? t a = some s → ∃ s', v.agent? t a = some s' ∧ see s' = see s

theorem World.agree_of_agent? {w v : World K A} (h : v.agent? t a = w.agent? t a) :
    World.Agree see t a w v := fun s hs => ⟨s, h.trans hs, rfl⟩

theorem World.agree_modifyTree (w : World K A) (u : TreeId) {f : TreeState K → TreeState K}
    (hf : ∀ s, (f s).agents = s.agents) : World.Agree see t a w (w.modifyTree u f) :=
  World.agree_of_agent? (agent?_modifyTree w u hf t a)

theorem World.Agree.trans {w v u : World K A} (h : World.Agree see t a w v)
    (h' : World.Agree see t a v u) : World.Agree see t a w u := by
  intro s hs
  obtain ⟨s₁, hs₁, hsee⟩ := h s hs
  obtain ⟨s₂, hs₂, hsee'⟩ := h' s₁ hs₁
  exact ⟨s₂, hs₂, hsee'.trans hsee⟩

theorem World.agree_inert (see : AgentState → β) (t : TreeId) (a : K) :
    World.InertRel (World.Agree (K := K) (A := A) see t a) where
  refl _ := agree_of_agent? rfl
  trans _ _ _ := Agree.trans
  inert w :=
    { outside := fun {v u} hv htrees =>
        hv.trans (agree_of_agent? (by rw [agent?, tree, htrees]; rfl))
      drawn := fun {v} hv u n =>
        hv.trans (agree_modifyTree v u (f := fun s => { s with drawn := n }) fun _ => rfl) }

namespace Forest

variable {F : Forest K A}

section

variable {u : TreeId} {b : K} (hne : ¬ (u = t ∧ b = a))
include hne

theorem agree_checkOut (w : World K A) : World.Agree see t a w (w.checkOut u b) :=
  World.agree_of_agent? (by rw [World.agent?_checkOut, if_neg hne])

theorem agree_checkIn (w : World K A) (s : AgentState) :
    World.Agree see t a w (w.checkIn u b s) :=
  World.agree_of_agent? (by rw [World.agent?_checkIn, if_neg hne])

theorem runCourse_keeps (n : Nat) (w : World K A) :
    (F.runCourse n u b w).Keeps (World.Agree see t a) w := by
  have hR := World.agree_inert (K := K) (A := A) see t a
  have henter : World.Agree see t a w (w.enter u b) :=
    World.agree_of_agent? (World.agent?_enter w u t b a)
  have hleave : ∀ (v : World K A) r, World.Agree see t a v (v.leave u b r) :=
    fun v r => World.agree_of_agent? (World.agent?_leave v u t b a r)
  rw [runCourse]
  split
  · exact hR.outside rfl
  · split
    · exact henter.trans (hleave _ _)
    · have htick := (F.tickOf u b).performCourse_keeps hR n (w.state u b)
        (w := (w.enter u b).checkOut u b)
      refine (htick.from_earlier hR.trans (henter.trans (agree_checkOut hne _))).bind
        hR.trans fun answer v => ?_
      split
      · exact hleave v _
      · exact (agree_checkIn hne v _).trans (hleave _ _)

theorem abortCourse_keeps (w : World K A) :
    (F.abortCourse u b w).Keeps (World.Agree see t a) w := by
  have hR := World.agree_inert (K := K) (A := A) see t a
  have hcancel : ∀ s v, (F.cancelCourse u b s v).Keeps (World.Agree see t a) v := by
    intro s v
    rw [cancelCourse]
    split
    · exact (F.tickOf u b).endCourse_keeps hR _ _ _ _
    · exact ⟨hR.refl v, fun _ => hR.refl⟩
    · exact hR.refl v
  rw [abortCourse]
  split
  · exact hR.outside rfl
  · split
    · exact hR.refl w
    · refine ((hcancel _ _).from_earlier hR.trans (agree_checkOut hne w)).bind hR.trans
        fun board v => ?_
      split
      · exact hR.refl v
      · exact agree_checkIn hne v _

theorem removeCourse_keeps (w : World K A) :
    (F.removeCourse u b w).Keeps (World.Agree see t a) w := by
  have hR := World.agree_inert (K := K) (A := A) see t a
  rw [removeCourse]
  split
  · exact hR.refl w
  · split
    · exact hR.refl w
    · split
      · exact ⟨agree_checkOut hne w, fun _ => hR.refl⟩
      · exact agree_checkOut hne w

theorem update_agree (edit : Edit) (w : World K A) :
    World.Agree see t a w (update u b edit w).2 := by
  obtain ⟨⟨r, w'⟩, hupdate⟩ : ∃ p, update u b edit w = p := ⟨_, rfl⟩
  rw [hupdate]
  cases update_cases hupdate with
  | refused => exact (World.agree_inert see t a).refl w
  | died =>
    exact (agree_checkIn hne w _).trans
      (World.agree_modifyTree _ u (f := fun s => { s with poisoned := true }) fun _ => rfl)
  | edited => exact agree_checkIn hne w _

end

/-- Between its calls an operation changes nothing of other agents, nor of other trees. -/
theorem course_keeps (see : AgentState → β) {c : Call K} (hc : ¬ c.On t a) (n : Nat)
    (w : World K A) : (F.course n c w).Keeps (World.Agree see t a) w := by
  cases c with
  | run u b => exact runCourse_keeps hc n w
  | abort u b => exact abortCourse_keeps hc w
  | remove u b => exact removeCourse_keeps hc w
  | update u b edit => exact update_agree hc edit w

end Forest

/-! ## Operations afterwards -/

/-- An errand leaves what is seen of an agent in a tree, as far as the operations in it that
are for this agent in this tree do. -/
inductive Errand.Leaves (see : AgentState → β) (t : TreeId) (a : K) :
    Errand K A → Prop where
  | on {e : Errand K A} : e.call.On t a → World.Agree see t a e.before e.after → Leaves see t a e
  | off {e : Errand K A} : ¬ e.call.On t a → (∀ d ∈ e.inner, Leaves see t a d) → Leaves see t a e

namespace Forest

variable {F : Forest K A} {n : Nat} {root x : Errand K A} {around later : List (Errand K A)}

theorem Does.agree {e : Errand K A} (h : F.Does n e) (hleaves : e.Leaves see t a) :
    World.Agree see t a e.before e.after := by
  have hR := World.agree_inert (K := K) (A := A) see t a
  induction hleaves generalizing n with
  | on _ hagree => exact hagree
  | @off e hoff _ ih =>
    obtain ⟨m, rfl, hgoes⟩ := h.goes
    exact hgoes.keeps hR.trans (course_keeps see hoff m e.before) (hR.refl _)
      fun d hd hbefore => hbefore.trans (ih d hd (hgoes.all d hd))

/-- What is seen of an agent in a tree after an operation is seen after the outermost one, if
no operation around it is for this agent in this tree, and those after it leave it. -/
theorem Does.kept (h : F.Does n root) (hat : root.At around later x)
    (haround : ∀ e ∈ around, ¬ e.call.On t a) (hlater : ∀ e ∈ later, e.Leaves see t a) :
    World.Agree see t a x.after root.after := by
  have hR := World.agree_inert (K := K) (A := A) see t a
  induction hat with
  | root => exact hR.refl _
  | @inner around later earlier rest e x hat hinner ih =>
    obtain ⟨hoff, haround⟩ := List.forall_mem_cons.1 haround
    obtain ⟨hrest, hlater⟩ := List.forall_mem_append.1 hlater
    obtain ⟨m, hm⟩ := h.at hat
    obtain ⟨m, rfl, hgoes⟩ := hm.goes
    have hends : World.Agree see t a x.after e.after := by
      refine hgoes.keeps_after hR.trans (course_keeps see hoff m e.before) hinner (hR.refl _)
        fun d hd hbefore => hbefore.trans (Does.agree (hgoes.all d ?_) (hrest d hd))
      rw [hinner]
      exact List.mem_append_right earlier (.tail x hd)
    exact hends.trans (ih haround hlater)

end Forest

/-! ## Edits and suspended ticks -/

/-- The instruction an agent stands at, and whether it is suspended there. -/
def AgentState.standing (s : AgentState) : Nat × Bool := (s.cursor, s.paused)

namespace Forest

variable {F : Forest K A} {n : Nat} {root : Errand K A} {around later : List (Errand K A)}

theorem Does.update {edit : Edit} {r : Except RunError EditResult} {w w' : World K A}
    {inner : List (Errand K A)} (h : F.Does n (.mk (.update t a edit) r w w' inner)) :
    update t a edit w = (r, w') := by
  obtain ⟨m, rfl, hgoes⟩ := h.goes
  obtain ⟨-, hr, hw'⟩ := hgoes.done_inv
  exact Prod.ext hr hw'

theorem update_edited {edit : Edit} {before : Blackboard} {w w' : World K A}
    (h : update t a edit w = (.ok (.edited before), w')) :
    ∃ board, edit before = some board ∧
      w'.agent? t a = some { w.state t a with board := board } := by
  cases update_cases h with
  | edited _ hedit => exact ⟨_, hedit, World.agent?_checkIn_self w t a _⟩

/-- An edit leaves an agent where it stands. -/
theorem update_standing (edit : Edit) (w : World K A) :
    World.Agree AgentState.standing t a w (Forest.update t a edit w).2 := by
  intro s hs
  obtain ⟨⟨r, w'⟩, hupdate⟩ : ∃ p, Forest.update t a edit w = p := ⟨_, rfl⟩
  rw [hupdate]
  have hstate := World.state_of_agent? hs
  cases update_cases hupdate with
  | refused => exact ⟨s, hs, rfl⟩
  | died =>
    exact ⟨w.state t a, (World.agent?_modifyTree (w.checkIn t a (w.state t a)) t
      (f := fun s => { s with poisoned := true }) (fun _ => rfl) t a).trans
        (World.agent?_checkIn_self w t a _), by rw [hstate]⟩
  | edited => exact ⟨_, World.agent?_checkIn_self w t a _, by rw [← hstate]; rfl⟩

theorem Does.running {w w' : World K A} {inner : List (Errand K A)}
    (h : F.Does n (.mk (.run t a) (.ok .running) w w' inner)) :
    ∃ s, w'.agent? t a = some s ∧ s.paused = true := by
  obtain ⟨m, rfl, hgoes⟩ := h.goes
  have hmeets : (F.runCourse m t a w).Meets .free
      fun r v => r = .ok .running → ∃ s, v.agent? t a = some s ∧ s.paused = true := by
    rw [runCourse]
    split
    · rintro ⟨⟩
    · split
      · rintro ⟨⟩
      · refine ((F.tickOf t a).performCourse_settled m (w.state t a) _).bind
          fun answer v hsettled => ?_
        split
        · rintro ⟨⟩
        · exact fun hrunning => ⟨answer.2, World.agent?_ticked v t a answer.2 answer.1,
            hsettled.2 hrunning⟩
  have hends := hgoes.meets (P := fun _ => True) hmeets
    fun _ _ _ => ⟨trivial, trivial, trivial⟩
  exact hends.1 rfl

/-- Whatever was done for an agent in the course of its abort, the abort leaves it at the
beginning. -/
theorem Does.rewound {w w' : World K A} {inner : List (Errand K A)}
    (h : F.Does n (.mk (.abort t a) () w w' inner)) (hsound : (w'.tree t).poisoned = false) :
    ∀ s, w'.agent? t a = some s → s.standing = (0, false) := by
  obtain ⟨m, rfl, hgoes⟩ := h.goes
  have hmeets : (F.abortCourse t a w).Meets .free fun _ v => (v.tree t).poisoned = false →
      ∀ s, v.agent? t a = some s → s.standing = (0, false) := by
    rw [abortCourse]
    split
    · rename_i hpoisoned
      exact fun hsound => absurd (hpoisoned.symm.trans hsound) Bool.noConfusion
    · split
      · rename_i hagent
        intro _ s hs
        rw [hagent] at hs
        cases hs
      · refine (Course.meets_free _ fun _ _ => trivial).bind fun board v (_ : True) => ?_
        split
        · rename_i hpoisoned
          exact fun hsound => absurd (hpoisoned.symm.trans hsound) Bool.noConfusion
        · intro _ s hs
          rw [World.agent?_checkIn_self] at hs
          cases hs
          rfl
  have hends := hgoes.meets (P := fun _ => True) hmeets
    fun _ _ _ => ⟨trivial, trivial, trivial⟩
  exact hends.1 hsound

/-- Edits leave an agent where it stands, and so do operations with no others for it. -/
theorem Does.leaves_standing {e : Errand K A} (h : F.Does n e)
    (hedits : ∀ y, e.Within y → y.call.On t a → ∃ edit, y.call = .update t a edit) :
    e.Leaves AgentState.standing t a := by
  induction n generalizing e with
  | zero => exact h.elim
  | succ n ih =>
    by_cases hon : e.call.On t a
    · obtain ⟨edit, hcall⟩ := hedits e (.self e) hon
      obtain ⟨c, r, w, w', inner⟩ := e
      obtain rfl : c = .update t a edit := hcall
      have hstanding := update_standing (t := t) (a := a) edit w
      rw [h.update] at hstanding
      exact .on hon hstanding
    · obtain ⟨m, hm, hgoes⟩ := h.goes
      obtain rfl := Nat.succ.inj hm
      exact .off hon fun d hd => ih (hgoes.all d hd) fun y hy => hedits y (.of_mem hd hy)

/-- In an operation with all that is done in its course, nothing is lost to an agent of a tree
by what is around it, provided that none of this is for the same agent in the same tree. What
an edit has left of a key is there at the end, unless a later operation changes it or takes the
agent out. An agent that a tick has left suspended is suspended at the same instruction at the
end, unless there is a later tick, abort or removal of it. -/
theorem nothing_lost (hroot : F.Does n root) (haround : ∀ e ∈ around, ¬ e.call.On t a) :
    (∀ {edit before w w' inner k},
      root.At around later (.mk (.update t a edit) (.ok (.edited before)) w w' inner) →
      (∀ e ∈ later, e.Leaves (fun s => s.board.get? k) t a) →
      ∃ board s, edit before = some board ∧ root.after.agent? t a = some s ∧
        s.board.get? k = board.get? k) ∧
    ∀ {w w' inner},
      root.At around later (.mk (.run t a) (.ok .running) w w' inner) →
      (∀ e ∈ later, ∀ y, e.Within y → y.call.On t a → ∃ edit, y.call = .update t a edit) →
      ∃ s s', w'.agent? t a = some s ∧ s.paused = true ∧ root.after.agent? t a = some s' ∧
        s'.cursor = s.cursor ∧ s'.paused = true := by
  constructor
  · intro edit before w w' inner k hat hlater
    obtain ⟨m, hdoes⟩ := hroot.at hat
    obtain ⟨board, hedit, hagent⟩ := update_edited hdoes.update
    obtain ⟨s, hs, hsee⟩ := hroot.kept hat haround hlater _ hagent
    exact ⟨board, s, hedit, hs, hsee⟩
  · intro w w' inner hat hlater
    obtain ⟨m, hdoes⟩ := hroot.at hat
    obtain ⟨s, hagent, hpaused⟩ := hdoes.running
    have hleaves : ∀ e ∈ later, e.Leaves AgentState.standing t a := by
      intro e he
      obtain ⟨k, hk⟩ := hroot.later hat he
      exact hk.leaves_standing (hlater e he)
    obtain ⟨s', hs', hstanding⟩ := hroot.kept hat haround hleaves s hagent
    obtain ⟨hcursor, hpaused'⟩ := Prod.mk.inj hstanding
    exact ⟨s, s', hagent, hpaused, hs', hcursor, hpaused'.trans hpaused⟩

/-- A task edits the board of another agent of its tree, and ticks its own agent in another
tree. -/
theorem nothing_lost_elsewhere :
    let mark : Edit := fun b => some (b.set "seen" (.bool true))
    let calls : Hook Bool Unit TaskResult :=
      .ask (.call (.update 0 false mark)) fun _ => .ask (.call (.run 1 true)) fun _ =>
        .done (.ok .success)
    let F : Forest Bool Unit :=
      ⟨[{ program := ⟨[⟨.task ⟨"calls", none, fun _ => calls, none⟩, 1, 2⟩]⟩ },
        { program := ⟨[⟨.task ⟨"waits", none, fun _ => .done (.ok .running), none⟩, 1, 2⟩]⟩ }]⟩
    let w : World Bool Unit := { ambient := () }
    ∃ w' inner, F.Does 3 (.mk (.run 0 true) (.ok .success) w w' inner) ∧
      (∃ s, w'.agent? 0 false = some s ∧ s.board.get? "seen" = some (.bool true)) ∧
      ∃ s, w'.agent? 1 true = some s ∧ s.paused = true := by
  intro mark calls F w
  have hroot : F.Does 3 (.mk (.run 0 true) (.ok .success) w _
      [.mk (.update 0 false mark) (.ok (.edited ∅)) _ _ [],
        .mk (.run 1 true) (.ok .running) _ _ []]) :=
    .call .done (.call .done .done)
  obtain ⟨board, s, hedit, hs, hsee⟩ := (nothing_lost (t := 0) (a := false) hroot
    (by simp [Call.On, Errand.call, Call.agent])).1 (k := "seen")
    (.inner .root (show _ = [] ++ _ :: _ from rfl))
    (List.forall_mem_singleton.2
      (.off (by simp [Call.On, Errand.call, Call.tree]) (List.forall_mem_nil _)))
  obtain ⟨-, s', -, -, hs', -, hpaused⟩ := (nothing_lost (t := 1) (a := true) hroot
    (by simp [Call.On, Errand.call, Call.tree])).2
    (.inner .root (show _ = [_] ++ _ :: [] from rfl)) (by simp)
  cases hedit
  exact ⟨_, _, hroot, ⟨s, hs, hsee⟩, s', hs', hpaused⟩

/-- A task edits the board of its own agent, and the finish hook of an aborted task ticks it
again. The edit is answered, the tick suspends the agent, and nothing of both is left. -/
theorem lost_inside :
    let mark : Edit := fun b => some (b.set "seen" (.bool true))
    let edits : Hook Unit Unit TaskResult :=
      .ask (.call (.update 0 () mark)) fun _ => .done (.ok .success)
    let again : Hook Unit Unit Unit := .ask (.call (.run 1 ())) fun _ => .done ()
    let F : Forest Unit Unit :=
      ⟨[{ program := ⟨[⟨.task ⟨"edits", none, fun _ => edits, none⟩, 1, 2⟩]⟩ },
        { program := ⟨[⟨.task ⟨"waits", none, fun _ => .done (.ok .running),
          some fun _ _ => again⟩, 1, 2⟩]⟩ }]⟩
    let w : World Unit Unit := { ambient := () }
    (∃ w' v v', F.Does 3 (.mk (.run 0 ()) (.ok .success) w w'
        [.mk (.update 0 () mark) (.ok (.edited ∅)) v v' []]) ∧
      w'.agent? 0 () = some {}) ∧
    ∃ w₁ w' v v', F.Does 2 (.mk (.run 1 ()) (.ok .running) w w₁ []) ∧
      F.Does 3 (.mk (.abort 1 ()) () w₁ w' [.mk (.run 1 ()) (.ok .running) v v' []]) ∧
      w'.agent? 1 () = some {} := by
  intro mark edits again F w
  have hwaits : F.Does 2 (.mk (.run 1 ()) (.ok .running) w _ []) := .done
  exact ⟨⟨_, _, _, .call .done .done, rfl⟩, _, _, _, _, hwaits, .call .done .done, rfl⟩

end Forest

end TickTree
