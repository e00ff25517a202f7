import TickTree.Compile
import TickTree.Proofs.Courses
import TickTree.Proofs.Settling
import TickTree.Proofs.Stages

/-!
# Step limits

The step limit of a tree only cuts its ticks off (`Forest.limit_cuts_off`). A tick that is over
within the limit is the tick without a limit. Any other is the tick without a limit up to the
limit, and the agent is rewound.

Up to the limit both ticks are at the same stages (`Forest.Stage.limited`): the trees that are
ticked along links have limits of their own, and the tree itself is not ticked again meanwhile.
Where such a tree has no limit and no end, the link to it is the last that either tick comes to
(`Forest.limit_cuts_off_endless_link`).
-/

namespace TickTree

variable {K A : Type} [DecidableEq K]

/-! ## Handlers that agree -/

omit [DecidableEq K] in
theorem Handler.mute_below (handler : Handler K A) : Handler.mute.Below handler :=
  fun _ _ => .cutOff

/-- Two handlers answer runs alike while a tree is ticking. -/
def Handler.Agree (t : TreeId) (handler handler' : Handler K A) : Prop :=
  ∀ {u a w}, (w.tree t).running = true → handler (.run u a) w = handler' (.run u a) w

namespace Tick

variable {tick : Tick K A} {handler handler' : Handler K A} {t : TreeId} {w w' : World K A}

/-- Who answers calls makes no difference to a quiet task. -/
theorem visit_quiet {task : RunnableTask K A} (hq : task.Asks Request.Quiet)
    (handler handler' : Handler K A) (index : Nat) (resumed : Bool) (board : Blackboard)
    (w : World K A) :
    tick.visit handler index task resumed board w =
      tick.visit handler' index task resumed board w := by
  obtain ⟨answer, w', hmute⟩ := tick.visit_answers .mute index hq resumed board w
  rw [tick.visit_below handler.mute_below index task resumed board w _ _ hmute,
    tick.visit_below handler'.mute_below index task resumed board w _ _ hmute]

theorem dispatch_agree (hh : Handler.Agree t handler handler') {i : Instruction Nat K A}
    (hq : ∀ {task}, i.op = .task task → task.Asks Request.Quiet)
    (hrunning : (w.tree t).running = true) (index : Nat) (resumed : Bool) (s : AgentState) :
    tick.dispatch handler index resumed i s w = tick.dispatch handler' index resumed i s w := by
  obtain ⟨op, yes, no⟩ := i
  cases op with
  | task task =>
    rw [dispatch_task _ _ rfl, dispatch_task _ _ rfl, visit_quiet (hq rfl) handler handler']
  | subTree link => rw [dispatch_subTree _ _ rfl, dispatch_subTree _ _ rfl, hh hrunning]
  | randomBranch table => cases table <;> rfl
  | query | repeatStart | repeatCounter | hangingSucceed | hangingFail => rfl

theorem advance_agree (hh : Handler.Agree t handler handler') (hq : tick.Quiet)
    (hrunning : (w.tree t).running = true) (f : Frame) :
    tick.advance handler f w = tick.advance handler' f w := by
  rw [advance, advance]
  cases hget : tick.tree.program.get? f.cursor with
  | none => rfl
  | some i =>
    simp only
    cases tick.exhausted f with
    | some limit => rfl
    | none =>
      exact congrArg (Outcome.map (follow f)) (dispatch_agree hh (quiet_task hq hget)
        (by simpa using hrunning) f.cursor f.resumed f.state)

omit [DecidableEq K] in
/-- What a step of a tick leaves ticking. -/
theorem Confined.still_running (h : tick.Confined w w') (hown : (w.tree tick.id).running = true)
    (hrunning : (w.tree t).running = true) : (w'.tree t).running = true := by
  by_cases ht : tick.id = t
  · rw [← ht, h.running, hown]
  · rw [(h.others t ht hrunning).tree, hrunning]

theorem walk_agree (hh : Handler.Agree t handler handler') (hs : handler.Spares) (hq : tick.Quiet)
    (hown : (w.tree tick.id).running = true) (hrunning : (w.tree t).running = true) (n : Nat)
    (f : Frame) : tick.walk handler n f w = tick.walk handler' n f w := by
  induction n generalizing f w with
  | zero => rfl
  | succ n ih =>
    rw [walk_succ, walk_succ, ← advance_agree hh hq hrunning]
    cases hstep : tick.advance handler f w with
    | cutOff w' => rfl
    | done p w' =>
      cases p with
      | ended r s => rfl
      | underway g =>
        have hconfined := advance_confined hq hs hown hstep
        exact ih (hconfined.still_running hown hown) (hconfined.still_running hown hrunning) g

theorem perform_agree (hh : Handler.Agree t handler handler') (hs : handler.Spares)
    (hq : tick.Quiet) (hown : (w.tree tick.id).running = true)
    (hrunning : (w.tree t).running = true) (bound : Nat) (s : AgentState) :
    tick.perform handler bound s w = tick.perform handler' bound s w := by
  rw [perform, perform, walk_agree hh hs hq hown hrunning]

end Tick

/-! ## Trees without their limits -/

/-- What a tick leaves that the limit of its tree has cut off where it stood. -/
def World.cutAt (t : TreeId) (a : K) (f : Frame) (limit : Nat) (v : World K A) : World K A :=
  ((v.log (.limitReached t a f.cursor limit)).checkIn t a f.state.rewind).leave t a
    (.error (.stepLimit limit))

namespace Forest

variable {F : Forest K A} {t u : TreeId} {a : K} {m : Nat} {f : Frame} {w w' v : World K A}

omit [DecidableEq K] in
/-- The forest with the step limit of one of its trees taken away. -/
def unlimited (F : Forest K A) (t : TreeId) : Forest K A :=
  ⟨F.trees.modify t fun T => { T with config := { T.config with stepLimit := none } }⟩

omit [DecidableEq K] in
theorem tree_unlimited_of_ne (htu : t ≠ u) : (F.unlimited t).tree u = F.tree u := by
  simp [tree, unlimited, htu]

omit [DecidableEq K] in
theorem tree_unlimited_self (F : Forest K A) (t : TreeId) :
    (F.unlimited t).tree t =
      { F.tree t with config := { (F.tree t).config with stepLimit := none } } := by
  rw [tree, unlimited, List.getElem?_modify_eq, tree]
  cases F.trees[t]? <;> rfl

omit [DecidableEq K] in
theorem tickOf_unlimited (F : Forest K A) (t : TreeId) (a : K) :
    (F.unlimited t).tickOf t a = (F.tickOf t a).unlimited := by
  rw [tickOf, tree_unlimited_self]
  rfl

omit [DecidableEq K] in
theorem program_unlimited (F : Forest K A) (t u : TreeId) :
    ((F.unlimited t).tree u).program = (F.tree u).program := by
  by_cases htu : t = u
  · subst htu
    rw [tree_unlimited_self]
  · rw [tree_unlimited_of_ne htu]

omit [DecidableEq K] in
theorem Asks.unlimited {p : Request K A → Prop} (hF : F.Asks p) (t : TreeId) :
    (F.unlimited t).Asks p := by
  intro u index task yes no hget
  rw [program_unlimited] at hget
  exact hF u index task yes no hget

/-- While a tree is ticking its limit makes no difference to other ticks. -/
theorem serve_unlimited (hF : F.Asks Request.Quiet) (t : TreeId) (n : Nat) :
    Handler.Agree t ((F.unlimited t).serve n) (F.serve n) := by
  induction n with
  | zero => exact fun _ => rfl
  | succ n ih =>
    intro u a w hrunning
    change (F.unlimited t).run ((F.unlimited t).serve n) n u a w = F.run (F.serve n) n u a w
    rw [run_eq, run_eq]
    by_cases htu : t = u
    · subst htu
      rw [if_pos hrunning, if_pos hrunning]
    · have hout : (((w.enter u a).checkOut u a).tree t).running = true := by
        rw [World.tree_checkOut_of_ne _ a (Ne.symm htu), World.tree_enter_of_ne w a (Ne.symm htu),
          hrunning]
      rw [tickOf, tree_unlimited_of_ne htu,
        Tick.perform_agree ih ((F.unlimited t).serve_spares (hF.unlimited t) n) (hF u) (by simp)
          hout]

/-- A step of a tick is the step without the limit, unless the limit is used up at an
instruction. -/
theorem advance_unlimited (hF : F.Asks Request.Quiet) (n : Nat)
    (hfree : (F.tree t).program.get? f.cursor = none ∨ (F.tickOf t a).exhausted f = none)
    (hrunning : (v.tree t).running = true) :
    ((F.unlimited t).tickOf t a).advance ((F.unlimited t).serve n) f v =
      (F.tickOf t a).advance (F.serve n) f v := by
  rw [Tick.advance_agree (serve_unlimited hF t n) ((hF.unlimited t) t) hrunning, tickOf_unlimited]
  exact Tick.advance_unlimited_of _ _ hfree v

theorem answers_unlimited (hF : F.Asks Request.Quiet) (hrunning : (v.tree t).running = true)
    (u : TreeId) (a : K) {r : Except RunError Status} :
    (F.unlimited t).Answers (.run u a) v r w ↔ F.Answers (.run u a) v r w := by
  simp only [Answers, serve_unlimited hF t _ hrunning]

section

variable {L : Nat} (hlimit : (F.tree t).config.effectiveLimit = some L)
include hlimit

omit [DecidableEq K] in
theorem exhausted_lt (a : K) (h : f.spent < L) : (F.tickOf t a).exhausted f = none := by
  refine Tick.exhausted_of_lt (fun limit hsome => ?_) h
  rw [show (F.tickOf t a).tree.config.effectiveLimit = some L from hlimit] at hsome
  cases hsome
  exact Nat.le_refl L

omit [DecidableEq K] in
theorem exhausted_eq (a : K) (h : f.spent = L) : (F.tickOf t a).exhausted f = some L := by
  rw [Tick.exhausted, show (F.tickOf t a).tree.config.effectiveLimit = some L from hlimit, h]
  simp

variable (hF : F.Asks Request.Quiet)
include hF

/-- Up to the limit a tick gets to where it gets without the limit. -/
theorem Stage.limited (h : (F.unlimited t).Stage t a w m f v) (hm : m ≤ L) :
    F.Stage t a w m f v := by
  induction h with
  | begin => exact .begin
  | @next m n f g v u hstage hstep ih =>
    have hspent : f.spent < L := by
      rw [hstage.spent]
      exact hm
    rw [advance_unlimited hF n (.inr (exhausted_lt hlimit a hspent))
      (hstage.running (hF.unlimited t))] at hstep
    exact (ih (Nat.le_of_succ_le hm)).next hstep

/-- What is over within the limit is over in the same way with it. -/
theorem answers_within (hidle : (w.tree t).running = false)
    (hsound : (w.tree t).poisoned = false) {r : Except RunError Status}
    (h : (F.unlimited t).Answers (.run t a) w r w')
    (hcount : w'.dispatches t ≤ w.dispatches t + L) : F.Answers (.run t a) w r w' := by
  have hfree : ∀ f, ((F.unlimited t).tickOf t a).exhausted f = none := by
    intro f
    rw [tickOf_unlimited]
    rfl
  by_cases hcursor : (w.state t a).cursor < (F.tree t).program.length
  · obtain ⟨m, f, v, n, s, v', hstage, hend, rfl⟩ := h.stage (hF.unlimited t) hidle hsound
      (by rwa [program_unlimited])
    rw [World.dispatches_leave, World.dispatches_checkIn] at hcount
    have hbefore := hstage.dispatches (hF.unlimited t)
    have hrunning := hstage.running (hF.unlimited t)
    -- The last step is made in both ticks: it has no instruction, or dispatches one of the first.
    have hlast : m ≤ L ∧
        ((F.tree t).program.get? f.cursor = none ∨ (F.tickOf t a).exhausted f = none) := by
      cases Tick.advance_cases hend with
      | atEnd hget =>
        rw [program_unlimited] at hget
        exact ⟨by omega, .inl hget⟩
      | limited _ hex => simp [hfree] at hex
      | dispatched hget _ hdispatch =>
        have hsame := Tick.dispatch_dispatches
          (Tick.quiet_task ((hF.unlimited t).quiet t a) hget)
          ((F.unlimited t).serve_spares (hF.unlimited t) n) (by simpa using hrunning) hdispatch
        rw [World.dispatches_dispatched] at hsame
        have hm : m < L := by
          change v'.dispatches t = v.dispatches t + 1 at hsame
          omega
        exact ⟨Nat.le_of_lt hm, .inr (exhausted_lt hlimit a (hstage.spent ▸ hm))⟩
    rw [advance_unlimited hF n hlast.2 hrunning] at hend
    exact (Stage.limited hlimit hF hstage hlast.1).answers hF hidle hsound hcursor hend
  · have hout := Nat.le_of_not_lt hcursor
    have hunlimited := answers_outside (F := F.unlimited t) hidle hsound
      (by rwa [program_unlimited])
    obtain ⟨rfl, rfl⟩ := h.unique hunlimited
    rw [program_unlimited]
    exact answers_outside hidle hsound hout

/-- The limit cuts a tick off where another instruction would be dispatched. -/
theorem answers_cut (hidle : (w.tree t).running = false) (hsound : (w.tree t).poisoned = false)
    (h : (F.unlimited t).Stage t a w L f v) {i : Instruction Nat K A}
    (hget : (F.tree t).program.get? f.cursor = some i) :
    F.Answers (.run t a) w (.error (.stepLimit L)) (v.cutAt t a f L) := by
  have hstage := Stage.limited hlimit hF h (Nat.le_refl L)
  have hex := exhausted_eq hlimit a (f := f) hstage.spent
  have hend : (F.tickOf t a).advance (F.serve 0) f v =
      .done (.ended (.error (.stepLimit L)) f.state.rewind)
        (v.log (.limitReached t a f.cursor L)) := by
    rw [Tick.advance, show (F.tickOf t a).tree.program.get? f.cursor = some i from hget]
    simp only [hex]
  exact hstage.answers hF hidle hsound (hstage.begun hget) hend

theorem Hangs.limited (h : (F.unlimited t).Hangs t a w L) : F.Hangs t a w L := by
  obtain ⟨m, f, v, hm, hstage, -, i, link, hget, hop, hnever⟩ := h
  have hrunning := hstage.running (hF.unlimited t)
  rw [program_unlimited] at hget
  refine ⟨m, f, v, hm, Stage.limited hlimit hF hstage (Nat.le_of_lt hm),
    exhausted_lt hlimit a (hstage.spent ▸ hm), i, link, hget, hop, fun r v' hr => ?_⟩
  exact hnever r v' ((answers_unlimited hF (by simpa using hrunning) _ _).2 hr)

end

/-- A leaf that leads to itself is dispatched again and again where there is no limit. -/
theorem Stage.goes_round {c no spent : Nat} {s : AgentState}
    (hfree : (F.tree t).config.effectiveLimit = none)
    (hleaf : (F.tree t).program.get? c = some ⟨.hangingSucceed, c, no⟩)
    (h : F.Stage t a w m ⟨c, false, spent, s⟩ v) (n : Nat) :
    ∃ v', F.Stage t a w (m + n) ⟨c, false, spent + n, s⟩ v' := by
  induction n with
  | zero => exact ⟨v, h⟩
  | succ n ih =>
    obtain ⟨v', hstage⟩ := ih
    have hround := Tick.advance_of_get? (F.tickOf t a) (F.serve 0) ⟨c, false, spent + n, s⟩ hfree
      hleaf v'
    exact ⟨_, hstage.next hround⟩

/-- The step limit of a tree only cuts its ticks off. Let the hooks of a forest operate on no tree,
and compare the tick of an agent in a tree, which is neither ticking nor poisoned, with its tick in
the same tree without a limit.

* If that ends after it has dispatched no more instructions of the tree than the limit, whether with
  a status or an error, then the tick ends in the same way, with the same hooks called, the same
  words drawn and the same states.
* Otherwise the tick is cut off where the other has dispatched as many instructions as the limit and
  is about to dispatch another: all is as it is then, and the agent is rewound. Only if one of those
  instructions is a link to a tree whose own tick has no end, neither tick has an end.
* What is dispatched while linked trees are ticked does not count.
* If the agent is suspended on a task, in the tree or along links from it, the tick calls no hook in
  the tree of this task before it has run the task again.
* Unless the tick returns Running, it goes on with the stories of all agents, and leaves an agent
  suspended on a task only where it does nothing to it. -/
theorem limit_cuts_off (hF : F.Asks Request.Quiet) {L : Nat}
    (hlimit : (F.tree t).config.effectiveLimit = some L) (hidle : (w.tree t).running = false)
    (hsound : (w.tree t).poisoned = false) :
    (∀ r w', (F.unlimited t).Answers (.run t a) w r w' →
      w'.dispatches t ≤ w.dispatches t + L → F.Answers (.run t a) w r w') ∧
    ((∀ r w', (F.unlimited t).Answers (.run t a) w r w' →
        w.dispatches t + L < w'.dispatches t) →
      (∃ f v i, (F.unlimited t).Stage t a w L f v ∧ v.dispatches t = w.dispatches t + L ∧
        (F.tree t).program.get? f.cursor = some i ∧
        F.Answers (.run t a) w (.error (.stepLimit L)) (v.cutAt t a f L) ∧
        ∃ s, (v.cutAt t a f L).agent? t a = some s ∧ s.cursor = 0 ∧ s.paused = false) ∨
      (F.unlimited t).Hangs t a w L ∧ ∀ r w', ¬ F.Answers (.run t a) w r w') ∧
    (∀ {u b v r v'}, (v.tree t).running = true → F.Answers (.run u b) v r v' →
      v'.dispatches t = v.dispatches t) ∧
    (∀ {u index r w'}, F.Reaches a w t u → (∀ x, F.Reaches a w t x → (w.tree x).running = false) →
      F.openTask u a w = some index → F.Answers (.run t a) w r w' →
      ∃ task result new, (F.tree u).program.HasTask index task ∧
        w'.calls u a = w.calls u a ++ running u a index task result :: new) ∧
    ∀ {r w'}, r ≠ .ok .running → F.Answers (.run t a) w r w' →
      ∀ u b, F.Carries u b w w' ∧ F.Settles u b w w' := by
  refine ⟨fun r w' h hcount => answers_within hlimit hF hidle hsound h hcount, fun hmore => ?_,
    fun hrunning hanswer => ?_, fun hreach hrest hopen hanswer => ?_, fun hr hanswer u b => ?_⟩
  · rcases stage_or (hF.unlimited t) a hidle hsound L with
      ⟨f, v, i, hstage, hget⟩ | ⟨r, w', hanswer, hcount⟩ | hhangs
    · rw [program_unlimited] at hget
      exact .inl ⟨f, v, i, hstage, hstage.dispatches (hF.unlimited t), hget,
        answers_cut hlimit hF hidle hsound hstage hget, f.state.rewind,
        World.agent?_ticked _ t a _ _, rfl, rfl⟩
    · exact absurd hcount (Nat.not_le.2 (hmore r w' hanswer))
    · exact .inr ⟨hhangs, (Hangs.limited hlimit hF hhangs).not_answers hF hidle hsound⟩
  · obtain ⟨n, hrun⟩ := hanswer
    exact (F.serve_spares hF n hrun hrunning).dispatches
  · obtain ⟨n, hrun⟩ := hanswer
    exact hreach.resumes hF hrest hopen hrun
  · obtain ⟨n, hrun⟩ := hanswer
    exact ⟨F.serve_carries hF n hrun u b, F.serve_settles hF n hr hrun⟩

/-- A counted loop with a link in it to a tree with a task. The limit cuts it off after the first
round's link. -/
theorem limit_cuts_off_loop :
    let act : RunnableTask Unit Unit :=
      ⟨"act", some fun _ => pure (), fun _ => pure (.ok .success), some fun _ _ => pure ()⟩
    let F : Forest Unit Unit := ⟨[{ program := ⟨[⟨.task act, 1, 2⟩]⟩ },
      { program := (compile (.times 2 (.subTree ⟨0, 1⟩))).toOption.getD {},
        config := { stepLimit := some 2 } }]⟩
    let w : World Unit Unit := { ambient := () }
    F.Asks Request.Quiet ∧ (F.tree 1).config.effectiveLimit = some 2 ∧
      (∃ w', (F.unlimited 1).Answers (.run 1 ()) w (.ok .success) w' ∧ w'.dispatches 1 = 6) ∧
      ∃ f v, (F.unlimited 1).Stage 1 () w 2 f v ∧ v.dispatches 1 = 2 ∧
        F.Answers (.run 1 ()) w (.error (.stepLimit 2)) (v.cutAt 1 () f 2) ∧
        F.Settles 0 () w (v.cutAt 1 () f 2) := by
  intro act F w
  have hact : act.Asks Request.Quiet :=
    ⟨fun hstart _ => by cases hstart; exact .done (), fun _ => .done _,
      fun hfinish _ _ => by cases hfinish; exact .done ()⟩
  have hquiet : F.Asks Request.Quiet := by
    intro t index task yes no hget
    match t, index, hget with
    | 0, 0, hget =>
      cases hget
      exact hact
    | 0, index + 1, hget => cases hget
    | 1, 0, hget | 1, 1, hget | 1, 2, hget => cases hget
    | 1, index + 3, hget => cases hget
    | t + 2, index, hget => cases hget
  have hfree : (F.unlimited 1).serve 9 (.run 1 ()) w = .done (.ok .success) _ := rfl
  have hends : F.serve 9 (.run 1 ()) w = .done (.error (.stepLimit 2)) _ := rfl
  have hlimit : (F.tree 1).config.effectiveLimit = some 2 := rfl
  obtain ⟨-, hcut, -, -, hsettles⟩ := limit_cuts_off (a := ()) (w := w) hquiet hlimit rfl rfl
  refine ⟨hquiet, hlimit, ⟨_, ⟨9, hfree⟩, rfl⟩, ?_⟩
  have hmore : ∀ r w', (F.unlimited 1).Answers (.run 1 ()) w r w' →
      w.dispatches 1 + 2 < w'.dispatches 1 := by
    intro r w' h
    obtain ⟨-, rfl⟩ := h.unique ⟨9, hfree⟩
    decide
  rcases hcut hmore with ⟨f, v, -, hstage, hcount, -, hanswer, -⟩ | ⟨-, hnever⟩
  · exact ⟨f, v, hstage, hcount, hanswer, (hsettles (by simp) hanswer 0 ()).2⟩
  · exact absurd ⟨9, hends⟩ (hnever _ _)

/-- A link to a tree that goes round without end. The limit of the linking tree counts the link
only, so its tick is not cut off: neither with the limit nor without does it have an end. -/
theorem limit_cuts_off_endless_link :
    let F : Forest Unit Unit := ⟨[{ program := ⟨[⟨.hangingSucceed, 0, 0⟩]⟩ },
      { program := ⟨[⟨.subTree ⟨0, 1⟩, 1, 2⟩]⟩, config := { stepLimit := some 2 } }]⟩
    let w : World Unit Unit := { ambient := () }
    compile (.forever (.succeed none)) = .ok (F.tree 0).program ∧
      compile (.subTree ⟨0, 1⟩) = .ok (F.tree 1).program ∧ F.Asks Request.Quiet ∧
      (F.tree 1).config.effectiveLimit = some 2 ∧
      (∀ r w', ¬ (F.unlimited 1).Answers (.run 1 ()) w r w') ∧
      ∀ r w', ¬ F.Answers (.run 1 ()) w r w' := by
  intro F w
  have hquiet : F.Asks Request.Quiet := by
    intro t index task yes no hget
    match t, index, hget with
    | 0, 0, hget | 1, 0, hget => cases hget
    | 0, index + 1, hget | 1, index + 1, hget => cases hget
    | t + 2, index, hget => cases hget
  have hlimit : (F.tree 1).config.effectiveLimit = some 2 := rfl
  let linked : World Unit Unit := ((w.enter 1 ()).checkOut 1 ()).log (.dispatched 1 () 0)
  have hbegins : (F.unlimited 1).Stage 0 () linked 0 ⟨0, false, 0, {}⟩ _ := .anew rfl
  have hhangs : (F.unlimited 1).Hangs 1 () w 2 := by
    refine ⟨0, _, _, Nat.zero_lt_two, .begin, rfl, _, ⟨0, 1⟩, rfl, rfl, fun r v' => ?_⟩
    refine not_answers_of_stages (hquiet.unlimited 1) rfl rfl (by decide) (fun m => ?_) r
    obtain ⟨u, hstage⟩ := hbegins.goes_round rfl rfl m
    exact ⟨0 + m, _, u, Nat.le_add_left m 0, hstage⟩
  exact ⟨rfl, rfl, hquiet, hlimit, hhangs.not_answers (hquiet.unlimited 1) rfl rfl,
    (Hangs.limited hlimit hquiet hhangs).not_answers hquiet rfl rfl⟩

end Forest

end TickTree
