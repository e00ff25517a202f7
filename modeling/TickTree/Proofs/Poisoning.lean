import TickTree.Proofs.Persistence
import TickTree.Proofs.Stages
import TickTree.Proofs.Unseen

/-!
# Poisoned trees

An edit that dies poisons its tree, and the tree stays so (`World.Shifts.poisoned`). What is asked
of a poisoned tree is denied: the world stays as it is, but for the events that say so
(`Errand.Denied`). This is the fate of all operations on the tree that begin after the edit has
died, wherever they come from. A tick of the tree that was under way goes on to its end, and then
its result is dropped (`Forest.Does.dropped`).

The damage is contained. A tick of another tree that comes to a link to the poisoned one fails
there and rewinds its agent (`Forest.Stage.link_denied`). One that has nothing to do with the
poisoned tree comes to the same as if it were sound (`Forest.Does.unseen`). The marks of ticking
trees are taken back in any case (`Forest.Does.sameMarks`). All this is `Forest.fail_stop`.
-/

namespace TickTree

variable {K A : Type}

/-! ## Denied calls -/

/-- What a call for a poisoned tree is answered. -/
def Call.denial (ticking : Bool) : (c : Call K) → c.Reply
  | .run .. => .error (if ticking then .reentrant else .poisoned)
  | .abort .. => ()
  | .remove .. => false
  | .update .. => .error .poisoned

/-- What is logged of it, newest first. -/
def Call.denialEvents (ticking : Bool) : Call K → List (Event K)
  | .run t a => if ticking then [.refused t a] else [.left t a (.error .poisoned), .entered t a]
  | .abort t a => [.abortSkipped t a]
  | .remove .. | .update .. => []

/-- From one world to the other there are more events, and all else is the same. -/
structure World.OnlyLogs (es : List (Event K)) (w v : World K A) : Prop where
  trees : ∀ t, v.tree t = w.tree t
  registries : v.registries = w.registries
  ambient : v.ambient = w.ambient
  journal : v.journal = es ++ w.journal

/-- An operation that was denied: it has called no hook and no edit, issued nothing, and left the
world as it was. -/
structure Errand.Denied (e : Errand K A) : Prop where
  reply : e.reply = e.call.denial (e.before.tree e.call.tree).running
  inner : e.inner = []
  world : World.OnlyLogs (e.call.denialEvents (e.before.tree e.call.tree).running) e.before e.after

/-- The operation is an edit of this tree that has died. -/
inductive Errand.Kills (t : TreeId) : Errand K A → Prop where
  | died {a : K} {edit : Edit} {w w' : World K A} {inner : List (Errand K A)} :
      Kills t (.mk (.update t a edit) (.ok .died) w w' inner)

theorem World.onlyLogs_nil (w : World K A) : OnlyLogs [] w w := ⟨fun _ => rfl, rfl, rfl, rfl⟩

theorem World.onlyLogs_log (w : World K A) (e : Event K) : OnlyLogs [e] w (w.log e) :=
  ⟨fun _ => rfl, rfl, rfl, rfl⟩

theorem World.onlyLogs_passed (w : World K A) {t : TreeId} (a : K) (r : Except RunError Status)
    (hidle : (w.tree t).running = false) :
    OnlyLogs [.left t a r, .entered t a] w ((w.enter t a).leave t a r) where
  trees u := by
    by_cases htu : t = u
    · subst htu
      rw [tree_leave, tree_enter, ← hidle]
    · rw [tree_leave_of_ne _ _ _ htu, tree_enter_of_ne _ _ htu]
  registries := rfl
  ambient := rfl
  journal := rfl

variable [DecidableEq K]

namespace Forest

variable {F : Forest K A} {n : Nat} {t : TreeId} {a : K} {w : World K A}

/-- What is asked of a poisoned tree is denied. -/
theorem course_denied (n : Nat) {c : Call K} (h : (w.tree c.tree).poisoned = true) :
    ∃ w', F.course n c w = .done (c.denial (w.tree c.tree).running) w' ∧
      World.OnlyLogs (c.denialEvents (w.tree c.tree).running) w w' := by
  cases c with
  | run t a =>
    have h : (w.tree t).poisoned = true := h
    cases hrunning : (w.tree t).running with
    | true =>
      refine ⟨w.log (.refused t a), ?_, ?_⟩
      · simp [course, runCourse, Call.denial, Call.tree, hrunning]
      · simp only [Call.tree, hrunning]
        exact w.onlyLogs_log _
    | false =>
      refine ⟨(w.enter t a).leave t a (.error .poisoned), ?_, ?_⟩
      · simp [course, runCourse, Call.denial, Call.tree, hrunning, h]
      · simp only [Call.tree, hrunning]
        exact w.onlyLogs_passed a _ hrunning
  | abort t a =>
    have h : (w.tree t).poisoned = true := h
    exact ⟨w.log (.abortSkipped t a), by simp [course, abortCourse, h, Call.denial],
      w.onlyLogs_log _⟩
  | remove t a =>
    have h : (w.tree t).poisoned = true := h
    exact ⟨w, by simp [course, removeCourse, h, Call.denial], w.onlyLogs_nil⟩
  | update t a edit =>
    have h : (w.tree t).poisoned = true := h
    exact ⟨w, by simp [course, update, h, Call.denial], w.onlyLogs_nil⟩

theorem answers_denied {c : Call K} (h : (w.tree c.tree).poisoned = true) :
    ∃ w', F.Answers c w (c.denial (w.tree c.tree).running) w' ∧
      World.OnlyLogs (c.denialEvents (w.tree c.tree).running) w w' := by
  obtain ⟨w', hcourse, hlogs⟩ := F.course_denied 0 h
  refine ⟨w', ⟨1, ?_⟩, hlogs⟩
  rw [serve, answer_eq_under, hcourse]
  rfl

theorem Does.denied {e : Errand K A} (h : F.Does n e)
    (hpoisoned : (e.before.tree e.call.tree).poisoned = true) : e.Denied := by
  obtain ⟨m, rfl, hgoes⟩ := h.goes
  obtain ⟨w', hcourse, hlogs⟩ := F.course_denied m hpoisoned
  rw [hcourse] at hgoes
  obtain ⟨hinner, hreply, rfl⟩ := hgoes.done_inv
  exact ⟨hreply.symm, hinner, hlogs⟩

theorem Does.poisons {x : Errand K A} (h : F.Does n x) (hkills : x.Kills t) :
    (x.after.tree t).poisoned = true := by
  cases hkills with
  | @died a edit w w' inner =>
    cases update_cases h.update with
    | died => simp [Errand.after, poison]

/-! ## Ticks under way -/

/-- A tick whose tree was poisoned meanwhile: it has gone on to some answer, and this was
dropped. -/
inductive Drops (F : Forest K A) (t : TreeId) (a : K) : Errand K A → Prop where
  | dropped {m : Nat} {answer : Except RunError Status × AgentState} {w w₁ : World K A}
      {inner : List (Errand K A)} :
      (F.tickOf t a).perform (F.serve m) m (w.state t a) ((w.enter t a).checkOut t a) =
        .done answer w₁ →
      Drops F t a
        (.mk (.run t a) (.error .poisoned) w (w₁.leave t a (.error .poisoned)) inner)

/-- A tick in the course of which something was done is dropped if its tree is poisoned at the
end. -/
theorem Does.dropped {d : Errand K A} (h : F.Does n d) (hcall : d.call = .run t a)
    (hinner : d.inner ≠ []) (hpoisoned : (d.after.tree t).poisoned = true) : F.Drops t a d := by
  obtain ⟨c, r, w, w', inner⟩ := d
  obtain rfl : c = .run t a := hcall
  obtain ⟨m, rfl, hgoes⟩ := h.goes
  have hserve : F.serve (m + 1) (.run t a) w = .done r w' := serve_eq_done_iff.2 ⟨inner, h⟩
  cases run_cases hserve with
  | refused hrunning =>
    refine absurd ?_ hinner
    have hcourse : F.course m (.run t a) w = .done (.error .reentrant) (w.log (.refused t a)) := by
      simp [course, runCourse, hrunning]
    exact (hcourse ▸ hgoes : Course.Goes _ _ inner _ _).done_inv.1
  | poisoned hidle hwas => exact absurd (h.denied hwas).inner hinner
  | lost hidle hsound hperform => exact .dropped hperform
  | ticked hidle hsound hperform hsound' => simp [Errand.after, hsound'] at hpoisoned

/-! ## Linked trees -/

/-- A tick that comes to a link to a poisoned tree fails there, and rewinds its agent. -/
theorem Stage.link_denied {m : Nat} {f : Frame} {v : World K A} {i : Instruction Nat K A}
    {link : Link} (hidle : (w.tree t).running = false) (hsound : (w.tree t).poisoned = false)
    (h : F.Stage t a w m f v) (hget : (F.tree t).program.get? f.cursor = some i)
    (hop : i.op = .subTree link) (hfree : (F.tickOf t a).exhausted f = none)
    (hpoisoned : (v.tree link.tree).poisoned = true) (hsound' : (v.tree t).poisoned = false) :
    ∃ w' s, F.Answers (.run t a) w (.error (.subTree f.cursor
        (if (v.tree link.tree).running then .reentrant else .poisoned))) w' ∧
      w'.agent? t a = some s ∧ s.cursor = 0 ∧ s.paused = false ∧
      (w'.tree t).running = false ∧ (w'.tree t).poisoned = false := by
  have hdenied : ((v.log (.dispatched t a f.cursor)).tree (Call.run link.tree a).tree).poisoned =
      true := hpoisoned
  obtain ⟨v₁, hanswers, hlogs⟩ := F.answers_denied hdenied
  have hsound₁ : (v₁.tree t).poisoned = false := by
    rw [hlogs.trees]
    exact hsound'
  exact ⟨_, f.state.rewind, h.link_fails hidle hsound hget hop hfree hanswers hsound₁,
    World.agent?_ticked _ t a _ _, rfl, rfl, by simp, by simp [hsound₁]⟩

/-! ## After an edit has died -/

/-- An edit of a tree dies, in whatever operation of a sequence. Then:

* whatever is done afterwards on the tree is denied, in later operations and in the course of those
  that are under way;
* ticks of the tree that are under way go on to their end, and are dropped;
* all operations leave the marks of ticking trees as they have found them;
* in every world from then on, the last one of the sequence included, each call for the tree is
  denied, and a tick that comes to a link to it fails there: its agent is at the beginning and not
  suspended, its tree neither ticking nor poisoned;
* an operation that issues nothing for the tree and does not look at it comes to the same whatever
  the state of the tree, and leaves it alone. -/
theorem fail_stop {w' : World K A} {earlier rest around later : List (Errand K A)}
    {e x : Errand K A} (hsequence : F.Sequence w (earlier ++ e :: rest) w')
    (hat : e.At around later x) (hkills : x.Kills t) :
    (∀ d ∈ later ++ rest, ∀ y, d.Within y → y.call.tree = t → y.Denied) ∧
    (∀ d ∈ around, ∀ a, d.call = .run t a → F.Drops t a d) ∧
    (∀ d ∈ earlier ++ e :: rest, ∀ y, d.Within y → World.SameMarks y.before y.after) ∧
    World.Shifts x.after w' ∧
    (∀ v, World.Shifts x.after v →
      (∀ c : Call K, c.tree = t → ∃ v', F.Answers c v (c.denial (v.tree t).running) v' ∧
        World.OnlyLogs (c.denialEvents (v.tree t).running) v v') ∧
      ∀ {u b v₀ m f i link}, (v₀.tree u).running = false → (v₀.tree u).poisoned = false →
        F.Stage u b v₀ m f v → (F.tree u).program.get? f.cursor = some i →
        i.op = .subTree link → link.tree = t → (F.tickOf u b).exhausted f = none →
        (v.tree u).poisoned = false →
        ∃ v' s, F.Answers (.run u b) v₀ (.error (.subTree f.cursor
            (if (v.tree t).running then .reentrant else .poisoned))) v' ∧
          v'.agent? u b = some s ∧ s.cursor = 0 ∧ s.paused = false ∧
          (v'.tree u).running = false ∧ (v'.tree u).poisoned = false) ∧
    ∀ n d s, F.Does n d → (∀ y, d.Within y → y.call.tree ≠ t) →
      ¬ World.Logs (fun event => ∃ b running, event = .looked t b running) d.before d.after →
      ∃ v' inner, F.Does n (.mk d.call d.reply (d.before.modifyTree t fun _ => s) v' inner) ∧
        World.Alongside (.butTree t) d.before (d.before.modifyTree t fun _ => s) d.after v' := by
  have hdoes := hsequence.all
  obtain ⟨-, hbetween, hpairs⟩ := hsequence.shifts
  have hmem : e ∈ earlier ++ e :: rest := List.mem_append_right earlier (.head rest)
  obtain ⟨n, he⟩ := hdoes e hmem
  obtain ⟨-, hends, haround, hlater⟩ := he.surrounds hat
  have hpoisoned : (x.after.tree t).poisoned = true :=
    (he.at hat).elim fun m hm => hm.poisons hkills
  refine ⟨fun d hd y hy hon => ?_, fun d hd a hcall => ?_, fun d hd y hy => ?_,
    hends.trans (hbetween e hmem).2, fun v hv => ⟨fun c hc => ?_, ?_⟩,
    fun n d s hd hcalls hlooks => ?_⟩
  · have hsince : World.Shifts x.after d.before ∧ ∃ m, F.Does m d := by
      rcases List.mem_append.1 hd with hd | hd
      · exact ⟨hlater d hd, he.later hat hd⟩
      · have hrest := (List.pairwise_cons.1 (List.pairwise_append.1 hpairs).2.1).1 d hd
        exact ⟨hends.trans hrest, hdoes d (List.mem_append_right earlier (.tail e hd))⟩
    obtain ⟨hsince, m, hm⟩ := hsince
    obtain ⟨k, hk⟩ := hm.of_within hy
    have hbegins : World.Shifts x.after y.before := hsince.trans (hm.begins hy)
    exact hk.denied (hon ▸ hbegins.poisoned hpoisoned)
  · obtain ⟨k, hk⟩ := he.of_within (hat.within_around d hd)
    exact hk.dropped hcall (hat.inner_ne_nil d hd) ((haround d hd).poisoned hpoisoned)
  · obtain ⟨m, hm⟩ := hdoes d hd
    obtain ⟨k, hk⟩ := hm.of_within hy
    exact hk.sameMarks
  · subst hc
    exact F.answers_denied (hv.poisoned hpoisoned)
  · rintro u b v₀ m f i link hidle hsound hstage hget hop rfl hfree hsound'
    exact hstage.link_denied hidle hsound hget hop hfree (hv.poisoned hpoisoned) hsound'
  · refine hd.unseen (fun _ _ task _ _ _ => task.asks_of_forall Request.inSight_butTree)
      (fun y hy => hcalls y hy)
      (fun hlogs => hlooks (hlogs.mono fun _ => notices_butTree)) ?_
    exact .of_modifyTree d.before t fun _ => s

/-- A task edits its own tree twice while this is ticked through a link, and the first edit dies.
The second one is denied, the tick is dropped, and what is asked of the tree later is denied as
well. -/
theorem fail_stop_inside :
    let die : Edit := fun _ => none
    let edits : Hook Unit Unit TaskResult :=
      .ask (.call (.update 0 () die)) fun _ => .ask (.call (.update 0 () die)) fun _ =>
        .done (.ok .success)
    let F : Forest Unit Unit :=
      ⟨[{ program := ⟨[⟨.task ⟨"edits", none, fun _ => edits, none⟩, 1, 2⟩]⟩ },
        { program := ⟨[⟨.subTree ⟨0, 1⟩, 1, 2⟩]⟩ }]⟩
    let w : World Unit Unit := { ambient := () }
    ∃ e d x y w', F.Sequence w [e] w' ∧ e.inner = [d] ∧ d.inner = [x, y] ∧ x.Kills 0 ∧
      y.Denied ∧ F.Drops 0 () d ∧ (∃ v, F.Answers (.run 0 ()) w' (.error .poisoned) v) ∧
      ∃ v s, F.Answers (.run 1 ()) w' (.error (.subTree 0 .poisoned)) v ∧
        v.agent? 1 () = some s ∧ s.cursor = 0 ∧ s.paused = false := by
  intro die edits F w
  obtain ⟨w', v, v', u, u', x, x', hdoes, hzero, hone, hstate⟩ : ∃ w' v v' u u' x x',
      F.Does 4 (.mk (.run 1 ()) (.error (.subTree 0 .poisoned)) w w'
        [.mk (.run 0 ()) (.error .poisoned) v v'
          [.mk (.update 0 () die) (.ok .died) u u' [],
            .mk (.update 0 () die) (.error .poisoned) x x' []]]) ∧
      (w'.tree 0).running = false ∧
      ((w'.tree 1).running = false ∧ (w'.tree 1).poisoned = false) ∧ w'.state 1 () = {} :=
    ⟨_, _, _, _, _, _, _, .call (.call .done (.call .done .done)) .done, rfl, ⟨rfl, rfl⟩, rfl⟩
  have hsequence : F.Sequence w ([] ++ _ :: []) w' := .does hdoes .nil
  obtain ⟨hdenied, hdrops, -, hlasts, hever, -⟩ := fail_stop hsequence
    (.inner (.inner .root (show _ = [] ++ _ :: [] from rfl)) (show _ = [] ++ _ :: [_] from rfl))
    .died
  obtain ⟨q, hanswers, -⟩ := (hever _ hlasts).1 (.run 0 ()) rfl
  rw [hzero] at hanswers
  have hbegun := (hlasts.trans (World.shifts_enter w' 1 ())).trans (World.shifts_checkOut _ 1 ())
  obtain ⟨p, s, hlink, hagent, hcursor, hpaused, -⟩ := (hever _ hbegun).2 hone.1 hone.2 .begin
    (show _ = some ⟨.subTree ⟨0, 1⟩, 1, 2⟩ by rw [hstate]; rfl) rfl rfl rfl
    (by rw [World.tree_checkOut, World.tree_enter]; exact hone.2)
  refine ⟨_, _, _, _, _, hsequence, rfl, rfl, .died, hdenied _ (.head _) _ (.self _) rfl,
    hdrops _ (.head _) () rfl, ⟨q, hanswers⟩, p, s, ?_, hagent, hcursor, hpaused⟩
  rw [World.tree_checkOut_of_ne _ _ (by decide), World.tree_enter_of_ne _ _ (by decide), hzero,
    hstate] at hlink
  exact hlink

end Forest

end TickTree
