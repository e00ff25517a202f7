import TickTree.Proofs.Bounds
import TickTree.Proofs.Quiet

/-!
# Agents keep to themselves

A hook is private when it asks for nothing but the agent's own board. In a forest of private
hooks, without random branches, an operation for an agent depends only on what the trees hold
of this agent and on what all agents share (`World.Outlook`). It changes nothing of other
agents, and every event it logs is one of this agent (`World.Turn`). One notion says all of
this of a computation: it comes to the same in all worlds with one outlook
(`Private`), and every operation does (`Forest.serve_private`).
-/

namespace TickTree

variable {K A α β : Type}

/-- A request for the agent's own board. -/
def Request.Private : Request K A → Prop
  | .board | .setBoard _ => True
  | .ambient | .setAmbient _ | .registry .. | .call _ | .inspect .. | .note _ => False

/-- The agent an event concerns. -/
def Event.agent? : Event K → Option K
  | .entered _ a | .refused _ a | .left _ a _ | .dispatched _ a _ | .started _ a _ _
  | .ran _ a _ _ _ | .finished _ a _ _ _ | .drew _ a _ _ | .looked _ a _ | .limitReached _ a _ _
  | .boardMissing _ a _ _ | .boardUnavailable _ a _ _ | .linkFailed _ a _ _
  | .abortSkipped _ a => some a
  | .noted _ => none

/-- An edit died on a board it was lent. -/
def Call.Died : (c : Call K) → c.Reply → Prop
  | .update .., r => r = .ok .died
  | .run .., _ | .abort .., _ | .remove .., _ => False

/-! ## Outlooks -/

/-- What the operations for an agent depend on in a tree. -/
structure Prospect where
  /-- Whether the tree is ticking. -/
  running : Bool
  /-- Whether the tree is poisoned. -/
  poisoned : Bool
  /-- What the tree holds of the agent. -/
  agent : Option AgentState

/-- What the operations for an agent depend on. -/
structure Outlook where
  /-- The trees. -/
  trees : TreeId → Prospect
  /-- The registries. -/
  registries : Table RegistryId Registry

/-- What all agents share. -/
structure Outlook.Alike (o o' : Outlook) : Prop where
  running : ∀ t, (o'.trees t).running = (o.trees t).running
  poisoned : ∀ t, (o'.trees t).poisoned = (o.trees t).poisoned
  registries : o'.registries = o.registries

namespace Outlook

variable {o o' o'' : Outlook}

theorem Alike.refl (o : Outlook) : o.Alike o := ⟨fun _ => rfl, fun _ => rfl, rfl⟩

theorem Alike.trans (h : o.Alike o') (h' : o'.Alike o'') : o.Alike o'' :=
  ⟨fun t => (h'.running t).trans (h.running t), fun t => (h'.poisoned t).trans (h.poisoned t),
    h'.registries.trans h.registries⟩

/-- The outlook with the prospect of a tree changed. -/
def modify (o : Outlook) (t : TreeId) (f : Prospect → Prospect) : Outlook :=
  { o with trees := fun u => if t = u then f (o.trees t) else o.trees u }

/-- The outlook with a tree holding this of the agent. -/
def holding (o : Outlook) (t : TreeId) (s : Option AgentState) : Outlook :=
  o.modify t fun p => { p with agent := s }

/-- The outlook with a tree ticking or not. -/
def ticking (o : Outlook) (t : TreeId) (running : Bool) : Outlook :=
  o.modify t fun p => { p with running := running }

theorem alike_holding (o : Outlook) (t : TreeId) (s : Option AgentState) :
    o.Alike (o.holding t s) := by
  refine ⟨fun u => ?_, fun u => ?_, rfl⟩
  all_goals
    simp only [holding, modify]
    split
    · rename_i htu
      rw [htu]
    · rfl

/-- A tree that was not ticking before ticks for a while. -/
theorem alike_of_ticking {t : TreeId} (hidle : (o.trees t).running = false)
    (h : (o.ticking t true).Alike o') : o.Alike (o'.ticking t false) := by
  refine ⟨fun u => ?_, fun u => ?_, h.registries⟩
  · have hu := h.running u
    simp only [ticking, modify] at hu ⊢
    split
    · rename_i htu
      rw [← htu, hidle]
    · rwa [if_neg ‹_›] at hu
  · have hu := h.poisoned u
    simp only [ticking, modify] at hu ⊢
    split
    · rename_i htu
      subst htu
      simpa using hu
    · rwa [if_neg ‹_›] at hu

end Outlook

namespace World

variable [DecidableEq K]

/-- The outlook of an agent in a world. -/
def outlook (a : K) (w : World K A) : Outlook where
  trees t := ⟨(w.tree t).running, (w.tree t).poisoned, w.agent? t a⟩
  registries := w.registries

/-- It was an agent's turn: this is its outlook now, these are the events since, newest first,
and the trees hold the same of all others. -/
structure Turn (a : K) (o : Outlook) (es : List (Event K)) (w w' : World K A) : Prop where
  outlook : w'.outlook a = o
  others : ∀ t b, b ≠ a → w'.agent? t b = w.agent? t b
  journal : w'.journal = es ++ w.journal

variable {a : K} {o o' : Outlook} {es es' : List (Event K)} {w w' w'' : World K A}

theorem Turn.trans (h : Turn a o es w w') (h' : Turn a o' es' w' w'') :
    Turn a o' (es' ++ es) w w'' where
  outlook := h'.outlook
  others t b hb := (h'.others t b hb).trans (h.others t b hb)
  journal := by rw [h'.journal, h.journal, List.append_assoc]

theorem running_of_outlook (h : w.outlook a = o) (t : TreeId) :
    (w.tree t).running = (o.trees t).running := by
  rw [← h]
  rfl

theorem poisoned_of_outlook (h : w.outlook a = o) (t : TreeId) :
    (w.tree t).poisoned = (o.trees t).poisoned := by
  rw [← h]
  rfl

theorem agent?_of_outlook (h : w.outlook a = o) (t : TreeId) :
    w.agent? t a = (o.trees t).agent := by
  rw [← h]
  rfl

theorem turn_refl (h : w.outlook a = o) : Turn a o [] w w := ⟨h, fun _ _ _ => rfl, rfl⟩

theorem turn_log (h : w.outlook a = o) (e : Event K) : Turn a o [e] w (w.log e) :=
  ⟨h, fun _ _ _ => rfl, rfl⟩

theorem turn_modifyTree (h : w.outlook a = o) (t : TreeId) {f : TreeState K → TreeState K}
    {g : Prospect → Prospect}
    (hown : ∀ s, (⟨(f s).running, (f s).poisoned, (f s).agents.get? a⟩ : Prospect) =
      g ⟨s.running, s.poisoned, s.agents.get? a⟩)
    (hothers : ∀ s b, b ≠ a → (f s).agents.get? b = s.agents.get? b) :
    Turn a (o.modify t g) [] w (w.modifyTree t f) := by
  subst h
  refine ⟨?_, fun u b hb => ?_, rfl⟩
  · simp only [outlook, Outlook.modify, agent?, Outlook.mk.injEq]
    refine ⟨?_, rfl⟩
    funext u
    rw [tree_modifyTree]
    split
    · exact hown _
    · rfl
  · rw [agent?, agent?, tree_modifyTree]
    split
    · rename_i htu
      rw [hothers _ b hb, htu]
    · rfl

theorem turn_checkOut (h : w.outlook a = o) (t : TreeId) :
    Turn a (o.holding t none) [] w (w.checkOut t a) :=
  turn_modifyTree h t (fun s => by simp) fun s b hb => Table.get?_erase_of_ne _ hb.symm

theorem turn_checkIn (h : w.outlook a = o) (t : TreeId) (s : AgentState) :
    Turn a (o.holding t (some s)) [] w (w.checkIn t a s) :=
  turn_modifyTree h t (fun s => by simp) fun s b hb => Table.get?_set_of_ne _ _ hb.symm

theorem turn_enter (h : w.outlook a = o) (t : TreeId) :
    Turn a (o.ticking t true) [.entered t a] w (w.enter t a) := by
  have hticking : Turn a (o.ticking t true) [] w
      (w.modifyTree t fun s => { s with running := true }) :=
    turn_modifyTree h t (fun _ => rfl) fun _ _ _ => rfl
  exact hticking.trans (turn_log hticking.outlook _)

theorem turn_leave (h : w.outlook a = o) (t : TreeId) (r : Except RunError Status) :
    Turn a (o.ticking t false) [.left t a r] w (w.leave t a r) := by
  have hidle : Turn a (o.ticking t false) [] w
      (w.modifyTree t fun s => { s with running := false }) :=
    turn_modifyTree h t (fun _ => rfl) fun _ _ _ => rfl
  exact hidle.trans (turn_log hidle.outlook _)

end World

/-! ## Private computations -/

section

variable [DecidableEq K] {a : K} {o o' : Outlook} {Q : α → Outlook → Prop}
  {f g : World K A → Outcome (World K A) α}

/-- A computation that comes to the same in all worlds with one outlook of an agent, and is
that agent's turn. The condition says what it can come to. -/
inductive Private (a : K) (o : Outlook) (Q : α → Outlook → Prop)
    (f : World K A → Outcome (World K A) α) : Prop where
  | done {x : α} {o' : Outlook} {es : List (Event K)} : Q x o' →
      (∀ e ∈ es, e.agent? = some a) →
      (∀ w, w.outlook a = o → ∃ w', f w = .done x w' ∧ w.Turn a o' es w') → Private a o Q f
  | cutOff : (∀ w, w.outlook a = o → ∃ w', f w = .cutOff w') → Private a o Q f

namespace Private

theorem pure {x : α} (hQ : Q x o) : Private a o Q fun w : World K A => .done x w :=
  .done hQ (fun _ he => absurd he List.not_mem_nil) fun w hw => ⟨w, rfl, World.turn_refl hw⟩

theorem imp {Q' : α → Outlook → Prop} (h : Private a o Q f) (himp : ∀ x o', Q x o' → Q' x o') :
    Private a o Q' f := by
  cases h with
  | done hQ hes hdone => exact .done (himp _ _ hQ) hes hdone
  | cutOff hcut => exact .cutOff hcut

theorem congr (h : Private a o Q g) (hfg : ∀ w, w.outlook a = o → f w = g w) :
    Private a o Q f := by
  cases h with
  | done hQ hes hdone => exact .done hQ hes fun w hw => hfg w hw ▸ hdone w hw
  | cutOff hcut => exact .cutOff fun w hw => hfg w hw ▸ hcut w hw

theorem bind {Q' : β → Outlook → Prop} {next : α → World K A → Outcome (World K A) β}
    (h : Private a o Q f) (hnext : ∀ x o', Q x o' → Private a o' Q' (next x)) :
    Private a o Q' fun w => (f w).bind next := by
  cases h with
  | cutOff hcut =>
    refine .cutOff fun w hw => ?_
    obtain ⟨w', hf⟩ := hcut w hw
    exact ⟨w', by rw [hf]; rfl⟩
  | @done x o' es hQ hes hdone =>
    cases hnext _ _ hQ with
    | cutOff hcut =>
      refine .cutOff fun w hw => ?_
      obtain ⟨w', hf, hturn⟩ := hdone w hw
      obtain ⟨w'', hnext⟩ := hcut w' hturn.outlook
      exact ⟨w'', by rw [hf]; exact hnext⟩
    | @done y o'' es' hQ' hes' hdone' =>
      have hall : ∀ e ∈ es' ++ es, e.agent? = some a := by
        intro e he
        rcases List.mem_append.1 he with he | he
        · exact hes' e he
        · exact hes e he
      refine .done hQ' hall fun w hw => ?_
      obtain ⟨w', hf, hturn⟩ := hdone w hw
      obtain ⟨w'', hnext, hturn'⟩ := hdone' w' hturn.outlook
      exact ⟨w'', by rw [hf]; exact hnext, hturn.trans hturn'⟩

theorem map {Q' : β → Outlook → Prop} {g : α → β} (h : Private a o Q f)
    (himp : ∀ x o', Q x o' → Q' (g x) o') : Private a o Q' fun w => (f w).map g :=
  h.bind fun x o' hQ => pure (himp x o' hQ)

/-- After a turn of the agent. -/
theorem after {step : World K A → World K A} {es : List (Event K)}
    (hes : ∀ e ∈ es, e.agent? = some a)
    (hturn : ∀ w : World K A, w.outlook a = o → w.Turn a o' es (step w))
    (h : Private a o' Q f) : Private a o Q fun w => f (step w) :=
  bind (f := fun w => .done () (step w)) (Q := fun _ o'' => o'' = o')
    (.done rfl hes fun w hw => ⟨step w, rfl, hturn w hw⟩) fun _ _ ho => ho ▸ h

/-- After a turn without events. -/
theorem changed {step : World K A → World K A}
    (hturn : ∀ w : World K A, w.outlook a = o → w.Turn a o' [] (step w))
    (h : Private a o' Q f) : Private a o Q fun w => f (step w) :=
  h.after (fun _ he => absurd he List.not_mem_nil) hturn

/-- After an event of the agent. -/
theorem logged {e : Event K} (he : e.agent? = some a) (h : Private a o Q f) :
    Private a o Q fun w => f (w.log e) :=
  h.after (fun e' he' => by rwa [List.mem_singleton.1 he']) fun w hw => World.turn_log hw e

theorem pure_logged {x : α} {e : Event K} (he : e.agent? = some a) (hQ : Q x o) :
    Private a o Q fun w : World K A => .done x (w.log e) :=
  logged (f := fun w => .done x w) he (pure hQ)

end Private

end

/-! ## Hooks -/

variable [DecidableEq K] {handler : Handler K A} {a : K} {o : Outlook}

theorem Hook.perform_private {hook : Hook K A α} (hq : hook.Asks Request.Private)
    (board : Blackboard) :
    Private a o (fun _ o' => o' = o) (hook.perform handler board) := by
  induction hook generalizing board with
  | done x => exact .pure rfl
  | ask r next ih =>
    have hr : Private a o (fun _ o' => o' = o) (r.answer handler board) := by
      cases r with
      | board | setBoard => exact .pure rfl
      | ambient | setAmbient | registry | call | inspect | note => exact hq.inv.1.elim
    refine (hr.bind fun reply o' ho => ?_).congr fun w _ => Hook.perform_ask handler r next board w
    subst ho
    exact ih reply.1 (hq.inv.2 reply.1) reply.2

/-! ## Ticks -/

namespace Tick

variable {tick : Tick K A} {task : RunnableTask K A} {index : Nat}

theorem beginVisit_private (hq : task.Asks Request.Private) (board : Blackboard) :
    Private tick.agent o (fun _ o' => o' = o) (tick.beginVisit handler index task board) := by
  unfold beginVisit
  cases hstart : task.start with
  | none => exact .pure rfl
  | some hook =>
    have hhook : Private tick.agent o (fun _ o' => o' = o)
        ((hook tick.agent).perform handler board) := Hook.perform_private (hq.start hstart _) board
    exact .logged rfl (hhook.map fun _ _ ho => ho)

variable (tick) in
theorem endVisit_private (hq : task.Asks Request.Private) (status : Status) (board : Blackboard) :
    Private tick.agent o (fun _ o' => o' = o)
      (tick.endVisit handler index task status board) := by
  unfold endVisit
  cases hfinish : task.finish with
  | none => exact .pure rfl
  | some hook =>
    have hhook : Private tick.agent o (fun _ o' => o' = o)
        ((hook tick.agent status).perform handler board) :=
      Hook.perform_private (hq.finish hfinish _ _) board
    exact .logged rfl (hhook.map fun _ _ ho => ho)

theorem visit_private (hq : task.Asks Request.Private) (resumed : Bool) (board : Blackboard) :
    Private tick.agent o (fun _ o' => o' = o)
      (tick.visit handler index task resumed board) := by
  have hbegin : Private tick.agent o (fun _ o' => o' = o)
      fun w => if resumed then .done board w else tick.beginVisit handler index task board w := by
    cases resumed with
    | true => exact .pure rfl
    | false => exact beginVisit_private hq board
  refine hbegin.bind fun board o' ho => ?_
  subst ho
  refine (Hook.perform_private (hq.run _) board).bind fun answer o' ho => ?_
  subst ho
  refine Private.logged (e := .ran tick.id tick.agent index task.name answer.1) rfl
    (f := fun w => if (TaskResult.status answer.1).isDone then
      (tick.endVisit handler index task (TaskResult.status answer.1) answer.2 w).map
        fun board => (TaskResult.status answer.1, board)
      else .done (TaskResult.status answer.1, answer.2) w) ?_
  by_cases hdone : (TaskResult.status answer.1).isDone = true
  · simp only [hdone, if_true]
    exact (tick.endVisit_private hq _ answer.2).map fun _ _ ho => ho
  · simp only [hdone]
    exact .pure rfl

end Tick

/-- The operations for an agent are private, and change what is shared only where an edit
dies. -/
def Handler.Private (handler : Handler K A) (a : K) : Prop :=
  ∀ (c : Call K) (o : Outlook), c.agent = a →
    TickTree.Private a o (fun r o' => ¬ c.Died r → o.Alike o') (handler c)

theorem Handler.Private.run (hh : handler.Private a) (t : TreeId) :
    TickTree.Private a o (fun _ o' => o.Alike o') (handler (.run t a)) :=
  (hh (.run t a) o rfl).imp fun _ _ halike => halike not_false

/-- The hooks of a program are private, and it has no random branch. -/
structure Program.Private (p : Program K A) : Prop where
  asks : ∀ {index i task}, p.get? index = some i → i.op = .task task → task.Asks Request.Private
  fixed : ∀ {index i table}, p.get? index = some i → i.op ≠ .randomBranch table

namespace Tick

variable {tick : Tick K A}

theorem dispatch_private (hp : tick.tree.program.Private) (hh : handler.Private tick.agent)
    {index : Nat} {i : Instruction Nat K A} (hget : tick.tree.program.get? index = some i)
    (resumed : Bool) (s : AgentState) :
    Private tick.agent o (fun _ o' => o.Alike o') (tick.dispatch handler index resumed i s) := by
  obtain ⟨op, yes, no⟩ := i
  cases op with
  | task task =>
    have hvisit : Private tick.agent o (fun _ o' => o' = o)
        (tick.visit handler index task resumed s.board) :=
      visit_private (hp.asks hget rfl) resumed s.board
    refine (hvisit.map fun _ _ ho => ?_).congr fun w _ => rfl
    subst ho
    exact .refl _
  | subTree link =>
    refine ((hh.run link.tree).bind fun result o' ho => ?_).congr fun w _ =>
      tick.dispatch_subTree handler rfl index resumed s w
    cases result with
    | ok status => exact .pure ho
    | error e => exact .pure_logged rfl ho
  | randomBranch table => exact absurd rfl (hp.fixed hget)
  | query q =>
    -- The registries are all that a query reads of the world.
    let registry : RegistryId → Registry := fun r => (o.registries.get? r).getD {}
    have hregistry : ∀ w : World K A, w.outlook tick.agent = o → w.registry = registry := by
      intro w hw
      subst hw
      rfl
    cases hfind : q.find s.board (tick.tree.registry.map registry) with
    | error e =>
      refine (Private.pure_logged rfl ?_).congr fun w hw => by
        simp only [dispatch, hregistry w hw, hfind]
        rfl
      exact .refl o
    | ok found =>
      cases found with
      | none =>
        refine (Private.pure_logged rfl ?_).congr fun w hw => by
          simp only [dispatch, hregistry w hw, hfind]
          rfl
        exact .refl o
      | some passed =>
        refine (Private.pure (x := (.goto (if passed then yes else no), s)) (.refl o)).congr
          fun w hw => ?_
        simp only [dispatch, hregistry w hw, hfind]
        cases passed <;> rfl
  | repeatStart | repeatCounter | hangingSucceed | hangingFail => exact .pure (.refl o)

theorem advance_private (hp : tick.tree.program.Private) (hh : handler.Private tick.agent)
    (f : Frame) :
    Private tick.agent o (fun _ o' => o.Alike o') (tick.advance handler f) := by
  unfold advance
  cases hget : tick.tree.program.get? f.cursor with
  | none => exact .pure (.refl o)
  | some i =>
    cases tick.exhausted f with
    | some limit => exact .pure_logged rfl (.refl o)
    | none =>
      have hdispatch : Private tick.agent o (fun _ o' => o.Alike o') fun w =>
          (tick.dispatch handler f.cursor f.resumed i f.state w).map (follow f) :=
        (dispatch_private hp hh hget f.resumed f.state).map fun _ _ ho => ho
      exact Private.logged (e := .dispatched tick.id tick.agent f.cursor) rfl hdispatch

theorem walk_private (hp : tick.tree.program.Private) (hh : handler.Private tick.agent)
    (n : Nat) (f : Frame) :
    Private tick.agent o (fun _ o' => o.Alike o') (tick.walk handler n f) := by
  induction n generalizing f o with
  | zero => exact .pure (.refl o)
  | succ n ih =>
    refine ((advance_private hp hh f).bind fun p o' ho => ?_).congr fun w _ =>
      tick.walk_succ handler n f w
    cases p with
    | underway f' => exact (ih f').imp fun _ _ ho' => ho.trans ho'
    | ended r s => exact .pure ho

variable (tick) in
theorem perform_private (hp : tick.tree.program.Private) (hh : handler.Private tick.agent)
    (bound : Nat) (s : AgentState) :
    Private tick.agent o (fun _ o' => o.Alike o') (tick.perform handler bound s) := by
  have hwalk : Private tick.agent o (fun _ o' => o.Alike o') fun w =>
      (tick.walk handler bound (.begin s) w).bind fun
        | .ended result s', w' => .done (result, s') w'
        | .underway _, w' => .cutOff w' := by
    refine (walk_private hp hh bound (.begin s)).bind fun p o' ho => ?_
    cases p with
    | underway f => exact .cutOff fun w _ => ⟨w, rfl⟩
    | ended r s' => exact .pure ho
  by_cases hout : tick.tree.program.length ≤ s.cursor
  · refine (Private.pure (x := (.error (.invalidCursor s.cursor tick.tree.program.length),
      s.rewind)) (.refl o)).congr fun w _ => ?_
    rw [perform, if_pos hout]
  · refine hwalk.congr fun w _ => ?_
    rw [perform, if_neg hout]
    cases tick.walk handler bound (.begin s) w with
    | cutOff w' => rfl
    | done p w' => cases p <;> rfl

end Tick

/-! ## Operations -/

namespace Forest

variable {F : Forest K A}

theorem run_private (hF : ∀ t, (F.tree t).program.Private) (hh : handler.Private a) (bound : Nat)
    (t : TreeId) : Private a o (fun _ o' => o.Alike o') (F.run handler bound t a) := by
  cases hrunning : (o.trees t).running with
  | true =>
    refine (Private.pure_logged (x := .error .reentrant) (e := .refused t a) rfl
      (.refl o)).congr fun w hw => ?_
    rw [run_eq, World.running_of_outlook hw, hrunning, if_pos rfl]
  | false =>
    -- Whatever happens between them, the tree ticks from the first turn to the last.
    have henter : ∀ {f : World K A → Outcome (World K A) (Except RunError Status)},
        Private a (o.ticking t true) (fun _ o' => o.Alike o') f →
        Private a o (fun _ o' => o.Alike o') fun w => f (w.enter t a) :=
      fun hf => hf.after (fun e he => by rw [List.mem_singleton.1 he]; rfl)
        fun w hw => World.turn_enter hw t
    have hleave : ∀ {o'} (r : Except RunError Status), (o.ticking t true).Alike o' →
        Private a o' (fun _ o'' => o.Alike o'') fun w : World K A => .done r (w.leave t a r) :=
      fun r ho => .after (f := fun w => .done r w)
        (fun e he => by rw [List.mem_singleton.1 he]; rfl)
        (fun w hw => World.turn_leave hw t r) (.pure (Outlook.alike_of_ticking hrunning ho))
    cases hpoisoned : (o.trees t).poisoned with
    | true =>
      refine (henter (hleave (.error .poisoned) (.refl _))).congr fun w hw => ?_
      rw [run_eq, World.running_of_outlook hw, hrunning, World.poisoned_of_outlook hw, hpoisoned]
      rfl
    | false =>
      let tick := F.tickOf t a
      let s := (o.trees t).agent.getD {}
      have hperform : Private a (o.ticking t true) (fun _ o' => (o.ticking t true).Alike o')
          fun w => tick.perform handler bound s (w.checkOut t a) := by
        have htick : Private a ((o.ticking t true).holding t none)
            (fun _ o' => (o.ticking t true).Alike o') (tick.perform handler bound s) :=
          (tick.perform_private (hF t) hh bound s).imp fun _ _ ho =>
            (Outlook.alike_holding _ t none).trans ho
        exact htick.changed fun w hw => World.turn_checkOut hw t
      have hkeep : ∀ (answer : Except RunError Status × AgentState) o',
          (o.ticking t true).Alike o' → Private a o' (fun _ o'' => o.Alike o'')
            fun w₁ : World K A => if (w₁.tree t).poisoned = true then
              .done (.error .poisoned) (w₁.leave t a (.error .poisoned))
            else .done answer.1 ((w₁.checkIn t a answer.2).leave t a answer.1) := by
        intro answer o' ho
        have hsound : (o'.trees t).poisoned = false := by
          simpa [Outlook.ticking, Outlook.modify, hpoisoned] using ho.poisoned t
        refine ((hleave answer.1 (ho.trans (Outlook.alike_holding o' t (some answer.2)))).changed
          fun w hw => World.turn_checkIn hw t answer.2).congr fun w hw => ?_
        rw [World.poisoned_of_outlook hw, hsound]
        rfl
      refine (henter (hperform.bind hkeep)).congr fun w hw => ?_
      rw [run_eq, World.running_of_outlook hw, hrunning, World.poisoned_of_outlook hw, hpoisoned,
        World.state, World.agent?_of_outlook hw]
      rfl

theorem cancel_private (hF : ∀ t, (F.tree t).program.Private) (hh : handler.Private a)
    (t : TreeId) (s : AgentState) :
    Private a o (fun _ o' => o.Alike o') (F.cancel handler t a s) := by
  have hother : Private a o (fun _ o' => o.Alike o') fun w : World K A => .done s.board w :=
    .pure (.refl o)
  cases hawaited : (F.tree t).awaited s with
  | none => exact hother.congr fun w _ => by rw [cancel, hawaited]
  | some op =>
    cases op with
    | task task =>
      obtain ⟨i, hget, hop⟩ := Tree.awaited_inv hawaited
      have hend : Private a o (fun _ o' => o' = o)
          ((F.tickOf t a).endVisit handler s.cursor task .failure s.board) :=
        (F.tickOf t a).endVisit_private ((hF t).asks hget hop) .failure s.board
      refine (hend.imp fun _ o' ho => ?_).congr fun w _ => by rw [cancel, hawaited]
      subst ho
      exact .refl o'
    | subTree link =>
      have habort : Private a o (fun _ o' => o.Alike o') fun w =>
          (handler (.abort link.tree a) w).map fun () => s.board :=
        (hh (.abort link.tree a) o rfl).map fun _ _ ho => ho not_false
      exact habort.congr fun w _ => by rw [cancel, hawaited]
    | query | randomBranch | repeatStart | repeatCounter | hangingSucceed | hangingFail =>
      exact hother.congr fun w _ => by rw [cancel, hawaited]

theorem abort_private (hF : ∀ t, (F.tree t).program.Private) (hh : handler.Private a)
    (t : TreeId) : Private a o (fun _ o' => o.Alike o') (F.abort handler t a) := by
  cases hpoisoned : (o.trees t).poisoned with
  | true =>
    refine (Private.pure_logged (x := ()) (e := .abortSkipped t a) rfl (.refl o)).congr
      fun w hw => ?_
    rw [abort, World.poisoned_of_outlook hw, hpoisoned, if_pos rfl]
  | false =>
    cases hagent : (o.trees t).agent with
    | none =>
      refine (Private.pure (x := ()) (.refl o)).congr fun w hw => ?_
      rw [abort, World.poisoned_of_outlook hw, hpoisoned, World.agent?_of_outlook hw, hagent]
      rfl
    | some s =>
      have hcancel : Private a o (fun _ o' => o.Alike o') fun w =>
          F.cancel handler t a s (w.checkOut t a) := by
        have hout : Private a (o.holding t none) (fun _ o' => o.Alike o')
            (F.cancel handler t a s) :=
          (cancel_private hF hh t s).imp fun _ _ ho => (Outlook.alike_holding o t none).trans ho
        exact hout.changed fun w hw => World.turn_checkOut hw t
      have hkeep : ∀ board o', o.Alike o' → Private a o' (fun _ o'' => o.Alike o'')
          fun w₁ : World K A => if (w₁.tree t).poisoned = true then .done () w₁
            else .done () (w₁.checkIn t a { s with board := board }.rewind) := by
        intro board o' ho
        refine (Private.changed (f := fun w => .done () w)
          (fun w hw => World.turn_checkIn hw t { s with board := board }.rewind)
          (.pure (ho.trans (Outlook.alike_holding o' t _)))).congr fun w hw => ?_
        rw [World.poisoned_of_outlook hw, ho.poisoned t, hpoisoned]
        rfl
      refine (hcancel.bind hkeep).congr fun w hw => ?_
      rw [abort, World.poisoned_of_outlook hw, hpoisoned, World.agent?_of_outlook hw, hagent]
      rfl

theorem remove_private (hh : handler.Private a) (t : TreeId) :
    Private a o (fun _ o' => o.Alike o') (F.remove handler t a) := by
  cases hpoisoned : (o.trees t).poisoned with
  | true =>
    refine (Private.pure (x := false) (.refl o)).congr fun w hw => ?_
    rw [remove, World.poisoned_of_outlook hw, hpoisoned, if_pos rfl]
  | false =>
    cases hagent : (o.trees t).agent with
    | none =>
      refine (Private.pure (x := false) (.refl o)).congr fun w hw => ?_
      rw [remove, World.poisoned_of_outlook hw, hpoisoned, World.agent?_of_outlook hw, hagent]
      rfl
    | some s =>
      have hout := Outlook.alike_holding o t none
      by_cases hlink : ∃ link, (F.tree t).awaited s = some (.subTree link)
      · obtain ⟨link, hlink⟩ := hlink
        have hremove : Private a (o.holding t none) (fun _ o' => o.Alike o') fun w =>
            (handler (.remove link.tree a) w).map fun _ => true :=
          (hh (.remove link.tree a) _ rfl).map fun _ _ ho => hout.trans (ho not_false)
        refine (hremove.changed fun w hw => World.turn_checkOut hw t).congr fun w hw => ?_
        rw [remove, World.poisoned_of_outlook hw, hpoisoned, World.agent?_of_outlook hw, hagent]
        simp only [hlink, Bool.false_eq_true, if_false]
      · refine (Private.changed (f := fun w => .done true w)
          (fun w hw => World.turn_checkOut hw t) (.pure hout)).congr fun w hw => ?_
        exact remove_unlinked ((World.poisoned_of_outlook hw t).trans hpoisoned)
          ((World.agent?_of_outlook hw t).trans hagent) fun link h => hlink ⟨link, h⟩

/-- An edit that dies changes what is shared, and any other does not. -/
theorem update_private (t : TreeId) (edit : Edit) :
    Private a o (fun r o' => r ≠ .ok .died → o.Alike o')
      fun w : World K A => .done (update t a edit w).1 (update t a edit w).2 := by
  cases hpoisoned : (o.trees t).poisoned with
  | true =>
    refine (Private.pure (x := .error .poisoned) fun _ => .refl o).congr fun w hw => ?_
    rw [update, World.poisoned_of_outlook hw, hpoisoned, if_pos rfl]
  | false =>
    let s := (o.trees t).agent.getD {}
    cases hedit : edit s.board with
    | none =>
      have hpoison : ∀ w : World K A, w.outlook a = o.holding t (some s) →
          w.Turn a ((o.holding t (some s)).modify t fun p => { p with poisoned := true }) []
            (poison t w) :=
        fun w hw => World.turn_modifyTree hw t (fun _ => rfl) fun _ _ _ => rfl
      refine (Private.changed (fun w hw => World.turn_checkIn hw t s)
        (Private.changed (f := fun w => .done (.ok .died) w) hpoison
          (.pure fun hdied => absurd rfl hdied))).congr fun w hw => ?_
      rw [update, World.poisoned_of_outlook hw, hpoisoned, World.agent?_of_outlook hw]
      simp only [Bool.false_eq_true, if_false,
        show edit ((o.trees t).agent.getD {}).board = _ from hedit]
      rfl
    | some board =>
      refine (Private.changed (f := fun w => .done (.ok (.edited s.board)) w)
        (fun w hw => World.turn_checkIn hw t { s with board := board })
        (.pure fun _ => Outlook.alike_holding o t _)).congr fun w hw => ?_
      rw [update, World.poisoned_of_outlook hw, hpoisoned, World.agent?_of_outlook hw]
      simp only [Bool.false_eq_true, if_false,
        show edit ((o.trees t).agent.getD {}).board = _ from hedit]
      rfl

/-- In a forest of private hooks without random branches, the operations for an agent are
private. -/
theorem serve_private (hF : ∀ t, (F.tree t).program.Private) (a : K) (n : Nat) :
    Handler.Private (F.serve n) a := by
  induction n with
  | zero => exact fun c o _ => .cutOff fun w _ => ⟨w, rfl⟩
  | succ n ih =>
    intro c o hc
    cases c with
    | run t b =>
      obtain rfl : b = a := hc
      exact (run_private hF ih n t).imp fun _ _ ho _ => ho
    | abort t b =>
      obtain rfl : b = a := hc
      exact (abort_private hF ih t).imp fun _ _ ho _ => ho
    | remove t b =>
      obtain rfl : b = a := hc
      exact (remove_private ih t).imp fun _ _ ho _ => ho
    | update t b edit =>
      obtain rfl : b = a := hc
      exact update_private t edit

end Forest

end TickTree
