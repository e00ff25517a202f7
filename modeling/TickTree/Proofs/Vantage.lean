import TickTree.Proofs.Privacy

/-!
# Operations seen from a vantage

Whoever follows one agent knows its outlook, what the trees hold of all others, and what a filter
shows of the journal (`Vantage`). Often that decides what a computation comes to
(`Vantage.Comes`): that it ends, with which answer, and what is known afterwards.

The rules below take computations apart: hooks request by request, walks instruction by
instruction, operations between the marks that they leave on their tree. Each rule leaves to be
shown what the rest comes to, so a whole tick is followed from its beginning to its end.
-/

namespace TickTree

variable {K A α β γ : Type}

/-! ## Outlooks of ticking trees -/

namespace Outlook

/-- The registry of a number. -/
def registry (o : Outlook) (id : RegistryId) : Registry := (o.registries.get? id).getD {}

/-- The outlook with a registry replaced. -/
def setRegistry (o : Outlook) (id : RegistryId) (r : Registry) : Outlook :=
  { o with registries := o.registries.set id r }

@[simp]
theorem registry_setRegistry (o : Outlook) (id : RegistryId) (r : Registry) :
    (o.setRegistry id r).registry id = r := by
  simp [registry, setRegistry]

/-- What a tree holds of the agent, or what an agent it does not know begins with. -/
def state (o : Outlook) (t : TreeId) : AgentState := (o.trees t).agent.getD {}

/-- The outlook while a tree is ticking the agent. -/
def underway (o : Outlook) (t : TreeId) : Outlook := (o.ticking t true).holding t none

theorem trees_modify (o : Outlook) (t u : TreeId) (f : Prospect → Prospect) :
    (o.modify t f).trees u = if t = u then f (o.trees u) else o.trees u := by
  simp only [modify]
  split
  · rename_i htu
    rw [htu]
  · rfl

theorem ext_trees {o o' : Outlook} (htrees : ∀ u, o.trees u = o'.trees u)
    (hregistries : o.registries = o'.registries) : o = o' := by
  cases o
  cases o'
  cases hregistries
  congr 1
  exact funext htrees

@[simp]
theorem state_holding_self (o : Outlook) (t : TreeId) (s : AgentState) :
    (o.holding t (some s)).state t = s := by
  simp [state, holding, trees_modify]

theorem state_holding_of_ne (o : Outlook) {t u : TreeId} (h : t ≠ u) (s : Option AgentState) :
    (o.holding t s).state u = o.state u := by
  simp [state, holding, trees_modify, h]

theorem trees_holding_of_ne (o : Outlook) {t u : TreeId} (h : t ≠ u) (s : Option AgentState) :
    (o.holding t s).trees u = o.trees u := by
  simp [holding, trees_modify, h]

theorem trees_underway_of_ne (o : Outlook) {t u : TreeId} (h : t ≠ u) :
    (o.underway t).trees u = o.trees u := by
  simp [underway, ticking, holding, trees_modify, h]

@[simp]
theorem holding_holding (o : Outlook) (t : TreeId) (s s' : Option AgentState) :
    (o.holding t s).holding t s' = o.holding t s' := by
  refine ext_trees (fun u => ?_) rfl
  simp only [holding, trees_modify]
  split <;> rfl

/-- What happens to other trees while a tree is ticking is there when it has ticked. -/
theorem holding_underway (o : Outlook) {t u : TreeId} (h : t ≠ u) (s : Option AgentState) :
    (o.underway t).holding u s = (o.holding u s).underway t := by
  refine ext_trees (fun x => ?_) rfl
  simp only [underway, ticking, holding, trees_modify]
  by_cases htx : t = x
  · subst htx
    simp [Ne.symm h]
  · simp [htx]

/-- When a tree has ticked, it holds the agent again. -/
theorem leave_underway {o : Outlook} {t : TreeId} (hidle : (o.trees t).running = false)
    (s : AgentState) :
    ((o.underway t).holding t (some s)).ticking t false = o.holding t (some s) := by
  refine ext_trees (fun x => ?_) rfl
  simp only [underway, ticking, holding, trees_modify]
  by_cases htx : t = x
  · subst htx
    simp [hidle]
  · simp [htx]

end Outlook

variable [DecidableEq K]

theorem World.turn_setRegistry {a : K} {o : Outlook} {w : World K A} (h : w.outlook a = o)
    (id : RegistryId) (r : Registry) :
    World.Turn a (o.setRegistry id r) [] w (w.setRegistry id r) := by
  subst h
  exact ⟨rfl, fun _ _ _ => rfl, rfl⟩

/-- Nobody sees how many words a tree has used. -/
theorem World.turn_draw {a : K} {o : Outlook} {w : World K A} (h : w.outlook a = o) (t : TreeId)
    (drawn : Nat) : World.Turn a o [] w (w.modifyTree t fun s => { s with drawn := drawn }) := by
  have hsame := World.turn_modifyTree h t (f := fun s => { s with drawn := drawn }) (g := id)
    (fun _ => rfl) fun _ _ _ => rfl
  have hid : o.modify t id = o := Outlook.ext_trees (fun u => by simp [Outlook.trees_modify]) rfl
  rwa [hid] at hsame

theorem World.registry_of_outlook {a : K} {o : Outlook} {w : World K A} (h : w.outlook a = o) :
    w.registry = o.registry := by
  subst h
  rfl

/-! ## Vantages -/

/-- Who is followed, what is known of all others, and what shows of the journal. -/
structure Vantage (K β : Type) where
  /-- The agent that is followed. -/
  agent : K
  /-- What the trees hold of the others. -/
  others : TreeId → K → Option AgentState
  /-- What shows of an event, if anything does. -/
  see : Event K → Option β

namespace Vantage

variable (V : Vantage K β)

/-- A world that looks like this from a vantage: what has been seen so far, newest first, and
the outlook of the agent. -/
structure Shows (seen : List β) (o : Outlook) (w : World K A) : Prop where
  outlook : w.outlook V.agent = o
  others : ∀ t b, b ≠ V.agent → w.agent? t b = V.others t b
  seen : w.journal.filterMap V.see = seen

/-- What a computation comes to, as far as it can be told from a vantage. -/
def Comes (seen : List β) (o : Outlook) (f : World K A → Outcome (World K A) α)
    (Q : α → List β → Outlook → Prop) : Prop :=
  ∀ w, V.Shows seen o w → ∃ x seen' o' w', f w = .done x w' ∧ Q x seen' o' ∧ V.Shows seen' o' w'

variable {V} {seen seen' : List β} {o o' : Outlook} {w w' : World K A}

theorem Shows.turn (h : V.Shows seen o w) {es : List (Event K)}
    (hturn : w.Turn V.agent o' es w') : V.Shows (es.filterMap V.see ++ seen) o' w' where
  outlook := hturn.outlook
  others t b hb := (hturn.others t b hb).trans (h.others t b hb)
  seen := by rw [hturn.journal, List.filterMap_append, h.seen]

theorem Shows.changed (h : V.Shows seen o w) (hturn : w.Turn V.agent o' [] w') :
    V.Shows seen o' w' := h.turn hturn

theorem Shows.event (h : V.Shows seen o w) {e : Event K} (hturn : w.Turn V.agent o' [e] w') :
    V.Shows ((V.see e).toList ++ seen) o' w' := by
  have hshows := h.turn hturn
  cases hsee : V.see e with
  | none => simpa [hsee] using hshows
  | some x => simpa [hsee] using hshows

namespace Comes

variable {f g : World K A → Outcome (World K A) α} {Q Q' : α → List β → Outlook → Prop}

theorem pure {x : α} (h : Q x seen o) : V.Comes (A := A) seen o (Outcome.done x) Q :=
  fun w hw => ⟨x, seen, o, w, rfl, h, hw⟩

theorem imp (h : V.Comes seen o f Q) (himp : ∀ x seen' o', Q x seen' o' → Q' x seen' o') :
    V.Comes seen o f Q' := by
  intro w hw
  obtain ⟨x, seen', o', w', hf, hQ, hw'⟩ := h w hw
  exact ⟨x, seen', o', w', hf, himp _ _ _ hQ, hw'⟩

theorem congr (h : V.Comes seen o g Q) (hfg : ∀ w, w.outlook V.agent = o → f w = g w) :
    V.Comes seen o f Q := by
  intro w hw
  rw [hfg w hw.outlook]
  exact h w hw

theorem bind {next : α → World K A → Outcome (World K A) γ} {R : γ → List β → Outlook → Prop}
    (h : V.Comes seen o f fun x seen' o' => V.Comes seen' o' (next x) R) :
    V.Comes seen o (fun w => (f w).bind next) R := by
  intro w hw
  obtain ⟨x, seen', o', w', hf, hnext, hw'⟩ := h w hw
  obtain ⟨y, seen'', o'', w'', hy, hR, hw''⟩ := hnext w' hw'
  refine ⟨y, seen'', o'', w'', ?_, hR, hw''⟩
  simp only [hf, Outcome.bind_done, hy]

theorem map {k : α → γ} {R : γ → List β → Outlook → Prop}
    (h : V.Comes seen o f fun x seen' o' => R (k x) seen' o') :
    V.Comes seen o (fun w => (f w).map k) R :=
  bind (h.imp fun _ _ _ hR => pure hR)

/-- After an event. -/
theorem logged (e : Event K) (h : V.Comes ((V.see e).toList ++ seen) o f Q) :
    V.Comes seen o (fun w => f (w.log e)) Q :=
  fun w hw => h (w.log e) (hw.event (World.turn_log hw.outlook e))

end Comes

/-! ## Tasks -/

section

variable {tick : Tick K A} {handler : Handler K A} {index : Nat} {task : RunnableTask K A}
  {board : Blackboard} {Q : Status × Blackboard → List β → Outlook → Prop}

theorem Comes.beginVisit {hook : K → Hook K A Unit} {R : Blackboard → List β → Outlook → Prop}
    (hstart : task.start = some hook)
    (h : V.Comes ((V.see (.started tick.id tick.agent index task.name)).toList ++ seen) o
      ((hook tick.agent).perform handler board) fun answer seen' o' => R answer.2 seen' o') :
    V.Comes seen o (tick.beginVisit handler index task board) R := by
  refine (Comes.logged (f := fun w => ((hook tick.agent).perform handler board w).map (·.2)) _
    h.map).congr fun w _ => ?_
  rw [Tick.beginVisit, hstart]

theorem Comes.endVisit {hook : K → Status → Hook K A Unit} {status : Status}
    {R : Blackboard → List β → Outlook → Prop} (hfinish : task.finish = some hook)
    (h : V.Comes ((V.see (.finished tick.id tick.agent index task.name status)).toList ++ seen) o
      ((hook tick.agent status).perform handler board) fun answer seen' o' => R answer.2 seen' o') :
    V.Comes seen o (tick.endVisit handler index task status board) R := by
  refine (Comes.logged
    (f := fun w => ((hook tick.agent status).perform handler board w).map (·.2)) _ h.map).congr
      fun w _ => ?_
  rw [Tick.endVisit, hfinish]

theorem Comes.endVisit_none {status : Status} {R : Blackboard → List β → Outlook → Prop}
    (hfinish : task.finish = none) (h : R board seen o) :
    V.Comes (A := A) seen o (tick.endVisit handler index task status board) R :=
  (Comes.pure h).congr fun w _ => by rw [Tick.endVisit, hfinish]

/-- A visit that begins starts the task and then runs it. -/
theorem Comes.visit_begin
    (h : V.Comes seen o (tick.beginVisit handler index task board) fun board' seen' o' =>
      V.Comes seen' o' (tick.visit handler index task true board') Q) :
    V.Comes seen o (tick.visit handler index task false board) Q := h.bind

theorem Comes.visit_begin_none (hstart : task.start = none)
    (h : V.Comes seen o (tick.visit handler index task true board) Q) :
    V.Comes seen o (tick.visit handler index task false board) Q :=
  .visit_begin ((Comes.pure h).congr fun w _ => by rw [Tick.beginVisit, hstart])

/-- A run that does not conclude suspends the task. -/
theorem Comes.visit_suspended
    (h : V.Comes seen o ((task.run tick.agent).perform handler board) fun answer seen' o' =>
      answer.1 = .ok .running ∧ Q (.running, answer.2)
        ((V.see (.ran tick.id tick.agent index task.name (.ok .running))).toList ++ seen') o') :
    V.Comes seen o (tick.visit handler index task true board) Q := by
  refine (Comes.bind (h.imp fun answer seen' o' hanswer => ?_)).congr
    fun w _ => tick.visit_resumed handler index task board w
  obtain ⟨result, board'⟩ := answer
  obtain ⟨rfl, hQ⟩ := hanswer
  exact Comes.logged (f := Outcome.done (Status.running, board')) _ (.pure hQ)

/-- A run that concludes is followed by the end of the visit. -/
theorem Comes.visit_concluded (status : Status) (hstatus : status.isDone = true)
    (h : V.Comes seen o ((task.run tick.agent).perform handler board) fun answer seen' o' =>
      answer.1 = .ok status ∧
        V.Comes ((V.see (.ran tick.id tick.agent index task.name (.ok status))).toList ++ seen') o'
          (tick.endVisit handler index task status answer.2) fun board' seen'' o'' =>
            Q (status, board') seen'' o'') :
    V.Comes seen o (tick.visit handler index task true board) Q := by
  refine (Comes.bind (h.imp fun answer seen' o' hanswer => ?_)).congr
    fun w _ => tick.visit_resumed handler index task board w
  obtain ⟨result, board'⟩ := answer
  obtain ⟨rfl, hend⟩ := hanswer
  refine Comes.logged (f := fun w => if status.isDone = true then
    (tick.endVisit handler index task status board' w).map fun board => (status, board)
    else .done (status, board') w) _ ?_
  simp only [hstatus, if_true]
  exact hend.map

end

/-! ## Instructions -/

section

variable {tick : Tick K A} {handler : Handler K A} {index yes no : Nat} {resumed : Bool}
  {s : AgentState} {Q : Move × AgentState → List β → Outlook → Prop}

theorem Comes.dispatch_task {task : RunnableTask K A}
    (h : V.Comes seen o (tick.visit handler index task resumed s.board) fun answer =>
      Q (.ofStatus (⟨.task task, yes, no⟩ : Instruction Nat K A) answer.1,
        { s with board := answer.2 })) :
    V.Comes seen o (tick.dispatch handler index resumed ⟨.task task, yes, no⟩ s) Q := h.map

theorem Comes.dispatch_query {q : Query} {passed : Bool}
    (hfind : q.find s.board (tick.tree.registry.map o.registry) = .ok (some passed))
    (h : Q (.goto (if passed then yes else no), s) seen o) :
    V.Comes (A := A) seen o (tick.dispatch handler index resumed ⟨.query q, yes, no⟩ s) Q := by
  refine (Comes.pure h).congr fun w hw => ?_
  simp only [Tick.dispatch, World.registry_of_outlook hw, hfind]
  cases passed <;> rfl

theorem Comes.dispatch_subTree {link : Link}
    (h : V.Comes seen o (handler (.run link.tree tick.agent)) fun result seen' o' =>
      ∃ status, result = .ok status ∧ Q (.ofStatus (⟨.subTree link, yes, no⟩ : Instruction Nat K A)
        status, s) seen' o') :
    V.Comes seen o (tick.dispatch handler index resumed ⟨.subTree link, yes, no⟩ s) Q := by
  refine (Comes.bind (h.imp ?_)).congr
    fun w _ => tick.dispatch_subTree handler rfl index resumed s w
  rintro _ seen' o' ⟨status, rfl, hQ⟩
  exact .pure hQ

/-- Where a random branch goes on cannot be told, but that it is at an entry of its table. -/
theorem Comes.dispatch_randomBranch {first : Nat} {rest : List Nat}
    (h : ∀ target ∈ first :: rest,
      Q (.goto target, s) ((V.see (.drew tick.id tick.agent index target)).toList ++ seen) o) :
    V.Comes (A := A) seen o
      (tick.dispatch handler index resumed ⟨.randomBranch (first :: rest), yes, no⟩ s) Q := by
  intro w hw
  obtain ⟨⟨place, drawn⟩, hdraw⟩ : ∃ p,
      Random.draw tick.tree.words (rest.length + 1) (w.tree tick.id).drawn = p := ⟨_, rfl⟩
  rw [tick.dispatch_randomBranch handler rfl index resumed s w hdraw]
  exact Comes.logged (f := Outcome.done _) _ (.pure (h _ (Tick.getD_mem_table first rest place)))
    _ (hw.changed (World.turn_draw hw.outlook tick.id drawn))

end

/-! ## Walks -/

section

variable {tick : Tick K A} {handler : Handler K A} {f : Frame} {n : Nat}
  {Q : Progress → List β → Outlook → Prop}

/-- What is left to be shown once a step of a walk has been taken. -/
def Further (V : Vantage K β) (tick : Tick K A) (handler : Handler K A) (n : Nat)
    (Q : Progress → List β → Outlook → Prop) : Progress → List β → Outlook → Prop
  | .underway g, seen, o => V.Comes seen o (tick.walk handler n g) Q
  | .ended r s, seen, o => Q (.ended r s) seen o

theorem Comes.walk_step {i : Instruction Nat K A} (hget : tick.tree.program.get? f.cursor = some i)
    (hspent : tick.exhausted f = none)
    (h : V.Comes ((V.see (.dispatched tick.id tick.agent f.cursor)).toList ++ seen) o
      (tick.dispatch handler f.cursor f.resumed i f.state) fun answer =>
        V.Further tick handler n Q (Tick.follow f answer)) :
    V.Comes seen o (tick.walk handler (n + 1) f) Q := by
  have hadvance : V.Comes seen o (tick.advance handler f) (V.Further tick handler n Q) := by
    refine (Comes.logged (f := fun w =>
      (tick.dispatch handler f.cursor f.resumed i f.state w).map (Tick.follow f)) _ h.map).congr
        fun w _ => ?_
    simp only [Tick.advance, hget, hspent]
  refine (Comes.bind (hadvance.imp fun p seen' o' hp => ?_)).congr
    fun w _ => tick.walk_succ handler n f w
  cases p with
  | underway g => exact hp
  | ended r s => exact .pure hp

/-- A step that only goes on elsewhere. -/
theorem Comes.walk_goto {i : Instruction Nat K A} {j k spent : Nat} {resumed : Bool}
    {s s' : AgentState} (hget : tick.tree.program.get? j = some i)
    (hspent : tick.exhausted ⟨j, resumed, spent, s⟩ = none)
    (hgoto : ∀ w, tick.dispatch handler j resumed i s w = .done (.goto k, s') w)
    (h : V.Comes ((V.see (.dispatched tick.id tick.agent j)).toList ++ seen) o
      (tick.walk handler n ⟨k, false, spent + 1, s'⟩) Q) :
    V.Comes seen o (tick.walk handler (n + 1) ⟨j, resumed, spent, s⟩) Q :=
  .walk_step hget hspent ((Comes.pure h).congr fun w _ => hgoto w)

theorem Comes.walk_end (hget : tick.tree.program.get? f.cursor = none)
    (h : Q (.ended (tick.resultAt f.cursor) f.state.rewind) seen o) :
    V.Comes (A := A) seen o (tick.walk handler (n + 1) f) Q := by
  refine (Comes.pure h).congr fun w _ => ?_
  rw [Tick.walk_succ, Tick.advance, hget]
  rfl

/-- A step through the counter of a loop. -/
theorem Comes.walk_count (rounds : UInt32) {goal : UInt32} {body yes no j k spent : Nat}
    {resumed : Bool} {s : AgentState}
    (hget : tick.tree.program.get? j = some ⟨.repeatCounter goal body, yes, no⟩)
    (hspent : tick.exhausted ⟨j, resumed, spent, s⟩ = none) (hrounds : s.rounds j = rounds)
    (hgoto : (if rounds + 1 > goal then yes else body) = k)
    (h : V.Comes ((V.see (.dispatched tick.id tick.agent j)).toList ++ seen) o
      (tick.walk handler n ⟨k, false, spent + 1, s.setRounds j (rounds + 1)⟩) Q) :
    V.Comes seen o (tick.walk handler (n + 1) ⟨j, resumed, spent, s⟩) Q := by
  refine .walk_goto hget hspent (fun w => ?_) h
  simp only [Tick.dispatch, hrounds, hgoto]

/-- A step through a task that has nothing but a run, and whose run concludes. -/
theorem Comes.walk_action (task : RunnableTask K A) (board : Blackboard) {yes no j k spent : Nat}
    {resumed : Bool} {s : AgentState} {status : Status}
    (hget : tick.tree.program.get? j = some ⟨.task task, yes, no⟩)
    (hspent : tick.exhausted ⟨j, resumed, spent, s⟩ = none)
    (hhooks : task.start = none ∧ task.finish = none)
    (hrun : ∀ w, (task.run tick.agent).perform handler s.board w = .done (.ok status, board) w)
    (hgoto : Move.ofStatus (⟨.task task, yes, no⟩ : Instruction Nat K A) status = .goto k)
    (h : V.Comes ((V.see (.ran tick.id tick.agent j task.name (.ok status))).toList ++
        ((V.see (.dispatched tick.id tick.agent j)).toList ++ seen)) o
      (tick.walk handler n ⟨k, false, spent + 1, { s with board := board }⟩) Q) :
    V.Comes seen o (tick.walk handler (n + 1) ⟨j, resumed, spent, s⟩) Q := by
  have hstatus : status.isDone = true := by
    cases status with
    | success | failure => rfl
    | running => cases hgoto
  have hvisit : V.Comes ((V.see (.dispatched tick.id tick.agent j)).toList ++ seen) o
      (tick.visit handler j task true s.board) fun answer =>
        V.Further tick handler n Q (Tick.follow ⟨j, resumed, spent, s⟩
          (.ofStatus ⟨.task task, yes, no⟩ answer.1, { s with board := answer.2 })) := by
    refine .visit_concluded status hstatus ((Comes.pure ⟨rfl, .endVisit_none hhooks.2 ?_⟩).congr
      fun w _ => hrun w)
    rw [hgoto]
    exact h
  refine .walk_step hget hspent (.dispatch_task ?_)
  cases resumed with
  | true => exact hvisit
  | false => exact .visit_begin_none hhooks.1 hvisit

theorem Comes.perform {bound : Nat} {s : AgentState}
    {R : Except RunError Status × AgentState → List β → Outlook → Prop}
    (hin : s.cursor < tick.tree.program.length)
    (h : V.Comes seen o (tick.walk handler bound (.begin s)) fun p seen' o' =>
      ∃ r s', p = .ended r s' ∧ R (r, s') seen' o') :
    V.Comes seen o (tick.perform handler bound s) R := by
  intro w hw
  obtain ⟨p, seen', o', w', hwalk, ⟨r, s', rfl, hR⟩, hw'⟩ := h w hw
  exact ⟨_, seen', o', w', Tick.perform_of_walk hin hwalk, hR, hw'⟩

end

/-! ## Operations -/

section

variable {F : Forest K A} {handler : Handler K A} {t : TreeId}

/-- A tree that is neither ticking nor poisoned ticks the agent, and keeps what the tick leaves. -/
theorem Comes.run {bound : Nat} {Q : Except RunError Status → List β → Outlook → Prop}
    (hidle : (o.trees t).running = false) (hsound : (o.trees t).poisoned = false)
    (h : V.Comes ((V.see (.entered t V.agent)).toList ++ seen) (o.underway t)
      ((F.tickOf t V.agent).perform handler bound (o.state t))
      fun answer seen' o' => ∃ o₁ : Outlook, o' = o₁.underway t ∧ o₁.trees t = o.trees t ∧
        Q answer.1 ((V.see (.left t V.agent answer.1)).toList ++ seen')
          (o₁.holding t (some answer.2))) :
    V.Comes seen o (F.run handler bound t V.agent) Q := by
  intro w hw
  have hentered := hw.event (World.turn_enter hw.outlook t)
  have hin : V.Shows ((V.see (.entered t V.agent)).toList ++ seen) (o.underway t)
      ((w.enter t V.agent).checkOut t V.agent) :=
    hentered.changed (World.turn_checkOut hentered.outlook t)
  obtain ⟨⟨result, s⟩, seen', _, w₁, hperform, ⟨o₁, rfl, hkept, hQ⟩, hw₁⟩ := h _ hin
  have hstate : w.state t V.agent = o.state t := by
    rw [World.state, Outlook.state, World.agent?_of_outlook hw.outlook]
  have hpoisoned : (w₁.tree t).poisoned = false := by
    rw [World.poisoned_of_outlook hw₁.outlook]
    simpa [Outlook.underway, Outlook.ticking, Outlook.holding, Outlook.trees_modify, hkept]
      using hsound
  have hback := hw₁.changed (World.turn_checkIn hw₁.outlook t s)
  have hleft := hback.event (World.turn_leave hback.outlook t result)
  rw [Outlook.leave_underway (by rw [hkept]; exact hidle) s] at hleft
  refine ⟨result, _, _, _, ?_, hQ, hleft⟩
  exact Forest.run_of_perform ((World.running_of_outlook hw.outlook t).trans hidle)
    ((World.poisoned_of_outlook hw.outlook t).trans hsound) (by rw [hstate]; exact hperform)
    hpoisoned

section

variable {s : AgentState} {Q : Blackboard → List β → Outlook → Prop}

theorem Comes.cancel_unpaused (hpaused : s.paused = false) (h : Q s.board seen o) :
    V.Comes seen o (F.cancel handler t V.agent s) Q :=
  (Comes.pure h).congr fun w _ => Forest.cancel_unpaused handler hpaused w

theorem Comes.cancel_task {task : RunnableTask K A}
    (hawaited : (F.tree t).awaited s = some (.task task))
    (h : V.Comes seen o
      ((F.tickOf t V.agent).endVisit handler s.cursor task .failure s.board) Q) :
    V.Comes seen o (F.cancel handler t V.agent s) Q :=
  h.congr fun w _ => by rw [Forest.cancel, hawaited]

theorem Comes.cancel_subTree {link : Link} (hawaited : (F.tree t).awaited s = some (.subTree link))
    (h : V.Comes seen o (handler (.abort link.tree V.agent)) fun _ => Q s.board) :
    V.Comes seen o (F.cancel handler t V.agent s) Q :=
  h.map.congr fun w _ => by rw [Forest.cancel, hawaited]

end

/-- An agent whose state a sound tree holds is cancelled and rewound. -/
theorem Comes.abort {s : AgentState} {Q : Unit → List β → Outlook → Prop}
    (hsound : (o.trees t).poisoned = false) (hagent : (o.trees t).agent = some s)
    (h : V.Comes seen (o.holding t none) (F.cancel handler t V.agent s) fun board seen' o' =>
      (o'.trees t).poisoned = false ∧
        Q () seen' (o'.holding t (some { s with board := board }.rewind))) :
    V.Comes seen o (F.abort handler t V.agent) Q := by
  intro w hw
  obtain ⟨board, seen', o', w₁, hcancel, ⟨hpoisoned, hQ⟩, hw₁⟩ :=
    h _ (hw.changed (World.turn_checkOut hw.outlook t))
  refine ⟨(), seen', _, _, ?_, hQ, hw₁.changed (World.turn_checkIn hw₁.outlook t _)⟩
  exact Forest.abort_of_cancel ((World.poisoned_of_outlook hw.outlook t).trans hsound)
    ((World.agent?_of_outlook hw.outlook t).trans hagent) hcancel
    ((World.poisoned_of_outlook hw₁.outlook t).trans hpoisoned)

theorem Comes.abort_absent {Q : Unit → List β → Outlook → Prop}
    (hsound : (o.trees t).poisoned = false) (hagent : (o.trees t).agent = none) (h : Q () seen o) :
    V.Comes seen o (F.abort handler t V.agent) Q :=
  (Comes.pure h).congr fun _ hw => Forest.abort_absent
    ((World.poisoned_of_outlook hw t).trans hsound) ((World.agent?_of_outlook hw t).trans hagent)

end

end Vantage

end TickTree
