import TickTree.Proofs.Erasure
import TickTree.Proofs.Quiet

/-!
# Delayed tasks

A task is delayed by having it answer Running some times before it does what it does.
`Forest.delayed` delays every visit of every task of a forest: `delays` says how many
times the first visit waits, how many times the second, and so on, whichever tasks they
are to. Where in the schedule the visits have come is kept beside the ambient value,
where the original hooks do not see it; a run that answers Running changes nothing else.

What delays add to a journal can be told from the journal. `mark` follows one agent in
one tree: the instruction dispatched last, and whether the tick that dispatched it was
left with Running. The next dispatch of that instruction is a repeated one. `collapse`
leaves out repeated dispatches, runs and ticks that answered Running, and the beginnings
of ticks.
-/

namespace TickTree

/-! ## Collapsed journals -/

section

variable {K : Type} [DecidableEq K]

/-- What an agent dispatched last in a tree, and whether it was suspended there. Journals
have the newest event first. -/
def mark (t : TreeId) (a : K) : List (Event K) → Option (Nat × Bool)
  | [] => none
  | .dispatched u b index :: earlier =>
      if u = t ∧ b = a then some (index, false) else mark t a earlier
  | .left u b result :: earlier =>
      if u = t ∧ b = a then (mark t a earlier).map fun m => (m.1, result = .ok .running)
      else mark t a earlier
  | _ :: earlier => mark t a earlier

/-- An event that is due to suspending and resuming. -/
def Event.Interim (earlier : List (Event K)) : Event K → Prop
  | .entered .. => True
  | .left _ _ result => result = .ok .running
  | .ran _ _ _ _ result => TaskResult.status result = .running
  | .dispatched t a index => mark t a earlier = some (index, true)
  | _ => False

instance (earlier : List (Event K)) (e : Event K) : Decidable (e.Interim earlier) := by
  cases e <;> unfold Event.Interim <;> infer_instance

/-- A journal without what is due to suspending and resuming. -/
def collapse : List (Event K) → List (Event K)
  | [] => []
  | e :: earlier => if e.Interim earlier then collapse earlier else e :: collapse earlier

theorem mark_cons_congr {j j' : List (Event K)} (h : ∀ t a, mark t a j = mark t a j')
    (e : Event K) (t : TreeId) (a : K) : mark t a (e :: j) = mark t a (e :: j') := by
  cases e <;> simp only [mark, h]

theorem interim_congr {j j' : List (Event K)} (h : ∀ t a, mark t a j = mark t a j')
    (e : Event K) : e.Interim j ↔ e.Interim j' := by
  cases e <;> simp only [Event.Interim, h]

theorem collapse_cons_congr {j j' : List (Event K)} (h : ∀ t a, mark t a j = mark t a j')
    (hc : collapse j = collapse j') (e : Event K) : collapse (e :: j) = collapse (e :: j') := by
  simp only [collapse, interim_congr h e, hc]

theorem collapse_cons_of_interim {j : List (Event K)} {e : Event K} (h : e.Interim j) :
    collapse (e :: j) = collapse j := by
  simp [collapse, h]

/-- Where an agent stands in a tree is told by the events of the tree. -/
theorem mark_eventsOf (t : TreeId) (a : K) (j : List (Event K)) :
    mark t a (eventsOf t j) = mark t a j := by
  induction j with
  | nil => rfl
  | cons e j ih =>
    cases e with
    | dispatched u b index =>
      by_cases hu : u = t
      · simp only [eventsOf, List.filter, Event.tree?, hu, decide_true] at ih ⊢
        simp only [mark, ih]
      · rw [eventsOf_cons_of_ne (by simpa [Event.tree?] using hu), ih]
        simp [mark, hu]
    | left u b result =>
      by_cases hu : u = t
      · simp only [eventsOf, List.filter, Event.tree?, hu, decide_true] at ih ⊢
        simp only [mark, ih]
      · rw [eventsOf_cons_of_ne (by simpa [Event.tree?] using hu), ih]
        simp [mark, hu]
    | started u | ran u | finished u =>
      by_cases hu : u = t
      · simp only [eventsOf, List.filter, Event.tree?, hu, decide_true] at ih ⊢
        simp only [mark, ih]
      · rw [eventsOf_cons_of_ne (by simpa [Event.tree?] using hu), ih]
        simp only [mark]
    | _ =>
      rw [eventsOf_cons_of_ne (by simp [Event.tree?]), ih]
      simp only [mark]

theorem World.Spares.mark {A : Type} {t : TreeId} {w w' : World K A} (h : World.Spares t w w')
    (a : K) : mark t a w'.journal = mark t a w.journal := by
  rw [← mark_eventsOf t a w'.journal, h.events, mark_eventsOf]

end

/-! ## Delaying -/

/-- How far the visits of a run have come in a schedule of delays. -/
structure Progression where
  /-- How many visits have concluded. -/
  visits : Nat := 0
  /-- How often the visit under way has waited. -/
  waited : Nat := 0
deriving DecidableEq

section

variable {K A : Type}

/-- The hook beside a progression that it does not see. -/
def Hook.beside {α : Type} : Hook K A α → Hook K (A × Progression) α
  | .done answer => .done answer
  | .ask .board next => .ask .board fun board => (next board).beside
  | .ask (.setBoard board) next => .ask (.setBoard board) fun reply => (next reply).beside
  | .ask .ambient next => .ask .ambient fun value => (next value.1).beside
  | .ask (.setAmbient value) next =>
      .ask .ambient fun old => .ask (.setAmbient (value, old.2)) fun reply => (next reply).beside
  | .ask (.registry id command) next =>
      .ask (.registry id command) fun reply => (next reply).beside
  | .ask (.call c) next => .ask (.call c) fun reply => (next reply).beside
  | .ask (.inspect t a) next => .ask (.inspect t a) fun reply => (next reply).beside
  | .ask (.note n) next => .ask (.note n) fun reply => (next reply).beside

variable (delays : Nat → Nat)

/-- A run that waits as often as the schedule says for this visit, and then does what it
does. -/
def Hook.delayed (run : Hook K A TaskResult) : Hook K (A × Progression) TaskResult :=
  .ask .ambient fun value =>
    if value.2.waited < delays value.2.visits then
      .ask (.setAmbient (value.1, { value.2 with waited := value.2.waited + 1 })) fun _ =>
      .done (.ok .running)
    else
      run.beside.bind fun result =>
      .ask .ambient fun value =>
      .ask (.setAmbient (value.1, { visits := value.2.visits + 1 })) fun _ =>
      .done result

/-- The task with its run delayed. -/
def RunnableTask.delayed (task : RunnableTask K A) : RunnableTask K (A × Progression) where
  name := task.name
  start := task.start.map fun hook a => (hook a).beside
  run a := (task.run a).delayed delays
  finish := task.finish.map fun hook a status => (hook a status).beside

/-- The instruction with its task delayed. -/
def Op.delayed : Op K A → Op K (A × Progression)
  | .task t => .task (t.delayed delays)
  | .query q => .query q
  | .subTree link => .subTree link
  | .randomBranch table => .randomBranch table
  | .repeatStart counter => .repeatStart counter
  | .repeatCounter goal body => .repeatCounter goal body
  | .hangingSucceed => .hangingSucceed
  | .hangingFail => .hangingFail

/-- The program with its tasks delayed. -/
def Program.delayed (p : Program K A) : Program K (A × Progression) :=
  ⟨p.instructions.map fun i => ⟨i.op.delayed delays, i.onSuccess, i.onFail⟩⟩

/-- The tree with its tasks delayed. -/
def Tree.delayed (T : Tree K A) : Tree K (A × Progression) where
  program := T.program.delayed delays
  config := T.config
  registry := T.registry
  words := T.words

/-- The forest with its tasks delayed. -/
def Forest.delayed (F : Forest K A) : Forest K (A × Progression) :=
  ⟨F.trees.map (·.delayed delays)⟩

/-- The world at the beginning of a schedule. -/
def World.delayed (w : World K A) : World K (A × Progression) where
  trees := w.trees
  registries := w.registries
  ambient := (w.ambient, {})
  journal := w.journal

theorem Forest.tree_delayed (F : Forest K A) (t : TreeId) :
    (F.delayed delays).tree t = (F.tree t).delayed delays := by
  simp only [Forest.tree, Forest.delayed, List.getElem?_map]
  cases F.trees[t]? <;> rfl

theorem Program.get?_delayed (p : Program K A) (index : Nat) :
    (p.delayed delays).get? index =
      (p.get? index).map fun i => ⟨i.op.delayed delays, i.onSuccess, i.onFail⟩ := by
  simp [Program.delayed, Program.get?]

@[simp]
theorem Program.length_delayed (p : Program K A) : (p.delayed delays).length = p.length := by
  simp [Program.delayed, Program.length]

/-! ## Delaying keeps hooks quiet -/

theorem Hook.Asks.bind {α β : Type} {p : Request K A → Prop} {hook : Hook K A α}
    {f : α → Hook K A β} (h : hook.Asks p) (hf : ∀ a, (f a).Asks p) : (hook.bind f).Asks p := by
  induction h with
  | done a => exact hf a
  | ask hr _ ih => exact .ask hr ih

theorem Hook.beside_quiet {α : Type} {hook : Hook K A α} (h : hook.Asks Request.Quiet) :
    hook.beside.Asks Request.Quiet := by
  induction hook with
  | done a => exact .done a
  | ask r next ih =>
    obtain ⟨hr, hnext⟩ := h.inv
    cases r with
    | board => exact .ask trivial fun reply => ih reply (hnext reply)
    | setBoard board => exact .ask trivial fun reply => ih reply (hnext reply)
    | ambient => exact .ask trivial fun value => ih value.1 (hnext value.1)
    | setAmbient value =>
      exact .ask trivial fun old => .ask trivial fun reply => ih reply (hnext reply)
    | registry id command => exact .ask trivial fun reply => ih reply (hnext reply)
    | call c => exact hr.elim
    | inspect t a => exact .ask trivial fun reply => ih reply (hnext reply)
    | note n => exact .ask trivial fun reply => ih reply (hnext reply)

theorem Hook.delayed_quiet {run : Hook K A TaskResult} (h : run.Asks Request.Quiet) :
    (run.delayed delays).Asks Request.Quiet := by
  refine .ask trivial fun value => ?_
  split
  · exact .ask trivial fun _ => .done _
  · exact (Hook.beside_quiet h).bind fun result => .ask trivial fun _ => .ask trivial fun _ =>
      .done _

theorem RunnableTask.delayed_quiet {task : RunnableTask K A} (h : task.Asks Request.Quiet) :
    (task.delayed delays).Asks Request.Quiet where
  start := by
    intro hook hstart a
    obtain ⟨hook, heq, rfl⟩ := Option.map_eq_some_iff.1 hstart
    exact Hook.beside_quiet (h.start heq a)
  run := fun a => Hook.delayed_quiet delays (h.run a)
  finish := by
    intro hook hfinish a status
    obtain ⟨hook, heq, rfl⟩ := Option.map_eq_some_iff.1 hfinish
    exact Hook.beside_quiet (h.finish heq a status)

theorem Forest.delayed_quiet {F : Forest K A} (h : F.Asks Request.Quiet) :
    (F.delayed delays).Asks Request.Quiet := by
  intro t index task yes no hget
  rw [Forest.tree_delayed, Tree.delayed, Program.get?_delayed] at hget
  obtain ⟨⟨op, yes, no⟩, heq, hi⟩ := Option.map_eq_some_iff.1 hget
  cases op with
  | task original =>
    cases hi
    exact RunnableTask.delayed_quiet delays (h t index original yes no heq)
  | _ => cases hi

end

end TickTree
