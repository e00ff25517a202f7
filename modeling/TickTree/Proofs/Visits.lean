import TickTree.Proofs.Quiet

/-!
# Visits

What becomes of an agent's tasks in a tree, told by the hooks that are called. A visit
to a task begins with the start hook, if there is one, goes on with runs that answer
Running, and ends with a run that concludes and the finish hook, if there is one. It can
also be cut short: by an abort, and then the finish hook is called with Failure, or by a
removal, and then no hook is called. That an abort or a removal has reached the agent in
the tree is part of the story; no hook call shows it.

`Story` is the grammar of such stories. It says of a story whether a visit is open at
its end, and to which instruction.
-/

namespace TickTree

variable {K A : Type}

/-! ## Beats -/

/-- One thing that a story tells. -/
inductive Beat (K : Type) where
  /-- A hook is called. -/
  | call (e : Event K)
  /-- An abort reaches the agent in the tree. -/
  | aborted
  /-- A removal reaches the agent in the tree. -/
  | removed
deriving DecidableEq

section

variable [DecidableEq K]

omit [DecidableEq K] in
/-- Whether a beat is a call of a hook. -/
def Beat.isCall : Beat K → Bool
  | .call _ => true
  | .aborted | .removed => false

/-- A call of a hook for an agent in a tree. -/
def Event.isCall (t : TreeId) (a : K) : Event K → Bool
  | .started u b .. | .ran u b .. | .finished u b .. => u = t ∧ b = a
  | _ => false

/-- The calls of hooks for an agent in a tree so far, oldest first. -/
def World.calls (t : TreeId) (a : K) (w : World K A) : List (Beat K) :=
  (w.history.filter (·.isCall t a)).map .call

theorem World.isCall_of_mem_calls {t : TreeId} {a : K} {w : World K A} {beat : Beat K}
    (h : beat ∈ w.calls t a) : beat.isCall := by
  obtain ⟨e, -, rfl⟩ := List.mem_map.1 h
  rfl

theorem World.calls_log (t : TreeId) (a : K) (w : World K A) (e : Event K) :
    (w.log e).calls t a = w.calls t a ++ if e.isCall t a then [.call e] else [] := by
  cases h : e.isCall t a <;> simp [calls, history, log, h]

theorem World.calls_log_of_not {t : TreeId} {a : K} {e : Event K} (h : e.isCall t a = false)
    (w : World K A) : (w.log e).calls t a = w.calls t a := by
  simp [calls_log, h]

theorem Event.tree?_of_isCall {t : TreeId} {a : K} {e : Event K} (h : e.isCall t a = true) :
    e.tree? = some t := by
  cases e <;> simp_all [isCall, tree?]

theorem filter_eventsOf (t : TreeId) (a : K) (j : List (Event K)) :
    (eventsOf t j).filter (·.isCall t a) = j.filter (·.isCall t a) := by
  rw [eventsOf, List.filter_filter]
  refine List.filter_congr fun e _ => ?_
  by_cases h : e.isCall t a = true
  · simp [h, Event.tree?_of_isCall h]
  · simp [h]

theorem World.Spares.calls {t : TreeId} {w w' : World K A} (h : World.Spares t w w') (a : K) :
    w'.calls t a = w.calls t a := by
  simp only [World.calls, World.history, List.filter_reverse]
  rw [← filter_eventsOf t a w'.journal, h.events, filter_eventsOf]

end

/-! ## Stories -/

section

variable (t : TreeId) (a : K)

/-- The calls at the beginning of a visit. -/
def opening (index : Nat) (task : RunnableTask K A) : List (Beat K) :=
  if task.start.isSome then [.call (.started t a index task.name)] else []

/-- A call of a run. -/
def running (index : Nat) (task : RunnableTask K A) (result : TaskResult) : Beat K :=
  .call (.ran t a index task.name result)

/-- The calls at the end of a visit. -/
def closing (index : Nat) (task : RunnableTask K A) (status : Status) : List (Beat K) :=
  if task.finish.isSome then [.call (.finished t a index task.name status)] else []

/-- A visit that has begun and waited `n` times. -/
def waiting (index : Nat) (task : RunnableTask K A) (n : Nat) : List (Beat K) :=
  opening t a index task ++ List.replicate n (running t a index task (.ok .running))

/-- The task at an index of a program. -/
def Program.HasTask (p : Program K A) (index : Nat) (task : RunnableTask K A) : Prop :=
  ∃ i, p.get? index = some i ∧ i.op = .task task

/-- Visits that are over, and an abort or a removal that finds none. -/
inductive Over (p : Program K A) : List (Beat K) → Prop where
  | concluded {index : Nat} {task : RunnableTask K A} (n : Nat) {result : TaskResult} :
      p.HasTask index task → TaskResult.status result ≠ .running →
      Over p (waiting t a index task n ++ running t a index task result ::
        closing t a index task (TaskResult.status result))
  | aborted {index : Nat} {task : RunnableTask K A} (n : Nat) : p.HasTask index task →
      Over p (waiting t a index task (n + 1) ++ .aborted :: closing t a index task .failure)
  | removed {index : Nat} {task : RunnableTask K A} (n : Nat) : p.HasTask index task →
      Over p (waiting t a index task (n + 1) ++ [.removed])
  | abortedIdle : Over p [.aborted]
  | removedIdle : Over p [.removed]

/-- Visits that are over, followed by at most one that is open; with the index of its
task if there is one. -/
inductive Story (p : Program K A) : List (Beat K) → Option Nat → Prop where
  | nil : Story p [] none
  | closed {l v : List (Beat K)} : Story p l none → Over t a p v → Story p (l ++ v) none
  | waiting {l : List (Beat K)} {index : Nat} {task : RunnableTask K A} (n : Nat) :
      Story p l none → p.HasTask index task →
      Story p (l ++ waiting t a index task (n + 1)) (some index)

end

section

variable {p : Program K A} {t : TreeId} {a : K} {l : List (Beat K)} {index : Nat}
  {task : RunnableTask K A}

theorem Program.HasTask.unique {task' : RunnableTask K A} (h : p.HasTask index task)
    (h' : p.HasTask index task') : task = task' := by
  obtain ⟨i, hget, hop⟩ := h
  obtain ⟨i', hget', hop'⟩ := h'
  rw [hget] at hget'
  cases hget'
  rw [hop] at hop'
  cases hop'
  rfl

theorem Story.open_inv (h : Story t a p l (some index)) :
    ∃ l₀ task n, Story t a p l₀ none ∧ p.HasTask index task ∧
      l = l₀ ++ TickTree.waiting t a index task (n + 1) := by
  cases h with
  | waiting n hover htask => exact ⟨_, _, n, hover, htask, rfl⟩

theorem waiting_succ (t : TreeId) (a : K) (index : Nat) (task : RunnableTask K A) (n : Nat) :
    waiting t a index task n ++ [running t a index task (.ok .running)] =
      waiting t a index task (n + 1) := by
  simp only [waiting, List.append_assoc, List.replicate_succ']

/-! ## Going on with a story -/

/-- What a visit adds to a story: the opening unless it is resumed, a run, and the closing
if the run concludes. -/
def visited (t : TreeId) (a : K) (index : Nat) (task : RunnableTask K A) (resumed : Bool)
    (result : TaskResult) : List (Beat K) :=
  (if resumed then [] else opening t a index task) ++ running t a index task result ::
    if (TaskResult.status result).isDone then
      closing t a index task (TaskResult.status result) else []

theorem TaskResult.eq_running {result : TaskResult} (h : TaskResult.status result = .running) :
    result = .ok .running := by
  cases result with
  | error e => cases h
  | ok s => rw [show s = .running from h]

/-- A visit goes on with the story that has the visit open it resumes. -/
theorem Story.visit {resumed : Bool} (htask : p.HasTask index task) (result : TaskResult)
    (h : Story t a p l (if resumed then some index else none)) :
    Story t a p (l ++ visited t a index task resumed result)
      (if (TaskResult.status result).isDone then none else some index) := by
  obtain ⟨l₀, n, hover, hl⟩ : ∃ l₀ n, Story t a p l₀ none ∧
      l ++ visited t a index task resumed result = l₀ ++ (TickTree.waiting t a index task n ++
        running t a index task result :: if (TaskResult.status result).isDone then
          closing t a index task (TaskResult.status result) else []) := by
    cases resumed with
    | false => exact ⟨l, 0, h, by simp [visited, TickTree.waiting]⟩
    | true =>
      obtain ⟨l₀, task', n, hover, htask', rfl⟩ := h.open_inv
      obtain rfl := htask.unique htask'
      exact ⟨l₀, n + 1, hover, by simp [visited]⟩
  rw [hl]
  by_cases hdone : (TaskResult.status result).isDone = true
  · simp only [hdone, if_true]
    exact .closed hover (.concluded n htask (Status.isDone_iff_ne_running.1 hdone))
  · have hresult : result = .ok .running := by
      refine TaskResult.eq_running ?_
      cases hstatus : TaskResult.status result <;> simp_all [Status.isDone]
    subst hresult
    simp only [TaskResult.status, Status.isDone, Bool.false_eq_true, if_false]
    rw [waiting_succ]
    exact .waiting n hover htask

/-- An abort cuts the open visit short and closes it. -/
theorem Story.abort (htask : p.HasTask index task) (h : Story t a p l (some index)) :
    Story t a p (l ++ .aborted :: closing t a index task .failure) none := by
  obtain ⟨l₀, task', n, hover, htask', rfl⟩ := h.open_inv
  obtain rfl := htask.unique htask'
  rw [List.append_assoc]
  exact .closed hover (.aborted n htask)

/-- A removal cuts the visit short that is open, if one is. -/
theorem Story.remove {o : Option Nat} (h : Story t a p l o) :
    Story t a p (l ++ [.removed]) none := by
  cases o with
  | none => exact .closed h .removedIdle
  | some index =>
    obtain ⟨l₀, task, n, hover, htask, rfl⟩ := h.open_inv
    rw [List.append_assoc]
    exact .closed hover (.removed n htask)

/-! ## Reading a story -/

/-- The visit that is open at the end of a story: its last call was a run that answered
Running. -/
def openVisit (l : List (Beat K)) : Option Nat :=
  match l.getLast? with
  | some (.call (.ran _ _ index _ (.ok .running))) => some index
  | _ => none

theorem Over.openVisit {v : List (Beat K)} (h : Over t a p v) (l : List (Beat K)) :
    openVisit (l ++ v) = none := by
  cases h with
  | @concluded index task n result htask hresult =>
    by_cases hfinish : task.finish.isSome = true
    · simp [TickTree.openVisit, closing, hfinish]
    · simp only [TickTree.openVisit, closing, hfinish, running, Bool.false_eq_true, if_false]
      rw [← List.append_assoc, List.getLast?_concat]
      cases result with
      | error e => rfl
      | ok s =>
        cases s with
        | running => exact absurd rfl hresult
        | success | failure => rfl
  | @aborted index task n htask =>
    by_cases hfinish : task.finish.isSome = true
    · simp [TickTree.openVisit, closing, hfinish]
    · simp [TickTree.openVisit, closing, hfinish]
  | removed | abortedIdle | removedIdle => simp [TickTree.openVisit]

/-- A story determines which visit is open at its end. -/
theorem Story.openVisit {o : Option Nat} (h : Story t a p l o) : openVisit l = o := by
  cases h with
  | nil => rfl
  | closed hl hv => exact hv.openVisit _
  | waiting n hl htask =>
    rw [← waiting_succ, ← List.append_assoc, TickTree.openVisit, List.getLast?_concat]
    rfl

end

end TickTree
