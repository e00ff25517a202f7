import TickTree.Proofs.Operations
import TickTree.Proofs.Walks

/-!
# Courses

Between two calls a computation goes on by itself. Its course is this view of it: the
computation up to its next call, and how it goes on with whatever the call is answered.
Each operation has a course (`Forest.course`), and is what becomes of its course when its
calls are answered (`Forest.answer_eq_under`). So what holds of an operation between its
calls can be said without saying who answers them.

Two things are said of courses. A course keeps a relation when the worlds on both sides of
each of its stretches are related (`Course.Keeps`). A course meets a contract when it asks
only for calls that the contract allows, given that those before were answered as the
contract says (`Course.Meets`).
-/

namespace TickTree

variable {K A α β : Type}

/-- A computation on a world, up to its next call. -/
inductive Course (K A α : Type) where
  /-- It answers, and leaves this world. -/
  | done (answer : α) (w : World K A)
  /-- It reaches its bound in this world. -/
  | cutOff (w : World K A)
  /-- It issues a call in this world, and goes on with the reply. -/
  | call (c : Call K) (w : World K A) (next : c.Reply → World K A → Course K A α)

/-- What calls are held to. -/
structure Contract (K A : Type) where
  /-- When a call may be issued. -/
  pre : Call K → World K A → Prop
  /-- What is taken for granted of its reply and of the worlds before and after it. -/
  granted : (c : Call K) → World K A → c.Reply → World K A → Prop := fun _ _ _ _ => True
  /-- What its reply and these worlds are like. -/
  post : (c : Call K) → World K A → c.Reply → World K A → Prop

namespace Course

/-- One course after the other. -/
def bind : Course K A α → (α → World K A → Course K A β) → Course K A β
  | done a w, f => f a w
  | cutOff w, _ => cutOff w
  | call c w next, f => call c w fun r w' => (next r w').bind f

/-- The course with its answer changed. -/
def map (f : α → β) (course : Course K A α) : Course K A β := course.bind fun a w => done (f a) w

/-- The course of a computation that issues no call. -/
def ofOutcome : Outcome (World K A) α → Course K A α
  | .done a w => done a w
  | .cutOff w => cutOff w

/-- What becomes of a course when its calls are answered. -/
def under (handler : Handler K A) : Course K A α → Outcome (World K A) α
  | done a w => .done a w
  | cutOff w => .cutOff w
  | call c w next => (handler c w).bind fun r w' => (next r w').under handler

/-- From this world on, each stretch between calls leads to a related world. -/
def Keeps (R : World K A → World K A → Prop) : World K A → Course K A α → Prop
  | w, done _ v => R w v
  | w, cutOff v => R w v
  | w, call _ v next => R w v ∧ ∀ r v', (next r v').Keeps R v'

/-- The calls are allowed by a contract, as long as they are answered by it, and so is what
the course comes to. -/
def Meets (C : Contract K A) (final : α → World K A → Prop) : Course K A α → Prop
  | done a w => final a w
  | cutOff _ => True
  | call c w next =>
      C.pre c w ∧ ∀ r w', C.granted c w r w' → C.post c w r w' → (next r w').Meets C final

section

variable {handler : Handler K A} {R : World K A → World K A → Prop} {C : Contract K A}
  {final : α → World K A → Prop}

theorem under_bind (course : Course K A α) (f : α → World K A → Course K A β) :
    (course.bind f).under handler =
      (course.under handler).bind fun a w => (f a w).under handler := by
  induction course with
  | done a w => rfl
  | cutOff w => rfl
  | call c w next ih =>
    simp only [bind, under]
    cases handler c w with
    | done r w' => exact ih r w'
    | cutOff w' => rfl

theorem under_map (f : α → β) (course : Course K A α) :
    (course.map f).under handler = (course.under handler).map f := under_bind course _

@[simp]
theorem under_ofOutcome (o : Outcome (World K A) α) : (ofOutcome o).under handler = o := by
  cases o <;> rfl

/-- What comes before a course counts as part of its first stretch. -/
theorem Keeps.from_earlier (trans : ∀ w v u, R w v → R v u → R w u) {w v : World K A}
    {course : Course K A α} (hwv : R w v) (h : course.Keeps R v) : course.Keeps R w := by
  cases course with
  | done | cutOff => exact trans _ _ _ hwv h
  | call => exact ⟨trans _ _ _ hwv h.1, h.2⟩

/-- A relation that worlds keep is kept by one course after the other. -/
theorem Keeps.bind (trans : ∀ w v u, R w v → R v u → R w u) {w : World K A}
    {course : Course K A α} {f : α → World K A → Course K A β} (h : course.Keeps R w)
    (hnext : ∀ a v, (f a v).Keeps R v) : (course.bind f).Keeps R w := by
  induction course generalizing w with
  | done a v => exact (hnext a v).from_earlier trans h
  | cutOff v => exact h
  | call c v next ih => exact ⟨h.1, fun r v' => ih r v' (h.2 r v')⟩

theorem Meets.bind {final' : β → World K A → Prop} {course : Course K A α}
    {f : α → World K A → Course K A β} (h : course.Meets C final)
    (hnext : ∀ a w, final a w → (f a w).Meets C final') : (course.bind f).Meets C final' := by
  induction course with
  | done a w => exact hnext a w h
  | cutOff w => trivial
  | call c w next ih => exact ⟨h.1, fun r w' hg hr => ih r w' (h.2 r w' hg hr)⟩

theorem Meets.imp {final' : α → World K A → Prop} {course : Course K A α}
    (h : course.Meets C final) (himp : ∀ a w, final a w → final' a w) : course.Meets C final' := by
  induction course with
  | done a w => exact himp a w h
  | cutOff w => trivial
  | call c w next ih => exact ⟨h.1, fun r w' hg hr => ih r w' (h.2 r w' hg hr)⟩

theorem Meets.map {final' : β → World K A → Prop} {f : α → β} {course : Course K A α}
    (h : course.Meets C fun a w => final' (f a) w) : (course.map f).Meets C final' :=
  h.bind fun _ _ hfinal => hfinal

end

end Course

/-! ## Hooks -/

/-- Answers no call. -/
def Handler.mute : Handler K A := fun _ w => .cutOff w

variable [DecidableEq K]

/-- The course of a request. -/
def Request.course (r : Request K A) (board : Blackboard) (w : World K A) :
    Course K A (r.Reply × Blackboard) :=
  match r with
  | .call c => .call c w fun reply w' => .done (reply, board) w'
  | r => .ofOutcome (r.answer .mute board w)

/-- The course of a hook. -/
def Hook.course : Hook K A α → Blackboard → World K A → Course K A (α × Blackboard)
  | .done a, board, w => .done (a, board) w
  | .ask r next, board, w =>
      (r.course board w).bind fun reply w' => (next reply.1).course reply.2 w'

variable {handler : Handler K A}

theorem Request.answer_eq_under (r : Request K A) (board : Blackboard) (w : World K A) :
    r.answer handler board w = (r.course board w).under handler := by
  cases r with
  | call c => rfl
  | _ => rfl

theorem Hook.perform_eq_under (hook : Hook K A α) (board : Blackboard) (w : World K A) :
    hook.perform handler board w = (hook.course board w).under handler := by
  induction hook generalizing board w with
  | done a => rfl
  | ask r next ih =>
    simp only [perform_ask, course, Course.under_bind, Request.answer_eq_under, ih]

/-! ## Ticks -/

namespace Tick

variable (tick : Tick K A)

/-- The course of the beginning of a visit. -/
def beginCourse (index : Nat) (task : RunnableTask K A) (board : Blackboard) (w : World K A) :
    Course K A Blackboard :=
  match task.start with
  | none => .done board w
  | some hook =>
      ((hook tick.agent).course board
        (w.log (.started tick.id tick.agent index task.name))).map (·.2)

/-- The course of the end of a visit. -/
def endCourse (index : Nat) (task : RunnableTask K A) (status : Status) (board : Blackboard)
    (w : World K A) : Course K A Blackboard :=
  match task.finish with
  | none => .done board w
  | some hook =>
      ((hook tick.agent status).course board
        (w.log (.finished tick.id tick.agent index task.name status))).map (·.2)

/-- The course of a run of a task that has begun. -/
def runCourse (index : Nat) (task : RunnableTask K A) (board : Blackboard) (w : World K A) :
    Course K A (Status × Blackboard) :=
  ((task.run tick.agent).course board w).bind fun answer w =>
  let status := TaskResult.status answer.1
  let w := w.log (.ran tick.id tick.agent index task.name answer.1)
  if status.isDone then
    (tick.endCourse index task status answer.2 w).map fun board => (status, board)
  else .done (status, answer.2) w

/-- The course of a visit. -/
def visitCourse (index : Nat) (task : RunnableTask K A) (resumed : Bool) (board : Blackboard)
    (w : World K A) : Course K A (Status × Blackboard) :=
  (if resumed then .done board w else tick.beginCourse index task board w).bind
    fun board w => tick.runCourse index task board w

/-- The course of one instruction. -/
def dispatchCourse (index : Nat) (resumed : Bool) (i : Instruction Nat K A) (state : AgentState)
    (w : World K A) : Course K A (Move × AgentState) :=
  match i.op with
  | .task task =>
      (tick.visitCourse index task resumed state.board w).map fun answer =>
        (.ofStatus i answer.1, { state with board := answer.2 })
  | .subTree link =>
      .call (.run link.tree tick.agent) w fun
      | .ok status, w => .done (.ofStatus i status, state) w
      | .error e, w =>
          .done (.stop (.subTree index e), state) (w.log (.linkFailed tick.id tick.agent index e))
  | _ => .ofOutcome (tick.dispatch .mute index resumed i state w)

/-- The course of one step of a walk. -/
def advanceCourse (frame : Frame) (w : World K A) : Course K A Progress :=
  match tick.tree.program.get? frame.cursor with
  | none => .done (.ended (tick.resultAt frame.cursor) frame.state.rewind) w
  | some i =>
      match tick.exhausted frame with
      | some limit =>
          .done (.ended (.error (.stepLimit limit)) frame.state.rewind)
            (w.log (.limitReached tick.id tick.agent frame.cursor limit))
      | none =>
          (tick.dispatchCourse frame.cursor frame.resumed i frame.state
            (w.log (.dispatched tick.id tick.agent frame.cursor))).map (follow frame)

/-- The course of so many steps of a walk; of more than that, it does not come to a result. -/
def walkCourse : Nat → Frame → World K A → Course K A (Except RunError Status × AgentState)
  | 0, _, w => .cutOff w
  | steps + 1, frame, w =>
      (tick.advanceCourse frame w).bind fun
      | .underway frame', w' => walkCourse steps frame' w'
      | .ended result state, w' => .done (result, state) w'

/-- The course of a whole tick. -/
def performCourse (bound : Nat) (state : AgentState) (w : World K A) :
    Course K A (Except RunError Status × AgentState) :=
  if tick.tree.program.length ≤ state.cursor then
    .done (.error (.invalidCursor state.cursor tick.tree.program.length), state.rewind) w
  else tick.walkCourse bound (.begin state) w

theorem beginVisit_eq_under (index : Nat) (task : RunnableTask K A) (board : Blackboard)
    (w : World K A) :
    tick.beginVisit handler index task board w =
      (tick.beginCourse index task board w).under handler := by
  rw [beginVisit, beginCourse]
  cases task.start with
  | none => rfl
  | some hook => simp only [Hook.perform_eq_under, Course.under_map]

theorem endVisit_eq_under (index : Nat) (task : RunnableTask K A) (status : Status)
    (board : Blackboard) (w : World K A) :
    tick.endVisit handler index task status board w =
      (tick.endCourse index task status board w).under handler := by
  rw [endVisit, endCourse]
  cases task.finish with
  | none => rfl
  | some hook => simp only [Hook.perform_eq_under, Course.under_map]

theorem visit_eq_under (index : Nat) (task : RunnableTask K A) (resumed : Bool)
    (board : Blackboard) (w : World K A) :
    tick.visit handler index task resumed board w =
      (tick.visitCourse index task resumed board w).under handler := by
  have hrun : ∀ board w, (tick.runCourse index task board w).under handler =
      ((task.run tick.agent).perform handler board w).bind fun answer w =>
        if (TaskResult.status answer.1).isDone then
          (tick.endVisit handler index task (TaskResult.status answer.1) answer.2
            (w.log (.ran tick.id tick.agent index task.name answer.1))).map
              fun board => (TaskResult.status answer.1, board)
        else .done (TaskResult.status answer.1, answer.2)
          (w.log (.ran tick.id tick.agent index task.name answer.1)) := by
    intro board w
    rw [runCourse, Course.under_bind, Hook.perform_eq_under]
    congr 1
    funext answer w
    by_cases hdone : (TaskResult.status answer.1).isDone = true
    · simp only [hdone, if_true, Course.under_map, endVisit_eq_under]
    · simp only [hdone]
      rfl
  simp only [visit, visitCourse, Course.under_bind, hrun]
  cases resumed with
  | true => rfl
  | false => simp only [Bool.false_eq_true, if_false, beginVisit_eq_under]

theorem dispatch_eq_under (index : Nat) (resumed : Bool) (i : Instruction Nat K A)
    (state : AgentState) (w : World K A) :
    tick.dispatch handler index resumed i state w =
      (tick.dispatchCourse index resumed i state w).under handler := by
  obtain ⟨op, yes, no⟩ := i
  cases op with
  | task task =>
    rw [dispatch_task _ _ rfl, visit_eq_under]
    exact (Course.under_map _ _).symm
  | subTree link =>
    rw [dispatch_subTree _ _ rfl]
    change _ = (handler _ _).bind _
    cases handler (.run link.tree tick.agent) w with
    | cutOff w' => rfl
    | done result w' => cases result <;> rfl
  | randomBranch table =>
    cases table <;> simp only [dispatchCourse, Course.under_ofOutcome, dispatch]
  | query | repeatStart | repeatCounter | hangingSucceed | hangingFail =>
    simp only [dispatchCourse, Course.under_ofOutcome, dispatch]

theorem advance_eq_under (frame : Frame) (w : World K A) :
    tick.advance handler frame w = (tick.advanceCourse frame w).under handler := by
  rw [advance, advanceCourse]
  cases tick.tree.program.get? frame.cursor with
  | none => rfl
  | some i =>
    cases tick.exhausted frame with
    | some limit => rfl
    | none => simp only [Course.under_map, dispatch_eq_under]

theorem perform_eq_under (bound : Nat) (state : AgentState) (w : World K A) :
    tick.perform handler bound state w = (tick.performCourse bound state w).under handler := by
  have hwalk : ∀ frame w, (tick.walkCourse bound frame w).under handler =
      (tick.walk handler bound frame w).bind fun
        | .ended result state', w' => .done (result, state') w'
        | .underway _, w' => .cutOff w' := by
    induction bound with
    | zero => exact fun frame w => rfl
    | succ bound ih =>
      intro frame w
      rw [walkCourse, Course.under_bind, walk_succ, advance_eq_under]
      cases (tick.advanceCourse frame w).under handler with
      | cutOff w₁ => rfl
      | done p w₁ =>
        cases p with
        | underway frame₁ => exact ih frame₁ w₁
        | ended result s => rfl
  rw [perform, performCourse]
  split
  · rfl
  · rw [hwalk]
    cases tick.walk handler bound (.begin state) w with
    | cutOff w₁ => rfl
    | done p w₁ => cases p <;> rfl

end Tick

/-! ## Operations -/

namespace Forest

variable (F : Forest K A)

/-- The course of a run. -/
def runCourse (bound : Nat) (t : TreeId) (a : K) (w : World K A) :
    Course K A (Except RunError Status) :=
  if (w.tree t).running then .done (.error .reentrant) (w.log (.refused t a))
  else if (w.tree t).poisoned then
    .done (.error .poisoned) ((w.enter t a).leave t a (.error .poisoned))
  else
    ((F.tickOf t a).performCourse bound (w.state t a) ((w.enter t a).checkOut t a)).bind
      fun answer w₁ =>
    if (w₁.tree t).poisoned then .done (.error .poisoned) (w₁.leave t a (.error .poisoned))
    else .done answer.1 ((w₁.checkIn t a answer.2).leave t a answer.1)

/-- The course of what an abort does first. -/
def cancelCourse (t : TreeId) (a : K) (state : AgentState) (w : World K A) :
    Course K A Blackboard :=
  match (F.tree t).awaited state with
  | some (.task task) => (F.tickOf t a).endCourse state.cursor task .failure state.board w
  | some (.subTree link) => .call (.abort link.tree a) w fun _ w' => .done state.board w'
  | _ => .done state.board w

/-- The course of an abort. -/
def abortCourse (t : TreeId) (a : K) (w : World K A) : Course K A Unit :=
  if (w.tree t).poisoned then .done () (w.log (.abortSkipped t a))
  else
    match w.agent? t a with
    | none => .done () w
    | some state =>
        (F.cancelCourse t a state (w.checkOut t a)).bind fun board w₁ =>
        if (w₁.tree t).poisoned then .done () w₁
        else .done () (w₁.checkIn t a { state with board := board }.rewind)

/-- The course of a removal. -/
def removeCourse (t : TreeId) (a : K) (w : World K A) : Course K A Bool :=
  if (w.tree t).poisoned then .done false w
  else
    match w.agent? t a with
    | none => .done false w
    | some state =>
        match (F.tree t).awaited state with
        | some (.subTree link) =>
            .call (.remove link.tree a) (w.checkOut t a) fun _ w' => .done true w'
        | _ => .done true (w.checkOut t a)

/-- The course of an operation. -/
def course (bound : Nat) : (c : Call K) → World K A → Course K A c.Reply
  | .run t a, w => F.runCourse bound t a w
  | .abort t a, w => F.abortCourse t a w
  | .remove t a, w => F.removeCourse t a w
  | .update t a edit, w => .done (update t a edit w).1 (update t a edit w).2

theorem run_eq_under (bound : Nat) (t : TreeId) (a : K) (w : World K A) :
    F.run handler bound t a w = (F.runCourse bound t a w).under handler := by
  rw [run_eq, runCourse]
  split
  · rfl
  · split
    · rfl
    · rw [Course.under_bind, Tick.perform_eq_under]
      congr 1
      funext answer w₁
      split <;> rfl

theorem abort_eq_under (t : TreeId) (a : K) (w : World K A) :
    F.abort handler t a w = (F.abortCourse t a w).under handler := by
  have hcancel : ∀ s w, F.cancel handler t a s w = (F.cancelCourse t a s w).under handler := by
    intro s w
    rw [cancel, cancelCourse]
    cases (F.tree t).awaited s with
    | none => rfl
    | some op =>
      cases op with
      | task task => exact Tick.endVisit_eq_under _ s.cursor task .failure s.board w
      | _ => rfl
  rw [abort, abortCourse]
  split
  · rfl
  · cases w.agent? t a with
    | none => rfl
    | some s =>
      simp only [Course.under_bind, hcancel]
      congr 1
      funext board w₁
      split <;> rfl

theorem remove_eq_under (t : TreeId) (a : K) (w : World K A) :
    F.remove handler t a w = (F.removeCourse t a w).under handler := by
  rw [remove, removeCourse]
  split
  · rfl
  · cases w.agent? t a with
    | none => rfl
    | some s =>
      simp only
      cases (F.tree t).awaited s with
      | none => rfl
      | some op => cases op <;> rfl

/-- An operation is what becomes of its course. -/
theorem answer_eq_under (bound : Nat) (c : Call K) (w : World K A) :
    F.answer handler bound c w = (F.course bound c w).under handler := by
  cases c with
  | run t a => exact F.run_eq_under bound t a w
  | abort t a => exact F.abort_eq_under t a w
  | remove t a => exact F.remove_eq_under t a w
  | update t a edit => rfl

end Forest

end TickTree
