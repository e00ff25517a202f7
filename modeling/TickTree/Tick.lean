import TickTree.Perform
import TickTree.Random.Choice

/-!
# Ticks

A tick walks the program of a tree for one agent, from the agent's cursor until
it reaches one of the two ends, a task or linked tree suspends it, or an error
stops it. `Tick.dispatch` does what one instruction says. `Tick.advance` is one
step of the walk: it charges the instruction against the tree's step limit and
follows the exit taken. `Tick.walk` repeats it, a bounded number of times.

While the walk lasts, the agent's state is in the walk's own hands (`Frame`).
What it operates on elsewhere (linked trees, whatever hooks ask for) goes
through a `Handler`.
-/

namespace TickTree

/-- Whose tick it is, and in which tree. -/
structure Tick (K A : Type) where
  /-- The tree. -/
  tree : Tree K A
  /-- Its place in the forest. -/
  id : TreeId
  /-- The agent. -/
  agent : K

/-- Where a walk stands. -/
structure Frame where
  /-- The next instruction. -/
  cursor : Nat
  /-- Whether the next instruction goes on with what it was suspended on. -/
  resumed : Bool
  /-- How many instructions this tick has dispatched. -/
  spent : Nat
  /-- The agent's state. -/
  state : AgentState
deriving DecidableEq

/-- Where a tick begins. -/
def Frame.begin (state : AgentState) : Frame :=
  { cursor := state.cursor, resumed := state.paused, spent := 0,
    state := { state with paused := false } }

/-- How a walk goes on after an instruction. -/
inductive Move where
  /-- At another instruction, or at an end. -/
  | goto (index : Nat)
  /-- Not before the next tick. -/
  | suspend
  /-- Not at all. -/
  | stop (error : RunError)
deriving DecidableEq

/-- How a walk goes on after an instruction that answers with a status. -/
def Move.ofStatus {K A : Type} (i : Instruction Nat K A) (status : Status) : Move :=
  if status.isDone then .goto (i.exit status) else .suspend

/-- What a step of a walk comes to. -/
inductive Progress where
  /-- The walk goes on. -/
  | underway (frame : Frame)
  /-- The tick has its result, and this is the agent's state to keep. -/
  | ended (result : Except RunError Status) (state : AgentState)
deriving DecidableEq

namespace Tick

variable {K A : Type} [DecidableEq K]

/-! ## Tasks -/

/-- Calls the start hook of a task, if it has one. -/
def beginVisit (tick : Tick K A) (handler : Handler K A) (index : Nat) (task : RunnableTask K A)
    (board : Blackboard) (w : World K A) : Outcome (World K A) Blackboard :=
  match task.start with
  | none => .done board w
  | some hook =>
      ((hook tick.agent).perform handler board
        (w.log (.started tick.id tick.agent index task.name))).map (·.2)

/-- Calls the finish hook of a task, if it has one. -/
def endVisit (tick : Tick K A) (handler : Handler K A) (index : Nat) (task : RunnableTask K A)
    (status : Status) (board : Blackboard) (w : World K A) : Outcome (World K A) Blackboard :=
  match task.finish with
  | none => .done board w
  | some hook =>
      ((hook tick.agent status).perform handler board
        (w.log (.finished tick.id tick.agent index task.name status))).map (·.2)

/-- Runs a task once: it starts unless it was suspended, and finishes when its
run concludes. -/
def visit (tick : Tick K A) (handler : Handler K A) (index : Nat) (task : RunnableTask K A)
    (resumed : Bool) (board : Blackboard) (w : World K A) :
    Outcome (World K A) (Status × Blackboard) :=
  (if resumed then .done board w else tick.beginVisit handler index task board w).bind
    fun board w =>
  ((task.run tick.agent).perform handler board w).bind fun answer w =>
  let status := TaskResult.status answer.1
  let w := w.log (.ran tick.id tick.agent index task.name answer.1)
  if status.isDone then
    (tick.endVisit handler index task status answer.2 w).map fun board => (status, board)
  else .done (status, answer.2) w

/-! ## Instructions -/

/-- Does what one instruction says. -/
def dispatch (tick : Tick K A) (handler : Handler K A) (index : Nat) (resumed : Bool)
    (i : Instruction Nat K A) (state : AgentState) (w : World K A) :
    Outcome (World K A) (Move × AgentState) :=
  match i.op with
  | .task task =>
      (tick.visit handler index task resumed state.board w).map fun answer =>
        (.ofStatus i answer.1, { state with board := answer.2 })
  | .query q =>
      match q.find state.board (tick.tree.registry.map w.registry) with
      | .ok (some true) => .done (.goto i.onSuccess, state) w
      | .ok (some false) => .done (.goto i.onFail, state) w
      | .ok none =>
          .done (.goto i.onFail, state)
            (w.log (.boardMissing tick.id tick.agent q.board.name q.key))
      | .error e =>
          .done (.stop e, state) (w.log (.boardUnavailable tick.id tick.agent index e))
  | .subTree link =>
      (handler (.run link.tree tick.agent) w).bind fun
      | .ok status, w => .done (.ofStatus i status, state) w
      | .error e, w =>
          .done (.stop (.subTree index e), state) (w.log (.linkFailed tick.id tick.agent index e))
  | .randomBranch [] =>
      .done (.stop (.corruptProgram index "random branch has an empty jump table"), state) w
  | .randomBranch (first :: rest) =>
      let (place, drawn) := Random.draw tick.tree.words (rest.length + 1) (w.tree tick.id).drawn
      let target := (first :: rest)[place]?.getD first
      .done (.goto target, state)
        ((w.modifyTree tick.id fun s => { s with drawn := drawn }).log
          (.drew tick.id tick.agent index target))
  | .repeatStart counter => .done (.goto i.onSuccess, state.setRounds counter 0) w
  | .repeatCounter goal body =>
      let rounds := state.rounds index + 1
      .done (.goto (if rounds > goal then i.onSuccess else body), state.setRounds index rounds) w
  | .hangingSucceed => .done (.goto i.onSuccess, state) w
  | .hangingFail => .done (.goto i.onFail, state) w

/-- Where a walk stands after an instruction it spent. -/
def follow (frame : Frame) : Move × AgentState → Progress
  | (.goto index, state) => .underway ⟨index, false, frame.spent + 1, state⟩
  | (.suspend, state) => .ended (.ok .running) (state.suspendAt frame.cursor)
  | (.stop e, state) => .ended (.error e) state.rewind

/-- The result of a walk that has reached an index that is no instruction. -/
def resultAt (tick : Tick K A) (index : Nat) : Except RunError Status :=
  match tick.tree.program.terminalStatus index with
  | some status => .ok status
  | none => .error (.invalidCursor index tick.tree.program.length)

/-- The limit a walk has used up, if its tree has one and it has. -/
def exhausted (tick : Tick K A) (frame : Frame) : Option Nat :=
  tick.tree.config.effectiveLimit.filter (· ≤ frame.spent)

omit [DecidableEq K] in
/-- A limit is positive, so what has spent nothing has not used it up. -/
theorem exhausted_unspent (tick : Tick K A) {frame : Frame} (h : frame.spent = 0) :
    tick.exhausted frame = none := by
  rw [exhausted, Config.effectiveLimit, Option.filter_filter, h]
  refine Option.filter_eq_none_iff.2 fun limit _ hlimit => ?_
  simp only [Bool.and_eq_true, decide_eq_true_eq] at hlimit
  omega

/-- One step of a walk. -/
def advance (tick : Tick K A) (handler : Handler K A) (frame : Frame) (w : World K A) :
    Outcome (World K A) Progress :=
  match tick.tree.program.get? frame.cursor with
  | none => .done (.ended (tick.resultAt frame.cursor) frame.state.rewind) w
  | some i =>
      match tick.exhausted frame with
      | some limit =>
          .done (.ended (.error (.stepLimit limit)) frame.state.rewind)
            (w.log (.limitReached tick.id tick.agent frame.cursor limit))
      | none =>
          (tick.dispatch handler frame.cursor frame.resumed i frame.state
            (w.log (.dispatched tick.id tick.agent frame.cursor))).map (follow frame)

/-! ## Walks -/

/-- At most so many steps of a walk. -/
def walk (tick : Tick K A) (handler : Handler K A) :
    Nat → Frame → World K A → Outcome (World K A) Progress
  | 0, frame, w => .done (.underway frame) w
  | steps + 1, frame, w =>
      match tick.advance handler frame w with
      | .done (.underway frame') w' => tick.walk handler steps frame' w'
      | .done (.ended result state) w' => .done (.ended result state) w'
      | .cutOff w' => .cutOff w'

/-- A whole tick from the agent's state, of at most so many steps: its result and
the state to keep. A cursor that is no instruction is an error before anything
is dispatched. -/
def perform (tick : Tick K A) (handler : Handler K A) (bound : Nat) (state : AgentState)
    (w : World K A) : Outcome (World K A) (Except RunError Status × AgentState) :=
  if tick.tree.program.length ≤ state.cursor then
    .done (.error (.invalidCursor state.cursor tick.tree.program.length), state.rewind) w
  else
    match tick.walk handler bound (.begin state) w with
    | .done (.ended result state') w' => .done (result, state') w'
    | .done (.underway _) w' => .cutOff w'
    | .cutOff w' => .cutOff w'

end Tick

end TickTree
