import TickTree.Script.Command

/-!
# Scripted tasks

A task given as data: commands for its start and finish, and a list of turns for
its run. Each call of run takes the next turn of the list and stays at the last
one. What a scripted task does is logged on the `Bench`, the ambient value of
scripted trees.

A script may operate on trees, its own included, and so call itself again. A
depth on the bench stops that: six commands may be in progress one inside the
other, and a seventh is not done.
-/

namespace TickTree.Script

/-! ## The bench -/

/-- Which task of which definition a script belongs to: the place of the
definition among those built, and the path to the task. -/
abbrev Serial := Nat × List Nat

/-- A line of the log. -/
inductive Line where
  /-- A start hook was called. -/
  | started (task agent : String)
  /-- A run hook was called. -/
  | ran (task agent : String)
  /-- A finish hook was called. -/
  | finished (task agent : String) (status : Status)
  /-- A command was done. -/
  | command (name : String) (reply : Reply)

/-- What scripted tasks share. -/
structure Bench where
  /-- The trees that commands can name, newest first. -/
  places : List (String × Place) := []
  /-- What was done, newest first. -/
  log : List Line := []
  /-- The running total. -/
  total : Int64 := 0
  /-- How often each task's run was called. -/
  calls : Table Serial Nat := ∅
  /-- How many commands to trees are in progress. -/
  depth : Nat := 0

namespace Bench

/-- How many commands to trees may be in progress. -/
def deepest : Nat := 6

/-- The tree of a name. -/
def place? (bench : Bench) (name : String) : Option Place := bench.places.lookup name

/-- Writes a line. -/
def write (line : Line) (bench : Bench) : Bench := { bench with log := line :: bench.log }

/-- How often a task's run was called. -/
def callsOf (bench : Bench) (serial : Serial) : Nat := (bench.calls.get? serial).getD 0

/-- Counts a call of a task's run. -/
def countCall (serial : Serial) (bench : Bench) : Bench :=
  { bench with calls := bench.calls.set serial (bench.callsOf serial + 1) }

/-- One more command in progress. -/
def deepen (bench : Bench) : Bench := { bench with depth := bench.depth + 1 }

/-- One command less in progress. -/
def lift (bench : Bench) : Bench := { bench with depth := bench.depth - 1 }

end Bench

/-- A hook of a scripted task. -/
abbrev BenchHook := Hook String Bench

/-! ## Commands of tasks -/

/-- The registry that scripts use. -/
def commonRegistry : RegistryId := 0

/-- A command of a scripted task. -/
inductive Command where
  /-- Do something to the board of the agent the task acts for. -/
  | board (name : String) (c : BoardCommand)
  /-- Count an entry of that board up. -/
  | increment (key : String)
  /-- Add to the running total. -/
  | add (n : Int64)
  /-- Do something to the registry. -/
  | registry (c : RegistryCommand)
  /-- Do something to an agent of a named tree; without a name, the agent the
  task acts for. -/
  | tree (name : String) (c : TreeCommand) (tree : String) (agent : Option String)

namespace Command

/-- The name a command is logged under. -/
def name : Command → String
  | board name _ => name
  | increment _ => "inc"
  | add _ => "add"
  | registry _ => "registry"
  | tree name .. => name

/-- The integer after the one an entry holds, or one. -/
def successor : Option Value → Int64
  | some (.int n) => n + 1
  | _ => 1

/-- A command of a task that acts for an agent. -/
def act (self : String) : Command → BenchHook Reply
  | board _ c => do
      let (reply, after) := c.apply (← Hook.board)
      Hook.setBoard after
      return reply
  | increment key => do
      let b ← Hook.board
      let n := successor (b.get? key)
      Hook.setBoard (b.set key (.int n))
      return .number n
  | add n => do
      let total := (← Hook.ambient).total + n
      Hook.modifyAmbient fun bench => { bench with total := total }
      return .number total
  | registry c => c.hook commonRegistry
  | tree _ c treeName agent => do
      let bench ← Hook.ambient
      match bench.place? treeName with
      | none => return .noTree
      | some place =>
          if Bench.deepest ≤ bench.depth then return .tooDeep
          else
            Hook.modifyAmbient Bench.deepen
            let reply ← c.hook place (agent.getD self)
            Hook.modifyAmbient Bench.lift
            return reply

/-- Does a command and logs it. -/
def hook (self : String) (c : Command) : BenchHook Unit := do
  let reply ← c.act self
  Hook.modifyAmbient (Bench.write (.command c.name reply))

/-- Does commands in a row. -/
def hooks (self : String) : List Command → BenchHook Unit
  | [] => pure ()
  | c :: rest => do
      c.hook self
      hooks self rest

end Command

/-! ## Turns -/

/-- How a turn of a scripted task ends. -/
inductive Ending where
  /-- With a status. -/
  | status (s : Status)
  /-- Without a status, for a reason of its own. -/
  | message (text : String)
  /-- Without a status, for another reason. -/
  | other (text : String)
  /-- One way if the agent's board has an entry, another way if not. -/
  | ifSet (key : String) (present absent : Ending)
  /-- Open until it has been reached so many times, counted on the agent's board. -/
  | phases (key : String) (count : Int) (last : Ending)

/-- The answer of an ending. -/
def Ending.hook : Ending → BenchHook TaskResult
  | .status s => pure (.ok s)
  | .message text => pure (.error (.message text))
  | .other text => pure (.error (.other (.plain text)))
  | .ifSet key present absent => do
      if (← Hook.board).contains key then present.hook else absent.hook
  | .phases key count last => do
      let b ← Hook.board
      let n := Command.successor (b.get? key)
      if count ≤ n.toInt then
        Hook.setBoard (b.erase key)
        last.hook
      else
        Hook.setBoard (b.set key (.int n))
        return .ok .running

/-- One call of a scripted run: commands, then an ending. -/
structure Turn where
  /-- What is done. -/
  commands : List Command := []
  /-- What is answered. -/
  ending : Ending

/-- The turn of a list that a call takes: the last one again and again. -/
def turnAt (turns : List Turn) (calls : Nat) : Turn :=
  (turns[calls]?.or turns.getLast?).getD ⟨[], .status .success⟩

/-- How a scripted task comes by its hooks. -/
inductive Wrapping where
  /-- A hook for each script there is. -/
  | bare
  /-- All three hooks, whatever scripts there are. -/
  | full
  /-- All three hooks, of which start and finish do nothing and log nothing. -/
  | runOnly
deriving DecidableEq

/-- A task given as data. -/
structure ScriptedTask where
  /-- The task's name. -/
  name : String
  /-- The turns of its run. -/
  run : Option (List Turn) := none
  /-- What its start does. -/
  start : Option (List Command) := none
  /-- What its finish does. -/
  finish : Option (List Command) := none
  /-- How it comes by its hooks. -/
  wrapping : Wrapping := .bare

namespace ScriptedTask

/-- The start hook of a script. -/
def startHook (name : String) (commands : List Command) (agent : String) : BenchHook Unit := do
  Hook.modifyAmbient (Bench.write (.started name agent))
  Command.hooks agent commands

/-- The run hook of a script. -/
def runHook (name : String) (serial : Serial) (turns : List Turn) (agent : String) :
    BenchHook TaskResult := do
  Hook.modifyAmbient (Bench.write (.ran name agent))
  let turn := turnAt turns ((← Hook.ambient).callsOf serial)
  Hook.modifyAmbient (Bench.countCall serial)
  Command.hooks agent turn.commands
  turn.ending.hook

/-- The finish hook of a script. -/
def finishHook (name : String) (commands : List Command) (agent : String) (status : Status) :
    BenchHook Unit := do
  Hook.modifyAmbient (Bench.write (.finished name agent status))
  Command.hooks agent commands

/-- The task of a script. -/
def task (t : ScriptedTask) (serial : Serial) : Task String Bench :=
  match t.wrapping with
  | .bare => ⟨t.name, t.start.map (startHook t.name), t.run.map (runHook t.name serial),
      t.finish.map (finishHook t.name)⟩
  | .full => ⟨t.name, some (startHook t.name (t.start.getD [])),
      some (runHook t.name serial (t.run.getD [])), some (finishHook t.name (t.finish.getD []))⟩
  | .runOnly => ⟨t.name, some fun _ => pure (), some (runHook t.name serial (t.run.getD [])),
      some fun _ _ => pure ()⟩

end ScriptedTask

end TickTree.Script
