import TickTree.Operation
import TickTree.Script.Reply

/-!
# Commands

The words of a script: what can be done to a board, to a registry and to a tree.
Each is a hook, so a script acts on the world exactly as a task does.

Several commands can be done to a board while it is lent. They are an edit that
hands the board back, and their replies follow from the board as it was lent
(`BoardCommand.replies`).
-/

namespace TickTree.Script

/-! ## Boards -/

/-- What can be done to a board. -/
inductive BoardCommand where
  /-- Give a key a value. -/
  | set (key : String) (value : Value)
  /-- Read an entry. -/
  | get (key : String)
  /-- Take an entry out. -/
  | remove (key : String)
  /-- Ask for an entry. -/
  | contains (key : String)
  /-- Count the entries. -/
  | length
  /-- Ask whether there are none. -/
  | isEmpty
  /-- List the entries. -/
  | list
  /-- Take all entries out. -/
  | clear
  /-- Compare with another board. -/
  | agrees (other : Blackboard)
  /-- Compare with itself. -/
  | agreesWithItself
  /-- Save the board. -/
  | save

namespace BoardCommand

/-- The reply to a command, and the board afterwards. -/
def apply (b : Blackboard) : BoardCommand → Reply × Blackboard
  | set key value => (.entry (b.get? key), b.set key value)
  | get key => (.entry (b.get? key), b)
  | remove key => (.entry (b.get? key), b.erase key)
  | contains key => (.flag (b.contains key), b)
  | length => (.count b.size, b)
  | isEmpty => (.flag (b.size = 0), b)
  | list => (.entries b.sorted, b)
  | clear => (.nothing, ∅)
  | agrees other => (.flag (b.agrees other), b)
  | agreesWithItself => (.flag (b.agrees b), b)
  | save => (.saved b.toJson, b)

/-- The replies to commands in a row. -/
def replies (b : Blackboard) : List BoardCommand → List Reply
  | [] => []
  | c :: rest => (c.apply b).1 :: replies (c.apply b).2 rest

/-- The board after commands in a row. -/
def result (b : Blackboard) (commands : List BoardCommand) : Blackboard :=
  commands.foldl (fun b c => (c.apply b).2) b

/-- The replies to commands in a row, each with the board after it. -/
def trace (b : Blackboard) : List BoardCommand → List (Reply × Blackboard)
  | [] => []
  | c :: rest => c.apply b :: trace (c.apply b).2 rest

/-- Commands in a row as an edit, which always hands the board back. -/
def edit (commands : List BoardCommand) : Edit := fun b => some (result b commands)

/-- The reply to commands in a row from what lending the board came to. -/
def editReply (commands : List BoardCommand) : EditResult → Reply
  | .edited before => .replies (replies before commands)
  | .died => .died

end BoardCommand

/-- The edit that dies. -/
def lethal : Edit := fun _ => none

/-! ## Registries -/

/-- What can be done to a registry. -/
inductive RegistryCommand where
  /-- Put a board under a name. -/
  | register (name : String) (board : Blackboard)
  /-- Take the board of a name out. -/
  | unregister (name : String)
  /-- Ask for the board of a name. -/
  | contains (name : String)
  /-- Read the board of a name. -/
  | read (name : String)
  /-- Do commands to the board of a name. -/
  | update (name : String) (commands : List BoardCommand)
  /-- Lend the board of a name to an edit that dies. -/
  | poison (name : String)

/-- The reply to what lending a shared board came to. -/
def sharedReply (commands : List BoardCommand) : Option EditResult → Reply
  | none => .nothing
  | some result => BoardCommand.editReply commands result

/-- A command to a registry as a hook. -/
def RegistryCommand.hook {K A : Type} (id : RegistryId) : RegistryCommand → Hook K A Reply
  | .register name board => do
      return .ofExcept .board (← Hook.registry id (.register name board))
  | .unregister name => do return .ofExcept .board (← Hook.registry id (.unregister name))
  | .contains name => do return .flag (← Hook.registry id (.contains name))
  | .read name => do return .ofExcept .board (← Hook.registry id (.read name))
  | .update name commands => do
      return .ofExcept (sharedReply commands)
        (← Hook.registry id (.update name (BoardCommand.edit commands)))
  | .poison name => do
      return .ofExcept (sharedReply []) (← Hook.registry id (.update name lethal))

/-! ## Trees -/

/-- What can be done to an agent of a tree. -/
inductive TreeCommand where
  /-- Tick the agent. -/
  | run
  /-- Cancel what it is suspended on. -/
  | abort
  /-- Discard its state. -/
  | remove
  /-- Do commands to its board. -/
  | update (commands : List BoardCommand)
  /-- Lend its board to an edit that dies. -/
  | poison
  /-- Look at it. -/
  | view
  /-- Describe its tree. -/
  | describe

/-- A tree that commands can name. -/
structure Place where
  /-- Where it stands in the forest. -/
  tree : TreeId
  /-- Describes it, given whether it is ticking. -/
  describe : Bool → Description

/-- A command to an agent of a tree as a hook. -/
def TreeCommand.hook {K A : Type} (place : Place) (agent : K) : TreeCommand → Hook K A Reply
  | .run => do return .ofExcept .status (← Hook.call (.run place.tree agent))
  | .abort => do
      Hook.call (.abort place.tree agent)
      return .nothing
  | .remove => do return .flag (← Hook.call (.remove place.tree agent))
  | .update commands => do
      return .ofExcept (BoardCommand.editReply commands)
        (← Hook.call (.update place.tree agent (BoardCommand.edit commands)))
  | .poison => do
      return .ofExcept (BoardCommand.editReply [])
        (← Hook.call (.update place.tree agent lethal))
  | .view => do return .view (← Hook.inspect place.tree agent)
  | .describe => do return .tree (place.describe (← Hook.inspect place.tree agent).running)

/-! ## From outside -/

/-- Does a hook from outside any task: there is no board to lend. `none` if it
does not end within the bound. -/
def outside {K A α : Type} [DecidableEq K] (F : Forest K A) (hook : Hook K A α) (w : World K A) :
    Option (α × World K A) :=
  match hook.perform F.operate ∅ w with
  | .done answer w' => some (answer.1, w')
  | .cutOff _ => none

end TickTree.Script
