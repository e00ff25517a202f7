import TickTree.Journal
import TickTree.Registry

/-!
# Hooks

A task acts through hooks. A hook is a program that asks for one thing at a time
(`Request`) and goes on with the reply, until it is done. It can read and
replace the board of the agent it acts for, read and replace the ambient value
that is handed to every tick, use registries, operate on trees, look at agents
and leave notes.

A hook that operates on trees may do so on any tree and agent, its own included.
What that comes to is decided by whoever performs the hook; here a `Call` only
says what is asked.
-/

namespace TickTree

/-- The name of a registry that trees and callers share. -/
abbrev RegistryId := Nat

/-! ## Calls -/

/-- An operation on one agent of one tree. -/
inductive Call (K : Type) where
  /-- Tick the agent once. -/
  | run (tree : TreeId) (agent : K)
  /-- Cancel whatever the agent is suspended on. -/
  | abort (tree : TreeId) (agent : K)
  /-- Discard the agent's state. -/
  | remove (tree : TreeId) (agent : K)
  /-- Lend the agent's board to an edit. -/
  | update (tree : TreeId) (agent : K) (edit : Edit)

/-- The tree a call is for. -/
def Call.tree {K : Type} : Call K → TreeId
  | .run t _ | .abort t _ | .remove t _ | .update t .. => t

/-- The agent a call is for. -/
def Call.agent {K : Type} : Call K → K
  | .run _ a | .abort _ a | .remove _ a | .update _ a _ => a

/-- What a call is answered with. -/
abbrev Call.Reply {K : Type} : Call K → Type
  | .run .. => Except RunError Status
  | .abort .. => Unit
  | .remove .. => Bool
  | .update .. => Except RunError EditResult

/-- What shows of an agent of a tree, and of the tree itself. -/
structure View where
  /-- The instruction the agent stands at, if it has state in the tree. -/
  cursor : Option Nat
  /-- Whether the agent is suspended. -/
  suspended : Bool
  /-- The agent's board, if it has state in the tree. -/
  board : Option Blackboard
  /-- How many agents have state in the tree. -/
  agents : Nat
  /-- Whether the tree is ticking. -/
  running : Bool
deriving DecidableEq, Inhabited

/-! ## Requests -/

/-- One thing a hook can ask for. -/
inductive Request (K A : Type) where
  /-- Read the board of the agent the hook acts for. -/
  | board
  /-- Replace that board. -/
  | setBoard (board : Blackboard)
  /-- Read the ambient value. -/
  | ambient
  /-- Replace the ambient value. -/
  | setAmbient (value : A)
  /-- Ask something of a registry. -/
  | registry (id : RegistryId) (command : Registry.Command)
  /-- Operate on a tree. -/
  | call (c : Call K)
  /-- Look at an agent of a tree. -/
  | inspect (tree : TreeId) (agent : K)
  /-- Leave a note. -/
  | note (n : Note)

/-- What a request is answered with. -/
abbrev Request.Reply {K A : Type} : Request K A → Type
  | .board => Blackboard
  | .setBoard _ => Unit
  | .ambient => A
  | .setAmbient _ => Unit
  | .registry _ command => command.Reply
  | .call c => c.Reply
  | .inspect .. => View
  | .note _ => Unit

/-! ## Programs -/

/-- A program of requests that ends with an answer. -/
inductive Hook (K A α : Type) where
  /-- The answer. -/
  | done (answer : α)
  /-- A request, and how to go on with its reply. -/
  | ask (request : Request K A) (next : request.Reply → Hook K A α)

namespace Hook

variable {K A α β : Type}

/-- One program after the other. -/
def bind : Hook K A α → (α → Hook K A β) → Hook K A β
  | done a, f => f a
  | ask request next, f => ask request fun reply => (next reply).bind f

instance : Monad (Hook K A) where
  pure := done
  bind := bind

/-- A single request. -/
def request (r : Request K A) : Hook K A r.Reply := ask r done

/-- The board of the agent the hook acts for. -/
def board : Hook K A Blackboard := request .board

/-- Replaces the board. -/
def setBoard (b : Blackboard) : Hook K A Unit := request (.setBoard b)

/-- The ambient value. -/
def ambient : Hook K A A := request .ambient

/-- Replaces the ambient value. -/
def setAmbient (a : A) : Hook K A Unit := request (.setAmbient a)

/-- Changes the ambient value. -/
def modifyAmbient (f : A → A) : Hook K A Unit := do setAmbient (f (← ambient))

/-- Asks something of a registry. -/
def registry (id : RegistryId) (command : Registry.Command) : Hook K A command.Reply :=
  request (.registry id command)

/-- Operates on a tree. -/
def call (c : Call K) : Hook K A c.Reply := request (.call c)

/-- Looks at an agent of a tree. -/
def inspect (tree : TreeId) (agent : K) : Hook K A View := request (.inspect tree agent)

/-- Leaves a note. -/
def note (n : Note) : Hook K A Unit := request (.note n)

end Hook

end TickTree
