import TickTree.Failure

/-!
# The journal

What happens while trees tick, one event after the other: ticks entered and
left, instructions dispatched, hooks called, random draws, and everything a
watcher should hear about. Events name the tree and the agent they concern, so
the history of one agent in one tree is a filter of the journal.
-/

namespace TickTree

/-- The place of a tree in a forest. -/
abbrev TreeId := Nat

/-- How much a note matters. -/
inductive Level where
  /-- For the record. -/
  | info
  /-- Something was put right. -/
  | warn
  /-- Something could not be put right. -/
  | error
deriving DecidableEq, Repr, Inhabited

/-- A note for whoever watches. -/
structure Note where
  /-- How much it matters. -/
  level : Level
  /-- The part of the program it comes from. -/
  source : String
  /-- What happened. -/
  message : String
  /-- The values it happened with, already as text. -/
  fields : List (String × String) := []
deriving DecidableEq, Inhabited

/-- One thing that happened. -/
inductive Event (K : Type) where
  /-- A tick began. -/
  | entered (tree : TreeId) (agent : K)
  /-- A tick was refused, since the tree was ticking already. -/
  | refused (tree : TreeId) (agent : K)
  /-- A tick ended. -/
  | left (tree : TreeId) (agent : K) (result : Except RunError Status)
  /-- An instruction was dispatched. -/
  | dispatched (tree : TreeId) (agent : K) (index : Nat)
  /-- A task's start hook was called. -/
  | started (tree : TreeId) (agent : K) (index : Nat) (task : String)
  /-- A task's run hook was called and answered. -/
  | ran (tree : TreeId) (agent : K) (index : Nat) (task : String) (result : TaskResult)
  /-- A task's finish hook was called. -/
  | finished (tree : TreeId) (agent : K) (index : Nat) (task : String) (status : Status)
  /-- A random branch chose where to go on. -/
  | drew (tree : TreeId) (agent : K) (index target : Nat)
  /-- A hook looked at a tree, and this is whether the tree was ticking. -/
  | looked (tree : TreeId) (agent : K) (running : Bool)
  /-- A tick was cut short by the step limit of its tree. -/
  | limitReached (tree : TreeId) (agent : K) (cursor limit : Nat)
  /-- A query read a shared board that is not registered. -/
  | boardMissing (tree : TreeId) (agent : K) (board key : String)
  /-- A query could not read its registry. -/
  | boardUnavailable (tree : TreeId) (agent : K) (index : Nat) (error : RunError)
  /-- The tick of a linked tree failed. -/
  | linkFailed (tree : TreeId) (agent : K) (index : Nat) (error : RunError)
  /-- An abort found its tree poisoned. -/
  | abortSkipped (tree : TreeId) (agent : K)
  /-- Somebody left a note. -/
  | noted (note : Note)
deriving DecidableEq

end TickTree
