import TickTree.Hook
import TickTree.Snapshot
import TickTree.World

/-!
# Replies

What the commands of a script are answered with, of whatever kind.
-/

namespace TickTree.Script

/-- Everything there is to say about a tree. -/
structure Description where
  /-- The tree as a record. -/
  tree : String
  /-- Its settings. -/
  config : Config
  /-- Whether its queries read shared boards. -/
  sharesBoards : Bool
  /-- Its program, line by line. -/
  listing : String

/-- Describes a tree, given whether it is ticking. -/
def Description.of {K A : Type} (T : Tree K A) (running : Bool) : Description :=
  ⟨T.text running, T.config, T.registry.isSome, T.program.listing⟩

/-- What a command is answered with. -/
inductive Reply where
  /-- Nothing. -/
  | nothing
  /-- Whether something holds. -/
  | flag (b : Bool)
  /-- How many there are. -/
  | count (n : Nat)
  /-- A number. -/
  | number (n : Int64)
  /-- An entry of a board, if there is one. -/
  | entry (value : Option Value)
  /-- A board, if there is one. -/
  | board (board : Option Blackboard)
  /-- Entries in a row. -/
  | entries (entries : List (String × Value))
  /-- The saved form of a board. -/
  | saved (form : Json)
  /-- The replies to commands in a row. -/
  | replies (replies : List Reply)
  /-- A status. -/
  | status (s : Status)
  /-- Why there is no other reply. -/
  | failed (e : RunError)
  /-- What shows of an agent and its tree. -/
  | view (v : View)
  /-- A description of a tree. -/
  | tree (d : Description)
  /-- An edit died. -/
  | died
  /-- There is no tree of that name. -/
  | noTree
  /-- Commands nest too deep. -/
  | tooDeep
  /-- There was no end within the bound. -/
  | unended
deriving Inhabited

/-- The reply of a computation that can fail. -/
def Reply.ofExcept {α : Type} (f : α → Reply) : Except RunError α → Reply
  | .ok a => f a
  | .error e => .failed e

end TickTree.Script
