import TickTree.Blackboard
import TickTree.Failure

/-!
# Registries of shared boards

A registry maps names to boards. Once an edit has died on one of its boards the
registry is poisoned: from then on reading, registering, removing and editing
answer `RunError.poisoned`, and no board is found. Editing a board that is not
registered runs no edit, so it poisons nothing.
-/

namespace TickTree

/-- Named boards that trees and callers share. -/
structure Registry where
  /-- The boards by name. -/
  boards : Table String Blackboard := ∅
  /-- An edit has died on one of the boards. -/
  poisoned : Bool := false
deriving DecidableEq, Inhabited

namespace Registry

/-- Puts a board under a name; answers the board it replaces. -/
def register (r : Registry) (name : String) (board : Blackboard) :
    Except RunError (Option Blackboard) × Registry :=
  if r.poisoned then (.error .poisoned, r)
  else (.ok (r.boards.get? name), { r with boards := r.boards.set name board })

/-- Takes the board of a name out; answers it. -/
def unregister (r : Registry) (name : String) : Except RunError (Option Blackboard) × Registry :=
  if r.poisoned then (.error .poisoned, r)
  else (.ok (r.boards.get? name), { r with boards := r.boards.erase name })

/-- Whether a name has a board. -/
def contains (r : Registry) (name : String) : Bool :=
  !r.poisoned && r.boards.contains name

/-- The board of a name, `none` if it is not registered. -/
def read (r : Registry) (name : String) : Except RunError (Option Blackboard) :=
  if r.poisoned then .error .poisoned else .ok (r.boards.get? name)

/-- Lends the board of a name to an edit; `none` if it is not registered. -/
def update (r : Registry) (name : String) (edit : Edit) :
    Except RunError (Option EditResult) × Registry :=
  if r.poisoned then (.error .poisoned, r)
  else
    match r.boards.get? name with
    | none => (.ok none, r)
    | some board =>
        match edit board with
        | none => (.ok (some .died), { r with poisoned := true })
        | some board' =>
            (.ok (some (.edited board)), { r with boards := r.boards.set name board' })

/-! ## Commands -/

/-- What a holder of a registry can ask of it. -/
inductive Command where
  /-- Put a board under a name. -/
  | register (name : String) (board : Blackboard)
  /-- Take the board of a name out. -/
  | unregister (name : String)
  /-- Ask whether a name has a board. -/
  | contains (name : String)
  /-- Read the board of a name. -/
  | read (name : String)
  /-- Lend the board of a name to an edit. -/
  | update (name : String) (edit : Edit)

/-- What a command is answered with. -/
abbrev Command.Reply : Command → Type
  | .register .. => Except RunError (Option Blackboard)
  | .unregister .. => Except RunError (Option Blackboard)
  | .contains .. => Bool
  | .read .. => Except RunError (Option Blackboard)
  | .update .. => Except RunError (Option EditResult)

/-- Answers a command. -/
def answer (r : Registry) : (c : Command) → c.Reply × Registry
  | .register name board => r.register name board
  | .unregister name => r.unregister name
  | .contains name => (r.contains name, r)
  | .read name => (r.read name, r)
  | .update name edit => r.update name edit

end Registry

end TickTree
