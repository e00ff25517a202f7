import TickTree.Status
import TickTree.Text.Quoted
import TickTree.Text.Record

/-!
# Failures of ticks and tasks

`RunError` is why a tick has no status. It says what went wrong and where, and a
failure inside a linked tree keeps the failure it came from, so an error is a
finite chain (`RunError.chain`). `TaskError` is why a task reports no status; a
tick answers it with `Status.failure`.
-/

namespace TickTree

/-- Why a tick ended without a status. -/
inductive RunError where
  /-- The tree is already ticking. -/
  | reentrant
  /-- The state needed was damaged by an edit that died. -/
  | poisoned
  /-- The tick dispatched as many instructions as it may. -/
  | stepLimit (limit : Nat)
  /-- The cursor is no instruction of the program. -/
  | invalidCursor (cursor length : Nat)
  /-- An instruction that no definition compiles to. -/
  | corruptProgram (index : Nat) (reason : String)
  /-- The tick of a linked tree failed. -/
  | subTree (index : Nat) (source : RunError)
deriving DecidableEq, Inhabited

namespace RunError

/-- What is said of the error itself, without its source. -/
def message : RunError → String
  | reentrant => "tree is already running; nested run on the same tree rejected"
  | poisoned => "agent state lock poisoned"
  | stepLimit limit => "tick exceeded the step limit of " ++ toString limit ++ " instructions"
  | invalidCursor cursor length =>
      "cursor " ++ toString cursor ++ " is outside a program of " ++ toString length ++
        " instructions"
  | corruptProgram index reason =>
      "corrupt program at instruction " ++ toString index ++ ": " ++ reason
  | subTree index _ => "sub-tree at instruction " ++ toString index ++ " failed"

/-- What is said of the error and of each source in turn. -/
def chain : RunError → List String
  | subTree index source => (subTree index source).message :: source.chain
  | e => [e.message]

/-- The error the chain ends at. -/
def innermost : RunError → RunError
  | subTree _ source => source.innermost
  | e => e

/-- The error as a record. -/
def text : RunError → String
  | reentrant => "Reentrant"
  | poisoned => "LockPoisoned"
  | stepLimit limit => Text.record "StepLimit" [("limit", toString limit)]
  | invalidCursor cursor length =>
      Text.record "InvalidCursor" [("cursor", toString cursor), ("len", toString length)]
  | corruptProgram index reason =>
      Text.record "CorruptProgram" [("index", toString index), ("reason", Text.quoted reason)]
  | subTree index source =>
      Text.record "SubTree" [("index", toString index), ("source", source.text)]

end RunError

/-- What lies behind a task's failure that is not a message of its own. -/
inductive Cause where
  /-- Something that is known only by its text. -/
  | plain (text : String)
  /-- A failed tick. -/
  | tick (e : RunError)
deriving DecidableEq, Inhabited

/-- Why a task reports no status. -/
inductive TaskError where
  /-- The task's own message. -/
  | message (text : String)
  /-- Another failure, shown in place of the task's. -/
  | other (cause : Cause)
deriving DecidableEq, Inhabited

namespace TaskError

/-- What is said of the error and of each source in turn. -/
def chain : TaskError → List String
  | message text => [text]
  | other (.plain text) => [text]
  | other (.tick e) => e.chain

/-- What is said of the error itself. -/
def summary : TaskError → String
  | message text => text
  | other (.plain text) => text
  | other (.tick e) => e.message

/-- The error as a record. -/
def text : TaskError → String
  | message text => Text.applied "Message" [Text.quoted text]
  | other (.plain text) => Text.applied "Other" [Text.quoted text]
  | other (.tick e) => Text.applied "Other" [e.text]

end TaskError

instance decidableEqExcept {ε α : Type} [DecidableEq ε] [DecidableEq α] :
    DecidableEq (Except ε α)
  | .ok a, .ok b => if h : a = b then isTrue (h ▸ rfl) else isFalse fun h' => h (by cases h'; rfl)
  | .error a, .error b =>
      if h : a = b then isTrue (h ▸ rfl) else isFalse fun h' => h (by cases h'; rfl)
  | .ok _, .error _ => isFalse fun h => by cases h
  | .error _, .ok _ => isFalse fun h => by cases h

/-- What a task's run answers: a status, or why there is none. -/
abbrev TaskResult := Except TaskError Status

/-- The status a task's answer counts as: an error is a failure. -/
def TaskResult.status : TaskResult → Status
  | .ok s => s
  | .error _ => .failure

end TickTree
