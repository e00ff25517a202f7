/-!
# Status

What a task, a linked tree or a whole tick answers. `Status.success` and
`Status.failure` conclude. `Status.running` suspends: the agent stays where it
is, and the next tick resumes there.
-/

namespace TickTree

/-- The answer of a task, of a linked tree or of a tick. -/
inductive Status where
  /-- Concluded well. -/
  | success
  /-- Concluded badly. -/
  | failure
  /-- Not concluded; the next tick resumes here. -/
  | running
deriving DecidableEq, Repr, Inhabited

/-- A status is done when it concludes. -/
def Status.isDone : Status → Bool
  | .running => false
  | _ => true

/-- Success and failure change places; an open status stays open. -/
def Status.invert : Status → Status
  | .success => .failure
  | .failure => .success
  | .running => .running

/-- The word a status is written as. -/
def Status.name : Status → String
  | .success => "Success"
  | .failure => "Failure"
  | .running => "Running"

@[simp]
theorem Status.invert_invert (s : Status) : s.invert.invert = s := by cases s <;> rfl

@[simp]
theorem Status.isDone_invert (s : Status) : s.invert.isDone = s.isDone := by cases s <;> rfl

theorem Status.isDone_iff_ne_running {s : Status} : s.isDone = true ↔ s ≠ .running := by
  cases s <;> simp [Status.isDone]

end TickTree
