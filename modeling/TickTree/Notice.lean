import TickTree.Journal

/-!
# Notices

Which events a watcher hears about, and in what words. A notice is one line: the
level, the part of the program it comes from, what happened, and the values it
happened with.
-/

namespace TickTree

/-- The name of a level. -/
def Level.name : Level → String
  | .info => "INFO"
  | .warn => "WARN"
  | .error => "ERROR"

/-- The line of a note. -/
def Note.line (n : Note) : String :=
  n.level.name ++ " " ++ n.source ++ ": " ++ n.message
    ++ String.join (n.fields.map fun field => " " ++ field.1 ++ "=" ++ field.2)

/-- The part of the program that walks programs. -/
def walkSource : String := "behavior_tree::interpreter"

/-- The part of the program that keeps agents. -/
def treeSource : String := "behavior_tree::tree"

/-- The note an event is worth, if it is worth one. -/
def Event.note? {K : Type} : Event K → Option Note
  | .refused .. =>
      some ⟨.warn, treeSource, "rejected nested run on a tree that is already ticking", []⟩
  | .abortSkipped .. => some ⟨.warn, treeSource, "agent state lock poisoned; abort skipped", []⟩
  | .ran _ _ _ task (.error e) =>
      some ⟨.warn, walkSource, "task reported no status; treating as failure",
        [("task", task), ("error", e.summary)]⟩
  | .limitReached _ _ cursor limit =>
      some ⟨.warn, walkSource, "tick exceeded its step limit",
        [("limit", toString limit), ("cursor", toString cursor)]⟩
  | .boardMissing _ _ board key =>
      some ⟨.warn, walkSource, "shared blackboard not registered; query fails",
        [("board", board), ("key", key)]⟩
  | .boardUnavailable _ _ index e =>
      some ⟨.error, walkSource, "shared blackboard unavailable",
        [("index", toString index), ("error", e.message)]⟩
  | .linkFailed _ _ index e =>
      some ⟨.error, walkSource, "sub-tree tick failed",
        [("index", toString index), ("error", e.message)]⟩
  | .noted n => some n
  | _ => none

end TickTree
