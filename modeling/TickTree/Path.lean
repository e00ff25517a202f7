import TickTree.Text.Record

/-!
# Paths

Where a node stands in its definition: the places of the children to follow,
from the root down.
-/

namespace TickTree

/-- Child places from the root down. -/
abbrev Path := List Nat

namespace Path

/-- The path as it is written in messages. -/
def shown (path : Path) : String := "root" ++ String.join (path.map fun i => "." ++ toString i)

/-- The path as a record. -/
def text (path : Path) : String :=
  Text.applied "NodePath" [Text.bracketed (path.map fun i => toString i)]

end Path

example : Path.shown [0, 2] = "root.0.2" := by decide

end TickTree
