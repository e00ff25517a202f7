import TickTree.Hook
import TickTree.Query

/-!
# Definitions of trees

A tree is defined by a `Node`: what it does, its children and its weight under a
random parent. Tasks, queries and links are leaves. A definition may break the
rules of its kinds (a leaf with children, a loop without a body); compiling it
finds that out.

A task has up to three hooks. Only `run` is needed to compile it. A link names a
tree that is built already.
-/

namespace TickTree

/-- A leaf that acts through hooks, each given the agent it acts for. -/
structure Task (K A : Type) where
  /-- The name it is listed under. -/
  name : String
  /-- Called when a visit begins. -/
  start : Option (K → Hook K A Unit) := none
  /-- Called on every tick of a visit. -/
  run : Option (K → Hook K A TaskResult) := none
  /-- Called when a visit ends, with the status it ends with. -/
  finish : Option (K → Status → Hook K A Unit) := none

/-- A tree that is built already: where it stands and how long its program is. -/
structure Link where
  /-- The place of the tree in the forest. -/
  tree : TreeId
  /-- How many instructions its program has. -/
  size : Nat
deriving DecidableEq, Repr, Inhabited

/-- The kinds of nodes, by name. -/
inductive Tag where
  | task | query | subTree | sequence | selector | random | whileLoop | succeed | fail | invert
  | repeatLoop
deriving DecidableEq, Repr, Inhabited

namespace Tag

/-- The name of a kind. -/
def name : Tag → String
  | task => "task"
  | query => "blackboard_query"
  | subTree => "sub_tree"
  | sequence => "sequence"
  | selector => "selector"
  | random => "random"
  | whileLoop => "while"
  | succeed => "succeed"
  | fail => "fail"
  | invert => "invert"
  | repeatLoop => "repeat"

/-- Leaves take no children. -/
def isLeaf : Tag → Bool
  | task | query | subTree => true
  | _ => false

/-- No two kinds share a name. -/
theorem name_inj {s t : Tag} : s.name = t.name ↔ s = t := by
  refine ⟨fun h => ?_, fun h => h ▸ rfl⟩
  revert h
  cases s <;> cases t <;> decide

end Tag

/-- What a node does. -/
inductive NodeKind (K A : Type) where
  /-- Acts through hooks. -/
  | task (task : Task K A)
  /-- Tests a board. -/
  | query (query : Query)
  /-- Ticks another tree. -/
  | subTree (link : Option Link)
  /-- One child after the other while they succeed. -/
  | sequence
  /-- One child after the other while they fail. -/
  | selector
  /-- One child, chosen by weight. -/
  | random
  /-- While the first child succeeds, the second child until it succeeds. -/
  | whileLoop (count : Option UInt32)
  /-- The child, but it succeeds. -/
  | succeed
  /-- The child, but it fails. -/
  | fail
  /-- The child with success and failure exchanged. -/
  | invert
  /-- The child again and again. -/
  | repeatLoop (count : Option UInt32) (breakOnFail : Bool)

/-- The kind without what it carries. -/
def NodeKind.tag {K A : Type} : NodeKind K A → Tag
  | .task _ => .task
  | .query _ => .query
  | .subTree _ => .subTree
  | .sequence => .sequence
  | .selector => .selector
  | .random => .random
  | .whileLoop _ => .whileLoop
  | .succeed => .succeed
  | .fail => .fail
  | .invert => .invert
  | .repeatLoop .. => .repeatLoop

/-- A definition of a tree. -/
inductive Node (K A : Type) where
  /-- What it does, its children, and its weight under a random parent. -/
  | mk (kind : NodeKind K A) (children : List (Node K A)) (weight : UInt32)

namespace Node

variable {K A : Type}

/-- What a node does. -/
def kind : Node K A → NodeKind K A
  | mk kind _ _ => kind

/-- The children of a node, first to last. -/
def children : Node K A → List (Node K A)
  | mk _ children _ => children

/-- The weight of a node under a random parent. -/
def weight : Node K A → UInt32
  | mk _ _ weight => weight

/-- A leaf takes no children. -/
def isLeaf (node : Node K A) : Bool := node.kind.tag.isLeaf

/-- The node with another weight. -/
def withWeight (weight : UInt32) : Node K A → Node K A
  | mk kind children _ => mk kind children weight

/-! ## Making definitions -/

/-- A task. -/
def task (t : Task K A) : Node K A := mk (.task t) [] 1

/-- A task with nothing but a run hook. -/
def action (name : String) (run : K → Hook K A TaskResult) : Node K A :=
  task (Task.mk name none (some run) none)

/-- A query of a board's name, a key and a predicate's word. -/
def query (board key predicate : String) : Node K A :=
  mk (.query (.ofWords board key predicate)) [] 1

/-- A link to a tree. -/
def subTree (link : Link) : Node K A := mk (.subTree (some link)) [] 1

/-- One child after the other while they succeed. -/
def sequence (children : List (Node K A)) : Node K A := mk .sequence children 1

/-- One child after the other while they fail. -/
def selector (children : List (Node K A)) : Node K A := mk .selector children 1

/-- One child, chosen by weight. -/
def random (children : List (Node K A)) : Node K A := mk .random children 1

/-- The child, but it succeeds; without one it succeeds at once. -/
def succeed (child : Option (Node K A)) : Node K A := mk .succeed child.toList 1

/-- The child, but it fails; without one it fails at once. -/
def fail (child : Option (Node K A)) : Node K A := mk .fail child.toList 1

/-- The child with success and failure exchanged. -/
def invert (child : Node K A) : Node K A := mk .invert [child] 1

/-- While the condition succeeds, the action until it succeeds; in at most so many
rounds if there is a count. -/
def whileLoop (count : Option UInt32) (condition action : Node K A) : Node K A :=
  mk (.whileLoop count) [condition, action] 1

/-- The child so many times, whatever it answers. -/
def times (count : UInt32) (child : Node K A) : Node K A :=
  mk (.repeatLoop (some count) false) [child] 1

/-- The child until it fails; so many times if there is a count. -/
def untilFailure (count : Option UInt32) (child : Node K A) : Node K A :=
  mk (.repeatLoop count true) [child] 1

/-- The child for ever, whatever it answers. -/
def forever (child : Node K A) : Node K A := mk (.repeatLoop none false) [child] 1

end Node

/-! ## Definitions as text -/

/-- The task as a record: its name and which hooks it has. -/
def Task.text {K A : Type} (task : Task K A) : String :=
  Text.record "Task"
    [("name", Text.quoted task.name), ("start", Text.truth task.start.isSome),
      ("run", Text.truth task.run.isSome), ("finish", Text.truth task.finish.isSome)]

/-- A loop count as text. -/
def countText (count : Option UInt32) : String :=
  Text.optional (count.map fun n => toString n.toNat)

/-- The kind as text, with what it carries. -/
def NodeKind.text {K A : Type} : NodeKind K A → String
  | .task t => Text.applied "Task" [t.text]
  | .query q => Text.applied "BlackboardQuery" [q.text]
  | .subTree link => Text.applied "SubTree" [Text.truth link.isSome]
  | .whileLoop count => Text.record "While" [("count", countText count)]
  | .repeatLoop count breakOnFail =>
      Text.record "Repeat" [("count", countText count), ("break_on_fail", Text.truth breakOnFail)]
  | kind => kind.tag.name

mutual

/-- The definition as a record. -/
def Node.text {K A : Type} : Node K A → String
  | .mk kind children weight =>
      Text.record "Node"
        [("kind", kind.text), ("weight", toString weight.toNat),
          ("children", Text.bracketed (nodeTexts children))]

/-- Definitions as records, one by one. -/
def nodeTexts {K A : Type} : List (Node K A) → List String
  | [] => []
  | node :: rest => node.text :: nodeTexts rest

end

end TickTree
