import TickTree.Compile
import TickTree.Script.Task

/-!
# Scripted definitions

A definition of a tree given as data: its tasks are scripted and its links are
names. `Definition.node` turns it into a definition proper. A task's script is
told apart from all others by the path to it, and a name that no tree answers to
gives a link to nothing.
-/

namespace TickTree.Script

/-- What a node of a scripted definition does. -/
inductive Shape where
  /-- Follows a script. -/
  | task (t : ScriptedTask)
  /-- Tests a board. -/
  | query (q : Query)
  /-- Ticks the tree of a name. -/
  | subTree (name : Option String)
  /-- Anything that needs no more than its children. -/
  | plain (kind : NodeKind String Bench)

/-- A definition of a tree given as data. -/
inductive Definition where
  /-- What it does, its children, and its weight under a random parent. -/
  | mk (shape : Shape) (children : List Definition) (weight : UInt32)

/-- The definition with one more child, the last. -/
def Definition.adopt : Definition → Definition → Definition
  | mk shape children weight, child => mk shape (children ++ [child]) weight

/-- Definitions nested in one another: each gets the next as its last child. -/
def Definition.nest? : List Definition → Option Definition
  | [] => none
  | outer :: inner =>
      match nest? inner with
      | none => some outer
      | some child => some (outer.adopt child)

/-- The kind of a node that stands at a path of a definition. -/
def Shape.kind (link? : String → Option Link) (serial : Serial) : Shape → NodeKind String Bench
  | .task t => .task (t.task serial)
  | .query q => .query q
  | .subTree name => .subTree (name.bind link?)
  | .plain kind => kind

mutual

/-- The definition proper, given what names link to and where it stands. -/
def Definition.nodeAt (link? : String → Option Link) (place : Nat) (path : List Nat) :
    Definition → Node String Bench
  | .mk shape children weight =>
      .mk (shape.kind link? (place, path)) (nodesAt link? place path 0 children) weight

/-- The definitions proper of the children of a node. -/
def nodesAt (link? : String → Option Link) (place : Nat) (path : List Nat) (i : Nat) :
    List Definition → List (Node String Bench)
  | [] => []
  | child :: rest =>
      child.nodeAt link? place (path ++ [i]) :: nodesAt link? place path (i + 1) rest

end

end TickTree.Script
