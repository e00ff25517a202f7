import TickTree.Patrol.Simulation
import TickTree.Script.Command

/-!
# Drills

A drill does steps to single guards instead of playing whole rounds: any
operation on a guard in either tree, in any round, and any command to the
squad's registry.
-/

namespace TickTree.Patrol

/-- What a step of a drill does. -/
inductive DrillAction where
  /-- Something to the guard, in the patrol tree or in the guard tree. -/
  | tree (inPatrol : Bool) (c : Script.TreeCommand)
  /-- Something to the squad's registry. -/
  | registry (c : Script.RegistryCommand)

/-- A step of a drill. -/
structure DrillStep where
  /-- The guard it is about. -/
  guard : GuardId := 0
  /-- The round it happens in. -/
  round : UInt32 := 0
  /-- What it does. -/
  action : DrillAction

/-- What shows after a step of a drill. -/
structure DrillReport where
  /-- The reply to the step. -/
  reply : Script.Reply
  /-- What shows of the guard in the guard tree. -/
  guard : View
  /-- What shows of the guard in the patrol tree. -/
  patrol : View
  /-- The squad's board. -/
  squad : Script.Reply

/-- Commands name the trees by place. -/
def drillPlace (F : Forest GuardId Watch) (t : TreeId) : Script.Place :=
  ⟨t, Script.Description.of (F.tree t)⟩

/-- A step as a hook. -/
def DrillStep.hook (F : Forest GuardId Watch) (s : DrillStep) : GuardHook Script.Reply :=
  match s.action with
  | .tree inPatrol c => c.hook (drillPlace F (if inPatrol then patrolTree else guardTree)) s.guard
  | .registry c => c.hook squadRegistry

/-- Where a drill begins: boards in the squad's registry. -/
def drillWorld (boards : List (String × Blackboard)) : World GuardId Watch :=
  { registries := Table.ofList [(squadRegistry, ⟨Table.ofList boards, false⟩)], ambient := ⟨0⟩ }

/-- Does steps in a row. -/
def drill (F : Forest GuardId Watch) : World GuardId Watch → List DrillStep → List DrillReport
  | _, [] => []
  | w, s :: rest =>
      let w := { w with ambient := ⟨s.round⟩ }
      let (reply, w) := (Script.outside F (s.hook F) w).getD (.unended, w)
      let report : DrillReport :=
        { reply := reply
          guard := w.view guardTree s.guard
          patrol := w.view patrolTree s.guard
          squad := .ofExcept .board ((w.registry squadRegistry).read squad) }
      report :: drill F { w with journal := [] } rest

end TickTree.Patrol
