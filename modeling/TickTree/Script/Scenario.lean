import TickTree.Script.Definition

/-!
# Scenarios

A scenario builds trees from scripted definitions, one after the other, and then
does steps to them. A definition may link the trees built before it. A tree that
does not compile is left out; the trees that do stand in a forest in the order
they were built, and a name stands for the newest of its trees.
-/

namespace TickTree.Script

/-! ## Building -/

/-- How a tree comes by its settings. -/
inductive Assembly where
  /-- Setting by setting; a limit of zero takes the limit away. -/
  | stepwise
  /-- All at once, as they are. -/
  | whole
  /-- None. -/
  | bare
deriving DecidableEq

/-- A tree to build. -/
structure TreePlan where
  /-- Its name. -/
  name : String
  /-- Its definition. -/
  root : Definition
  /-- The seed of its random choices. -/
  seed : Option UInt64 := none
  /-- The most instructions one tick may dispatch. -/
  stepLimit : Option Nat := none
  /-- Whether its queries read the common registry. -/
  sharesBoards : Bool := false
  /-- How it comes by these settings. -/
  assembly : Assembly := .stepwise

/-- The settings of a planned tree. -/
def TreePlan.config (plan : TreePlan) : Config :=
  match plan.assembly with
  | .stepwise =>
      let config : Config := { seed := plan.seed }
      match plan.stepLimit with
      | none => config
      | some limit => config.withStepLimit limit
  | .whole => ⟨plan.seed, plan.stepLimit⟩
  | .bare => {}

/-- The registry of a planned tree. -/
def TreePlan.registry (plan : TreePlan) : Option RegistryId :=
  if plan.sharesBoards ∧ plan.assembly ≠ .bare then some commonRegistry else none

/-- The tree of a plan whose definition has compiled. -/
def TreePlan.tree (plan : TreePlan) (program : Program String Bench) : Tree String Bench :=
  { program := program, config := plan.config, registry := plan.registry }

/-- Trees built so far. -/
structure Grove where
  /-- The trees that compiled, oldest first. -/
  trees : List (Tree String Bench) := []
  /-- Their names, newest first. -/
  names : List (String × TreeId) := []
  /-- What each plan came to, oldest first: the length of the program, or why there is none. -/
  results : List (Except CompileError Nat) := []

namespace Grove

/-- The forest of the trees. -/
def forest (g : Grove) : Forest String Bench := ⟨g.trees⟩

/-- What a name links to. -/
def link? (g : Grove) (name : String) : Option Link :=
  (g.names.lookup name).map fun t => ⟨t, (g.forest.tree t).program.length⟩

/-- The definition proper of a scripted definition that links these trees. -/
def node (g : Grove) (d : Definition) : Node String Bench :=
  d.nodeAt g.link? g.results.length []

/-- One more tree, if it compiles. -/
def plant (g : Grove) (plan : TreePlan) : Grove :=
  match compile (g.node plan.root) with
  | .error e => { g with results := g.results ++ [.error e] }
  | .ok program =>
      { trees := g.trees ++ [plan.tree program]
        names := (plan.name, g.trees.length) :: g.names
        results := g.results ++ [.ok program.length] }

/-- The trees of plans, built in order. -/
def ofPlans (plans : List TreePlan) : Grove := plans.foldl plant {}

/-- The newest tree of each name. -/
def named (g : Grove) : List (String × TreeId) :=
  (Table.ofList g.names.reverse).entries

/-- What commands can name. -/
def places (g : Grove) : List (String × Place) :=
  g.names.map fun entry => (entry.1, ⟨entry.2, Description.of (g.forest.tree entry.2)⟩)

end Grove

/-! ## Steps -/

/-- One step of a scenario. -/
inductive Step where
  /-- Do something to an agent of a named tree. -/
  | tree (name agent : String) (c : TreeCommand)
  /-- Do something to the common registry. -/
  | registry (c : RegistryCommand)

/-- A step as a hook. -/
def Step.hook : Step → BenchHook Reply
  | .tree name agent c => do
      match (← Hook.ambient).place? name with
      | none => return .noTree
      | some place => c.hook place agent
  | .registry c => c.hook commonRegistry

/-- The agent a step is about. -/
def Step.agent? : Step → Option String
  | .tree _ agent _ => some agent
  | .registry _ => none

/-- What shows after a step. -/
structure Report where
  /-- The reply to the step. -/
  reply : Reply
  /-- What scripted tasks did in its course, oldest first. -/
  log : List Line
  /-- The running total. -/
  total : Int64
  /-- What shows of the step's agent in each tree, if the step has an agent. -/
  views : Option (List (String × View))

/-- Where a scenario begins: boards in the common registry, nothing done. -/
def Grove.world (g : Grove) (boards : List (String × Blackboard)) : World String Bench :=
  { registries := Table.ofList [(commonRegistry, ⟨Table.ofList boards, false⟩)]
    ambient := { places := g.places } }

/-- Does one step. -/
def Grove.step (g : Grove) (w : World String Bench) (s : Step) : Report × World String Bench :=
  match outside g.forest s.hook w with
  | none => (⟨.unended, [], w.ambient.total, none⟩, w)
  | some (reply, w') =>
      let report : Report :=
        { reply := reply, log := w'.ambient.log.reverse, total := w'.ambient.total
          views := s.agent?.map fun agent =>
            g.named.map fun entry => (entry.1, w'.view entry.2 agent) }
      (report, { w' with ambient := { w'.ambient with log := [] }, journal := [] })

/-- Does steps in a row. -/
def Grove.play (g : Grove) : World String Bench → List Step → List Report
  | _, [] => []
  | w, s :: rest =>
      let (report, w') := g.step w s
      report :: g.play w' rest

end TickTree.Script
