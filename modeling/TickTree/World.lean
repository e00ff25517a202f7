import TickTree.Config
import TickTree.Program
import TickTree.Random.Keystream

/-!
# Forests and worlds

A forest holds the trees: their programs and everything else about them that
never changes. A world holds what does change: for each tree the state of its
agents, whether it is ticking, whether an edit has died on one of its boards,
and how many random words it has used; the registries; the ambient value that
is handed to every hook; and the journal, newest event first.

An agent has state in a tree from its first tick or edit there until it is
removed. While it is being ticked or aborted its state is checked out, and the
tree holds none for it.
-/

namespace TickTree

/-! ## Agents -/

/-- What a tree remembers of an agent between ticks. -/
structure AgentState where
  /-- The instruction the next tick begins at. -/
  cursor : Nat := 0
  /-- Whether the last tick was suspended there. -/
  paused : Bool := false
  /-- The agent's own board. -/
  board : Blackboard := ∅
  /-- The rounds of each counted loop, by the index of its counter. -/
  counters : Table Nat UInt32 := ∅
deriving DecidableEq, Inhabited

namespace AgentState

/-- Back at the first instruction; the board and the counters stay. -/
def rewind (s : AgentState) : AgentState := { s with cursor := 0, paused := false }

/-- Suspended at an instruction. -/
def suspendAt (s : AgentState) (cursor : Nat) : AgentState :=
  { s with cursor := cursor, paused := true }

/-- The rounds a counter has counted. -/
def rounds (s : AgentState) (counter : Nat) : UInt32 := (s.counters.get? counter).getD 0

/-- A counter set to so many rounds. -/
def setRounds (s : AgentState) (counter : Nat) (n : UInt32) : AgentState :=
  { s with counters := s.counters.set counter n }

end AgentState

/-! ## Trees -/

/-- What never changes about a tree. -/
structure Tree (K A : Type) where
  /-- The compiled definition. -/
  program : Program K A := {}
  /-- The settings. -/
  config : Config := {}
  /-- The registry its queries read shared boards from. -/
  registry : Option RegistryId := none
  /-- The stream its random choices are drawn from: that of its seed, unless
  another is given. -/
  words : Nat → UInt32 := Random.streamOf config.seed

/-- The tree as a record, and whether it is ticking. -/
def Tree.text {K A : Type} (T : Tree K A) (running : Bool) : String :=
  Text.record "Tree"
    [("instructions", toString T.program.length), ("config", T.config.text),
      ("shared_boards", Text.truth T.registry.isSome), ("running", Text.truth running)]

/-- The instruction an agent is suspended on, if it is suspended. -/
def Tree.awaited {K A : Type} (T : Tree K A) (s : AgentState) : Option (Op K A) :=
  if s.paused then (T.program.get? s.cursor).map (·.op) else none

/-- Trees, each at its place. -/
structure Forest (K A : Type) where
  /-- The trees, first place first. -/
  trees : List (Tree K A) := []

/-- The tree at a place; where there is none, one without instructions. -/
def Forest.tree {K A : Type} (F : Forest K A) (t : TreeId) : Tree K A := F.trees[t]?.getD {}

/-- What changes about a tree. -/
structure TreeState (K : Type) where
  /-- The agents with state in the tree. -/
  agents : Table K AgentState := ∅
  /-- Whether the tree is ticking. -/
  running : Bool := false
  /-- Whether an edit has died on the board of one of its agents. -/
  poisoned : Bool := false
  /-- How many random words the tree has used. -/
  drawn : Nat := 0
deriving DecidableEq

/-! ## Worlds -/

/-- What changes about a forest and its surroundings. -/
structure World (K A : Type) where
  /-- The state of the trees. -/
  trees : Table TreeId (TreeState K) := ∅
  /-- The registries. -/
  registries : Table RegistryId Registry := ∅
  /-- The value that is handed to every hook. -/
  ambient : A
  /-- What happened so far, newest first. -/
  journal : List (Event K) := []

namespace World

variable {K A : Type}

/-- The state of a tree. -/
def tree (w : World K A) (t : TreeId) : TreeState K := (w.trees.get? t).getD {}

/-- The world with the state of a tree changed. -/
def modifyTree (w : World K A) (t : TreeId) (f : TreeState K → TreeState K) : World K A :=
  { w with trees := w.trees.set t (f (w.tree t)) }

/-- A registry. -/
def registry (w : World K A) (r : RegistryId) : Registry := (w.registries.get? r).getD {}

/-- The world with a registry replaced. -/
def setRegistry (w : World K A) (id : RegistryId) (r : Registry) : World K A :=
  { w with registries := w.registries.set id r }

/-- The world after another event. -/
def log (w : World K A) (e : Event K) : World K A := { w with journal := e :: w.journal }

/-- What happened so far, oldest first. -/
def history (w : World K A) : List (Event K) := w.journal.reverse

@[simp]
theorem tree_log (w : World K A) (e : Event K) (t : TreeId) : (w.log e).tree t = w.tree t := rfl

theorem tree_modifyTree (w : World K A) (t u : TreeId) (f : TreeState K → TreeState K) :
    (w.modifyTree t f).tree u = if t = u then f (w.tree t) else w.tree u := by
  by_cases h : t = u <;> simp [tree, modifyTree, Table.get?_set, h]

@[simp]
theorem tree_modifyTree_self (w : World K A) (t : TreeId) (f : TreeState K → TreeState K) :
    (w.modifyTree t f).tree t = f (w.tree t) := by
  simp [tree_modifyTree]

theorem tree_modifyTree_of_ne (w : World K A) {t u : TreeId} (f : TreeState K → TreeState K)
    (h : t ≠ u) : (w.modifyTree t f).tree u = w.tree u := by
  simp [tree_modifyTree, h]

@[simp]
theorem tree_setRegistry (w : World K A) (id : RegistryId) (r : Registry) (t : TreeId) :
    (w.setRegistry id r).tree t = w.tree t := rfl

theorem registry_setRegistry (w : World K A) (id x : RegistryId) (r : Registry) :
    (w.setRegistry id r).registry x = if id = x then r else w.registry x := by
  by_cases h : id = x <;> simp [registry, setRegistry, Table.get?_set, h]

variable [DecidableEq K]

/-- The state of an agent of a tree, if the tree holds one. -/
def agent? (w : World K A) (t : TreeId) (a : K) : Option AgentState := (w.tree t).agents.get? a

/-- Takes the state of an agent out of a tree. -/
def checkOut (w : World K A) (t : TreeId) (a : K) : World K A :=
  w.modifyTree t fun s => { s with agents := s.agents.erase a }

/-- Puts the state of an agent into a tree. -/
def checkIn (w : World K A) (t : TreeId) (a : K) (state : AgentState) : World K A :=
  w.modifyTree t fun s => { s with agents := s.agents.set a state }

theorem agent?_checkOut (w : World K A) (t u : TreeId) (a b : K) :
    (w.checkOut t a).agent? u b = if t = u ∧ a = b then none else w.agent? u b := by
  by_cases h : t = u
  · subst h
    simp [agent?, checkOut, Table.get?_erase]
  · simp [agent?, checkOut, tree_modifyTree_of_ne w _ h, h]

theorem agent?_checkIn (w : World K A) (t u : TreeId) (a b : K) (state : AgentState) :
    (w.checkIn t a state).agent? u b = if t = u ∧ a = b then some state else w.agent? u b := by
  by_cases h : t = u
  · subst h
    simp [agent?, checkIn, Table.get?_set]
  · simp [agent?, checkIn, tree_modifyTree_of_ne w _ h, h]

/-- What shows of an agent and of its tree: a poisoned tree shows no agents. -/
def view (w : World K A) (t : TreeId) (a : K) : View :=
  let state := if (w.tree t).poisoned then none else w.agent? t a
  { cursor := state.map (·.cursor)
    suspended := state.any (·.paused)
    board := state.map (·.board)
    agents := if (w.tree t).poisoned then 0 else (w.tree t).agents.size
    running := (w.tree t).running }

end World

end TickTree
