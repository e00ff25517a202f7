import TickTree.Node

/-!
# Instructions

A definition compiles to instructions in a row. Each has two exits, one for each
way it can conclude. While a definition is being put together an exit is either
an instruction or still a verdict for the enclosing node to deal with (`Exit`).
A `Routing` says where each verdict goes; routing twice is routing once by the
composite (`route_route`), and an exit that is an instruction stays
(`Exit.route_goto`).
-/

namespace TickTree

/-- A task that can run. -/
structure RunnableTask (K A : Type) where
  /-- The name it is listed under. -/
  name : String
  /-- Called when a visit begins. -/
  start : Option (K → Hook K A Unit)
  /-- Called on every tick of a visit. -/
  run : K → Hook K A TaskResult
  /-- Called when a visit ends, with the status it ends with. -/
  finish : Option (K → Status → Hook K A Unit)

/-- What an instruction does. -/
inductive Op (K A : Type) where
  /-- Visits a task. -/
  | task (task : RunnableTask K A)
  /-- Tests a board. -/
  | query (query : Query)
  /-- Ticks another tree. -/
  | subTree (link : Link)
  /-- Goes on at an entry of the table chosen at random. -/
  | randomBranch (table : List Nat)
  /-- Sets a loop counter to zero. -/
  | repeatStart (counter : Nat)
  /-- Counts a round; goes on at the body until the goal is exceeded. -/
  | repeatCounter (goal : UInt32) (body : Nat)
  /-- Concludes well at once. -/
  | hangingSucceed
  /-- Concludes badly at once. -/
  | hangingFail

/-- The name of what an instruction does. -/
def Op.name {K A : Type} : Op K A → String
  | .task _ => "task"
  | .query _ => "query"
  | .subTree _ => "sub_tree"
  | .randomBranch _ => "random_branch"
  | .repeatStart _ => "repeat_start"
  | .repeatCounter .. => "repeat_counter"
  | .hangingSucceed => "hanging_succeed"
  | .hangingFail => "hanging_fail"

/-- The instructions an instruction names besides its exits. -/
def Op.targets {K A : Type} : Op K A → List Nat
  | .randomBranch table => table
  | .repeatStart counter => [counter]
  | .repeatCounter _ body => [body]
  | _ => []

/-- An instruction whose exits are of type `ε`. -/
structure Instruction (ε K A : Type) where
  /-- What it does. -/
  op : Op K A
  /-- Where to go on after success. -/
  onSuccess : ε
  /-- Where to go on after failure. -/
  onFail : ε

/-- The instruction with its exits changed. -/
def Instruction.mapExits {ε ε' K A : Type} (f : ε → ε') (i : Instruction ε K A) :
    Instruction ε' K A :=
  ⟨i.op, f i.onSuccess, f i.onFail⟩

/-! ## Exits of unfinished code -/

/-- The way a node concludes. -/
inductive Verdict where
  /-- It succeeds. -/
  | success
  /-- It fails. -/
  | failure
deriving DecidableEq, Repr, Inhabited

/-- The other verdict. -/
def Verdict.flip : Verdict → Verdict
  | .success => .failure
  | .failure => .success

/-- Where unfinished code goes on. -/
inductive Exit where
  /-- Up to the enclosing node, with a verdict. -/
  | verdict (v : Verdict)
  /-- At an instruction. -/
  | goto (index : Nat)
deriving DecidableEq, Repr, Inhabited

/-- Where each verdict of a node goes. -/
abbrev Routing := Verdict → Exit

namespace Routing

/-- One verdict goes to an instruction, the other on up. -/
def sending (v : Verdict) (index : Nat) : Routing := fun u =>
  if u = v then .goto index else .verdict u

/-- Both verdicts go to an instruction. -/
def looping (index : Nat) : Routing := fun _ => .goto index

/-- Both verdicts go up as one. -/
def forcing (v : Verdict) : Routing := fun _ => .verdict v

/-- Each verdict goes up as the other. -/
def swapping : Routing := fun v => .verdict v.flip

end Routing

/-- An exit after routing. -/
def Exit.route (r : Routing) : Exit → Exit
  | verdict v => r v
  | goto index => goto index

/-- Instructions in a row, still to be placed in an enclosing node. -/
abbrev Code (K A : Type) := List (Instruction Exit K A)

namespace Code

variable {K A : Type}

/-- A single instruction that leaves both verdicts to the enclosing node. -/
def single (op : Op K A) : Code K A := [⟨op, .verdict .success, .verdict .failure⟩]

/-- All exits after routing. -/
def route (r : Routing) (code : Code K A) : Code K A := code.map (·.mapExits (·.route r))

/-- The two instructions in front of a counted loop that begins at `start`: the
first sets the counter to zero, the second counts and enters the body. -/
def loopHeader (start : Nat) (goal : UInt32) : Code K A :=
  [⟨.repeatStart (start + 1), .goto (start + 1), .goto (start + 1)⟩,
    ⟨.repeatCounter goal (start + 2), .verdict .success, .verdict .failure⟩]

end Code

/-! ## Laws of routing -/

@[simp]
theorem Exit.route_goto (r : Routing) (index : Nat) : (Exit.goto index).route r = .goto index := rfl

theorem Exit.route_route (r s : Routing) (e : Exit) :
    (e.route r).route s = e.route fun v => (r v).route s := by cases e <;> rfl

@[simp]
theorem Code.route_append {K A : Type} (r : Routing) (c d : Code K A) :
    Code.route r (c ++ d) = Code.route r c ++ Code.route r d := List.map_append

@[simp]
theorem Code.length_route {K A : Type} (r : Routing) (c : Code K A) :
    (Code.route r c).length = c.length := List.length_map _

theorem Code.route_route {K A : Type} (r s : Routing) (c : Code K A) :
    Code.route s (Code.route r c) = Code.route (fun v => (r v).route s) c := by
  simp [Code.route, Instruction.mapExits, Exit.route_route, Function.comp_def]

@[simp]
theorem Verdict.flip_flip (v : Verdict) : v.flip.flip = v := by cases v <;> rfl

end TickTree
