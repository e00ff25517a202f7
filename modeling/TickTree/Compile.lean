import TickTree.Path
import TickTree.Program

/-!
# Compiling definitions

Compiling walks a definition from the root down, children first to last, and
gives each node a contiguous range of instructions. A leaf is one instruction
that leaves both verdicts open. The enclosing node routes the open verdicts of
its children: on to the next child, back to the start of a loop, or on up.
Exits that are instructions already stay as they are. What is still open at the
root becomes the two ends of the program.

The walk checks each node before its children, so of two faults the one met
first in this order is reported (`Node.assemble`). The one check that waits for
the children is the total weight under a random node.
-/

namespace TickTree

/-- Why a definition has no program. Where the kind of a node matters, it is given by name. -/
inductive CompileError where
  /-- A task without a run hook. -/
  | missingTaskRun (path : Path)
  /-- A link to no tree. -/
  | missingSubTree (path : Path)
  /-- A composite without children. -/
  | emptyComposite (kind : String) (path : Path)
  /-- A decorator with more than one child. -/
  | tooManyChildren (kind : String) (path : Path) (count : Nat)
  /-- A decorator without the child it needs. -/
  | missingChild (kind : String) (path : Path)
  /-- A while loop with other than two children. -/
  | whileArity (path : Path) (count : Nat)
  /-- A leaf with children. -/
  | leafWithChildren (kind : String) (path : Path) (count : Nat)
  /-- A random node whose children weigh nothing. -/
  | zeroWeight (path : Path)
  /-- An instruction that goes on outside the program. -/
  | jumpOutOfRange (index target length : Nat)
deriving DecidableEq, Inhabited

namespace CompileError

/-- What is said of the error. -/
def message : CompileError → String
  | missingTaskRun path => "task at " ++ path.shown ++ " has no run callable"
  | missingSubTree path => "sub-tree at " ++ path.shown ++ " has no resolved tree"
  | emptyComposite kind path => kind ++ " at " ++ path.shown ++ " must have at least one child"
  | tooManyChildren kind path count =>
      kind ++ " at " ++ path.shown ++ " accepts at most one child, got " ++ toString count
  | missingChild kind path => kind ++ " at " ++ path.shown ++ " requires exactly one child"
  | whileArity path count =>
      "while at " ++ path.shown ++ " requires a condition and an action, got " ++ toString count
        ++ " children"
  | leafWithChildren kind path count =>
      kind ++ " at " ++ path.shown ++ " is a leaf but has " ++ toString count ++ " children"
  | zeroWeight path => "random at " ++ path.shown ++ " has a total child weight of zero"
  | jumpOutOfRange index target length =>
      "instruction " ++ toString index ++ " jumps to " ++ toString target
        ++ ", outside a program of " ++ toString length ++ " instructions"

/-- The name of the error's kind. -/
def name : CompileError → String
  | missingTaskRun _ => "MissingTaskRun"
  | missingSubTree _ => "MissingSubTree"
  | emptyComposite .. => "EmptyComposite"
  | tooManyChildren .. => "TooManyChildren"
  | missingChild .. => "MissingChild"
  | whileArity .. => "WhileArity"
  | leafWithChildren .. => "LeafWithChildren"
  | zeroWeight _ => "ZeroWeight"
  | jumpOutOfRange .. => "JumpOutOfRange"

/-- Where the blamed node stands, if a node is blamed. -/
def path? : CompileError → Option Path
  | missingTaskRun path | missingSubTree path | emptyComposite _ path | tooManyChildren _ path _
  | missingChild _ path | whileArity path _ | leafWithChildren _ path _
  | zeroWeight path => some path
  | jumpOutOfRange .. => none

/-- What the error carries, as labelled texts. -/
def fields : CompileError → List (String × String)
  | missingTaskRun path | missingSubTree path | zeroWeight path => [("path", path.text)]
  | emptyComposite kind path | missingChild kind path =>
      [("kind", Text.quoted kind), ("path", path.text)]
  | tooManyChildren kind path count | leafWithChildren kind path count =>
      [("kind", Text.quoted kind), ("path", path.text), ("count", toString count)]
  | whileArity path count => [("path", path.text), ("count", toString count)]
  | jumpOutOfRange index target length =>
      [("index", toString index), ("target", toString target), ("len", toString length)]

/-- The error as a record. -/
def text (e : CompileError) : String := Text.record e.name e.fields

end CompileError

/-! ## Putting code together -/

/-- The count that bounds a loop: zero bounds nothing. -/
def bound? (count : Option UInt32) : Option UInt32 := count.filter (0 < ·)

/-- The instructions in front of a loop that begins at `start`: none if it is unbounded. -/
def Code.loopHead {K A : Type} (start : Nat) (count : Option UInt32) : Code K A :=
  match bound? count with
  | none => []
  | some goal => Code.loopHeader start goal

/-- Where a round of a loop that begins at `start` begins again: at the counter
if there is one. -/
def loopAgain (start : Nat) (count : Option UInt32) : Nat :=
  match bound? count with
  | none => start
  | some _ => start + 1

section

variable {K A : Type}

mutual

/-- The code of a node that stands at a path, placed from an instruction on. -/
def Node.assemble (path : Path) (start : Nat) : Node K A → Except CompileError (Code K A)
  | .mk (.task t) [] _ =>
      match t.run with
      | none => .error (.missingTaskRun path)
      | some run => .ok (.single (.task ⟨t.name, t.start, run, t.finish⟩))
  | .mk (.task _) children _ => .error (.leafWithChildren Tag.task.name path children.length)
  | .mk (.query q) [] _ => .ok (.single (.query q))
  | .mk (.query _) children _ => .error (.leafWithChildren Tag.query.name path children.length)
  | .mk (.subTree none) [] _ => .error (.missingSubTree path)
  | .mk (.subTree (some link)) [] _ => .ok (.single (.subTree link))
  | .mk (.subTree _) children _ => .error (.leafWithChildren Tag.subTree.name path children.length)
  | .mk .sequence [] _ => .error (.emptyComposite Tag.sequence.name path)
  | .mk .sequence children _ => assembleChain .success path 0 start children
  | .mk .selector [] _ => .error (.emptyComposite Tag.selector.name path)
  | .mk .selector children _ => assembleChain .failure path 0 start children
  | .mk .random [] _ => .error (.emptyComposite Tag.random.name path)
  | .mk .random children _ => do
      let (code, table) ← assembleBranches path 0 (start + 1) children
      if table.isEmpty then .error (.zeroWeight path)
      else return Code.single (.randomBranch table) ++ code
  | .mk (.whileLoop count) [condition, action] _ => do
      let head := Code.loopHead start count
      let conditionCode ← condition.assemble (path ++ [0]) (start + head.length)
      let actionStart := start + head.length + conditionCode.length
      let actionCode ← action.assemble (path ++ [1]) actionStart
      return head ++ conditionCode.route (.sending .success actionStart)
        ++ actionCode.route (.sending .failure (loopAgain start count))
  | .mk (.whileLoop _) children _ => .error (.whileArity path children.length)
  | .mk .succeed [] _ => .ok (.single .hangingSucceed)
  | .mk .succeed [child] _ => do
      return (← child.assemble (path ++ [0]) start).route (.forcing .success)
  | .mk .succeed children _ => .error (.tooManyChildren Tag.succeed.name path children.length)
  | .mk .fail [] _ => .ok (.single .hangingFail)
  | .mk .fail [child] _ => do
      return (← child.assemble (path ++ [0]) start).route (.forcing .failure)
  | .mk .fail children _ => .error (.tooManyChildren Tag.fail.name path children.length)
  | .mk .invert [] _ => .error (.missingChild Tag.invert.name path)
  | .mk .invert [child] _ => do
      return (← child.assemble (path ++ [0]) start).route .swapping
  | .mk .invert children _ => .error (.tooManyChildren Tag.invert.name path children.length)
  | .mk (.repeatLoop ..) [] _ => .error (.missingChild Tag.repeatLoop.name path)
  | .mk (.repeatLoop count breakOnFail) [child] _ => do
      let head := Code.loopHead start count
      let again := loopAgain start count
      let body ← child.assemble (path ++ [0]) (start + head.length)
      return head ++ body.route (if breakOnFail then .sending .success again else .looping again)
  | .mk (.repeatLoop ..) children _ =>
      .error (.tooManyChildren Tag.repeatLoop.name path children.length)

/-- The code of the children of a sequence or selector. The verdict `carry` of
each child but the last goes on to the next child; the others go up. -/
def assembleChain (carry : Verdict) (path : Path) (place start : Nat) :
    List (Node K A) → Except CompileError (Code K A)
  | [] => .ok []
  | [last] => last.assemble (path ++ [place]) start
  | child :: rest => do
      let code ← child.assemble (path ++ [place]) start
      let next := start + code.length
      let others ← assembleChain carry path (place + 1) next rest
      return code.route (.sending carry next) ++ others

/-- The code of the children of a random node, and the table that holds the
start of each child as often as the child weighs. -/
def assembleBranches (path : Path) (place start : Nat) :
    List (Node K A) → Except CompileError (Code K A × List Nat)
  | [] => .ok ([], [])
  | child :: rest => do
      let code ← child.assemble (path ++ [place]) start
      let (others, table) ← assembleBranches path (place + 1) (start + code.length) rest
      return (code ++ others, List.replicate child.weight.toNat start ++ table)

end

end

/-! ## Sealing -/

/-- An exit of finished code in a program of so many instructions. -/
def Exit.resolve (length : Nat) : Exit → Nat
  | .verdict .success => length
  | .verdict .failure => length + 1
  | .goto index => index

/-- The first place outside a program of so many instructions where an
instruction goes on: an exit past both ends, or a named instruction that is none. -/
def Instruction.stray? {K A : Type} (length : Nat) (i : Instruction Nat K A) : Option Nat :=
  ([i.onSuccess, i.onFail].find? fun target => target > length + 1).or
    (i.op.targets.find? fun target => target ≥ length)

/-- The program of finished code, unless an instruction goes on outside it. -/
def Code.seal {K A : Type} (code : Code K A) : Except CompileError (Program K A) :=
  let instructions := code.map (·.mapExits (·.resolve code.length))
  let strays := instructions.zipIdx.filterMap fun entry =>
    (entry.1.stray? code.length).map fun target => (entry.2, target)
  match strays with
  | [] => .ok ⟨instructions⟩
  | (index, target) :: _ => .error (.jumpOutOfRange index target code.length)

/-- The program of a definition, or why it has none. -/
def compile {K A : Type} (root : Node K A) : Except CompileError (Program K A) := do
  (← root.assemble [] 0).seal

/-! ## Tests -/

/-- Of two faults the one the walk meets first is reported. -/
example :
    let faulty : Node Unit Unit :=
      .sequence [.mk (.whileLoop none) [.query "self" "k" "set"] 1, .random []]
    (compile faulty).map Program.length = .error (.whileArity [0] 1) := by decide

/-- A counted loop around a child that is made to fail and turned round again. -/
example :
    let loop : Node Unit Unit := .untilFailure (some 3) (.invert (.fail (some (.succeed none))))
    (compile loop).toOption.map (fun program =>
      program.instructions.map fun i => (i.op.name, i.onSuccess, i.onFail))
    = some [("repeat_start", 1, 1), ("repeat_counter", 3, 4), ("hanging_succeed", 1, 1)] := by
  decide

end TickTree
