import TickTree.Code
import TickTree.Text.Column

/-!
# Programs

A program is the compiled form of a definition: instructions in a row whose
exits are plain indices. An index below the length is an instruction. The length
itself means that the tree succeeds, and the index after it that the tree fails.

`Program.listing` writes one line for each instruction, with its index, what it
does and where it goes on.
-/

namespace TickTree

/-- Instructions in a row. -/
structure Program (K A : Type) where
  /-- The instructions, first to last. -/
  instructions : List (Instruction Nat K A) := []

/-- The exit an instruction takes for a status; only success takes the first. -/
def Instruction.exit {K A : Type} (i : Instruction Nat K A) : Status → Nat
  | .success => i.onSuccess
  | _ => i.onFail

namespace Program

variable {K A : Type}

/-- How many instructions a program has. -/
def length (p : Program K A) : Nat := p.instructions.length

/-- The instruction at an index. -/
def get? (p : Program K A) (index : Nat) : Option (Instruction Nat K A) := p.instructions[index]?

/-- The index that means success. -/
def successIndex (p : Program K A) : Nat := p.length

/-- The index that means failure. -/
def failIndex (p : Program K A) : Nat := p.length + 1

/-- The status an index means, if it is one of the two ends. -/
def terminalStatus (p : Program K A) (index : Nat) : Option Status :=
  if index = p.successIndex then some .success
  else if index = p.failIndex then some .failure
  else none

/-! ## Listing -/

/-- How an exit is written. -/
def exitLabel (p : Program K A) (index : Nat) : String :=
  match p.terminalStatus index with
  | some .success => "SUCCESS"
  | some _ => "FAIL"
  | none => toString index

end Program

/-- What an instruction does, as it stands in a listing. -/
def Op.shown {K A : Type} : Op K A → String
  | .task t => "task " ++ Text.quoted t.name
  | .query q => "query " ++ q.board.name ++ "." ++ q.key ++ " " ++ q.predicate.shown
  | .subTree link => "sub_tree (" ++ toString link.size ++ " instructions)"
  | .randomBranch table => "random_branch " ++ Text.bracketed (table.map fun i => toString i)
  | .repeatStart counter => "repeat_start counter=" ++ toString counter
  | .repeatCounter goal body =>
      "repeat_counter goal=" ++ toString goal.toNat ++ " body=" ++ toString body
  | op => op.name

/-- The instruction as a record. -/
def Instruction.text {K A : Type} (i : Instruction Nat K A) : String :=
  Text.record "Instruction"
    [("op", i.op.shown), ("on_success", toString i.onSuccess), ("on_fail", toString i.onFail)]

namespace Program

variable {K A : Type}

/-- The line of an instruction. -/
def line (p : Program K A) (index : Nat) (i : Instruction Nat K A) : String :=
  Text.padLeft 4 (toString index) ++ ": " ++ Text.padRight 40 i.op.shown ++
    " ok -> " ++ Text.padRight 8 (p.exitLabel i.onSuccess) ++
    " fail -> " ++ p.exitLabel i.onFail

/-- The lines of a program. -/
def lines (p : Program K A) : List String :=
  p.instructions.zipIdx.map fun entry => p.line entry.2 entry.1

/-- All lines of a program, each ended. -/
def listing (p : Program K A) : String := String.join (p.lines.map (· ++ "\n"))

/-- The program as a record. -/
def text (p : Program K A) : String :=
  Text.record "Program" [("instructions", Text.bracketed (p.instructions.map (·.text)))]

end Program

end TickTree
