import TickTree.Proofs.Layout
import TickTree.Tick

/-!
# Evaluating definitions

What a definition means, said on the definition itself: `Node.evaluate` follows
the nodes and knows no instructions, exits or counters. A sequence goes on while
its children succeed and a selector while they fail. A random node draws one of
its children. A loop makes its rounds one after the other. A leaf that does not
conclude ends the whole, and so does an error.

The evaluation is given the index a node's code begins at. Nothing is decided by
it: it is where the events of a leaf and the errors of a link say they come from,
and where an agent that is suspended stands.

Loops without an end make the evaluation partial, so it is given a bound on their
rounds; when it runs out, the outcome is cut off.
-/

namespace TickTree

variable {K A : Type}

/-! ## Endings -/

/-- How the evaluation of a node ends. -/
inductive Ending where
  /-- With a verdict. -/
  | concluded (verdict : Verdict)
  /-- With the leaf at an index suspended. -/
  | suspended (index : Nat)
  /-- With an error. -/
  | failed (error : RunError)
deriving DecidableEq

namespace Ending

/-- The result of a tick that ends like this. -/
def result : Ending → Except RunError Status
  | concluded .success => .ok .success
  | concluded .failure => .ok .failure
  | suspended _ => .ok .running
  | failed e => .error e

/-- Where the agent stands afterwards. -/
def cursor : Ending → Nat
  | suspended index => index
  | _ => 0

/-- Whether the agent is suspended afterwards. -/
def paused : Ending → Bool
  | suspended _ => true
  | _ => false

end Ending

/-! ## Activities -/

/-- What is done with an agent's board in a world, and how it ends. -/
abbrev Activity (K A : Type) :=
  Blackboard → World K A → Outcome (World K A) (Ending × Blackboard)

namespace Activity

/-- Nothing, with a verdict. -/
def conclude (v : Verdict) : Activity K A := fun board w => .done (.concluded v, board) w

/-- Without an end. -/
def endless : Activity K A := fun _ w => .cutOff w

/-- One activity, and what follows from its verdict. -/
def andThen (first : Activity K A) (next : Verdict → Activity K A) : Activity K A := fun board w =>
  (first board w).bind fun
  | (.concluded v, board), w => next v board w
  | (ending, board), w => .done (ending, board) w

/-- So many rounds, each given what follows it, and what follows the last. -/
def rounds (round : Activity K A → Activity K A) (last : Activity K A) : Nat → Activity K A
  | 0 => last
  | n + 1 => round (rounds round last n)

section

variable [DecidableEq K] (tick : Tick K A) (handler : Handler K A)

/-- A task: it starts, runs once, and finishes if its run concludes. An error counts as
a failure. -/
def task (index : Nat) (task : RunnableTask K A) : Activity K A := fun board w =>
  (tick.beginVisit handler index task board w).bind fun board w =>
  ((task.run tick.agent).perform handler board w).bind fun answer w =>
  let w := w.log (.ran tick.id tick.agent index task.name answer.1)
  match TaskResult.status answer.1 with
  | .running => .done (.suspended index, answer.2) w
  | .success =>
      (tick.endVisit handler index task .success answer.2 w).map fun board =>
        (.concluded .success, board)
  | .failure =>
      (tick.endVisit handler index task .failure answer.2 w).map fun board =>
        (.concluded .failure, board)

omit [DecidableEq K] in
/-- A query. A shared board that is missing fails it; a registry that cannot be read is
an error. -/
def query (index : Nat) (q : Query) : Activity K A := fun board w =>
  match q.find board (tick.tree.registry.map w.registry) with
  | .ok (some true) => .done (.concluded .success, board) w
  | .ok (some false) => .done (.concluded .failure, board) w
  | .ok none =>
      .done (.concluded .failure, board)
        (w.log (.boardMissing tick.id tick.agent q.board.name q.key))
  | .error e => .done (.failed e, board) (w.log (.boardUnavailable tick.id tick.agent index e))

omit [DecidableEq K] in
/-- A link takes the result of a tick of the linked tree. -/
def link (index : Nat) (l : Link) : Activity K A := fun board w =>
  (handler (.run l.tree tick.agent) w).bind fun
  | .ok .success, w => .done (.concluded .success, board) w
  | .ok .failure, w => .done (.concluded .failure, board) w
  | .ok .running, w => .done (.suspended index, board) w
  | .error e, w =>
      .done (.failed (.subTree index e), board) (w.log (.linkFailed tick.id tick.agent index e))

omit [DecidableEq K] in
/-- One entry of a list, drawn with the words of the tree; an entry comes with the index
it stands at. -/
def drawn (index : Nat) : List (Nat × Activity K A) → Activity K A
  | [] => conclude .failure
  | first :: rest => fun board w =>
      let (place, drawn) := Random.draw tick.tree.words (rest.length + 1) (w.tree tick.id).drawn
      let chosen := (first :: rest)[place]?.getD first
      chosen.2 board
        ((w.modifyTree tick.id fun s => { s with drawn := drawn }).log
          (.drew tick.id tick.agent index chosen.1))

end

end Activity

/-! ## Loops -/

/-- How many rounds a loop with a count makes, `none` if there is no end of them: as many
as the count says; without a count, or with zero, there is no end. -/
def roundsOf (count : Option UInt32) : Option Nat := (bound? count).map (·.toNat)

/-- The rounds that a counter of 32 bits can tell apart: it never exceeds the largest
count, so a loop with that count has no end either. -/
def roundsCounted (count : Option UInt32) : Option Nat :=
  (roundsOf count).filter (· + 1 < Nat.pow 2 32)

/-- The rounds of a loop. One that has no end is cut off after so many. -/
def Activity.loop (reading : Option UInt32 → Option Nat) (bound : Nat) (count : Option UInt32)
    (round : Activity K A → Activity K A) : Activity K A :=
  match reading count with
  | some n => rounds round (conclude .success) n
  | none => rounds round endless bound

/-- A round of a repetition: the body, and then again whatever it came to, unless a
failure is to end the loop. -/
def Activity.repeatRound (breakOnFail : Bool) (body again : Activity K A) : Activity K A :=
  body.andThen fun v => if breakOnFail ∧ v = .failure then conclude .failure else again

/-- A round of a while loop: a failed condition ends it badly, an action that succeeds
ends it well, and an action that fails begins the next round. -/
def Activity.whileRound (condition action again : Activity K A) : Activity K A :=
  condition.andThen fun
  | .failure => conclude .failure
  | .success => action.andThen fun
    | .success => conclude .success
    | .failure => again

/-! ## Nodes -/

section

variable [DecidableEq K] (tick : Tick K A) (handler : Handler K A)
  (reading : Option UInt32 → Option Nat) (bound : Nat)

mutual

/-- Evaluates a node whose code begins at an index. A node that compiling refuses has no
meaning; it fails. -/
def Node.evaluate (start : Nat) : Node K A → Activity K A
  | .mk (.task t) _ _ =>
      match t.run with
      | some run => .task tick handler start ⟨t.name, t.start, run, t.finish⟩
      | none => .conclude .failure
  | .mk (.query q) _ _ => .query tick start q
  | .mk (.subTree (some l)) _ _ => .link tick handler start l
  | .mk (.subTree none) _ _ => .conclude .failure
  | .mk .sequence children _ => evaluateChain .success start children
  | .mk .selector children _ => evaluateChain .failure start children
  | .mk .random children _ => .drawn tick start (evaluateBranches (start + 1) children)
  | .mk (.whileLoop count) [condition, action] _ =>
      .loop reading bound count (.whileRound
        (condition.evaluate (start + headSize count))
        (action.evaluate (start + headSize count + condition.size)))
  | .mk (.whileLoop _) _ _ => .conclude .failure
  | .mk .succeed [] _ => .conclude .success
  | .mk .succeed [child] _ => (child.evaluate start).andThen fun _ => .conclude .success
  | .mk .succeed _ _ => .conclude .failure
  | .mk .fail [] _ => .conclude .failure
  | .mk .fail [child] _ => (child.evaluate start).andThen fun _ => .conclude .failure
  | .mk .fail _ _ => .conclude .failure
  | .mk .invert [child] _ => (child.evaluate start).andThen fun v => .conclude v.flip
  | .mk .invert _ _ => .conclude .failure
  | .mk (.repeatLoop count breakOnFail) [child] _ =>
      .loop reading bound count (.repeatRound breakOnFail
        (child.evaluate (start + headSize count)))
  | .mk (.repeatLoop ..) _ _ => .conclude .failure

/-- Evaluates nodes one after the other while they come to a verdict, and stops at the
first that comes to the other. -/
def evaluateChain (carry : Verdict) (start : Nat) : List (Node K A) → Activity K A
  | [] => .conclude carry
  | child :: rest =>
      (child.evaluate start).andThen fun v =>
        if v = carry then evaluateChain carry (start + child.size) rest else .conclude v

/-- The children of a random node, each as often as it weighs. -/
def evaluateBranches (start : Nat) : List (Node K A) → List (Nat × Activity K A)
  | [] => []
  | child :: rest =>
      List.replicate child.weight.toNat (start, child.evaluate start) ++
        evaluateBranches (start + child.size) rest

end

end

/-! ## Readings of counts -/

/-- The count of a loop. -/
def NodeKind.count? : NodeKind K A → Option UInt32
  | .whileLoop count => count
  | .repeatLoop count _ => count
  | _ => none

/-- What every node of a definition has to be. -/
inductive Node.Every (P : NodeKind K A → Prop) : Node K A → Prop where
  | mk {kind : NodeKind K A} {children : List (Node K A)} {weight : UInt32} :
      P kind → (∀ child ∈ children, Every P child) → Every P (.mk kind children weight)

theorem Node.every_of_forall {P : NodeKind K A → Prop} (h : ∀ kind, P kind) (node : Node K A) :
    node.Every P := by
  induction node using Node.induction with
  | mk kind children weight ih => exact .mk (h kind) ih

theorem Node.Every.imp {P Q : NodeKind K A → Prop} (hpq : ∀ kind, P kind → Q kind)
    {node : Node K A} (h : node.Every P) : node.Every Q := by
  induction h with
  | mk hkind _ ih => exact .mk (hpq _ hkind) ih

theorem Node.Every.kind {P : NodeKind K A → Prop} {kind : NodeKind K A}
    {children : List (Node K A)} {weight : UInt32} (h : Every P (.mk kind children weight)) :
    P kind := by
  cases h with
  | mk hkind _ => exact hkind

theorem Node.Every.child {P : NodeKind K A → Prop} {kind : NodeKind K A}
    {children : List (Node K A)} {weight : UInt32} (h : Every P (.mk kind children weight))
    {child : Node K A} (hmem : child ∈ children) : Every P child := by
  cases h with
  | mk _ hchildren => exact hchildren child hmem

/-- The largest count. -/
def largestCount : UInt32 := 4294967295

theorem roundsCounted_eq {count : Option UInt32} (h : count ≠ some largestCount) :
    roundsCounted count = roundsOf count := by
  cases count with
  | none => rfl
  | some n =>
    have hlt : n.toNat + 1 < Nat.pow 2 32 := by
      have hn := n.toNat_lt
      have hne : n.toNat ≠ largestCount.toNat := fun heq => h (by rw [UInt32.toNat_inj.1 heq])
      have hlargest : largestCount.toNat = 4294967295 := rfl
      have : Nat.pow 2 32 = 2 ^ 32 := rfl
      omega
    rw [roundsCounted]
    by_cases hpos : 0 < n
    · simp [roundsOf, bound?, Option.filter, hpos, hlt]
    · simp [roundsOf, bound?, Option.filter, hpos]

end TickTree
