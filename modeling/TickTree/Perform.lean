import TickTree.Outcome
import TickTree.World

/-!
# Performing hooks

A hook is performed on the board it was lent and on the world. Its requests are
answered one by one. Calls are answered by a `Handler`, which is a parameter
here: performing says nothing about what operating on a tree does. The board
lent to the hook is a value of its own, apart from anything a call does to the
world.
-/

namespace TickTree

/-- Who answers calls. -/
abbrev Handler (K A : Type) := (c : Call K) → World K A → Outcome (World K A) c.Reply

variable {K A : Type} [DecidableEq K]

/-- The reply to one request, with the board afterwards. -/
def Request.answer (handler : Handler K A) (r : Request K A) (board : Blackboard) (w : World K A) :
    Outcome (World K A) (r.Reply × Blackboard) :=
  match r with
  | .board => .done (board, board) w
  | .setBoard board' => .done ((), board') w
  | .ambient => .done (w.ambient, board) w
  | .setAmbient value => .done ((), board) { w with ambient := value }
  | .registry id command =>
      let (reply, after) := (w.registry id).answer command
      .done (reply, board) (w.setRegistry id after)
  | .call c => (handler c w).map fun reply => (reply, board)
  | .inspect t a => .done (w.view t a, board) (w.log (.looked t a (w.tree t).running))
  | .note n => .done ((), board) (w.log (.noted n))

/-- The answer of a hook, with the board afterwards. -/
def Hook.perform {α : Type} (handler : Handler K A) :
    Hook K A α → Blackboard → World K A → Outcome (World K A) (α × Blackboard)
  | .done answer, board, w => .done (answer, board) w
  | .ask request next, board, w =>
      match request.answer handler board w with
      | .done (reply, board') w' => (next reply).perform handler board' w'
      | .cutOff w' => .cutOff w'

@[simp]
theorem Hook.perform_done {α : Type} (handler : Handler K A) (a : α) (board : Blackboard)
    (w : World K A) : (Hook.done a).perform handler board w = .done (a, board) w := rfl

theorem Hook.perform_ask {α : Type} (handler : Handler K A) (r : Request K A)
    (next : r.Reply → Hook K A α) (board : Blackboard) (w : World K A) :
    (Hook.ask r next).perform handler board w =
      (r.answer handler board w).bind fun reply w' =>
        (next reply.1).perform handler reply.2 w' := by
  simp only [Hook.perform]
  cases r.answer handler board w <;> rfl

/-- Performing one hook after the other is performing both in a row. -/
theorem Hook.perform_bind {α β : Type} (handler : Handler K A) (h : Hook K A α)
    (f : α → Hook K A β) (board : Blackboard) (w : World K A) :
    (h.bind f).perform handler board w =
      (h.perform handler board w).bind fun reply w' => (f reply.1).perform handler reply.2 w' := by
  induction h generalizing board w with
  | done a => rfl
  | ask r next ih =>
    simp only [Hook.bind, Hook.perform_ask]
    cases r.answer handler board w with
    | done reply w' => simp [ih]
    | cutOff w' => rfl

end TickTree
