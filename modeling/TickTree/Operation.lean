import TickTree.Tick

/-!
# Operations on trees

Four operations act on one agent of one tree: run, abort, remove, update. Hooks
may issue them while others are in progress, so each is defined against a
`Handler` that answers the calls made in its course, and `Forest.serve` ties the
knot a bounded number of times. The bound limits how deep operations nest and
how long one walk is; `cutOff` says that it was reached, and `Forest.operate`
takes one that no computation reaches.

* run refuses a tree that is ticking already. Otherwise the tree is marked as
  ticking for as long as the tick lasts, and the agent's state is checked out of
  the tree, ticked, and put back.
* abort checks the agent's state out, calls the finish hook of the task it is
  suspended on, or aborts the agent in the linked tree it is suspended in,
  and puts the state back rewound.
* remove takes the agent's state out of the tree, and out of the linked tree it
  is suspended in, and so on down. No hook is called.
* update lends the agent's board to an edit. An edit that dies poisons the tree.

A poisoned tree lends nothing more: run and update answer
`RunError.poisoned`, abort does nothing and remove answers that there was
nothing to remove.
-/

namespace TickTree

namespace Forest

variable {K A : Type} [DecidableEq K] (F : Forest K A)

/-! ## Run -/

/-- Ends a tick of a tree: the tree is no longer ticking. -/
def leave (t : TreeId) (a : K) (result : Except RunError Status) (w : World K A) :
    Outcome (World K A) (Except RunError Status) :=
  .done result ((w.modifyTree t fun s => { s with running := false }).log (.left t a result))

/-- Ticks an agent once. -/
def run (handler : Handler K A) (bound : Nat) (t : TreeId) (a : K) (w : World K A) :
    Outcome (World K A) (Except RunError Status) :=
  if (w.tree t).running then .done (.error .reentrant) (w.log (.refused t a))
  else
    let w := (w.modifyTree t fun s => { s with running := true }).log (.entered t a)
    if (w.tree t).poisoned then leave t a (.error .poisoned) w
    else
      (Tick.perform ⟨F.tree t, t, a⟩ handler bound ((w.agent? t a).getD {}) (w.checkOut t a)).bind
        fun answer w =>
      if (w.tree t).poisoned then leave t a (.error .poisoned) w
      else leave t a answer.1 (w.checkIn t a answer.2)

/-! ## Abort -/

/-- Cancels what an agent is suspended on, if it is: its task, or its tick in a
linked tree. Answers the agent's board afterwards. -/
def cancel (handler : Handler K A) (t : TreeId) (a : K) (state : AgentState) (w : World K A) :
    Outcome (World K A) Blackboard :=
  match (F.tree t).awaited state with
  | some (.task task) =>
      Tick.endVisit ⟨F.tree t, t, a⟩ handler state.cursor task .failure state.board w
  | some (.subTree link) => (handler (.abort link.tree a) w).map fun () => state.board
  | _ => .done state.board w

/-- Cancels whatever an agent is suspended on and rewinds it. -/
def abort (handler : Handler K A) (t : TreeId) (a : K) (w : World K A) :
    Outcome (World K A) Unit :=
  if (w.tree t).poisoned then .done () (w.log (.abortSkipped t a))
  else
    match w.agent? t a with
    | none => .done () w
    | some state =>
        (F.cancel handler t a state (w.checkOut t a)).bind fun board w =>
        if (w.tree t).poisoned then .done () w
        else .done () (w.checkIn t a { state with board := board }.rewind)

/-! ## Remove -/

/-- Discards an agent's state; answers whether there was any. -/
def remove (handler : Handler K A) (t : TreeId) (a : K) (w : World K A) :
    Outcome (World K A) Bool :=
  if (w.tree t).poisoned then .done false w
  else
    match w.agent? t a with
    | none => .done false w
    | some state =>
        let w := w.checkOut t a
        match (F.tree t).awaited state with
        | some (.subTree link) => (handler (.remove link.tree a) w).map fun _ => true
        | _ => .done true w

/-! ## Update -/

omit [DecidableEq K] in
/-- A tree after an edit has died on the board of one of its agents. -/
def poison (t : TreeId) (w : World K A) : World K A :=
  w.modifyTree t fun s => { s with poisoned := true }

/-- Lends an agent's board to an edit; an agent without state gets one. -/
def update (t : TreeId) (a : K) (edit : Edit) (w : World K A) :
    Except RunError EditResult × World K A :=
  if (w.tree t).poisoned then (.error .poisoned, w)
  else
    let state := (w.agent? t a).getD {}
    match edit state.board with
    | none => (.ok .died, poison t (w.checkIn t a state))
    | some board => (.ok (.edited state.board), w.checkIn t a { state with board := board })

/-! ## Tying the knot -/

/-- Answers a call, given who answers the calls made in its course. -/
def answer (handler : Handler K A) (bound : Nat) : Handler K A
  | .run t a, w => F.run handler bound t a w
  | .abort t a, w => F.abort handler t a w
  | .remove t a, w => F.remove handler t a w
  | .update t a edit, w =>
      let (reply, w) := update t a edit w
      .done reply w

/-- Answers calls up to a bound. -/
def serve : Nat → Handler K A
  | 0, _, w => .cutOff w
  | bound + 1, c, w => F.answer (serve bound) bound c w

/-- A bound that no computation reaches. -/
def ample : Nat := Nat.pow 2 60

/-- Answers a call. -/
def operate (c : Call K) (w : World K A) : Outcome (World K A) c.Reply := F.serve ample c w

end Forest

/-! ## Tests

Closed runs of one or two trees. -/

/-- A task that ticks the tree it belongs to is refused. -/
example :
    let again : RunnableTask Unit Unit := ⟨"again", none, fun agent => do
      match ← Hook.call (.run 0 agent) with
      | .error .reentrant => return .ok .success
      | _ => return .ok .failure, none⟩
    let F : Forest Unit Unit := ⟨[{ program := ⟨[⟨.task again, 1, 2⟩]⟩ }]⟩
    (F.operate (.run 0 ()) { ambient := () }).answer? = some (.ok .success) := by decide

/-- An abort reaches the linked tree that the agent is suspended in. -/
example :
    let waiting : RunnableTask Unit Unit := ⟨"waiting", none, fun _ => pure (.ok .running), none⟩
    let F : Forest Unit Unit :=
      ⟨[{ program := ⟨[⟨.task waiting, 1, 2⟩]⟩ }, { program := ⟨[⟨.subTree ⟨0, 1⟩, 1, 2⟩]⟩ }]⟩
    let suspended := (F.operate (.run 1 ()) { ambient := () }).state
    let aborted := (F.operate (.abort 1 ()) suspended).state
    ((suspended.view 0 ()).suspended, (aborted.view 0 ()).suspended) = (true, false) := by decide

end TickTree
