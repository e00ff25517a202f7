import TickTree.Compile

/-!
# Guards

A guard answers the squad's alarm first, rests when tired, and otherwise goes on
patrol. The patrol is a tree of its own: it picks a route, walks it, and scans
twice. Every third patrol tires the guard.

The guard's board in the guard tree holds how many patrols it has made, whether
it is tired and how long it still responds. Its board in the patrol tree holds
the route it is walking. The alarm is an entry of the board the squad shares.
-/

namespace TickTree.Patrol

/-- The number of a guard. -/
abbrev GuardId := UInt32

/-- What every guard's task is handed. -/
structure Watch where
  /-- The round of the simulation. -/
  round : UInt32
deriving DecidableEq, Inhabited

/-- A hook of a guard's task. -/
abbrev GuardHook := Hook GuardId Watch

/-- The registry of the squad. -/
def squadRegistry : RegistryId := 0

/-- The name of the squad's board. -/
def squad : String := "squad"

/-- The entry of the squad's board that raises the alarm. -/
def alarm : String := "alarm"

/-- Whether a guard is tired. -/
def tired : String := "tired"

/-- The route a guard is walking. -/
def walking : String := "walking"

/-- How many patrols a guard has made. -/
def patrols : String := "patrols"

/-- How many more rounds a guard responds. -/
def responseLeft : String := "response_left"

/-- The edit that sets the alarm. -/
def setAlarm (raised : Bool) : Edit := fun board => some (board.set alarm (.bool raised))

/-- The part of the program that guards report from. -/
def guardSource : String := "bt_sim::guard"

/-! ## Walking -/

/-- The name of the task that walks a route. -/
def walkName (route : String) : String := "walk_" ++ route

/-- A walk takes two rounds: the guard sets out in the first and arrives in the
second. However it ends, the route is forgotten. -/
def walk (route : String) : Task GuardId Watch where
  name := walkName route
  run := some fun _ => do
    let board ← Hook.board
    if board.contains walking then
      Hook.setBoard (board.erase walking)
      return .ok .success
    else
      Hook.setBoard (board.set walking (.text route))
      return .ok .running
  finish := some fun _ _ => do Hook.setBoard ((← Hook.board).erase walking)

/-! ## Actions -/

/-- Looking around. -/
def scan (_guard : GuardId) : GuardHook TaskResult := pure (.ok .success)

/-- The patrol after those an entry counts. -/
def nextPatrol : Option Value → Int64
  | some (.int n) => n + 1
  | _ => 1

/-- Counting a patrol; every third tires. -/
def tally (_guard : GuardId) : GuardHook TaskResult := do
  let board ← Hook.board
  let n := nextPatrol (board.get? patrols)
  let board := board.set patrols (.int n)
  Hook.setBoard (if n % 3 = 0 then board.set tired (.bool true) else board)
  return .ok .success

/-- Getting over being tired. -/
def rest (_guard : GuardId) : GuardHook TaskResult := do
  Hook.setBoard ((← Hook.board).set tired (.bool false))
  return .ok .success

/-! ## Responding -/

/-- Leaves a note about a guard and the round. -/
def report (guard : GuardId) (message : String) : GuardHook Unit := do
  let watch ← Hook.ambient
  Hook.note ⟨.info, guardSource, message,
    [("guard", toString guard.toNat), ("round", toString watch.round.toNat)]⟩

/-- Beginning to respond for so many rounds. -/
def beginResponse (rounds : Int64) (guard : GuardId) : GuardHook Unit := do
  Hook.setBoard ((← Hook.board).set responseLeft (.int rounds))
  report guard "responding to alarm"

/-- One round of a response. -/
def continueResponse (_guard : GuardId) : GuardHook TaskResult := do
  let board ← Hook.board
  match board.get? responseLeft with
  | some (.int left) =>
      if left > 1 then
        Hook.setBoard (board.set responseLeft (.int (left - 1)))
        return .ok .running
      else
        Hook.setBoard (board.erase responseLeft)
        return .ok .success
  | _ => return .error (.message "response was never started")

/-- Ending a response: one that was completed clears the alarm. -/
def endResponse (guard : GuardId) : Status → GuardHook Unit
  | .success => do
      match ← Hook.registry squadRegistry (.update squad (setAlarm false)) with
      | .ok _ => report guard "alarm cleared"
      | .error e =>
          Hook.note ⟨.warn, guardSource, "could not clear alarm",
            [("guard", toString guard.toNat), ("error", e.message)]⟩
  | _ => do Hook.setBoard ((← Hook.board).erase responseLeft)

/-- Responding to the alarm for so many rounds. -/
def respond (rounds : Int64) : Task GuardId Watch where
  name := "respond"
  start := some (beginResponse rounds)
  run := some continueResponse
  finish := some endResponse

/-! ## The two definitions -/

/-- A patrol: pick a route, walk it, scan twice. -/
def patrol : Node GuardId Watch :=
  .sequence
    [.random
      [(Node.task (walk "north")).withWeight 3, (Node.task (walk "south")).withWeight 3,
        (Node.succeed none).withWeight 1],
      .times 2 (.action "scan" scan)]

/-- A guard, given the link to the patrol tree. -/
def guard (patrolTree : Link) : Node GuardId Watch :=
  .selector
    [.sequence [.query squad alarm "true", .task (respond 2)],
      .sequence [.query "self" tired "true", .action "rest" rest],
      .sequence [.subTree patrolTree, .action "tally" tally]]

/-- The patrol as instructions: a branch, its three children, and a counted scan. -/
example :
    (compile patrol).toOption.map (fun program =>
      program.instructions.map fun i => (i.op.name, i.onSuccess, i.onFail))
    = some [("random_branch", 4, 8), ("task", 4, 8), ("task", 4, 8), ("hanging_succeed", 4, 8),
        ("repeat_start", 5, 5), ("repeat_counter", 7, 8), ("task", 5, 5)] := by decide

end TickTree.Patrol
