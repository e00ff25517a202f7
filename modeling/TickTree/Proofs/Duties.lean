import TickTree.Patrol.Simulation
import TickTree.Proofs.Persistence
import TickTree.Proofs.Tracking
import TickTree.Proofs.Vantage

/-!
# Duties of guards

Between two ticks a guard is ready, walking a route or responding to the alarm (`Duty`). The two
trees hold nothing else of it but its board in the guard tree. What a tick makes of a guard is
decided by its duty, its board, the alarm and the route that is drawn (`Ticked`), and an abort
makes it ready (`Sentry.aborted`).

That ticks and aborts of the two trees come to just this is shown by following them from the
vantage of the guard (`tick_comes`, `abort_comes`).
-/

namespace TickTree

/-- A task that can run. -/
def Task.runnable {K A : Type} (task : Task K A) (h : task.run.isSome = true) :
    RunnableTask K A :=
  ⟨task.name, task.start, task.run.get h, task.finish⟩

namespace Patrol

/-! ## The compiled trees -/

/-- The routes that are walked. -/
inductive Route where
  | north
  | south
deriving DecidableEq

/-- The name of a route. -/
def Route.name : Route → String
  | north => "north"
  | south => "south"

/-- Where the patrol tree walks a route. -/
def Route.index : Route → Nat
  | north => 1
  | south => 2

/-- The task that walks a route. -/
def strolling (route : Route) : RunnableTask GuardId Watch := (walk route.name).runnable rfl

/-- The task that responds. -/
def responding : RunnableTask GuardId Watch := (respond 2).runnable rfl

/-- The task that looks around. -/
def scanning : RunnableTask GuardId Watch := ⟨"scan", none, scan, none⟩

/-- The task that gets over being tired. -/
def resting : RunnableTask GuardId Watch := ⟨"rest", none, rest, none⟩

/-- The task that counts patrols. -/
def tallying : RunnableTask GuardId Watch := ⟨"tally", none, tally, none⟩

/-- The compiled patrol. -/
def patrolProgram : Program GuardId Watch :=
  ⟨[⟨.randomBranch [1, 1, 1, 2, 2, 2, 3], 4, 8⟩, ⟨.task (strolling .north), 4, 8⟩,
    ⟨.task (strolling .south), 4, 8⟩, ⟨.hangingSucceed, 4, 8⟩, ⟨.repeatStart 5, 5, 5⟩,
    ⟨.repeatCounter 2 6, 7, 8⟩, ⟨.task scanning, 5, 5⟩]⟩

/-- The compiled guard. -/
def guardProgram : Program GuardId Watch :=
  ⟨[⟨.query (.ofWords squad alarm "true"), 1, 2⟩, ⟨.task responding, 6, 2⟩,
    ⟨.query (.ofWords "self" tired "true"), 3, 4⟩, ⟨.task resting, 6, 4⟩,
    ⟨.subTree ⟨patrolTree, 7⟩, 5, 7⟩, ⟨.task tallying, 6, 7⟩]⟩

/-- The two trees, compiled. -/
def garrison (routes : Nat → UInt32) (patrolConfig guardConfig : Config) :
    Forest GuardId Watch :=
  ⟨[{ program := patrolProgram, config := patrolConfig, words := routes },
    { program := guardProgram, config := guardConfig, registry := some squadRegistry }]⟩

theorem forestOn_eq (routes : Nat → UInt32) (patrolConfig guardConfig : Config) :
    forestOn routes patrolConfig guardConfig = .ok (garrison routes patrolConfig guardConfig) :=
  rfl

/-! ## Duties -/

/-- What a guard is in the middle of. -/
inductive Duty where
  /-- Nothing. -/
  | ready
  /-- A walk. -/
  | walking (route : Route)
  /-- A response to the alarm. -/
  | responding
deriving DecidableEq

/-- How a guard stands in the guard tree. -/
def Duty.standing : Duty → Nat × Bool
  | ready => (0, false)
  | walking _ => (4, true)
  | responding => (1, true)

theorem Duty.standing_lt (d : Duty) : d.standing.1 < guardProgram.length := by
  cases d with
  | ready => exact (by decide : 0 < 6)
  | walking => exact (by decide : 4 < 6)
  | responding => exact (by decide : 1 < 6)

/-- How a guard stands in the patrol tree. -/
def Duty.patrolStanding : Duty → Nat × Bool
  | walking route => (route.index, true)
  | ready | responding => (0, false)

/-- The board of a guard in the patrol tree. -/
def Duty.patrolBoard : Duty → Blackboard
  | walking route => (∅ : Blackboard).set Patrol.walking (.text route.name)
  | ready | responding => ∅

/-- A guard: its duty, and its board in the guard tree. -/
structure Sentry where
  /-- What it is in the middle of. -/
  duty : Duty := .ready
  /-- Its board. -/
  board : Blackboard := ∅

/-- The board of a guard that has counted another patrol. -/
def tallied (board : Blackboard) : Blackboard :=
  let n := nextPatrol (board.get? patrols)
  if n % 3 = 0 then (board.set patrols (.int n)).set tired (.bool true)
  else board.set patrols (.int n)

/-- Something a guard has done. -/
inductive Deed where
  /-- Run a task. -/
  | ran (task : String) (result : TaskResult)
  /-- Been ticked. -/
  | answered (result : Except RunError Status)

/-- What an event says of the deeds of a guard. -/
def deed? : Event GuardId → Option (GuardId × Deed)
  | .ran _ a _ task result => some (a, .ran task result)
  | .left t a result => if t = guardTree then some (a, .answered result) else none
  | _ => none

/-- The tasks that a guard ran, newest first, as they show. -/
def ranAll (a : GuardId) (did : List (String × Status)) : List (GuardId × Deed) :=
  did.map fun d => (a, .ran d.1 (.ok d.2))

/-- The deeds of a guard in a tick, newest first: its answer, and the tasks it ran. -/
def deedsOf (a : GuardId) (answer : Status) (did : List (String × Status)) :
    List (GuardId × Deed) :=
  (a, .answered (.ok answer)) :: ranAll a did

/-- The deeds of a patrol that has arrived, newest first. -/
def homecoming : List (String × Status) :=
  [("tally", .success), ("scan", .success), ("scan", .success)]

/-- What a tick makes of a guard, given whether there is an alarm: its answer, the tasks it ran,
newest first, and whether there still is an alarm. -/
inductive Ticked :
    Bool → Sentry → Status → List (String × Status) → Sentry → Bool → Prop where
  /-- It responds to the alarm. -/
  | alarmed (board : Blackboard) : Ticked true ⟨.ready, board⟩ .running [("respond", .running)]
      ⟨.responding, (board.set responseLeft (.int 2)).set responseLeft (.int 1)⟩ true
  /-- It has responded, which clears the alarm. -/
  | stoodDown (raised : Bool) (board : Blackboard) : Ticked raised ⟨.responding, board⟩ .success
      [("respond", .success)] ⟨.ready, board.erase responseLeft⟩ false
  /-- It rests. -/
  | rested {board : Blackboard} : board.get? tired = some (.bool true) →
      Ticked false ⟨.ready, board⟩ .success [("rest", .success)]
        ⟨.ready, board.set tired (.bool false)⟩ false
  /-- It sets out on a walk. -/
  | setOut (route : Route) {board : Blackboard} : board.get? tired ≠ some (.bool true) →
      Ticked false ⟨.ready, board⟩ .running [(walkName route.name, .running)]
        ⟨.walking route, board⟩ false
  /-- It patrols without a walk. -/
  | stayed {board : Blackboard} : board.get? tired ≠ some (.bool true) →
      Ticked false ⟨.ready, board⟩ .success homecoming ⟨.ready, tallied board⟩ false
  /-- It comes back from a walk. -/
  | arrived (raised : Bool) (route : Route) (board : Blackboard) :
      Ticked raised ⟨.walking route, board⟩ .success
        (homecoming ++ [(walkName route.name, .success)]) ⟨.ready, tallied board⟩ raised

/-- A guard that was aborted. -/
def Sentry.aborted (g : Sentry) : Sentry :=
  match g.duty with
  | .responding => ⟨.ready, g.board.erase responseLeft⟩
  | .ready | .walking _ => ⟨.ready, g.board⟩

/-- What a run of the patrol tree makes of the duty of a guard: its answer and the tasks it ran,
newest first. -/
inductive Patrolled : Duty → Status → List (String × Status) → Duty → Prop where
  | setOut (route : Route) :
      Patrolled .ready .running [(walkName route.name, .running)] (.walking route)
  | stayed : Patrolled .ready .success [("scan", .success), ("scan", .success)] .ready
  | arrived (route : Route) : Patrolled (.walking route) .success
      [("scan", .success), ("scan", .success), (walkName route.name, .success)] .ready

/-- A registry whose squad board says whether there is an alarm. -/
def Raises (r : Registry) (raised : Bool) : Prop :=
  r.poisoned = false ∧
    ∃ board, r.boards.get? squad = some board ∧ board.get? alarm = some (.bool raised)

theorem Raises.find {r : Registry} {raised : Bool} (h : Raises r raised) (own : Blackboard) :
    (Query.ofWords squad alarm "true").find own (some r) = .ok (some raised) := by
  obtain ⟨hsound, board, hboard, halarm⟩ := h
  have hquery : Query.ofWords squad alarm "true" = ⟨.shared squad, alarm, .isTrue⟩ := rfl
  rw [hquery]
  simp only [Query.find, Registry.read, hsound, hboard, Bool.false_eq_true, if_false,
    Option.map_some, Query.holdsOn, halarm, Predicate.test]
  cases raised <;> rfl

theorem Raises.update {r : Registry} {raised : Bool} (h : Raises r raised) (raised' : Bool) :
    ∃ before r', r.update squad (setAlarm raised') = (.ok (some (.edited before)), r') ∧
      Raises r' raised' := by
  obtain ⟨hsound, board, hboard, -⟩ := h
  refine ⟨board, { r with boards := r.boards.set squad (board.set alarm (.bool raised')) }, ?_,
    hsound, _, Table.get?_set_self _ _ _, Table.get?_set_self _ _ _⟩
  simp only [Registry.update, hsound, hboard, setAlarm, Bool.false_eq_true, if_false]

theorem find_tired (board : Blackboard) (r : Option Registry) :
    (Query.ofWords "self" tired "true").find board r =
      .ok (some (decide (board.get? tired = some (.bool true)))) := rfl

/-! ## Hooks -/

section

variable (handler : Handler GuardId Watch) (a : GuardId) (board : Blackboard)
  (w : World GuardId Watch)

theorem perform_strolling_out (route : Route) (h : board.contains walking = false) :
    ((strolling route).run a).perform handler board w =
      .done (.ok .running, board.set walking (.text route.name)) w := by
  change Hook.perform handler (if board.contains walking = true then _ else _) board w = _
  rw [if_neg (by simp [h])]
  rfl

theorem perform_strolling_home (route : Route) (h : board.contains walking = true) :
    ((strolling route).run a).perform handler board w =
      .done (.ok .success, board.erase walking) w := by
  change Hook.perform handler (if board.contains walking = true then _ else _) board w = _
  rw [if_pos h]
  rfl

theorem perform_tallying :
    (tallying.run a).perform handler board w = .done (.ok .success, tallied board) w := rfl

theorem perform_board_bind (k : Blackboard → GuardHook TaskResult) :
    (Hook.board >>= k).perform handler board w = (k board).perform handler board w := rfl

theorem perform_responding {left : Int64} (h : board.get? responseLeft = some (.int left)) :
    (responding.run a).perform handler board w =
      if left > 1 then .done (.ok .running, board.set responseLeft (.int (left - 1))) w
      else .done (.ok .success, board.erase responseLeft) w := by
  change (continueResponse a).perform handler board w = _
  simp only [continueResponse, perform_board_bind, h]
  split <;> rfl

end

/-! ## Guards in their trees -/

/-- No tree is ticking or poisoned, and the squad's board says whether there is an alarm. -/
structure Calm (o : Outlook) (raised : Bool) : Prop where
  idle : ∀ t, (o.trees t).running = false
  sound : ∀ t, (o.trees t).poisoned = false
  registry : Raises (o.registry squadRegistry) raised

/-- The two trees hold this of a guard. -/
structure Posted (o : Outlook) (g : Sentry) : Prop where
  standing : (o.state guardTree).standing = g.duty.standing
  board : (o.state guardTree).board = g.board
  patrolStanding : (o.state patrolTree).standing = g.duty.patrolStanding
  patrolBoard : (o.state patrolTree).board = g.duty.patrolBoard
  left : g.duty = .responding → g.board.get? responseLeft = some (.int 1)

theorem Calm.holding {o : Outlook} {raised : Bool} (h : Calm o raised) (t : TreeId)
    (s : Option AgentState) : Calm (o.holding t s) raised := by
  have halike := Outlook.alike_holding o t s
  exact ⟨fun u => (halike.running u).trans (h.idle u),
    fun u => (halike.poisoned u).trans (h.sound u), h.registry⟩

theorem Posted.congr {o o' : Outlook} {g : Sentry} (h : Posted o g)
    (hstate : ∀ t, o'.state t = o.state t) : Posted o' g := by
  refine ⟨?_, ?_, ?_, ?_, h.left⟩
  · rw [hstate]; exact h.standing
  · rw [hstate]; exact h.board
  · rw [hstate]; exact h.patrolStanding
  · rw [hstate]; exact h.patrolBoard

/-- Once its state is put back, a guard is posted as what the state says. -/
theorem posted_holding {o : Outlook} {s : AgentState} {g : Sentry}
    (hstanding : s.standing = g.duty.standing) (hboard : s.board = g.board)
    (hpatrol : (o.state patrolTree).standing = g.duty.patrolStanding)
    (hroute : (o.state patrolTree).board = g.duty.patrolBoard)
    (hleft : g.duty = .responding → g.board.get? responseLeft = some (.int 1)) :
    Posted (o.holding guardTree (some s)) g := by
  have hguard : (o.holding guardTree (some s)).state guardTree = s :=
    o.state_holding_self guardTree s
  have hother : (o.holding guardTree (some s)).state patrolTree = o.state patrolTree :=
    o.state_holding_of_ne (by decide) (some s)
  exact ⟨hguard ▸ hstanding, hguard ▸ hboard, hother ▸ hpatrol, hother ▸ hroute, hleft⟩

/-- How a guard is followed. -/
def following (a : GuardId) (others : TreeId → GuardId → Option AgentState) :
    Vantage GuardId (GuardId × Deed) := ⟨a, others, deed?⟩

/-- The first eight steps of a tick are within its limit. -/
theorem unexhausted {tick : Tick GuardId Watch}
    (hlimit : ∀ limit, tick.tree.config.effectiveLimit = some limit → 8 ≤ limit)
    {cursor spent : Nat} (hspent : spent ≤ 7) {resumed : Bool} {s : AgentState} :
    tick.exhausted ⟨cursor, resumed, spent, s⟩ = none :=
  Tick.exhausted_of_lt hlimit (Nat.lt_succ_of_le hspent)

/-! ## Ticks of the patrol tree -/

section

variable {routes : Nat → UInt32} {patrolConfig guardConfig : Config} {a : GuardId}
  {others : TreeId → GuardId → Option AgentState} {seen : List (GuardId × Deed)} {o : Outlook}
  {handler : Handler GuardId Watch}

/-- The tick of a guard in the patrol tree. -/
abbrev patrolTick (routes : Nat → UInt32) (patrolConfig guardConfig : Config) (a : GuardId) :
    Tick GuardId Watch :=
  (garrison routes patrolConfig guardConfig).tickOf patrolTree a

section

variable {Q : Progress → List (GuardId × Deed) → Outlook → Prop}
  (hlimit : ∀ limit, patrolConfig.effectiveLimit = some limit → 8 ≤ limit)
include hlimit

/-- A round of scanning. -/
theorem scan_comes (rounds : UInt32) (hmore : (if rounds + 1 > 2 then 7 else 6) = 6) {n spent : Nat}
    (hspent : spent ≤ 6) {s : AgentState} (hrounds : s.rounds 5 = rounds)
    (h : (following a others).Comes ((a, .ran "scan" (.ok .success)) :: seen) o
      ((patrolTick routes patrolConfig guardConfig a).walk handler n
        ⟨5, false, spent + 2, s.setRounds 5 (rounds + 1)⟩) Q) :
    (following a others).Comes seen o
      ((patrolTick routes patrolConfig guardConfig a).walk handler (n + 2)
        ⟨5, false, spent, s⟩) Q := by
  refine .walk_count rounds rfl (unexhausted hlimit (by omega)) hrounds hmore ?_
  exact .walk_action scanning s.board (k := 5) rfl
    (unexhausted hlimit (by omega)) ⟨rfl, rfl⟩ (fun _ => rfl) rfl h

/-- Once a patrol has been walked, two scans are left. -/
theorem scans_come {n spent : Nat} (hspent : spent ≤ 2) {s : AgentState}
    (h : ∀ s' : AgentState, s'.board = s.board → Q (.ended (.ok .success) s'.rewind)
      ((a, .ran "scan" (.ok .success)) :: (a, .ran "scan" (.ok .success)) :: seen) o) :
    (following a others).Comes seen o
      ((patrolTick routes patrolConfig guardConfig a).walk handler (n + 7)
        ⟨4, false, spent, s⟩) Q := by
  refine .walk_goto (i := ⟨.repeatStart 5, 5, 5⟩) rfl
    (unexhausted hlimit (by omega)) (fun _ => rfl) ?_
  refine scan_comes hlimit 0 rfl (by omega) (AgentState.rounds_setRounds _ _ _) ?_
  refine scan_comes hlimit 1 rfl (by omega) (AgentState.rounds_setRounds _ _ _) ?_
  refine .walk_count 2 (k := 7) rfl (unexhausted hlimit (by omega))
    (AgentState.rounds_setRounds _ _ _) rfl ?_
  exact .walk_end rfl (h _ rfl)

omit hlimit in
theorem get?_route (route : Route) :
    patrolProgram.get? route.index = some ⟨.task (strolling route), 4, 8⟩ := by
  cases route <;> rfl

/-- Setting out suspends the patrol. -/
theorem stroll_out_comes (route : Route) {n spent : Nat} (hspent : spent ≤ 6) {s : AgentState}
    (hboard : s.board = ∅)
    (h : Q (.ended (.ok .running) (AgentState.suspendAt
      { s with board := (∅ : Blackboard).set walking (.text route.name) } route.index))
      ((a, .ran (walkName route.name) (.ok .running)) :: seen) o) :
    (following a others).Comes seen o
      ((patrolTick routes patrolConfig guardConfig a).walk handler (n + 1)
        ⟨route.index, false, spent, s⟩) Q := by
  refine .walk_step (get?_route route) (unexhausted hlimit (by omega))
    (.dispatch_task (.visit_begin_none rfl (.visit_suspended ?_)))
  have hout : ∀ w, ((strolling route).run a).perform handler s.board w =
      .done (.ok .running, (∅ : Blackboard).set walking (.text route.name)) w := by
    intro w
    rw [hboard]
    exact perform_strolling_out handler a ∅ w route rfl
  exact (Vantage.Comes.pure (x := (.ok .running, (∅ : Blackboard).set walking (.text route.name)))
    ⟨rfl, h⟩).congr fun w _ => hout w

/-- Coming home, a guard forgets its route. -/
theorem stroll_home_comes (route : Route) {n spent : Nat} (hspent : spent ≤ 6) {s : AgentState}
    (hboard : s.board = (∅ : Blackboard).set walking (.text route.name))
    (h : (following a others).Comes ((a, .ran (walkName route.name) (.ok .success)) :: seen) o
      ((patrolTick routes patrolConfig guardConfig a).walk handler n
        ⟨4, false, spent + 1, { s with board := ∅ }⟩) Q) :
    (following a others).Comes seen o
      ((patrolTick routes patrolConfig guardConfig a).walk handler (n + 1)
        ⟨route.index, true, spent, s⟩) Q := by
  have hhome : ∀ w, ((strolling route).run a).perform handler s.board w =
      .done (.ok .success, ∅) w := by
    intro w
    rw [hboard, perform_strolling_home handler a _ w route (by simp [Table.contains]),
      Table.erase_set]
    rfl
  refine .walk_step (get?_route route) (unexhausted hlimit (by omega))
    (.dispatch_task (.visit_concluded .success rfl ?_))
  exact (Vantage.Comes.pure (x := (.ok .success, (∅ : Blackboard)))
    ⟨rfl, .endVisit rfl (.pure h)⟩).congr fun w _ => hhome w

/-- A tick of the patrol tree is as the duty of the guard says. -/
theorem patrol_ticks {d : Duty} (hd : d ≠ .responding) {s : AgentState}
    (hstanding : s.standing = d.patrolStanding) (hboard : s.board = d.patrolBoard) :
    (following a others).Comes seen o
      ((patrolTick routes patrolConfig guardConfig a).perform handler 9 s) fun result seen' o' =>
        ∃ answer did d', Patrolled d answer did d' ∧ result.1 = .ok answer ∧
          seen' = ranAll a did ++ seen ∧ o' = o ∧ result.2.standing = d'.patrolStanding ∧
          result.2.board = d'.patrolBoard := by
  obtain ⟨cursor, paused, board, counters⟩ := s
  obtain ⟨hcursor, hpaused⟩ := Prod.mk.inj hstanding
  cases hcursor
  cases hpaused
  cases hboard
  cases d with
  | responding => exact absurd rfl hd
  | ready =>
    refine .perform (Nat.zero_lt_succ 6) ?_
    refine .walk_step (i := ⟨.randomBranch [1, 1, 1, 2, 2, 2, 3], 4, 8⟩) rfl
      (unexhausted hlimit (Nat.zero_le 7)) (.dispatch_randomBranch fun target htarget => ?_)
    show (following a others).Comes seen o ((patrolTick routes patrolConfig guardConfig a).walk
      handler 8 ⟨target, false, 1, ⟨0, false, ∅, counters⟩⟩) _
    have hcases : target = Route.north.index ∨ target = Route.south.index ∨ target = 3 := by
      simpa [Route.index] using htarget
    rcases hcases with rfl | rfl | rfl
    · exact stroll_out_comes hlimit .north (by omega) rfl
        ⟨_, _, rfl, _, _, _, .setOut .north, rfl, rfl, rfl, rfl, rfl⟩
    · exact stroll_out_comes hlimit .south (by omega) rfl
        ⟨_, _, rfl, _, _, _, .setOut .south, rfl, rfl, rfl, rfl, rfl⟩
    · refine .walk_goto (i := ⟨.hangingSucceed, 4, 8⟩) rfl
        (unexhausted hlimit (by omega)) (fun _ => rfl) ?_
      exact scans_come hlimit (n := 0) (by omega) fun s' hs' =>
        ⟨_, _, rfl, _, _, _, .stayed, rfl, rfl, rfl, rfl, hs'⟩
  | walking route =>
    have hin : route.index < patrolProgram.length := by cases route <;> decide
    refine .perform hin ?_
    show (following a others).Comes seen o ((patrolTick routes patrolConfig guardConfig a).walk
      handler 9 ⟨route.index, true, 0, ⟨route.index, false, _, counters⟩⟩) _
    refine stroll_home_comes hlimit route (by omega) rfl ?_
    exact scans_come hlimit (n := 1) (by omega) fun s' hs' =>
      ⟨_, _, rfl, _, _, _, .arrived route, rfl, rfl, rfl, rfl, hs'⟩

end

/-- A run of the patrol tree is as the duty of the guard says. -/
theorem patrol_comes (hlimit : ∀ limit, patrolConfig.effectiveLimit = some limit → 8 ≤ limit)
    {d : Duty} (hd : d ≠ .responding) (hidle : (o.trees patrolTree).running = false)
    (hsound : (o.trees patrolTree).poisoned = false)
    (hstanding : (o.state patrolTree).standing = d.patrolStanding)
    (hboard : (o.state patrolTree).board = d.patrolBoard) :
    (following a others).Comes seen o
      ((garrison routes patrolConfig guardConfig).serve 10 (.run patrolTree a))
      fun result seen' o' =>
        ∃ answer did d' s, Patrolled d answer did d' ∧ result = .ok answer ∧
          seen' = ranAll a did ++ seen ∧ o' = o.holding patrolTree (some s) ∧
          s.standing = d'.patrolStanding ∧ s.board = d'.patrolBoard := by
  refine Vantage.Comes.run (F := garrison routes patrolConfig guardConfig) hidle hsound
    ((patrol_ticks hlimit hd hstanding hboard).imp ?_)
  rintro ⟨_, s⟩ _ _ ⟨answer, did, d', hpatrolled, rfl, rfl, rfl, hs, hs'⟩
  exact ⟨o, rfl, rfl, answer, did, d', s, hpatrolled, rfl, rfl, rfl, hs, hs'⟩

/-! ## Ticks of the guard tree -/

/-- The tick of a guard in the guard tree. -/
abbrev guardTick (routes : Nat → UInt32) (patrolConfig guardConfig : Config) (a : GuardId) :
    Tick GuardId Watch :=
  (garrison routes patrolConfig guardConfig).tickOf guardTree a

theorem shows_noted {w : World GuardId Watch} (h : (following a others).Shows seen o w) (n : Note) :
    (following a others).Shows seen o (w.log (.noted n)) :=
  h.event (World.turn_log h.outlook (.noted n))

/-- Beginning to respond leaves a note. -/
theorem beginResponse_comes (board : Blackboard)
    {Q : Unit × Blackboard → List (GuardId × Deed) → Outlook → Prop}
    (h : Q ((), board.set responseLeft (.int 2)) seen o) :
    (following a others).Comes seen o ((beginResponse 2 a).perform handler board) Q :=
  fun w hw => ⟨_, seen, o, w.log (.noted ⟨.info, guardSource, "responding to alarm",
    [("guard", toString a.toNat), ("round", toString w.ambient.round.toNat)]⟩), rfl, h,
    shows_noted hw _⟩

/-- A completed response clears the alarm. -/
theorem endResponse_comes {raised : Bool} (hraises : Raises (o.registry squadRegistry) raised)
    (board : Blackboard) {Q : Unit × Blackboard → List (GuardId × Deed) → Outlook → Prop}
    (h : ∀ r, Raises r false → Q ((), board) seen (o.setRegistry squadRegistry r)) :
    (following a others).Comes seen o ((endResponse a .success).perform handler board) Q := by
  intro w hw
  obtain ⟨before, r, hupdate, hr⟩ := hraises.update false
  have hset := hw.changed (World.turn_setRegistry hw.outlook squadRegistry r)
  refine ⟨((), board), seen, _, (w.setRegistry squadRegistry r).log (.noted ⟨.info, guardSource,
    "alarm cleared", [("guard", toString a.toNat), ("round", toString w.ambient.round.toNat)]⟩), ?_,
    h r hr, shows_noted hset _⟩
  have hanswer : (w.registry squadRegistry).answer (.update squad (setAlarm false)) =
      (.ok (some (.edited before)), r) := by
    rw [World.registry_of_outlook hw.outlook]
    exact hupdate
  change Hook.perform handler (.ask (.registry squadRegistry (.update squad (setAlarm false))) _)
    board w = _
  simp only [Hook.perform, Request.answer, hanswer]
  rfl

/-- What following a tick of the guard tree comes to: the guard has been ticked, and it is
posted as it was left. -/
def Concludes (a : GuardId) (seen : List (GuardId × Deed)) (o : Outlook) (raised : Bool)
    (g : Sentry) : Progress → List (GuardId × Deed) → Outlook → Prop :=
  fun p seen' o' => ∃ answer did g' raised' s o₁, Ticked raised g answer did g' raised' ∧
    p = .ended (.ok answer) s ∧ seen' = ranAll a did ++ seen ∧ o' = o₁.underway guardTree ∧
    o₁.trees guardTree = o.trees guardTree ∧ Calm o₁ raised' ∧
    Posted (o₁.holding guardTree (some s)) g'

section

variable {raised : Bool}
  (hpatrol : ∀ limit, patrolConfig.effectiveLimit = some limit → 8 ≤ limit)
  (hguard : ∀ limit, guardConfig.effectiveLimit = some limit → 8 ≤ limit)
include hpatrol hguard

/-- A guard that goes on patrol is suspended there or counts the patrol. -/
theorem link_comes {d : Duty} {board : Blackboard} (hcalm : Calm o raised) (hd : d ≠ .responding)
    (hstanding : (o.state patrolTree).standing = d.patrolStanding)
    (hroute : (o.state patrolTree).board = d.patrolBoard) {n spent : Nat} (hspent : spent ≤ 6)
    {resumed : Bool} {s : AgentState} (hboard : s.board = board)
    (hout : ∀ did route, Patrolled d .running did (.walking route) →
      Ticked raised ⟨d, board⟩ .running did ⟨.walking route, board⟩ raised)
    (hhome : ∀ did, Patrolled d .success did .ready →
      Ticked raised ⟨d, board⟩ .success (("tally", .success) :: did) ⟨.ready, tallied board⟩
        raised) :
    (following a others).Comes seen (o.underway guardTree)
      ((guardTick routes patrolConfig guardConfig a).walk
        ((garrison routes patrolConfig guardConfig).serve 10) (n + 3) ⟨4, resumed, spent, s⟩)
      (Concludes a seen o raised ⟨d, board⟩) := by
  have hother : (o.underway guardTree).trees patrolTree = o.trees patrolTree :=
    o.trees_underway_of_ne (by decide)
  have hstate : (o.underway guardTree).state patrolTree = o.state patrolTree := by
    rw [Outlook.state, Outlook.state, hother]
  refine .walk_step (i := ⟨.subTree ⟨patrolTree, 7⟩, 5, 7⟩) rfl
    (unexhausted hguard (by omega)) (.dispatch_subTree ?_)
  refine (patrol_comes (d := d) hpatrol hd (by rw [hother]; exact hcalm.idle _)
    (by rw [hother]; exact hcalm.sound _) (by rw [hstate]; exact hstanding)
    (by rw [hstate]; exact hroute)).imp ?_
  rintro _ _ _ ⟨answer, did, d', sp, hpatrolled, rfl, rfl, rfl, hsp, hsp'⟩
  refine ⟨answer, rfl, ?_⟩
  rw [o.holding_underway (by decide)]
  have hkept : (o.holding patrolTree (some sp)).trees guardTree = o.trees guardTree :=
    o.trees_holding_of_ne (by decide) _
  have hstate' : (o.holding patrolTree (some sp)).state patrolTree = sp :=
    o.state_holding_self patrolTree sp
  cases hpatrolled with
  | setOut route =>
    exact ⟨_, _, _, _, _, _, hout _ route (.setOut route), rfl, rfl, rfl, hkept, hcalm.holding _ _,
      posted_holding rfl hboard (hstate' ▸ hsp) (hstate' ▸ hsp') (by simp)⟩
  | stayed | arrived =>
    refine .walk_action tallying (tallied board) (k := 6) rfl
      (unexhausted hguard (Nat.succ_le_succ hspent)) ⟨rfl, rfl⟩ (fun w => ?_) rfl
      (.walk_end rfl ⟨_, _, _, _, _, _, hhome _ ?_, rfl, rfl, rfl, hkept, hcalm.holding _ _,
        posted_holding rfl rfl (hstate' ▸ hsp) (hstate' ▸ hsp') (by simp)⟩)
    · rw [hboard]
      exact perform_tallying _ a board w
    · constructor

omit hpatrol in
/-- A guard that hears the alarm responds. -/
theorem alarmed_comes {board : Blackboard} (hcalm : Calm o true)
    (hroute : (o.state patrolTree).standing = (0, false))
    (hpatrolBoard : (o.state patrolTree).board = ∅)
    {handler : Handler GuardId Watch} {n : Nat} {s : AgentState} (hboard : s.board = board) :
    (following a others).Comes seen (o.underway guardTree)
      ((guardTick routes patrolConfig guardConfig a).walk handler (n + 1) ⟨1, false, 1, s⟩)
      (Concludes a seen o true ⟨.ready, board⟩) := by
  refine .walk_step (i := ⟨.task responding, 6, 2⟩) rfl (unexhausted hguard (by omega))
    (.dispatch_task (.visit_begin (.beginVisit rfl (beginResponse_comes _ (.visit_suspended ?_)))))
  have hrun : ∀ w, (responding.run a).perform handler (s.board.set responseLeft (.int 2)) w =
      .done (.ok .running, (board.set responseLeft (.int 2)).set responseLeft (.int 1)) w := by
    intro w
    rw [hboard, perform_responding handler a _ w (Table.get?_set_self _ _ _)]
    rfl
  refine (Vantage.Comes.pure (x := (.ok .running,
    (board.set responseLeft (.int 2)).set responseLeft (.int 1))) ⟨rfl, ?_⟩).congr fun w _ => hrun w
  exact ⟨_, _, _, _, _, _, .alarmed board, rfl, rfl, rfl, rfl, hcalm,
    posted_holding rfl rfl hroute hpatrolBoard fun _ => Table.get?_set_self _ _ _⟩

omit hpatrol in
/-- A guard that has responded stands down. -/
theorem stoodDown_comes {board : Blackboard} (hcalm : Calm o raised)
    (hroute : (o.state patrolTree).standing = (0, false))
    (hpatrolBoard : (o.state patrolTree).board = ∅)
    {handler : Handler GuardId Watch} {n : Nat} {s : AgentState} (hboard : s.board = board)
    (hleft : board.get? responseLeft = some (.int 1)) :
    (following a others).Comes seen (o.underway guardTree)
      ((guardTick routes patrolConfig guardConfig a).walk handler (n + 2) ⟨1, true, 0, s⟩)
      (Concludes a seen o raised ⟨.responding, board⟩) := by
  refine .walk_step (i := ⟨.task responding, 6, 2⟩) rfl (unexhausted hguard (by omega))
    (.dispatch_task (.visit_concluded .success rfl ?_))
  have hrun : ∀ w, (responding.run a).perform handler s.board w =
      .done (.ok .success, board.erase responseLeft) w := by
    intro w
    rw [hboard, perform_responding handler a _ w hleft]
    rfl
  refine (Vantage.Comes.pure (x := (.ok .success, board.erase responseLeft)) ⟨rfl,
    .endVisit rfl (endResponse_comes (o := o.underway guardTree) hcalm.registry _
      fun r hr => ?_)⟩).congr fun w _ => hrun w
  have hcleared : Calm (o.setRegistry squadRegistry r) false :=
    ⟨hcalm.idle, hcalm.sound, by rw [Outlook.registry_setRegistry]; exact hr⟩
  exact .walk_end rfl ⟨_, _, _, _, _, o.setRegistry squadRegistry r, .stoodDown raised board, rfl,
    rfl, rfl, rfl, hcleared, posted_holding rfl rfl hroute hpatrolBoard nofun⟩

/-- A tick of the guard tree is as the duty of the guard, its board and the alarm say. -/
theorem guard_ticks {g : Sentry} (hcalm : Calm o raised) (hposted : Posted o g) :
    (following a others).Comes seen (o.underway guardTree)
      ((guardTick routes patrolConfig guardConfig a).walk
        ((garrison routes patrolConfig guardConfig).serve 10) 10 (.begin (o.state guardTree)))
      (Concludes a seen o raised g) := by
  obtain ⟨duty, board⟩ := g
  obtain ⟨hstanding, hboard, hroute, hpatrolBoard, hleft⟩ := hposted
  generalize o.state guardTree = s at hstanding hboard
  obtain ⟨cursor, paused, board', counters⟩ := s
  obtain ⟨hcursor, hpaused⟩ := Prod.mk.inj hstanding
  cases hcursor
  cases hpaused
  cases hboard
  cases duty with
  | responding =>
    exact stoodDown_comes hguard hcalm hroute hpatrolBoard (n := 8) rfl (hleft rfl)
  | walking route =>
    exact link_comes hpatrol hguard hcalm (d := .walking route) nofun hroute hpatrolBoard (n := 7)
      (by omega) rfl nofun fun did hdid => by cases hdid; exact .arrived raised route board
  | ready =>
    refine .walk_step (i := ⟨.query (.ofWords squad alarm "true"), 1, 2⟩) rfl
      (unexhausted hguard (Nat.zero_le 7))
      (.dispatch_query (hcalm.registry.find board) ?_)
    cases raised with
    | true => exact alarmed_comes hguard hcalm hroute hpatrolBoard (n := 8) rfl
    | false =>
      show (following a others).Comes seen (o.underway guardTree)
        ((guardTick routes patrolConfig guardConfig a).walk _ 9
          ⟨2, false, 1, ⟨0, false, board, counters⟩⟩) _
      refine .walk_step (i := ⟨.query (.ofWords "self" tired "true"), 3, 4⟩) rfl
        (unexhausted hguard (by omega)) (.dispatch_query (find_tired board _) ?_)
      by_cases htired : board.get? tired = some (.bool true)
      · rw [decide_eq_true htired]
        refine .walk_action resting (board.set tired (.bool false)) (k := 6) rfl
          (unexhausted hguard (Nat.le_add_left 2 5)) ⟨rfl, rfl⟩ (fun _ => rfl) rfl
          (.walk_end rfl ?_)
        exact ⟨_, _, _, _, _, _, .rested htired, rfl, rfl, rfl, rfl, hcalm,
          posted_holding rfl rfl hroute hpatrolBoard nofun⟩
      · rw [decide_eq_false htired]
        exact link_comes hpatrol hguard hcalm (d := .ready) nofun hroute hpatrolBoard (n := 5)
          (by simp only; omega) rfl
          (fun did route hdid => by cases hdid; exact .setOut route htired)
          fun did hdid => by cases hdid; exact .stayed htired

/-- A tick of a guard is as its duty, its board and the alarm say, and it is posted anew. -/
theorem tick_comes {g : Sentry} (hcalm : Calm o raised) (hposted : Posted o g) :
    (following a others).Comes seen o
      ((garrison routes patrolConfig guardConfig).serve 11 (.run guardTree a))
      fun result seen' o' =>
        ∃ answer did g' raised', Ticked raised g answer did g' raised' ∧ result = .ok answer ∧
          seen' = deedsOf a answer did ++ seen ∧ Calm o' raised' ∧ Posted o' g' := by
  have hcursor : (o.state guardTree).cursor < guardProgram.length := by
    have hstands : (o.state guardTree).cursor = g.duty.standing.1 :=
      congrArg Prod.fst hposted.standing
    rw [hstands]
    exact g.duty.standing_lt
  refine Vantage.Comes.run (F := garrison routes patrolConfig guardConfig) (hcalm.idle guardTree)
    (hcalm.sound guardTree) (.perform hcursor ((guard_ticks hpatrol hguard hcalm hposted).imp ?_))
  rintro _ _ _ ⟨answer, did, g', raised', s, o₁, hticked, rfl, rfl, rfl, hkept, hcalm', hposted'⟩
  exact ⟨_, s, rfl, o₁, rfl, hkept, answer, did, g', raised', hticked, rfl, rfl,
    hcalm'.holding _ _, hposted'⟩

end

/-! ## Aborts -/

theorem agent_of_paused {t : TreeId} (h : (o.state t).paused = true) :
    (o.trees t).agent = some (o.state t) := by
  rw [Outlook.state] at h ⊢
  cases hagent : (o.trees t).agent with
  | some s => rfl
  | none => simp [hagent] at h

/-- A walk that is aborted is forgotten. -/
theorem walk_aborted {route : Route} (hsound : (o.trees patrolTree).poisoned = false)
    (hstanding : (o.state patrolTree).standing = (route.index, true))
    (hboard : (o.state patrolTree).board = (∅ : Blackboard).set walking (.text route.name)) :
    (following a others).Comes seen o
      ((garrison routes patrolConfig guardConfig).serve 1 (.abort patrolTree a)) fun _ seen' o' =>
        seen' = seen ∧ ∃ s, o' = o.holding patrolTree (some s) ∧ s.standing = (0, false) ∧
          s.board = ∅ := by
  obtain ⟨hcursor, hpaused⟩ := Prod.mk.inj hstanding
  have hawaited : ((garrison routes patrolConfig guardConfig).tree patrolTree).awaited
      (o.state patrolTree) = some (.task (strolling route)) := by
    refine Tree.awaited_paused (i := ⟨.task (strolling route), 4, 8⟩) hpaused ?_
    rw [hcursor]
    exact get?_route route
  refine Vantage.Comes.abort (F := garrison routes patrolConfig guardConfig) hsound
    (agent_of_paused hpaused) (.cancel_task hawaited (.endVisit rfl (.pure ⟨?_, rfl, _,
      Outlook.holding_holding _ _ _ _, rfl, ?_⟩)))
  · simpa [Outlook.holding, Outlook.trees_modify] using hsound
  · show (o.state patrolTree).board.erase walking = ∅
    rw [hboard, Table.erase_set]
    rfl

/-- A guard that is aborted is made ready. -/
theorem abort_comes {raised : Bool} {g : Sentry} (hcalm : Calm o raised) (hposted : Posted o g) :
    (following a others).Comes seen o
      ((garrison routes patrolConfig guardConfig).serve 2 (.abort guardTree a)) fun _ seen' o' =>
        seen' = seen ∧ Calm o' raised ∧ Posted o' g.aborted := by
  obtain ⟨duty, board⟩ := g
  obtain ⟨hstanding, hboard, hroute, hpatrolBoard, hleft⟩ := hposted
  obtain ⟨hcursor, hpaused⟩ := Prod.mk.inj hstanding
  have hout : Calm (o.holding guardTree none) raised := hcalm.holding _ _
  have hother : (o.holding guardTree none).state patrolTree = o.state patrolTree :=
    o.state_holding_of_ne (by decide) none
  cases duty with
  | ready =>
    cases hagent : (o.trees guardTree).agent with
    | none =>
      exact .abort_absent (hcalm.sound _) hagent
        ⟨rfl, hcalm, hstanding, hboard, hroute, hpatrolBoard, (by rintro ⟨⟩)⟩
    | some s =>
      have hs : o.state guardTree = s := by rw [Outlook.state, hagent]; rfl
      rw [hs] at hpaused hboard
      refine Vantage.Comes.abort (F := garrison routes patrolConfig guardConfig) (hcalm.sound _)
        hagent (.cancel_unpaused hpaused ⟨hout.sound _, rfl, hout.holding _ _,
          posted_holding rfl hboard ?_ ?_ (by rintro ⟨⟩)⟩)
      · exact hother ▸ hroute
      · exact hother ▸ hpatrolBoard
  | responding =>
    have hawaited : ((garrison routes patrolConfig guardConfig).tree guardTree).awaited
        (o.state guardTree) = some (.task responding) := by
      refine Tree.awaited_paused (i := ⟨.task responding, 6, 2⟩) hpaused ?_
      rw [hcursor]
      rfl
    refine Vantage.Comes.abort (F := garrison routes patrolConfig guardConfig) (hcalm.sound _)
      (agent_of_paused hpaused) (.cancel_task hawaited (.endVisit rfl (.pure ⟨hout.sound _, rfl,
        hout.holding _ _, posted_holding rfl ?_ ?_ ?_ (by rintro ⟨⟩)⟩)))
    · exact congrArg (fun b : Blackboard => b.erase responseLeft) hboard
    · exact hother ▸ hroute
    · exact hother ▸ hpatrolBoard
  | walking route =>
    have hawaited : ((garrison routes patrolConfig guardConfig).tree guardTree).awaited
        (o.state guardTree) = some (.subTree ⟨patrolTree, 7⟩) := by
      refine Tree.awaited_paused (i := ⟨.subTree ⟨patrolTree, 7⟩, 5, 7⟩) hpaused ?_
      rw [hcursor]
      rfl
    refine Vantage.Comes.abort (F := garrison routes patrolConfig guardConfig) (hcalm.sound _)
      (agent_of_paused hpaused) (.cancel_subTree hawaited ((walk_aborted (hout.sound _)
        (hother ▸ hroute) (hother ▸ hpatrolBoard)).imp ?_))
    rintro _ _ _ ⟨rfl, s, rfl, hs, hs'⟩
    have hcalm' := hout.holding patrolTree (some s)
    exact ⟨hcalm'.sound _, rfl, hcalm'.holding _ _, posted_holding rfl hboard
      (by rw [Outlook.state_holding_self]; exact hs) (by rw [Outlook.state_holding_self]; exact hs')
      (by rintro ⟨⟩)⟩

end

end Patrol

end TickTree
