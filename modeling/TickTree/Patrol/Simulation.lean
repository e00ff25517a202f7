import TickTree.Notice
import TickTree.Operation
import TickTree.Patrol.Guard
import TickTree.Patrol.Settings
import TickTree.Text.Column

/-!
# Simulations

A squad of guards is ticked once a round for a fixed number of rounds. In some
rounds the alarm is raised first: the squad's board says so, and every guard is
aborted out of whatever it was doing. The results of all ticks are tallied. A
tick that fails ends the simulation.

What a watcher hears of a simulation follows from its journal.
-/

namespace TickTree.Patrol

/-! ## The trees -/

/-- The place of the patrol tree. -/
def patrolTree : TreeId := 0

/-- The place of the guard tree. -/
def guardTree : TreeId := 1

/-- The two trees, each with settings of its own: patrols, whose routes are drawn
from a given stream, and guards that read the squad's registry. -/
def forestOn (routes : Nat → UInt32) (patrolConfig guardConfig : Config) :
    Except CompileError (Forest GuardId Watch) := do
  let patrolProgram ← compile patrol
  let guardProgram ← compile (guard ⟨patrolTree, patrolProgram.length⟩)
  return ⟨[
    { program := patrolProgram, config := patrolConfig, words := routes },
    { program := guardProgram, config := guardConfig, registry := some squadRegistry }]⟩

/-- The two trees, the routes drawn from the stream of the patrols' seed. -/
def forest (patrolConfig guardConfig : Config) : Except CompileError (Forest GuardId Watch) :=
  forestOn (Random.streamOf patrolConfig.seed) patrolConfig guardConfig

/-! ## Rounds -/

/-- How many ticks had which status. -/
structure Tally where
  /-- Ticks that succeeded. -/
  succeeded : Nat := 0
  /-- Ticks that failed. -/
  failed : Nat := 0
  /-- Ticks that were suspended. -/
  running : Nat := 0
deriving DecidableEq, Repr, Inhabited

/-- One more tick. -/
def Tally.record (t : Tally) : Status → Tally
  | .success => { t with succeeded := t.succeeded + 1 }
  | .failure => { t with failed := t.failed + 1 }
  | .running => { t with running := t.running + 1 }

/-- The part of the program that simulations report from. -/
def simulationSource : String := "bt_sim"

/-- A simulation under way. -/
structure Simulation where
  /-- The state of trees and boards. -/
  world : World GuardId Watch
  /-- The ticks so far. -/
  tally : Tally := {}

/-- Why a simulation ended before its last round. -/
inductive Breakdown where
  /-- Something failed while something was being done. -/
  | failed (context : String) (cause : RunError)
  /-- A tick did not end within its bound. -/
  | unended
deriving DecidableEq

/-- What was being done. -/
def Breakdown.context : Breakdown → String
  | .failed context _ => context
  | .unended => "a tick did not end"

/-- What went wrong, the outermost cause first. -/
def Breakdown.causes : Breakdown → List String
  | .failed _ cause => cause.chain
  | .unended => []

namespace Simulation

/-- The simulation after a note. -/
def note (s : Simulation) (message : String) (fields : List (String × String)) : Simulation :=
  { s with world := s.world.log (.noted ⟨.info, simulationSource, message, fields⟩) }

/-- Aborts so many guards, in the order of their numbers from the first on. -/
def abortAll (F : Forest GuardId Watch) :
    (guards first : Nat) → World GuardId Watch → Outcome (World GuardId Watch) Unit
  | 0, _, w => .done () w
  | guards + 1, first, w =>
      (F.operate (.abort guardTree (UInt32.ofNat first)) w).bind fun () w =>
        abortAll F guards (first + 1) w

/-- Raises the alarm and aborts all guards. -/
def raiseAlarm (F : Forest GuardId Watch) (guards round : Nat) (s : Simulation) :
    Simulation × Option Breakdown :=
  match (s.world.registry squadRegistry).update squad (setAlarm true) with
  | (.error e, _) => (s, some (.failed "failed to raise alarm" e))
  | (.ok _, registry) =>
      match abortAll F guards 0 (s.world.setRegistry squadRegistry registry) with
      | .done () world =>
          ({ s with world := world }.note "alarm raised" [("round", toString round)], none)
      | .cutOff world => ({ s with world := world }, some .unended)

/-- Ticks so many guards, in the order of their numbers from the first on, until a
tick fails. -/
def tickAll (F : Forest GuardId Watch) (round : Nat) :
    (guards first : Nat) → Simulation → Simulation × Option Breakdown
  | 0, _, s => (s, none)
  | guards + 1, first, s =>
      match F.operate (.run guardTree (UInt32.ofNat first)) s.world with
      | .done (.ok status) world =>
          tickAll F round guards (first + 1) ⟨world, s.tally.record status⟩
      | .done (.error e) world =>
          ({ s with world := world },
            some (.failed ("guard " ++ toString first ++ " failed in round " ++ toString round) e))
      | .cutOff world => ({ s with world := world }, some .unended)

/-- One round. -/
def playRound (F : Forest GuardId Watch) (settings : Settings) (round : Nat) (s : Simulation) :
    Simulation × Option Breakdown :=
  let guards := settings.agents.toNat
  let s := { s with world := { s.world with ambient := ⟨UInt32.ofNat round⟩ } }
  let (s, breakdown) :=
    if settings.alarmAt round then raiseAlarm F guards round s else (s, none)
  match breakdown with
  | some b => (s, some b)
  | none => tickAll F round guards 0 s

/-- So many rounds, the first of them numbered. -/
def playRounds (F : Forest GuardId Watch) (settings : Settings) :
    (rounds first : Nat) → Simulation → Simulation × Option Breakdown
  | 0, _, s => (s, none)
  | rounds + 1, first, s =>
      match playRound F settings first s with
      | (s, some b) => (s, some b)
      | (s, none) => playRounds F settings rounds (first + 1) s

/-- Before the first round: the squad's board says that there is no alarm. -/
def begin : Simulation :=
  let boards := (∅ : Table String Blackboard).set squad ((∅ : Blackboard).set alarm (.bool false))
  { world := { registries := (∅ : Table RegistryId Registry).set squadRegistry ⟨boards, false⟩
               ambient := ⟨0⟩ } }

/-- All rounds in the two trees. -/
def play (F : Forest GuardId Watch) (settings : Settings) (s : Simulation) :
    Simulation × Option Breakdown :=
  playRounds F settings settings.ticks.toNat 0 s

end Simulation

/-! ## Reports -/

/-- The causes of a failure, numbered if there are several. -/
def causeLines : List String → List String
  | [cause] => ["    " ++ cause]
  | causes => causes.zipIdx.map fun entry => Text.padLeft 5 (toString entry.2) ++ ": " ++ entry.1

/-- The report on a failure in a context. -/
def failureLines (context : String) (causes : List String) : List String :=
  ["Error: " ++ context, "", "Caused by:"] ++ causeLines causes

/-- What a simulation leaves a watcher with. -/
structure Report where
  /-- The lines, first to last. -/
  lines : List String
  /-- The exit code. -/
  exitCode : UInt32
deriving DecidableEq

/-- The lines of a simulation's journal. -/
def Simulation.lines (s : Simulation) : List String :=
  s.world.history.filterMap fun event => event.note?.map Note.line

/-- Plays a whole simulation whose routes are drawn from a given stream. -/
def simulateOn (routes : Nat → UInt32) (settings : Settings) : Report :=
  let s := Simulation.begin.note "starting simulation" [("config", settings.text)]
  match forestOn routes settings.tree settings.tree with
  | .error e => ⟨s.lines ++ failureLines "failed to compile the trees" [e.message], 1⟩
  | .ok F =>
      match s.play F settings with
      | (s, some b) => ⟨s.lines ++ failureLines b.context b.causes, 1⟩
      | (s, none) =>
          let s := s.note "simulation finished"
            [("rounds", toString settings.ticks.toNat), ("guards", toString settings.agents.toNat),
              ("succeeded", toString s.tally.succeeded), ("failed", toString s.tally.failed),
              ("running", toString s.tally.running)]
          ⟨s.lines, 0⟩

/-- Plays the simulation of settings. -/
def simulate (settings : Settings) : Report := simulateOn (Random.streamOf settings.seed) settings

end TickTree.Patrol
