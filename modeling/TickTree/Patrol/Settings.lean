import TickTree.Config

/-!
# Settings of a simulation

The settings are read from named variables. A variable that is missing, or whose
text is not a number in range, leaves the setting at its default.
-/

namespace TickTree.Patrol

/-- Settings of a simulation. -/
structure Settings where
  /-- How many guards there are. -/
  agents : UInt32 := 4
  /-- How many rounds there are. -/
  ticks : UInt32 := 24
  /-- The seed of the choice of routes. -/
  seed : Option UInt64 := none
  /-- The most instructions one tick may dispatch. -/
  stepLimit : Option Nat := some 1024
  /-- After how many rounds the alarm is raised again; zero never raises it. -/
  alarmEvery : UInt32 := 9
deriving DecidableEq, Repr, Inhabited

/-! ## Reading -/

/-- The value of a text of decimal digits, at least one. -/
def digitsValue? : List Char → Option Nat
  | [] => none
  | cs =>
      if cs.all Char.isDigit then some (cs.foldl (fun n c => n * 10 + (c.toNat - '0'.toNat)) 0)
      else none

/-- The number a text stands for, if it is below a bound: digits, after at most
one plus sign. -/
def numberBelow? (bound : Nat) (text : String) : Option Nat :=
  (digitsValue? (match text.toList with | '+' :: cs => cs | cs => cs)).filter (· < bound)

example : numberBelow? 10 "+7" = some 7 := by decide

example : [numberBelow? 10 "10", numberBelow? 10 "+", numberBelow? 10 " 7"] =
    [none, none, none] := by decide

namespace Settings

/-- The variables that are read. -/
def variableNames : List String :=
  ["BT_SIM_AGENTS", "BT_SIM_TICKS", "BT_SIM_SEED", "BT_SIM_STEP_LIMIT", "BT_SIM_ALARM_EVERY"]

/-- The settings that variables give. -/
def ofVariables (find : String → Option String) : Settings :=
  let number (bound : Nat) (name : String) : Option Nat :=
    (find name).bind (numberBelow? bound)
  let default : Settings := {}
  { agents := (number UInt32.size "BT_SIM_AGENTS").elim default.agents fun n =>
      UInt32.ofNat (max n 1)
    ticks := (number UInt32.size "BT_SIM_TICKS").elim default.ticks UInt32.ofNat
    seed := (number UInt64.size "BT_SIM_SEED").map UInt64.ofNat
    stepLimit := (number UInt64.size "BT_SIM_STEP_LIMIT").elim default.stepLimit fun n =>
      if n = 0 then none else some n
    alarmEvery := (number UInt32.size "BT_SIM_ALARM_EVERY").elim default.alarmEvery UInt32.ofNat }

/-- The settings of every tree of the simulation. -/
def tree (s : Settings) : Config := ⟨s.seed, s.stepLimit⟩

/-- Whether the alarm is raised at the start of a round. -/
def alarmAt (s : Settings) (round : Nat) : Bool :=
  0 < s.alarmEvery.toNat && 0 < round && round % s.alarmEvery.toNat = 0

/-- The settings as a record. -/
def text (s : Settings) : String :=
  Text.record "SimConfig"
    [("agents", toString s.agents.toNat), ("ticks", toString s.ticks.toNat),
      ("seed", Text.optional (s.seed.map fun n => toString n.toNat)),
      ("step_limit", Text.optional (s.stepLimit.map fun n => toString n)),
      ("alarm_every", toString s.alarmEvery.toNat)]

end Settings

example : (Settings.ofVariables fun _ => none).alarmAt 0 = false := by decide

example : (Settings.ofVariables fun _ => none).alarmAt 18 = true := by decide

end TickTree.Patrol
