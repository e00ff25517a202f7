import TickTree.Patrol.Simulation

/-!
# The command line

Reads the settings from the environment, plays the simulation and writes what
there is to hear of it.
-/

/-- Plays the simulation the environment asks for. -/
def main : IO UInt32 := do
  let found ← TickTree.Patrol.Settings.variableNames.filterMapM fun name => do
    return (← IO.getEnv name).map fun text => (name, text)
  let report := TickTree.Patrol.simulate (.ofVariables fun name => found.lookup name)
  let stderr ← IO.getStderr
  for line in report.lines do
    stderr.putStrLn line
  return report.exitCode
