import JourneyPlanner.Demo.Report
import JourneyPlanner.Search.SettingsFile
/-!
# The demonstration program

Prints the report on the grid. The variable `RAPTOR_CONFIG` may name a settings file; a file that
gives no settings leaves the usual ones.
-/
namespace JourneyPlanner.Demo

/-- The settings of a file, or the usual ones. -/
def readSettings (path : String) : IO Settings := do
  try
    let bytes ← IO.FS.readBinFile path
    return (Settings.ofBytes bytes).toOption.getD .standard
  catch _ => return .standard

end JourneyPlanner.Demo

/-- The program. -/
def main : IO Unit := do
  let settings ←
    match ← IO.getEnv "RAPTOR_CONFIG" with
    | some path => JourneyPlanner.Demo.readSettings path
    | none => pure .standard
  for line in JourneyPlanner.Demo.gridReport settings do
    IO.println line
