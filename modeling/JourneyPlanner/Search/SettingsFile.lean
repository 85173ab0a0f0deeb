import JourneyPlanner.Search.Settings
import JourneyPlanner.Json.Decode
/-!
# Settings files

A settings file holds the settings in JSON. Every setting may be missing and has its usual value then.
-/
namespace JourneyPlanner

open Json

/-- Why a settings file gives no settings. -/
inductive SettingsFileError where
  /-- The file cannot be read as text. -/
  | unreadable
  /-- The text is not JSON, or not the JSON of settings. -/
  | malformed
  | invalid (error : SettingsError)
  deriving DecidableEq, Repr

def SettingsFileError.message : SettingsFileError → String
  | .unreadable => "failed to read config"
  | .malformed => "failed to parse config"
  | .invalid e => e.message

def Profile.names : List (String × Profile) :=
  [("standard", .standard), ("multi_criteria", .multiCriteria)]

def ChangePolicy.names : List (String × ChangePolicy) :=
  [("none", .asFound), ("wait_time", .waitTime), ("transfer_priority", .transferPriority)]

namespace Settings

def ofJson? (v : Value) : Option Settings := do
  let usual := Settings.standard
  match ← v.fields? ["max_transfers", "search_window_secs", "iteration_step_secs",
    "board_slack_secs", "transfer_slack_secs", "max_frontier_size", "timeout_ms", "profile",
    "transfer_optimization", "inverse_wait_reluctance"] with
  | [maxTransfers, window, step, boardSlack, transferSlack, frontierSize, timeout, profile, changes,
      inverseWaitReluctance] =>
    return {
      maxTransfers := ← Value.orDefault Value.nat64? usual.maxTransfers maxTransfers
      window := ← Value.orDefault Value.int32? usual.window window
      step := ← Value.orDefault Value.int32? usual.step step
      boardSlack := ← Value.orDefault Value.int32? usual.boardSlack boardSlack
      transferSlack := ← Value.orDefault Value.int32? usual.transferSlack transferSlack
      frontierSize := ← Value.orDefault Value.nat64? usual.frontierSize frontierSize
      timeout := ← Value.orDefault (Value.orNull Value.nat64?) usual.timeout timeout
      profile := ← Value.orDefault (Value.oneOf? Profile.names) usual.profile profile
      changes := ← Value.orDefault (Value.oneOf? ChangePolicy.names) usual.changes changes
      inverseWaitReluctance := ←
        Value.orDefault Value.float? usual.inverseWaitReluctance inverseWaitReluctance }
  | _ => none

def ofText (s : String) : Except SettingsFileError Settings :=
  match (Value.ofText? s).bind ofJson? with
  | none => .error .malformed
  | some settings => (settings.check.mapError .invalid).map fun _ => settings

def ofBytes (bytes : ByteArray) : Except SettingsFileError Settings :=
  match String.fromUTF8? bytes with
  | none => .error .unreadable
  | some s => ofText s

end Settings

end JourneyPlanner
