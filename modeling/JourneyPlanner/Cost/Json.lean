import JourneyPlanner.Cost.Weights
import JourneyPlanner.Json.Decode
/-!
# Cost weights in JSON

Every weight may be missing and has its usual value then. A linear cost must have both its parts.
-/
namespace JourneyPlanner

open Json

def LinearCost.ofJson? (v : Value) : Option LinearCost := do
  match ← v.fields? ["constant", "coefficient"] with
  | [some constant, some coefficient] => return ⟨← constant.int32?, ← coefficient.float?⟩
  | _ => none

def AccessibilityWeights.ofJson? (v : Value) : Option AccessibilityWeights := do
  let usual := CostWeights.standard.accessibility
  match ← v.fields? ["enabled", "only_accessible", "unknown_cost", "inaccessible_cost"] with
  | [enabled, onlyAccessible, unknownCost, inaccessibleCost] =>
    return {
      enabled := ← Value.orDefault Value.bool? usual.enabled enabled
      onlyAccessible := ← Value.orDefault Value.bool? usual.onlyAccessible onlyAccessible
      unknownCost := ← Value.orDefault Value.int32? usual.unknownCost unknownCost
      inaccessibleCost := ← Value.orDefault Value.int32? usual.inaccessibleCost inaccessibleCost }
  | _ => none

def RouteId.ofJson? (v : Value) : Option RouteId :=
  v.text?.bind fun s => (RouteId.ofString s).toOption

def CostWeights.ofJson? (v : Value) : Option CostWeights := do
  let usual := CostWeights.standard
  match ← v.fields? ["board_cost", "transfer_cost", "transfer_cost_per_km", "wait_reluctance",
    "transit_reluctance", "unpreferred_routes", "unpreferred_cost", "accessibility"] with
  | [board, transfer, transferPerKm, waitReluctance, transitReluctance, unpreferredRoutes,
      unpreferred, accessibility] =>
    return {
      board := ← Value.orDefault Value.int32? usual.board board
      transfer := ← Value.orDefault Value.int32? usual.transfer transfer
      transferPerKm := ← Value.orDefault Value.float? usual.transferPerKm transferPerKm
      waitReluctance := ← Value.orDefault Value.float? usual.waitReluctance waitReluctance
      transitReluctance := ←
        Value.orDefault (Value.list? Value.float?) usual.transitReluctance transitReluctance
      unpreferredRoutes := ←
        Value.orDefault (Value.list? RouteId.ofJson?) usual.unpreferredRoutes unpreferredRoutes
      unpreferred := ← Value.orDefault LinearCost.ofJson? usual.unpreferred unpreferred
      accessibility := ←
        Value.orDefault AccessibilityWeights.ofJson? usual.accessibility accessibility }
  | _ => none

end JourneyPlanner
