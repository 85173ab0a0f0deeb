import JourneyPlanner.DataError
/-!
# Street transfers

A `Transfer` leads from a stop, which keeps it, to another stop on foot.
-/
namespace JourneyPlanner

/-- A way along the street to the stop `target`. -/
structure Transfer where
  target : Stop
  duration : Int
  cost : Int
  /-- The length of the way in metres, where it is known. -/
  metres : Option Nat
  duration_nonneg : 0 ≤ duration
  cost_nonneg : 0 ≤ cost
  deriving DecidableEq, Repr

/-- A transfer of unknown length. -/
def Transfer.to (target : Stop) (duration cost : Int) : Except DataError Transfer :=
  if hd : 0 ≤ duration then
    if hc : 0 ≤ cost then .ok ⟨target, duration, cost, none, hd, hc⟩
    else .error (.negative .transferCost)
  else .error (.negative .transferDuration)

/-- The same transfer with a known length. -/
def Transfer.withMetres (t : Transfer) (metres : Nat) : Transfer := { t with metres := some metres }

end JourneyPlanner
