import JourneyPlanner.Schedule
/-!
# Headway services

A `Headway` repeats one trip at a fixed interval. Its `template` leaves the first position at
midnight; the run that leaves the first position at `d` passes every position `d` later than the
template. The first and the last possible departure both belong to the service.
-/
namespace JourneyPlanner

/-- A trip that leaves the first position at `start`, and every `interval` seconds until `finish`. -/
structure Headway where
  template : Schedule
  start : Time
  finish : Time
  interval : Int
  interval_pos : 0 < interval
  start_le : start ≤ finish
  deriving DecidableEq

namespace Headway

/-- A headway service from a trip, whose times count from its own first departure. -/
def ofTrip (trip : Schedule) (start finish : Time) (interval : Int) : Except DataError Headway :=
  if hi : 0 < interval then
    if hw : start ≤ finish then
      .ok
        { template := trip.shift (-(trip.departure 0).secs)
          start, finish, interval
          interval_pos := hi
          start_le := hw }
    else .error .invertedServiceWindow
  else .error (.invalidHeadway interval)

/-- The first departure of the earliest run that leaves position `p` at `floor` or later. -/
def firstDeparture? (h : Headway) (p : Position) (floor : Time) : Option Time :=
  let late := floor.secs - (h.template.departure p).secs - h.start.secs
  let runs := if late ≤ 0 then 0 else (late + h.interval - 1) / h.interval
  let first := h.start + runs * h.interval
  if first ≤ h.finish then some first else none

/-- Whether the sums that `firstDeparture?` divides fit into 32 bits with a sign. -/
def sumsFit (h : Headway) (p : Position) (floor : Time) : Bool :=
  let needed := floor.secs - (h.template.departure p).secs
  let late := needed - h.start.secs
  Time.fits needed && Time.fits late && (decide (late ≤ 0) || Time.fits (late + h.interval))

/-- A first departure of the service. -/
def isRun (h : Headway) (first : Time) : Bool :=
  decide (h.start ≤ first) && decide (first ≤ h.finish) && (first - h.start) % h.interval == 0

end Headway

end JourneyPlanner
