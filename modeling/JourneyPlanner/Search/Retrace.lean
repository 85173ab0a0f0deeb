import JourneyPlanner.Search.Rounds
/-!
# From arrivals to itineraries

An arrival at the destination is told as an itinerary by going back to the origin and naming each
step. The origin is left as late as the first ride allows. The cost is counted anew from the legs.
-/
namespace JourneyPlanner.Task

/-- The leg of an access path that ends at the stop at `time`. When a ride follows, the leg moves as
late as the ride and the path's opening hours allow. -/
def accessLeg (task : Task) (path : StreetPath) (a : Arrival) (next : Option Arrival) : StreetLeg :=
  let arrival :=
    match next.map (·.via) with
    | some (.ride _ _ _ _ boardTime) =>
      let slack := task.settings.boardingFloor a.time a.rides - a.time
      match path.latestEnd? (boardTime - slack) with
      | some latest => max a.time latest
      | none => a.time
    | _ => a.time
  { stop := path.stop
    departure := arrival - path.duration
    arrival := arrival
    cost := path.cost
    rides := path.rides }

/-- The leg of a ride that ends with an arrival. -/
def rideLeg? (route : Route) (ref : RunRef) (boardPosition alightPosition : Position)
    (boardTime : Time) (a : Arrival) : Except OutOfRange (Option Leg) :=
  match route.run? ref with
  | none => .ok none
  | some run => do
    let boardStop ← route.pattern.stop? boardPosition
    return some (.ride
      { route := route.index
        routeId := route.id
        mode := route.mode
        run := ref
        tripId := run.id
        boardPosition := boardPosition
        alightPosition := alightPosition
        boardStop := boardStop
        alightStop := a.stop
        boardTime := boardTime
        alightTime := a.time
        reluctance := run.schedule.reluctance
        accessibility := run.schedule.accessibility })

/-- The leg of a transfer that ends with an arrival. -/
def transferLeg (task : Task) (source : Stop) (transfer : Transfer) (a : Arrival) : TransferLeg where
  source := source
  target := a.stop
  departure := a.time - transfer.duration
  arrival := a.time
  cost := task.pricing.transferCost transfer
  metres := transfer.metres

/-- The leg that ends with an arrival, if what the arrival names is there. -/
def leg? (task : Task) (a : Arrival) (next : Option Arrival) : Except OutOfRange (Option Leg) :=
  match a.via with
  | .access number _ =>
    .ok ((task.request.access[number]?).map fun path => .access (task.accessLeg path a next))
  | .ride route ref boardPosition alightPosition boardTime => do
    let route ← task.network.route? route
    rideLeg? route ref boardPosition alightPosition boardTime a
  | .transfer source number =>
    .ok (((task.network.transfersFrom source)[number]?).map fun transfer =>
      .transfer (task.transferLeg source transfer a))

/-- The legs of a chain of arrivals, up to the last stop. -/
def legs? (task : Task) : List Arrival → Except OutOfRange (Option (List Leg))
  | [] => .ok (some [])
  | a :: rest => do
    match ← task.leg? a rest.head? with
    | none => return none
    | some leg => return (← task.legs? rest).map (leg :: ·)

/-- The leg of an egress path that arrives with a goal. -/
def egressLeg (path : StreetPath) (goal : Goal) : StreetLeg where
  stop := path.stop
  departure := goal.time - path.duration
  arrival := goal.time
  cost := path.cost
  rides := path.rides

/-- The itinerary that arrives with a goal, if what its arrivals name is there. -/
def itinerary? (task : Task) (log : ArrivalLog) (goal : Goal) :
    Except OutOfRange (Option Itinerary) := do
  match ← task.legs? (← log.chain goal.node) with
  | none => return none
  | some legs =>
    match task.request.egress[goal.egress]? with
    | none => return none
    | some path =>
      let legs := legs ++ [.egress (egressLeg path goal)]
      return (Itinerary.ofLegs legs (task.pricing.legsCost legs)).toOption

/-- The itineraries of all goals, in order. -/
def itineraries (task : Task) (log : ArrivalLog) (goals : List Goal) :
    Except OutOfRange (List Itinerary) :=
  return (← goals.mapM (task.itinerary? log)).filterMap id

end JourneyPlanner.Task
