import JourneyPlanner.Frontier
import JourneyPlanner.Search.ArrivalStore
import JourneyPlanner.Search.Boarding
/-!
# The rounds of a search

For one departure from the origin, round 0 enters the arrivals by access paths. Each later round
extends every arrival of the round before it by one ride, and then every arrival on board by one
transfer. An access path with rides of its own enters in the round of that number. Whenever a stop
with egress paths is reached, so is the destination.

A search over a range of departures runs the latest departure first and keeps its arrivals, so that a
departure before it adds only what it improves.
-/
namespace JourneyPlanner

/-- An arrival at the destination. -/
structure Goal where
  /-- The number of the arrival at the last stop. -/
  node : Nat
  /-- The number of the egress path. -/
  egress : Nat
  time : Time
  rides : Nat
  cost : Int
  /-- The departure from the origin for which it was found. -/
  departure : Time
  deriving DecidableEq, Repr

/-- A late departure and an early arrival, few rides and a low cost are better. -/
instance : Criteria Goal where
  orderings a b :=
    [compare b.departure a.departure, compare a.time b.time, compare a.rides b.rides,
      compare a.cost b.cost]

/-- What a search has done. -/
structure SearchStats where
  iterations : Nat
  rounds : Nat
  accepted : Nat
  rejected : Nat
  truncations : Nat
  deriving DecidableEq, Repr

/-- Nothing has been done. -/
def SearchStats.zero : SearchStats := ⟨0, 0, 0, 0, 0⟩

/-- How far a search has come. -/
structure Progress (σ : Type) where
  store : σ
  goals : Frontier Goal
  stats : SearchStats

/-- One ride more, at most 255 rides. -/
def addRides (rides more : Nat) : Nat := min 255 (rides + more)

namespace Task

variable {σ : Type} [ArrivalStore σ]

/-! ## Arrivals -/

/-- The arrival at the destination by an egress path from the stop of an arrival. A walk needs a
vehicle to step off. -/
def goal? (task : Task) (departure : Time) (node : Nat) (a : Arrival)
    (egress : StreetPath × Nat) : Option Goal :=
  let (path, number) := egress
  if path.stop = a.stop ∧ (path.onBoard || a.onBoard) then
    match path.earliestStart? a.time with
    | none => none
    | some start =>
      let time := start + path.duration
      if task.request.isTooLate time then none
      else some ⟨node, number, time, addRides a.rides path.rides, a.cost + path.cost, departure⟩
  else none

/-- The arrivals at the destination from an arrival. -/
def goals (task : Task) (departure : Time) (node : Nat) (a : Arrival) : List Goal :=
  task.request.egress.zipIdx.filterMap (task.goal? departure node a)

/-- Proposes an arrival. Accepted, it may reach the destination. -/
def offer (task : Task) (departure : Time) (progress : Progress σ) (a : Arrival) :
    Except OutOfRange (Progress σ) := do
  let stats := progress.stats
  if task.request.isTooLate a.time then
    return { progress with
      store := ArrivalStore.reject progress.store a
      stats := { stats with rejected := stats.rejected + 1 } }
  else
    let (store, id) ← ArrivalStore.offer progress.store a
    match id with
    | none =>
      return { progress with
        store := store
        stats := { stats with rejected := stats.rejected + 1 } }
    | some id =>
      return {
        store := store
        goals := (task.goals departure id a).foldl Frontier.insert progress.goals
        stats := { stats with accepted := stats.accepted + 1 } }

/-! ## Access -/

/-- The arrival by an access path with the given number of rides, if it can start. -/
def accessArrival? (departure : Time) (round : Nat) (access : StreetPath × Nat) : Option Arrival :=
  let (path, number) := access
  if path.rides = round then
    match path.earliestStart? departure with
    | none => none
    | some start =>
      some
        { parent := none
          stop := path.stop
          time := start + path.duration
          rides := path.rides
          cost := path.cost
          round := round
          via := .access number path.onBoard }
  else none

/-- Enters the access paths with as many rides as the round has. -/
def seed (task : Task) (departure : Time) (round : Nat) (progress : Progress σ) :
    Except OutOfRange (Progress σ) :=
  (task.request.access.zipIdx.filterMap (accessArrival? departure round)).foldlM
    (task.offer departure) progress

/-! ## Rides -/

/-- The passenger who boards a route at position `p` from an arrival. -/
def riderFrom? (task : Task) (route : Route) (p : Position) (id : Nat) (log : ArrivalLog) :
    Except OutOfRange (Option Rider) := do
  let a ← log.get? id
  let last ← log.alighted? a
  match ← task.findRun route p a last with
  | none => return none
  | some run =>
    let trip := run.schedule
    let boardTime := run.departure p
    let wait := if a.isAccess then 0 else boardTime - a.time
    let costAtBoard :=
      a.cost + task.pricing.boardingCost (decide (0 < a.rides)) wait trip.accessibility
    return some
      { parent := id
        run := run
        boardPosition := p
        boardTime := boardTime
        costAtBoard := costAtBoard
        relativeCost := task.pricing.relativeCost route.index trip.reluctance costAtBoard boardTime
        rides := addRides a.rides 1 }

/-- The arrival of a passenger at position `p`. -/
def alight (task : Task) (route : Route) (round : Nat) (p : Position) (stop : Stop)
    (rider : Rider) : Arrival :=
  let time := rider.run.arrival p
  { parent := some rider.parent
    stop := stop
    time := time
    rides := rider.rides
    cost := rider.costAtBoard +
      task.pricing.rideCost route.index rider.run.schedule.reluctance (time - rider.boardTime)
    round := round
    via := .ride route.index rider.run.ref rider.boardPosition p rider.boardTime }

/-- The passengers with one more, unless one of them makes the new one redundant; those that the new
one makes redundant go. -/
def addRider (outrides : Rider → Rider → Position → Bool) (p : Position) (riders : List Rider)
    (rider : Rider) : List Rider :=
  if riders.any fun r => outrides r rider p then riders
  else riders.filter (fun r => !outrides rider r p) ++ [rider]

/-- The passengers after those from some arrivals have boarded. -/
def boardAll (task : Task) (route : Route) (p : Position) (store : σ) (riders : List Rider)
    (ids : List Nat) : Except OutOfRange (List Rider) :=
  ids.foldlM
    (fun riders id => do
      match ← task.riderFrom? route p id (ArrivalStore.log store) with
      | none => return riders
      | some rider => return addRider (ArrivalStore.outrides σ) p riders rider)
    riders

/-- At one position, everyone on board alights, and then new passengers board, except at the last
position. -/
def scanPosition (task : Task) (departure : Time) (route : Route) (round : Nat)
    (state : Progress σ × List Rider) (place : Stop × Position) :
    Except OutOfRange (Progress σ × List Rider) := do
  let (progress, riders) := state
  let (stop, p) := place
  let progress ← (riders.map (task.alight route round p stop)).foldlM (task.offer departure) progress
  if p = route.pattern.last then return (progress, riders)
  else
    let ids ← ArrivalStore.boardable progress.store stop
    let riders ← task.boardAll route p progress.store riders ids
    return (progress, riders)

/-- Rides a route from its first position to its last. -/
def scanRoute (task : Task) (departure : Time) (round : Nat) (progress : Progress σ)
    (index : RouteIndex) : Except OutOfRange (Progress σ) := do
  let route ← task.network.route? index
  let (progress, _) ←
    route.pattern.stops.toList.zipIdx.foldlM (task.scanPosition departure route round) (progress, [])
  return progress

/-- The routes that serve some stops, ascending and each once. -/
def routesToScan (task : Task) (stops : List Stop) : List RouteIndex :=
  ((stops.flatMap task.network.routesThrough).mergeSort fun a b => decide (a ≤ b)).eraseReps

/-! ## Transfers -/

/-- The arrival by a transfer. -/
def walkFrom (task : Task) (round : Nat) (source : Stop) (id : Nat) (a : Arrival)
    (transfer : Transfer × Nat) : Arrival :=
  { parent := some id
    stop := transfer.1.target
    time := a.time + transfer.1.duration
    rides := a.rides
    cost := a.cost + task.pricing.transferCost transfer.1
    round := round
    via := .transfer source transfer.2 }

/-- Walks every transfer from an arrival. A transfer to the same stop leads nowhere. -/
def relaxFrom (task : Task) (departure : Time) (round : Nat) (source : Stop)
    (progress : Progress σ) (id : Nat) : Except OutOfRange (Progress σ) := do
  let a ← (ArrivalStore.log progress.store).get? id
  (((task.network.transfersFrom source).zipIdx.filter fun t => t.1.target ≠ source).map
    (task.walkFrom round source id a)).foldlM (task.offer departure) progress

/-- Walks every transfer from a stop. -/
def relaxStop (task : Task) (departure : Time) (round : Nat) (progress : Progress σ)
    (source : Stop) : Except OutOfRange (Progress σ) := do
  let ids ← ArrivalStore.transferable progress.store source
  ids.foldlM (task.relaxFrom departure round source) progress

/-! ## Rounds and iterations -/

/-- One round: rides, then access paths with as many rides, then transfers. -/
def runRound (task : Task) (departure : Time) (round : Nat) (progress : Progress σ) :
    Except OutOfRange (Progress σ) := do
  let progress :=
    { progress with
      store := ArrivalStore.beginRound progress.store round
      stats := { progress.stats with rounds := progress.stats.rounds + 1 } }
  let stops := (ArrivalStore.changes progress.store).previous
  let progress ← (task.routesToScan stops).foldlM (task.scanRoute departure round) progress
  let progress ← task.seed departure round progress
  (ArrivalStore.changes progress.store).onBoard.foldlM (task.relaxStop departure round) progress

/-- The most rides of an access path. -/
def maxAccessRides (task : Task) : Nat := (task.request.access.map (·.rides)).foldl max 0

/-- The rounds from number `round` on, at most `left` of them. They end early when a round has changed
nothing and no access path is left, and they break off when the clock, asked before each round, says that
the time is over. The second result says whether it did. -/
def runRounds (task : Task) (departure : Time) :
    (left round : Nat) → Progress σ → Except OutOfRange (Progress σ × Bool)
  | 0, _, progress => .ok (progress, false)
  | left + 1, round, progress => do
    if task.timeIsOver progress.stats.rounds then return (progress, true)
    else
      let progress ← task.runRound departure round progress
      if (ArrivalStore.changes progress.store).current.isEmpty && task.maxAccessRides ≤ round then
        return (progress, false)
      else task.runRounds departure left (round + 1) progress

def runIteration (task : Task) (iteration : Nat) (departure : Time) (progress : Progress σ) :
    Except OutOfRange (Progress σ × Bool) := do
  let store := ArrivalStore.beginIteration progress.store iteration
  let progress :=
    { progress with
      store := ArrivalStore.beginRound store 0
      stats := { progress.stats with iterations := progress.stats.iterations + 1 } }
  let progress ← task.seed departure 0 progress
  task.runRounds departure task.settings.maxRounds 1 progress

/-- The iterations for some departures, the first of which has the number `iteration`. -/
def runIterations (task : Task) :
    (iteration : Nat) → List Time → Progress σ → Except OutOfRange (Progress σ × Bool)
  | _, [], progress => .ok (progress, false)
  | iteration, departure :: departures, progress => do
    let (progress, timedOut) ← task.runIteration iteration departure progress
    if timedOut then return (progress, true)
    else task.runIterations (iteration + 1) departures progress

end Task

/-! ## Departures -/

/-- The departures from `t` down to `earliest`, `step` seconds apart and at least one. -/
def departuresDownTo (earliest : Time) (step : Int) (t : Time) : List Time :=
  if earliest < t then t :: departuresDownTo earliest step (t - max step 1) else [earliest]
termination_by (t.secs - earliest.secs).toNat
decreasing_by
  have h1 := earliest.lower
  have h2 := t.upper
  have h3 := Time.secs_sub t (max step 1)
  rename_i h
  rw [Time.lt_iff] at h
  omega

/-- The departures of a range search, the latest one first. The earliest one is always among them. -/
def departureTimes (earliest : Time) (window step : Int) : List Time :=
  departuresDownTo earliest step (earliest + max window 0)

/-- What a search leaves behind. -/
structure Outcome (σ : Type) where
  store : σ
  goals : Frontier Goal
  stats : SearchStats
  timedOut : Bool

/-- Runs all iterations of a search. -/
def Task.run {σ : Type} [ArrivalStore σ] (task : Task) (store : σ) :
    Except OutOfRange (Outcome σ) := do
  let departures :=
    departureTimes task.request.departure task.settings.window task.settings.step
  let (progress, timedOut) ← task.runIterations 0 departures ⟨store, .empty, .zero⟩
  return {
    store := progress.store
    goals := progress.goals
    stats := { progress.stats with truncations := ArrivalStore.truncations progress.store }
    timedOut := timedOut }

end JourneyPlanner
