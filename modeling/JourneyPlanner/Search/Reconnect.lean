import JourneyPlanner.Search.Task
/-!
# Moving the changes of an itinerary

A search changes at the first place where two runs meet. `Task.reconnect` keeps the runs of an
itinerary and moves each change to the best place that is feasible: a common stop, or two stops with
a transfer between them. Places are chosen together, because leaving a run elsewhere changes where
the next one can be boarded. The first boarding and the last alighting stay, and so does the itinerary
unless another one is strictly better.
-/
namespace JourneyPlanner

/-- What a choice of changes is worth: its objective first, then its cost. Less is better. -/
structure Score where
  objective : Int
  cost : Int
  deriving DecidableEq, Repr

namespace Score

/-- Nothing chosen. -/
def zero : Score := ⟨0, 0⟩

instance : Add Score := ⟨fun a b => ⟨a.objective + b.objective, a.cost + b.cost⟩⟩

/-- A lower objective, or the same one at a lower cost. -/
instance : LT Score :=
  ⟨fun a b => a.objective < b.objective ∨ a.objective = b.objective ∧ a.cost < b.cost⟩

instance (a b : Score) : Decidable (a < b) := inferInstanceAs (Decidable (_ ∨ _ ∧ _))

end Score

/-- One ride of an itinerary with its route and its run, and the transfer leg right after it. -/
structure PlannedRide where
  leg : RideLeg
  walk : Option TransferLeg
  route : Route
  run : Run
  deriving DecidableEq

namespace PlannedRide

/-- The number of positions of the ride's pattern. -/
def size (r : PlannedRide) : Nat := r.route.pattern.size

/-- The call of the ride's trip at a position. Headway services have no calls. -/
def call? (r : PlannedRide) (p : Position) : Option TripCall :=
  match r.leg.run with
  | .scheduled trip => some ⟨r.route.index, trip, p⟩
  | .headway .. => none

/-- Accepts a position of the ride's pattern. -/
def checkPosition (r : PlannedRide) (p : Position) : Except OutOfRange Unit :=
  if p < r.size then .ok () else .error (.position p)

end PlannedRide

/-- A change from one ride to the next. -/
structure Change where
  alight : Position
  board : Position
  /-- The transfer between the two stops, unless they are the same. -/
  transfer : Option Transfer
  score : Score
  deriving DecidableEq, Repr

/-- The nearest whole number to `x`, halves away from zero, within 64 bits with a sign. A value that is
not a number gives zero. -/
def nearestWorth (x : Float) : Int := x.round.toInt64.toInt

namespace Task

/-! ## Scores -/

/-- The terms in force for a change. -/
def changeTerms? (task : Task) (first : PlannedRide) (alight : Position) (second : PlannedRide)
    (board : Position) : Option ConnectionTerms :=
  match first.call? alight, second.call? board with
  | some a, some b => task.network.connections.lookup? a b
  | _, _ => none

def partCost (task : Task) (ride : PlannedRide) (board alight : Position) : Int :=
  task.pricing.rideCost ride.route.index ride.leg.reluctance
    (ride.run.arrival alight - ride.run.departure board)

def lastScore (task : Task) (ride : PlannedRide) (board alight : Position) : Score :=
  let cost := task.partCost ride board alight
  match task.settings.changes with
  | .transferPriority => ⟨0, cost⟩
  | _ => ⟨cost, cost⟩

/-- When the passenger is at the stop of the next ride. -/
def atStop (first : PlannedRide) (alight : Position) (transfer : Option Transfer) : Time :=
  first.run.arrival alight + transfer.elim 0 (·.duration)

/-- The score of a ride and the change after it. -/
def changeScore (task : Task) (first : PlannedRide) (start alight : Position)
    (second : PlannedRide) (board : Position) (transfer : Option Transfer) : Score :=
  let wait := second.run.departure board - atStop first alight transfer
  let cost := task.partCost first start alight + transfer.elim 0 task.pricing.transferCost +
    task.pricing.boardingCost true wait second.leg.accessibility
  match task.settings.changes with
  | .waitTime =>
    ⟨cost - nearestWorth (Float.ofInt (max wait 0) * task.settings.inverseWaitReluctance), cost⟩
  | .transferPriority => ⟨termsCost (task.changeTerms? first alight second board), cost⟩
  | .asFound => ⟨cost, cost⟩

/-- The change between two positions, without regard to whether it can be made. -/
def changeAt (task : Task) (first : PlannedRide) (start alight : Position) (second : PlannedRide)
    (board : Position) (transfer : Option Transfer) : Change :=
  ⟨alight, board, transfer, task.changeScore first start alight second board transfer⟩

/-! ## Feasible changes -/

/-- Whether the next ride can be boarded in time. -/
def isFeasible (task : Task) (first : PlannedRide) (alight : Position) (second : PlannedRide)
    (board : Position) (transfer : Option Transfer) : Bool :=
  let reached := atStop first alight transfer
  let departure := second.run.departure board
  let rule := (task.changeTerms? first alight second board).map ConnectionTerms.rule
  match rule with
  | some .notAllowed => false
  | some .guaranteed => true
  | some (.minimumTime secs) => decide (max reached (first.run.arrival alight + secs) ≤ departure)
  | none => decide (reached + (task.settings.boardSlack + task.settings.transferSlack) ≤ departure)

/-- The transfer that a change needs: none at one stop, and the quickest one between two stops. The
result is missing when there is no way. -/
def changeTransfer? (task : Task) (first : PlannedRide) (alight : Position)
    (second : PlannedRide) (board : Position) : Option (Option Transfer) :=
  let source := first.route.pattern.stop alight
  let target := second.route.pattern.stop board
  if source = target then some none else (task.network.transferBetween? source target).map some

/-- The change between two positions, if it can be made. -/
def connect? (task : Task) (first : PlannedRide) (start alight : Position)
    (second : PlannedRide) (board : Position) : Option Change :=
  match task.changeTransfer? first alight second board with
  | none => none
  | some transfer =>
    if task.isFeasible first alight second board transfer then
      some (task.changeAt first start alight second board transfer)
    else none

/-! ## Choosing the changes together -/

/-- The best way found to board a ride at one position. -/
structure BoardChoice where
  score : Score
  /-- The changes up to this boarding, the last one first. -/
  changes : List Change
  deriving DecidableEq, Repr

/-- For each position of a ride the best way to board there. -/
abbrev BoardChoices := List (Option BoardChoice)

/-- The better of two ways, and the first of two that are equally good. -/
def betterChoice (best : Option BoardChoice) (choice : BoardChoice) : Option BoardChoice :=
  match best with
  | none => some choice
  | some b => if choice.score < b.score then some choice else some b

/-- The positions at which a ride can be boarded: before its last one, and before the alighting if it
is the last ride. -/
def boardLimit (ride : PlannedRide) (isLast : Bool) : Nat :=
  if isLast then ride.leg.alightPosition else ride.size - 1

/-- The ways to board the second ride at `board`: every boarding of the first ride, with every
alighting after it. -/
def choicesAt (task : Task) (first second : PlannedRide) (choices : BoardChoices)
    (board : Position) : List BoardChoice :=
  choices.zipIdx.flatMap fun (choice, start) =>
    match choice with
    | none => []
    | some c =>
      (List.range' (start + 1) (first.size - (start + 1))).filterMap fun alight =>
        (task.connect? first start alight second board).map fun change =>
          ⟨c.score + change.score, change :: c.changes⟩

/-- The best ways to board the second ride, given those to board the first. -/
def nextChoices (task : Task) (first second : PlannedRide) (isLast : Bool)
    (choices : BoardChoices) : BoardChoices :=
  (List.range second.size).map fun board =>
    if board < boardLimit second isLast then
      (task.choicesAt first second choices board).foldl betterChoice none
    else none

/-- The way to ride `ride` and all `rest` after it that scores best, given the best ways to board
`ride`. -/
def bestFrom (task : Task) (ride : PlannedRide) (choices : BoardChoices) :
    List PlannedRide → Option BoardChoice
  | [] =>
    (choices.zipIdx.filterMap fun (choice, board) =>
      choice.map fun c =>
        { c with score := c.score + task.lastScore ride board ride.leg.alightPosition }).foldl
      betterChoice none
  | next :: rest => task.bestFrom next (task.nextChoices ride next rest.isEmpty choices) rest

/-- The best score of an itinerary on these rides, and its changes in order. -/
def bestChanges? (task : Task) : List PlannedRide → Option (Score × List Change)
  | [] => none
  | first :: rest =>
    let start := (List.range first.size).map fun p =>
      if p = first.leg.boardPosition then some ⟨.zero, []⟩ else none
    (task.bestFrom first start rest).map fun c => (c.score, c.changes.reverse)

/-! ## The itinerary as it is -/

/-- The transfer of the network that a transfer leg was made from: one of the same duration, or else
the quickest one. -/
def walkedTransfer? (task : Task) (walk : TransferLeg) : Option Transfer :=
  ((task.network.transfersFrom walk.source).find? fun t =>
    t.target = walk.target ∧ t.duration = walk.duration).or
    (task.network.transferBetween? walk.source walk.target)

/-- The transfer after a ride, unless there is none. The result is missing when the network does not
have it. -/
def walkAfter? (task : Task) (ride : PlannedRide) : Option (Option Transfer) :=
  match ride.walk with
  | none => some none
  | some walk => (task.walkedTransfer? walk).map some

/-- The score of the rides with the changes they have. The result is missing when the network lacks a
transfer. -/
def currentScore? (task : Task) : List PlannedRide → Except OutOfRange (Option Score)
  | [] => .ok none
  | [last] => do
    last.checkPosition last.leg.alightPosition
    last.checkPosition last.leg.boardPosition
    return some (task.lastScore last last.leg.boardPosition last.leg.alightPosition)
  | first :: second :: rest =>
    match task.walkAfter? first with
    | none => .ok none
    | some transfer => do
      first.checkPosition first.leg.alightPosition
      second.checkPosition second.leg.boardPosition
      first.checkPosition first.leg.boardPosition
      let score := task.changeScore first first.leg.boardPosition first.leg.alightPosition second
        second.leg.boardPosition transfer
      return (← task.currentScore? (second :: rest)).map (score + ·)

/-- The rides of some legs, each with the transfer right after it. -/
def ridesOf : List Leg → List (RideLeg × Option TransferLeg)
  | [] => []
  | .ride l :: .transfer t :: rest => (l, some t) :: ridesOf rest
  | .ride l :: rest => (l, none) :: ridesOf rest
  | _ :: rest => ridesOf rest

/-- The rides with their routes and runs. The result is missing when a timetable lacks a run. -/
def plannedRides? (task : Task) :
    List (RideLeg × Option TransferLeg) → Except OutOfRange (Option (List PlannedRide))
  | [] => .ok (some [])
  | (leg, walk) :: rest => do
    let route ← task.network.route? leg.route
    match route.run? leg.run with
    | none => return none
    | some run => return (← task.plannedRides? rest).map (⟨leg, walk, route, run⟩ :: ·)

/-! ## The new itinerary -/

def partLeg (ride : PlannedRide) (board alight : Position) : RideLeg :=
  { ride.leg with
    boardPosition := board
    alightPosition := alight
    boardStop := ride.route.pattern.stop board
    alightStop := ride.route.pattern.stop alight
    boardTime := ride.run.departure board
    alightTime := ride.run.arrival alight }

/-- The leg of a transfer after a ride. -/
def changeLeg (task : Task) (ride : PlannedRide) (alight : Position) (transfer : Transfer) :
    TransferLeg :=
  let departure := ride.run.arrival alight
  { source := ride.route.pattern.stop alight
    target := transfer.target
    departure := departure
    arrival := departure + transfer.duration
    cost := task.pricing.transferCost transfer
    metres := transfer.metres }

/-- The legs of the rides with the given changes, the first ride boarded at `board`. -/
def changedLegs (task : Task) (board : Position) : List PlannedRide → List Change → List Leg
  | [], _ => []
  | ride :: rides, [] =>
    .ride (partLeg ride board ride.leg.alightPosition) :: task.changedLegs board rides []
  | ride :: rides, change :: changes =>
    .ride (partLeg ride board change.alight) ::
      ((change.transfer.map fun t => Leg.transfer (task.changeLeg ride change.alight t)).toList ++
        task.changedLegs change.board rides changes)

def isRide (leg : Leg) : Bool := leg.ride?.isSome

/-- The itinerary with its rides and all between them replaced. -/
def rebuild? (task : Task) (it : Itinerary) (rides : List PlannedRide) (changes : List Change) :
    Option Itinerary :=
  match rides with
  | [] => none
  | first :: _ =>
    let before := it.legs.takeWhile fun l => !isRide l
    let after := (it.legs.reverse.takeWhile fun l => !isRide l).reverse
    let legs := before ++ task.changedLegs first.leg.boardPosition rides changes ++ after
    (Itinerary.ofLegs legs (task.pricing.legsCost legs)).toOption

/-- A strictly better itinerary on the same runs. -/
def improve? (task : Task) (it : Itinerary) : Except OutOfRange (Option Itinerary) := do
  match ← task.plannedRides? (ridesOf it.legs) with
  | none => return none
  | some rides =>
    match ← task.currentScore? rides with
    | none => return none
    | some current =>
      match task.bestChanges? rides with
      | none => return none
      | some (best, changes) =>
        if best < current then return task.rebuild? it rides changes else return none

/-- The itinerary with its changes moved to where the settings want them. -/
def reconnect (task : Task) (it : Itinerary) : Except OutOfRange Itinerary :=
  if task.settings.changes = .asFound ∨ it.rides.length < 2 then .ok it
  else do
    return (← task.improve? it).getD it

end Task

end JourneyPlanner
