import JourneyPlanner.Proofs.FirstBoarding
import JourneyPlanner.Proofs.LegRows
import JourneyPlanner.Search.Rounds
/-!
# Journeys

A `Standing` is what matters of the way so far: where a traveller is, since when, after how many rides,
whether in a vehicle, and which trip was left last. `Task.Step` takes a leg from one standing to the
next one, as the network and the rules for changes allow. A `Task.Journey` is a row of legs that starts
with an access path, goes on step by step, and ends with an egress path.
-/
namespace JourneyPlanner

/-- Where a traveller stands. -/
structure Standing where
  stop : Stop
  time : Time
  rides : Nat
  onBoard : Bool
  last : Option AlightedTrip

/-- The leg of a path that arrives at `arrival`. -/
def StreetPath.legUntil (path : StreetPath) (arrival : Time) : StreetLeg where
  stop := path.stop
  departure := arrival - path.duration
  arrival := arrival
  cost := path.cost
  rides := path.rides

/-- The leg of a ride on a run from position `p` to position `q`. -/
def RideLeg.ofRun (route : Route) (run : Run) (p q : Position) : RideLeg where
  route := route.index
  routeId := route.id
  mode := route.mode
  run := run.ref
  tripId := run.id
  boardPosition := p
  alightPosition := q
  boardStop := route.pattern.stop p
  alightStop := route.pattern.stop q
  boardTime := run.departure p
  alightTime := run.arrival q
  reluctance := run.schedule.reluctance
  accessibility := run.schedule.accessibility

/-- The trip that someone has left who alights from a run, if it is scheduled. -/
def Run.alighted? (run : Run) (route : RouteIndex) (q : Position) : Option AlightedTrip :=
  (run.ref.call? route q).map fun call => ⟨call, run.arrival q⟩

namespace Task

variable (task : Task)

/-- The departures that the search runs through. -/
def departures : List Time := departureTimes task.request.departure task.settings.window task.settings.step

/-- The access leg leads to the standing, for one of the departures from `earliest` on. It arrives as
early as the path can, or as late as some request for a late end has it. -/
inductive Starts (earliest : Time) : StreetLeg → Standing → Prop
  | intro {path : StreetPath} {departure start arrival : Time} : path ∈ task.request.access →
      departure ∈ task.departures → earliest ≤ departure → path.earliestStart? departure = some start →
      start + path.duration ≤ arrival →
      (arrival = start + path.duration ∨ ∃ requested, path.latestEnd? requested = some arrival) →
      Starts earliest (path.legUntil arrival) ⟨path.stop, arrival, path.rides, path.onBoard, none⟩

/-- One leg between two stops. -/
inductive Step : Standing → Leg → Standing → Prop
  | ride {s : Standing} {route : Route} {run : Run} {p q : Position} :
      task.network.routes[route.index]? = some route → route.Offers run → route.run? run.ref = some run →
      task.pricing.boardable run.schedule = true → p < q → q < route.pattern.size →
      route.pattern.stop p = s.stop → task.MayBoard s.last s.time s.rides route p run →
      Step s (.ride (.ofRun route run p q))
        ⟨route.pattern.stop q, run.arrival q, s.rides + 1, true, run.alighted? route.index q⟩
  | transfer {s : Standing} {transfer : Transfer} {leg : TransferLeg} :
      s.onBoard = true → transfer ∈ task.network.transfersFrom s.stop →
      leg.source = s.stop → leg.target = transfer.target → leg.arrival = s.time + transfer.duration →
      leg.departure + transfer.duration = leg.arrival → leg.cost = task.pricing.transferCost transfer →
      leg.metres = transfer.metres →
      Step s (.transfer leg) ⟨transfer.target, s.time + transfer.duration, s.rides, false, s.last⟩

/-- Some legs, one after another. -/
inductive Steps : Standing → List Leg → Standing → Prop
  | nil {s : Standing} : Steps s [] s
  | cons {s s' s'' : Standing} {leg : Leg} {legs : List Leg} : task.Step s leg s' → Steps s' legs s'' →
      Steps s (leg :: legs) s''

/-- The egress leg leads on from the standing. A walk needs a vehicle to step off. -/
inductive Ends : Standing → StreetLeg → Prop
  | intro {s : Standing} {path : StreetPath} {start : Time} : path ∈ task.request.egress →
      path.stop = s.stop → (path.onBoard || s.onBoard) = true → path.earliestStart? s.time = some start →
      Ends s (path.legUntil (start + path.duration))

/-- A row of legs from the origin to the destination. -/
inductive Journey (earliest : Time) : List Leg → Prop
  | intro {access egress : StreetLeg} {s s' : Standing} {middle : List Leg} : task.Starts earliest access s →
      task.Steps s middle s' → s'.rides ≤ task.settings.maxRounds → task.Ends s' egress →
      Journey earliest (.access access :: (middle ++ [.egress egress]))

end Task

/-! ## Rows of steps -/

theorem Task.Step.rides_eq {task : Task} {s s' : Standing} {leg : Leg} (h : task.Step s leg s') :
    s'.rides = s.rides + leg.rides := by
  cases h <;> rfl

namespace Task.Steps

variable {task : Task} {s s' s'' : Standing} {leg : Leg} {legs legs' : List Leg}

theorem append (h : task.Steps s legs s') (h' : task.Steps s' legs' s'') :
    task.Steps s (legs ++ legs') s'' := by
  induction h with
  | nil => exact h'
  | cons hstep _ ih => exact .cons hstep (ih h')

theorem snoc (h : task.Steps s legs s') (hstep : task.Step s' leg s'') : task.Steps s (legs ++ [leg]) s'' :=
  h.append (.cons hstep .nil)

/-- Steps in a row stop over between any two of the legs. -/
theorem split (h : task.Steps s (legs ++ legs') s'') : ∃ s', task.Steps s legs s' ∧ task.Steps s' legs' s'' := by
  induction legs generalizing s with
  | nil => exact ⟨s, .nil, h⟩
  | cons leg legs ih =>
    cases h with
    | cons hstep hrest =>
      obtain ⟨s', h1, h2⟩ := ih hrest
      exact ⟨s', .cons hstep h1, h2⟩

/-- Each leg starts where the one before ended. -/
theorem connects (h : task.Steps s legs s') : Connects s.stop legs s'.stop := by
  induction h with
  | nil => exact .nil
  | cons hstep _ ih =>
    cases hstep with
    | ride _ _ _ _ _ _ hstop _ => exact .ride hstop ih
    | transfer _ _ hsource htarget _ _ _ _ => exact .transfer hsource (htarget ▸ ih)

theorem rides_eq (h : task.Steps s legs s') : s'.rides = s.rides + Itinerary.rideCount legs := by
  induction h with
  | nil => rfl
  | cons hstep _ ih => rw [Itinerary.rideCount_cons, ih, hstep.rides_eq, Nat.add_assoc]

end Task.Steps

namespace Task

variable {task : Task} {earliest : Time} {s : Standing}

theorem Starts.stop_eq {leg : StreetLeg} (h : task.Starts earliest leg s) : s.stop = leg.stop := by
  cases h
  rfl

theorem Starts.rides_eq {leg : StreetLeg} (h : task.Starts earliest leg s) : s.rides = leg.rides := by
  cases h
  rfl

theorem Ends.stop_eq {leg : StreetLeg} (h : task.Ends s leg) : leg.stop = s.stop := by
  cases h
  assumption

/-- The itinerary of an access leg, steps that go on from it, and an egress leg that goes on from these. -/
theorem Steps.ofLegs_eq {access egress : StreetLeg} {middle : List Leg} {s' : Standing} (h : task.Steps s middle s')
    (hstart : task.Starts earliest access s) (hend : task.Ends s' egress) (cost : Int) :
    Itinerary.ofLegs (.access access :: (middle ++ [.egress egress])) cost =
      .ok
        { legs := .access access :: (middle ++ [.egress egress])
          departure := access.departure
          arrival := egress.arrival
          transfers := Itinerary.rideCount (.access access :: (middle ++ [.egress egress])) - 1
          cost := cost } := by
  have hmiddle := h.connects.endOfMiddle_eq
  rw [hstart.stop_eq, ← hend.stop_eq] at hmiddle
  exact Itinerary.ofLegs_eq hmiddle cost

/-- Any journey makes an itinerary. -/
theorem Journey.ofLegs_eq {legs : List Leg} (h : task.Journey earliest legs) (cost : Int) :
    ∃ it, Itinerary.ofLegs legs cost = .ok it ∧ it.legs = legs ∧ it.cost = cost := by
  cases h with
  | intro hstart hsteps _ hend => exact ⟨_, hsteps.ofLegs_eq hstart hend cost, rfl, rfl⟩

/-! ## The ends of a journey -/

/-- An access leg within the range of times leaves no earlier than asked, while its path is open. -/
theorem Starts.isOpen {leg : StreetLeg} (h : task.Starts earliest leg s) (hinside : leg.arrival.Inside) :
    ∃ path ∈ task.request.access, leg = path.legUntil leg.arrival ∧ earliest ≤ leg.departure ∧
      path.IsOpen leg.departure := by
  cases h with
  | @intro path departure start arrival hpath _ hearliest hstart harrival hopen =>
    obtain ⟨hle, hstartOpen⟩ := StreetPath.earliestStart?_spec hstart
    refine ⟨path, hpath, rfl, ?_, ?_⟩
    · -- Counted back from the arrival, the leg leaves at the start of the path or later.
      have h1 := Time.le_trans hearliest hle
      have h2 := hinside.2
      have h3 := start.upper
      simp only [StreetPath.legUntil] at h2
      simp only [StreetPath.legUntil, Time.le_iff, Time.secs_sub, Time.secs_add] at *
      omega
    · rcases hopen with rfl | ⟨requested, hend⟩
      · simp only [StreetPath.legUntil]
        rw [Time.add_sub_of_exact (Time.secs_add_of_inside hinside)]
        exact hstartOpen
      · exact StreetPath.latestEnd?_isOpen hend hinside

/-- Where the walk to the stop adds up exactly, the access leg leaves no earlier than asked. -/
theorem Starts.le_departure {leg : StreetLeg} (h : task.Starts earliest leg s)
    (hexact : ∀ path ∈ task.request.access, ∀ departure ∈ task.departures, ∀ start,
      path.earliestStart? departure = some start → (start + path.duration).secs = start.secs + path.duration) :
    earliest ≤ leg.departure := by
  cases h with
  | @intro path departure start arrival hpath hdeparture hearliest hstart harrival _ =>
    have h1 := Time.le_trans hearliest (StreetPath.earliestStart?_spec hstart).1
    have h2 := hexact path hpath departure hdeparture start hstart
    have h3 := start.upper
    simp only [StreetPath.legUntil, Time.le_iff, Time.secs_sub] at *
    omega

end Task

end JourneyPlanner
