import JourneyPlanner.Proofs.Answering
import JourneyPlanner.Proofs.Ranking
/-!
# Leaving as late as the first ride allows

A search starts an access path as early as it may. When a ride follows, the itinerary moves the start to
the last one from which the ride is reached with the slack before boarding, while the path is open
(`StreetPath.StartsLatest`). Going back from the ride and going forward from the departure ask the same
opening hours, so the later start is never before the one that the search has used. Before a walk or at the
destination the access stays as found.
-/
namespace JourneyPlanner

open ArrivalStore (log)

/-! ## The last start of a path -/

namespace StreetPath

variable {path : StreetPath} {start requested : Time}

/-- The last start, while the path is open, from which a vehicle that leaves at `boardTime` is reached with some
slack. -/
structure StartsLatest (path : StreetPath) (slack : Int) (boardTime start : Time) : Prop where
  isOpen : path.IsOpen start
  inTime : start.secs + path.duration + slack ≤ boardTime.secs
  latest : ∀ t, path.IsOpen t → t.secs + path.duration + slack ≤ boardTime.secs → t ≤ start

/-- The slack may be kept by asking for an end that much earlier. -/
theorem StartsLatest.of_end {slack : Int} {boardTime : Time} (h : path.StartsLatest 0 requested start)
    (hrequested : requested.secs + slack = boardTime.secs) : path.StartsLatest slack boardTime start where
  isOpen := h.isOpen
  inTime := by
    have := h.inTime
    omega
  latest t hopen ht := h.latest t hopen (by omega)

/-- A path that can end in time from some start has a latest end, and the start that leads there is the last one. -/
theorem latestEnd?_latest (hopen : path.IsOpen start) (hle : start + path.duration ≤ requested)
    (hend : (start + path.duration).secs = start.secs + path.duration)
    (hback : (requested - path.duration).secs = requested.secs - path.duration) :
    ∃ latest, path.latestEnd? requested = some latest ∧
      latest.secs = (latest - path.duration).secs + path.duration ∧
      path.StartsLatest 0 requested (latest - path.duration) := by
  rw [Time.le_iff, hend] at hle
  have hexact : requested.secs = (requested - path.duration).secs + path.duration := by omega
  simp only [latestEnd?]
  cases hhours : path.hours with
  | none =>
    refine ⟨requested, rfl, hexact, fun hours hh => ?_, by omega, fun t _ ht => ?_⟩
    · rw [hhours] at hh
      cases hh
    · rw [Time.le_iff]
      omega
  | some hours =>
    have hiff : ∀ t, path.IsOpen t ↔ hours.opens.secs ≤ t.secs ∧ t.secs ≤ hours.closes.secs := fun t =>
      ⟨fun h => h hours hhours, fun h hours' hh => Option.some.inj (hhours.symm.trans hh) ▸ h⟩
    obtain ⟨hopens, hcloses⟩ := (hiff start).1 hopen
    by_cases hlate : hours.closes < requested - path.duration
    · -- Whoever starts when the path closes is in time.
      have hlt : hours.closes.secs < requested.secs - path.duration := by rwa [Time.lt_iff, hback] at hlate
      have hsum : (hours.closes + path.duration).secs = hours.closes.secs + path.duration := by
        have h1 := (start + path.duration).lower
        have h2 := requested.upper
        rw [Time.secs_add]
        omega
      simp only
      rw [if_pos hlate]
      refine ⟨_, rfl, ?_⟩
      rw [Time.add_sub_of_exact hsum]
      exact ⟨hsum, (hiff _).2 ⟨hours.opens_le, Int.le_refl _⟩, by omega, fun t ht _ => ((hiff t).1 ht).2⟩
    · have hearly : ¬ requested - path.duration < hours.opens := by
        rw [Time.lt_iff]
        omega
      rw [Time.lt_iff] at hlate
      simp only
      rw [if_neg (by rwa [Time.lt_iff]), if_neg hearly]
      refine ⟨requested, rfl, hexact, (hiff _).2 ⟨by omega, by omega⟩, by omega, fun t _ ht => ?_⟩
      rw [Time.le_iff]
      omega

/-- No time is cut off on the way from the start to the ride and back. -/
structure InRange (path : StreetPath) (slack : Int) (start boardTime : Time) : Prop where
  arrival : (start + path.duration).secs = start.secs + path.duration
  floor : (start + path.duration + slack).secs = (start + path.duration).secs + slack
  back : (boardTime - slack - path.duration).secs = boardTime.secs - slack - path.duration

/-- If a ride is reached from some start, the latest end before the ride and its slack is no earlier than the end that
follows from this start, and the last start leads to it. -/
theorem latestEnd?_of_reached {slack : Int} {boardTime : Time} (hopen : path.IsOpen start) (hslack : 0 ≤ slack)
    (hreached : start + path.duration + slack ≤ boardTime) (hrange : path.InRange slack start boardTime) :
    ∃ latest, path.latestEnd? (boardTime - slack) = some latest ∧ start + path.duration ≤ latest ∧
      latest.secs = (latest - path.duration).secs + path.duration ∧
      path.StartsLatest slack boardTime (latest - path.duration) ∧ start ≤ latest - path.duration := by
  obtain ⟨harrival, hfloor, hback⟩ := hrange
  rw [Time.le_iff, hfloor] at hreached
  -- The slack may be taken off the ride: what is left is no earlier than the end of the path.
  have hrequested : (boardTime - slack).secs = boardTime.secs - slack := by
    have h1 := (start + path.duration).lower
    have h2 := boardTime.upper
    rw [Time.secs_sub]
    omega
  have hle : start + path.duration ≤ boardTime - slack := by
    rw [Time.le_iff]
    omega
  obtain ⟨latest, hlatest, hexact, hstarts⟩ := latestEnd?_latest hopen hle harrival (by omega)
  have hstart : start ≤ latest - path.duration := by
    refine hstarts.latest start hopen ?_
    rw [Time.le_iff, harrival] at hle
    omega
  refine ⟨latest, hlatest, ?_, hexact, hstarts.of_end (by omega), hstart⟩
  rw [Time.le_iff] at hstart ⊢
  omega

end StreetPath

namespace Settings.Sound

variable {s : Settings}

theorem slackAfter_nonneg (h : s.Sound) (rides : Nat) : 0 ≤ s.slackAfter rides := by
  have h1 := h.boardSlack
  have h2 := h.transferSlack
  unfold slackAfter
  split <;> omega

end Settings.Sound

namespace Task

variable {task : Task} {path : StreetPath} {start boardTime : Time} {first x a : Arrival} {last : Option AlightedTrip}

/-! ## Moving the access leg -/

/-- Before a ride the access leg starts at the last time from which the ride is reached. -/
theorem accessLeg_latest {route : RouteIndex} {ref : RunRef} {p q : Position}
    (hvia : x.via = .ride route ref p q boardTime) (hopen : path.IsOpen start)
    (htime : first.time = start + path.duration)
    (hfloor : task.settings.boardingFloor first.time first.rides ≤ boardTime)
    (hslack : 0 ≤ task.settings.slackAfter first.rides)
    (hrange : path.InRange (task.settings.slackAfter first.rides) start boardTime) :
    path.StartsLatest (task.settings.slackAfter first.rides) boardTime (task.accessLeg path first (some x)).departure ∧
      start ≤ (task.accessLeg path first (some x)).departure ∧
      (task.accessLeg path first (some x)).arrival.secs =
        (task.accessLeg path first (some x)).departure.secs + path.duration := by
  have hslackEq : task.settings.boardingFloor first.time first.rides - first.time =
      task.settings.slackAfter first.rides := by
    show (first.time + task.settings.slackAfter first.rides).secs - first.time.secs = _
    rw [htime, hrange.floor]
    omega
  obtain ⟨latest, hlatest, hend, hexact, hstarts, hstart⟩ :=
    StreetPath.latestEnd?_of_reached hopen hslack (htime ▸ hfloor) hrange
  have hleg : task.accessLeg path first (some x) = path.legUntil latest := by
    have hmax : max first.time latest = latest := if_pos (htime ▸ hend)
    unfold accessLeg
    simp only [Option.map_some, hvia, hslackEq, hlatest, hmax]
    rfl
  rw [hleg]
  exact ⟨hstarts, hstart, hexact⟩

/-- After the access comes a walk, or a ride for which there is time. -/
theorem Told.head {tail : List Arrival} {legs : List Leg} (h : task.Told first tail legs a last)
    (hx : tail.head? = some x) : (∃ source number, x.via = .transfer source number) ∨
      ∃ route ref p q boardTime, x.via = .ride route ref p q boardTime ∧
        task.settings.boardingFloor first.time first.rides ≤ boardTime := by
  obtain ⟨htells, hsteps, -⟩ := h
  cases htells with
  | nil => cases hx
  | @cons y leg xs legs hleg _ =>
    obtain rfl := Option.some.inj hx
    cases hsteps with
    | cons hstep _ =>
      cases hstep with
      | transfer => exact .inl ((leg?_kind (hleg none)).2 _ rfl)
      | ride _ _ _ _ _ _ _ hmay =>
        obtain ⟨route, ref, p, q, hvia⟩ := (leg?_kind (hleg none)).1 _ rfl
        exact .inr ⟨route, ref, p, q, _, hvia, hmay⟩

/-! ## Itineraries -/

/-- The arrivals on the way to a goal begin with one by an access path, which the search has started as early as it
may after one of the departures. -/
structure SetsOut (task : Task) (log : ArrivalLog) (g : Goal) (path : StreetPath) (start : Time) (first : Arrival)
    (rest : List Arrival) : Prop where
  chain : log.chain g.node = .ok (first :: rest)
  access : ∃ number onBoard, first.via = .access number onBoard ∧ task.request.access[number]? = some path
  starts : ∃ departure ∈ task.departures, g.departure ≤ departure ∧ path.earliestStart? departure = some start
  time : first.time = start + path.duration

/-- The access leg starts as late as the ride after it allows, and as the search has started it if no ride comes
next. -/
structure LeavesLate (task : Task) (path : StreetPath) (start : Time) (first : Arrival) (rest : List Arrival)
    (leg : StreetLeg) : Prop where
  leg_eq : leg = path.legUntil leg.arrival
  ride : ∀ x route ref p q boardTime, rest.head? = some x → x.via = .ride route ref p q boardTime →
    let slack := task.settings.boardSlack + if 0 < path.rides then task.settings.transferSlack else 0
    path.InRange slack start boardTime →
      path.StartsLatest slack boardTime leg.departure ∧ start ≤ leg.departure ∧
        leg.arrival.secs = leg.departure.secs + path.duration
  stay : (∀ x ∈ rest.head?, ∀ route ref p q boardTime, x.via ≠ .ride route ref p q boardTime) →
    leg.arrival = first.time ∧ ((start + path.duration).secs = start.secs + path.duration → leg.departure = start)

/-- The search gives goals, and the itinerary that tells one leaves as late as its first ride allows, unless the
search stops where a sum does not fit. A run that starts at the last time there is cannot be named. -/
def SendsLate {σ : Type} [ArrivalStore σ] (task : Task) (store : σ) : Prop :=
  GivesInRange (task.run store) fun outcome => ∀ g ∈ outcome.goals.items,
    (HasLast outcome ∨ ∃ it, task.itinerary? (log outcome.store) g = .ok (some it)) ∧
    ∀ it, task.itinerary? (log outcome.store) g = .ok (some it) → ∃ path start first rest leg legs,
      task.SetsOut (log outcome.store) g path start first rest ∧ it.legs = .access leg :: legs ∧
        task.LeavesLate path start first rest leg

/-- The leg that is told of the first arrival starts late. -/
theorem Told.leavesLate {tail : List Arrival} {legs : List Leg} (h : task.Told first tail legs a last)
    (hsettings : task.settings.Sound) (hopen : path.IsOpen start) (hrides : first.rides = path.rides)
    (htime : first.time = start + path.duration) :
    task.LeavesLate path start first tail (task.accessLeg path first tail.head?) where
  leg_eq := rfl
  ride x route ref p q boardTime hx hvia hrange := by
    rw [← hrides] at hrange ⊢
    rw [hx]
    rcases h.head hx with ⟨source, number, hvia'⟩ | ⟨_, _, _, _, _, hvia', hfloor⟩
    · rw [hvia] at hvia'
      cases hvia'
    · rw [hvia] at hvia'
      cases hvia'
      exact accessLeg_latest hvia hopen htime hfloor (hsettings.slackAfter_nonneg _) hrange
  stay hnot := by
    have hleg : task.accessLeg path first tail.head? = path.legUntil first.time := by
      refine accessLeg_eq fun x hx => ?_
      rcases h.head hx with hvia | ⟨route, ref, p, q, boardTime, hvia, -⟩
      · exact hvia
      · exact absurd hvia (hnot x hx route ref p q boardTime)
    rw [hleg]
    refine ⟨rfl, fun hexact => ?_⟩
    show first.time - path.duration = start
    rw [htime]
    exact Time.add_sub_of_exact hexact

theorem GoalTraces.leavesLate {log : ArrivalLog} (hnet : task.network.Sound) (hsettings : task.settings.Sound)
    (hback : log.Backward) {g : Goal} (h : task.GoalTraces log g) {it : Itinerary}
    (hit : task.itinerary? log g = .ok (some it)) : ∃ path start first rest leg legs,
      task.SetsOut log g path start first rest ∧ it.legs = .access leg :: legs ∧
        task.LeavesLate path start first rest leg := by
  obtain ⟨a, last, egress, hget, htraces, hegress, hgoal⟩ := h
  obtain ⟨first, path, tail, hfirst, hchain, hrest⟩ := htraces.told hnet hsettings.maxRounds_le hback hget
  have hleg := hfirst.leg?_eq tail.head?
  have hchain : log.chain g.node = .ok (first :: tail) := by
    have hself := hchain []
    rwa [List.append_nil] at hself
  rcases hrest with ⟨legs, htold⟩ | hbroken
  · obtain ⟨it', hmade, -⟩ := htold.attains hfirst htraces.rides_le hsettings hegress hgoal
    rw [itinerary?_some hchain (by rw [legs?_cons hleg, htold.tells.legs?_eq]; rfl) hegress, List.cons_append,
      hmade] at hit
    obtain rfl := Option.some.inj (Except.ok.inj hit)
    obtain ⟨number, departure, round, hpath, hdeparture, hearliest, harrival⟩ := hfirst
    obtain ⟨-, start, hstart, heq⟩ := accessArrival?_eq harrival
    refine ⟨path, start, first, tail, _, _, ⟨hchain, ?_, ⟨departure, hdeparture, hearliest, hstart⟩, ?_⟩,
      Itinerary.legs_of_ofLegs hmade, htold.leavesLate hsettings (StreetPath.earliestStart?_spec hstart).2 ?_ ?_⟩
    · exact ⟨number, path.onBoard, by rw [heq], hpath⟩
    all_goals rw [heq]
  · rw [itinerary?_none hchain (by rw [legs?_cons hleg, hbroken.legs?_eq]; rfl)] at hit
    cases hit

variable {σ : Type} [ArrivalStore σ] [LawfulStore σ]

theorem sendsLate_of_searched {store : σ} (hready : task.Ready) (h : GivesInRange (task.run store) task.Searched) :
    task.SendsLate store := by
  refine h.mono fun outcome hsearched g hg => ⟨?_, fun it hit => ?_⟩
  · rcases hsearched.itinerary?_eq hready hg with ⟨it, hit, -⟩ | ⟨-, hlast⟩
    · exact .inr ⟨it, hit⟩
    · exact .inl hlast
  · exact (hsearched.goals g hg).leavesLate hready.network hready.settings hsearched.backward hit

end Task

/-- With either store, the itinerary of a goal leaves at the last time at which its access may start for the first
ride, and never before the start that the search has used. Without a ride next it keeps that start. So it is
wherever the clock has broken the search off. -/
theorem Network.goals_leave_late {net : Network} (hnet : net.IsBuilt) {settings : Settings}
    (hsettings : settings.check = .ok ()) {request : Request} (hrequest : request.check net.stopCount = .ok ())
    (clock : Clock) :
    (Task.ofRequest net settings request clock).SendsLate (EarliestArrivals.init net.stopCount settings.maxRounds) ∧
      (Task.ofRequest net settings request clock).SendsLate
        (ArrivalFrontiers.init net.stopCount settings.frontierSize) := by
  have hready := Task.ready_of_check hnet hsettings hrequest clock
  obtain ⟨hearliest, hfrontiers⟩ := Task.runs_give hready
  exact ⟨Task.sendsLate_of_searched hready hearliest, Task.sendsLate_of_searched hready hfrontiers⟩

/-- A taxi to the landing, which runs until ten past eight, for the ferry at twenty past. -/
def Request.byTaxi : Request where
  departure := .hms 8 0 0
  latestArrival := none
  access := [⟨1, 300, 300, 1, some ⟨.hms 8 0 0, .hms 8 10 0, by decide⟩⟩]
  egress := [.walk 2 60 60]
  weights := .standard

theorem Request.check_byTaxi : Request.byTaxi.check Network.ferry.stopCount = .ok () := by
  have h : Request.byTaxi.defect? Network.ferry.stopCount = none := by decide +kernel
  unfold check
  rw [h]

/-- The taxi takes five minutes, and the ferry comes next. After that round the time of the search is over. -/
theorem Network.way_byTaxi {outcome : Outcome ArrivalFrontiers} (hrun : (Task.ofRequest ferry .hasty .byTaxi .slow).run
      (ArrivalFrontiers.init ferry.stopCount Settings.hasty.frontierSize) = .ok outcome) :
    outcome.timedOut = true ∧ ∃ g ∈ outcome.goals.items, ∃ first x it, outcome.store.log.chain g.node = .ok [first, x] ∧
      first.via = .access 0 true ∧ first.time = .hms 8 5 0 ∧ x.via = .ride 0 (.scheduled 0) 0 1 (.hms 8 20 0) ∧
      (Task.ofRequest ferry .hasty .byTaxi .slow).itinerary? outcome.store.log g = .ok (some it) ∧
      it.legs.map Leg.departure = [.hms 8 10 0, .hms 8 20 0, .hms 8 30 0] := by
  have heval : (((Task.ofRequest ferry .hasty .byTaxi .slow).run
      (ArrivalFrontiers.init ferry.stopCount Settings.hasty.frontierSize)).toOption.map fun outcome =>
        (outcome.timedOut, outcome.goals.items.map fun g => decide (
          (outcome.store.log.chain g.node).toOption.map (List.map fun a => (a.via, a.time)) =
            some [(.access 0 true, .hms 8 5 0), (.ride 0 (.scheduled 0) 0 1 (.hms 8 20 0), .hms 8 30 0)] ∧
          ((Task.ofRequest ferry .hasty .byTaxi .slow).itinerary? outcome.store.log g).toOption.map
            (Option.map fun it => it.legs.map Leg.departure) =
            some (some [.hms 8 10 0, .hms 8 20 0, .hms 8 30 0])))) = some (true, [true]) := by decide +kernel
  rw [hrun] at heval
  obtain ⟨htimedOut, heval⟩ := Prod.mk.inj (Option.some.inj heval)
  obtain ⟨g, hgoals, heval⟩ := List.map_eq_singleton_iff.1 heval
  obtain ⟨hchain, htold⟩ := of_decide_eq_true heval
  refine ⟨htimedOut, g, by rw [hgoals]; exact List.mem_singleton_self g, ?_⟩
  cases heq : outcome.store.log.chain g.node with
  | error e => rw [heq] at hchain; cases hchain
  | ok as =>
    rw [heq] at hchain
    obtain ⟨first, rest, rfl, hfirst, hrest⟩ := List.map_eq_cons_iff.1 (Option.some.inj hchain)
    obtain ⟨x, rfl, hx⟩ := List.map_eq_singleton_iff.1 hrest
    cases hit : (Task.ofRequest ferry .hasty .byTaxi .slow).itinerary? outcome.store.log g with
    | error e => rw [hit] at htold; cases htold
    | ok o =>
      rw [hit] at htold
      obtain ⟨it, rfl, hdepartures⟩ := Option.map_eq_some_iff.1 (Option.some.inj htold)
      exact ⟨first, x, it, rfl, (Prod.mk.inj hfirst).1, (Prod.mk.inj hfirst).2, (Prod.mk.inj hx).1, rfl, hdepartures⟩

/-- The search takes the taxi at eight, and the itinerary the last one, though the search has been broken off. -/
theorem Network.last_taxi_to_ferry : ∃ outcome g it path start first rest leg legs,
    (Task.ofRequest ferry .hasty .byTaxi .slow).run
      (ArrivalFrontiers.init ferry.stopCount Settings.hasty.frontierSize) = .ok outcome ∧ outcome.timedOut = true ∧
    g ∈ outcome.goals.items ∧
    (Task.ofRequest ferry .hasty .byTaxi .slow).itinerary? outcome.store.log g = .ok (some it) ∧
    (Task.ofRequest ferry .hasty .byTaxi .slow).SetsOut outcome.store.log g path start first rest ∧
    start = .hms 8 0 0 ∧ it.legs = .access leg :: legs ∧ leg.departure = .hms 8 10 0 ∧
    path.StartsLatest 60 (.hms 8 20 0) leg.departure := by
  obtain ⟨-, hlate⟩ := goals_leave_late ferry_isBuilt Settings.check_hasty Request.check_byTaxi .slow
  obtain ⟨outcome, hrun, hall⟩ := hlate.gives (ne_error_of_isSome (by decide +kernel) _)
  obtain ⟨htimedOut, g, hg, first, x, it, hchain, hvia, htime, hride, hit, hdepartures⟩ := way_byTaxi hrun
  obtain ⟨path, start, first', rest, leg, legs, hout, hlegs, hlate⟩ := (hall g hg).2 it hit
  obtain ⟨rfl, rfl⟩ := List.cons.inj (Except.ok.inj (hchain.symm.trans hout.chain))
  obtain ⟨number, onBoard, hvia', hpath⟩ := hout.access
  rw [hvia] at hvia'
  cases hvia'
  obtain rfl := Option.some.inj hpath
  have hstart : start = .hms 8 0 0 := by
    have hsum := congrArg Time.secs (htime.symm.trans hout.time)
    have h1 := start.lower
    rw [Time.secs_add] at hsum
    change 29100 = max (-2147483648) (min 2147483647 (start.secs + 300)) at hsum
    apply Time.ext
    change start.secs = 28800
    omega
  subst hstart
  have hlatest := (hlate.ride x 0 (.scheduled 0) 0 1 _ rfl hride ⟨by decide, by decide, by decide⟩).1
  rw [hlegs] at hdepartures
  exact ⟨outcome, g, it, _, _, first, [x], leg, legs, hrun, htimedOut, hg, hit, hout, rfl, hlegs,
    (List.cons.inj hdepartures).1, hlatest⟩

end JourneyPlanner
