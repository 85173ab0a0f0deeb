import JourneyPlanner.Proofs.Changes
import JourneyPlanner.Proofs.EarliestRun
/-!
# The run that is boarded

Which runs of a route may be boarded at a position depends on the usual slack and on the rules for the
change (`Task.MayBoard`). `Task.findRun_selects` shows that the search misses none of them where its sums fit
into 32 bits: it boards the one that leaves first, and of several that leave together one that waits, or else
the scheduled trip with the lowest number, or else a run of the headway service with the lowest number. Where a
sum does not fit, the search stops, even where no run could be boarded (`Task.slack_too_long`).

What is selected is shown of any starts of the services that the search finds. The exact ones need
`Headway.InRange` (`Headway.firstDeparture?_of_not_inRange` shows what a service answers without it); those that
the search computes, cut off at the last time there is, need nothing.
-/
namespace JourneyPlanner

/-! ## Terms of one boarding -/

namespace BoardingTerms

variable {terms : BoardingTerms} {floor departure : Time} {i : Nat}

theorem mem_rules_of_rule? {rule : ConnectionRule} (h : terms.rule? i = some rule) : (i, rule) ∈ terms.rules := by
  obtain ⟨⟨j, rule'⟩, hfind, rfl⟩ := Option.map_eq_some_iff.1 h
  have hj : j = i := of_decide_eq_true (List.find?_some hfind :)
  exact hj ▸ List.mem_of_find?_eq_some hfind

theorem mem_waiting (h : terms.rule? i = some .guaranteed) : i ∈ terms.waiting :=
  List.mem_map.2 ⟨_, List.mem_filter.2 ⟨mem_rules_of_rule? h, by simp⟩, rfl⟩

/-- The search starts no later than usual, and no later than any least duration asks. -/
theorem searchFloor_le (terms : BoardingTerms) (floor : Time) : terms.searchFloor floor ≤ floor ∧
    ∀ i secs, (i, ConnectionRule.minimumTime secs) ∈ terms.rules → terms.searchFloor floor ≤ terms.minimumFloor secs := by
  have hmin : ∀ a b : Time, min a b ≤ a ∧ min a b ≤ b := fun a b => (Std.le_min_iff).1 (Time.le_refl (min a b))
  unfold searchFloor
  generalize terms.rules = rules
  -- Each least duration may lower the floor with which the fold goes on.
  induction rules generalizing floor with
  | nil => exact ⟨Time.le_refl _, fun i secs h => by cases h⟩
  | cons r rules ih =>
    rw [List.foldl_cons]
    obtain ⟨j, rule⟩ := r
    cases rule with
    | minimumTime d =>
      obtain ⟨hfloor, hrules⟩ := ih (min floor (terms.minimumFloor d))
      refine ⟨Time.le_trans hfloor (hmin _ _).1, fun i secs hmem => ?_⟩
      rcases List.mem_cons.1 hmem with heq | hmem
      · cases heq
        exact Time.le_trans hfloor (hmin _ _).2
      · exact hrules i secs hmem
    | guaranteed =>
      refine ⟨(ih floor).1, fun i secs hmem => (ih floor).2 i secs ?_⟩
      simpa using hmem
    | notAllowed =>
      refine ⟨(ih floor).1, fun i secs hmem => (ih floor).2 i secs ?_⟩
      simpa using hmem

/-- The search starts no later than a trip leaves that is allowed. -/
theorem searchFloor_le_of_allows (h : terms.allows floor i departure = true) : terms.searchFloor floor ≤ departure := by
  obtain ⟨hfloor, hrules⟩ := terms.searchFloor_le floor
  unfold allows at h
  split at h
  · cases h
  · rename_i secs hrule
    exact Time.le_trans (hrules i secs (mem_rules_of_rule? hrule)) (of_decide_eq_true h)
  · exact Time.le_trans hfloor (of_decide_eq_true h)
  · exact Time.le_trans hfloor (of_decide_eq_true h)

end BoardingTerms

namespace Task

variable {task : Task} {starts : Headway → Time → Prop} {route : Route} {p : Position} {a : Arrival}
  {last : Option AlightedTrip} {run : Run}

/-- The run may be boarded at position `p` after the arrival `a`, which has left the trip `last`. Headway services
have runs with the given starts. -/
structure Eligible (task : Task) (starts : Headway → Time → Prop) (last : Option AlightedTrip) (a : Arrival)
    (route : Route) (p : Position) (run : Run) : Prop where
  runs : route.RunsFrom starts run
  boardable : task.pricing.boardable run.schedule = true
  mayBoard : task.MayBoard last a.time a.rides route p run

/-- A trip that waits comes before other trips, and these come before the runs of headway services. -/
def boardingRank (task : Task) (last : Option AlightedTrip) (route : Route) (p : Position) (run : Run) : Nat :=
  if task.network.boardingRule? last route p run = some .guaranteed then 0 else if run.isHeadway then 2 else 1

theorem boardingRank_headway (task : Task) (last : Option AlightedTrip) (route : Route) (p : Position) (i : Nat)
    (service : Headway) (first : Time) : task.boardingRank last route p (Run.ofHeadway i service first) = 2 := by
  unfold boardingRank
  rw [Network.boardingRule?_headway _ last route p rfl]
  rfl

theorem boardingRank_le_one (task : Task) (last : Option AlightedTrip) (route : Route) (p : Position) (i : Nat)
    (trip : Schedule) : task.boardingRank last route p (Run.ofTrip i trip) ≤ 1 := by
  unfold boardingRank
  split
  · exact Nat.zero_le 1
  · exact Nat.le_refl 1

theorem boardingRank_of_no_promise {i : Nat} {trip : Schedule}
    (h : task.network.boardingRule? last route p (Run.ofTrip i trip) ≠ some .guaranteed) :
    task.boardingRank last route p (Run.ofTrip i trip) = 1 := by
  unfold boardingRank
  rw [if_neg h]
  rfl

theorem boardingRank_of_promise
    (h : task.network.boardingRule? last route p run = some .guaranteed) : task.boardingRank last route p run = 0 :=
  if_pos h

/-! ## Runs that may be boarded -/

/-- A run of a headway service needs the usual slack. -/
theorem eligible_headway_iff : task.Eligible starts last a route p run ∧ run.isHeadway = true ↔
    route.ServiceLeaves starts p (task.settings.boardingFloor a.time a.rides) task.pricing.boardable run := by
  constructor
  · rintro ⟨⟨hruns, hboardable, hmay⟩, hheadway⟩
    cases hruns with
    | scheduled _ => cases hheadway
    | headway hservice hstarts =>
      unfold MayBoard at hmay
      rw [Network.boardingRule?_headway _ last route p rfl] at hmay
      exact ⟨_, _, _, hservice, hstarts, rfl, hboardable, hmay⟩
  · rintro ⟨i, service, first, hservice, hstarts, rfl, hacc, hfloor⟩
    exact ⟨⟨.headway hservice hstarts, hacc, mayBoard_of_floor (Network.boardingRule?_headway _ last route p rfl) hfloor⟩,
      rfl⟩

/-- Where no rule is about the boarding, a scheduled trip needs the usual slack. -/
theorem eligible_trip_iff_of_no_rule (hrule : ∀ run, task.network.boardingRule? last route p run = none) :
    task.Eligible starts last a route p run ∧ run.isHeadway = false ↔
      route.TripLeaves p (task.settings.boardingFloor a.time a.rides) (fun _ => task.pricing.boardable) run := by
  constructor
  · rintro ⟨⟨hruns, hboardable, hmay⟩, hkind⟩
    cases hruns with
    | scheduled htrip =>
      unfold MayBoard at hmay
      rw [hrule] at hmay
      exact ⟨_, _, htrip, rfl, hboardable, Run.departure_ofTrip _ _ p ▸ hmay⟩
    | headway _ _ => cases hkind
  · rintro ⟨i, trip, htrip, rfl, hacc, hfloor⟩
    exact ⟨⟨.scheduled htrip, hacc, mayBoard_of_floor (hrule _) ((Run.departure_ofTrip i trip p).symm ▸ hfloor)⟩, rfl⟩

/-- Without a promise the terms allow what the rules do. -/
theorem allows_of_mayBoard {left : AlightedTrip} {i : Nat} {trip : Schedule}
    (hmay : task.MayBoard (some left) a.time a.rides route p (Run.ofTrip i trip))
    (hrule : (task.boardingTerms route p a.time left).rule? i ≠ some .guaranteed) :
    (task.boardingTerms route p a.time left).allows (task.settings.boardingFloor a.time a.rides) i
      (trip.departure p) = true := by
  unfold MayBoard at hmay
  rw [Network.boardingRule?_scheduled, ← rule?_boardingTerms task route p a.time, Run.departure_ofTrip] at hmay
  unfold BoardingTerms.allows
  cases hterms : (task.boardingTerms route p a.time left).rule? i with
  | none =>
    rw [hterms] at hmay
    exact decide_eq_true hmay
  | some rule =>
    rw [hterms] at hmay
    cases rule with
    | guaranteed => exact absurd hterms hrule
    | notAllowed => exact hmay.elim
    | minimumTime secs => exact decide_eq_true hmay

/-- Under terms a scheduled trip waits, or it is allowed and found. -/
theorem eligible_trip_iff (hnet : task.network.Sound) {left : AlightedTrip} :
    task.Eligible starts (some left) a route p run ∧ run.isHeadway = false ↔
      (∃ i trip, i ∈ (task.boardingTerms route p a.time left).waiting ∧ route.trips[i]? = some trip ∧
        run = Run.ofTrip i trip ∧ task.pricing.boardable trip = true) ∨
      route.TripLeaves p ((task.boardingTerms route p a.time left).searchFloor
          (task.settings.boardingFloor a.time a.rides))
        (fun i trip => task.pricing.boardable trip &&
          (task.boardingTerms route p a.time left).allows (task.settings.boardingFloor a.time a.rides) i
            (trip.departure p)) run := by
  constructor
  · rintro ⟨⟨hruns, hboardable, hmay⟩, hkind⟩
    cases hruns with
    | @scheduled i trip htrip =>
      by_cases hrule : (task.boardingTerms route p a.time left).rule? i = some .guaranteed
      · exact .inl ⟨i, trip, BoardingTerms.mem_waiting hrule, htrip, rfl, hboardable⟩
      · have hallows := allows_of_mayBoard hmay hrule
        exact .inr ⟨i, trip, htrip, rfl, Bool.and_eq_true _ _ ▸ ⟨hboardable, hallows⟩,
          BoardingTerms.searchFloor_le_of_allows hallows⟩
    | headway _ _ => cases hkind
  · rintro (⟨i, trip, hwait, htrip, rfl, hacc⟩ | ⟨i, trip, htrip, rfl, hacc, -⟩)
    · exact ⟨⟨.scheduled htrip, hacc, mayBoard_of_mem_waiting hnet hwait⟩, rfl⟩
    · obtain ⟨hboardable, hallows⟩ := (Bool.and_eq_true _ _).mp hacc
      exact ⟨⟨.scheduled htrip, hboardable, mayBoard_of_allows hallows⟩, rfl⟩

/-! ## The search -/

/-- Every run is a scheduled trip or one of a headway service. -/
theorem eligible_split : (task.Eligible starts last a route p run ∧ run.isHeadway = false) ∨
    (task.Eligible starts last a route p run ∧ run.isHeadway = true) ↔ task.Eligible starts last a route p run := by
  cases run.isHeadway <;> simp

/-- Headway services join what is selected from the scheduled trips, and lose every tie. -/
theorem selects_with_headway {trips : Run → Prop} {found : Option Run}
    (hstarts : route.FindsStarts starts p (task.settings.boardingFloor a.time a.rides) task.pricing.boardable)
    (htrips : Selects (Run.Precedes (task.boardingRank last route p) p) trips found)
    (hiff : ∀ run, task.Eligible starts last a route p run ∧ run.isHeadway = false ↔ trips run)
    (hrank : ∀ run, trips run → task.boardingRank last route p run ≤ 1) :
    Selects (Run.Precedes (task.boardingRank last route p) p) (task.Eligible starts last a route p)
      (Run.earlierOf p found
        (route.earliestHeadway p (task.settings.boardingFloor a.time a.rides) task.pricing.boardable)) := by
  have hheadway : ∀ run,
      route.ServiceLeaves starts p (task.settings.boardingFloor a.time a.rides) task.pricing.boardable run →
      task.boardingRank last route p run = 2 := by
    rintro run ⟨i, service, first, -, -, rfl, -⟩
    exact task.boardingRank_headway last route p i service first
  -- Services have one rank, which is higher than that of any trip.
  refine (Run.earlierOf_selects htrips (Route.earliestHeadway_selects hstarts) ?_ ?_).congr fun run => ?_
  · intro x y hx _ hy _
    rw [hheadway x hx, hheadway y hy]
  · intro x y hx hy _ heq
    have hlt := hrank x hx
    exact .inr ⟨heq, .inl (by rw [hheadway y hy]; omega)⟩
  · rw [← hiff, ← eligible_headway_iff]
    exact eligible_split

/-- Where no rule is about the boarding, the earliest run after the slack is boarded. -/
theorem earliestRun_selects
    (hstarts : route.FindsStarts starts p (task.settings.boardingFloor a.time a.rides) task.pricing.boardable)
    (hp : p < route.pattern.size)
    (hrule : ∀ run, task.network.boardingRule? last route p run = none) :
    Selects (Run.Precedes (task.boardingRank last route p) p) (task.Eligible starts last a route p)
      (route.earliestRun p (task.settings.boardingFloor a.time a.rides) task.pricing.boardable) := by
  have hone : ∀ run, route.TripLeaves p (task.settings.boardingFloor a.time a.rides)
      (fun _ => task.pricing.boardable) run → task.boardingRank last route p run = 1 := by
    rintro run ⟨i, trip, -, rfl, -⟩
    exact boardingRank_of_no_promise (by simp [hrule])
  have htrips : Selects (Run.Precedes (task.boardingRank last route p) p) _
      (route.earliestScheduled p (task.settings.boardingFloor a.time a.rides) fun _ => task.pricing.boardable) :=
    Run.selects_of_sameRank (Route.earliestScheduled_selects hp _) fun x y hx hy => (hone x hx).trans (hone y hy).symm
  exact selects_with_headway hstarts htrips (fun _ => eligible_trip_iff_of_no_rule hrule)
    fun run h => Nat.le_of_eq (hone run h)

/-- Under terms the trips that wait come first, then the others that the terms allow. -/
theorem boardUnderTerms_selects (hnet : task.network.Sound)
    (hstarts : route.FindsStarts starts p (task.settings.boardingFloor a.time a.rides) task.pricing.boardable)
    (hp : p < route.pattern.size) (left : AlightedTrip) :
    Selects (Run.Precedes (task.boardingRank (some left) route p) p) (task.Eligible starts (some left) a route p)
      (task.boardUnderTerms route p (task.settings.boardingFloor a.time a.rides)
        (task.boardingTerms route p a.time left)) := by
  have hwaiting : ∀ i trip, i ∈ (task.boardingTerms route p a.time left).waiting →
      task.boardingRank (some left) route p (Run.ofTrip i trip) = 0 := fun i trip hwait =>
    boardingRank_of_promise (by
      rw [Network.boardingRule?_scheduled, ← rule?_boardingTerms task route p a.time]
      exact rule?_of_mem_waiting hnet hwait)
  have hother : ∀ i trip, i ∉ (task.boardingTerms route p a.time left).waiting →
      task.boardingRank (some left) route p (Run.ofTrip i trip) = 1 := fun i trip hnot =>
    boardingRank_of_no_promise (by
      rw [Network.boardingRule?_scheduled, ← rule?_boardingTerms task route p a.time]
      exact fun hrule => hnot (BoardingTerms.mem_waiting hrule))
  unfold boardUnderTerms
  -- A trip that waits is found by both searches when it is also allowed, and counts as one that waits.
  refine selects_with_headway hstarts (Run.earlierOf_selects
    (Run.selects_of_sameRank Route.earliestOf_selects ?_) (Route.earliestScheduled_selects hp _) ?_ ?_)
    (fun _ => eligible_trip_iff hnet) ?_
  · rintro x y ⟨i, trip, hi, -, rfl, -⟩ ⟨j, trip', hj, -, rfl, -⟩
    rw [hwaiting i trip hi, hwaiting j trip' hj]
  · -- A trip that is found and does not wait has no promise.
    rintro x y ⟨i, trip, htrip, rfl, hacc, -⟩ hx ⟨j, trip', htrip', rfl, hacc', -⟩ hy
    have hi := fun hwait => hx ⟨i, trip, hwait, htrip, rfl, (Bool.and_eq_true _ _ ▸ hacc).1⟩
    have hj := fun hwait => hy ⟨j, trip', hwait, htrip', rfl, (Bool.and_eq_true _ _ ▸ hacc').1⟩
    rw [hother i trip hi, hother j trip' hj]
  · rintro x y ⟨i, trip, hi, -, rfl, -⟩ ⟨j, trip', htrip', rfl, hacc', -⟩ hy heq
    have hj := fun hwait => hy ⟨j, trip', hwait, htrip', rfl, (Bool.and_eq_true _ _ ▸ hacc').1⟩
    refine .inr ⟨heq, .inl ?_⟩
    rw [hwaiting i trip hi, hother j trip' hj]
    exact Nat.zero_lt_one
  · rintro run (⟨i, trip, -, -, rfl, -⟩ | ⟨i, trip, -, rfl, -⟩) <;> exact task.boardingRank_le_one _ route p i trip

/-- Of the runs that may be boarded the search selects one by its departure, its rank and its number. -/
theorem board?_first (hnet : task.network.Sound) (hroute : task.network.routes[route.index]? = some route)
    (hp : p < route.pattern.size) (last : Option AlightedTrip)
    (hstarts : route.FindsStarts starts p (task.settings.boardingFloor a.time a.rides) task.pricing.boardable) :
    Selects (Run.Precedes (task.boardingRank last route p) p) (task.Eligible starts last a route p)
      (task.board? route p a last) := by
  unfold board?
  split
  · exact earliestRun_selects hstarts hp fun _ => rfl
  · rename_i left
    split
    · exact boardUnderTerms_selects hnet hstarts hp left
    · rename_i hmark
      exact earliestRun_selects hstarts hp
        fun run => Network.boardingRule?_unmarked hnet hroute (by simpa using hmark) _ run

/-- The same of the starts that the search computes. -/
theorem board?_first_reaches (hnet : task.network.Sound) (hroute : task.network.routes[route.index]? = some route)
    (hp : p < route.pattern.size) (a : Arrival) (last : Option AlightedTrip) :
    Selects (Run.Precedes (task.boardingRank last route p) p) (task.Eligible Headway.Reaches last a route p)
      (task.board? route p a last) :=
  board?_first hnet hroute hp last
    (Route.findsStarts_reaches (hnet.service_isOfTrip route (Array.mem_of_getElem? hroute)) p _ _)

/-- A run is boarded only as the rules allow. -/
theorem board?_spec (hnet : task.network.Sound) (hroute : task.network.routes[route.index]? = some route)
    (hp : p < route.pattern.size) (h : task.board? route p a last = some run) :
    route.Offers run ∧ task.pricing.boardable run.schedule = true ∧ task.MayBoard last a.time a.rides route p run := by
  have heligible := (board?_first_reaches hnet hroute hp a last).eligible_of_eq h
  exact ⟨heligible.runs.offers, heligible.boardable, heligible.mayBoard⟩

/-- No run that may be boarded leaves earlier than the one that is. -/
theorem board?_le (hnet : task.network.Sound) (hroute : task.network.routes[route.index]? = some route)
    (hp : p < route.pattern.size) (h : task.Eligible Headway.Reaches last a route p run) :
    ∃ run', task.board? route p a last = some run' ∧ run'.departure p ≤ run.departure p := by
  obtain ⟨run', hrun', hfirst⟩ := (board?_first_reaches hnet hroute hp a last).exists_before h
  exact ⟨run', hrun', hfirst.departure_le⟩

/-! ## Where the sums fit -/

/-- The number of seconds needs no more than 32 bits, one of them for the sign. -/
def Fits (n : Int) : Prop := -2147483648 ≤ n ∧ n ≤ 2147483647

/-- What a boarding adds up fits: the slack, and for each service that may be boarded the way from its first start to
the floor, also with one interval more. -/
structure SumsFit (task : Task) (route : Route) (p : Position) (a : Arrival) : Prop where
  slack : Fits (task.settings.boardSlack + if 0 < a.rides then task.settings.transferSlack else 0)
  services : ∀ s ∈ route.services, task.pricing.boardable s.template = true →
    let floor := a.time + (task.settings.boardSlack + if 0 < a.rides then task.settings.transferSlack else 0)
    let needed := floor.secs - (s.template.departure p).secs
    Fits needed ∧ Fits (needed - s.start.secs) ∧
      (s.start.secs < needed → Fits (needed - s.start.secs + s.interval))

theorem fits_iff {n : Int} : Time.fits n = true ↔ Fits n := by
  unfold Time.fits Fits
  rw [Bool.and_eq_true, decide_eq_true_eq, decide_eq_true_eq]

theorem sumsFit_service_iff {s : Headway} {floor : Time} : s.sumsFit p floor = true ↔
    Fits (floor.secs - (s.template.departure p).secs) ∧
      Fits (floor.secs - (s.template.departure p).secs - s.start.secs) ∧
      (s.start.secs < floor.secs - (s.template.departure p).secs →
        Fits (floor.secs - (s.template.departure p).secs - s.start.secs + s.interval)) := by
  unfold Headway.sumsFit
  simp only [Bool.and_eq_true, Bool.or_eq_true, fits_iff, decide_eq_true_eq, and_assoc]
  refine and_congr_right fun _ => and_congr_right fun _ => ?_
  rw [← Int.not_lt, Int.sub_pos, ← imp_iff_not_or]

theorem sumsFit_iff : task.sumsFit route p a = true ↔ task.SumsFit route p a := by
  unfold sumsFit
  rw [Bool.and_eq_true, fits_iff, Array.all_eq_true_iff_forall_mem]
  constructor
  · rintro ⟨hslack, hservices⟩
    refine ⟨hslack, fun s hs hboardable => sumsFit_service_iff.1 ?_⟩
    have hservice := hservices s hs
    rwa [hboardable, Bool.not_true, Bool.false_or] at hservice
  · rintro ⟨hslack, hservices⟩
    refine ⟨hslack, fun s hs => ?_⟩
    rw [Bool.or_eq_true, Bool.not_eq_true', ← Bool.not_eq_true, ← imp_iff_not_or]
    exact fun hboardable => sumsFit_service_iff.2 (hservices s hs hboardable)

/-- A run that has been found is the one to board. -/
theorem board?_of_findRun {route : Route} {p : Position} {found : Option Run}
    (h : task.findRun route p a last = .ok found) : task.board? route p a last = found := by
  unfold findRun at h
  split at h
  · exact Except.ok.inj h
  · cases h

/-- On a built network the search boards, of the runs of a route that may be boarded at a position, the one that
leaves first. Of several that leave together it is one that waits, or else the scheduled trip with the lowest
number, or else a run of the headway service with the lowest number. It boards none only where none may be
boarded. So it is where all sums fit and the starts of services lie inside the range of times; where a sum does not
fit the search stops instead. -/
theorem findRun_selects (hnet : task.network.IsBuilt) {i : RouteIndex} (hroute : task.network.routes[i]? = some route)
    (hp : p < route.pattern.size) (a : Arrival) (last : Option AlightedTrip) :
    (¬ task.SumsFit route p a → task.findRun route p a last = .error .sum) ∧
      (task.SumsFit route p a → ∃ found, task.findRun route p a last = .ok found ∧
        ((∀ s ∈ route.services, task.pricing.boardable s.template = true → s.InRange p
            (a.time + (task.settings.boardSlack + if 0 < a.rides then task.settings.transferSlack else 0))) →
          Selects (Run.Precedes (task.boardingRank last route p) p) (task.Eligible Headway.Starts last a route p)
            found)) := by
  have hsound := Network.sound_of_isBuilt hnet
  obtain rfl := hsound.route_index i route hroute
  unfold findRun
  rw [← sumsFit_iff]
  refine ⟨fun hnot => if_neg hnot, fun hfit => ⟨_, if_pos hfit, fun hrange => ?_⟩⟩
  exact board?_first hsound hroute hp last
    (Route.findsStarts_of_inRange (hsound.service_isOfTrip route (Array.mem_of_getElem? hroute)) hrange)

/-- The task of someone who travels through the valley. -/
def throughMarket : Task :=
  .ofRequest .valley .standard
    { departure := .hms 7 50 0
      latestArrival := none
      access := [.walk 0 60 60]
      egress := [.walk 3 60 60]
      weights := .standard }

/-- The arrival at the market with an upper bus that is late. -/
def lateAtMarket : Arrival where
  parent := none
  stop := 2
  time := .hms 8 40 0
  rides := 1
  cost := 0
  round := 1
  via := .ride 0 (.scheduled 0) 0 2 (.hms 8 0 0)

/-- The lower bus waits for the upper one, and leaves at half past eight all the same. -/
theorem lower_bus_selected : throughMarket.network.IsBuilt ∧ ∃ below, throughMarket.network.routes[1]? = some below ∧
    1 < below.pattern.size ∧ throughMarket.SumsFit below 1 lateAtMarket ∧
      ∃ found, throughMarket.findRun below 1 lateAtMarket lateAtMarket.alighted? = .ok found ∧
        Selects (Run.Precedes (throughMarket.boardingRank lateAtMarket.alighted? below 1) 1)
          (throughMarket.Eligible Headway.Starts lateAtMarket.alighted? lateAtMarket below 1) found ∧
        found.map (·.departure 1) = some (.hms 8 30 0) := by
  have heval : (throughMarket.network.routes[1]?.any fun below =>
      1 < below.pattern.size ∧ throughMarket.sumsFit below 1 lateAtMarket = true ∧ below.services = #[] ∧
        (throughMarket.board? below 1 lateAtMarket lateAtMarket.alighted?).map (·.departure 1) =
          some (.hms 8 30 0)) = true := by decide +kernel
  obtain ⟨below, hroute, heval⟩ := Option.any_eq_true .. |>.1 heval
  obtain ⟨hsize, hfit, hservices, hrun⟩ := of_decide_eq_true heval
  have hfit := sumsFit_iff.1 hfit
  obtain ⟨found, hfound, hselects⟩ :=
    (findRun_selects Network.valley_isBuilt hroute hsize lateAtMarket lateAtMarket.alighted?).2 hfit
  rw [board?_of_findRun hfound] at hrun
  exact ⟨Network.valley_isBuilt, below, hroute, hsize, hfit, found, hfound,
    hselects fun s hs => by rw [hservices] at hs; simp at hs, hrun⟩

/-- The longest slack before boarding that can be asked for, and the usual one after a ride. -/
def longSlack : Task := { throughMarket with settings := { Settings.standard with boardSlack := 2147483647 } }

/-- Nobody who keeps the longest slack can board the lower bus after a ride. The search does not say so, but stops. -/
theorem slack_too_long : longSlack.settings.check = .ok () ∧ ∃ below, longSlack.network.routes[1]? = some below ∧
    longSlack.findRun below 1 lateAtMarket none = .error .sum ∧
    ∀ run, ¬ longSlack.Eligible Headway.Starts none lateAtMarket below 1 run := by
  have heval : (longSlack.network.routes[1]?.any fun below =>
      1 < below.pattern.size ∧ longSlack.sumsFit below 1 lateAtMarket = false ∧ below.services = #[] ∧
        below.trips.all fun trip => decide (trip.departure 1 < longSlack.settings.boardingFloor lateAtMarket.time 1)) =
      true := by decide +kernel
  obtain ⟨below, hroute, heval⟩ := Option.any_eq_true .. |>.1 heval
  obtain ⟨hsize, hfit, hservices, htrips⟩ := of_decide_eq_true heval
  refine ⟨Settings.check_of_defect? (by decide +kernel), below, hroute, ?_, ?_⟩
  · rw [findRun, hfit]
    rfl
  · rintro run ⟨hruns, -, hmay⟩
    cases hruns with
    | @scheduled i trip htrip =>
      have hlt := of_decide_eq_true (Array.all_eq_true_iff_forall_mem.1 htrips trip (Array.mem_of_getElem? htrip))
      exact Time.not_lt.2 (Run.departure_ofTrip i trip 1 ▸ hmay) hlt
    | headway hservice _ =>
      rw [hservices] at hservice
      cases hservice

end Task

end JourneyPlanner
