import JourneyPlanner.Proofs.Answering
/-!
# Nothing better is missed

On a plain network, without rules for changes, without headway services and with routes that keep order,
a search that has dropped nothing reaches every standing as early as any traveller, in no later round, and
where rides are priced evenly at no higher cost (`Task.reaches_of_reachable`). `Network.plan_complete`
carries this over to the itineraries of the answer: whoever gets to the destination finds one that is as good.
-/
namespace JourneyPlanner

open ArrivalStore (log truncations)

namespace Task

/-- Where a traveller can be who leaves the origin at `earliest` or later. -/
inductive Reachable (task : Task) (earliest : Time) : Standing → Prop
  | access {path : StreetPath} {start : Time} : path ∈ task.request.access → earliest ≤ start → path.IsOpen start →
      path.rides ≤ task.settings.maxRounds → task.request.isTooLate (start + path.duration) = false →
      Reachable task earliest ⟨path.stop, start + path.duration, path.rides, path.onBoard, none⟩
  | step {s s' : Standing} {leg : Leg} : Reachable task earliest s → task.Step s leg s' →
      s'.rides ≤ task.settings.maxRounds → task.request.isTooLate s'.time = false → Reachable task earliest s'

/-- Where a traveller can be in this way, and what that costs if no wait does. -/
inductive ReachableAt (task : Task) (earliest : Time) : Standing → Int → Prop
  | access {path : StreetPath} {start : Time} : path ∈ task.request.access → earliest ≤ start → path.IsOpen start →
      path.rides ≤ task.settings.maxRounds → task.request.isTooLate (start + path.duration) = false →
      ReachableAt task earliest ⟨path.stop, start + path.duration, path.rides, path.onBoard, none⟩ path.cost
  | step {s s' : Standing} {cost : Int} {leg : Leg} : ReachableAt task earliest s cost → task.Step s leg s' →
      s'.rides ≤ task.settings.maxRounds → task.request.isTooLate s'.time = false →
      ReachableAt task earliest s' (Pricing.Bill.add task.pricing ⟨cost, s.rides, none⟩ leg).total

/-- A traveller can leave the origin at `earliest` or later and be at the destination at `time` after so
many rides. -/
inductive Attainable (task : Task) (earliest : Time) : Time → Nat → Prop
  | egress {s : Standing} {path : StreetPath} {start : Time} : task.Reachable earliest s →
      path ∈ task.request.egress → path.stop = s.stop → (path.onBoard || s.onBoard) = true → s.time ≤ start →
      path.IsOpen start → task.request.isTooLate (start + path.duration) = false →
      Attainable task earliest (start + path.duration) (s.rides + path.rides)

variable {task : Task} {earliest : Time} {s : Standing}
variable {σ : Type} [ArrivalStore σ] [LawfulStore σ] {p : Progress σ} {outcome : Outcome σ}

/-! ## Stops -/

/-- Without rules for changes, no change has one. -/
theorem boardingFloor_le_of_mayBoard (hentries : task.network.connections.entries = []) {last : Option AlightedTrip}
    {reached : Time} {rides : Nat} {route : Route} {i : Position} {run : Run}
    (h : task.MayBoard last reached rides route i run) : task.settings.boardingFloor reached rides ≤ run.departure i := by
  simp only [MayBoard] at h
  rw [boardingRule?_of_entries hentries] at h
  exact h

theorem Reachable.exists_cost (h : task.Reachable earliest s) : ∃ cost, task.ReachableAt earliest s cost := by
  induction h with
  | access hpath hstart hopen hrides hlate => exact ⟨_, .access hpath hstart hopen hrides hlate⟩
  | step _ hstep hrides hlate ih =>
    obtain ⟨cost, h⟩ := ih
    exact ⟨_, .step h hstep hrides hlate⟩

/-- Whatever can be reached is reached as early by the search, in no later round and, where rides are priced evenly, at
no higher cost. -/
theorem reaches_of_reachable (hready : task.Ready) (hplain : task.Plain) (hcompleted : task.Completed earliest p)
    (hseeded : task.Seeded earliest p task.settings.maxRounds) (hroom : truncations p.store = 0) {cost : Int}
    (h : task.ReachableAt earliest s cost) :
    (log p.store).Reaches (task.Weighs σ (log p.store)) s.stop s.time cost s.rides s.onBoard := by
  induction h with
  | @access path start hpath hstart hopen hrides hlate =>
    obtain ⟨start', hstart', hle⟩ := StreetPath.earliestStart?_mono (Time.le_refl _) hstart hopen
    have htime := Time.add_mono hle path.duration
    have hentered := (hseeded _ hpath hrides start' hstart' (isTooLate_mono hlate htime)).mono
      (ArrivalLog.extends_refl _) (fun hweighs : task.Weighs σ (log p.store) => hweighs.heeds)
    exact hentered.le htime (fun _ => Int.le_refl _) (Nat.le_refl _)
  | @step s s' cost leg _ hstep hrides hlate ih =>
    obtain ⟨id, a, hget, hstop, htime, hcost, hround, honBoard⟩ := ih
    have htallies := LawfulStore.rides_le (LawfulStore.good_tallies hcompleted.valid.good id a hget)
    cases hstep with
    | @ride route run i q hroute hoffers _ hboardable hiq hq hstop' hmay =>
      -- Whoever arrives earlier in no later round may board, too.
      have hfewer : 0 < a.rides → 0 < s.rides := fun hpos => Nat.lt_of_lt_of_le hpos (Nat.le_trans htallies hround)
      have hfloor := Settings.boardingFloor_mono hready.settings.transferSlack htime hfewer
      have hcatch := Time.le_trans hfloor (boardingFloor_le_of_mayBoard hplain.entries hmay)
      have hroom' : a.round < task.settings.maxRounds := Nat.lt_of_le_of_lt hround hrides
      have hridden := hcompleted.ridesDone hplain hroom id a hget hroom' route.index route hroute i q
        (hstop'.trans hstop.symm) hiq hq run hoffers hboardable hcatch hlate
      refine hridden.le (Time.le_refl _) (fun hweighs => ?_) (Nat.succ_le_succ hround)
      have hfare := hweighs.fare_le (Array.mem_of_getElem? hroute) hoffers hoffers hboardable hboardable hiq hq
        (Time.le_refl _) hfewer hrides
      have hpaid := hcost hweighs
      show _ ≤ cost + task.pricing.boardingCost (decide (0 < s.rides)) 0 run.schedule.accessibility +
        task.pricing.rideCost route.index run.schedule.reluctance (run.arrival q - run.departure i)
      rw [Int.add_assoc]
      exact Int.add_le_add hpaid hfare
    | @transfer transfer leg honBoard' htransfer _ _ _ _ hlegCost _ =>
      have hle := Time.add_mono htime transfer.duration
      have hwalked := hcompleted.walksDone hroom id a hget (honBoard honBoard') transfer (hstop ▸ htransfer)
        (isTooLate_mono hlate hle)
      refine hwalked.le hle (fun hweighs => ?_) hround
      show _ ≤ cost + leg.cost
      rw [hlegCost]
      exact Int.add_le_add_right (hcost hweighs) _

/-! ## Destinations -/

/-- Whoever leads on from there to the destination finds a goal that is as good. -/
theorem arrives_of_reachable (hready : task.Ready) (hplain : task.Plain) (hcompleted : task.Completed earliest p)
    (hseeded : task.Seeded earliest p task.settings.maxRounds) (hroom : truncations p.store = 0) {cost : Int}
    (h : task.ReachableAt earliest s cost) {path : StreetPath} (hpath : path ∈ task.request.egress)
    (hstop : path.stop = s.stop) (honBoard : (path.onBoard || s.onBoard) = true) {start : Time}
    (hstart : s.time ≤ start) (hopen : path.IsOpen start)
    (hlate : task.request.isTooLate (start + path.duration) = false) :
    ∃ paid, (task.Weighs σ (log p.store) → paid ≤ cost + path.cost) ∧
      p.goals.Arrives earliest (start + path.duration) (min 255 (s.rides + path.rides)) paid := by
  obtain ⟨id, a, hget, hstop', htime, hcost, hround, honBoard'⟩ :=
    reaches_of_reachable hready hplain hcompleted hseeded hroom h
  have htallies := LawfulStore.rides_le (LawfulStore.good_tallies hcompleted.valid.good id a hget)
  have harrives := (hcompleted.valid.goalsDone id a hget).arrives hpath (hstop.trans hstop'.symm) honBoard honBoard'
    (Time.le_trans htime hstart) hopen hlate
  refine ⟨a.cost + path.cost, fun hweighs => Int.add_le_add_right (hcost hweighs) _, ?_⟩
  refine harrives.mono (Time.le_refl _) (Time.le_refl _) ?_ (Int.le_refl _)
  unfold addRides
  omega

/-- Whatever can be attained is attained by a goal of the search. -/
theorem arrives_of_attainable (hready : task.Ready) (hplain : task.Plain) (hcompleted : task.Completed earliest p)
    (hseeded : task.Seeded earliest p task.settings.maxRounds) (hroom : truncations p.store = 0) {time : Time}
    {rides : Nat} (h : task.Attainable earliest time rides) :
    ∃ paid, p.goals.Arrives earliest time (min 255 rides) paid := by
  obtain ⟨hreachable, hpath, hstop, honBoard, hstart, hopen, hlate⟩ := h
  obtain ⟨cost, hreachable⟩ := hreachable.exists_cost
  obtain ⟨paid, -, harrives⟩ := arrives_of_reachable hready hplain hcompleted hseeded hroom hreachable hpath hstop
    honBoard hstart hopen hlate
  exact ⟨paid, harrives⟩

/-! ## Departures -/

theorem Sound.eq_ofLegs {it : Itinerary} (h : task.Sound earliest it) :
    it.transfers = Itinerary.rideCount it.legs - 1 ∧ ∃ access s, task.Starts earliest access s ∧
      it.departure = access.departure := by
  obtain ⟨hjourney, hmade⟩ := h
  generalize hlegs : it.legs = legs at hjourney hmade
  cases hjourney with
  | @intro access egress s s' middle hstart hsteps _ hend =>
    rw [hsteps.ofLegs_eq hstart hend] at hmade
    rw [← Except.ok.inj hmade]
    exact ⟨rfl, access, s, hstart, rfl⟩

/-- Where the walks to the stops add up, an itinerary leaves no earlier than asked. -/
theorem Sound.le_departure {it : Itinerary} (h : task.Sound earliest it)
    (hexact : ∀ path ∈ task.request.access, ∀ departure ∈ task.departures, ∀ start,
      path.earliestStart? departure = some start → (start + path.duration).secs = start.secs + path.duration) :
    earliest ≤ it.departure := by
  obtain ⟨_, access, s, hstart, hdeparture⟩ := h.eq_ofLegs
  rw [hdeparture]
  exact hstart.le_departure hexact

/-- Without a range of departures only the first one is tried. -/
theorem le_of_mem_departures (hwindow : ¬ 0 < task.settings.window) {departure : Time}
    (h : departure ∈ task.departures) : departure ≤ task.request.departure := by
  have hle : task.request.departure ≤ task.request.departure + max task.settings.window 0 :=
    Time.le_add (Int.le_max_right _ _)
  have hbound := ((departuresDownTo_spec _ _ _ hle).2 departure h).2
  rwa [Int.max_eq_right (Int.not_lt.1 hwindow), Time.add_zero] at hbound

/-- The answer of a search that has dropped nothing has an itinerary as good as any traveller's way. -/
theorem Answers.complete (hready : task.Ready) (hplain : task.Plain) (hsearched : task.Searched outcome)
    {result : SearchResult} (h : task.Answers outcome result) (htimeout : task.settings.timeout = none)
    (hexact : ∀ path ∈ task.request.access, ∀ departure ∈ task.departures, ∀ start,
      path.earliestStart? departure = some start → (start + path.duration).secs = start.secs + path.duration)
    (hroom : truncations outcome.store = 0)
    (hcount : ∀ it ∈ result.itineraries, Itinerary.rideCount it.legs ≤ 255) {departure : Time}
    (hdeparture : departure ∈ task.departures) {time : Time} {rides : Nat}
    (hattainable : task.Attainable departure time rides) :
    ∃ it ∈ result.itineraries, departure ≤ it.departure ∧ it.arrival ≤ time ∧ it.transfers ≤ rides - 1 := by
  obtain ⟨p0, hcompleted, hseeded, hgrows⟩ := hsearched.swept htimeout departure hdeparture
  obtain ⟨paid, harrives⟩ := arrives_of_attainable hready hplain hcompleted hseeded (hgrows.room hroom) hattainable
  obtain ⟨g, hg, hleaves, htime, hrides, -⟩ := hgrows.goals _ _ _ _ harrives
  rcases h.covers g hg with ⟨it, it', hit, hattains, hcovers⟩ | hlast
  · refine ⟨it, hit, ?_, ?_, ?_⟩
    · by_cases hwindow : 0 < task.settings.window
      · exact Time.le_trans (Time.le_trans hleaves (hattains.sound.le_departure hexact)) (hcovers.departure hwindow)
      · exact Time.le_trans (le_of_mem_departures hwindow hdeparture) ((h.sound it hit).le_departure hexact)
    · exact Time.le_trans hcovers.arrival (hattains.arrival_eq ▸ htime)
    · -- More rides than the search can count make at least as many on the traveller's way.
      have h1 := (h.sound it hit).eq_ofLegs.1
      have h2 := hattains.sound.eq_ofLegs.1
      have h3 := hattains.rides_eq
      have h4 := hcovers.transfers
      have h5 := hcount it hit
      omega
  · exact absurd hlast (hsearched.not_hasLast hready hplain)

end Task

/-- On a plain network, a search that has dropped nothing answers with an itinerary that is as good as any
way to the destination, whichever of the departures it starts from. -/
theorem Network.plan_complete {net : Network} (hnet : net.IsBuilt) (hentries : net.connections.entries = [])
    (hfifo : ∀ route ∈ net.routes, route.Fifo) {settings : Settings} (hsettings : settings.check = .ok ())
    (htimeout : settings.timeout = none) {request : Request} (hrequest : request.check net.stopCount = .ok ())
    (hexact : ∀ path ∈ request.access, ∀ departure ∈ departureTimes request.departure settings.window settings.step,
      ∀ start, path.earliestStart? departure = some start →
        (start + path.duration).secs = start.secs + path.duration)
    {clock : Clock} (hsums : net.SumsFit settings request clock) :
    ∃ result, net.plan settings request clock = .ok result ∧
      ((settings.profile = .multiCriteria → result.stats.truncations = 0) →
        (∀ it ∈ result.itineraries, Itinerary.rideCount it.legs ≤ 255) →
        ∀ departure ∈ departureTimes request.departure settings.window settings.step, ∀ time rides,
          (Task.ofRequest net settings request clock).Attainable departure time rides →
          ∃ it ∈ result.itineraries, departure ≤ it.departure ∧ it.arrival ≤ time ∧ it.transfers ≤ rides - 1) := by
  obtain ⟨result, hresult, hplanned⟩ := exists_plan hnet hsettings hrequest hsums
  have hready := Task.ready_of_check hnet hsettings hrequest clock
  have hplain : (Task.ofRequest net settings request clock).Plain := ⟨hentries, hfifo⟩
  refine ⟨result, hresult, fun htruncations hcount departure hdeparture time rides hattainable => ?_⟩
  cases hplanned with
  | standard _ hsearched hanswers =>
    exact hanswers.complete hready hplain hsearched htimeout hexact rfl hcount hdeparture hattainable
  | multiCriteria hprofile hsearched hanswers =>
    have hroom := htruncations hprofile
    rw [hanswers.stats_eq, hsearched.truncations_eq] at hroom
    exact hanswers.complete hready hplain hsearched htimeout hexact hroom hcount hdeparture hattainable

/-- The landing is reached at 8:15 with the flexible service and on foot. -/
theorem Network.reachable_landing : (Task.ofRequest ferry .standard .overFerry).Reachable (.hms 8 0 0)
    ⟨1, .hms 8 15 0, 1, false, none⟩ := by
  obtain ⟨transfer, hfrom, htarget, hduration⟩ : ∃ transfer ∈ ferry.transfersFrom 0,
      transfer.target = 1 ∧ transfer.duration = 300 := by decide +kernel
  have hpath : StreetPath.flex 0 600 600 1 ∈ Request.overFerry.access := List.mem_cons_self
  have hvillage : (Task.ofRequest ferry .standard .overFerry).Reachable (.hms 8 0 0)
      ⟨0, .hms 8 10 0, 1, true, none⟩ :=
    @Task.Reachable.access _ _ (.flex 0 600 600 1) (.hms 8 0 0) hpath (Time.le_refl _) (fun _ h => by cases h)
      (by decide) rfl
  have hwalk : (Task.ofRequest ferry .standard .overFerry).Step ⟨0, .hms 8 10 0, 1, true, none⟩
      (.transfer
        { source := 0
          target := transfer.target
          departure := .hms 8 10 0
          arrival := Time.hms 8 10 0 + transfer.duration
          cost := (Pricing.ofWeights .standard ferry).transferCost transfer
          metres := transfer.metres })
      ⟨transfer.target, Time.hms 8 10 0 + transfer.duration, 1, false, none⟩ :=
    .transfer rfl hfrom rfl rfl rfl rfl rfl rfl
  rw [htarget, hduration] at hwalk
  exact .step hvillage hwalk (show 1 ≤ Settings.standard.maxRounds by decide) rfl

/-- The island is reached at 8:31 with the flexible service and the ferry. -/
theorem Network.attainable_ferry :
    (Task.ofRequest ferry .standard .overFerry).Attainable (.hms 8 0 0) (.hms 8 31 0) 2 := by
  have heval : (ferry.routes[0]?).map (fun r => (r.index, r.pattern.stops,
      (r.trips[0]?).map fun t => (t.departure 0, t.arrival 1))) =
      some (0, #[1, 2], some (.hms 8 20 0, .hms 8 30 0)) := by decide +kernel
  obtain ⟨route, hroute, heval⟩ := Option.map_eq_some_iff.1 heval
  rw [Prod.mk.injEq, Prod.mk.injEq] at heval
  obtain ⟨hindex, hstops, htrip⟩ := heval
  obtain ⟨trip, htrip, htimes⟩ := Option.map_eq_some_iff.1 htrip
  obtain ⟨hdeparture, harrival⟩ := Prod.mk.inj htimes
  have hoffers : route.Offers (Run.ofTrip 0 trip) := .scheduled htrip
  have hmay : (Task.ofRequest ferry .standard .overFerry).MayBoard none (.hms 8 15 0) 1 route 0 (Run.ofTrip 0 trip) := by
    apply Task.mayBoard_of_floor (Network.boardingRule?_none _ _ _ _)
    rw [Run.departure_ofTrip, hdeparture]
    decide
  have hstop : route.pattern.stop 0 = 1 ∧ route.pattern.stop 1 = 2 := by
    unfold StopPattern.stop
    rw [hstops]
    exact ⟨rfl, rfl⟩
  have hisland : (Task.ofRequest ferry .standard .overFerry).Reachable (.hms 8 0 0)
      ⟨route.pattern.stop 1, (Run.ofTrip 0 trip).arrival 1, 2, true, (Run.ofTrip 0 trip).alighted? route.index 1⟩ := by
    refine .step reachable_landing (.ride (by rw [hindex]; exact hroute) hoffers
      (hoffers.resolves fun _ _ h => by cases h) rfl Nat.zero_lt_one ?_ hstop.1 hmay)
      (show 2 ≤ Settings.standard.maxRounds by decide) ?_
    · unfold StopPattern.size
      rw [hstops]
      decide
    · rw [Run.arrival_ofTrip, harrival]
      rfl
  rw [hstop.2, Run.arrival_ofTrip, harrival] at hisland
  have hpath : StreetPath.walk 2 60 60 ∈ Request.overFerry.egress := List.mem_cons_self
  exact @Task.Attainable.egress _ _ _ (.walk 2 60 60) (.hms 8 30 0) hisland hpath rfl rfl (Time.le_refl _)
    (fun _ h => by cases h) rfl

/-- The search for the ferry misses nothing, and finds a way as good. -/
theorem Network.complete_for_ferry : ∃ result, ferry.plan .standard .overFerry = .ok result ∧
    ∃ it ∈ result.itineraries, Time.hms 8 0 0 ≤ it.departure ∧ it.arrival ≤ Time.hms 8 31 0 ∧ it.transfers ≤ 1 := by
  have hdepartures : departureTimes Request.overFerry.departure 0 60 = [.hms 8 0 0] := by decide +kernel
  have hexact : ∀ path ∈ Request.overFerry.access, ∀ departure ∈ departureTimes Request.overFerry.departure 0 60,
      ∀ start, path.earliestStart? departure = some start →
        (start + path.duration).secs = start.secs + path.duration := by
    intro path hpath departure hdeparture start hstart
    rw [hdepartures] at hdeparture
    obtain rfl := List.mem_singleton.1 hpath
    obtain rfl := List.mem_singleton.1 hdeparture
    obtain rfl : Time.hms 8 0 0 = start := Option.some.inj hstart
    decide
  obtain ⟨result, hresult, h⟩ := plan_complete ferry_isBuilt connections_ferry fifo_ferry Settings.check_standard rfl
    Request.check_overFerry hexact sumsFit_ferry
  have hstats : ((ferry.plan .standard .overFerry).toOption.map fun result =>
      (result.stats.truncations, result.itineraries.map fun it => Itinerary.rideCount it.legs)) = some (0, [2]) := by
    decide +kernel
  rw [hresult] at hstats
  obtain ⟨htruncations, hcounts⟩ := Prod.mk.inj (Option.some.inj hstats)
  have hcount : ∀ it ∈ result.itineraries, Itinerary.rideCount it.legs ≤ 255 := by
    intro it hit
    have hmem := List.mem_map_of_mem (f := fun it => Itinerary.rideCount it.legs) hit
    rw [hcounts] at hmem
    rw [List.mem_singleton.1 hmem]
    decide
  have hdeparture : Time.hms 8 0 0 ∈ departureTimes Request.overFerry.departure 0 60 := by
    rw [hdepartures]
    exact List.mem_singleton_self _
  obtain ⟨it, hit, h⟩ := h (fun _ => htruncations) hcount _ hdeparture _ _ attainable_ferry
  exact ⟨result, hresult, it, hit, h⟩

end JourneyPlanner
