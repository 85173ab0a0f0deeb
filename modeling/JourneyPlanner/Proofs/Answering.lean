import JourneyPlanner.Proofs.Iterations
import JourneyPlanner.Proofs.EarliestStore
import JourneyPlanner.Proofs.FrontierStore
import JourneyPlanner.Proofs.Selecting
/-!
# The answer to a request

A built network answers every request that it accepts, unless a sum of the search does not fit
(`Network.plan_gives`). The itineraries of the answer are journeys, and they cover the goals that the search
has left behind.
-/
namespace JourneyPlanner

open ArrivalStore (log truncations)

/-- A request that has been accepted names stops of the network. -/
theorem Request.stop_lt {request : Request} {stops : Nat} (h : request.check stops = .ok ()) :
    ∀ path ∈ request.access ++ request.egress, path.stop < stops := by
  simp only [check, defect?] at h
  intro path hpath
  apply Nat.not_le.1
  intro hle
  have hfind : (request.access ++ request.egress).find? (fun path => stops ≤ path.stop) ≠ none := by
    intro hnone
    exact List.find?_eq_none.1 hnone path hpath (by simpa using hle)
  split at h
  · cases h
  · rename_i hdefect
    split at hdefect
    · cases hdefect
    · split at hdefect
      · cases hdefect
      · split at hdefect
        · cases hdefect
        · split at hdefect
          · cases hdefect
          · rename_i hnone
            exact hfind hnone

namespace Task

variable {task : Task}

/-- A search on a built network is ready once the settings and the request have been accepted. -/
theorem ready_of_check {net : Network} (hnet : net.IsBuilt) {settings : Settings} (hsettings : settings.check = .ok ())
    {request : Request} (hrequest : request.check net.stopCount = .ok ()) (clock : Clock) :
    (ofRequest net settings request clock).Ready :=
  ⟨Network.sound_of_isBuilt hnet, Settings.sound_of_check hsettings, fun path hpath =>
    Request.stop_lt hrequest path (List.mem_append_left _ hpath)⟩

/-- Every departure that is tried is one that the request allows. -/
theorem Starts.of_departures {earliest : Time} {leg : StreetLeg} {s : Standing} (h : task.Starts earliest leg s) :
    task.Starts task.request.departure leg s := by
  cases h with
  | intro hpath hdeparture _ hstart hle hopen =>
    exact .intro hpath hdeparture ((departures_spec task).2 _ hdeparture) hstart hle hopen

theorem Journey.of_departures {earliest : Time} {legs : List Leg} (h : task.Journey earliest legs) :
    task.Journey task.request.departure legs := by
  cases h with
  | intro hstart hsteps hrides hend => exact .intro hstart.of_departures hsteps hrides hend

/-- With either store a search that is ready succeeds, unless it stops where a sum does not fit. -/
theorem runs_give {net : Network} {settings : Settings} {request : Request} {clock : Clock}
    (hready : (ofRequest net settings request clock).Ready) :
    GivesInRange ((ofRequest net settings request clock).run (EarliestArrivals.init net.stopCount settings.maxRounds))
        (ofRequest net settings request clock).Searched ∧
      GivesInRange
        ((ofRequest net settings request clock).run (ArrivalFrontiers.init net.stopCount settings.frontierSize))
        (ofRequest net settings request clock).Searched := by
  have hrounds : settings.maxRounds < 256 := Nat.lt_of_le_of_lt hready.settings.maxRounds_le (by omega)
  have hearliest : LawfulStore.Good net.stopCount settings.maxRounds
      (EarliestArrivals.init net.stopCount settings.maxRounds) := EarliestArrivals.good_init _ _
  have hfrontiers : LawfulStore.Good net.stopCount settings.maxRounds
      (ArrivalFrontiers.init net.stopCount settings.frontierSize) := ArrivalFrontiers.good_init _ hrounds
  exact ⟨run_gives hready hearliest rfl, run_gives hready hfrontiers rfl⟩

variable {σ : Type} [ArrivalStore σ] {outcome : Outcome σ}

/-- Some arrival that the search has kept is by a run that starts at the last time there is. -/
def HasLast (outcome : Outcome σ) : Prop := ∃ id x, (log outcome.store).get? id = .ok x ∧ x.StartsLast

variable [LawfulStore σ]

/-- Where no run starts at the last time, each goal is told as an itinerary. -/
theorem Searched.itinerary?_eq (hready : task.Ready) (h : task.Searched outcome) {g : Goal}
    (hg : g ∈ outcome.goals.items) :
    (∃ it, task.itinerary? (log outcome.store) g = .ok (some it) ∧ task.Attains g it) ∨
      (task.itinerary? (log outcome.store) g = .ok none ∧ HasLast outcome) :=
  (h.goals g hg).itinerary?_eq hready.network hready.settings h.backward

/-- Without headway services no run starts at the last time there is. -/
theorem Searched.not_hasLast (hready : task.Ready) (hplain : task.Plain) (h : task.Searched outcome) :
    ¬ HasLast outcome := by
  rintro ⟨id, x, hget, route, service, first, p, q, boardTime, hvia, _⟩
  obtain ⟨last, htraces⟩ := h.traces id x hget
  cases htraces with
  | access _ _ _ _ harrival =>
    obtain ⟨_, _, _, rfl⟩ := accessArrival?_eq harrival
    cases hvia
  | @ride parent _ _ route' p' q' run _ _ _ hroute hpq hq _ hboard _ =>
    obtain ⟨hoffers, _, _⟩ := board?_spec hready.network hroute (Nat.lt_trans hpq hq) hboard
    obtain ⟨i, trip, -, rfl⟩ := (hplain.fifo route' (Array.mem_of_getElem? hroute)).exists_trip hoffers
    cases hvia
  | transfer _ _ _ _ => cases hvia

/-- The result answers with journeys that cover the goals. -/
structure Answers (task : Task) (outcome : Outcome σ) (result : SearchResult) : Prop where
  sound : ∀ it ∈ result.itineraries, task.Sound task.request.departure it
  stats_eq : result.stats = outcome.stats
  covers : ∀ g ∈ outcome.goals.items,
    (∃ it it', it ∈ result.itineraries ∧ task.Attains g it' ∧ task.Covers it it') ∨ HasLast outcome

theorem itineraries_gives (hready : task.Ready) (h : task.Searched outcome) :
    Gives (task.itineraries (log outcome.store) outcome.goals.items) fun its =>
      (∀ it ∈ its, task.Sound task.request.departure it) ∧
        ∀ g ∈ outcome.goals.items, (∃ it ∈ its, task.Attains g it) ∨ HasLast outcome := by
  unfold itineraries
  refine (gives_mapM (P := fun o => ∀ it, o = some it → task.Sound task.request.departure it) _
    fun g hg => ?_).bind fun os ⟨hsound, hall⟩ => gives_pure ⟨fun it hit => ?_, fun g hg => ?_⟩
  · rcases h.itinerary?_eq hready hg with ⟨it, heq, hattains⟩ | ⟨heq, _⟩
    · exact ⟨_, heq, fun it' hit' => by cases hit'; exact ⟨hattains.sound.journey.of_departures, hattains.sound.made⟩⟩
    · exact ⟨_, heq, fun it' hit' => by cases hit'⟩
  · obtain ⟨o, ho, hsome⟩ := List.mem_filterMap.1 hit
    exact hsound o ho it hsome
  · rcases h.itinerary?_eq hready hg with ⟨it, heq, hattains⟩ | ⟨_, hlast⟩
    · obtain ⟨o, ho, heq'⟩ := hall g hg
      rw [heq] at heq'
      cases heq'
      exact .inl ⟨it, List.mem_filterMap.2 ⟨some it, ho, rfl⟩, hattains⟩
    · exact .inr hlast

theorem answer_gives (hready : task.Ready) (h : task.Searched outcome) :
    Gives (task.answer outcome) fun r => task.Answers outcome r.1 := by
  unfold answer
  apply (itineraries_gives hready h).bind
  rintro its ⟨hsound, hgoals⟩
  apply (select_gives hsound).bind
  rintro selection ⟨hsound', hcover⟩
  refine gives_pure ⟨hsound', rfl, fun g hg => ?_⟩
  rcases hgoals g hg with ⟨it', hit', hattains⟩ | hlast
  · obtain ⟨it, hit, hcovers⟩ := hcover it' hit'
    exact .inl ⟨it, it', hit, hattains, hcovers⟩
  · exact .inr hlast

/-- A search that starts with an empty store gives an answer, unless it stops where a sum does not fit. -/
theorem search_gives (hready : task.Ready) {store : σ}
    (hgood : LawfulStore.Good task.network.stopCount task.settings.maxRounds store) (hempty : log store = .empty) :
    GivesInRange (task.search store) fun result => ∃ outcome : Outcome σ, task.Searched outcome ∧
      task.Answers outcome result := by
  unfold search
  apply (run_gives hready hgood hempty).bind
  intro outcome houtcome
  exact (answer_gives hready houtcome).unless.bind fun r hr => givesUnless_pure ⟨outcome, houtcome, hr⟩

end Task

/-! ## Plans -/

/-- What a plan goes back to: a search with the store of the profile, and its answer. -/
inductive Network.Planned (task : Task) (result : SearchResult) : Prop
  | standard {outcome : Outcome EarliestArrivals} : task.settings.profile = .standard → task.Searched outcome →
      task.Answers outcome result → Planned task result
  | multiCriteria {outcome : Outcome ArrivalFrontiers} : task.settings.profile = .multiCriteria →
      task.Searched outcome → task.Answers outcome result → Planned task result

theorem Network.task?_eq {net : Network} {settings : Settings} (hsettings : settings.check = .ok ()) {request : Request}
    (hrequest : request.check net.stopCount = .ok ()) (clock : Clock) :
    net.task? settings request clock = .ok (.ofRequest net settings request clock) := by
  unfold task?
  rw [hsettings, hrequest]
  rfl

/-- No sum of the search leaves 32 bits, so that the search does not stop there. -/
def Network.SumsFit (net : Network) (settings : Settings) (request : Request) (clock : Clock) : Prop :=
  net.plan settings request clock ≠ .error (.brokenNetwork .sum)

/-- A built network answers every request it accepts, unless the search stops where a sum does not fit. -/
theorem Network.plan_gives {net : Network} (hnet : net.IsBuilt) {settings : Settings}
    (hsettings : settings.check = .ok ()) {request : Request} (hrequest : request.check net.stopCount = .ok ())
    (clock : Clock) : GivesUnless (· = .brokenNetwork .sum) (net.plan settings request clock)
      (Planned (.ofRequest net settings request clock)) := by
  have hready := Task.ready_of_check hnet hsettings hrequest clock
  unfold plan
  rw [task?_eq hsettings hrequest]
  cases hprofile : settings.profile with
  | standard =>
    have hgood : LawfulStore.Good net.stopCount settings.maxRounds
        (EarliestArrivals.init net.stopCount settings.maxRounds) := EarliestArrivals.good_init _ _
    exact (Task.search_gives hready hgood rfl).mapError fun result ⟨outcome, hsearched, hanswers⟩ =>
      .standard hprofile hsearched hanswers
  | multiCriteria =>
    have hrounds : settings.maxRounds < 256 := Nat.lt_of_le_of_lt hready.settings.maxRounds_le (by omega)
    have hgood : LawfulStore.Good net.stopCount settings.maxRounds
        (ArrivalFrontiers.init net.stopCount settings.frontierSize) := ArrivalFrontiers.good_init _ hrounds
    exact (Task.search_gives hready hgood rfl).mapError fun result ⟨outcome, hsearched, hanswers⟩ =>
      .multiCriteria hprofile hsearched hanswers

/-- A built network answers every request it accepts, if all sums fit. -/
theorem Network.exists_plan {net : Network} (hnet : net.IsBuilt) {settings : Settings}
    (hsettings : settings.check = .ok ()) {request : Request} (hrequest : request.check net.stopCount = .ok ())
    {clock : Clock} (hsums : net.SumsFit settings request clock) : ∃ result,
      net.plan settings request clock = .ok result ∧ Planned (.ofRequest net settings request clock) result :=
  (plan_gives hnet hsettings hrequest clock).gives fun _ he => he ▸ hsums

/-- Where the sums of a plan with frontiers fit, its search does not stop. -/
theorem Network.SumsFit.run_ne {net : Network} {settings : Settings} {request : Request} {clock : Clock}
    (hsums : net.SumsFit settings request clock) (hsettings : settings.check = .ok ())
    (hrequest : request.check net.stopCount = .ok ()) (hprofile : settings.profile = .multiCriteria) :
    (Task.ofRequest net settings request clock).run (ArrivalFrontiers.init net.stopCount settings.frontierSize) ≠
      .error .sum := by
  intro hrun
  apply hsums
  unfold plan
  rw [task?_eq hsettings hrequest, ok_bind, hprofile]
  show Except.mapError _ (Task.search _ _) = _
  unfold Task.search
  rw [hrun]
  rfl

/-- The itineraries of a plan are journeys at the price of their legs. -/
theorem Network.Planned.sound {task : Task} {result : SearchResult} (h : Planned task result) :
    ∀ it ∈ result.itineraries, task.Sound task.request.departure it := by
  cases h with
  | standard _ _ hanswers => exact hanswers.sound
  | multiCriteria _ _ hanswers => exact hanswers.sound

/-! ## A request for the ferry -/

/-- The way from a house in the village to one on the island, with a flexible service to the stop. -/
def Request.overFerry : Request where
  departure := .hms 8 0 0
  latestArrival := some (.hms 9 0 0)
  access := [.flex 0 600 600 1]
  egress := [.walk 2 60 60]
  weights := .standard

theorem Settings.check_standard : Settings.standard.check = .ok () := check_of_defect? (by decide +kernel)

theorem Request.check_overFerry : Request.overFerry.check Network.ferry.stopCount = .ok () := by
  have h : Request.overFerry.defect? Network.ferry.stopCount = none := by decide +kernel
  unfold check
  rw [h]

/-- A search that has five milliseconds, and a machine that takes three for each round. -/
def Settings.hasty : Settings := { Settings.standard with timeout := some 5 }

def Clock.slow : Clock := fun rounds => 3 * rounds

theorem Settings.check_hasty : Settings.hasty.check = .ok () := check_of_defect? (by decide +kernel)

namespace Network

theorem sumsFit_ferry : ferry.SumsFit .standard .overFerry .still :=
  ne_error_of_isSome (by decide +kernel) _

theorem sumsFit_hastyFerry : ferry.SumsFit .hasty .overFerry .slow :=
  ne_error_of_isSome (by decide +kernel) _

/-- A walk to the landing, the ferry, and a walk on the island. The time is over before the third round, which
would have found nothing. -/
theorem plan_hastyFerry {result : SearchResult} (h : ferry.plan .hasty .overFerry .slow = .ok result) :
    result.timedOut = true ∧ result.itineraries.map (fun it => it.legs.map Leg.arrival) =
      [[.hms 8 10 0, .hms 8 15 0, .hms 8 30 0, .hms 8 31 0]] := by
  have heval : ((ferry.plan .hasty .overFerry .slow).toOption.map fun result =>
      (result.timedOut, result.itineraries.map fun it => it.legs.map Leg.arrival)) =
      some (true, [[.hms 8 10 0, .hms 8 15 0, .hms 8 30 0, .hms 8 31 0]]) := by decide +kernel
  rw [h] at heval
  exact Prod.mk.inj (Option.some.inj heval)

theorem exists_inside_of_plan_hastyFerry {result : SearchResult}
    (h : ferry.plan .hasty .overFerry .slow = .ok result) :
    ∃ it ∈ result.itineraries, ∀ l ∈ it.legs, l.arrival.Inside := by
  obtain ⟨-, hplan⟩ := plan_hastyFerry h
  cases hits : result.itineraries with
  | nil =>
    rw [hits] at hplan
    cases hplan
  | cons it its =>
    rw [hits] at hplan
    have harrivals : it.legs.map Leg.arrival = [.hms 8 10 0, .hms 8 15 0, .hms 8 30 0, .hms 8 31 0] :=
      (List.cons.inj hplan).1
    refine ⟨it, (by simp), fun l hl => ?_⟩
    have harrival := List.mem_map_of_mem (f := Leg.arrival) hl
    rw [harrivals] at harrival
    have hall : ∀ t ∈ [Time.hms 8 10 0, .hms 8 15 0, .hms 8 30 0, .hms 8 31 0], t.Inside := by decide
    exact hall _ harrival

theorem connections_ferry : ferry.connections.entries = [] := by decide +kernel

/-- A route with one trip keeps order. -/
theorem fifo_ferry : ∀ route ∈ ferry.routes, route.Fifo := by
  have heval : ferry.routes.all (fun r => r.services.isEmpty && decide (r.trips.size = 1)) = true := by decide +kernel
  intro route hroute
  obtain ⟨i, hi, rfl⟩ := Array.mem_iff_getElem.1 hroute
  obtain ⟨hservices, hsize⟩ := (Bool.and_eq_true _ _).mp (Array.all_eq_true.1 heval i hi)
  have hsize := of_decide_eq_true hsize
  refine ⟨by simpa using hservices, fun a ha b hb p q hpq hq hle => ?_⟩
  obtain ⟨j, hj, rfl⟩ := Array.mem_iff_getElem.1 ha
  obtain ⟨k, hk, rfl⟩ := Array.mem_iff_getElem.1 hb
  obtain rfl : j = k := by omega
  exact Time.le_refl _

end Network

end JourneyPlanner
