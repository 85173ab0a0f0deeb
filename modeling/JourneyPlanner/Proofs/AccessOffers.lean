import JourneyPlanner.Proofs.IdleRounds
import JourneyPlanner.Proofs.Reuse
/-!
# Each access path enters once

Only the entry of access paths offers arrivals by them, and it does so in the round of the path's number of
rides (`Task.roundOffers_byAccess`). That round is run even where the rounds before it have accepted nothing,
because an iteration does not end while an access path is left. So each path that can start is offered once
in every iteration (`Task.iterationOffers_byAccess`). Together with the idle rounds that do nothing,
`Network.plan_ends_early` says that an iteration which ends early loses nothing.
-/
namespace JourneyPlanner

open ArrivalStore (log)

/-- The arrival is offered by the access path of the given number. -/
def Offer.byAccess (number : Nat) (o : Offer) : Bool :=
  match o.arrival.via with
  | .access path _ => path == number
  | _ => false

/-! ## Offers that are not by access paths -/

section NoAccess

variable {ε α β : Type}

/-- None of the arrivals is by an access path. -/
def NoAccess (offers : List Offer) : Prop := ∀ o ∈ offers, o.arrival.isAccess = false

theorem NoAccess.filter_eq_nil {offers : List Offer} (h : NoAccess offers) (number : Nat) :
    offers.filter (Offer.byAccess number) = [] := by
  refine List.filter_eq_nil_iff.2 fun o ho => ?_
  have hnot := h o ho
  unfold Arrival.isAccess at hnot
  unfold Offer.byAccess
  cases hvia : o.arrival.via <;> simp_all

theorem noAccess_offersAfter {x : Except ε α} {offers : α → List Offer} (h : ∀ a, NoAccess (offers a)) :
    NoAccess (offersAfter x offers) := by
  cases x with
  | ok a => exact h a
  | error e => exact fun o ho => by cases ho

/-- What a loop proposes is proposed by one of its steps. -/
theorem exists_of_mem_loopOffers {step : β → α → Except ε β} {offers : β → α → List Offer} {as : List α} {b : β}
    {o : Offer} (h : o ∈ loopOffers step offers b as) : ∃ b', ∃ a ∈ as, o ∈ offers b' a := by
  induction as generalizing b with
  | nil => cases h
  | cons a as ih =>
    rw [loopOffers] at h
    rcases List.mem_append.1 h with h | h
    · exact ⟨b, a, List.mem_cons_self, h⟩
    · cases hstep : step b a with
      | error e =>
        rw [hstep] at h
        cases h
      | ok b' =>
        rw [hstep] at h
        obtain ⟨b'', a', ha', ho⟩ := ih h
        exact ⟨b'', a', List.mem_cons_of_mem a ha', ho⟩

theorem noAccess_loopOffers {step : β → α → Except ε β} {offers : β → α → List Offer}
    (h : ∀ b a, NoAccess (offers b a)) (b : β) (as : List α) : NoAccess (loopOffers step offers b as) := by
  intro o ho
  obtain ⟨b', a, -, ho⟩ := exists_of_mem_loopOffers ho
  exact h b' a o ho

end NoAccess

namespace ArrivalStore

variable {σ : Type} [ArrivalStore σ] [RoundKeeping σ]

/-- Offers keep the round. -/
theorem round_performAll {s s' : σ} {as : List Arrival} (h : performAll s (as.map .offer) = .ok s') :
    round s' = round s := by
  induction as generalizing s with
  | nil =>
    cases h
    rfl
  | cons a as ih =>
    obtain ⟨s1, hperform, h⟩ := of_bind_eq_ok
      (show perform s (.offer a) >>= (fun s1 => performAll s1 (as.map .offer)) = .ok s' from h)
    obtain ⟨⟨s2, id⟩, hoffer, rfl⟩ := of_map_eq_ok (show (offer s a).map (·.1) = .ok s1 from hperform)
    exact (ih h).trans (round_offer hoffer)

end ArrivalStore

/-- A numbered list around one of its elements. No other one has its number. -/
theorem exists_zipIdx_eq_append {α : Type} {l : List α} {n : Nat} {a : α} (h : l[n]? = some a) :
    ∃ before after, l.zipIdx = before ++ (a, n) :: after ∧ (∀ place ∈ before, place.2 ≠ n) ∧
      ∀ place ∈ after, place.2 ≠ n := by
  obtain ⟨hlt, rfl⟩ := List.getElem?_eq_some_iff.1 h
  refine ⟨(l.take n).zipIdx, (l.drop (n + 1)).zipIdx (n + 1), ?_, fun place hplace => ?_, fun place hplace => ?_⟩
  · conv =>
      lhs
      rw [← List.take_append_drop n l, List.zipIdx_append, List.length_take_of_le (Nat.le_of_lt hlt),
        List.drop_eq_getElem_cons hlt, List.zipIdx_cons, Nat.zero_add]
  · have := List.snd_lt_of_mem_zipIdx hplace
    rw [List.length_take] at this
    omega
  · have := List.le_snd_of_mem_zipIdx hplace
    omega

namespace Task

variable {σ : Type} [ArrivalStore σ] {task : Task} {departure : Time} {round number : Nat} {path : StreetPath}
  {p p' : Progress σ}

theorem arrival_mem_of_mem_offersOf {as : List Arrival} {o : Offer} (h : o ∈ task.offersOf departure p as) :
    o.arrival ∈ as := by
  obtain ⟨_, a, ha, ho⟩ := exists_of_mem_loopOffers h
  obtain rfl := List.mem_singleton.1 ho
  exact ha

/-- Rides are not by access paths. -/
theorem noAccess_routeOffers (task : Task) (departure : Time) (round : Nat) (p : Progress σ) (index : RouteIndex) :
    NoAccess (task.routeOffers departure round p index) := by
  refine noAccess_offersAfter fun route => noAccess_loopOffers (fun state place o ho => ?_) _ _
  obtain ⟨rider, -, hrider⟩ := List.mem_map.1 (arrival_mem_of_mem_offersOf ho)
  rw [← hrider]
  rfl

/-- Neither are transfers. -/
theorem noAccess_stopOffers (task : Task) (departure : Time) (round : Nat) (p : Progress σ) (source : Stop) :
    NoAccess (task.stopOffers departure round p source) := by
  refine noAccess_offersAfter fun ids => noAccess_loopOffers (fun p id => ?_) _ _
  refine noAccess_offersAfter fun a o ho => ?_
  obtain ⟨transfer, -, hwalk⟩ := List.mem_map.1 (arrival_mem_of_mem_offersOf ho)
  rw [← hwalk]
  rfl

/-! ## The entry of access paths -/

/-- What is offered by an access path in an iteration: its arrival, if it can start, in the round of its rides. -/
def accessOffers (departure : Time) (number : Nat) (path : StreetPath) : List Offer :=
  (accessArrival? departure path.rides (path, number)).toList.map (Offer.mk path.rides)

/-- Access paths of other numbers offer nothing by this one. -/
theorem filter_byAccess_of_ne {places : List (StreetPath × Nat)} (h : ∀ place ∈ places, place.2 ≠ number) :
    ((places.filterMap (accessArrival? departure round)).map (Offer.mk round)).filter (Offer.byAccess number) = [] := by
  refine List.filter_eq_nil_iff.2 fun o ho => ?_
  obtain ⟨a, ha, rfl⟩ := List.mem_map.1 ho
  obtain ⟨⟨path, number'⟩, hplace, harrival⟩ := List.mem_filterMap.1 ha
  obtain ⟨-, _, -, rfl⟩ := accessArrival?_eq harrival
  simpa [Offer.byAccess] using h _ hplace

/-- Of the access paths entered in a round, the one of the given number offers its arrival if the round is its own. -/
theorem filter_byAccess_accessArrivals (hpath : task.request.access[number]? = some path) :
    ((task.request.access.zipIdx.filterMap (accessArrival? departure round)).map (Offer.mk round)).filter
        (Offer.byAccess number) =
      if path.rides = round then accessOffers departure number path else [] := by
  obtain ⟨before, after, hsplit, hbefore, hafter⟩ := exists_zipIdx_eq_append hpath
  rw [hsplit, List.filterMap_append, List.map_append, List.filter_append, filter_byAccess_of_ne hbefore, List.nil_append,
    List.filterMap_cons]
  unfold accessOffers
  split
  · rename_i hnone
    rw [filter_byAccess_of_ne hafter]
    split
    · rename_i hround
      rw [hround, hnone]
      rfl
    · rfl
  · rename_i a harrival
    obtain ⟨hround, start, -, ha⟩ := accessArrival?_eq harrival
    have hby : Offer.byAccess number ⟨round, a⟩ = true := by
      rw [ha]
      exact beq_self_eq_true number
    rw [List.map_cons, List.filter_cons_of_pos hby, filter_byAccess_of_ne hafter, if_pos hround, hround, harrival]
    rfl

variable [RoundKeeping σ]

theorem round_of_offer {a : Arrival} (h : task.offer departure p a = .ok p') :
    ArrivalStore.round p'.store = ArrivalStore.round p.store := by
  unfold offer at h
  split at h
  · cases h
    exact RoundKeeping.round_reject _ _
  · obtain ⟨⟨s, id⟩, hoffer, h⟩ := of_bind_eq_ok h
    rw [← ArrivalStore.round_offer hoffer]
    cases id <;> cases h <;> rfl

/-- Arrivals that are offered one after another are offered in one round. -/
theorem offersOf_eq_map {as : List Arrival} (h : as.foldlM (task.offer departure) p = .ok p') :
    task.offersOf departure p as = as.map (Offer.mk (ArrivalStore.round p.store)) := by
  induction as generalizing p with
  | nil => rfl
  | cons a as ih =>
    obtain ⟨p1, hoffer, h⟩ := of_bind_eq_ok (show task.offer departure p a >>= _ = .ok p' from h)
    unfold offersOf loopOffers
    rw [hoffer]
    show _ :: task.offersOf departure p1 as = _
    rw [ih h, round_of_offer hoffer]
    rfl

/-- The entry of access paths in a round. -/
theorem seedOffers_byAccess (hround : ArrivalStore.round p.store = round) (h : task.seed departure round p = .ok p')
    (hpath : task.request.access[number]? = some path) :
    (task.seedOffers departure round p).filter (Offer.byAccess number) =
      if path.rides = round then accessOffers departure number path else [] := by
  unfold seedOffers
  rw [offersOf_eq_map h, hround]
  exact filter_byAccess_accessArrivals hpath

/-! ## Rounds and iterations -/

variable [LawfulStore σ]

/-- Of a round, only the entry of access paths offers by them. -/
theorem roundOffers_byAccess (h : task.runRound departure round p = .ok p')
    (hpath : task.request.access[number]? = some path) :
    (task.roundOffers departure round p).filter (Offer.byAccess number) =
      if path.rides = round then accessOffers departure number path else [] := by
  unfold runRound at h
  obtain ⟨p1, hscan, h⟩ := of_bind_eq_ok h
  obtain ⟨p2, hseed, -⟩ := of_bind_eq_ok h
  have hround : ArrivalStore.round p1.store = round := by
    obtain ⟨as, -, hperform⟩ := makesOffers_foldlM Progress.store hscan fun _ _ _ _ => makesOffers_of_scanRoute
    exact (ArrivalStore.round_performAll hperform).trans (RoundKeeping.round_beginRound _ _)
  unfold roundOffers
  dsimp only at hscan ⊢
  simp only [hscan, offersAfter, hseed, List.filter_append]
  rw [(noAccess_loopOffers (task.noAccess_routeOffers departure round) _ _).filter_eq_nil,
    seedOffers_byAccess hround hseed hpath,
    (noAccess_loopOffers (task.noAccess_stopOffers departure round) _ _).filter_eq_nil, List.nil_append, List.append_nil]

/-- The rounds of an iteration offer by an access path once, if its round is among them. -/
theorem roundsOffers_byAccess {left : Nat} (h : task.runRounds departure left round p = .ok (p', false))
    (hpath : task.request.access[number]? = some path) :
    (task.roundsOffers departure left round p).filter (Offer.byAccess number) =
      if round ≤ path.rides ∧ path.rides < round + left then accessOffers departure number path else [] := by
  induction left generalizing round p with
  | zero =>
    rw [if_neg (by omega)]
    rfl
  | succ left ih =>
    unfold runRounds at h
    unfold roundsOffers
    split at h
    · cases h
    · rename_i hexpired
      obtain ⟨p1, hrun, h⟩ := of_bind_eq_ok h
      rw [if_neg hexpired, hrun, List.filter_append, roundOffers_byAccess hrun hpath]
      simp only [offersAfter]
      split at h
      · -- The access paths of the rounds left out have been entered before.
        rename_i hdone
        have hle := rides_le_maxAccessRides (List.mem_of_getElem? hpath)
        have hpast := of_decide_eq_true ((Bool.and_eq_true _ _).mp hdone).2
        rw [if_pos hdone, List.filter_nil, List.append_nil]
        exact if_congr (by omega) rfl rfl
      · rename_i hnot
        rw [if_neg hnot, ih h]
        by_cases hown : path.rides = round
        · rw [if_pos hown, if_neg (by omega), if_pos (by omega), List.append_nil]
        · rw [if_neg hown, List.nil_append]
          exact if_congr (by omega) rfl rfl

/-- An iteration offers by an access path once, in the round of its rides. -/
theorem iterationOffers_byAccess {iteration : Nat} (h : task.runIteration iteration departure p = .ok (p', false))
    (hpath : task.request.access[number]? = some path) (hrides : path.rides ≤ task.settings.maxRounds) :
    (task.iterationOffers departure iteration p).filter (Offer.byAccess number) = accessOffers departure number path := by
  unfold runIteration at h
  obtain ⟨p1, hseed, h⟩ := of_bind_eq_ok h
  unfold iterationOffers
  dsimp only at hseed ⊢
  rw [hseed, List.filter_append, seedOffers_byAccess (RoundKeeping.round_beginRound _ _) hseed hpath]
  simp only [offersAfter]
  rw [roundsOffers_byAccess h hpath]
  by_cases hzero : path.rides = 0
  · rw [if_pos hzero, if_neg (by omega), List.append_nil]
  · rw [if_neg hzero, if_pos (by omega), List.nil_append]

end Task

/-! ## A search without a timeout -/

namespace Task

variable {σ : Type} [ArrivalStore σ] {task : Task} {departure : Time} {i : Nat} {store : σ}

/-- What a watched search proposes in the iteration of number `i`, which is for the departure. -/
def Proposes (task : Task) (store : σ) (i : Nat) (departure : Time) (offers : List Offer) : Prop :=
  ∃ q q' : Progress (Observed σ),
    task.runIterations 0 (task.departures.take i) ⟨.watch store, .empty, .zero⟩ = .ok (q, false) ∧
    task.runIteration i departure q = .ok (q', false) ∧
    q'.store.events.toList.map ArrivalEvent.offer = q.store.events.toList.map ArrivalEvent.offer ++ offers

/-- A search that ends its iterations early loses nothing. It finds the same as one that runs every round, or both
stop where a sum does not fit. In every iteration that the search gets through, each access path that can start is
offered once, in the round of its rides. -/
structure EndsEarly (task : Task) (store : σ) : Prop where
  finds : (∃ outcome full, task.run store = .ok outcome ∧ task.runToEnd store = .ok full ∧
      log full.store = log outcome.store ∧ full.goals = outcome.goals) ∨
    task.run store = .error .sum ∧ task.runToEnd store = .error .sum
  access : ∀ i departure, task.departures[i]? = some departure → (∃ offers, task.Proposes store i departure offers ∧
      ∀ number path, task.request.access[number]? = some path → path.rides ≤ task.settings.maxRounds →
        ∀ start, path.earliestStart? departure = some start →
          ∃ a, accessArrival? departure path.rides (path, number) = some a ∧
            offers.filter (Offer.byAccess number) = [⟨path.rides, a⟩]) ∨
    task.runIterations 0 (task.departures.take (i + 1)) ⟨store, .empty, .zero⟩ = .error .sum

/-- The search gets to each of its iterations, and through it, unless it stops where a sum does not fit. -/
theorem exists_runIteration [LawfulStore σ] (hready : task.Ready) (htimeout : task.settings.timeout = none)
    (hgood : LawfulStore.Good task.network.stopCount task.settings.maxRounds store) (hempty : log store = .empty)
    (hi : task.departures[i]? = some departure)
    (hsums : task.runIterations 0 (task.departures.take (i + 1)) ⟨store, .empty, .zero⟩ ≠ .error .sum) :
    ∃ p p' : Progress σ, task.runIterations 0 (task.departures.take i) ⟨store, .empty, .zero⟩ = .ok (p, false) ∧
      task.runIteration i departure p = .ok (p', false) := by
  obtain ⟨htake, hmem, hsorted⟩ := departures_take hi
  rw [htake] at hsums
  obtain ⟨⟨p', timedOut⟩, hrun, htime, -⟩ := (runIterations_concat_gives hready htimeout _ hmem hsorted 0
    fun d _ => completed_of_empty hgood hempty d).gives hsums
  obtain rfl : timedOut = false := htime
  obtain ⟨p, hdone, hiteration⟩ := of_runIterations_concat hrun
  rw [List.length_take_of_le (Nat.le_of_lt (List.getElem?_eq_some_iff.1 hi).1), Nat.zero_add] at hiteration
  exact ⟨p, p', hdone, hiteration⟩

/-- What a watched search proposes is what the search that is not watched does. -/
theorem proposes_iterationOffers [LoggingStore σ] (hempty : log store = .empty) {p p' : Progress σ}
    (hdone : task.runIterations 0 (task.departures.take i) ⟨store, .empty, .zero⟩ = .ok (p, false))
    (hiteration : task.runIteration i departure p = .ok (p', false)) :
    task.Proposes store i departure (task.iterationOffers departure i p) := by
  have hwatched : Alike _ (task.runIterations 0 (task.departures.take i) ⟨Observed.watch store, .empty, .zero⟩)
    (task.runIterations 0 (task.departures.take i) ⟨store, .empty, .zero⟩) := runIterations_watched (watches_start hempty)
  rw [hdone] at hwatched
  obtain ⟨⟨q, timedOut⟩, hq, hwatches, htime⟩ := hwatched.of_ok
  obtain rfl : timedOut = false := htime
  have hwatched' : Alike _ (task.runIteration i departure q) (task.runIteration i departure p) :=
    runIteration_watched hwatches
  rw [hiteration] at hwatched'
  obtain ⟨⟨q', timedOut⟩, hq', hwatches', htime'⟩ := hwatched'.of_ok
  obtain rfl : timedOut = false := htime'
  exact ⟨q, q', hq, hq', by rw [hwatches'.told.offers_eq, hwatches.told.offers_eq]⟩

/-- An empty store can be searched without loss. -/
theorem endsEarly [LawfulStore σ] [LoggingStore σ] [RoundKeeping σ] (hready : task.Ready)
    (htimeout : task.settings.timeout = none)
    (hgood : LawfulStore.Good task.network.stopCount task.settings.maxRounds store) (hempty : log store = .empty) :
    task.EndsEarly store where
  finds := by
    have hfull := run_toEnd htimeout store
    rcases run_gives hready hgood hempty with ⟨outcome, hrun, -⟩ | ⟨_, hrun, rfl⟩
    all_goals
      rw [hrun] at hfull ⊢
      generalize task.runToEnd store = full at hfull ⊢
      cases hfull
    · rename_i h
      exact .inl ⟨_, _, rfl, rfl, h.1, h.2.1⟩
    · exact .inr ⟨rfl, rfl⟩
  access i departure hi := by
    refine or_iff_not_imp_right.2 fun hsums => ?_
    obtain ⟨p, p', hdone, hiteration⟩ := exists_runIteration hready htimeout hgood hempty hi hsums
    refine ⟨_, proposes_iterationOffers hempty hdone hiteration, fun number path hpath hrides start hstart => ?_⟩
    have harrival : accessArrival? departure path.rides (path, number) =
        some ⟨none, path.stop, start + path.duration, path.rides, path.cost, path.rides, .access number path.onBoard⟩ := by
      unfold accessArrival?
      simp only [hstart, if_pos]
    refine ⟨_, harrival, ?_⟩
    rw [iterationOffers_byAccess hiteration hpath hrides, accessOffers, harrival]
    rfl

end Task

namespace Network

/-- Whatever the profile, a plan without a timeout has the itineraries of a search that runs every round, or both stop
where a sum does not fit. The arrivals and those at the destination are the same too, and each access path enters
once in every iteration. -/
theorem plan_ends_early {net : Network} (hnet : net.IsBuilt) {settings : Settings} (hsettings : settings.check = .ok ())
    (htimeout : settings.timeout = none) {request : Request} (hrequest : request.check net.stopCount = .ok ())
    (clock : Clock) :
    ((∃ result full, net.plan settings request clock = .ok result ∧ net.planToEnd settings request clock = .ok full ∧
        full.itineraries = result.itineraries) ∨
      net.plan settings request clock = .error (.brokenNetwork .sum) ∧
        net.planToEnd settings request clock = .error (.brokenNetwork .sum)) ∧
    (Task.ofRequest net settings request clock).EndsEarly (EarliestArrivals.init net.stopCount settings.maxRounds) ∧
    (Task.ofRequest net settings request clock).EndsEarly
      (ArrivalFrontiers.init net.stopCount settings.frontierSize) := by
  have hready := Task.ready_of_check hnet hsettings hrequest clock
  have hrounds : settings.maxRounds < 256 := Nat.lt_of_le_of_lt hready.settings.maxRounds_le (by omega)
  refine ⟨?_, Task.endsEarly hready htimeout (EarliestArrivals.good_init _ _) rfl,
    Task.endsEarly hready htimeout (ArrivalFrontiers.good_init _ hrounds) rfl⟩
  have hfull := plan_toEnd net htimeout request clock
  rcases plan_gives hnet hsettings hrequest clock with ⟨result, hplan, -⟩ | ⟨_, hplan, rfl⟩
  all_goals
    rw [hplan] at hfull ⊢
    generalize net.planToEnd settings request clock = full at hfull ⊢
    cases hfull
  · rename_i h
    exact .inl ⟨_, _, rfl, rfl, h⟩
  · exact .inr ⟨rfl, rfl⟩

/-- The flexible service to the ferry enters in round 1, after a round that has accepted nothing. The search for the
ferry runs three rounds of thirteen and finds the same. -/
theorem ferry_ends_early : ∃ result full, ferry.plan .standard .overFerry = .ok result ∧
    ferry.planToEnd .standard .overFerry .still = .ok full ∧ full.itineraries = result.itineraries ∧
    result.stats.rounds = 3 ∧ full.stats.rounds = 13 ∧
    (Task.ofRequest ferry .standard .overFerry).EndsEarly
      (ArrivalFrontiers.init ferry.stopCount Settings.standard.frontierSize) := by
  obtain ⟨hsame, -, hends⟩ := plan_ends_early ferry_isBuilt Settings.check_standard rfl Request.check_overFerry .still
  obtain ⟨result, full, hplan, hfull, hitineraries⟩ := hsame.resolve_right fun hstops => sumsFit_ferry hstops.1
  have hrounds : ((ferry.plan .standard .overFerry).toOption.map fun r => r.stats.rounds) = some 3 := by decide +kernel
  have hall : ((ferry.planToEnd .standard .overFerry .still).toOption.map fun r => r.stats.rounds) = some 13 := by
    decide +kernel
  rw [hplan] at hrounds
  rw [hfull] at hall
  exact ⟨result, full, hplan, hfull, hitineraries, Option.some.inj hrounds, Option.some.inj hall, hends⟩

end Network

end JourneyPlanner
