import Mathlib.Data.List.Forall2
import JourneyPlanner.Proofs.Answering
/-!
# The search and its itineraries agree

A search counts cost, time and rides as it goes, and an itinerary is priced anew from its legs.
`Network.goals_retold` says that no goal is lost on the way from one to the other, and that the two
come to the same result, whatever the arrivals are kept in.
-/
namespace JourneyPlanner

open ArrivalStore (log)

namespace Task

/-- The itinerary comes to what the search has counted up for the goal. -/
structure Agrees (task : Task) (g : Goal) (it : Itinerary) : Prop where
  cost_eq : task.pricing.legsCost it.legs = g.cost
  priced : it.cost = task.pricing.legsCost it.legs
  arrival_eq : it.arrival = g.time
  rides_eq : Itinerary.rideCount it.legs ≤ 255 → Itinerary.rideCount it.legs = g.rides

/-- The search gives goals, each of which is told as an itinerary that agrees with it, unless it stops where a
sum does not fit. A run that starts at the last time there is cannot be named. -/
def Retold {σ : Type} [ArrivalStore σ] (task : Task) (store : σ) : Prop :=
  GivesInRange (task.run store) fun outcome =>
    ¬ HasLast outcome → ∃ its, task.itineraries (log outcome.store) outcome.goals.items = .ok its ∧
      List.Forall₂ task.Agrees outcome.goals.items its

variable {task : Task} {g : Goal} {it : Itinerary}

theorem Attains.agrees (h : task.Attains g it) : task.Agrees g it := by
  obtain ⟨⟨hjourney, hmade⟩, hcost, harrival, hrides⟩ := h
  have hpriced : it.cost = task.pricing.legsCost it.legs := by
    obtain ⟨it', heq, _, hcost'⟩ := hjourney.ofLegs_eq (task.pricing.legsCost it.legs)
    rw [hmade] at heq
    cases heq
    exact hcost'
  refine ⟨hpriced.symm.trans hcost, hpriced, harrival, fun hle => ?_⟩
  rw [hrides, Nat.min_eq_right hle]

/-- Goals that are told one by one are told all together. -/
theorem itineraries_eq {l : ArrivalLog} {goals : List Goal}
    (h : ∀ g ∈ goals, ∃ it, task.itinerary? l g = .ok (some it) ∧ task.Agrees g it) :
    ∃ its, task.itineraries l goals = .ok its ∧ List.Forall₂ task.Agrees goals its := by
  induction goals with
  | nil => exact ⟨[], rfl, .nil⟩
  | cons g goals ih =>
    obtain ⟨it, hit, hagrees⟩ := h g (by simp)
    obtain ⟨its, hits, hall⟩ := ih fun g hg => h g (by simp [hg])
    refine ⟨it :: its, ?_, .cons hagrees hall⟩
    simp only [itineraries] at hits ⊢
    rw [List.mapM_cons, hit]
    cases hrest : goals.mapM (task.itinerary? l) with
    | error e =>
      rw [hrest] at hits
      cases hits
    | ok os =>
      rw [hrest] at hits
      have hos : os.filterMap id = its := Except.ok.inj hits
      rw [← hos]
      rfl

theorem retold_of_good {σ : Type} [ArrivalStore σ] [LawfulStore σ] (hready : task.Ready) {store : σ}
    (hgood : LawfulStore.Good task.network.stopCount task.settings.maxRounds store) (hempty : log store = .empty) :
    task.Retold store := by
  refine (run_gives hready hgood hempty).mono fun outcome hsearched hlast => itineraries_eq fun g hg => ?_
  rcases hsearched.itinerary?_eq hready hg with ⟨it, heq, hattains⟩ | ⟨_, hnot⟩
  · exact ⟨it, heq, hattains.agrees⟩
  · exact absurd hnot hlast

end Task

/-- With either store, every goal of a search is told as an itinerary that agrees with it, wherever the clock has
broken the search off. -/
theorem Network.goals_retold {net : Network} (hnet : net.IsBuilt) {settings : Settings}
    (hsettings : settings.check = .ok ()) {request : Request} (hrequest : request.check net.stopCount = .ok ())
    (clock : Clock) :
    (Task.ofRequest net settings request clock).Retold (EarliestArrivals.init net.stopCount settings.maxRounds) ∧
      (Task.ofRequest net settings request clock).Retold
        (ArrivalFrontiers.init net.stopCount settings.frontierSize) := by
  have hready := Task.ready_of_check hnet hsettings hrequest clock
  have hrounds : settings.maxRounds < 256 := Nat.lt_of_le_of_lt hready.settings.maxRounds_le (by omega)
  exact ⟨Task.retold_of_good hready (EarliestArrivals.good_init _ _) rfl,
    Task.retold_of_good hready (ArrivalFrontiers.good_init _ hrounds) rfl⟩

/-- The goal of a search for the ferry is told, though the search has been broken off. -/
theorem Network.ferry_goal_retold : ∃ outcome it, (Task.ofRequest ferry .hasty .overFerry .slow).run
      (ArrivalFrontiers.init ferry.stopCount Settings.hasty.frontierSize) = .ok outcome ∧ outcome.timedOut = true ∧
    (Task.ofRequest ferry .hasty .overFerry .slow).itineraries outcome.store.log outcome.goals.items = .ok [it] ∧
    List.Forall₂ (Task.ofRequest ferry .hasty .overFerry .slow).Agrees outcome.goals.items [it] := by
  obtain ⟨_, hretold⟩ := goals_retold ferry_isBuilt Settings.check_hasty Request.check_overFerry .slow
  obtain ⟨outcome, hrun, h⟩ :=
    hretold.gives (sumsFit_hastyFerry.run_ne Settings.check_hasty Request.check_overFerry rfl)
  have hready := Task.ready_of_check ferry_isBuilt Settings.check_hasty Request.check_overFerry .slow
  have hgood : LawfulStore.Good ferry.stopCount Settings.hasty.maxRounds
      (ArrivalFrontiers.init ferry.stopCount Settings.hasty.frontierSize) := ArrivalFrontiers.good_init _ (by decide)
  have hsearched := (Task.run_gives hready hgood rfl).of_eq hrun
  obtain ⟨its, hits, hall⟩ := h (hsearched.not_hasLast hready ⟨connections_ferry, fifo_ferry⟩)
  have heval : (((Task.ofRequest ferry .hasty .overFerry .slow).run (ArrivalFrontiers.init ferry.stopCount
      Settings.hasty.frontierSize)).toOption.map fun outcome =>
        (outcome.timedOut, outcome.goals.items.length)) = some (true, 1) := by
    decide +kernel
  rw [hrun] at heval
  obtain ⟨htimedOut, hcount⟩ := Prod.mk.inj (Option.some.inj heval)
  obtain ⟨it, rfl⟩ := List.length_eq_one_iff.1 (hall.length_eq.symm.trans hcount)
  exact ⟨outcome, it, hrun, htimedOut, hits, hall⟩

end JourneyPlanner
