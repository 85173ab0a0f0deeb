import JourneyPlanner.Proofs.Progress
/-!
# What rides cost

A search compares passengers before their rides have ended, boards the first run that it can, and charges for
the wait before it. `Task.Weighs` says when nobody pays more for that: no wait costs anything, of two runs the
earlier one is no dearer, and whoever is made redundant would not have paid less in the end.
-/
namespace JourneyPlanner

namespace Task

/-- What a ride costs after so many others, if there is no wait before it. -/
def fare (task : Task) (rides : Nat) (route : Route) (run : Run) (p q : Position) : Int :=
  task.pricing.boardingCost (decide (0 < rides)) 0 run.schedule.accessibility +
    task.pricing.rideCost route.index run.schedule.reluctance (run.arrival q - run.departure p)

/-- What a passenger has paid on arriving at position `q`. -/
def paid (task : Task) (route : Route) (q : Position) (rider : Rider) : Int :=
  rider.costAtBoard +
    task.pricing.rideCost route.index rider.run.schedule.reluctance (rider.run.arrival q - rider.boardTime)

/-- The passenger boards the route from an arrival of the log. -/
inductive Boards (task : Task) (l : ArrivalLog) (route : Route) : Rider → Prop
  | intro {id : Nat} {a : Arrival} {last : Option AlightedTrip} {p : Position} {run : Run} : l.get? id = .ok a →
      l.alighted? a = .ok last → route.pattern.stop p = a.stop → task.board? route p a last = some run →
      Boards task l route (task.riderOn route p id a run)

/-- It does not cost more to take the first run there is. -/
structure EvenFares (task : Task) : Prop where
  /-- Either there is nothing to change to, or no wait for a change costs anything. -/
  waits : task.settings.maxTransfers = 0 ∨ ∀ secs, task.pricing.waitCost secs = 0
  /-- A run that leaves no later costs no more. -/
  runs : ∀ route ∈ task.network.routes, ∀ a b : Run, route.Offers a → route.Offers b →
    task.pricing.boardable a.schedule = true → task.pricing.boardable b.schedule = true → ∀ p q, p < q →
      q < route.pattern.size → a.departure p ≤ b.departure p → task.fare 0 route a p q ≤ task.fare 0 route b p q
  /-- Nobody is paid for walking in a circle. -/
  circles : ∀ stop, ∀ t ∈ task.network.transfersFrom stop, t.target = stop → 0 ≤ task.pricing.transferCost t

/-- The store compares costs, and what it saves on the way to an arrival is not lost later on. -/
structure Weighs (σ : Type) [ArrivalStore σ] [LawfulStore σ] (task : Task) (l : ArrivalLog) : Prop extends
    EvenFares task where
  heeds : LawfulStore.Heeds σ
  transfer_nonneg : 0 ≤ task.pricing.weights.transfer
  /-- Whoever makes another passenger redundant pays no more in the end. -/
  passengers : ∀ route ∈ task.network.routes, ∀ a b, task.Boards l route a → task.Boards l route b → ∀ p q,
    a.boardPosition ≤ p → b.boardPosition ≤ p → p < q → q < route.pattern.size →
      ArrivalStore.outrides σ a b p = true → task.paid route q a ≤ task.paid route q b

variable {σ : Type} [ArrivalStore σ] [LawfulStore σ] {task : Task} {l l' : ArrivalLog} {route : Route} {p q : Position}
  {run : Run} {rides : Nat}

omit [ArrivalStore σ] [LawfulStore σ] in
theorem Boards.mono {rider : Rider} (h : task.Boards l route rider) (hl : l.Extends l') :
    task.Boards l' route rider := by
  obtain ⟨hget, hlast, hstop, hboard⟩ := h
  refine .intro (hl _ _ hget) ?_ hstop hboard
  unfold ArrivalLog.alighted? at *
  split at hlast
  · exact hlast
  · obtain ⟨parent, hparent, rfl⟩ := of_map_eq_ok hlast
    rw [hl _ _ hparent]
    rfl
  · exact hlast

/-- What holds of a log holds of it before it has grown. -/
theorem Weighs.mono (h : task.Weighs σ l') (hl : l.Extends l') : task.Weighs σ l :=
  { h with passengers := fun route hroute a b ha hb => h.passengers route hroute a b (ha.mono hl) (hb.mono hl) }

/-- A wait adds nothing to what a boarding costs. -/
theorem Weighs.boardingCost_eq (h : task.Weighs σ l) (hrides : rides < task.settings.maxRounds) (wait : Int)
    (accessibility : Accessibility) : task.pricing.boardingCost (decide (0 < rides)) wait accessibility =
      task.pricing.boardingCost (decide (0 < rides)) 0 accessibility := by
  unfold Pricing.boardingCost
  rcases h.waits with hzero | hfree
  · unfold Settings.maxRounds at hrides
    have hfirst : ¬ 0 < rides := by omega
    simp only [hfirst, decide_false, Bool.false_eq_true, if_false]
  · rw [hfree, hfree]

/-- A passenger pays the fare, and no more for the wait. -/
theorem Weighs.paid_riderOn (h : task.Weighs σ l) {id : Nat} {a : Arrival} (hrides : a.rides < task.settings.maxRounds) :
    task.paid route q (task.riderOn route p id a run) = a.cost + task.fare a.rides route run p q := by
  simp only [paid, riderOn, fare]
  rw [h.boardingCost_eq hrides]
  omega

theorem fare_eq (task : Task) (rides : Nat) (route : Route) (run : Run) (p q : Position) :
    task.fare rides route run p q = task.fare 0 route run p q +
      if 0 < rides then task.pricing.weights.transfer + task.pricing.waitCost 0 else 0 := by
  simp only [fare, Pricing.boardingCost, Nat.lt_irrefl, decide_false, Bool.false_eq_true, if_false, decide_eq_true_eq]
  omega

/-- A run that leaves no later costs no more, after no more rides. -/
theorem Weighs.fare_le (h : task.Weighs σ l) (hroute : route ∈ task.network.routes) {a b : Run} (ha : route.Offers a)
    (hb : route.Offers b) (haccepts : task.pricing.boardable a.schedule = true)
    (hbaccepts : task.pricing.boardable b.schedule = true) (hpq : p < q) (hq : q < route.pattern.size)
    (hle : a.departure p ≤ b.departure p) {more : Nat} (hrides : 0 < rides → 0 < more)
    (hmore : more < task.settings.maxRounds) : task.fare rides route a p q ≤ task.fare more route b p q := by
  have hruns := h.runs route hroute a b ha hb haccepts hbaccepts p q hpq hq hle
  rw [fare_eq task rides, fare_eq task more]
  rcases h.waits with hzero | hfree
  · unfold Settings.maxRounds at hmore
    rw [if_neg (by omega), if_neg (by omega)]
    omega
  · have hnonneg := h.transfer_nonneg
    rw [hfree]
    split <;> split <;> omega

end Task

end JourneyPlanner
