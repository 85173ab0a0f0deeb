import JourneyPlanner.Proofs.Histories
import JourneyPlanner.Proofs.Provenance
/-!
# A search as a history of its store

All that a search does to its store are calls (`Task.Makes`): it begins iterations and rounds, and offers
arrivals. Each offered arrival carries the round that is current then, and is in time. So what holds of a
store after any such calls holds after every part of a search.
-/
namespace JourneyPlanner

open ArrivalStore (performAll)

/-- Calls that offer only arrivals of the current round that are in time. -/
def Task.Timely (task : Task) (calls : List StoreCall) : Prop :=
  ∀ round, ∀ o ∈ StoreCall.offers round calls,
    o.arrival.round = o.round ∧ task.request.isTooLate o.arrival.time = false

namespace Task

variable {σ : Type} [ArrivalStore σ] {task : Task} {calls calls' : List StoreCall}

theorem timely_nil : task.Timely [] := fun _ _ h => by cases h

theorem Timely.append (h : task.Timely calls) (h' : task.Timely calls') : task.Timely (calls ++ calls') := by
  intro round o ho
  rw [StoreCall.offers_append] at ho
  rcases List.mem_append.1 ho with ho | ho
  · exact h _ o ho
  · exact h' _ o ho

/-- The second store is what some calls of a search make of the first one. -/
def Makes (task : Task) (s s' : σ) : Prop := ∃ calls, task.Timely calls ∧ performAll s calls = .ok s'

/-- The same within round `k`, where nothing but arrivals of the round is offered. -/
def MakesOffers (task : Task) (k : Nat) (s s' : σ) : Prop :=
  ∃ as : List Arrival, (∀ a ∈ as, a.round = k ∧ task.request.isTooLate a.time = false) ∧
    performAll s (as.map .offer) = .ok s'

variable {s s' s'' : σ} {p p' : Progress σ} {k : Nat} {departure : Time}

theorem Makes.refl (s : σ) : task.Makes s s := ⟨[], timely_nil, rfl⟩

theorem Makes.trans (h : task.Makes s s') (h' : task.Makes s' s'') : task.Makes s s'' := by
  obtain ⟨calls, htimely, hperform⟩ := h
  obtain ⟨calls', htimely', hperform'⟩ := h'
  exact ⟨calls ++ calls', htimely.append htimely', by rw [ArrivalStore.performAll_append_of_eq hperform, hperform']⟩

theorem MakesOffers.refl (s : σ) : task.MakesOffers k s s := ⟨[], by simp, rfl⟩

theorem MakesOffers.trans (h : task.MakesOffers k s s') (h' : task.MakesOffers k s' s'') :
    task.MakesOffers k s s'' := by
  obtain ⟨as, has, hperform⟩ := h
  obtain ⟨as', has', hperform'⟩ := h'
  refine ⟨as ++ as', fun a ha => (List.mem_append.1 ha).elim (has a) (has' a), ?_⟩
  rw [List.map_append, ArrivalStore.performAll_append_of_eq hperform, hperform']

/-- The offers of a round that has just begun. -/
theorem makes_beginRound (h : task.MakesOffers k (ArrivalStore.beginRound s k) s') : task.Makes s s' := by
  obtain ⟨as, has, hperform⟩ := h
  refine ⟨.beginRound k :: as.map .offer, fun round o ho => ?_, hperform⟩
  obtain ⟨hround, ho⟩ := StoreCall.mem_offers_map_offer.1 (show o ∈ StoreCall.offers k (as.map .offer) from ho)
  obtain ⟨hk, hlate⟩ := has _ ho
  exact ⟨hk.trans hround.symm, hlate⟩

theorem makes_beginIteration (iteration : Nat) : task.Makes s (ArrivalStore.beginIteration s iteration) :=
  ⟨[.beginIteration iteration], fun _ _ h => (by cases h), rfl⟩

/-- A loop makes the offers of its steps. -/
theorem makesOffers_foldlM {α β : Type} (store : β → σ) {f : β → α → Except OutOfRange β} {l : List α} {b b' : β}
    (h : l.foldlM f b = .ok b') (step : ∀ a ∈ l, ∀ b b', f b a = .ok b' → task.MakesOffers k (store b) (store b')) :
    task.MakesOffers k (store b) (store b') := by
  refine of_foldlM_eq_ok (P := fun _ c => task.MakesOffers k (store b) (store c)) h (.refl _) ?_
  intro done a rest c c' hl hc hstep
  exact hc.trans (step a (by simp [hl]) c c' hstep)

/-! ## Within a round -/

variable [LawfulStore σ]

theorem makesOffers_of_offer {a : Arrival} (h : task.offer departure p a = .ok p') (hround : a.round = k) :
    task.MakesOffers k p.store p'.store := by
  unfold offer at h
  split at h
  · -- What is too late never reaches the store.
    cases h
    rw [LawfulStore.reject_eq]
    exact .refl _
  · rename_i hlate
    obtain ⟨⟨s, id⟩, hoffer, h⟩ := of_bind_eq_ok h
    obtain rfl : p'.store = s := by
      cases id <;> cases h <;> rfl
    refine ⟨[a], by simpa [hround] using hlate, ?_⟩
    rw [List.map_singleton, ArrivalStore.performAll, List.foldlM_cons, ArrivalStore.perform, hoffer]
    rfl

/-- Arrivals of the round are offered one after another. -/
theorem makesOffers_of_offerAll {as : List Arrival} (h : as.foldlM (task.offer departure) p = .ok p')
    (hround : ∀ a ∈ as, a.round = k) : task.MakesOffers k p.store p'.store :=
  makesOffers_foldlM Progress.store h fun a ha _ _ hoffer => makesOffers_of_offer hoffer (hround a ha)

theorem makesOffers_of_seed (h : task.seed departure k p = .ok p') : task.MakesOffers k p.store p'.store := by
  refine makesOffers_of_offerAll h fun a ha => ?_
  obtain ⟨⟨path, number⟩, -, harrival⟩ := List.mem_filterMap.1 ha
  obtain ⟨-, _, -, rfl⟩ := accessArrival?_eq harrival
  rfl

theorem makesOffers_of_scanPosition {route : Route} {state state' : Progress σ × List Rider} {place : Stop × Position}
    (h : task.scanPosition departure route k state place = .ok state') :
    task.MakesOffers k state.1.store state'.1.store := by
  unfold scanPosition at h
  obtain ⟨p', hoffers, h⟩ := of_bind_eq_ok h
  have hstore : state'.1.store = p'.store := by
    split at h
    · cases h
      rfl
    · obtain ⟨_, -, h⟩ := of_bind_eq_ok h
      obtain ⟨_, -, h⟩ := of_bind_eq_ok h
      cases h
      rfl
  rw [hstore]
  refine makesOffers_of_offerAll hoffers fun a ha => ?_
  obtain ⟨rider, -, rfl⟩ := List.mem_map.1 ha
  rfl

theorem makesOffers_of_scanRoute {index : RouteIndex} (h : task.scanRoute departure k p index = .ok p') :
    task.MakesOffers k p.store p'.store := by
  unfold scanRoute at h
  obtain ⟨route, -, h⟩ := of_bind_eq_ok h
  obtain ⟨state, hstate, h⟩ := of_bind_eq_ok h
  cases h
  exact makesOffers_foldlM (fun state : Progress σ × List Rider => state.1.store) hstate
    fun _ _ _ _ => makesOffers_of_scanPosition

theorem makesOffers_of_relaxStop {source : Stop} (h : task.relaxStop departure k p source = .ok p') :
    task.MakesOffers k p.store p'.store := by
  unfold relaxStop at h
  obtain ⟨ids, -, h⟩ := of_bind_eq_ok h
  refine makesOffers_foldlM Progress.store h fun id _ q q' hrelax => ?_
  unfold relaxFrom at hrelax
  obtain ⟨a, -, hrelax⟩ := of_bind_eq_ok hrelax
  refine makesOffers_of_offerAll hrelax fun b hb => ?_
  obtain ⟨_, -, rfl⟩ := List.mem_map.1 hb
  rfl

/-! ## Rounds and iterations -/

theorem makes_of_runRound (h : task.runRound departure k p = .ok p') : task.Makes p.store p'.store := by
  unfold runRound at h
  obtain ⟨p1, hscan, h⟩ := of_bind_eq_ok h
  obtain ⟨p2, hseed, hrelax⟩ := of_bind_eq_ok h
  have hscan := makesOffers_foldlM Progress.store hscan fun _ _ _ _ => makesOffers_of_scanRoute
  have hseed := makesOffers_of_seed hseed
  have hrelax := makesOffers_foldlM Progress.store hrelax fun _ _ _ _ => makesOffers_of_relaxStop
  exact makes_beginRound ((hscan.trans hseed).trans hrelax)

theorem makes_of_runRounds {left : Nat} {r : Progress σ × Bool} (h : task.runRounds departure left k p = .ok r) :
    task.Makes p.store r.1.store := by
  induction left generalizing k p with
  | zero =>
    cases h
    exact .refl _
  | succ left ih =>
    unfold runRounds at h
    split at h
    · cases h
      exact .refl _
    · obtain ⟨p1, hround, h⟩ := of_bind_eq_ok h
      have hmakes := makes_of_runRound hround
      split at h
      · cases h
        exact hmakes
      · exact hmakes.trans (ih h)

theorem makes_of_runIteration {iteration : Nat} {r : Progress σ × Bool}
    (h : task.runIteration iteration departure p = .ok r) : task.Makes p.store r.1.store := by
  unfold runIteration at h
  obtain ⟨p1, hseed, h⟩ := of_bind_eq_ok h
  exact (makes_beginIteration iteration).trans
    ((makes_beginRound (makesOffers_of_seed hseed)).trans (makes_of_runRounds h))

/-- Iterations, too, do nothing to the store but make calls. -/
theorem makes_of_runIterations {iteration : Nat} {departures : List Time} {r : Progress σ × Bool}
    (h : task.runIterations iteration departures p = .ok r) : task.Makes p.store r.1.store := by
  induction departures generalizing iteration p with
  | nil =>
    cases h
    exact .refl _
  | cons departure departures ih =>
    unfold runIterations at h
    obtain ⟨⟨p1, timedOut⟩, hiteration, h⟩ := of_bind_eq_ok h
    have hmakes := makes_of_runIteration hiteration
    cases timedOut with
    | true =>
      cases h
      exact hmakes
    | false => exact hmakes.trans (ih h)

end Task

end JourneyPlanner
