import JourneyPlanner.Proofs.Departures
import JourneyPlanner.Proofs.Rounds
/-!
# All iterations of a search

An iteration ends when its last round has been run, or when a round has accepted nothing and no access
path is left. Then every arrival is done with (`Task.Completed`), also those of the iterations before,
which leave later. A whole search succeeds, and without a timeout each of its departures is done with
at the end of its iteration (`Task.run_gives`).
-/
namespace JourneyPlanner

open ArrivalStore (log round changes truncations Keeps)

/-! ## Departures -/

theorem departuresDownTo_spec (earliest : Time) (step : Int) (t : Time) (h : earliest ≤ t) :
    (departuresDownTo earliest step t).Pairwise (fun a b => b ≤ a) ∧
      ∀ d ∈ departuresDownTo earliest step t, earliest ≤ d ∧ d ≤ t := by
  have hdown := departuresDownTo_countsDown earliest step t h
  exact ⟨hdown.falls.imp Time.le_of_lt, hdown.between⟩

namespace Task

theorem departures_spec (task : Task) : task.departures.Pairwise (fun a b => b ≤ a) ∧
    ∀ d ∈ task.departures, task.request.departure ≤ d := by
  obtain ⟨hsorted, hbounds⟩ := departuresDownTo_spec task.request.departure task.settings.step
    (task.request.departure + max task.settings.window 0) (Time.le_add (Int.le_max_right _ _))
  exact ⟨hsorted, fun d hd => (hbounds d hd).1⟩

variable {σ : Type} [ArrivalStore σ] [LawfulStore σ] {task : Task} {earliest : Time} {p p' : Progress σ}

/-! ## Rounds -/

/-- The state after an iteration: nothing is left to do from any arrival found so far. -/
structure Completed (task : Task) (earliest : Time) (p : Progress σ) : Prop where
  valid : task.Valid earliest p
  walksDone : truncations p.store = 0 → ∀ id a, (log p.store).get? id = .ok a → task.WalksDone p a
  ridesDone : task.Plain → truncations p.store = 0 → ∀ id a, (log p.store).get? id = .ok a →
    a.round < task.settings.maxRounds → task.RidesDone p a

theorem Valid.mono (h : task.Valid earliest p) {earlier : Time} (hle : earlier ≤ earliest) :
    task.Valid earlier p where
  good := h.good
  traces id a ha := by
    obtain ⟨last, htraces⟩ := h.traces id a ha
    exact ⟨last, htraces.mono (ArrivalLog.extends_refl _) hle⟩
  backward := h.backward
  goals := h.goals
  goalsDone id a ha := (h.goalsDone id a ha).mono (fun _ _ _ _ h => h) hle

theorem Completed.mono (h : task.Completed earliest p) {earlier : Time} (hle : earlier ≤ earliest) :
    task.Completed earlier p where
  valid := h.valid.mono hle
  walksDone := h.walksDone
  ridesDone := h.ridesDone

/-- A settled round completes the iteration when none of its arrivals may ride on. -/
theorem Settled.completed {first k : Nat} (h : task.Settled earliest first k p)
    (hlast : truncations p.store = 0 → ∀ id a, first ≤ id → (log p.store).get? id = .ok a →
      ¬ a.round < task.settings.maxRounds) :
    task.Completed earliest p where
  valid := h.valid
  walksDone := h.walksDone
  ridesDone hplain hroom id a hget hround := by
    rcases Nat.lt_or_ge id first with hold | hnew
    · exact h.ridesDone hplain hroom id a hget hold hround
    · exact absurd hround (hlast hroom id a hnew hget)

theorem rides_le_maxAccessRides {path : StreetPath} (h : path ∈ task.request.access) :
    path.rides ≤ task.maxAccessRides := by
  have key : ∀ (l : List Nat) (m x : Nat), x ∈ l ∨ x ≤ m → x ≤ l.foldl max m := by
    intro l
    induction l with
    | nil =>
      intro m x hx
      exact hx.resolve_left (fun h => by cases h)
    | cons y l ih =>
      intro m x hx
      apply ih _ _
      rcases hx with hx | hx
      · rcases List.mem_cons.1 hx with rfl | hx
        · exact .inr (Nat.le_max_right _ _)
        · exact .inl hx
      · exact .inr (Nat.le_trans hx (Nat.le_max_left _ _))
  exact key _ _ _ (.inl (List.mem_map_of_mem h))

omit [ArrivalStore σ] [LawfulStore σ] in
/-- Without a timeout the clock says nothing. -/
theorem timeIsOver_of_untimed (h : task.settings.timeout = none) (rounds : Nat) : task.timeIsOver rounds = false := by
  unfold timeIsOver Settings.expired
  rw [h]
  rfl

/-- The remaining rounds complete the iteration, unless the time is over. -/
theorem runRounds_gives (hready : task.Ready) (hdeparture : earliest ∈ task.departures) (left : Nat)
    {k first : Nat} (h : task.Settled earliest first k p) (hleft : k + left = task.settings.maxRounds) :
    GivesInRange (task.runRounds earliest left (k + 1) p) fun r => task.Valid earliest r.1 ∧ Grows p r.1 ∧
      (r.2 = false → task.Completed earliest r.1 ∧ task.Seeded earliest r.1 task.settings.maxRounds) ∧
      (task.settings.timeout = none → r.2 = false) := by
  induction left generalizing k first p with
  | zero =>
    obtain rfl : k = task.settings.maxRounds := by omega
    refine givesUnless_pure ⟨h.valid, .refl p, fun _ => ⟨h.completed fun hroom id a hid hget => ?_, h.seeded⟩,
      fun _ => rfl⟩
    rw [(h.keeps hroom).round id a hid hget, h.round_eq]
    exact Nat.lt_irrefl _
  | succ left ih =>
    unfold runRounds
    split
    · rename_i hover
      refine givesUnless_pure ⟨h.valid, .refl p, fun hnot => (by cases hnot), fun htimeout => ?_⟩
      rw [timeIsOver_of_untimed htimeout] at hover
      cases hover
    · apply (runRound_gives hready hdeparture h (by omega)).bind
      rintro p' ⟨h', hgrows⟩
      split
      · -- Nothing has been accepted in this round, and no access path is left.
        rename_i hdone
        obtain ⟨hempty, haccess⟩ := (Bool.and_eq_true _ _).mp hdone
        have haccess := of_decide_eq_true haccess
        refine givesUnless_pure ⟨h'.valid, hgrows, fun _ => ⟨h'.completed fun hroom id a hid hget => ?_, ?_⟩,
          fun _ => rfl⟩
        · have hchanged := (h'.keeps hroom).changed id a hid hget
          rw [List.isEmpty_iff.1 hempty] at hchanged
          cases hchanged
        · intro path hpath _
          exact h'.seeded path hpath (Nat.le_trans (rides_le_maxAccessRides hpath) haccess)
      · apply (ih h' (by omega)).mono
        rintro r ⟨hvalid, hgrows', hcompleted⟩
        exact ⟨hvalid, hgrows.trans hgrows', hcompleted⟩

/-! ## Iterations -/

theorem Traces.rides_pos {l : ArrivalLog} {a : Arrival} {last : Option AlightedTrip}
    (h : task.Traces l earliest a last) (honBoard : a.onBoard = true) : 0 < a.rides := by
  cases h with
  | access _ _ _ _ harrival =>
    obtain ⟨_, _, _, rfl⟩ := accessArrival?_eq harrival
    exact of_decide_eq_true honBoard
  | @ride parent _ _ _ _ _ _ _ _ _ _ _ _ _ _ _ =>
    show 0 < min 255 (parent.rides + 1)
    omega
  | transfer _ _ _ _ => cases honBoard

/-- The access paths without rides begin an iteration. -/
theorem settled_seed (hready : task.Ready) (hdeparture : earliest ∈ task.departures)
    (h : task.Completed earliest p) (iteration : Nat) (stats : SearchStats) :
    Gives (task.seed earliest 0 { p with
      store := ArrivalStore.beginRound (ArrivalStore.beginIteration p.store iteration) 0
      stats := stats }) fun p' => task.Settled earliest (log p.store).size 0 p' ∧ Grows p p' := by
  have hbegun := begun_iteration h.valid iteration stats
  generalize ({ p with
    store := ArrivalStore.beginRound (ArrivalStore.beginIteration p.store iteration) 0
    stats := stats } : Progress σ) = p0 at hbegun ⊢
  apply (seed_gives hready (hbegun.valid h.valid) hdeparture (Nat.zero_le _) hbegun.round_eq).mono
  rintro p' ⟨hf, hseeded⟩
  have hgrows := hbegun.grows.trans hf.grows
  have hkeeps : truncations p'.store = 0 → Keeps (LawfulStore.Heeds σ) p'.store (log p.store).size := hbegun.keeps hf
  refine ⟨⟨hf.valid, hf.round_eq.trans hbegun.round_eq, ?_, hkeeps, ?_, ?_⟩, hgrows⟩
  · intro path hpath hrides start hstart hlate
    have hzero := Nat.le_zero.1 hrides
    rw [hzero]
    exact hseeded path hpath hzero start hstart hlate
  · intro hroom
    apply hbegun.walksDone hf (h.walksDone (hgrows.room hroom))
    -- Whoever has not taken a ride is not on board.
    intro id a hnew hget honBoard
    obtain ⟨last, htraces⟩ := hf.valid.traces id a hget
    have hpos := htraces.rides_pos honBoard
    have hle := LawfulStore.rides_le (LawfulStore.good_tallies hf.valid.good id a hget)
    rw [(hkeeps hroom).round id a hnew hget, hf.round_eq, hbegun.round_eq] at hle
    exact absurd hpos (Nat.not_lt.2 hle)
  · intro hplain hroom id a hget hold hmax
    exact (h.ridesDone hplain (hgrows.room hroom) id a (hgrows.log_extends.get? hold hget) hmax).mono
      hgrows.log_extends

theorem runIteration_gives (hready : task.Ready) (hdeparture : earliest ∈ task.departures)
    (h : task.Completed earliest p) (iteration : Nat) :
    GivesInRange (task.runIteration iteration earliest p) fun r => task.Valid earliest r.1 ∧ Grows p r.1 ∧
      (r.2 = false → task.Completed earliest r.1 ∧ task.Seeded earliest r.1 task.settings.maxRounds) ∧
      (task.settings.timeout = none → r.2 = false) := by
  unfold runIteration
  apply (settled_seed hready hdeparture h iteration _).unless.bind
  rintro p' ⟨h', hgrows⟩
  apply (runRounds_gives hready hdeparture _ h' (Nat.zero_add _)).mono
  rintro r ⟨hvalid, hgrows', hcompleted⟩
  exact ⟨hvalid, hgrows.trans hgrows', hcompleted⟩

/-- At the end of the iteration for the departure nothing was left to do, and what it had found is still
there. -/
def Swept (task : Task) (departure : Time) (p : Progress σ) : Prop :=
  ∃ p0 : Progress σ, task.Completed departure p0 ∧ task.Seeded departure p0 task.settings.maxRounds ∧ Grows p0 p

/-- The iterations for some departures, the latest one first, all of which the state before is done
with. -/
theorem runIterations_gives (hready : task.Ready) (departures : List Time)
    (hmem : ∀ d ∈ departures, d ∈ task.departures) (hsorted : departures.Pairwise fun a b => b ≤ a)
    (iteration : Nat) (h : ∀ d ∈ departures, task.Completed d p)
    (hvalid : task.Valid task.request.departure p) :
    GivesInRange (task.runIterations iteration departures p) fun r => task.Valid task.request.departure r.1 ∧
      Grows p r.1 ∧ (r.2 = false → ∀ d ∈ departures, task.Swept d r.1) ∧
      (task.settings.timeout = none → r.2 = false) := by
  induction departures generalizing iteration p with
  | nil => exact givesUnless_pure ⟨hvalid, .refl p, fun _ d hd => (by cases hd), fun _ => rfl⟩
  | cons d departures ih =>
    obtain ⟨hle, hsorted⟩ := List.pairwise_cons.1 hsorted
    have hd := hmem d (by simp)
    unfold runIterations
    apply (runIteration_gives hready hd (h d (by simp)) iteration).bind
    rintro ⟨p', timedOut⟩ ⟨hvalid', hgrows, hcompleted, htime⟩
    have hvalid' := hvalid'.mono ((departures_spec task).2 d hd)
    cases timedOut with
    | true => exact givesUnless_pure ⟨hvalid', hgrows, fun hnot => (by cases hnot), htime⟩
    | false =>
      obtain ⟨hcompleted, hseeded⟩ := hcompleted rfl
      refine (ih (fun d' hd' => hmem d' (by simp [hd'])) hsorted (iteration + 1)
        (fun d' hd' => hcompleted.mono (hle d' hd')) hvalid').mono ?_
      rintro r ⟨hvalid'', hgrows', hswept, htime'⟩
      refine ⟨hvalid'', hgrows.trans hgrows', fun hr d' hd' => ?_, htime'⟩
      rcases List.mem_cons.1 hd' with rfl | hd'
      · exact ⟨p', hcompleted, hseeded, hgrows'⟩
      · exact hswept hr d' hd'

/-- What a search leaves behind. -/
structure Searched (task : Task) (outcome : Outcome σ) : Prop where
  good : LawfulStore.Good task.network.stopCount task.settings.maxRounds outcome.store
  backward : ∀ id a, (log outcome.store).get? id = .ok a → ∀ parent, a.parent = some parent → parent < id
  traces : ∀ id a, (log outcome.store).get? id = .ok a →
    ∃ last, task.Traces (log outcome.store) task.request.departure a last
  goals : ∀ g ∈ outcome.goals.items, task.GoalTraces (log outcome.store) g
  goalsDone : ∀ id a, (log outcome.store).get? id = .ok a →
    task.GoalsDone task.request.departure outcome.goals a
  truncations_eq : outcome.stats.truncations = truncations outcome.store
  swept : task.settings.timeout = none → ∀ d ∈ task.departures,
    task.Swept d ⟨outcome.store, outcome.goals, outcome.stats⟩

/-- Before the first iteration nothing has been found. -/
theorem completed_of_empty {store : σ}
    (hgood : LawfulStore.Good task.network.stopCount task.settings.maxRounds store) (hempty : log store = .empty)
    (departure : Time) : task.Completed departure (⟨store, .empty, .zero⟩ : Progress σ) := by
  have hnone : ∀ id a, ¬ (log store).get? id = .ok a := by
    intro id a h
    rw [hempty] at h
    cases h
  exact ⟨⟨hgood, fun id a h => absurd h (hnone id a), fun id a h => absurd h (hnone id a), fun g hg => (by cases hg),
    fun id a h => absurd h (hnone id a)⟩, fun _ id a h => absurd h (hnone id a), fun _ _ id a h => absurd h (hnone id a)⟩

/-- A search that starts with an empty store succeeds, unless it stops where a sum does not fit. -/
theorem run_gives (hready : task.Ready) {store : σ}
    (hgood : LawfulStore.Good task.network.stopCount task.settings.maxRounds store)
    (hempty : log store = .empty) : GivesInRange (task.run store) task.Searched := by
  obtain ⟨hsorted, _⟩ := departures_spec task
  unfold run
  refine (runIterations_gives hready task.departures (fun _ h => h) hsorted 0
    (fun d _ => completed_of_empty hgood hempty d) (completed_of_empty hgood hempty _).valid).bind ?_
  rintro ⟨p, timedOut⟩ ⟨hvalid, _, hswept, htime⟩
  refine givesUnless_pure ⟨hvalid.good, hvalid.backward, hvalid.traces, hvalid.goals, hvalid.goalsDone, rfl,
    fun htimeout d hd => ?_⟩
  obtain ⟨p0, hcompleted, hseeded, hgrows⟩ := hswept (htime htimeout) d hd
  exact ⟨p0, hcompleted, hseeded, hgrows.log_extends, hgrows.truncations_le, hgrows.goals⟩

end Task

end JourneyPlanner
