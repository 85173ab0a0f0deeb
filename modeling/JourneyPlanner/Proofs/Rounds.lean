import JourneyPlanner.Proofs.Rides
/-!
# One round of a search

A round rides on from what the round before has accepted, enters the access paths with as many rides,
and walks on from what it has reached on board. After it, the arrivals of the round before are done with
riding (`Task.RidesDone`), and its own arrivals with walking (`Task.WalksDone`), provided that nothing
has been dropped for want of room.
-/
namespace JourneyPlanner

open ArrivalStore (log round changes boardable transferable truncations Keeps)

namespace Task

variable {σ : Type} [ArrivalStore σ] [LawfulStore σ] {task : Task} {earliest : Time}
  {p p' : Progress σ} {k : Nat}

/-- Every ride from the arrival that may be taken has been taken, or there is one as good. Where rides are priced
evenly it costs no more, either. -/
def RidesDone (task : Task) (p : Progress σ) (a : Arrival) : Prop :=
  ∀ (index : RouteIndex) (route : Route), task.network.routes[index]? = some route →
    ∀ i q, route.pattern.stop i = a.stop → i < q → q < route.pattern.size →
      ∀ run, route.Offers run → task.pricing.boardable run.schedule = true →
        task.settings.boardingFloor a.time a.rides ≤ run.departure i →
        task.request.isTooLate (run.arrival q) = false →
        (log p.store).Reaches (task.Weighs σ (log p.store)) (route.pattern.stop q) (run.arrival q)
          (a.cost + task.fare a.rides route run i q) (a.round + 1) true

/-- Every transfer from the arrival that may be taken has been taken, or there is one as good. -/
def WalksDone (task : Task) (p : Progress σ) (a : Arrival) : Prop :=
  a.onBoard = true → ∀ t ∈ task.network.transfersFrom a.stop,
    task.request.isTooLate (a.time + t.duration) = false →
    (log p.store).Reaches (task.Weighs σ (log p.store)) t.target (a.time + t.duration)
      (a.cost + task.pricing.transferCost t) a.round false

theorem RidesDone.mono {a : Arrival} (h : task.RidesDone p a) (hlog : (log p.store).Extends (log p'.store)) :
    task.RidesDone p' a :=
  fun index route hroute i q hstop hiq hq run hoffers hacc hfloor hlate =>
    (h index route hroute i q hstop hiq hq run hoffers hacc hfloor hlate).mono hlog fun hweighs => hweighs.mono hlog

theorem WalksDone.mono {a : Arrival} (h : task.WalksDone p a) (hlog : (log p.store).Extends (log p'.store)) :
    task.WalksDone p' a :=
  fun honBoard t ht hlate => (h honBoard t ht hlate).mono hlog fun hweighs => hweighs.mono hlog

/-! ## Transfers -/

theorem NewOnly.trans {P : Arrival → Prop} {l l' l'' : ArrivalLog} (h : NewOnly P l l') (h' : NewOnly P l' l'') :
    NewOnly P l l'' := by
  intro id a ha
  rcases h' id a ha with ha | hP
  · exact h id a ha
  · exact .inr hP

/-- Each transfer to another stop that may be taken in time leads to its target. -/
def Walked (task : Task) (p : Progress σ) (k : Nat) (source : Stop) (time : Time) (cost : Int) : Prop :=
  ∀ t ∈ task.network.transfersFrom source, t.target ≠ source →
    task.request.isTooLate (time + t.duration) = false →
    (log p.store).Reaches (LawfulStore.Heeds σ) t.target (time + t.duration) (cost + task.pricing.transferCost t) k false

theorem Walked.mono {source : Stop} {time : Time} {cost : Int} (h : task.Walked p k source time cost)
    (hlog : (log p.store).Extends (log p'.store)) : task.Walked p' k source time cost :=
  fun t ht hne hlate => (h t ht hne hlate).mono hlog id

theorem Walked.later {source : Stop} {time time' : Time} {cost cost' : Int} (h : task.Walked p k source time cost)
    (hle : time ≤ time') (hcost : LawfulStore.Heeds σ → cost ≤ cost') : task.Walked p k source time' cost' := by
  intro t ht hne hlate
  have hadd := Time.add_mono hle t.duration
  exact (h t ht hne (isTooLate_mono hlate hadd)).le hadd (fun hheeds => Int.add_le_add_right (hcost hheeds) _)
    (Nat.le_refl k)

theorem relaxFrom_gives (hready : task.Ready) (hv : task.Valid earliest p) (hround : round p.store = k)
    {id : Nat} {a : Arrival} (hget : (log p.store).get? id = .ok a) (honBoard : a.onBoard = true)
    (htallies : LawfulStore.Tallies σ a.rides k) :
    Gives (task.relaxFrom earliest k a.stop p id) fun p' => task.Follows earliest p p' ∧
      NewOnly (fun b => b.onBoard = false) (log p.store) (log p'.store) ∧ task.Walked p' k a.stop a.time a.cost := by
  obtain ⟨last, htraces⟩ := hv.traces id a hget
  unfold relaxFrom
  rw [hget]
  show Gives (List.foldlM (task.offer earliest) p (List.map (task.walkFrom k a.stop id a) _)) _
  have hproposals : ∀ b ∈ ((task.network.transfersFrom a.stop).zipIdx.filter fun t => t.1.target ≠ a.stop).map
      (task.walkFrom k a.stop id a), task.Proposal earliest p b := by
    intro b hb
    obtain ⟨⟨t, number⟩, hmem, rfl⟩ := List.mem_map.1 hb
    have ht : (task.network.transfersFrom a.stop)[number]? = some t := by
      simpa using List.mem_zipIdx_iff_getElem?.1 (List.mem_filter.1 hmem).1
    exact ⟨⟨last, .transfer hget htraces honBoard ht⟩, hround.symm, htallies⟩
  refine (offerAll_gives hready hv _ hproposals).mono fun p' ⟨hfollows, hreached, hnew⟩ =>
    ⟨hfollows, fun id b hb => ?_, fun t ht hne hlate => ?_⟩
  · rcases hnew id b hb with hb | hb
    · exact .inl hb
    · obtain ⟨_, _, rfl⟩ := List.mem_map.1 hb
      exact .inr rfl
  · obtain ⟨number, hnumber⟩ := List.mem_iff_getElem?.1 ht
    have hmem : (t, number) ∈ (task.network.transfersFrom a.stop).zipIdx.filter fun t => t.1.target ≠ a.stop :=
      List.mem_filter.2 ⟨List.mem_zipIdx_iff_getElem?.2 (by simpa using hnumber), by simpa using hne⟩
    exact hreached _ (List.mem_map_of_mem hmem) hlate

theorem relaxStop_gives (hready : task.Ready) (hv : task.Valid earliest p) (hround : round p.store = k)
    {source : Stop} (hsource : source < task.network.stopCount) :
    Gives (task.relaxStop earliest k p source) fun p' => task.Follows earliest p p' ∧
      NewOnly (fun b => b.onBoard = false) (log p.store) (log p'.store) ∧
      ∀ time cost, (log p.store).Hands (transferable p.store source)
        (fun b => b.time ≤ time ∧ (LawfulStore.Heeds σ → b.cost ≤ cost)) → task.Walked p' k source time cost := by
  obtain ⟨ids, hids, hsound⟩ := LawfulStore.transferable_gives hv.good source hsource
  unfold relaxStop
  rw [hids]
  show Gives (ids.foldlM _ p) _
  have key := gives_foldlM (f := task.relaxFrom earliest k source) (P := fun done p' => task.Follows earliest p p' ∧
    NewOnly (fun b => b.onBoard = false) (log p.store) (log p'.store) ∧
    ∀ id ∈ done, ∀ b, (log p.store).get? id = .ok b → task.Walked p' k source b.time b.cost) ids p
    ⟨.refl hv, fun _ _ h => .inl h, fun id hid => by cases hid⟩ ?_
  · refine key.mono fun p' ⟨hfollows, hnew, hdone⟩ => ⟨hfollows, hnew, fun time cost hhands => ?_⟩
    obtain ⟨ids', hids', id, hid, b, hb, hle, hcost⟩ := hhands
    obtain rfl := Except.ok.inj hids'
    exact (hdone id hid b hb).later hle hcost
  · rintro done id rest p' hsplit ⟨hfollows, hnew, hdone⟩
    obtain ⟨a, hget, rfl, honBoard, htallies⟩ := hsound id
      (by simp [hsplit])
    rw [hround] at htallies
    refine (relaxFrom_gives hready hfollows.valid (hfollows.round_eq.trans hround)
      (hfollows.log_extends _ _ hget) honBoard htallies).mono ?_
    rintro p'' ⟨hfollows', hnew', hwalked⟩
    refine ⟨hfollows.trans hfollows', hnew.trans hnew', fun id' hid' b hb => ?_⟩
    rcases List.mem_append.1 hid' with hid' | hid'
    · exact (hdone id' hid' b hb).mono hfollows'.log_extends
    · rw [List.mem_singleton.1 hid', hget] at hb
      cases hb
      exact hwalked

/-- The transfers of a round. Nothing that they reach is on board, so nobody walks twice in a row. -/
theorem relaxAll_gives (hready : task.Ready) (hv : task.Valid earliest p) (hround : round p.store = k) :
    Gives ((changes p.store).onBoard.foldlM (task.relaxStop earliest k) p) fun p' =>
      task.Follows earliest p p' ∧ (truncations p'.store = 0 → ∀ first ≤ (log p.store).size,
        Keeps (LawfulStore.Heeds σ) p.store first →
          ∀ id a, first ≤ id → (log p'.store).get? id = .ok a → task.WalksDone p' a) := by
  have key := gives_foldlM (f := task.relaxStop earliest k) (P := fun done p' => task.Follows earliest p p' ∧
    NewOnly (fun b => b.onBoard = false) (log p.store) (log p'.store) ∧
    (truncations p'.store = 0 → ∀ first ≤ (log p.store).size, Keeps (LawfulStore.Heeds σ) p.store first →
      ∀ id a, first ≤ id → (log p.store).get? id = .ok a → a.onBoard = true → a.stop ∈ done →
        task.Walked p' k a.stop a.time a.cost)) (changes p.store).onBoard p
    ⟨.refl hv, fun _ _ h => .inl h, fun _ _ _ _ _ _ _ _ _ h => by cases h⟩ ?_
  · refine key.mono fun p' ⟨hfollows, hnew, hdone⟩ => ⟨hfollows, fun hroom first hfirst hkeeps id a hid hget => ?_⟩
    intro honBoard t ht hlate
    have hget' : (log p.store).get? id = .ok a := by
      rcases hnew id a hget with h | h
      · exact h
      · rw [honBoard] at h
        cases h
    have haround : a.round = k := (hkeeps.round id a hid hget').trans hround
    by_cases hne : t.target = a.stop
    · -- Walking in a circle leads nowhere.
      exact ⟨id, a, hget, hne.symm, Time.le_add t.duration_nonneg,
        fun hweighs => Int.le_add_of_nonneg_right (hweighs.circles a.stop t ht hne), Nat.le_refl _, fun h => by cases h⟩
    · rw [haround]
      exact (hdone hroom first hfirst hkeeps id a hid hget' honBoard (hkeeps.walks id a hid hget' honBoard).1
        t ht hne hlate).mono (ArrivalLog.extends_refl _) fun hweighs => hweighs.heeds
  · rintro done source rest p' hsplit ⟨hfollows, hnew, hdone⟩
    have hsource := LawfulStore.onBoard_lt hv.good source
      (by simp [hsplit])
    apply (relaxStop_gives hready hfollows.valid (hfollows.round_eq.trans hround) hsource).mono
    rintro p'' ⟨hfollows', hnew', hwalked⟩
    refine ⟨hfollows.trans hfollows', hnew.trans hnew', ?_⟩
    intro hroom first hfirst hkeeps id a hid hget honBoard hmem
    have hroom' := hfollows'.room hroom
    rcases List.mem_append.1 hmem with hmem | hmem
    · exact (hdone hroom' first hfirst hkeeps id a hid hget honBoard hmem).mono hfollows'.log_extends
    · -- At this stop the arrival, or a better one, still has its turn.
      have hkeeps' := hfollows.keeps hroom' first hfirst hkeeps
      have hhands := (hkeeps'.walks id a hid (hfollows.log_extends _ _ hget) honBoard).2
      rw [List.mem_singleton.1 hmem] at hhands ⊢
      exact hwalked _ _ hhands

/-! ## The whole round -/

/-- A network without rules for changes in which every route keeps order. -/
structure Plain (task : Task) : Prop where
  entries : task.network.connections.entries = []
  fifo : ∀ route ∈ task.network.routes, route.Fifo

/-- What has been found stays found. -/
structure Grows (p p' : Progress σ) : Prop where
  log_extends : (log p.store).Extends (log p'.store)
  truncations_le : truncations p.store ≤ truncations p'.store
  goals : ∀ t time rides cost, p.goals.Arrives t time rides cost → p'.goals.Arrives t time rides cost

omit [LawfulStore σ] in
theorem Grows.refl (p : Progress σ) : Grows p p := ⟨ArrivalLog.extends_refl _, Nat.le_refl _, fun _ _ _ _ h => h⟩

omit [LawfulStore σ] in
theorem Grows.trans {p'' : Progress σ} (h : Grows p p') (h' : Grows p' p'') : Grows p p'' :=
  ⟨h.log_extends.trans h'.log_extends, Nat.le_trans h.truncations_le h'.truncations_le,
    fun t time rides cost hg => h'.goals t time rides cost (h.goals t time rides cost hg)⟩

omit [LawfulStore σ] in
theorem Grows.room (h : Grows p p') (hroom : truncations p'.store = 0) : truncations p.store = 0 :=
  Nat.le_zero.1 (hroom ▸ h.truncations_le)

theorem Follows.grows (h : task.Follows earliest p p') : Grows p p' :=
  ⟨h.log_extends, h.truncations_le, h.goals⟩

/-- The state `p0` begins round `k` with what has been found in the state `p`. -/
structure Begun (task : Task) (p p0 : Progress σ) (k : Nat) : Prop where
  good : LawfulStore.Good task.network.stopCount task.settings.maxRounds p0.store
  log_eq : log p0.store = log p.store
  goals_eq : p0.goals = p.goals
  round_eq : round p0.store = k
  truncations_eq : truncations p0.store = truncations p.store

section Begun

variable {p0 : Progress σ}

theorem begun_round (h : task.Valid earliest p) (hk : k ≤ task.settings.maxRounds) (stats : SearchStats) :
    task.Begun p { p with store := ArrivalStore.beginRound p.store k, stats := stats } k where
  good := LawfulStore.good_beginRound h.good k hk
  log_eq := LawfulStore.log_beginRound _ _
  goals_eq := rfl
  round_eq := LawfulStore.round_beginRound _ _
  truncations_eq := LawfulStore.truncations_beginRound _ _

theorem begun_iteration (h : task.Valid earliest p) (iteration : Nat) (stats : SearchStats) :
    task.Begun p
      { p with
        store := ArrivalStore.beginRound (ArrivalStore.beginIteration p.store iteration) 0
        stats := stats } 0 where
  good := LawfulStore.good_beginRound (LawfulStore.good_beginIteration h.good iteration) 0 (Nat.zero_le _)
  log_eq := (LawfulStore.log_beginRound _ _).trans (LawfulStore.log_beginIteration _ _)
  goals_eq := rfl
  round_eq := LawfulStore.round_beginRound _ _
  truncations_eq := (LawfulStore.truncations_beginRound _ _).trans (LawfulStore.truncations_beginIteration _ _)

theorem Begun.grows (h : task.Begun p p0 k) : Grows p p0 where
  log_extends := by
    rw [h.log_eq]
    exact ArrivalLog.extends_refl _
  truncations_le := Nat.le_of_eq h.truncations_eq.symm
  goals t time rides cost hg := by
    rw [h.goals_eq]
    exact hg

theorem Begun.valid (h : task.Begun p p0 k) (hv : task.Valid earliest p) : task.Valid earliest p0 := by
  refine ⟨h.good, ?_, ?_, ?_, ?_⟩
  · rw [h.log_eq]
    exact hv.traces
  · rw [h.log_eq]
    exact hv.backward
  · rw [h.log_eq, h.goals_eq]
    exact hv.goals
  · rw [h.log_eq, h.goals_eq]
    exact hv.goalsDone

/-- The transfers of old and new arrivals have been taken after the round, if the new ones have been seen to. -/
theorem Begun.walksDone (h : task.Begun p p0 k) (hf : task.Follows earliest p0 p')
    (hold : ∀ id a, (log p.store).get? id = .ok a → task.WalksDone p a)
    (hnew : ∀ id a, (log p.store).size ≤ id → (log p'.store).get? id = .ok a → task.WalksDone p' a) :
    ∀ id a, (log p'.store).get? id = .ok a → task.WalksDone p' a := by
  have hgrows := h.grows.trans hf.grows
  intro id a hget
  rcases Nat.lt_or_ge id (log p.store).size with hid | hid
  · exact (hold id a (hgrows.log_extends.get? hid hget)).mono hgrows.log_extends
  · exact hnew id a hid hget

/-- The arrivals of the round are kept. -/
theorem Begun.keeps (h : task.Begun p p0 k) (hf : task.Follows earliest p0 p') (hroom : truncations p'.store = 0) :
    Keeps (LawfulStore.Heeds σ) p'.store (log p.store).size := by
  rw [← h.log_eq]
  exact hf.keeps hroom _ (Nat.le_refl _) (ArrivalStore.keeps_size _ p0.store)

end Begun

/-- The access paths with rides up to `k` have been entered. -/
def Seeded (task : Task) (earliest : Time) (p : Progress σ) (k : Nat) : Prop :=
  ∀ path ∈ task.request.access, path.rides ≤ k → ∀ start, path.earliestStart? earliest = some start →
    task.request.isTooLate (start + path.duration) = false →
    (log p.store).Reaches (LawfulStore.Heeds σ) path.stop (start + path.duration) path.cost path.rides path.onBoard

/-- The state after round `k`, which has accepted the arrivals from number `first` on. -/
structure Settled (task : Task) (earliest : Time) (first k : Nat) (p : Progress σ) : Prop where
  valid : task.Valid earliest p
  round_eq : round p.store = k
  seeded : task.Seeded earliest p k
  keeps : truncations p.store = 0 → Keeps (LawfulStore.Heeds σ) p.store first
  walksDone : truncations p.store = 0 → ∀ id a, (log p.store).get? id = .ok a → task.WalksDone p a
  ridesDone : task.Plain → truncations p.store = 0 → ∀ id a, (log p.store).get? id = .ok a → id < first →
    a.round < task.settings.maxRounds → task.RidesDone p a

theorem mem_eraseReps {α : Type} [BEq α] [LawfulBEq α] {x : α} {l : List α} : x ∈ l.eraseReps ↔ x ∈ l := by
  have hloop : ∀ (l : List α) (a : α) (acc : List α),
      x ∈ List.eraseRepsBy.loop (· == ·) a l acc ↔ x = a ∨ x ∈ l ∨ x ∈ acc := by
    intro l
    induction l with
    | nil =>
      intro a acc
      simp [List.eraseRepsBy.loop, or_comm]
    | cons b l ih =>
      intro a acc
      unfold List.eraseRepsBy.loop
      split
      · rename_i heq
        obtain rfl := beq_iff_eq.1 heq
        rw [ih, List.mem_cons]
        grind
      · rw [ih, List.mem_cons, List.mem_cons]
        grind
  unfold List.eraseReps List.eraseRepsBy
  cases l with
  | nil => rfl
  | cons a l =>
    simp only [hloop, List.mem_cons, List.not_mem_nil, or_false]

theorem mem_routesToScan {index : RouteIndex} {stops : List Stop} :
    index ∈ task.routesToScan stops ↔ ∃ stop ∈ stops, index ∈ task.network.routesThrough stop := by
  unfold routesToScan
  rw [mem_eraseReps, List.mem_mergeSort, List.mem_flatMap]

/-- The routes of a round. -/
theorem scanAll_gives (hready : task.Ready) (hv : task.Valid earliest p) (hk : k ≤ task.settings.maxRounds)
    (hround : round p.store = k) (stops : List Stop) :
    GivesInRange ((task.routesToScan stops).foldlM (task.scanRoute earliest k) p) fun p' => task.Follows earliest p p' ∧
      (task.Plain → truncations p'.store = 0 → ∀ (index : RouteIndex) (route : Route),
        task.network.routes[index]? = some route → ∀ stop ∈ stops, stop ∈ route.pattern.stops →
          task.Ridden p p' k route route.pattern.size) := by
  have key := givesUnless_foldlM (E := (· = .sum)) (f := task.scanRoute earliest k)
    (P := fun done p' => task.Follows earliest p p' ∧
      (task.Plain → truncations p'.store = 0 → ∀ index ∈ done, ∀ route, task.network.routes[index]? = some route →
        task.Ridden p p' k route route.pattern.size)) (task.routesToScan stops) p
    ⟨.refl hv, fun _ _ _ h => by cases h⟩ ?_
  · refine key.mono fun p' ⟨hfollows, hridden⟩ => ⟨hfollows, ?_⟩
    intro hplain hroom index route hroute stop hstop hserves
    exact hridden hplain hroom index
      (mem_routesToScan.2 ⟨stop, hstop, (hready.network.mem_routesThrough stop index).2 ⟨route, hroute, hserves⟩⟩)
      route hroute
  · rintro done index rest p' hsplit ⟨hfollows, hridden⟩
    have hmem : index ∈ task.routesToScan stops := by simp [hsplit]
    obtain ⟨stop, _, hthrough⟩ := mem_routesToScan.1 hmem
    obtain ⟨route, hroute, _⟩ := (hready.network.mem_routesThrough stop index).1 hthrough
    apply (scanRoute_gives hready hfollows.valid hk (hfollows.round_eq.trans hround) hroute).mono
    rintro p'' ⟨hfollows', hridden'⟩
    refine ⟨hfollows.trans hfollows', fun hplain hroom index' hindex' route' hroute' => ?_⟩
    have hroom' := hfollows'.room hroom
    rcases List.mem_append.1 hindex' with hindex' | hindex'
    · exact (hridden hplain hroom' index' hindex' route' hroute').mono hfollows'.log_extends
    · rw [List.mem_singleton.1 hindex', hroute] at hroute'
      obtain rfl := Option.some.inj hroute'
      intro j run a hcatch
      exact hridden' (hplain.fifo _ (Array.mem_of_getElem? hroute)) hplain.entries hroom j run a
        (hcatch.of_follows hfollows hroom')

/-- Every arrival that the last round has accepted can ride on in this one. -/
theorem Ridden.ridesDone (hready : task.Ready) {first : Nat} (hround : round p.store = k)
    (hkeeps : Keeps (LawfulStore.Heeds σ) p.store first) {p0 : Progress σ}
    (hstore : p0.store = ArrivalStore.beginRound p.store (k + 1))
    (hridden : ∀ (index : RouteIndex) (route : Route), task.network.routes[index]? = some route →
      ∀ stop ∈ (changes p.store).current, stop ∈ route.pattern.stops →
        task.Ridden p0 p' (k + 1) route route.pattern.size)
    {id : Nat} {a : Arrival} (hid : first ≤ id) (hget : (log p.store).get? id = .ok a)
    (hrides : a.rides < task.settings.maxRounds) : task.RidesDone p' a := by
  intro index route hroute i q hstop hiq hq run hoffers hacc hfloor hlate
  have hserves : a.stop ∈ route.pattern.stops := by
    rw [← hstop]
    exact StopPattern.stop_mem (Nat.lt_trans hiq hq)
  have hcatch : task.Catches p0 route i run a := by
    refine ⟨hoffers, hacc, hrides, ?_⟩
    have hhands := hkeeps.boards id a hid hget
    rw [hstop, hstore, LawfulStore.log_beginRound, ← hround]
    apply hhands.mono (ArrivalLog.extends_refl _)
    rintro b ⟨htime, hfewer, hcost⟩
    exact ⟨Time.le_trans (Settings.boardingFloor_mono hready.settings.transferSlack htime hfewer) hfloor, hfewer, hcost⟩
  rw [hkeeps.round id a hid hget, hround]
  exact hridden index route hroute a.stop (hkeeps.changed id a hid hget) hserves i run a hcatch q hiq hq hlate

/-- A round settles the one before. -/
theorem runRound_gives (hready : task.Ready) (hdeparture : earliest ∈ task.departures) {first : Nat}
    (h : task.Settled earliest first k p) (hk : k + 1 ≤ task.settings.maxRounds) :
    GivesInRange (task.runRound earliest (k + 1) p) fun p' =>
      task.Settled earliest (log p.store).size (k + 1) p' ∧ Grows p p' := by
  have hbegun := begun_round h.valid hk { p.stats with rounds := p.stats.rounds + 1 }
  have hprevious := LawfulStore.previous_beginRound p.store k
  simp only [runRound]
  generalize hp0 : ({ p with
    store := ArrivalStore.beginRound p.store (k + 1)
    stats := { p.stats with rounds := p.stats.rounds + 1 } } : Progress σ) = p0 at hbegun ⊢
  have hstore : p0.store = ArrivalStore.beginRound p.store (k + 1) := by rw [← hp0]
  have hround := hbegun.round_eq
  rw [hprevious]
  apply (scanAll_gives hready (hbegun.valid h.valid) hk hround _).bind
  rintro p1 ⟨hf1, hridden⟩
  apply (seed_gives hready hf1.valid hdeparture hk (hf1.round_eq.trans hround)).unless.bind
  rintro p2 ⟨hf2, hseeded⟩
  have hf12 := hf1.trans hf2
  apply (relaxAll_gives hready hf12.valid (hf12.round_eq.trans hround)).unless.mono
  rintro p3 ⟨hf3, hwalked⟩
  have hf := hf12.trans hf3
  have hgrows := hbegun.grows.trans hf.grows
  refine ⟨⟨hf.valid, hf.round_eq.trans hround, ?_, hbegun.keeps hf, ?_, ?_⟩, hgrows⟩
  · intro path hpath hrides start hstart hlate
    rcases Nat.lt_or_eq_of_le hrides with hlt | heq
    · exact (h.seeded path hpath (Nat.le_of_lt_succ hlt) start hstart hlate).mono hgrows.log_extends id
    · rw [heq]
      exact (hseeded path hpath heq start hstart hlate).mono hf3.log_extends id
  · intro hroom
    apply hbegun.walksDone hf (h.walksDone (hgrows.room hroom))
    have hsize := (hbegun.grows.trans hf12.grows).log_extends.size_le
    exact hwalked hroom _ hsize (hbegun.keeps hf12 (hf3.room hroom))
  · intro hplain hroom id a hget hid hmax
    have hget' := hgrows.log_extends.get? hid hget
    rcases Nat.lt_or_ge id first with hold | hnew
    · exact (h.ridesDone hplain (hgrows.room hroom) id a hget' hold hmax).mono hgrows.log_extends
    · have htallies := LawfulStore.rides_le (LawfulStore.good_tallies h.valid.good id a hget')
      have hdone := Ridden.ridesDone hready h.round_eq (h.keeps (hgrows.room hroom)) hstore
        (hridden hplain ((hf2.trans hf3).room hroom)) hnew hget' (Nat.lt_of_le_of_lt htallies hmax)
      exact hdone.mono (hf2.trans hf3).log_extends

end Task

end JourneyPlanner
