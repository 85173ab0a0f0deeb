import JourneyPlanner.Proofs.Watching
/-!
# Idle rounds

An iteration ends early, after a round that has accepted nothing once no access path is left.
`Task.runToEnd` is the search that runs every round of every iteration instead. A round after such a round
has no stop to ride from, no access path to enter and no stop to walk from, so all that it does is begin
(`Task.runRound_idle`). Both searches find the same arrivals and answer with the same itineraries
(`Task.run_toEnd`, `Network.plan_toEnd`).
-/
namespace JourneyPlanner

open ArrivalStore (log changes)

/-! ## A search that runs every round -/

namespace Task

variable {σ : Type} [ArrivalStore σ]

/-- The rounds from number `round` on, all `left` of them unless the time is over. -/
def runEveryRound (task : Task) (departure : Time) :
    (left round : Nat) → Progress σ → Except OutOfRange (Progress σ × Bool)
  | 0, _, progress => .ok (progress, false)
  | left + 1, round, progress => do
    if task.timeIsOver progress.stats.rounds then return (progress, true)
    else
      let progress ← task.runRound departure round progress
      task.runEveryRound departure left (round + 1) progress

/-- An iteration with every round. -/
def runFullIteration (task : Task) (iteration : Nat) (departure : Time) (progress : Progress σ) :
    Except OutOfRange (Progress σ × Bool) := do
  let store := ArrivalStore.beginIteration progress.store iteration
  let progress :=
    { progress with
      store := ArrivalStore.beginRound store 0
      stats := { progress.stats with iterations := progress.stats.iterations + 1 } }
  let progress ← task.seed departure 0 progress
  task.runEveryRound departure task.settings.maxRounds 1 progress

/-- The iterations for some departures, each with every round. -/
def runFullIterations (task : Task) :
    (iteration : Nat) → List Time → Progress σ → Except OutOfRange (Progress σ × Bool)
  | _, [], progress => .ok (progress, false)
  | iteration, departure :: departures, progress => do
    let (progress, timedOut) ← task.runFullIteration iteration departure progress
    if timedOut then return (progress, true)
    else task.runFullIterations (iteration + 1) departures progress

/-- Runs every round of every iteration. -/
def runToEnd (task : Task) (store : σ) : Except OutOfRange (Outcome σ) := do
  let (progress, timedOut) ← task.runFullIterations 0 task.departures ⟨store, .empty, .zero⟩
  return {
    store := progress.store
    goals := progress.goals
    stats := { progress.stats with truncations := ArrivalStore.truncations progress.store }
    timedOut := timedOut }

/-- The answer of a search that runs every round. -/
def searchToEnd (task : Task) (store : σ) : Except OutOfRange SearchResult := do
  let (result, _) ← task.answer (← task.runToEnd store)
  return result

end Task

/-- The journeys that a request asks for, from a search that runs every round. -/
def Network.planToEnd (net : Network) (settings : Settings) (request : Request) (clock : Clock) :
    Except SearchError SearchResult := do
  let task ← net.task? settings request clock
  let result :=
    match settings.profile with
    | .standard => task.searchToEnd (EarliestArrivals.init net.stopCount settings.maxRounds)
    | .multiCriteria => task.searchToEnd (ArrivalFrontiers.init net.stopCount settings.frontierSize)
  result.mapError .brokenNetwork

/-- A store whose rounds are turned by the search alone, and where the rounds of an iteration leave nothing but
arrivals to the next one. -/
class RoundKeeping (σ : Type) [ArrivalStore σ] : Prop where
  round_beginRound : ∀ (s : σ) (k : Nat), ArrivalStore.round (ArrivalStore.beginRound s k) = k
  round_accept : ∀ {s s' : σ} {a : Arrival} {id : Nat}, ArrivalStore.accept s a = .ok (s', id) →
    ArrivalStore.round s' = ArrivalStore.round s
  round_reject : ∀ (s : σ) (a : Arrival), ArrivalStore.round (ArrivalStore.reject s a) = ArrivalStore.round s
  changes_beginRound : ∀ (s : σ) (k : Nat), changes (ArrivalStore.beginRound s k) = (changes s).beginRound k
  beginIteration_beginRound : ∀ (s : σ) (k i : Nat),
    ArrivalStore.beginIteration (ArrivalStore.beginRound s k) i = ArrivalStore.beginIteration s i

instance : RoundKeeping EarliestArrivals where
  round_beginRound _ _ := rfl
  round_accept {s s' a id} h := by
    obtain ⟨rows, -, h⟩ := of_bind_eq_ok (show s.accept a = .ok (s', id) from h)
    split at h
    · cases h
      rfl
    · cases h
  round_reject _ _ := rfl
  changes_beginRound _ _ := rfl
  beginIteration_beginRound _ _ _ := rfl

instance : RoundKeeping ArrivalFrontiers where
  round_beginRound _ _ := rfl
  round_accept {s s' a id} h := by
    obtain ⟨f, -, h⟩ := of_bind_eq_ok (show s.accept a = .ok (s', id) from h)
    cases h
    rfl
  round_reject _ _ := rfl
  changes_beginRound _ _ := rfl
  beginIteration_beginRound _ _ _ := rfl

theorem ArrivalStore.round_offer {σ : Type} [ArrivalStore σ] [RoundKeeping σ] {s s' : σ} {a : Arrival} {id : Option Nat}
    (h : offer s a = .ok (s', id)) : ArrivalStore.round s' = ArrivalStore.round s := by
  obtain ⟨rfl, -⟩ | ⟨_, haccept, -⟩ := of_offer_eq_ok h
  · exact RoundKeeping.round_reject s a
  · exact RoundKeeping.round_accept haccept

/-! ## What is counted does not matter -/

section Alike

variable {ε α α' β β' γ : Type}

/-- Two computations that begin with the same one. -/
theorem Alike.bind_same {S : α' → β' → Prop} (x : Except ε α) {f : α → Except ε α'} {g : α → Except ε β'}
    (h : ∀ a, Alike S (f a) (g a)) : Alike S (x >>= f) (x >>= g) := by
  cases x with
  | ok a => exact h a
  | error e => exact .error e

/-- Two loops go side by side if their steps do, whatever they propose. -/
theorem alike_loop {R : α → β → Prop} {f : α → γ → Except ε α} {g : β → γ → Except ε β} (cs : List γ)
    (step : ∀ a b, ∀ c ∈ cs, R a b → Alike R (f a c) (g b c)) {a : α} {b : β} (h : R a b) :
    Alike R (cs.foldlM f a) (cs.foldlM g b) := by
  induction cs generalizing a b with
  | nil => exact .ok h
  | cons c cs ih =>
    rw [List.foldlM_cons, List.foldlM_cons]
    refine (step a b c (List.mem_cons_self ..) h).bind fun a' b' h' => ?_
    exact ih (fun a b c hc => step a b c (List.mem_cons_of_mem _ hc)) h'

end Alike

variable {σ : Type} [ArrivalStore σ]

/-- The second search has found what the first one has, whatever they have counted. -/
def SameFinds (p q : Progress σ) : Prop := ∃ stats, q = { p with stats := stats }

/-- The same of two searches that also give a value each, and give the same one. -/
def SameFindsWith (r r' : Progress σ × List Rider) : Prop := SameFinds r.1 r'.1 ∧ r.2 = r'.2

namespace Task

variable {task : Task} {departure : Time} {round : Nat} {p q : Progress σ}

theorem offer_sameFinds (h : SameFinds p q) (a : Arrival) :
    Alike SameFinds (task.offer departure p a) (task.offer departure q a) := by
  obtain ⟨stats, rfl⟩ := h
  simp only [offer]
  split
  · exact .ok ⟨_, rfl⟩
  · refine Alike.bind_same _ fun (store, id) => ?_
    cases id with
    | none => exact .ok ⟨_, rfl⟩
    | some id => exact .ok ⟨_, rfl⟩

theorem offerAll_sameFinds (h : SameFinds p q) (as : List Arrival) :
    Alike SameFinds (as.foldlM (task.offer departure) p) (as.foldlM (task.offer departure) q) :=
  alike_loop as (fun _ _ a _ h => offer_sameFinds h a) h

theorem scanPosition_sameFinds {route : Route} {riders : List Rider} (h : SameFinds p q) (place : Stop × Position) :
    Alike SameFindsWith (task.scanPosition departure route round (p, riders) place)
      (task.scanPosition departure route round (q, riders) place) := by
  unfold scanPosition
  refine (offerAll_sameFinds h _).bind fun p' q' h' => ?_
  split
  · exact .ok ⟨h', rfl⟩
  · obtain ⟨stats, rfl⟩ := h'
    exact Alike.bind_same _ fun ids => Alike.bind_same _ fun riders' => .ok ⟨⟨stats, rfl⟩, rfl⟩

theorem scanRoute_sameFinds (h : SameFinds p q) (index : RouteIndex) :
    Alike SameFinds (task.scanRoute departure round p index) (task.scanRoute departure round q index) := by
  unfold scanRoute
  refine Alike.bind_same _ fun route => ?_
  have hstep : ∀ (r r' : Progress σ × List Rider), ∀ place ∈ route.pattern.stops.toList.zipIdx, SameFindsWith r r' →
      Alike SameFindsWith (task.scanPosition departure route round r place)
        (task.scanPosition departure route round r' place) := by
    rintro ⟨p, riders⟩ ⟨q, riders'⟩ place - ⟨h, hriders⟩
    obtain rfl : riders = riders' := hriders
    exact scanPosition_sameFinds h place
  have hstart : SameFindsWith (p, []) (q, []) := ⟨h, rfl⟩
  exact (alike_loop _ hstep hstart).bind fun r r' hr => .ok hr.1

theorem relaxStop_sameFinds (h : SameFinds p q) (source : Stop) :
    Alike SameFinds (task.relaxStop departure round p source) (task.relaxStop departure round q source) := by
  have hfrom : ∀ (p q : Progress σ) (id : Nat), SameFinds p q →
      Alike SameFinds (task.relaxFrom departure round source p id) (task.relaxFrom departure round source q id) := by
    rintro p _ id ⟨stats, rfl⟩
    exact Alike.bind_same _ fun a => offerAll_sameFinds ⟨stats, rfl⟩ _
  obtain ⟨stats, rfl⟩ := h
  exact Alike.bind_same _ fun ids => alike_loop ids (fun p q id _ => hfrom p q id) ⟨stats, rfl⟩

theorem runRound_sameFinds (h : SameFinds p q) :
    Alike SameFinds (task.runRound departure round p) (task.runRound departure round q) := by
  obtain ⟨stats, rfl⟩ := h
  unfold runRound
  refine (alike_loop (R := SameFinds) _ (fun _ _ index _ h => scanRoute_sameFinds h index) ⟨_, rfl⟩).bind fun p1 q1 h1 => ?_
  refine (offerAll_sameFinds h1 _).bind fun p2 q2 h2 => ?_
  obtain ⟨stats2, rfl⟩ := h2
  exact alike_loop (R := SameFinds) _ (fun _ _ source _ h => relaxStop_sameFinds h source) ⟨stats2, rfl⟩

end Task

/-! ## Rounds in which nothing happens -/

/-- The second search has found what the first one has, and its next iteration begins in the same way. -/
structure Rested (p q : Progress σ) : Prop where
  log_eq : log q.store = log p.store
  goals_eq : q.goals = p.goals
  beginIteration_eq : ∀ i, ArrivalStore.beginIteration q.store i = ArrivalStore.beginIteration p.store i

variable {p q p' : Progress σ}

theorem SameFinds.rested (h : SameFinds p q) : Rested p q := by
  obtain ⟨stats, rfl⟩ := h
  exact ⟨rfl, rfl, fun _ => rfl⟩

theorem Rested.trans (h : Rested p q) (h' : Rested q p') : Rested p p' where
  log_eq := h'.log_eq.trans h.log_eq
  goals_eq := h'.goals_eq.trans h.goals_eq
  beginIteration_eq i := (h'.beginIteration_eq i).trans (h.beginIteration_eq i)

namespace Task

variable {task : Task} {departure : Time} {round left : Nat}

/-- A round with more rides than any access path has enters none of them. -/
theorem accessArrivals_eq_nil (hpast : task.maxAccessRides < round) :
    task.request.access.zipIdx.filterMap (accessArrival? departure round) = [] := by
  refine List.filterMap_eq_nil_iff.2 fun ⟨path, number⟩ hmem => ?_
  have hle : path.rides ≤ task.maxAccessRides := rides_le_maxAccessRides (List.fst_mem_of_mem_zipIdx hmem)
  unfold accessArrival?
  exact if_neg (Nat.ne_of_lt (Nat.lt_of_le_of_lt hle hpast))

variable [LoggingStore σ] [RoundKeeping σ]

/-- After a round that has accepted nothing, and with no access path left, a round does nothing but begin. -/
theorem runRound_idle (departure : Time) (hround : 0 < round) (hempty : (changes p.store).current = [])
    (hpast : task.maxAccessRides < round) :
    ∃ q, task.runRound departure round p = .ok q ∧ (changes q.store).current = [] ∧ Rested p q := by
  have hchanges : changes (ArrivalStore.beginRound p.store round) = ⟨[], [], []⟩ := by
    rw [RoundKeeping.changes_beginRound, RoundChanges.beginRound, if_pos hround, RoundChanges.next, hempty]
  have hroutes : task.routesToScan [] = [] := by
    unfold routesToScan
    rw [List.flatMap_nil, List.mergeSort_nil]
    rfl
  refine ⟨{ p with store := ArrivalStore.beginRound p.store round, stats := { p.stats with rounds := p.stats.rounds + 1 } },
    ?_, ?_, LoggingStore.log_beginRound _ _, rfl, RoundKeeping.beginIteration_beginRound _ _⟩
  · unfold runRound seed
    simp only [hchanges, hroutes, accessArrivals_eq_nil hpast, List.foldlM_nil, pure_bind]
    rfl
  · rw [hchanges]

theorem runEveryRound_idle (htimeout : task.settings.timeout = none) (departure : Time) (left : Nat)
    (hround : 0 < round) (hempty : (changes p.store).current = []) (hpast : task.maxAccessRides < round) :
    ∃ q, task.runEveryRound departure left round p = .ok (q, false) ∧ Rested p q := by
  induction left generalizing round p with
  | zero => exact ⟨p, rfl, SameFinds.rested ⟨_, rfl⟩⟩
  | succ left ih =>
    obtain ⟨p1, hrun, hempty1, hrested⟩ := runRound_idle departure hround hempty hpast
    obtain ⟨q, hq, hrested'⟩ := ih (Nat.succ_pos round) hempty1 (Nat.lt_succ_of_lt hpast)
    refine ⟨q, ?_, hrested.trans hrested'⟩
    rw [runEveryRound, timeIsOver_of_untimed htimeout, if_neg Bool.false_ne_true, hrun, ok_bind, hq]

/-! ## Both searches side by side -/

section Untimed

variable (htimeout : task.settings.timeout = none)

include htimeout

/-- The rounds that end early, and all of them. -/
theorem runRounds_toEnd (hround : 0 < round) (h : SameFinds p q) :
    Alike (fun r r' => Rested r.1 r'.1 ∧ r.2 = r'.2) (task.runRounds departure left round p)
      (task.runEveryRound departure left round q) := by
  induction left generalizing round p q with
  | zero => exact .ok ⟨h.rested, rfl⟩
  | succ left ih =>
    unfold runRounds runEveryRound
    rw [timeIsOver_of_untimed htimeout, timeIsOver_of_untimed htimeout, if_neg Bool.false_ne_true,
      if_neg Bool.false_ne_true]
    refine (runRound_sameFinds h).bind fun p' q' h' => ?_
    split
    · -- The rounds that are left out would have done nothing.
      rename_i hdone
      obtain ⟨hempty, hpast⟩ := (Bool.and_eq_true _ _).mp hdone
      have hfinds := h'.rested
      obtain ⟨stats, rfl⟩ := h'
      obtain ⟨q, hq, hrested⟩ := runEveryRound_idle htimeout departure left (Nat.succ_pos round)
        (show (changes ({ p' with stats := stats } : Progress σ).store).current = [] from List.isEmpty_iff.1 hempty)
        (Nat.lt_succ_of_le (of_decide_eq_true hpast))
      rw [hq]
      exact .ok ⟨hfinds.trans hrested, rfl⟩
    · exact ih (Nat.succ_pos round) h'

theorem runIteration_toEnd {iteration : Nat} (h : Rested p q) :
    Alike (fun r r' => Rested r.1 r'.1 ∧ r.2 = r'.2) (task.runIteration iteration departure p)
      (task.runFullIteration iteration departure q) := by
  unfold runIteration runFullIteration
  rw [h.beginIteration_eq, h.goals_eq]
  exact (offerAll_sameFinds ⟨_, rfl⟩ _).bind fun p' q' h' => runRounds_toEnd htimeout Nat.zero_lt_one h'

theorem runIterations_toEnd {iteration : Nat} {departures : List Time} (h : Rested p q) :
    Alike (fun r r' => Rested r.1 r'.1 ∧ r.2 = r'.2) (task.runIterations iteration departures p)
      (task.runFullIterations iteration departures q) := by
  induction departures generalizing iteration p q with
  | nil => exact .ok ⟨h, rfl⟩
  | cons departure departures ih =>
    unfold runIterations runFullIterations
    refine (runIteration_toEnd htimeout h).bind ?_
    rintro ⟨p', timedOut⟩ ⟨q', timedOut'⟩ ⟨h', htimedOut⟩
    obtain rfl : timedOut = timedOut' := htimedOut
    cases timedOut with
    | true => exact .ok ⟨h', rfl⟩
    | false => exact ih h'

/-- The search that ends iterations early finds the arrivals, and the ways to the destination, of the one that runs
every round. -/
theorem run_toEnd (store : σ) :
    Alike (fun o o' => log o'.store = log o.store ∧ o'.goals = o.goals ∧ o'.timedOut = o.timedOut) (task.run store)
      (task.runToEnd store) := by
  unfold run runToEnd
  refine (runIterations_toEnd htimeout (SameFinds.rested ⟨_, rfl⟩)).bind ?_
  rintro ⟨p, timedOut⟩ ⟨q, timedOut'⟩ ⟨h, htimedOut⟩
  exact .ok ⟨h.log_eq, h.goals_eq, htimedOut.symm⟩

/-- It answers with the same itineraries. -/
theorem search_toEnd (store : σ) :
    Alike (fun result full => full.itineraries = result.itineraries) (task.search store) (task.searchToEnd store) := by
  unfold search searchToEnd
  refine (run_toEnd htimeout store).bind ?_
  rintro o o' ⟨hlog, hgoals, -⟩
  unfold answer
  rw [hlog, hgoals]
  cases task.itineraries (log o.store) o.goals.items with
  | error e => exact .error e
  | ok its =>
    show Alike _ ((task.select its >>= _) >>= _) ((task.select its >>= _) >>= _)
    cases task.select its with
    | error e => exact .error e
    | ok selection => exact .ok rfl

end Untimed

end Task

/-- A plan without a timeout has the itineraries of the search that runs every round. -/
theorem Network.plan_toEnd (net : Network) {settings : Settings} (htimeout : settings.timeout = none)
    (request : Request) (clock : Clock) :
    Alike (fun result full => full.itineraries = result.itineraries) (net.plan settings request clock)
      (net.planToEnd settings request clock) := by
  unfold plan planToEnd
  cases htask : net.task? settings request clock with
  | error e => exact .error e
  | ok task =>
    obtain ⟨_, -, htask⟩ := of_bind_eq_ok htask
    obtain ⟨_, -, htask⟩ := of_bind_eq_ok htask
    obtain rfl := Except.ok.inj htask
    have htimeout : (Task.ofRequest net settings request clock).settings.timeout = none := htimeout
    cases settings.profile with
    | standard => exact (Task.search_toEnd htimeout _).mapError _
    | multiCriteria => exact (Task.search_toEnd htimeout _).mapError _

end JourneyPlanner
