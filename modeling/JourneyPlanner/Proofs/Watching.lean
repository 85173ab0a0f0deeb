import JourneyPlanner.Proofs.Answering
import JourneyPlanner.Proofs.Histories
import JourneyPlanner.Proofs.Untimed
/-!
# A watched search

Whoever watches a search sees what it proposes and what becomes of it, and does not change its course.
`Task.runOffers` lists the proposals of a search on a plain store. `Task.run_watched` compares the search
that is watched with the one that is not, call by call: their states agree, and what has been written
down are the proposals so far (`Watches`).
-/
namespace JourneyPlanner

open ArrivalStore (log)

/-! ## What a search proposes -/

section Offers

variable {ε α β : Type}

/-- What is proposed after a computation, from the value that it gives. -/
def offersAfter (x : Except ε α) (offers : α → List Offer) : List Offer :=
  match x with
  | .ok a => offers a
  | .error _ => []

/-- What a loop proposes whose step from `b` with `a` proposes `offers b a`. -/
def loopOffers (step : β → α → Except ε β) (offers : β → α → List Offer) : β → List α → List Offer
  | _, [] => []
  | b, a :: as => offers b a ++ offersAfter (step b a) fun b' => loopOffers step offers b' as

end Offers

namespace Task

variable {σ : Type} [ArrivalStore σ] (task : Task) (departure : Time) (round : Nat)

/-- Some arrivals, each in the round that is current when its turn comes. -/
def offersOf (p : Progress σ) (as : List Arrival) : List Offer :=
  loopOffers (task.offer departure) (fun p a => [⟨ArrivalStore.round p.store, a⟩]) p as

/-- What `seed` proposes. -/
def seedOffers (p : Progress σ) : List Offer :=
  task.offersOf departure p (task.request.access.zipIdx.filterMap (accessArrival? departure round))

/-- What `scanPosition` proposes: everyone on board alights. -/
def positionOffers (route : Route) (state : Progress σ × List Rider) (place : Stop × Position) : List Offer :=
  task.offersOf departure state.1 (state.2.map (task.alight route round place.2 place.1))

/-- What `scanRoute` proposes. -/
def routeOffers (p : Progress σ) (index : RouteIndex) : List Offer :=
  offersAfter (task.network.route? index) fun route =>
    loopOffers (task.scanPosition departure route round) (task.positionOffers departure round route) (p, [])
      route.pattern.stops.toList.zipIdx

/-- What `relaxFrom` proposes. -/
def walkOffers (source : Stop) (p : Progress σ) (id : Nat) : List Offer :=
  offersAfter ((log p.store).get? id) fun a =>
    task.offersOf departure p
      (((task.network.transfersFrom source).zipIdx.filter fun t => t.1.target ≠ source).map
        (task.walkFrom round source id a))

/-- What `relaxStop` proposes. -/
def stopOffers (p : Progress σ) (source : Stop) : List Offer :=
  offersAfter (ArrivalStore.transferable p.store source) fun ids =>
    loopOffers (task.relaxFrom departure round source) (task.walkOffers departure round source) p ids

/-- What `runRound` proposes: rides, then access paths, then transfers. -/
def roundOffers (p : Progress σ) : List Offer :=
  let p :=
    { p with
      store := ArrivalStore.beginRound p.store round
      stats := { p.stats with rounds := p.stats.rounds + 1 } }
  let routes := task.routesToScan (ArrivalStore.changes p.store).previous
  loopOffers (task.scanRoute departure round) (task.routeOffers departure round) p routes ++
    offersAfter (routes.foldlM (task.scanRoute departure round) p) fun p =>
      task.seedOffers departure round p ++
        offersAfter (task.seed departure round p) fun p =>
          loopOffers (task.relaxStop departure round) (task.stopOffers departure round) p
            (ArrivalStore.changes p.store).onBoard

/-- What `runRounds` proposes. -/
def roundsOffers : (left round : Nat) → Progress σ → List Offer
  | 0, _, _ => []
  | left + 1, round, p =>
    if task.timeIsOver p.stats.rounds then []
    else
      task.roundOffers departure round p ++
        offersAfter (task.runRound departure round p) fun p =>
          if (ArrivalStore.changes p.store).current.isEmpty && task.maxAccessRides ≤ round then []
          else roundsOffers left (round + 1) p

/-- What `runIteration` proposes. -/
def iterationOffers (iteration : Nat) (p : Progress σ) : List Offer :=
  let p :=
    { p with
      store := ArrivalStore.beginRound (ArrivalStore.beginIteration p.store iteration) 0
      stats := { p.stats with iterations := p.stats.iterations + 1 } }
  task.seedOffers departure 0 p ++
    offersAfter (task.seed departure 0 p) fun p => task.roundsOffers departure task.settings.maxRounds 1 p

/-- What `runIterations` proposes. -/
def iterationsOffers : (iteration : Nat) → List Time → Progress σ → List Offer
  | _, [], _ => []
  | iteration, departure :: departures, p =>
    task.iterationOffers departure iteration p ++
      offersAfter (task.runIteration iteration departure p) fun r =>
        if r.2 then [] else iterationsOffers (iteration + 1) departures r.1

/-- What a search proposes that starts with the store. -/
def runOffers (store : σ) : List Offer :=
  task.iterationsOffers 0 (departureTimes task.request.departure task.settings.window task.settings.step)
    ⟨store, .empty, .zero⟩

end Task

/-! ## What has been written down -/

namespace ArrivalEvent

/-- The proposal that has been decided. -/
def offer : ArrivalEvent → Offer
  | .accepted round a => ⟨round, a⟩
  | .rejected round a => ⟨round, a⟩

/-- The arrival, if it has been accepted. -/
def accepted? : ArrivalEvent → Option Arrival
  | .accepted _ a => some a
  | .rejected _ _ => none

def isRejected (event : ArrivalEvent) : Bool := event.accepted?.isNone

end ArrivalEvent

/-- The events tell of these proposals, in this order, and those accepted are the arrivals of the log. -/
structure ArrivalLog.ToldBy (log : ArrivalLog) (stats : SearchStats) (offers : List Offer)
    (events : List ArrivalEvent) : Prop where
  offers_eq : events.map ArrivalEvent.offer = offers
  records_eq : events.filterMap ArrivalEvent.accepted? = log.records.toList
  accepted_eq : (events.filterMap ArrivalEvent.accepted?).length = stats.accepted
  rejected_eq : events.countP ArrivalEvent.isRejected = stats.rejected

/-- A store whose log grows by what it accepts and by nothing else. -/
class LoggingStore (σ : Type) [ArrivalStore σ] : Prop where
  log_beginIteration : ∀ (s : σ) (i : Nat), log (ArrivalStore.beginIteration s i) = log s
  log_beginRound : ∀ (s : σ) (k : Nat), log (ArrivalStore.beginRound s k) = log s
  log_reject : ∀ (s : σ) (a : Arrival), log (ArrivalStore.reject s a) = log s
  log_accept : ∀ {s s' : σ} {a : Arrival} {id : Nat}, ArrivalStore.accept s a = .ok (s', id) →
    log s' = (log s).push a

instance : LoggingStore EarliestArrivals where
  log_beginIteration _ _ := rfl
  log_beginRound _ _ := rfl
  log_reject _ _ := rfl
  log_accept {s s' a id} h := by
    obtain ⟨rows, -, h⟩ := of_bind_eq_ok (show s.accept a = .ok (s', id) from h)
    split at h
    · cases h
      rfl
    · cases h

instance : LoggingStore ArrivalFrontiers where
  log_beginIteration _ _ := rfl
  log_beginRound _ _ := rfl
  log_reject _ _ := rfl
  log_accept {s s' a id} h := by
    obtain ⟨f, -, h⟩ := of_bind_eq_ok (show s.accept a = .ok (s', id) from h)
    cases h
    rfl

/-! ## Two computations side by side -/

section Alike

variable {ε α α' β β' : Type}

/-- Either both computations fail in the same way, or both give values that are related. -/
inductive Alike (R : α → β → Prop) : Except ε α → Except ε β → Prop
  | ok {a : α} {b : β} : R a b → Alike R (.ok a) (.ok b)
  | error (e : ε) : Alike R (.error e) (.error e)

theorem Alike.mono {R S : α → β → Prop} {x : Except ε α} {y : Except ε β} (h : Alike R x y)
    (hRS : ∀ a b, R a b → S a b) : Alike S x y := by
  cases h with
  | ok hR => exact .ok (hRS _ _ hR)
  | error e => exact .error e

/-- Where the second computation gives a value, so does the first. -/
theorem Alike.of_ok {R : α → β → Prop} {x : Except ε α} {b : β} (h : Alike R x (.ok b)) : ∃ a, x = .ok a ∧ R a b := by
  cases h with
  | ok hR => exact ⟨_, rfl, hR⟩

theorem Alike.bind {R : α → β → Prop} {S : α' → β' → Prop} {x : Except ε α} {y : Except ε β} {f : α → Except ε α'}
    {g : β → Except ε β'} (h : Alike R x y) (hfg : ∀ a b, R a b → Alike S (f a) (g b)) :
    Alike S (x >>= f) (y >>= g) := by
  cases h with
  | ok hR => exact hfg _ _ hR
  | error e => exact .error e

theorem Alike.mapError {ε' : Type} {R : α → β → Prop} {x : Except ε α} {y : Except ε β} (h : Alike R x y)
    (f : ε → ε') : Alike R (x.mapError f) (y.mapError f) := by
  cases h with
  | ok hR => exact .ok hR
  | error e => exact .error (f e)

/-- What is proposed first by one part and then by another. -/
theorem Alike.andThen {R : α → β → Prop} {S : List Offer → α' → β' → Prop} {x : Except ε α} {y : Except ε β}
    {f : α → Except ε α'} {g : β → Except ε β'} {offers : List Offer} {after : β → List Offer} (h : Alike R x y)
    (hfg : ∀ a b, R a b → Alike (S (offers ++ after b)) (f a) (g b)) :
    Alike (S (offers ++ offersAfter y after)) (x >>= f) (y >>= g) := by
  cases h with
  | ok hR => exact hfg _ _ hR
  | error e => exact .error e

/-- Two loops go side by side if their steps do. -/
theorem alike_foldlM {R : List Offer → α → β → Prop} {γ : Type} {f : α → γ → Except ε α} {g : β → γ → Except ε β}
    {told : β → γ → List Offer}
    (step : ∀ offers a b c, R offers a b → Alike (R (offers ++ told b c)) (f a c) (g b c)) (cs : List γ)
    {offers : List Offer} {a : α} {b : β} (h : R offers a b) :
    Alike (R (offers ++ loopOffers g told b cs)) (cs.foldlM f a) (cs.foldlM g b) := by
  induction cs generalizing offers a b with
  | nil =>
    rw [loopOffers, List.append_nil]
    exact .ok h
  | cons c cs ih =>
    rw [List.foldlM_cons, List.foldlM_cons, loopOffers, ← List.append_assoc]
    exact (step offers a b c h).andThen fun a' b' hR => ih hR

end Alike

/-! ## The search step by step -/

namespace ArrivalLog.ToldBy

variable {l : ArrivalLog} {stats : SearchStats} {offers : List Offer} {events : Array ArrivalEvent}

theorem rejected (h : l.ToldBy stats offers events.toList) (round : Nat) (a : Arrival) :
    l.ToldBy { stats with rejected := stats.rejected + 1 } (offers ++ [⟨round, a⟩])
      (events.push (.rejected round a)).toList where
  offers_eq := by rw [Array.toList_push, List.map_append, h.offers_eq]; rfl
  records_eq := by rw [Array.toList_push, List.filterMap_append, h.records_eq]; exact List.append_nil _
  accepted_eq := by
    rw [Array.toList_push, List.filterMap_append, List.length_append, h.accepted_eq]
    rfl
  rejected_eq := by
    rw [Array.toList_push, List.countP_append, h.rejected_eq]
    rfl

theorem accepted (h : l.ToldBy stats offers events.toList) (round : Nat) (a : Arrival) :
    (l.push a).ToldBy { stats with accepted := stats.accepted + 1 } (offers ++ [⟨round, a⟩])
      (events.push (.accepted round a)).toList where
  offers_eq := by rw [Array.toList_push, List.map_append, h.offers_eq]; rfl
  records_eq := by
    rw [Array.toList_push, List.filterMap_append, h.records_eq, ArrivalLog.push, Array.toList_push]
    rfl
  accepted_eq := by
    rw [Array.toList_push, List.filterMap_append, List.length_append, h.accepted_eq]
    rfl
  rejected_eq := by
    rw [Array.toList_push, List.countP_append, h.rejected_eq]
    rfl

end ArrivalLog.ToldBy

variable {σ : Type} [ArrivalStore σ]

/-- The progress of a watched search, without what has been written down. -/
def Progress.unwatched (q : Progress (Observed σ)) : Progress σ := ⟨q.store.inner, q.goals, q.stats⟩

/-- The watched search has come as far as the other one, and the proposals so far have been written down. -/
structure Watches (offers : List Offer) (q : Progress (Observed σ)) (p : Progress σ) : Prop where
  unwatched_eq : q.unwatched = p
  told : (log q.store.inner).ToldBy q.stats offers q.store.events.toList

/-- The same of two searches that also give a value each, and give the same one. -/
def WatchesWith {γ : Type} (offers : List Offer) (r : Progress (Observed σ) × γ) (r' : Progress σ × γ) : Prop :=
  Watches offers r.1 r'.1 ∧ r.2 = r'.2

/-- Before the first iteration nothing has been proposed. -/
theorem watches_start {store : σ} (hempty : log store = .empty) :
    Watches [] (⟨Observed.watch store, .empty, .zero⟩ : Progress (Observed σ)) ⟨store, .empty, .zero⟩ := by
  refine ⟨rfl, rfl, ?_, rfl, rfl⟩
  show [] = (log store).records.toList
  rw [hempty]
  rfl

/-- A watched store decides as it would unwatched, and each decision is written down. -/
theorem Observed.alike_offer [LoggingStore σ] (s : Observed σ) (a : Arrival) :
    Alike (fun r r' => r'.1 = r.1.inner ∧ r'.2 = r.2 ∧
        ((r.2 = none ∧ log r.1.inner = log s.inner ∧
            r.1.events = s.events.push (.rejected (ArrivalStore.round s.inner) a)) ∨
          (r.2.isSome = true ∧ log r.1.inner = (log s.inner).push a ∧
            r.1.events = s.events.push (.accepted (ArrivalStore.round s.inner) a))))
      (ArrivalStore.offer s a) (ArrivalStore.offer s.inner a) := by
  unfold ArrivalStore.offer
  show Alike _ (ArrivalStore.improves s.inner a >>= _) (ArrivalStore.improves s.inner a >>= _)
  cases ArrivalStore.improves s.inner a with
  | error e => exact .error e
  | ok better =>
    cases better with
    | false => exact .ok ⟨rfl, rfl, .inl ⟨rfl, LoggingStore.log_reject _ _, rfl⟩⟩
    | true =>
      show Alike _ ((ArrivalStore.accept s.inner a >>= _) >>= _) (ArrivalStore.accept s.inner a >>= _)
      cases haccept : ArrivalStore.accept s.inner a with
      | error e => exact .error e
      | ok r => exact .ok ⟨rfl, rfl, .inr ⟨rfl, LoggingStore.log_accept haccept, rfl⟩⟩

namespace Task

variable [LoggingStore σ] {task : Task} {departure : Time} {round : Nat} {offers : List Offer}
  {q : Progress (Observed σ)} {p : Progress σ}

theorem offer_watched (h : Watches offers q p) (a : Arrival) :
    Alike (Watches (offers ++ [⟨ArrivalStore.round p.store, a⟩])) (task.offer departure q a)
      (task.offer departure p a) := by
  obtain ⟨rfl, htold⟩ := h
  simp only [offer]
  split
  · refine .ok ⟨rfl, ?_⟩
    show (log (ArrivalStore.reject q.store.inner a)).ToldBy _ _ _
    rw [LoggingStore.log_reject]
    exact htold.rejected _ a
  · refine (Observed.alike_offer q.store a).bind ?_
    rintro ⟨s, id⟩ ⟨s', id'⟩ ⟨hs, hid, h⟩
    obtain rfl : s' = s.inner := hs
    obtain rfl : id' = id := hid
    rcases h with ⟨hnone, hlog, hevents⟩ | ⟨hsome, hlog, hevents⟩
    · obtain rfl : id' = none := hnone
      refine .ok ⟨rfl, ?_⟩
      show (log s.inner).ToldBy _ _ s.events.toList
      rw [hlog, hevents]
      exact htold.rejected _ a
    · obtain ⟨id, rfl⟩ := Option.isSome_iff_exists.1 hsome
      refine .ok ⟨rfl, ?_⟩
      show (log s.inner).ToldBy _ _ s.events.toList
      rw [hlog, hevents]
      exact htold.accepted _ a

theorem offersOf_watched (h : Watches offers q p) (as : List Arrival) :
    Alike (Watches (offers ++ task.offersOf departure p as)) (as.foldlM (task.offer departure) q)
      (as.foldlM (task.offer departure) p) :=
  alike_foldlM (R := Watches) (fun _ _ _ a h => offer_watched h a) as h

theorem seed_watched (h : Watches offers q p) :
    Alike (Watches (offers ++ task.seedOffers departure round p)) (task.seed departure round q)
      (task.seed departure round p) :=
  offersOf_watched h _

theorem scanPosition_watched {route : Route} {riders : List Rider} (h : Watches offers q p) (place : Stop × Position) :
    Alike (WatchesWith (offers ++ task.positionOffers departure round route (p, riders) place))
      (task.scanPosition departure route round (q, riders) place)
      (task.scanPosition departure route round (p, riders) place) := by
  unfold scanPosition
  refine (offersOf_watched h _).bind fun q' p' h' => ?_
  split
  · exact .ok ⟨h', rfl⟩
  · -- Boarding only reads the store.
    obtain ⟨rfl, htold⟩ := h'
    show Alike _ (ArrivalStore.boardable q'.store.inner place.1 >>= _) (ArrivalStore.boardable q'.store.inner place.1 >>= _)
    cases ArrivalStore.boardable q'.store.inner place.1 with
    | error e => exact .error e
    | ok ids =>
      show Alike _ (task.boardAll route place.2 q'.store.inner riders ids >>= _)
        (task.boardAll route place.2 q'.store.inner riders ids >>= _)
      cases task.boardAll route place.2 q'.store.inner riders ids with
      | error e => exact .error e
      | ok riders' => exact .ok ⟨⟨rfl, htold⟩, rfl⟩

theorem scanRoute_watched (h : Watches offers q p) (index : RouteIndex) :
    Alike (Watches (offers ++ task.routeOffers departure round p index)) (task.scanRoute departure round q index)
      (task.scanRoute departure round p index) := by
  unfold scanRoute routeOffers
  cases task.network.route? index with
  | error e => exact .error e
  | ok route =>
    have hstep : ∀ offers (r : Progress (Observed σ) × List Rider) (r' : Progress σ × List Rider) place,
        WatchesWith offers r r' →
        Alike (WatchesWith (offers ++ task.positionOffers departure round route r' place))
          (task.scanPosition departure route round r place) (task.scanPosition departure route round r' place) := by
      rintro offers ⟨q, riders⟩ ⟨p, riders'⟩ place ⟨h, hriders⟩
      obtain rfl : riders = riders' := hriders
      exact scanPosition_watched h place
    exact (alike_foldlM (R := WatchesWith) hstep route.pattern.stops.toList.zipIdx ⟨h, rfl⟩).bind fun r r' hr => .ok hr.1

theorem relaxFrom_watched {source : Stop} (h : Watches offers q p) (id : Nat) :
    Alike (Watches (offers ++ task.walkOffers departure round source p id)) (task.relaxFrom departure round source q id)
      (task.relaxFrom departure round source p id) := by
  obtain ⟨rfl, htold⟩ := h
  unfold relaxFrom walkOffers
  show Alike _ ((log q.store.inner).get? id >>= _) ((log q.store.inner).get? id >>= _)
  show Alike (Watches (offers ++ offersAfter ((log q.store.inner).get? id) _)) _ _
  cases (log q.store.inner).get? id with
  | error e => exact .error e
  | ok a => exact offersOf_watched ⟨rfl, htold⟩ _

theorem relaxStop_watched (h : Watches offers q p) (source : Stop) :
    Alike (Watches (offers ++ task.stopOffers departure round p source)) (task.relaxStop departure round q source)
      (task.relaxStop departure round p source) := by
  obtain ⟨rfl, htold⟩ := h
  unfold relaxStop stopOffers
  show Alike (Watches (offers ++ offersAfter (ArrivalStore.transferable q.store.inner source) _))
    (ArrivalStore.transferable q.store.inner source >>= _) (ArrivalStore.transferable q.store.inner source >>= _)
  cases ArrivalStore.transferable q.store.inner source with
  | error e => exact .error e
  | ok ids => exact alike_foldlM (R := Watches) (fun _ _ _ id h => relaxFrom_watched h id) ids ⟨rfl, htold⟩

/-! ## Rounds and iterations -/

theorem watches_beginRound (h : Watches offers q p) (round : Nat) (stats : SearchStats)
    (haccepted : stats.accepted = p.stats.accepted) (hrejected : stats.rejected = p.stats.rejected) :
    Watches offers { q with store := ArrivalStore.beginRound q.store round, stats := stats }
      { p with store := ArrivalStore.beginRound p.store round, stats := stats } := by
  obtain ⟨rfl, htold⟩ := h
  refine ⟨rfl, ?_⟩
  show (log (ArrivalStore.beginRound q.store.inner round)).ToldBy _ _ _
  rw [LoggingStore.log_beginRound]
  exact ⟨htold.offers_eq, htold.records_eq, htold.accepted_eq.trans haccepted.symm,
    htold.rejected_eq.trans hrejected.symm⟩

theorem watches_beginIteration (h : Watches offers q p) (iteration : Nat) :
    Watches offers { q with store := ArrivalStore.beginIteration q.store iteration }
      { p with store := ArrivalStore.beginIteration p.store iteration } := by
  obtain ⟨rfl, htold⟩ := h
  refine ⟨rfl, ?_⟩
  show (log (ArrivalStore.beginIteration q.store.inner iteration)).ToldBy _ _ _
  rw [LoggingStore.log_beginIteration]
  exact htold

theorem runRound_watched (h : Watches offers q p) :
    Alike (Watches (offers ++ task.roundOffers departure round p)) (task.runRound departure round q)
      (task.runRound departure round p) := by
  have hbegun := watches_beginRound h round { p.stats with rounds := p.stats.rounds + 1 } rfl rfl
  obtain ⟨rfl, htold⟩ := h
  unfold runRound roundOffers
  rw [← List.append_assoc]
  refine (alike_foldlM (R := Watches) (fun _ _ _ index h => scanRoute_watched h index) _ hbegun).andThen fun q1 p1 h1 => ?_
  rw [← List.append_assoc]
  refine (seed_watched h1).andThen fun q2 p2 h2 => ?_
  have hchanges : ArrivalStore.changes q2.store = ArrivalStore.changes p2.store := by
    rw [← h2.unwatched_eq]
    rfl
  rw [hchanges]
  exact alike_foldlM (R := Watches) (fun _ _ _ source h => relaxStop_watched h source) _ h2

/-- The rounds, and whether they broke off. -/
theorem runRounds_watched {left : Nat} (h : Watches offers q p) :
    Alike (WatchesWith (offers ++ task.roundsOffers departure left round p))
      (task.runRounds departure left round q) (task.runRounds departure left round p) := by
  induction left generalizing round offers q p with
  | zero =>
    unfold runRounds roundsOffers
    rw [List.append_nil]
    exact .ok ⟨h, rfl⟩
  | succ left ih =>
    have hrounds : q.stats.rounds = p.stats.rounds := by
      rw [← h.unwatched_eq]
      rfl
    unfold runRounds roundsOffers
    rw [hrounds]
    split
    · rw [List.append_nil]
      exact .ok ⟨h, rfl⟩
    · rw [← List.append_assoc]
      refine (runRound_watched h).andThen fun q' p' h' => ?_
      have hchanges : ArrivalStore.changes q'.store = ArrivalStore.changes p'.store := by
        rw [← h'.unwatched_eq]
        rfl
      rw [hchanges]
      split
      · rw [List.append_nil]
        exact .ok ⟨h', rfl⟩
      · exact ih h'

theorem runIteration_watched {iteration : Nat} (h : Watches offers q p) :
    Alike (WatchesWith (offers ++ task.iterationOffers departure iteration p))
      (task.runIteration iteration departure q) (task.runIteration iteration departure p) := by
  have hbegun := watches_beginRound (watches_beginIteration h iteration) 0
    { p.stats with iterations := p.stats.iterations + 1 } rfl rfl
  obtain ⟨rfl, htold⟩ := h
  unfold runIteration iterationOffers
  rw [← List.append_assoc]
  exact (seed_watched hbegun).andThen fun _ _ h => runRounds_watched h

theorem runIterations_watched {iteration : Nat} {departures : List Time} (h : Watches offers q p) :
    Alike (WatchesWith (offers ++ task.iterationsOffers iteration departures p))
      (task.runIterations iteration departures q) (task.runIterations iteration departures p) := by
  induction departures generalizing iteration offers q p with
  | nil =>
    unfold runIterations iterationsOffers
    rw [List.append_nil]
    exact .ok ⟨h, rfl⟩
  | cons departure departures ih =>
    unfold runIterations iterationsOffers
    rw [← List.append_assoc]
    refine (runIteration_watched h).andThen ?_
    rintro ⟨q', timedOut⟩ ⟨p', timedOut'⟩ ⟨h', htimedOut⟩
    obtain rfl : timedOut = timedOut' := htimedOut
    cases timedOut with
    | true =>
      rw [if_pos rfl, List.append_nil]
      exact .ok ⟨h', rfl⟩
    | false => exact ih h'

/-- A watched search ends as it would unwatched, and its proposals have been written down. -/
theorem run_watched (task : Task) (store : σ) (hempty : log store = .empty) :
    Alike (fun o o' => o' = { o with store := o.store.inner } ∧
        (log o'.store).ToldBy o'.stats (task.runOffers store) o.store.events.toList)
      (task.run (Observed.watch store)) (task.run store) := by
  unfold run runOffers
  refine (runIterations_watched (watches_start hempty)).bind ?_
  rintro ⟨q, timedOut⟩ ⟨p, timedOut'⟩ ⟨⟨rfl, htold⟩, htimedOut⟩
  obtain rfl : timedOut = timedOut' := htimedOut
  exact .ok ⟨rfl, htold.offers_eq, htold.records_eq, htold.accepted_eq, htold.rejected_eq⟩

/-! ## The answer -/

/-- What a watched search has told about arrivals: each proposal of the search, in order, and which of them
have made the log. -/
def Reports (task : Task) (store : σ) (result : SearchResult) (events : List ArrivalEvent) : Prop :=
  ∃ outcome, task.run store = .ok outcome ∧ (log outcome.store).ToldBy result.stats (task.runOffers store) events

end Task

/-- The event, if it is about an arrival. -/
def SearchEvent.arrival? : SearchEvent → Option ArrivalEvent
  | .arrival event => some event
  | _ => none

namespace Task

variable {task : Task}

theorem arrival?_rejections (reason : Rejection) (its : List Itinerary) :
    (rejections reason its).filterMap SearchEvent.arrival? = [] := by
  unfold rejections
  rw [List.filterMap_map]
  exact List.filterMap_eq_nil_iff.2 fun _ _ => rfl

/-- Selecting itineraries decides about no arrivals. -/
theorem arrival?_of_select {its : List Itinerary} {selection : Selection} (h : task.select its = .ok selection) :
    selection.events.filterMap SearchEvent.arrival? = [] := by
  unfold select at h
  obtain ⟨moved, hmoved, h⟩ := of_bind_eq_ok h
  have hevents : moved.events.filterMap SearchEvent.arrival? = [] := by
    unfold reconnectAll at hmoved
    split at hmoved
    · cases hmoved
      rfl
    · obtain ⟨_, -, hmoved⟩ := of_bind_eq_ok hmoved
      cases hmoved
      exact arrival?_rejections _ _
  cases h
  simp only [List.filterMap_append, arrival?_rejections, hevents, List.nil_append, List.filterMap_map]
  exact List.filterMap_eq_nil_iff.2 fun _ _ => rfl

/-- A search that is watched answers as it would unwatched. -/
theorem search_watched [LoggingStore σ] (store : σ) (hempty : log store = .empty) :
    Alike (fun r result => r.1 = result ∧ task.Reports store result (r.2.filterMap SearchEvent.arrival?))
      (task.searchObserved store) (task.search store) := by
  unfold searchObserved search
  have hrun := run_watched task store hempty
  generalize task.run (Observed.watch store) = watched at hrun ⊢
  generalize hplain : task.run store = plain at hrun ⊢
  cases hrun with
  | error e => exact .error e
  | @ok outcome _ h =>
    obtain ⟨rfl, htold⟩ := h
    show Alike _ (task.answer { outcome with store := outcome.store.inner } >>= _)
      (task.answer { outcome with store := outcome.store.inner } >>= _)
    unfold answer
    cases task.itineraries (log outcome.store.inner) outcome.goals.items with
    | error e => exact .error e
    | ok its =>
      cases hselect : task.select its with
      | error e =>
        show Alike _ ((task.select its >>= _) >>= _) ((task.select its >>= _) >>= _)
        rw [hselect]
        exact .error e
      | ok selection =>
        show Alike _ ((task.select its >>= _) >>= _) ((task.select its >>= _) >>= _)
        rw [hselect]
        refine .ok ⟨rfl, _, hplain, ?_⟩
        rw [List.filterMap_append, arrival?_of_select hselect, List.append_nil, List.filterMap_map]
        have hid : (SearchEvent.arrival? ∘ SearchEvent.arrival) = some := rfl
        rw [hid, List.filterMap_some]
        exact htold

end Task

/-- What a watched plan has told, by the store of the profile. -/
inductive Network.Reported (net : Network) (settings : Settings) (request : Request) (clock : Clock)
    (result : SearchResult) (events : List ArrivalEvent) : Prop
  | standard : settings.profile = .standard →
      (Task.ofRequest net settings request clock).Reports (EarliestArrivals.init net.stopCount settings.maxRounds)
        result events → Reported net settings request clock result events
  | multiCriteria : settings.profile = .multiCriteria →
      (Task.ofRequest net settings request clock).Reports (ArrivalFrontiers.init net.stopCount settings.frontierSize)
        result events → Reported net settings request clock result events

namespace Network

/-- A plan that is watched comes out as it would unwatched. -/
theorem plan_watched (net : Network) (settings : Settings) (request : Request) (clock : Clock) :
    Alike (fun r result => r.1 = result ∧
        net.Reported settings request clock result (r.2.filterMap SearchEvent.arrival?))
      (net.planObserved settings request clock) (net.plan settings request clock) := by
  unfold planObserved plan
  cases htask : net.task? settings request clock with
  | error e => exact .error e
  | ok task =>
    obtain ⟨_, -, htask⟩ := of_bind_eq_ok htask
    obtain ⟨_, -, htask⟩ := of_bind_eq_ok htask
    obtain rfl := Except.ok.inj htask
    cases hprofile : settings.profile with
    | standard =>
      exact ((Task.search_watched _ rfl).mono fun r result h => ⟨h.1, .standard hprofile h.2⟩).mapError _
    | multiCriteria =>
      exact ((Task.search_watched _ rfl).mono fun r result h => ⟨h.1, .multiCriteria hprofile h.2⟩).mapError _

/-- Watching a plan does not change its result, and each proposal of the search is told of once, in order and
under its round. Those told to be accepted are the arrivals of the log, and the numbers are those of the
result. With a timeout the clock has to say the same to both. -/
theorem planObserved_observes (net : Network) {settings : Settings} (request : Request) {clock clock' : Clock}
    (hclock : settings.timeout = none ∨ clock = clock') :
    (net.planObserved settings request clock).map Prod.fst = net.plan settings request clock' ∧
      ∀ result events, net.planObserved settings request clock = .ok (result, events) →
        net.Reported settings request clock result (events.filterMap SearchEvent.arrival?) := by
  have hplan : net.plan settings request clock = net.plan settings request clock' := by
    rcases hclock with htimeout | rfl
    · exact plan_untimed htimeout net request clock clock'
    · rfl
  have key := net.plan_watched settings request clock
  rw [← hplan]
  generalize net.planObserved settings request clock = observed at key ⊢
  generalize net.plan settings request clock = plain at key ⊢
  cases key with
  | ok h =>
    refine ⟨congrArg Except.ok h.1, fun result events heq => ?_⟩
    cases heq
    rw [show result = _ from h.1]
    exact h.2
  | error e => exact ⟨rfl, fun result events heq => by cases heq⟩

/-- The search for the ferry tells of its arrivals. -/
theorem ferry_observed : ∃ result events, ferry.planObserved .standard .overFerry .slow = .ok (result, events) ∧
    ferry.plan .standard .overFerry .still = .ok result ∧
    ferry.Reported .standard .overFerry .slow result (events.filterMap SearchEvent.arrival?) := by
  obtain ⟨hresult, htold⟩ := planObserved_observes ferry .overFerry
    (show Settings.standard.timeout = none ∨ Clock.slow = Clock.still from .inl rfl)
  obtain ⟨result, hplan, -⟩ :=
    exists_plan ferry_isBuilt Settings.check_standard Request.check_overFerry sumsFit_ferry
  rw [hplan] at hresult
  obtain ⟨⟨_, events⟩, hobserved, rfl⟩ := of_map_eq_ok hresult
  exact ⟨_, events, hobserved, hplan, htold _ _ hobserved⟩

end Network

end JourneyPlanner
