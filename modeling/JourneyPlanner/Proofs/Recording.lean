import JourneyPlanner.Proofs.IdleRounds
/-!
# A recorded search

`Recorded` wraps a store and remembers every state that it has been in. A search on it is the search on the
store itself, so the states remembered are those that the search goes through (`Task.Always`). Every arrival
that is offered continues one of the log, which the store has handed out for that (`ArrivalLog.Continues`).
What a store keeps as long as arrivals do so it has in all of these states (`Task.run_recorded`).
-/
namespace JourneyPlanner

open ArrivalStore (log round changes)

/-! ## Remembering states -/

/-- A store that remembers its states. -/
structure Recorded (σ : Type) where
  current : σ
  /-- The states before the current one, the last one first. -/
  past : List σ

namespace Recorded

variable {σ : Type}

/-- A store with nothing behind it. -/
def start (s : σ) : Recorded σ := ⟨s, []⟩

/-- All states so far. -/
def states (s : Recorded σ) : List σ := s.current :: s.past

/-- The store after a step to another state. -/
def next (s : Recorded σ) (state : σ) : Recorded σ := ⟨state, s.states⟩

end Recorded

instance {σ : Type} [ArrivalStore σ] : ArrivalStore (Recorded σ) where
  beginIteration s i := s.next (ArrivalStore.beginIteration s.current i)
  beginRound s k := s.next (ArrivalStore.beginRound s.current k)
  round s := round s.current
  changes s := changes s.current
  boardable s := ArrivalStore.boardable s.current
  transferable s := ArrivalStore.transferable s.current
  improves s := ArrivalStore.improves s.current
  accept s a := do
    let (state, id) ← ArrivalStore.accept s.current a
    return (s.next state, id)
  reject s a := s.next (ArrivalStore.reject s.current a)
  log s := log s.current
  bestTime s := ArrivalStore.bestTime s.current
  truncations s := ArrivalStore.truncations s.current
  outrides := ArrivalStore.outrides σ

section

variable {σ : Type} [ArrivalStore σ]

theorem Recorded.offer_eq (s : Recorded σ) (a : Arrival) :
    ArrivalStore.offer s a = (ArrivalStore.offer s.current a).map fun r => (s.next r.1, r.2) := by
  unfold ArrivalStore.offer
  show (ArrivalStore.improves s.current a >>= _) = Except.map _ (ArrivalStore.improves s.current a >>= _)
  cases ArrivalStore.improves s.current a with
  | error e => rfl
  | ok better =>
    cases better with
    | false => rfl
    | true =>
      show ((ArrivalStore.accept s.current a >>= _) >>= _) = Except.map _ (ArrivalStore.accept s.current a >>= _)
      cases ArrivalStore.accept s.current a <;> rfl

/-- The search succeeds, and every state of the store that it goes through has the property, unless it stops where a
sum does not fit. -/
def Task.Always (task : Task) (store : σ) (P : σ → Prop) : Prop :=
  GivesInRange (task.run store) fun outcome => ∃ past,
    task.run (Recorded.start store) = .ok { outcome with store := ⟨outcome.store, past⟩ } ∧
    ∀ s ∈ outcome.store :: past, P s

theorem Task.Always.mono {task : Task} {store : σ} {P Q : σ → Prop} (h : task.Always store P) (hPQ : ∀ s, P s → Q s) :
    task.Always store Q := by
  refine GivesUnless.mono h fun outcome ⟨past, hrecorded, hstates⟩ => ?_
  exact ⟨past, hrecorded, fun s hs => hPQ s (hstates s hs)⟩

end

/-! ## What arrivals continue -/

/-- How an arrival goes back to one of the log: by a ride from a round `before` its own, or by a transfer in the
same round. An arrival by an access path goes back to none. -/
inductive ArrivalLog.Continues (before : Nat → Nat → Prop) (log : ArrivalLog) (a : Arrival) : Prop
  | access {number : Nat} {onBoard : Bool} : a.via = .access number onBoard → a.parent = none → a.rides = a.round →
      Continues before log a
  | ride {id : Nat} {parent : Arrival} {route : RouteIndex} {run : RunRef} {p q : Position} {boardTime : Time} :
      a.via = .ride route run p q boardTime → a.parent = some id → log.get? id = .ok parent →
      a.rides = parent.rides + 1 → before parent.round a.round → Continues before log a
  | transfer {id : Nat} {parent : Arrival} {source : Stop} {number : Nat} : a.via = .transfer source number →
      a.parent = some id → log.get? id = .ok parent → parent.onBoard = true → parent.stop = source →
      a.rides = parent.rides → a.round = parent.round → Continues before log a

/-- The passenger has boarded from an arrival of the log whose round is before round `k`. -/
def Rider.Continues (before : Nat → Nat → Prop) (log : ArrivalLog) (k : Nat) (rider : Rider) : Prop :=
  ∃ parent, log.get? rider.parent = .ok parent ∧ before parent.round k ∧ rider.rides = parent.rides + 1

section

variable {before : Nat → Nat → Prop} {l l' : ArrivalLog} {k : Nat}

theorem ArrivalLog.Continues.mono {a : Arrival} (h : l.Continues before a) (hlog : l.Extends l') :
    l'.Continues before a := by
  cases h with
  | access hvia hparent hrides => exact .access hvia hparent hrides
  | ride hvia hparent hget hrides hround => exact .ride hvia hparent (hlog _ _ hget) hrides hround
  | transfer hvia hparent hget honBoard hstop hrides hround =>
    exact .transfer hvia hparent (hlog _ _ hget) honBoard hstop hrides hround

theorem Rider.Continues.mono {rider : Rider} (h : rider.Continues before l k) (hlog : l.Extends l') :
    rider.Continues before l' k := by
  obtain ⟨parent, hget, h⟩ := h
  exact ⟨parent, hlog _ _ hget, h⟩

namespace Task

variable {task : Task}

theorem continues_of_accessArrival? {departure : Time} {access : StreetPath × Nat} {a : Arrival}
    (h : accessArrival? departure k access = some a) : a.round = k ∧ l.Continues before a := by
  obtain ⟨hrides, _, -, rfl⟩ := accessArrival?_eq h
  exact ⟨rfl, .access rfl rfl hrides⟩

theorem continues_alight {rider : Rider} (h : rider.Continues before l k) (route : Route) (p : Position) (stop : Stop) :
    l.Continues before (task.alight route k p stop rider) := by
  obtain ⟨parent, hget, hround, hrides⟩ := h
  exact .ride rfl rfl hget hrides hround

theorem continues_walkFrom {source : Stop} {id : Nat} {a : Arrival} (hget : l.get? id = .ok a) (hstop : a.stop = source)
    (honBoard : a.onBoard = true) (hround : a.round = k) (transfer : Transfer × Nat) :
    l.Continues before (task.walkFrom k source id a transfer) :=
  .transfer rfl rfl hget honBoard hstop rfl hround.symm

theorem continues_of_riderFrom? {route : Route} {p : Position} {id : Nat} {rider : Rider} {b : Arrival}
    (hget : l.get? id = .ok b) (hround : before b.round k) (hrides : b.rides < 255)
    (h : task.riderFrom? route p id l = .ok (some rider)) : rider.Continues before l k := by
  unfold riderFrom? at h
  rw [hget, ok_bind] at h
  obtain ⟨last, -, h⟩ := of_bind_eq_ok h
  obtain ⟨run, -, h⟩ := of_bind_eq_ok h
  split at h
  · cases h
  · cases h
    exact ⟨b, hget, hround, Nat.min_eq_right (show b.rides + 1 ≤ 255 from hrides)⟩

end Task

end

/-! ## What a store keeps -/

variable {σ : Type} {before : Nat → Nat → Prop} {limit k : Nat} {I : σ → Prop} {r : Progress (Recorded σ)}
  {p : Progress σ}

/-- The recorded search has come as far as the other one, and all its states have the property. -/
structure Records (I : σ → Prop) (r : Progress (Recorded σ)) (p : Progress σ) : Prop where
  current_eq : (⟨r.store.current, r.goals, r.stats⟩ : Progress σ) = p
  states : ∀ s ∈ r.store.states, I s

/-- The same of two searches that also give a value each, and give the same one. -/
def RecordsWith {γ : Type} (I : σ → Prop) (r : Progress (Recorded σ) × γ) (p : Progress σ × γ) : Prop :=
  Records I r.1 p.1 ∧ r.2 = p.2

theorem Records.current (h : Records I r p) : I p.store := by
  obtain ⟨rfl, hstates⟩ := h
  exact hstates _ (List.mem_cons_self ..)

/-- A step of the store to a state that has the property. -/
theorem Records.next (h : Records I r p) {state : σ} (hstate : I state) (goals : Frontier Goal) (stats : SearchStats) :
    Records I ⟨r.store.next state, goals, stats⟩ ⟨state, goals, stats⟩ :=
  ⟨rfl, List.forall_mem_cons.2 ⟨hstate, h.states⟩⟩

variable [ArrivalStore σ]

/-- What stays true of a store in rounds up to a limit, as long as the arrivals that it is offered continue those
of its log. It has to see to it that those it hands out can be continued. -/
structure ArrivalStore.Invariant (limit : Nat) (before : Nat → Nat → Prop) (I : σ → Prop) : Prop where
  beginIteration : ∀ {s} i, I s → I (beginIteration s i)
  beginRound : ∀ {s} k, k ≤ limit → I s → I (beginRound s k)
  reject : ∀ {s} a, I s → I (reject s a)
  accept : ∀ {s s' a id}, I s → a.round = ArrivalStore.round s → (ArrivalStore.log s).Continues before a →
    accept s a = .ok (s', id) → I s'
  boards : ∀ {s stop ids}, I s → boardable s stop = .ok ids → ∀ id ∈ ids, ∃ b, (ArrivalStore.log s).get? id = .ok b ∧
    before b.round (ArrivalStore.round s) ∧ b.rides < 255
  walks : ∀ {s stop ids}, I s → transferable s stop = .ok ids → ∀ id ∈ ids, ∃ b, (ArrivalStore.log s).get? id = .ok b ∧
    b.stop = stop ∧ b.onBoard = true ∧ b.round = ArrivalStore.round s

/-- The recorded search has come as far as the other one in round `k`. -/
structure RecordsIn (I : σ → Prop) (k : Nat) (r : Progress (Recorded σ)) (p : Progress σ) : Prop
    extends Records I r p where
  round_eq : round p.store = k

/-- The same, and the log has grown from `l`. -/
def RecordsFrom (I : σ → Prop) (k : Nat) (l : ArrivalLog) (r : Progress (Recorded σ)) (p : Progress σ) : Prop :=
  RecordsIn I k r p ∧ l.Extends (log p.store)

/-- The same of two scans of a route, with passengers who have boarded from arrivals of the log. -/
def RecordsRide (before : Nat → Nat → Prop) (I : σ → Prop) (k : Nat) (r : Progress (Recorded σ) × List Rider)
    (p : Progress σ × List Rider) : Prop :=
  RecordsIn I k r.1 p.1 ∧ r.2 = p.2 ∧ ∀ rider ∈ p.2, rider.Continues before (log p.1.store) k

theorem Records.changes_eq (h : Records I r p) : changes r.store = changes p.store := by
  obtain ⟨rfl, -⟩ := h
  rfl

variable [LoggingStore σ]

/-- A decision about an arrival keeps what the store keeps, and the log of it. -/
theorem ArrivalStore.Invariant.offer (h : Invariant limit before I) {s s' : σ} {a : Arrival} {id : Option Nat}
    (hs : I s) (hround : a.round = ArrivalStore.round s) (hcontinues : (ArrivalStore.log s).Continues before a)
    (hoffer : ArrivalStore.offer s a = .ok (s', id)) : I s' ∧ (ArrivalStore.log s).Extends (ArrivalStore.log s') := by
  obtain ⟨rfl, -⟩ | ⟨_, haccept, -⟩ := ArrivalStore.of_offer_eq_ok hoffer
  · rw [LoggingStore.log_reject]
    exact ⟨h.reject a hs, ArrivalLog.extends_refl _⟩
  · rw [LoggingStore.log_accept haccept]
    exact ⟨h.accept hs hround hcontinues haccept, ArrivalLog.extends_push _ _⟩

/-! ## Both searches side by side -/

namespace Task

open ArrivalStore (Invariant)

variable [RoundKeeping σ] {task : Task} {departure : Time}

theorem offer_recorded (hI : Invariant limit before I) (h : RecordsIn I k r p) {a : Arrival} (hround : a.round = k)
    (hcontinues : (log p.store).Continues before a) :
    Alike (RecordsFrom I k (log p.store)) (task.offer departure r a) (task.offer departure p a) := by
  have hcurrent := h.current
  obtain ⟨⟨rfl, hstates⟩, hk⟩ := h
  simp only [offer]
  split
  · refine .ok ⟨⟨Records.next ⟨rfl, hstates⟩ (hI.reject a hcurrent) _ _, ?_⟩, ?_⟩
    · exact (RoundKeeping.round_reject _ _).trans hk
    · rw [LoggingStore.log_reject]
      exact ArrivalLog.extends_refl _
  · rw [Recorded.offer_eq]
    cases hoffer : ArrivalStore.offer r.store.current a with
    | error e => exact .error e
    | ok result =>
      obtain ⟨s, id⟩ := result
      obtain ⟨hs, hlog⟩ := hI.offer hcurrent (hround.trans hk.symm) hcontinues hoffer
      have hk' := (ArrivalStore.round_offer hoffer).trans hk
      cases id with
      | none => exact .ok ⟨⟨Records.next ⟨rfl, hstates⟩ hs _ _, hk'⟩, hlog⟩
      | some id => exact .ok ⟨⟨Records.next ⟨rfl, hstates⟩ hs _ _, hk'⟩, hlog⟩

theorem offerAll_recorded (hI : Invariant limit before I) (h : RecordsIn I k r p) {as : List Arrival}
    (has : ∀ a ∈ as, a.round = k ∧ (log p.store).Continues before a) :
    Alike (RecordsFrom I k (log p.store)) (as.foldlM (task.offer departure) r)
      (as.foldlM (task.offer departure) p) := by
  refine alike_loop as ?_ ⟨h, ArrivalLog.extends_refl _⟩
  rintro r' p' a ha ⟨h', hlog⟩
  obtain ⟨hround, hcontinues⟩ := has a ha
  exact (offer_recorded hI h' hround (hcontinues.mono hlog)).mono fun _ _ h => ⟨h.1, hlog.trans h.2⟩

theorem seed_recorded (hI : Invariant limit before I) (h : RecordsIn I k r p) :
    Alike (RecordsIn I k) (task.seed departure k r) (task.seed departure k p) := by
  refine (offerAll_recorded hI h fun a ha => ?_).mono fun _ _ h => h.1
  obtain ⟨access, -, harrival⟩ := List.mem_filterMap.1 ha
  exact continues_of_accessArrival? harrival

/-! ### Rides -/

omit [LoggingStore σ] [RoundKeeping σ] in
theorem boardAll_continues {route : Route} {position : Position} {store : σ} {riders riders' : List Rider}
    {ids : List Nat}
    (hids : ∀ id ∈ ids, ∃ b, (log store).get? id = .ok b ∧ before b.round k ∧ b.rides < 255)
    (hriders : ∀ rider ∈ riders, rider.Continues before (log store) k)
    (h : task.boardAll route position store riders ids = .ok riders') :
    ∀ rider ∈ riders', rider.Continues before (log store) k := by
  refine of_foldlM_eq_ok (P := fun _ riders => ∀ rider ∈ riders, rider.Continues before (log store) k) h hriders ?_
  intro done id rest riders riders' hsplit hriders h
  obtain ⟨rider?, hrider, h⟩ := of_bind_eq_ok h
  cases rider? with
  | none =>
    cases h
    exact hriders
  | some rider =>
    cases h
    obtain ⟨b, hget, hround, hrides⟩ := hids id (by simp [hsplit])
    intro rider' hrider'
    rcases (addRider_spec _ _ _ _).1 rider' hrider' with hold | rfl
    · exact hriders rider' hold
    · exact continues_of_riderFrom? hget hround hrides hrider

theorem scanPosition_recorded (hI : Invariant limit before I) {route : Route}
    {x : Progress (Recorded σ) × List Rider} {y : Progress σ × List Rider} (h : RecordsRide before I k x y)
    (place : Stop × Position) : Alike (RecordsRide before I k) (task.scanPosition departure route k x place)
      (task.scanPosition departure route k y place) := by
  obtain ⟨r, riders⟩ := x
  obtain ⟨p, riders'⟩ := y
  obtain ⟨h, hsame, hriders⟩ := h
  obtain rfl : riders = riders' := hsame
  unfold scanPosition
  have has : ∀ a ∈ riders.map (task.alight route k place.2 place.1),
      a.round = k ∧ (log p.store).Continues before a := by
    intro a ha
    obtain ⟨rider, hrider, rfl⟩ := List.mem_map.1 ha
    exact ⟨rfl, continues_alight (hriders rider hrider) _ _ _⟩
  refine (offerAll_recorded hI h has).bind fun r' p' ⟨h', hlog⟩ => ?_
  have hriders' := fun rider hrider => (hriders rider hrider).mono hlog
  split
  · exact .ok ⟨h', rfl, hriders'⟩
  · -- Both read the same state of the store.
    have hcurrent := h'.current
    obtain ⟨⟨rfl, hstates⟩, hk⟩ := h'
    show Alike _ (ArrivalStore.boardable r'.store.current place.1 >>= _)
      (ArrivalStore.boardable r'.store.current place.1 >>= _)
    cases hboardable : ArrivalStore.boardable r'.store.current place.1 with
    | error e => exact .error e
    | ok ids =>
      show Alike _ (task.boardAll route place.2 r'.store.current riders ids >>= _)
        (task.boardAll route place.2 r'.store.current riders ids >>= _)
      cases hboard : task.boardAll route place.2 r'.store.current riders ids with
      | error e => exact .error e
      | ok boarded =>
        have hids := hI.boards hcurrent hboardable
        rw [show round r'.store.current = k from hk] at hids
        exact .ok ⟨⟨⟨rfl, hstates⟩, hk⟩, rfl, boardAll_continues hids hriders' hboard⟩

theorem scanRoute_recorded (hI : Invariant limit before I) (h : RecordsIn I k r p) (index : RouteIndex) :
    Alike (RecordsIn I k) (task.scanRoute departure k r index) (task.scanRoute departure k p index) := by
  unfold scanRoute
  refine Alike.bind_same _ fun route => ?_
  have hstart : RecordsRide before I k (r, []) (p, []) := ⟨h, rfl, by simp⟩
  exact (alike_loop _ (fun _ _ place _ h => scanPosition_recorded hI h place) hstart).bind fun _ _ h' => .ok h'.1

/-! ### Transfers -/

theorem relaxFrom_recorded (hI : Invariant limit before I) (h : RecordsIn I k r p) {source : Stop} {id : Nat}
    {b : Arrival} (hget : (log p.store).get? id = .ok b) (hstop : b.stop = source) (honBoard : b.onBoard = true)
    (hround : b.round = k) :
    Alike (RecordsFrom I k (log p.store)) (task.relaxFrom departure k source r id)
      (task.relaxFrom departure k source p id) := by
  have hget' : (log r.store).get? id = .ok b := by
    rw [← hget, ← h.current_eq]
    rfl
  unfold relaxFrom
  rw [hget, hget', ok_bind, ok_bind]
  refine offerAll_recorded hI h fun a ha => ?_
  obtain ⟨transfer, -, rfl⟩ := List.mem_map.1 ha
  exact ⟨rfl, continues_walkFrom hget hstop honBoard hround transfer⟩

theorem relaxStop_recorded (hI : Invariant limit before I) (h : RecordsIn I k r p) (source : Stop) :
    Alike (RecordsIn I k) (task.relaxStop departure k r source) (task.relaxStop departure k p source) := by
  have htransferable : ArrivalStore.transferable r.store source = ArrivalStore.transferable p.store source := by
    rw [← h.current_eq]
    rfl
  unfold relaxStop
  rw [htransferable]
  cases hids : ArrivalStore.transferable p.store source with
  | error e => exact .error e
  | ok ids =>
    -- What is handed out at first is still in the log when its turn comes.
    have hstep : ∀ r' p', ∀ id ∈ ids, RecordsFrom I k (log p.store) r' p' →
        Alike (RecordsFrom I k (log p.store)) (task.relaxFrom departure k source r' id)
          (task.relaxFrom departure k source p' id) := by
      rintro r' p' id hid ⟨h', hlog⟩
      obtain ⟨b, hget, hstop, honBoard, hround⟩ := hI.walks h.current hids id hid
      exact (relaxFrom_recorded hI h' (hlog _ _ hget) hstop honBoard (hround.trans h.round_eq)).mono
        fun _ _ h'' => ⟨h''.1, hlog.trans h''.2⟩
    exact (alike_loop ids hstep ⟨h, ArrivalLog.extends_refl _⟩).mono fun _ _ h' => h'.1

/-! ### Rounds and iterations -/

omit [LoggingStore σ] in
theorem recordsIn_beginRound (hI : Invariant limit before I) (h : Records I r p) (hk : k ≤ limit)
    (stats : SearchStats) :
    RecordsIn I k { r with store := ArrivalStore.beginRound r.store k, stats := stats }
      { p with store := ArrivalStore.beginRound p.store k, stats := stats } := by
  have hcurrent := h.current
  obtain ⟨rfl, hstates⟩ := h
  exact ⟨Records.next ⟨rfl, hstates⟩ (hI.beginRound k hk hcurrent) _ _, RoundKeeping.round_beginRound _ _⟩

omit [LoggingStore σ] [RoundKeeping σ] in
theorem records_beginIteration (hI : Invariant limit before I) (h : Records I r p) (iteration : Nat) :
    Records I { r with store := ArrivalStore.beginIteration r.store iteration }
      { p with store := ArrivalStore.beginIteration p.store iteration } := by
  have hcurrent := h.current
  obtain ⟨rfl, hstates⟩ := h
  exact Records.next ⟨rfl, hstates⟩ (hI.beginIteration iteration hcurrent) _ _

theorem runRound_recorded (hI : Invariant limit before I) (h : Records I r p) (hk : k ≤ limit) :
    Alike (Records I) (task.runRound departure k r) (task.runRound departure k p) := by
  have hbegun := recordsIn_beginRound hI h hk { p.stats with rounds := p.stats.rounds + 1 }
  obtain ⟨rfl, hstates⟩ := h
  unfold runRound
  refine (alike_loop _ (fun _ _ index _ h => scanRoute_recorded hI h index) hbegun).bind fun r1 p1 h1 => ?_
  refine (seed_recorded hI h1).bind fun r2 p2 h2 => ?_
  rw [h2.changes_eq]
  exact (alike_loop _ (fun _ _ source _ h => relaxStop_recorded hI h source) h2).mono fun _ _ h => h.toRecords

theorem runRounds_recorded (hI : Invariant limit before I) {left : Nat} (h : Records I r p)
    (hk : left + k ≤ limit + 1) :
    Alike (RecordsWith I) (task.runRounds departure left k r) (task.runRounds departure left k p) := by
  induction left generalizing k r p with
  | zero => exact .ok ⟨h, rfl⟩
  | succ left ih =>
    have hrounds : r.stats.rounds = p.stats.rounds := by
      rw [← h.current_eq]
    unfold runRounds
    rw [hrounds]
    split
    · exact .ok ⟨h, rfl⟩
    · refine (runRound_recorded hI h (by omega)).bind fun r' p' h' => ?_
      rw [h'.changes_eq]
      split
      · exact .ok ⟨h', rfl⟩
      · exact ih h' (by omega)

theorem runIteration_recorded (hI : Invariant task.settings.maxRounds before I) (h : Records I r p) (iteration : Nat) :
    Alike (RecordsWith I) (task.runIteration iteration departure r) (task.runIteration iteration departure p) := by
  have hbegun := recordsIn_beginRound hI (records_beginIteration hI h iteration) (Nat.zero_le _)
    { p.stats with iterations := p.stats.iterations + 1 }
  obtain ⟨rfl, hstates⟩ := h
  unfold runIteration
  exact (seed_recorded hI hbegun).bind fun _ _ h => runRounds_recorded hI h.toRecords (Nat.le_refl _)

theorem runIterations_recorded (hI : Invariant task.settings.maxRounds before I) (h : Records I r p) (iteration : Nat)
    (departures : List Time) :
    Alike (RecordsWith I) (task.runIterations iteration departures r) (task.runIterations iteration departures p) := by
  induction departures generalizing iteration r p with
  | nil => exact .ok ⟨h, rfl⟩
  | cons departure departures ih =>
    unfold runIterations
    refine (runIteration_recorded hI h iteration).bind ?_
    rintro ⟨r', timedOut⟩ ⟨p', timedOut'⟩ ⟨h', htimedOut⟩
    obtain rfl : timedOut = timedOut' := htimedOut
    cases timedOut with
    | true => exact .ok ⟨h', rfl⟩
    | false => exact ih h' _

/-- What a store keeps it has in every state of a search. -/
theorem run_recorded (hI : Invariant task.settings.maxRounds before I) {store : σ} (hstore : I store) :
    Alike (fun o o' => o' = { o with store := o.store.current } ∧ ∀ s ∈ o.store.states, I s)
      (task.run (Recorded.start store)) (task.run store) := by
  have hstart : Records I (⟨Recorded.start store, .empty, .zero⟩ : Progress (Recorded σ)) ⟨store, .empty, .zero⟩ :=
    ⟨rfl, List.forall_mem_singleton.2 hstore⟩
  unfold run
  refine (runIterations_recorded hI hstart 0 _).bind ?_
  rintro ⟨r, timedOut⟩ ⟨p, timedOut'⟩ ⟨⟨rfl, hstates⟩, htimedOut⟩
  obtain rfl : timedOut = timedOut' := htimedOut
  exact .ok ⟨rfl, hstates⟩

theorem always_of_run (hI : Invariant task.settings.maxRounds before I) {store : σ} (hstore : I store)
    {P : Outcome σ → Prop} (hrun : GivesInRange (task.run store) P) : task.Always store I := by
  have halike : Alike _ (task.run (Recorded.start store)) (task.run store) := run_recorded hI hstore
  rcases hrun with ⟨outcome, hrun, -⟩ | hstops
  · rw [hrun] at halike
    obtain ⟨recorded, hrecorded, rfl, hstates⟩ := halike.of_ok
    exact .inl ⟨_, hrun, recorded.store.past, hrecorded, hstates⟩
  · exact .inr hstops

end Task

end JourneyPlanner
