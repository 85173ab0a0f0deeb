import JourneyPlanner.Proofs.Provenance
import JourneyPlanner.Search.Retrace
/-!
# Telling arrivals as legs

The arrivals from the origin to an arrival of the log are told one by one, and each tells one leg. The
legs are steps that lead where the arrival is, and the bill for them is what the search has counted up
(`Task.Told`). Only a run that starts at the last time there is has a name that may lead nowhere
(`Task.Broken`).
-/
namespace JourneyPlanner

/-- Every arrival continues one with a smaller number. -/
def ArrivalLog.Backward (log : ArrivalLog) : Prop :=
  ∀ id a, log.get? id = .ok a → ∀ parent, a.parent = some parent → parent < id

/-- The arrival is by a headway run that starts at the last time there is. -/
def Arrival.StartsLast (a : Arrival) : Prop :=
  ∃ route service first boardPosition alightPosition boardTime,
    a.via = .ride route (.headway service first) boardPosition alightPosition boardTime ∧
      ¬ first.secs < 2147483647

namespace Task

variable {task : Task} {log : ArrivalLog} {earliest : Time} {a : Arrival} {last : Option AlightedTrip}

/-- Each arrival tells its leg, whatever comes after it. -/
inductive Tells (task : Task) : List Arrival → List Leg → Prop
  | nil : Tells task [] []
  | cons {a : Arrival} {leg : Leg} {as : List Arrival} {legs : List Leg} :
      (∀ next, task.leg? a next = .ok (some leg)) → Tells task as legs → Tells task (a :: as) (leg :: legs)

theorem Tells.snoc {as : List Arrival} {legs : List Leg} (h : task.Tells as legs) {leg : Leg}
    (hleg : ∀ next, task.leg? a next = .ok (some leg)) : task.Tells (as ++ [a]) (legs ++ [leg]) := by
  induction h with
  | nil => exact .cons hleg .nil
  | cons h _ ih => exact .cons h ih

theorem legs?_cons {as : List Arrival} {leg : Leg} (h : task.leg? a as.head? = .ok (some leg)) :
    task.legs? (a :: as) = (task.legs? as).map (Option.map (leg :: ·)) := by
  rw [legs?, h]
  cases task.legs? as <;> rfl

theorem legs?_cons_none {as : List Arrival} (h : task.leg? a as.head? = .ok none) :
    task.legs? (a :: as) = .ok none := by
  rw [legs?, h]
  rfl

theorem Tells.legs?_append {as : List Arrival} {legs : List Leg} (h : task.Tells as legs) (rest : List Arrival) :
    task.legs? (as ++ rest) = (task.legs? rest).map (Option.map (legs ++ ·)) := by
  induction h with
  | nil =>
    show task.legs? rest = _
    cases task.legs? rest with
    | error e => rfl
    | ok o => cases o <;> rfl
  | @cons a leg as legs hleg _ ih =>
    rw [List.cons_append, legs?_cons (hleg _), ih]
    cases task.legs? rest with
    | error e => rfl
    | ok o => cases o <;> rfl

theorem Tells.legs?_eq {as : List Arrival} {legs : List Leg} (h : task.Tells as legs) :
    task.legs? as = .ok (some legs) := by
  have happend := h.legs?_append []
  rw [List.append_nil, legs?] at happend
  rw [happend]
  simp [Except.map]

/-- The arrival by an access path, from which the traveller goes on. -/
def IsFirst (task : Task) (earliest : Time) (first : Arrival) (path : StreetPath) : Prop :=
  ∃ number departure round, task.request.access[number]? = some path ∧ departure ∈ task.departures ∧
    earliest ≤ departure ∧ accessArrival? departure round (path, number) = some first

/-- The arrivals after the first one tell legs that lead to the last one, and the bill for them is right. -/
structure Told (task : Task) (first : Arrival) (tail : List Arrival) (legs : List Leg) (a : Arrival)
    (last : Option AlightedTrip) : Prop where
  tells : task.Tells tail legs
  steps : task.Steps (first.standing none) legs (a.standing last)
  bill : legs.foldl (Pricing.Bill.add task.pricing) ⟨first.cost, first.rides, none⟩ =
    ⟨a.cost, a.rides, if a.isAccess then none else some a.time⟩

/-- One of the arrivals is by a run whose name leads nowhere, and those before it tell their legs. -/
def Broken (task : Task) (log : ArrivalLog) (tail : List Arrival) : Prop :=
  ∃ before x after legs, tail = before ++ x :: after ∧ task.Tells before legs ∧
    (∀ next, task.leg? x next = .ok none) ∧ x.StartsLast ∧ ∃ id, log.get? id = .ok x

theorem Broken.append {tail : List Arrival} (h : task.Broken log tail) (rest : List Arrival) :
    task.Broken log (tail ++ rest) := by
  obtain ⟨before, x, after, legs, rfl, h⟩ := h
  exact ⟨before, x, after ++ rest, legs, by simp, h⟩

theorem Broken.legs?_eq {tail : List Arrival} (h : task.Broken log tail) : task.legs? tail = .ok none := by
  obtain ⟨before, x, after, legs, rfl, htells, hleg, _⟩ := h
  rw [htells.legs?_append, legs?_cons_none (hleg _)]
  rfl

/-! ## One leg -/

theorem leg?_ride {route : Route} (hroute : task.network.routes[route.index]? = some route) {run : Run}
    (hoffers : route.Offers run) {p q : Position} (hp : p < route.pattern.size) {x : Arrival}
    (hvia : x.via = .ride route.index run.ref p q (run.departure p)) (hstop : x.stop = route.pattern.stop q)
    (htime : x.time = run.arrival q) (next : Option Arrival) :
    task.leg? x next = .ok ((route.run? run.ref).map fun run => .ride (.ofRun route run p q)) := by
  unfold leg?
  rw [hvia]
  show (task.network.route? route.index >>= fun route' => rideLeg? route' run.ref p q (run.departure p) x) = _
  unfold Network.route?
  rw [hroute]
  show rideLeg? route run.ref p q (run.departure p) x = _
  unfold rideLeg?
  cases hrun : route.run? run.ref with
  | none => rfl
  | some run' =>
    obtain rfl := hoffers.run?_eq hrun
    simp only
    rw [StopPattern.stop?_eq hp]
    show Except.ok (some (Leg.ride _)) = Except.ok (some (Leg.ride _))
    rw [hstop, htime]
    rfl

theorem leg?_transfer {x : Arrival} {source : Stop} {number : Nat} {transfer : Transfer}
    (hvia : x.via = .transfer source number)
    (htransfer : (task.network.transfersFrom source)[number]? = some transfer) (next : Option Arrival) :
    task.leg? x next = .ok (some (.transfer (task.transferLeg source transfer x))) := by
  unfold leg?
  rw [hvia]
  simp only
  rw [htransfer]
  rfl

theorem chainOnto_parent (hback : log.Backward) {id parent : Nat} (hget : log.get? id = .ok a)
    (hparent : a.parent = some parent) (rest : List Arrival) :
    log.chainOnto id rest = log.chainOnto parent (a :: rest) := by
  rw [ArrivalLog.chainOnto, hget]
  simp only
  rw [hparent]
  simp only
  rw [if_pos (hback id a hget parent hparent)]

/-! ## One arrival more -/

/-- A run whose name leads nowhere starts at the last time there is. -/
theorem startsLast_of_run? {route : Route} {run : Run} (hoffers : route.Offers run) (hrun : route.run? run.ref = none)
    {x : Arrival} {p q : Position} {boardTime : Time} (hvia : x.via = .ride route.index run.ref p q boardTime) :
    x.StartsLast := by
  apply Classical.byContradiction
  intro hnot
  have hinside : ∀ service first, run.ref = .headway service first → first.secs < 2147483647 := by
    intro service first href
    apply Classical.byContradiction
    intro hlt
    exact hnot ⟨route.index, service, first, p, q, boardTime, by rw [hvia, href], hlt⟩
  rw [hoffers.resolves hinside] at hrun
  cases hrun

section Told

variable {first parent : Arrival} {tail : List Arrival} {legs : List Leg} {pid round : Nat}

/-- A ride goes on from what has been told. -/
theorem Told.ride (h : task.Told first tail legs parent last) {route : Route} {run : Run} {p q : Position}
    (hroute : task.network.routes[route.index]? = some route) (hoffers : route.Offers run)
    (hrun : route.run? run.ref = some run) (hboardable : task.pricing.boardable run.schedule = true) (hpq : p < q)
    (hq : q < route.pattern.size) (hstop : route.pattern.stop p = parent.stop)
    (hmay : task.MayBoard last parent.time parent.rides route p run) (hrides : parent.rides + 1 ≤ 255) {x : Arrival}
    (hx : task.alight route round q (route.pattern.stop q) (task.riderOn route p pid parent run) = x) :
    task.Told first (tail ++ [x]) (legs ++ [.ride (.ofRun route run p q)]) x (run.alighted? route.index q) := by
  have hadd : addRides parent.rides 1 = parent.rides + 1 := Nat.min_eq_right hrides
  subst hx
  refine ⟨h.tells.snoc fun next => ?_, ?_, ?_⟩
  · rw [leg?_ride hroute hoffers (Nat.lt_trans hpq hq) rfl rfl rfl, hrun]
    rfl
  · have hstep := h.steps.snoc (.ride hroute hoffers hrun hboardable hpq hq hstop hmay)
    simp only [Arrival.standing] at hstep ⊢
    rw [← hadd] at hstep
    exact hstep
  · rw [List.foldl_append, h.bill]
    -- After an access nothing has been waited for.
    have hnot : (task.alight route round q (route.pattern.stop q)
        (task.riderOn route p pid parent run)).isAccess = false := rfl
    rw [hnot]
    cases hacc : parent.isAccess <;> simp [Pricing.Bill.add, alight, riderOn, RideLeg.ofRun, hacc, hadd]

/-- A ride whose run is not found under its name tells no leg. -/
theorem Told.broken (h : task.Told first tail legs parent last) {route : Route} {run : Run} {p q : Position}
    (hroute : task.network.routes[route.index]? = some route) (hoffers : route.Offers run) (hpq : p < q)
    (hq : q < route.pattern.size) (hrun : route.run? run.ref = none) {x : Arrival}
    (hx : task.alight route round q (route.pattern.stop q) (task.riderOn route p pid parent run) = x) {id : Nat}
    (hget : log.get? id = .ok x) : task.Broken log (tail ++ [x]) := by
  subst hx
  refine ⟨tail, _, [], legs, rfl, h.tells, fun next => ?_, startsLast_of_run? hoffers hrun rfl, id, hget⟩
  rw [leg?_ride hroute hoffers (Nat.lt_trans hpq hq) rfl rfl rfl, hrun]
  rfl

/-- A walk goes on from what has been told. -/
theorem Told.walk (h : task.Told first tail legs parent last) (honBoard : parent.onBoard = true) {transfer : Transfer}
    {number : Nat} (htransfer : (task.network.transfersFrom parent.stop)[number]? = some transfer) {x : Arrival}
    (hx : task.walkFrom round parent.stop pid parent (transfer, number) = x) :
    task.Told first (tail ++ [x]) (legs ++ [.transfer (task.transferLeg parent.stop transfer x)]) x last := by
  subst hx
  refine ⟨h.tells.snoc (leg?_transfer rfl htransfer), ?_, ?_⟩
  · exact h.steps.snoc (.transfer honBoard (List.mem_of_getElem? htransfer) rfl rfl rfl
      (Time.add_sub_add transfer.duration_nonneg) rfl rfl)
  · rw [List.foldl_append, h.bill]
    rfl

end Told

/-! ## The whole way -/

/-- The arrivals from the origin on are in the log, and they tell their legs unless a name leads nowhere. -/
theorem Traces.told (h : task.Traces log earliest a last) (hready : task.network.Sound)
    (hrounds : task.settings.maxRounds ≤ 251) (hback : log.Backward) {id : Nat} (hget : log.get? id = .ok a) :
    ∃ first path tail, task.IsFirst earliest first path ∧
      (∀ rest, log.chainOnto id rest = .ok (first :: (tail ++ rest))) ∧
      ((∃ legs, task.Told first tail legs a last) ∨ task.Broken log tail) := by
  induction h generalizing id with
  | @access path number departure round a hpath hdeparture hearliest hround harrival =>
    obtain ⟨_, _, _, heq⟩ := accessArrival?_eq harrival
    refine ⟨a, path, [], ⟨number, departure, round, hpath, hdeparture, hearliest, harrival⟩, fun rest => ?_,
      .inl ⟨[], .nil, .nil, ?_⟩⟩
    · rw [ArrivalLog.chainOnto, hget]
      subst heq
      rfl
    · subst heq
      rfl
  | @ride parent pid last route p q run round hparent htraces hroute hpq hq hstop hboard hrides ih =>
    obtain ⟨first, path, tail, hfirst, hchain, hrest⟩ := ih hparent
    obtain ⟨hoffers, hboardable, hmay⟩ := board?_spec hready hroute (Nat.lt_trans hpq hq) hboard
    refine ⟨first, path, tail ++ [task.alight route round q (route.pattern.stop q)
      (task.riderOn route p pid parent run)], hfirst, fun rest => ?_, ?_⟩
    · rw [List.append_assoc]
      exact (chainOnto_parent hback hget rfl rest).trans (hchain _)
    · rcases hrest with ⟨legs, htold⟩ | hbroken
      · cases hrun : route.run? run.ref with
        | none => exact .inr (htold.broken hroute hoffers hpq hq hrun rfl hget)
        | some run' =>
          obtain rfl := hoffers.run?_eq hrun
          exact .inl ⟨_, htold.ride hroute hoffers hrun hboardable hpq hq hstop hmay (by omega) rfl⟩
      · exact .inr (hbroken.append _)
  | @transfer parent pid last transfer number round hparent htraces honBoard htransfer ih =>
    obtain ⟨first, path, tail, hfirst, hchain, hrest⟩ := ih hparent
    refine ⟨first, path, tail ++ [task.walkFrom round parent.stop pid parent (transfer, number)], hfirst,
      fun rest => ?_, ?_⟩
    · rw [List.append_assoc]
      exact (chainOnto_parent hback hget rfl rest).trans (hchain _)
    · rcases hrest with ⟨legs, htold⟩ | hbroken
      · exact .inl ⟨_, htold.walk honBoard htransfer rfl⟩
      · exact .inr (hbroken.append _)

/-! ## The access leg -/

/-- The leg is of the kind that the arrival is. -/
theorem leg?_kind {x : Arrival} {next : Option Arrival} {leg : Leg} (h : task.leg? x next = .ok (some leg)) :
    (∀ l, leg = .ride l → ∃ route ref p q, x.via = .ride route ref p q l.boardTime) ∧
      ∀ l, leg = .transfer l → ∃ source number, x.via = .transfer source number := by
  simp only [leg?] at h
  cases hvia : x.via with
  | access number onBoard =>
    simp only [hvia] at h
    obtain ⟨_, _, rfl⟩ := Option.map_eq_some_iff.1 (Except.ok.inj h)
    exact ⟨fun _ hl => (by cases hl), fun _ hl => (by cases hl)⟩
  | transfer source number =>
    simp only [hvia] at h
    obtain ⟨_, _, rfl⟩ := Option.map_eq_some_iff.1 (Except.ok.inj h)
    exact ⟨fun _ hl => (by cases hl), fun _ _ => ⟨source, number, rfl⟩⟩
  | ride route ref p q boardTime =>
    simp only [hvia] at h
    cases hroute : task.network.route? route with
    | error e =>
      rw [hroute] at h
      cases h
    | ok route' =>
      rw [hroute] at h
      change rideLeg? route' ref p q boardTime x = _ at h
      simp only [rideLeg?] at h
      split at h
      · cases h
      · cases hstop : route'.pattern.stop? p with
        | error e =>
          rw [hstop] at h
          cases h
        | ok stop =>
          rw [hstop] at h
          cases h
          exact ⟨fun l hl => by cases hl; exact ⟨route, ref, p, q, rfl⟩, fun _ hl => (by cases hl)⟩

/-- The access leg arrives as early as found unless a ride follows. -/
theorem accessLeg_eq {path : StreetPath} {first : Arrival} {next : Option Arrival}
    (h : ∀ x, next = some x → ∃ source number, x.via = .transfer source number) :
    task.accessLeg path first next = path.legUntil first.time := by
  cases next with
  | none => rfl
  | some x =>
    obtain ⟨source, number, hvia⟩ := h x rfl
    unfold accessLeg
    simp only [Option.map_some, hvia]
    rfl

/-- Before a ride the access leg arrives later, but still in time to board. -/
theorem accessLeg_spec (path : StreetPath) {first x : Arrival} {route : RouteIndex} {ref : RunRef}
    {p q : Position} {boardTime : Time} (hvia : x.via = .ride route ref p q boardTime)
    (hfloor : task.settings.boardingFloor first.time first.rides ≤ boardTime)
    (hslack : 0 ≤ task.settings.boardSlack) (hslack' : 0 ≤ task.settings.transferSlack) :
    ∃ arrival, task.accessLeg path first (some x) = path.legUntil arrival ∧ first.time ≤ arrival ∧
      (arrival = first.time ∨ ∃ requested, path.latestEnd? requested = some arrival) ∧
      task.settings.boardingFloor arrival first.rides ≤ boardTime := by
  have hpos : 0 ≤ task.settings.boardSlack + (if 0 < first.rides then task.settings.transferSlack else 0) := by
    split <;> omega
  generalize hslackEq : task.settings.boardingFloor first.time first.rides - first.time = slack
  have haccess : task.accessLeg path first (some x) = path.legUntil
      ((path.latestEnd? (boardTime - slack)).elim first.time (max first.time)) := by
    unfold accessLeg
    simp only [Option.map_some, hvia, hslackEq]
    cases path.latestEnd? (boardTime - slack) <;> rfl
  rw [haccess]
  cases hend : path.latestEnd? (boardTime - slack) with
  | none => exact ⟨first.time, rfl, Time.le_refl _, .inl rfl, hfloor⟩
  | some latest =>
    refine ⟨max first.time latest, rfl, Time.le_max_left _ _, ?_, ?_⟩
    · rcases Time.max_eq first.time latest with h | h
      · exact .inl h
      · exact .inr ⟨_, by rw [h]; exact hend⟩
    · rcases Time.max_eq first.time latest with h | h
      · rw [h]
        exact hfloor
      · -- What is added to the arrival is what the latest end has been moved back by.
        have hle := StreetPath.latestEnd?_le hend
        have h1 := first.time.lower
        have h2 := first.time.upper
        have h3 := boardTime.upper
        have h4 := latest.lower
        rw [h]
        simp only [Settings.boardingFloor] at hfloor hslackEq ⊢
        generalize task.settings.boardSlack + (if 0 < first.rides then task.settings.transferSlack else 0) = k
          at hfloor hslackEq hpos ⊢
        rw [Time.sub_time] at hslackEq
        simp only [Time.le_iff, Time.secs_add, Time.secs_sub] at hfloor hslackEq hle ⊢
        omega

/-- The access leg moves to where the first ride wants it, and the legs after it stay. -/
theorem Told.starts {first : Arrival} {path : StreetPath} {tail : List Arrival} {legs : List Leg}
    (h : task.Told first tail legs a last) (hfirst : task.IsFirst earliest first path)
    (hslack : 0 ≤ task.settings.boardSlack) (hslack' : 0 ≤ task.settings.transferSlack) :
    ∃ s, task.Starts earliest (task.accessLeg path first tail.head?) s ∧ task.Steps s legs (a.standing last) := by
  obtain ⟨htells, hsteps, _⟩ := h
  obtain ⟨number, departure, round, hpath, hdeparture, hearliest, harrival⟩ := hfirst
  obtain ⟨_, start, hstart, heq⟩ := accessArrival?_eq harrival
  have htime : first.time = start + path.duration := by rw [heq]
  -- Moving the arrival keeps the rest of the standing.
  have hstarts : ∀ arrival, first.time ≤ arrival →
      (arrival = first.time ∨ ∃ requested, path.latestEnd? requested = some arrival) →
      task.Starts earliest (path.legUntil arrival) ⟨first.stop, arrival, first.rides, first.onBoard, none⟩ := by
    intro arrival hle hopen
    rw [htime] at hle hopen
    subst heq
    exact .intro (List.mem_of_getElem? hpath) hdeparture hearliest hstart hle hopen
  have hplain := hstarts first.time (Time.le_refl _) (.inl rfl)
  cases htells with
  | nil =>
    refine ⟨first.standing none, ?_, hsteps⟩
    rw [accessLeg_eq fun x hx => by cases hx]
    exact hplain
  | @cons x leg xs legs hleg _ =>
    cases hsteps with
    | cons hstep hrest =>
      cases hstep with
      | transfer honBoard htransfer hsource htarget harrives hdeparts hcost hmetres =>
        refine ⟨first.standing none, ?_, .cons (.transfer honBoard htransfer hsource htarget harrives hdeparts hcost
          hmetres) hrest⟩
        rw [accessLeg_eq fun y hy => by cases hy; exact (leg?_kind (hleg none)).2 _ rfl]
        exact hplain
      | ride hroute hoffers hrun hboardable hpq hq hstop hmay =>
        obtain ⟨_, _, _, _, hvia⟩ := (leg?_kind (hleg none)).1 _ rfl
        obtain ⟨arrival, haccess, hle, hopen, hfloor⟩ := accessLeg_spec path hvia hmay hslack hslack'
        refine ⟨⟨first.stop, arrival, first.rides, first.onBoard, none⟩, ?_, .cons (.ride hroute hoffers hrun
          hboardable hpq hq hstop hfloor) hrest⟩
        rw [List.head?_cons, haccess]
        exact hstarts arrival hle hopen

/-! ## Itineraries -/

/-- An itinerary that a search can return: a journey at the price of its legs. -/
structure Sound (task : Task) (earliest : Time) (it : Itinerary) : Prop where
  journey : task.Journey earliest it.legs
  made : Itinerary.ofLegs it.legs (task.pricing.legsCost it.legs) = .ok it

/-- The itinerary is the way to the goal. -/
structure Attains (task : Task) (goal : Goal) (it : Itinerary) : Prop where
  sound : task.Sound goal.departure it
  cost_eq : it.cost = goal.cost
  arrival_eq : it.arrival = goal.time
  rides_eq : goal.rides = min 255 (Itinerary.rideCount it.legs)

theorem itinerary?_some {goal : Goal} {as : List Arrival} {legs : List Leg} {path : StreetPath}
    (hchain : log.chain goal.node = .ok as) (hlegs : task.legs? as = .ok (some legs))
    (hpath : task.request.egress[goal.egress]? = some path) :
    task.itinerary? log goal = .ok (Itinerary.ofLegs (legs ++ [.egress (egressLeg path goal)])
      (task.pricing.legsCost (legs ++ [.egress (egressLeg path goal)]))).toOption := by
  unfold itinerary?
  rw [hchain, ok_bind, hlegs, ok_bind]
  simp only [hpath]
  rfl

theorem itinerary?_none {goal : Goal} {as : List Arrival} (hchain : log.chain goal.node = .ok as)
    (hlegs : task.legs? as = .ok none) : task.itinerary? log goal = .ok none := by
  unfold itinerary?
  rw [hchain, ok_bind, hlegs]
  rfl

theorem IsFirst.leg?_eq {first : Arrival} {path : StreetPath} (h : task.IsFirst earliest first path)
    (next : Option Arrival) : task.leg? first next = .ok (some (.access (task.accessLeg path first next))) := by
  obtain ⟨number, departure, round, hpath, _, _, harrival⟩ := h
  obtain ⟨_, _, _, heq⟩ := accessArrival?_eq harrival
  unfold leg?
  rw [show first.via = .access number path.onBoard by rw [heq]]
  simp only
  rw [hpath]
  rfl

/-- What has been told up to the arrival of a goal makes an itinerary with the egress leg of the goal. -/
theorem Told.attains {first : Arrival} {access path : StreetPath} {tail : List Arrival} {legs : List Leg} {goal : Goal}
    (h : task.Told first tail legs a last) (hfirst : task.IsFirst goal.departure first access)
    (hrounds : a.rides ≤ task.settings.maxRounds) (hsettings : task.settings.Sound)
    (hegress : task.request.egress[goal.egress]? = some path)
    (hgoal : task.goal? goal.departure goal.node a (path, goal.egress) = some goal) :
    let all := .access (task.accessLeg access first tail.head?) :: (legs ++ [.egress (egressLeg path goal)])
    ∃ it, Itinerary.ofLegs all (task.pricing.legsCost all) = .ok it ∧ task.Attains goal it := by
  obtain ⟨hstop, honBoard, start, hstart, hgoalEq⟩ := goal?_eq hgoal
  obtain ⟨s, hstarts, hsteps⟩ := h.starts hfirst hsettings.boardSlack hsettings.transferSlack
  have hends : task.Ends (a.standing last) (egressLeg path goal) := by
    rw [hgoalEq]
    exact .intro (List.mem_of_getElem? hegress) hstop honBoard hstart
  have hjourney := Journey.intro hstarts hsteps hrounds hends
  have hmade := hsteps.ofLegs_eq hstarts hends
  refine ⟨_, hmade _, ⟨hjourney, hmade _⟩, ?_, rfl, ?_⟩
  · -- The bill for the legs in the middle starts where the access leg leaves it.
    obtain ⟨_, _, _, _, _, _, harrival⟩ := hfirst
    obtain ⟨_, _, _, heq⟩ := accessArrival?_eq harrival
    have hcost : goal.cost = a.cost + path.cost := by rw [hgoalEq]
    have hbill := h.bill
    simp only [heq] at hbill
    simp only [Pricing.legsCost, List.foldl_cons, List.foldl_append, List.foldl_nil, Pricing.Bill.add, accessLeg,
      egressLeg, Int.zero_add, Nat.zero_add, hbill, hcost]
  · have hrides := hsteps.rides_eq
    rw [hstarts.rides_eq] at hrides
    have hgoalRides : goal.rides = min 255 (a.rides + path.rides) := by rw [hgoalEq]; rfl
    simp only [Itinerary.rideCount_cons, Itinerary.rideCount_append, Itinerary.rideCount_nil, Leg.rides,
      Arrival.standing, egressLeg] at hrides ⊢
    omega

/-- A goal is told as an itinerary, unless a run on the way starts at the last time there is. -/
theorem GoalTraces.itinerary?_eq (hnet : task.network.Sound) (hsettings : task.settings.Sound)
    (hback : log.Backward) {goal : Goal} (h : task.GoalTraces log goal) :
    (∃ it, task.itinerary? log goal = .ok (some it) ∧ task.Attains goal it) ∨
      (task.itinerary? log goal = .ok none ∧ ∃ id x, log.get? id = .ok x ∧ x.StartsLast) := by
  obtain ⟨a, last, path, hget, htraces, hegress, hgoal⟩ := h
  obtain ⟨first, access, tail, hfirst, hchain, hrest⟩ := htraces.told hnet hsettings.maxRounds_le hback hget
  have hleg := hfirst.leg?_eq tail.head?
  have hchain : log.chain goal.node = .ok (first :: tail) := by
    have hself := hchain []
    rwa [List.append_nil] at hself
  rcases hrest with ⟨legs, htold⟩ | hbroken
  · obtain ⟨it, hmade, hattains⟩ := htold.attains hfirst htraces.rides_le hsettings hegress hgoal
    refine .inl ⟨it, ?_, hattains⟩
    rw [itinerary?_some hchain (by rw [legs?_cons hleg, htold.tells.legs?_eq]; rfl) hegress, List.cons_append, hmade]
    rfl
  · refine .inr ⟨itinerary?_none hchain (by rw [legs?_cons hleg, hbroken.legs?_eq]; rfl), ?_⟩
    obtain ⟨_, x, _, _, _, _, _, hlast, id, hx⟩ := hbroken
    exact ⟨id, x, hx, hlast⟩

end Task

end JourneyPlanner
