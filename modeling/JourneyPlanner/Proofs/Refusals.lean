import JourneyPlanner.Proofs.Watching
/-!
# Refused or answered

A built network refuses a request because of the settings or because of the request itself. It answers
every other one, watched or not, and no look-up on the way misses (`Network.plan_refused_or_answered`).
Whatever a search proposes or keeps names what is there (`Task.RunsIntact`).
-/
namespace JourneyPlanner

open ArrivalStore (log)

/-! ## The rows of a network -/

/-- A network keeps its routes and its transfers for each of its stops, and for nothing else. -/
structure Network.HasRows (net : Network) : Prop where
  routesAt_size : net.routesAt.size = net.stopCount
  transfers_size : net.transfers.size = net.stopCount

theorem NetworkDraft.size_enterRoutes (routes : List Route) (table : Array (List RouteIndex)) :
    (routes.foldl (fun table route =>
        route.pattern.stops.foldl (fun t s => t.modify s (enterRoute route.index)) table) table).size = table.size := by
  induction routes generalizing table with
  | nil => rfl
  | cons r routes ih => rw [List.foldl_cons, ih, ← Array.foldl_toList, size_enterStops]

theorem Network.hasRows_of_isBuilt {net : Network} (h : net.IsBuilt) : net.HasRows := by
  obtain ⟨draft, hmade, rfl⟩ := h
  refine ⟨?_, hmade.sound.transfers_size⟩
  have hsize := NetworkDraft.size_enterRoutes draft.routes.toList (Array.replicate draft.stopNames.size [])
  rw [Array.foldl_toList, Array.size_replicate] at hsize
  exact hsize

/-! ## What a search names -/

namespace Task

/-- What leads to an arrival is there. A run has a time for each position of its route. -/
def Has (task : Task) : Via → Prop
  | .access number _ => number < task.request.access.length
  | .ride route ref p q _ => ∃ r run, task.network.routes[route]? = some r ∧ r.Offers run ∧ run.ref = ref ∧
      run.schedule.size = r.pattern.size ∧ p < q ∧ q < r.pattern.size
  | .transfer source number => source < task.network.stopCount ∧ number < (task.network.transfersFrom source).length

/-- What an arrival names is there. -/
structure HasArrival (task : Task) (a : Arrival) : Prop where
  stop_lt : a.stop < task.network.stopCount
  has_via : task.Has a.via

/-- All that the arrivals of the log and the goals name is there. -/
structure Intact (task : Task) (log : ArrivalLog) (goals : List Goal) : Prop where
  hasArrival : ∀ id a, log.get? id = .ok a → task.HasArrival a
  parent_lt : ∀ id a, log.get? id = .ok a → ∀ parent, a.parent = some parent → parent < id
  node_lt : ∀ g ∈ goals, g.node < log.size
  egress_lt : ∀ g ∈ goals, g.egress < task.request.egress.length

variable {task : Task}

theorem Traces.hasArrival {log : ArrivalLog} {earliest : Time} {a : Arrival} {last : Option AlightedTrip}
    (hready : task.Ready) (h : task.Traces log earliest a last) : task.HasArrival a := by
  refine ⟨h.stop_lt hready.network hready.access_lt, ?_⟩
  cases h with
  | access hpath _ _ _ harrival =>
    obtain ⟨_, _, _, rfl⟩ := accessArrival?_eq harrival
    exact (List.getElem?_eq_some_iff.1 hpath).1
  | ride _ _ hroute hpq hq _ hboard _ =>
    obtain ⟨hoffers, _, _⟩ := board?_spec hready.network hroute (Nat.lt_trans hpq hq) hboard
    exact ⟨_, _, hroute, hoffers, rfl, hoffers.schedule_size, hpq, hq⟩
  | transfer _ hparent _ htransfer =>
    exact ⟨hparent.stop_lt hready.network hready.access_lt, (List.getElem?_eq_some_iff.1 htransfer).1⟩

theorem Searched.intact {σ : Type} [ArrivalStore σ] [LawfulStore σ] {outcome : Outcome σ} (hready : task.Ready)
    (h : task.Searched outcome) : task.Intact (log outcome.store) outcome.goals.items where
  hasArrival id a ha := by
    obtain ⟨_, htraces⟩ := h.traces id a ha
    exact htraces.hasArrival hready
  parent_lt := h.backward
  node_lt g hg := by
    obtain ⟨_, _, _, hget, _⟩ := h.goals g hg
    exact ArrivalLog.lt_size hget
  egress_lt g hg := by
    obtain ⟨_, _, _, _, _, hegress, _⟩ := h.goals g hg
    exact (List.getElem?_eq_some_iff.1 hegress).1

end Task

/-! ## What a search proposes

An arrival that is not kept has been looked up all the same, so that the log does not tell of it. Each step
proposes arrivals of which it has just read the parts. -/

section Loops

variable {ε α β : Type}

/-- Whatever a loop proposes has a property, if each step proposes only what has it and keeps an invariant that
may speak of the elements that are left. -/
theorem forall_loopOffers {P : Offer → Prop} {I : β → List α → Prop} {step : β → α → Except ε β}
    {offers : β → α → List Offer}
    (hstep : ∀ b a rest, I b (a :: rest) → (∀ o ∈ offers b a, P o) ∧ ∀ b', step b a = .ok b' → I b' rest)
    (l : List α) {b : β} (h : I b l) : ∀ o ∈ loopOffers step offers b l, P o := by
  induction l generalizing b with
  | nil => exact fun o ho => by cases ho
  | cons a l ih =>
    obtain ⟨hoffers, hnext⟩ := hstep b a l h
    intro o ho
    rcases List.mem_append.1 ho with ho | ho
    · exact hoffers o ho
    · cases hb : step b a with
      | error e =>
        rw [hb] at ho
        cases ho
      | ok b' =>
        rw [hb] at ho
        exact ih (hnext b' hb) o ho

/-- The same of a loop whose steps need no invariant. -/
theorem forall_loopOffers_of_mem {P : Offer → Prop} {step : β → α → Except ε β} {offers : β → α → List Offer}
    {l : List α} (hoffers : ∀ b, ∀ a ∈ l, ∀ o ∈ offers b a, P o) (b : β) :
    ∀ o ∈ loopOffers step offers b l, P o := by
  refine forall_loopOffers (I := fun _ rest => ∀ a ∈ rest, a ∈ l) (fun b a rest hrest => ⟨?_, fun _ _ => ?_⟩) l
    (fun _ h => h)
  · exact hoffers b a (hrest a (by simp))
  · exact fun x hx => hrest x (by simp [hx])

theorem forall_offersAfter {P : Offer → Prop} {x : Except ε α} {offers : α → List Offer}
    (h : ∀ a, x = .ok a → ∀ o ∈ offers a, P o) : ∀ o ∈ offersAfter x offers, P o := by
  cases x with
  | error e => exact fun o ho => by cases ho
  | ok a => exact h a rfl

end Loops

namespace Task

variable {σ : Type} [ArrivalStore σ] {task : Task} {departure : Time} {round : Nat}

/-- The proposal names what is there. -/
def HasOffer (task : Task) (o : Offer) : Prop := task.HasArrival o.arrival

theorem offersOf_has {p : Progress σ} {as : List Arrival} (h : ∀ a ∈ as, task.HasArrival a) :
    ∀ o ∈ task.offersOf departure p as, task.HasOffer o := by
  refine forall_loopOffers_of_mem (fun b a ha o ho => ?_) p
  rw [List.mem_singleton.1 ho]
  exact h a ha

theorem seedOffers_has (hready : task.Ready) (p : Progress σ) :
    ∀ o ∈ task.seedOffers departure round p, task.HasOffer o := by
  refine offersOf_has fun a ha => ?_
  obtain ⟨⟨path, number⟩, hmem, ha⟩ := List.mem_filterMap.1 ha
  have hpath : task.request.access[number]? = some path := by simpa using List.mem_zipIdx_iff_getElem?.1 hmem
  obtain ⟨_, _, _, rfl⟩ := accessArrival?_eq ha
  exact ⟨hready.access_lt path (List.mem_of_getElem? hpath), (List.getElem?_eq_some_iff.1 hpath).1⟩

/-- The passenger is on a run of the route that has been boarded before position `limit`. -/
def Aboard (route : Route) (limit : Position) (rider : Rider) : Prop :=
  route.Offers rider.run ∧ rider.boardPosition < limit

theorem boardAll_aboard (hready : task.Ready) {route : Route}
    (hroute : task.network.routes[route.index]? = some route) {p : Position} (hp : p < route.pattern.size) {store : σ}
    {riders riders' : List Rider} {ids : List Nat} (h : task.boardAll route p store riders ids = .ok riders')
    (hriders : ∀ r ∈ riders, Aboard route (p + 1) r) : ∀ r ∈ riders', Aboard route (p + 1) r := by
  refine of_foldlM_eq_ok (P := fun _ riders => ∀ r ∈ riders, Aboard route (p + 1) r) h hriders ?_
  intro _ id _ riders riders' _ hriders h
  obtain ⟨rider?, hrider, h⟩ := of_bind_eq_ok h
  cases rider? with
  | none =>
    cases h
    exact hriders
  | some rider =>
    cases h
    obtain ⟨a, -, hrider⟩ := of_bind_eq_ok hrider
    obtain ⟨last, -, hrider⟩ := of_bind_eq_ok hrider
    obtain ⟨run?, hfind, hrider⟩ := of_bind_eq_ok hrider
    have hboard := board?_of_findRun hfind
    have haboard : Aboard route (p + 1) rider := by
      cases run? with
      | none => cases hrider
      | some run =>
        cases hrider
        exact ⟨(board?_spec hready.network hroute hp hboard).1, Nat.lt_succ_self p⟩
    intro r hr
    rcases (addRider_spec _ _ _ _).1 r hr with hr | rfl
    · exact hriders r hr
    · exact haboard

/-- Those who are on board at a position have boarded before it, and before all positions that are left. -/
theorem routeOffers_has (hready : task.Ready) (p : Progress σ) (index : RouteIndex) :
    ∀ o ∈ task.routeOffers departure round p index, task.HasOffer o := by
  refine forall_offersAfter fun route hindex => ?_
  obtain hget : task.network.routes[index]? = some route := by
    unfold Network.route? at hindex
    split at hindex
    · rename_i hget
      rw [hget, Except.ok.inj hindex]
    · cases hindex
  have hroute : task.network.routes[route.index]? = some route := by
    rw [hready.network.route_index index route hget]
    exact hget
  refine forall_loopOffers (I := fun state rest => (∀ place ∈ rest, place.2 < route.pattern.size ∧
      place.1 = route.pattern.stop place.2 ∧ ∀ r ∈ state.2, Aboard route place.2 r) ∧
      rest.Pairwise fun a b => a.2 < b.2) ?_ _ ⟨fun place hplace => ?_, ?_⟩
  · rintro ⟨p, riders⟩ ⟨stop, q⟩ rest ⟨hplaces, hsorted⟩
    obtain ⟨hlater, hsorted⟩ := List.pairwise_cons.1 hsorted
    obtain ⟨hq, hstop, haboard⟩ := hplaces (stop, q) (by simp)
    refine ⟨offersOf_has fun a ha => ?_, fun state' hstep => ⟨fun place hplace => ?_, hsorted⟩⟩
    · obtain ⟨r, hr, rfl⟩ := List.mem_map.1 ha
      obtain ⟨hoffers, hbefore⟩ := haboard r hr
      refine ⟨?_, route, r.run, hroute, hoffers, rfl, hoffers.schedule_size, hbefore, hq⟩
      show stop < _
      rw [show stop = _ from hstop]
      exact hready.network.stop_lt hroute hq
    · obtain ⟨hsize, hstop', -⟩ := hplaces place (by simp [hplace])
      refine ⟨hsize, hstop', fun r hr => ?_⟩
      have hriders : ∀ r ∈ riders, Aboard route (q + 1) r := fun r hr =>
        ⟨(haboard r hr).1, Nat.lt_succ_of_lt (haboard r hr).2⟩
      have hriders' : ∀ r ∈ state'.2, Aboard route (q + 1) r := by
        obtain ⟨p', -, hstep⟩ := of_bind_eq_ok hstep
        split at hstep
        · cases hstep
          exact hriders
        · obtain ⟨ids, -, hstep⟩ := of_bind_eq_ok hstep
          obtain ⟨riders', hboard, hstep⟩ := of_bind_eq_ok hstep
          cases hstep
          exact boardAll_aboard hready hroute hq hboard hriders
      exact ⟨(hriders' r hr).1, Nat.lt_of_lt_of_le (hriders' r hr).2 (hlater place hplace)⟩
  · obtain ⟨stop, q⟩ := place
    have hget : route.pattern.stops[q]? = some stop := by simpa using List.mem_zipIdx_iff_getElem?.1 hplace
    obtain ⟨hq, heq⟩ := Array.getElem?_eq_some_iff.1 hget
    exact ⟨hq, heq ▸ (StopPattern.stop_eq_getElem hq).symm, fun r hr => by cases hr⟩
  · rw [List.pairwise_iff_getElem]
    intro i j hi hj hij
    simpa using hij

theorem walkOffers_has (hready : task.Ready) (hrows : task.network.HasRows) (source : Stop) (p : Progress σ) (id : Nat) :
    ∀ o ∈ task.walkOffers departure round source p id, task.HasOffer o := by
  refine forall_offersAfter fun a _ => offersOf_has fun b hb => ?_
  obtain ⟨⟨t, number⟩, hmem, rfl⟩ := List.mem_map.1 hb
  have ht : (task.network.transfersFrom source)[number]? = some t := by
    simpa using List.mem_zipIdx_iff_getElem?.1 (List.mem_filter.1 hmem).1
  have hsource : source < task.network.stopCount := by
    rw [← hrows.transfers_size]
    refine Nat.not_le.1 fun hle => ?_
    rw [Network.transfersFrom, Array.getD_eq_getD_getElem?, Array.getElem?_eq_none hle] at ht
    cases ht
  exact ⟨hready.network.transfer_target _ _ (List.mem_of_getElem? ht), hsource, (List.getElem?_eq_some_iff.1 ht).1⟩

theorem roundOffers_has (hready : task.Ready) (hrows : task.network.HasRows) (p : Progress σ) :
    ∀ o ∈ task.roundOffers departure round p, task.HasOffer o := by
  intro o ho
  unfold roundOffers at ho
  rcases List.mem_append.1 ho with ho | ho
  · exact forall_loopOffers_of_mem (fun p index _ => routeOffers_has hready p index) _ o ho
  · refine forall_offersAfter (fun p1 _ o ho => ?_) o ho
    rcases List.mem_append.1 ho with ho | ho
    · exact seedOffers_has hready p1 o ho
    · refine forall_offersAfter (fun p2 _ => forall_loopOffers_of_mem (fun p3 source _ => ?_) p2) o ho
      exact forall_offersAfter fun ids _ =>
        forall_loopOffers_of_mem (fun p4 id _ => walkOffers_has hready hrows source p4 id) p3

theorem roundsOffers_has (hready : task.Ready) (hrows : task.network.HasRows) (left : Nat) {round : Nat}
    (p : Progress σ) : ∀ o ∈ task.roundsOffers departure left round p, task.HasOffer o := by
  induction left generalizing round p with
  | zero => exact fun o ho => by cases ho
  | succ left ih =>
    intro o ho
    unfold roundsOffers at ho
    split at ho
    · cases ho
    · rcases List.mem_append.1 ho with ho | ho
      · exact roundOffers_has hready hrows p o ho
      · refine forall_offersAfter (fun p' _ o ho => ?_) o ho
        split at ho
        · cases ho
        · exact ih p' o ho

theorem iterationsOffers_has (hready : task.Ready) (hrows : task.network.HasRows) (departures : List Time)
    {iteration : Nat} (p : Progress σ) : ∀ o ∈ task.iterationsOffers iteration departures p, task.HasOffer o := by
  induction departures generalizing iteration p with
  | nil => exact fun o ho => by cases ho
  | cons departure departures ih =>
    intro o ho
    rcases List.mem_append.1 ho with ho | ho
    · rcases List.mem_append.1 ho with ho | ho
      · exact seedOffers_has hready _ o ho
      · exact forall_offersAfter (fun p' _ => roundsOffers_has hready hrows _ p') o ho
    · refine forall_offersAfter (fun r _ o ho => ?_) o ho
      split at ho
      · cases ho
      · exact ih r.1 o ho

/-- The search that starts with the store succeeds, unless it stops where a sum does not fit. Whatever it proposes or
keeps names what is there. -/
def RunsIntact (task : Task) (store : σ) : Prop :=
  (∀ o ∈ task.runOffers store, task.HasOffer o) ∧
    GivesInRange (task.run store) fun outcome => task.Intact (log outcome.store) outcome.goals.items

/-- With either store a search on a built network keeps to what is there. -/
theorem runsIntact_of_isBuilt {net : Network} (hnet : net.IsBuilt) {settings : Settings} {request : Request}
    {clock : Clock} (hready : (ofRequest net settings request clock).Ready) :
    (ofRequest net settings request clock).RunsIntact (EarliestArrivals.init net.stopCount settings.maxRounds) ∧
      (ofRequest net settings request clock).RunsIntact
        (ArrivalFrontiers.init net.stopCount settings.frontierSize) := by
  have hrows : (ofRequest net settings request clock).network.HasRows := Network.hasRows_of_isBuilt hnet
  obtain ⟨hearliest, hfrontiers⟩ := runs_give hready
  exact ⟨⟨iterationsOffers_has hready hrows _ _, hearliest.mono fun _ h => h.intact hready⟩,
    ⟨iterationsOffers_has hready hrows _ _, hfrontiers.mono fun _ h => h.intact hready⟩⟩

end Task

/-! ## Refusals -/

/-- No request is refused for what a network lacks, other than its stops. -/
theorem Request.check_ne_brokenNetwork {request : Request} {stops : Nat} {e : SearchError}
    (h : request.check stops = .error e) (missing : OutOfRange) : e ≠ .brokenNetwork missing := by
  rintro rfl
  unfold check at h
  split at h
  · rename_i hdefect
    obtain rfl := Except.error.inj h
    unfold defect? at hdefect
    split at hdefect
    · cases hdefect
    · split at hdefect
      · cases hdefect
      · split at hdefect
        · cases hdefect
        · split at hdefect
          · cases hdefect
          · obtain ⟨_, _, h⟩ := Option.map_eq_some_iff.1 hdefect
            cases h
  · cases h

namespace Network

variable {net : Network} {settings : Settings} {request : Request} {clock : Clock}

theorem plan_refused {e : SearchError} (h : net.task? settings request clock = .error e) :
    net.plan settings request clock = .error e ∧ net.planObserved settings request clock = .error e := by
  unfold plan planObserved
  rw [h]
  exact ⟨rfl, rfl⟩

/-- What a plan comes to, watched or not: the same result, or the same stop where a sum does not fit. -/
def Answered (net : Network) (settings : Settings) (request : Request) (clock : Clock) : Prop :=
  (∃ result events, net.plan settings request clock = .ok result ∧
      net.planObserved settings request clock = .ok (result, events)) ∨
    net.plan settings request clock = .error (.brokenNetwork .sum) ∧
      net.planObserved settings request clock = .error (.brokenNetwork .sum)

theorem answered_of_check (hnet : net.IsBuilt) (hsettings : settings.check = .ok ())
    (hrequest : request.check net.stopCount = .ok ()) (clock : Clock) : net.Answered settings request clock := by
  have hwatched := net.plan_watched settings request clock
  rcases plan_gives hnet hsettings hrequest clock with ⟨result, hplan, -⟩ | ⟨_, hplan, rfl⟩
  · rw [hplan] at hwatched
    obtain ⟨⟨_, events⟩, hobserved, rfl, -⟩ := hwatched.of_ok
    exact .inl ⟨_, events, hplan, hobserved⟩
  · rw [hplan] at hwatched
    generalize hobserved : net.planObserved settings request clock = observed at hwatched
    cases hwatched
    exact .inr ⟨hplan, hobserved⟩

/-- A built network refuses settings that a search cannot work with, then a request that it cannot answer, and
for the reason that the check has found. Any other request is answered, watched or not, with the same result,
unless the search stops where a sum does not fit. With either store it keeps to what is there, wherever the clock
breaks it off. -/
theorem plan_refused_or_answered (hnet : net.IsBuilt) (settings : Settings) (request : Request) (clock : Clock) :
    match settings.check, request.check net.stopCount with
    | .error e, _ =>
      net.plan settings request clock = .error (.badSettings e) ∧
        net.planObserved settings request clock = .error (.badSettings e)
    | .ok (), .error e =>
      net.plan settings request clock = .error e ∧ net.planObserved settings request clock = .error e ∧
        ∀ missing, e ≠ .brokenNetwork missing
    | .ok (), .ok () =>
      net.Answered settings request clock ∧ net.HasRows ∧
        (Task.ofRequest net settings request clock).RunsIntact
          (EarliestArrivals.init net.stopCount settings.maxRounds) ∧
        (Task.ofRequest net settings request clock).RunsIntact
          (ArrivalFrontiers.init net.stopCount settings.frontierSize) := by
  cases hsettings : settings.check with
  | error e => exact plan_refused (by rw [task?, hsettings]; rfl)
  | ok _ =>
    cases hrequest : request.check net.stopCount with
    | error e =>
      have htask : net.task? settings request clock = .error e := by
        rw [task?, hsettings, hrequest]
        rfl
      obtain ⟨hplan, hobserved⟩ := plan_refused htask
      exact ⟨hplan, hobserved, Request.check_ne_brokenNetwork hrequest⟩
    | ok _ =>
      have hready := Task.ready_of_check hnet hsettings hrequest clock
      exact ⟨answered_of_check hnet hsettings hrequest clock, hasRows_of_isBuilt hnet,
        Task.runsIntact_of_isBuilt hnet hready⟩

/-- The request for the ferry is answered, though the search is broken off. -/
theorem ferry_answered : ferry.IsBuilt ∧ (∃ result events, ferry.plan .hasty .overFerry .slow = .ok result ∧
      ferry.planObserved .hasty .overFerry .slow = .ok (result, events) ∧ result.timedOut = true) ∧ ferry.HasRows ∧
    (Task.ofRequest ferry .hasty .overFerry .slow).RunsIntact
      (EarliestArrivals.init ferry.stopCount Settings.hasty.maxRounds) ∧
    (Task.ofRequest ferry .hasty .overFerry .slow).RunsIntact
      (ArrivalFrontiers.init ferry.stopCount Settings.hasty.frontierSize) := by
  have h := plan_refused_or_answered ferry_isBuilt .hasty .overFerry .slow
  rw [Settings.check_hasty, Request.check_overFerry] at h
  obtain ⟨hanswered, h⟩ := h
  obtain ⟨result, events, hplan, hobserved⟩ := hanswered.resolve_right fun hstops => sumsFit_hastyFerry hstops.1
  exact ⟨ferry_isBuilt, ⟨result, events, hplan, hobserved, (plan_hastyFerry hplan).1⟩, h⟩

end Network

end JourneyPlanner
