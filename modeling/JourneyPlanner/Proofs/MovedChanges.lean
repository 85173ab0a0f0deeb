import Mathlib.Data.List.Sort
import JourneyPlanner.Proofs.Feasibility
import JourneyPlanner.Proofs.Ranking
/-!
# What moving changes keeps

Moving the changes of an itinerary leaves each ride on its run, and leaves alone what comes before the
first boarding and after the last alighting. A moved change is made at one stop, or by a quickest
transfer between two. `Network.reconnect_keeps` says so of every itinerary that a search tells, before
any of them are dropped.
-/
namespace JourneyPlanner

open ArrivalStore (log)

/-! ## Quickest transfers -/

namespace Network

/-- No transfer between the two stops is quicker. -/
structure IsQuickest (net : Network) (source target : Stop) (transfer : Transfer) : Prop where
  mem : transfer ∈ net.transfersFrom source
  target_eq : transfer.target = target
  duration_le : ∀ t ∈ net.transfersFrom source, t.target = target → transfer.duration ≤ t.duration

theorem duration_le_of_foldl_quicker (ts : List Transfer) {best : Option Transfer} {transfer : Transfer}
    (h : ts.foldl quicker best = some transfer) :
    (∀ b, best = some b → transfer.duration ≤ b.duration) ∧ ∀ t ∈ ts, transfer.duration ≤ t.duration := by
  induction ts generalizing best with
  | nil =>
    obtain rfl : best = some transfer := h
    exact ⟨fun b hb => by rw [Option.some.inj hb], fun t ht => by cases ht⟩
  | cons t ts ih =>
    obtain ⟨hbest, hrest⟩ := ih h
    -- The quicker of the two is no slower than either.
    obtain ⟨q, hq, hqt, hqb⟩ : ∃ q, quicker best t = some q ∧ q.duration ≤ t.duration ∧
        ∀ b, best = some b → q.duration ≤ b.duration := by
      cases best with
      | none => exact ⟨t, rfl, Int.le_refl _, fun b hb => by cases hb⟩
      | some b =>
        by_cases hlt : t.duration < b.duration
        · exact ⟨t, if_pos hlt, Int.le_refl _, fun b' hb => by cases hb; exact Int.le_of_lt hlt⟩
        · exact ⟨b, if_neg hlt, Int.not_lt.1 hlt, fun b' hb => by cases hb; exact Int.le_refl _⟩
    have hle := hbest q hq
    refine ⟨fun b hb => Int.le_trans hle (hqb b hb), fun t' ht' => ?_⟩
    rcases List.mem_cons.1 ht' with rfl | ht'
    · exact Int.le_trans hle hqt
    · exact hrest t' ht'

theorem isQuickest_of_transferBetween? {net : Network} {source target : Stop} {transfer : Transfer}
    (h : net.transferBetween? source target = some transfer) : net.IsQuickest source target transfer := by
  obtain ⟨hmem, htarget⟩ := Task.mem_of_transferBetween? h
  refine ⟨hmem, htarget, fun t ht hto => ?_⟩
  exact (duration_le_of_foldl_quicker _ h).2 t (List.mem_filter.2 ⟨ht, by simpa using hto⟩)

end Network

/-! ## The rides of a row of legs -/

section Rows

variable {skipped walks walks' before after legs rest rest' : List Leg} {r r' : RideLeg}

/-- On the way to a ride, legs that are no rides are passed. -/
theorem exists_of_append_skipped (hskipped : ∀ x ∈ skipped, x.ride? = none)
    (h : skipped ++ legs = before ++ .ride r :: rest) :
    ∃ before', before = skipped ++ before' ∧ legs = before' ++ .ride r :: rest := by
  induction skipped generalizing before with
  | nil => exact ⟨before, rfl, h⟩
  | cons x skipped ih =>
    cases before with
    | nil =>
      obtain ⟨rfl, -⟩ := List.cons.inj h
      cases hskipped _ List.mem_cons_self
    | cons y before =>
      obtain ⟨rfl, hrest⟩ := List.cons.inj h
      obtain ⟨before', rfl, hlegs⟩ := ih (fun x hx => hskipped x (by simp [hx])) hrest
      exact ⟨before', rfl, hlegs⟩

/-- The first ride of a row stands at one place. -/
theorem walks_inj (h : walks ++ .ride r :: rest = walks' ++ .ride r' :: rest') (hwalks : ∀ x ∈ walks, x.ride? = none)
    (hwalks' : ∀ x ∈ walks', x.ride? = none) : walks = walks' ∧ r = r' ∧ rest = rest' := by
  obtain ⟨walks2, rfl, heq⟩ := exists_of_append_skipped hwalks h
  cases walks2 with
  | nil =>
    obtain ⟨hride, hrest⟩ := List.cons.inj heq
    exact ⟨(List.append_nil _).symm, Leg.ride.inj hride, hrest⟩
  | cons x walks2 =>
    obtain ⟨rfl, -⟩ := List.cons.inj heq
    cases hwalks' (.ride r) (by simp)

/-- Each two rides in a row are related, together with the legs between them. -/
def EachChange (P : RideLeg → List Leg → RideLeg → Prop) (legs : List Leg) : Prop :=
  ∀ before r walks r' after, legs = before ++ .ride r :: (walks ++ .ride r' :: after) →
    (∀ x ∈ walks, x.ride? = none) → P r walks r'

variable {P : RideLeg → List Leg → RideLeg → Prop}

/-- A single ride changes nowhere. -/
theorem EachChange.single (r : RideLeg) : EachChange P [.ride r] := by
  intro before r1 walks r2 after h
  have hlength := congrArg List.length h
  simp only [List.length_append, List.length_cons, List.length_nil] at hlength
  omega

theorem EachChange.cons (h : EachChange P (.ride r' :: rest)) (hwalks : ∀ x ∈ walks, x.ride? = none)
    (hP : P r walks r') : EachChange P (.ride r :: (walks ++ .ride r' :: rest)) := by
  intro before r1 walks1 r2 after heq hwalks1
  cases before with
  | nil =>
    obtain ⟨hride, heq⟩ := List.cons.inj heq
    obtain ⟨rfl, rfl, -⟩ := walks_inj heq hwalks hwalks1
    rw [← Leg.ride.inj hride]
    exact hP
  | cons x before =>
    obtain ⟨-, heq⟩ := List.cons.inj heq
    obtain ⟨before', -, heq⟩ := exists_of_append_skipped hwalks heq
    exact h before' r1 walks1 r2 after heq hwalks1

/-- Legs that are no rides may stand around it. -/
theorem EachChange.surround (h : EachChange P legs) (hbefore : ∀ x ∈ before, x.ride? = none)
    (hafter : ∀ x ∈ after, x.ride? = none) : EachChange P (before ++ legs ++ after) := by
  intro before1 r1 walks1 r2 after1 heq hwalks1
  rw [List.append_assoc] at heq
  obtain ⟨before2, -, heq⟩ := exists_of_append_skipped hbefore heq
  -- From the end it is the second ride that comes first.
  have hreverse : after.reverse ++ legs.reverse =
      after1.reverse ++ .ride r2 :: (before2 ++ .ride r1 :: walks1).reverse := by
    rw [← List.reverse_append, heq]
    simp
  obtain ⟨after2, -, hlegs⟩ :=
    exists_of_append_skipped (fun x hx => hafter x (List.mem_reverse.1 hx)) hreverse
  have hlegs : legs = before2 ++ .ride r1 :: (walks1 ++ .ride r2 :: after2.reverse) := by
    rw [← List.reverse_reverse legs, hlegs]
    simp
  exact h before2 r1 walks1 r2 after2.reverse hlegs hwalks1

end Rows

/-! ## The legs of linked rides -/

namespace Itinerary

/-- The legs before the first ride. -/
def beforeRides (it : Itinerary) : List Leg := it.legs.takeWhile fun l => !Task.isRide l

/-- The legs after the last ride. -/
def afterRides (it : Itinerary) : List Leg := (it.legs.reverse.takeWhile fun l => !Task.isRide l).reverse

theorem ride?_of_mem_takeWhile {legs : List Leg} {x : Leg} (h : x ∈ legs.takeWhile fun l => !Task.isRide l) :
    x.ride? = none := by
  simpa [Task.isRide] using List.all_eq_true.1 List.all_takeWhile x h

theorem ride?_of_mem_beforeRides {it : Itinerary} : ∀ x ∈ it.beforeRides, x.ride? = none :=
  fun _ => ride?_of_mem_takeWhile

theorem ride?_of_mem_afterRides {it : Itinerary} : ∀ x ∈ it.afterRides, x.ride? = none :=
  fun _ hx => ride?_of_mem_takeWhile (List.mem_reverse.1 hx)

end Itinerary

namespace Task

variable {task : Task}

/-- Two rides meet at one stop, or at the two ends of a transfer than which none is quicker. -/
def Meets (task : Task) (r : RideLeg) (walks : List Leg) (r' : RideLeg) : Prop :=
  (r.alightStop = r'.boardStop ∧ walks = []) ∨
    r.alightStop ≠ r'.boardStop ∧ ∃ transfer, task.network.IsQuickest r.alightStop r'.boardStop transfer ∧
      walks = [.transfer
        { source := r.alightStop
          target := r'.boardStop
          departure := r.alightTime
          arrival := r.alightTime + transfer.duration
          cost := task.pricing.transferCost transfer
          metres := transfer.metres }]

section Linked

variable {board : Position} {first next : PlannedRide} {rides rest : List PlannedRide} {changes : List Change}

/-- A moved change leaves each ride on its run. -/
theorem runs_changedLegs (task : Task) (board : Position) (rides : List PlannedRide) (changes : List Change) :
    ((task.changedLegs board rides changes).filterMap Leg.ride?).map (fun r => (r.route, r.run)) =
      rides.map fun r => (r.leg.route, r.leg.run) := by
  induction rides generalizing board changes with
  | nil => rfl
  | cons ride rides ih =>
    cases changes with
    | nil =>
      simp only [changedLegs, List.filterMap_cons, Leg.ride?, List.map_cons, ih, partLeg]
    | cons change changes =>
      have hwalk : (change.transfer.map fun t => Leg.transfer (task.changeLeg ride change.alight t)).toList.filterMap
          Leg.ride? = [] := by
        cases change.transfer <;> rfl
      simp only [changedLegs, List.filterMap_cons, List.filterMap_append, hwalk, Leg.ride?, List.nil_append,
        List.map_cons, ih, partLeg]

/-- The first ride is boarded where it has to be. -/
theorem changedLegs_cons (task : Task) (board : Position) (first : PlannedRide) (rest : List PlannedRide)
    (changes : List Change) :
    ∃ q legs, task.changedLegs board (first :: rest) changes = .ride (partLeg first board q) :: legs := by
  cases changes with
  | nil => exact ⟨_, _, rfl⟩
  | cons change changes => exact ⟨_, _, rfl⟩

/-- The last ride is left where it was. -/
theorem Linked.changedLegs_concat (h : task.Linked board (first :: rest) changes) {last : PlannedRide}
    (hlast : (first :: rest).getLast? = some last) :
    ∃ legs p, task.changedLegs board (first :: rest) changes =
      legs ++ [.ride (partLeg last p last.leg.alightPosition)] := by
  induction rest generalizing first board changes with
  | nil =>
    obtain rfl : first = last := Option.some.inj hlast
    cases changes with
    | nil => exact ⟨[], board, rfl⟩
    | cons change changes => exact h.elim
  | cons next rest ih =>
    rw [List.getLast?_cons_cons] at hlast
    cases changes with
    | nil => exact h.elim
    | cons change changes =>
      obtain ⟨-, -, -, -, hlinked⟩ := h
      obtain ⟨legs, p, hlegs⟩ := ih hlinked hlast
      rw [changedLegs, hlegs, ← List.append_assoc, ← List.cons_append]
      exact ⟨_, p, rfl⟩

/-- A change that links two rides lets them meet. -/
theorem meets_of_changeTransfer? {alight q : Position} {transfer : Option Transfer} {start : Position}
    (h : task.changeTransfer? first alight next board = some transfer) :
    task.Meets (partLeg first start alight)
      (transfer.map fun t => Leg.transfer (task.changeLeg first alight t)).toList (partLeg next board q) := by
  simp only [changeTransfer?] at h
  split at h
  · rename_i hstop
    obtain rfl := Option.some.inj h
    exact .inl ⟨hstop, rfl⟩
  · rename_i hstop
    obtain ⟨t, ht, rfl⟩ := Option.map_eq_some_iff.1 h
    have hquickest := Network.isQuickest_of_transferBetween? ht
    refine .inr ⟨hstop, t, hquickest, ?_⟩
    show [Leg.transfer (task.changeLeg first alight t)] = _
    rw [changeLeg, hquickest.target_eq]
    rfl

/-- Each two of some linked rides meet. -/
theorem Linked.eachChange (h : task.Linked board (first :: rest) changes) :
    EachChange task.Meets (task.changedLegs board (first :: rest) changes) := by
  induction rest generalizing first board changes with
  | nil =>
    cases changes with
    | nil => exact .single _
    | cons change changes => exact h.elim
  | cons next rest ih =>
    cases changes with
    | nil => exact h.elim
    | cons change changes =>
      obtain ⟨-, -, htransfer, -, hlinked⟩ := h
      have hrest := ih hlinked
      obtain ⟨q, legs, hlegs⟩ := changedLegs_cons task change.board next rest changes
      rw [hlegs] at hrest
      rw [changedLegs, hlegs]
      refine hrest.cons (fun x hx => ?_) (meets_of_changeTransfer? htransfer)
      obtain ⟨_, -, rfl⟩ := Option.map_eq_some_iff.1 (Option.mem_toList.1 hx)
      rfl

end Linked

/-! ## Moved itineraries -/

/-- What moving the changes of `it` keeps when it makes `it'`. -/
structure Keeps (task : Task) (it it' : Itinerary) : Prop extends SameEnds it it' where
  /-- The legs make up the itinerary, and its cost is theirs. -/
  sound : task.Sound task.request.departure it'
  runs_eq : it'.rides.map (fun r => (r.route, r.run)) = it.rides.map fun r => (r.route, r.run)
  before_eq : it'.beforeRides = it.beforeRides
  after_eq : it'.afterRides = it.afterRides
  board_eq : it'.rides.head?.map (fun r => (r.boardPosition, r.boardTime)) =
    it.rides.head?.map fun r => (r.boardPosition, r.boardTime)
  alight_eq : it'.rides.getLast?.map (fun r => (r.alightPosition, r.alightTime)) =
    it.rides.getLast?.map fun r => (r.alightPosition, r.alightTime)
  board_lt_alight : ∀ r ∈ it'.rides, r.boardPosition < r.alightPosition
  meets : it' ≠ it → EachChange task.Meets it'.legs
  allowed : it' ≠ it → EachChange (fun r walks r' =>
    ChangeAllowed (task.network.changeRule? r r')
      (reachedBy (.ride r) walks + (task.settings.boardSlack + task.settings.transferSlack))
      (reachedBy (.ride r) walks) r.alightTime r'.boardTime) it'.legs

variable {it it' : Itinerary}

theorem Sound.board_lt_alight (h : task.Sound task.request.departure it) :
    ∀ r ∈ it.rides, r.boardPosition < r.alightPosition := by
  intro r hr
  obtain ⟨_, _, hreal⟩ := h.journey.ride_real r (mem_of_ride? hr)
  exact (hreal none).board_lt

/-- Left as it is, an itinerary keeps everything. -/
theorem Keeps.refl (h : task.Sound task.request.departure it) : task.Keeps it it where
  departure_eq := rfl
  arrival_eq := rfl
  transfers_eq := rfl
  sound := h
  runs_eq := rfl
  before_eq := rfl
  after_eq := rfl
  board_eq := rfl
  alight_eq := rfl
  board_lt_alight := h.board_lt_alight
  meets hne := absurd rfl hne
  allowed hne := absurd rfl hne

theorem improve?_eq (h : task.improve? it = .ok (some it')) : ∃ rides current best,
    task.plannedRides? (ridesOf it.legs) = .ok (some rides) ∧ task.currentScore? rides = .ok (some current) ∧
      task.bestChanges? rides = some best ∧ best.1 < current ∧ task.rebuild? it rides best.2 = some it' := by
  obtain ⟨rides?, hrides, h⟩ := of_bind_eq_ok h
  cases rides? with
  | none => cases h
  | some rides =>
    obtain ⟨current?, hcurrent, h⟩ := of_bind_eq_ok h
    cases current? with
    | none => cases h
    | some current =>
      simp only at h
      split at h
      · cases h
      · rename_i best changes hbest
        split at h
        · rename_i hless
          exact ⟨rides, current, (best, changes), hrides, hcurrent, hbest, hless, Except.ok.inj h⟩
        · cases h

/-- The new legs stand between the old ends. -/
theorem rebuild?_legs {rides : List PlannedRide} {changes : List Change} (h : task.rebuild? it rides changes = some it') :
    ∃ first rest, rides = first :: rest ∧
      it'.legs = it.beforeRides ++ task.changedLegs first.leg.boardPosition (first :: rest) changes ++ it.afterRides := by
  cases rides with
  | nil => cases h
  | cons first rest =>
    refine ⟨first, rest, rfl, ?_⟩
    simp only [rebuild?] at h
    generalize hlegs : it.legs.takeWhile (fun l => !isRide l) ++ _ ++ _ = legs at h
    cases hmade : Itinerary.ofLegs legs (task.pricing.legsCost legs) with
    | error e =>
      rw [hmade] at h
      cases h
    | ok it2 =>
      rw [hmade] at h
      obtain rfl := Option.some.inj h
      rw [Itinerary.legs_of_ofLegs hmade]
      exact hlegs.symm

/-- The rides of a journey are planned as they are. -/
theorem planned_of_sound (h : task.Sound task.request.departure it) {rides : List PlannedRide}
    (hplanned : task.plannedRides? (ridesOf it.legs) = .ok (some rides)) :
    rides.map (·.leg) = it.rides ∧ ∀ r ∈ rides, r.Real task := by
  have hentries : ∀ e ∈ ridesOf it.legs, ∃ route run, ∀ walk, PlannedRide.Real task ⟨e.1, walk, route, run⟩ := by
    intro e he
    refine h.journey.ride_real e.1 (mem_of_ride? ?_)
    rw [← map_fst_ridesOf]
    exact List.mem_map_of_mem he
  obtain ⟨_, heq, hlegs, hreal⟩ := (plannedRides?_gives _ hentries).of_eq hplanned
  obtain rfl := Option.some.inj heq
  rw [map_fst_ridesOf] at hlegs
  exact ⟨hlegs, hreal⟩

/-- Linked rides in place of those of an itinerary keep the ends. -/
theorem keeps_of_linked (hsound : task.Sound task.request.departure it') (hends : SameEnds it it')
    {first : PlannedRide} {rest : List PlannedRide} {changes : List Change}
    (hrides : (first :: rest).map (·.leg) = it.rides) (hreal : ∀ r ∈ first :: rest, r.Real task)
    (hlinked : task.Linked first.leg.boardPosition (first :: rest) changes)
    (hlegs : it'.legs = it.beforeRides ++ task.changedLegs first.leg.boardPosition (first :: rest) changes ++
      it.afterRides) : task.Keeps it it' := by
  have hbefore : ∀ x ∈ it.beforeRides, x.ride? = none := Itinerary.ride?_of_mem_beforeRides
  have hafter : ∀ x ∈ it.afterRides, x.ride? = none := Itinerary.ride?_of_mem_afterRides
  have hmeets := hlinked.eachChange.surround hbefore hafter
  have hruns := runs_changedLegs task first.leg.boardPosition (first :: rest) changes
  obtain ⟨last, hlast⟩ : ∃ last, (first :: rest).getLast? = some last := ⟨_, List.getLast?_eq_some_getLast (by simp)⟩
  obtain ⟨q, tail, hhead⟩ := changedLegs_cons task first.leg.boardPosition first rest changes
  obtain ⟨init, p, hconcat⟩ := hlinked.changedLegs_concat hlast
  generalize task.changedLegs first.leg.boardPosition (first :: rest) changes = legs at *
  have hrides' : it'.rides = legs.filterMap Leg.ride? := by
    rw [Itinerary.rides, hlegs, List.filterMap_append, List.filterMap_append, List.filterMap_eq_nil_iff.2 hbefore,
      List.filterMap_eq_nil_iff.2 hafter, List.nil_append, List.append_nil]
  have hfirst : first.leg.boardTime = first.run.departure first.leg.boardPosition :=
    congrArg RideLeg.boardTime (hreal first (by simp)).leg_eq
  have hlastTime : last.leg.alightTime = last.run.arrival last.leg.alightPosition :=
    congrArg RideLeg.alightTime (hreal last (List.mem_of_getLast? hlast)).leg_eq
  refine { hends with
    sound := hsound
    runs_eq := ?_
    before_eq := ?_
    after_eq := ?_
    board_eq := ?_
    alight_eq := ?_
    board_lt_alight := hsound.board_lt_alight
    meets := fun _ => ?_
    allowed := fun _ before r walks r' after heq hwalks => hsound.journey.change heq hwalks }
  · rw [hrides', ← hrides, hruns, List.map_map]
    rfl
  · rw [Itinerary.beforeRides, hlegs, hhead, List.append_assoc, List.cons_append]
    exact takeWhile_notRide hbefore _ _
  · -- From the end, the last ride comes right after the legs that follow it.
    have hreverse : it'.legs.reverse = it.afterRides.reverse ++
        .ride (partLeg last p last.leg.alightPosition) :: (it.beforeRides ++ init).reverse := by
      rw [hlegs, hconcat]
      simp
    rw [Itinerary.afterRides, hreverse, takeWhile_notRide fun x hx => hafter x (List.mem_reverse.1 hx),
      List.reverse_reverse]
  · rw [hrides', ← hrides, hhead, List.map_cons, List.head?_cons, Option.map_some, hfirst]
    rfl
  · have hconcat' : legs.filterMap Leg.ride? =
        init.filterMap Leg.ride? ++ [partLeg last p last.leg.alightPosition] := by
      rw [hconcat, List.filterMap_append]
      rfl
    rw [hrides', ← hrides, hconcat', List.getLast?_concat, List.getLast?_map, hlast, Option.map_some, Option.map_some,
      Option.map_some, hlastTime]
    rfl
  · rw [hlegs]
    exact hmeets

/-- An itinerary that has been improved is kept. -/
theorem keeps_of_improve? (h : task.Sound task.request.departure it)
    (hlength : 2 ≤ (it.legs.filterMap Leg.ride?).length) (himprove : task.improve? it = .ok (some it')) :
    task.Keeps it it' := by
  obtain ⟨hsound, hends⟩ := (improve?_gives h hlength).of_eq himprove it' rfl
  obtain ⟨rides, _, best, hplanned, -, hbest, -, hrebuild⟩ := improve?_eq himprove
  obtain ⟨hrides, hreal⟩ := planned_of_sound h hplanned
  obtain ⟨first, rest, rfl, hlegs⟩ := rebuild?_legs hrebuild
  exact keeps_of_linked hsound hends hrides hreal (bestChanges?_linked (hreal first (by simp)) hbest) hlegs

/-- Moving changes succeeds, and keeps the itinerary. -/
theorem reconnect_keeps_of_sound (h : task.Sound task.request.departure it) :
    Gives (task.reconnect it) (task.Keeps it) := by
  obtain ⟨it', hreconnect, -⟩ := reconnect_gives h
  refine ⟨it', hreconnect, ?_⟩
  unfold reconnect at hreconnect
  split at hreconnect
  · cases hreconnect
    exact .refl h
  · rename_i hcond
    have hlength : 2 ≤ (it.legs.filterMap Leg.ride?).length := by
      simp only [Itinerary.rides] at hcond
      omega
    obtain ⟨o, himprove, hreconnect⟩ := of_bind_eq_ok hreconnect
    cases hreconnect
    cases o with
    | none => exact .refl h
    | some it' => exact keeps_of_improve? h hlength himprove

/-- The search that starts with the store tells its goals, and each itinerary is kept when its changes are moved,
unless the search stops where a sum does not fit. -/
def ReconnectsAll {σ : Type} [ArrivalStore σ] (task : Task) (store : σ) : Prop :=
  GivesInRange (task.run store) fun outcome =>
    Gives (task.itineraries (log outcome.store) outcome.goals.items) fun its =>
      ∀ it ∈ its, Gives (task.reconnect it) (task.Keeps it)

theorem Searched.reconnectsAll {σ : Type} [ArrivalStore σ] [LawfulStore σ] {outcome : Outcome σ}
    (hready : task.Ready) (h : task.Searched outcome) :
    Gives (task.itineraries (log outcome.store) outcome.goals.items) fun its =>
      ∀ it ∈ its, Gives (task.reconnect it) (task.Keeps it) :=
  (itineraries_gives hready h).mono fun _ hits it hit => reconnect_keeps_of_sound (hits.1 it hit)

end Task

/-- On a built network, moving the changes of an itinerary that a search with either store has told keeps the
journey: its runs, its ends and its times. Wherever a change has moved, it can be made. So it is wherever the
clock has broken the search off. -/
theorem Network.reconnect_keeps {net : Network} (hnet : net.IsBuilt) {settings : Settings}
    (hsettings : settings.check = .ok ()) {request : Request} (hrequest : request.check net.stopCount = .ok ())
    (clock : Clock) :
    (Task.ofRequest net settings request clock).ReconnectsAll
        (EarliestArrivals.init net.stopCount settings.maxRounds) ∧
      (Task.ofRequest net settings request clock).ReconnectsAll
        (ArrivalFrontiers.init net.stopCount settings.frontierSize) := by
  have hready := Task.ready_of_check hnet hsettings hrequest clock
  obtain ⟨hearliest, hfrontiers⟩ := Task.runs_give hready
  exact ⟨hearliest.mono fun _ h => h.reconnectsAll hready, hfrontiers.mono fun _ h => h.reconnectsAll hready⟩

/-! ## A change in the valley -/

/-- The way from a house by the mill to one in the port. -/
def Request.downValley : Request where
  departure := .hms 7 50 0
  latestArrival := none
  access := [.walk 0 60 60]
  egress := [.walk 3 60 60]
  weights := .standard

/-- The earliest arrival is told, with changes where they are most welcome. -/
def Settings.welcomeChanges : Settings :=
  { Settings.standard with
    maxTransfers := 1
    profile := .standard
    changes := .transferPriority }

/-- The routes to scan by a sort that the kernel can run. -/
theorem Task.routesToScan_eq_insertionSort (task : Task) (stops : List Stop) : task.routesToScan stops =
    ((stops.flatMap task.network.routesThrough).insertionSort (· ≤ ·)).eraseReps :=
  congrArg List.eraseReps (List.mergeSort_eq_insertionSort _ _)

/-- An itinerary that an evaluated search was seen to tell is among those it tells. -/
theorem Task.exists_of_told_any {task : Task} {store : EarliestArrivals} {outcome : Outcome EarliestArrivals}
    {its : List Itinerary} {f : Itinerary → Bool} (hrun : task.run store = .ok outcome)
    (hits : task.itineraries (ArrivalStore.log outcome.store) outcome.goals.items = .ok its)
    (h : ((task.run store).toOption.bind fun outcome =>
      (task.itineraries outcome.store.log outcome.goals.items).toOption).any (fun its => its.any f) = true) :
    ∃ it ∈ its, f it = true := by
  rw [hrun] at h
  simp only [Except.toOption, Option.bind_some] at h
  rw [show ArrivalStore.log outcome.store = outcome.store.log from rfl] at hits
  rw [hits] at h
  exact List.any_eq_true.1 h

/-- An evaluated search that was seen to tell something does not stop. -/
theorem Task.run_ne_error_of_told {task : Task} {store : EarliestArrivals} {f : List Itinerary → Bool}
    (h : ((task.run store).toOption.bind fun outcome =>
      (task.itineraries outcome.store.log outcome.goals.items).toOption).any f = true) (e : OutOfRange) :
    task.run store ≠ .error e := by
  intro hrun
  rw [hrun] at h
  cases h

namespace Network

/-- The search for a way down the valley changes at the bridge, and its change is moved. -/
theorem valley_moved : (((Task.ofRequest valley .welcomeChanges .downValley).run
    (EarliestArrivals.init valley.stopCount Settings.welcomeChanges.maxRounds)).toOption.bind fun outcome =>
      ((Task.ofRequest valley .welcomeChanges .downValley).itineraries outcome.store.log
        outcome.goals.items).toOption).any (fun its => its.any fun it =>
          ((Task.ofRequest valley .welcomeChanges .downValley).reconnect it).toOption.any fun it' =>
            it.rides.map (·.alightStop) = [1, 3] ∧ it'.rides.map (·.alightStop) = [2, 3]) = true := by
  have hdepartures : departureTimes (Task.ofRequest valley .welcomeChanges .downValley).request.departure
      (Task.ofRequest valley .welcomeChanges .downValley).settings.window
      (Task.ofRequest valley .welcomeChanges .downValley).settings.step = [.hms 7 50 0] := by decide +kernel
  have hrounds : (Task.ofRequest valley .welcomeChanges .downValley).settings.maxRounds = 2 := rfl
  simp only [Task.run, hdepartures, Task.runIterations, Task.runIteration, hrounds, Task.runRounds, Task.runRound,
    Task.routesToScan_eq_insertionSort]
  decide +kernel

/-- The change from one bus to the other is moved from the bridge to the market, and the journey is kept. -/
theorem valley_reconnect_keeps :
    valley.IsBuilt ∧ Settings.welcomeChanges.check = .ok () ∧ Request.downValley.check valley.stopCount = .ok () ∧
      Gives ((Task.ofRequest valley .welcomeChanges .downValley).run
        (EarliestArrivals.init valley.stopCount Settings.welcomeChanges.maxRounds)) fun outcome =>
          Gives ((Task.ofRequest valley .welcomeChanges .downValley).itineraries outcome.store.log
            outcome.goals.items) fun its => ∃ it ∈ its, ∃ it' ≠ it,
              (Task.ofRequest valley .welcomeChanges .downValley).reconnect it = .ok it' ∧
                (Task.ofRequest valley .welcomeChanges .downValley).Keeps it it' := by
  have hsettings : Settings.welcomeChanges.check = .ok () := Settings.check_of_defect? (by decide +kernel)
  have hrequest : Request.downValley.check valley.stopCount = .ok () := by
    have h : Request.downValley.defect? valley.stopCount = none := by decide +kernel
    unfold Request.check
    rw [h]
  obtain ⟨hkeeps, -⟩ := reconnect_keeps valley_isBuilt hsettings hrequest .still
  obtain ⟨outcome, hrun, its, hits, hkeeps⟩ := hkeeps.gives (Task.run_ne_error_of_told valley_moved _)
  refine ⟨valley_isBuilt, hsettings, hrequest, outcome, hrun, its, hits, ?_⟩
  obtain ⟨it, hit, hmoved⟩ := Task.exists_of_told_any hrun hits valley_moved
  obtain ⟨it', hreconnect, hkeep⟩ := hkeeps it hit
  rw [hreconnect] at hmoved
  refine ⟨it, hit, it', fun heq => ?_, hreconnect, hkeep⟩
  subst heq
  obtain ⟨hbridge, hmarket⟩ := of_decide_eq_true hmoved
  rw [hbridge] at hmarket
  cases hmarket

end Network

end JourneyPlanner
