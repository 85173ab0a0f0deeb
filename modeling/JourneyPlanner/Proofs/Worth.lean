import Mathlib.Algebra.Order.Ring.Int
import JourneyPlanner.Proofs.MovedChanges
/-!
# What moving changes is worth

The changes of an itinerary are moved only where a score says that this is better. `Task.worth` computes
from the legs alone what the settings want to be low: the objective, and then the cost. The score leaves out
what comes before the first boarding and after the last alighting, which is the same before and after, and it
finds the transfer of a walk again by its ends and its duration. Where that transfer costs what the walk does
(`Task.PricedAsWalked`), an itinerary is left as it is or becomes strictly better (`Network.reconnect_improves`).
-/
namespace JourneyPlanner

open ArrivalStore (log)

namespace Score

theorem add_lt_add_left_iff {a b c : Score} : a + b < a + c ↔ b < c := by
  show a.objective + b.objective < a.objective + c.objective ∨
    a.objective + b.objective = a.objective + c.objective ∧ a.cost + b.cost < a.cost + c.cost ↔
      b.objective < c.objective ∨ b.objective = c.objective ∧ b.cost < c.cost
  omega

theorem objective_add (a b : Score) : (a + b).objective = a.objective + b.objective := rfl

theorem cost_add (a b : Score) : (a + b).cost = a.cost + b.cost := rfl

end Score

/-! ## The changes of some legs -/

/-- Two rides in a row, and the transfer right after the first. -/
structure LegChange where
  first : RideLeg
  walk : Option TransferLeg
  second : RideLeg

/-- How long the second ride is waited for. -/
def LegChange.wait (c : LegChange) : Int := c.second.boardTime - c.walk.elim c.first.alightTime (·.arrival)

/-- The changes between some rides. -/
def changesOf : List (RideLeg × Option TransferLeg) → List LegChange
  | (r, w) :: (r', w') :: rest => ⟨r, w, r'⟩ :: changesOf ((r', w') :: rest)
  | _ => []

namespace Task

variable {task : Task}

/-- The terms in force for a change between two rides. -/
def termsBetween? (task : Task) (r r' : RideLeg) : Option ConnectionTerms :=
  match r.run.call? r.route r.alightPosition, r'.run.call? r'.route r'.boardPosition with
  | some a, some b => task.network.connections.lookup? a b
  | _, _ => none

/-- What a wait is worth. -/
def waitWorth (task : Task) (wait : Int) : Int :=
  nearestWorth (Float.ofInt (max wait 0) * task.settings.inverseWaitReluctance)

/-- What some legs are worth: the objective of the settings, and the cost. -/
def worth (task : Task) (legs : List Leg) : Score where
  objective :=
    match task.settings.changes with
    | .waitTime => task.pricing.legsCost legs - ((changesOf (ridesOf legs)).map fun c => task.waitWorth c.wait).sum
    | .transferPriority => ((changesOf (ridesOf legs)).map fun c => termsCost (task.termsBetween? c.first c.second)).sum
    | .asFound => task.pricing.legsCost legs
  cost := task.pricing.legsCost legs

/-! ## The score of a row of rides -/

/-- The cost of a ride without its boarding. -/
def legCost (task : Task) (r : RideLeg) : Int := task.pricing.rideCost r.route r.reluctance (r.alightTime - r.boardTime)

/-- The cost of a ride and the change after it. -/
def linkCost (task : Task) (c : LegChange) : Int :=
  task.legCost c.first + c.walk.elim 0 (·.cost) + task.pricing.boardingCost true c.wait c.second.accessibility

/-- The score of a cost that no change adds to. -/
def plainScore (task : Task) (cost : Int) : Score :=
  match task.settings.changes with
  | .transferPriority => ⟨0, cost⟩
  | _ => ⟨cost, cost⟩

def linkScore (task : Task) (c : LegChange) : Score :=
  match task.settings.changes with
  | .waitTime => ⟨task.linkCost c - task.waitWorth c.wait, task.linkCost c⟩
  | .transferPriority => ⟨termsCost (task.termsBetween? c.first c.second), task.linkCost c⟩
  | .asFound => ⟨task.linkCost c, task.linkCost c⟩

/-- The score of some rides and the changes between them. -/
def rowScore (task : Task) : List (RideLeg × Option TransferLeg) → Score
  | [] => .zero
  | [(r, _)] => task.plainScore (task.legCost r)
  | (r, w) :: (r', w') :: rest => task.linkScore ⟨r, w, r'⟩ + task.rowScore ((r', w') :: rest)

/-- The legs of some rides, with the walks between them. -/
def weave : List (RideLeg × Option TransferLeg) → List Leg
  | [] => []
  | [(r, _)] => [.ride r]
  | (r, w) :: e :: rest => .ride r :: ((w.map Leg.transfer).toList ++ weave (e :: rest))

theorem cost_plainScore (cost : Int) : (task.plainScore cost).cost = cost := by
  unfold plainScore
  split <;> rfl

theorem cost_linkScore (c : LegChange) : (task.linkScore c).cost = task.linkCost c := by
  unfold linkScore
  split <;> rfl

section Rows

variable {r : RideLeg} {w : Option TransferLeg} {rest : List (RideLeg × Option TransferLeg)} {before after : List Leg}

theorem weave_cons (r : RideLeg) (w : Option TransferLeg) (rest : List (RideLeg × Option TransferLeg)) :
    ∃ legs, weave ((r, w) :: rest) = .ride r :: legs := by
  cases rest with
  | nil => exact ⟨_, rfl⟩
  | cons e rest => exact ⟨_, rfl⟩

theorem weave_concat (r : RideLeg) (w : Option TransferLeg) (rest : List (RideLeg × Option TransferLeg)) :
    ∃ legs r', weave ((r, w) :: rest) = legs ++ [.ride r'] := by
  induction rest generalizing r w with
  | nil => exact ⟨[], r, rfl⟩
  | cons e rest ih =>
    obtain ⟨legs, r', hlegs⟩ := ih e.1 e.2
    rw [weave, hlegs, ← List.append_assoc, ← List.cons_append]
    exact ⟨_, r', rfl⟩

/-- Legs that are no rides cost the same whatever was paid before. -/
theorem total_of_notRide (pricing : Pricing) (h : ∀ x ∈ after, x.ride? = none) (bill : Pricing.Bill) :
    (after.foldl (Pricing.Bill.add pricing) bill).total =
      bill.total + (after.foldl (Pricing.Bill.add pricing) ⟨0, 0, none⟩).total := by
  have hstep : ∀ x : Leg, x.ride? = none →
      ∃ cost, ∀ bill, (Pricing.Bill.add pricing bill x).total = bill.total + cost := by
    intro x hx
    cases x with
    | ride l => cases hx
    | access l | transfer l | egress l => exact ⟨l.cost, fun _ => rfl⟩
  induction after generalizing bill with
  | nil => exact (Int.add_zero _).symm
  | cons x after ih =>
    obtain ⟨cost, hcost⟩ := hstep x (h x List.mem_cons_self)
    have hrest := ih fun y hy => h y (List.mem_cons_of_mem x hy)
    rw [List.foldl_cons, List.foldl_cons, hrest, hrest (Pricing.Bill.add pricing ⟨0, 0, none⟩ x), hcost, hcost]
    dsimp only
    omega

/-- The bill for some rides and the walks between them. -/
theorem total_weave (r : RideLeg) (w : Option TransferLeg) (rest : List (RideLeg × Option TransferLeg))
    (bill : Pricing.Bill) :
    ((weave ((r, w) :: rest)).foldl (Pricing.Bill.add task.pricing) bill).total =
      bill.total + task.pricing.boardingCost (decide (0 < bill.rides))
        (bill.waitingSince.elim 0 fun t => r.boardTime - t) r.accessibility +
        (task.rowScore ((r, w) :: rest)).cost := by
  induction rest generalizing r w bill with
  | nil =>
    rw [rowScore, cost_plainScore]
    rfl
  | cons e rest ih =>
    obtain ⟨r', w'⟩ := e
    rw [weave, List.foldl_cons, List.foldl_append, ih, rowScore, Score.cost_add, cost_linkScore]
    -- After a ride and a walk the next boarding counts its wait from the end of the walk.
    cases w with
    | none =>
      simp only [Option.map_none, Option.toList_none, List.foldl_nil, Pricing.Bill.add, Option.elim_some,
        Nat.zero_lt_succ, decide_true, linkCost, Option.elim_none, LegChange.wait, legCost]
      omega
    | some l =>
      simp only [Option.map_some, Option.toList_some, List.foldl_cons, List.foldl_nil, Pricing.Bill.add,
        Option.elim_some, Nat.zero_lt_succ, decide_true, linkCost, LegChange.wait, legCost]
      omega

/-- The objective of a row is made up as that of an itinerary. -/
theorem objective_rowScore (row : List (RideLeg × Option TransferLeg)) : (task.rowScore row).objective =
    match task.settings.changes with
    | .waitTime => (task.rowScore row).cost - ((changesOf row).map fun c => task.waitWorth c.wait).sum
    | .transferPriority => ((changesOf row).map fun c => termsCost (task.termsBetween? c.first c.second)).sum
    | .asFound => (task.rowScore row).cost := by
  induction row using rowScore.induct with
  | case1 => cases hchanges : task.settings.changes <;> rfl
  | case2 r w => cases hchanges : task.settings.changes <;> simp [rowScore, plainScore, changesOf, hchanges]
  | case3 r w r' w' rest ih =>
    rw [rowScore, Score.objective_add, Score.cost_add, changesOf, ih]
    cases hchanges : task.settings.changes with
    | waitTime =>
      simp only [linkScore, hchanges, List.map_cons, List.sum_cons]
      omega
    | transferPriority | asFound => simp only [linkScore, hchanges, List.map_cons, List.sum_cons]

theorem ridesOf_append_of_notRide (h : ∀ x ∈ before, x.ride? = none) (legs : List Leg) :
    ridesOf (before ++ legs) = ridesOf legs := by
  induction before with
  | nil => rfl
  | cons x before ih =>
    rw [List.cons_append]
    have hrest := ih fun y hy => h y (List.mem_cons_of_mem x hy)
    cases x with
    | ride l => cases h _ List.mem_cons_self
    | access l | transfer l | egress l => exact hrest

theorem ridesOf_ride (r : RideLeg) (legs : List Leg) : ∃ w row, ridesOf (.ride r :: legs) = (r, w) :: row := by
  cases legs with
  | nil => exact ⟨_, _, rfl⟩
  | cons x legs => cases x <;> exact ⟨_, _, rfl⟩

/-- The changes are those between the rides of the row. -/
theorem changesOf_weave (r : RideLeg) (w : Option TransferLeg) (rest : List (RideLeg × Option TransferLeg))
    (h : ∀ x ∈ after, x.ride? = none) :
    changesOf (ridesOf (weave ((r, w) :: rest) ++ after)) = changesOf ((r, w) :: rest) := by
  induction rest generalizing r w with
  | nil =>
    have hrides := map_fst_ridesOf (weave [(r, w)] ++ after)
    rw [List.filterMap_append, List.filterMap_eq_nil_iff.2 h] at hrides
    obtain ⟨e, heq, -⟩ := List.map_eq_singleton_iff.1 hrides
    rw [heq]
    rfl
  | cons e rest ih =>
    obtain ⟨r', w'⟩ := e
    have hrest := ih r' w'
    -- The row goes on with a ride, so that the walk in front of it is not the last leg.
    obtain ⟨legs, hlegs⟩ := weave_cons r' w' rest
    obtain ⟨w'', row, hrow⟩ := ridesOf_ride r' (legs ++ after)
    have hrides : ridesOf (weave ((r, w) :: (r', w') :: rest) ++ after) =
        (r, w) :: ridesOf (.ride r' :: (legs ++ after)) := by
      rw [weave, hlegs]
      cases w <;> rfl
    rw [hlegs, List.cons_append, hrow] at hrest
    rw [hrides, hrow]
    exact congrArg (⟨r, w, r'⟩ :: ·) hrest

/-- The cost of what stands around the rides, and of boarding the first of them. -/
def outerCost (task : Task) (before after : List Leg) (boardTime : Time) (accessibility : Accessibility) : Int :=
  let bill := before.foldl (Pricing.Bill.add task.pricing) ⟨0, 0, none⟩
  bill.total + task.pricing.boardingCost (decide (0 < bill.rides)) (bill.waitingSince.elim 0 fun t => boardTime - t)
    accessibility + (after.foldl (Pricing.Bill.add task.pricing) ⟨0, 0, none⟩).total

/-- Apart from what stands around the rides, the legs are worth the score of the row. -/
theorem worth_eq (hbefore : ∀ x ∈ before, x.ride? = none) (hafter : ∀ x ∈ after, x.ride? = none) :
    task.worth (before ++ weave ((r, w) :: rest) ++ after) =
      task.plainScore (task.outerCost before after r.boardTime r.accessibility) + task.rowScore ((r, w) :: rest) := by
  have hcost : task.pricing.legsCost (before ++ weave ((r, w) :: rest) ++ after) =
      task.outerCost before after r.boardTime r.accessibility + (task.rowScore ((r, w) :: rest)).cost := by
    unfold Pricing.legsCost outerCost
    rw [List.foldl_append, List.foldl_append, total_of_notRide _ hafter, total_weave]
    dsimp only
    omega
  have hchanges : changesOf (ridesOf (before ++ weave ((r, w) :: rest) ++ after)) = changesOf ((r, w) :: rest) := by
    rw [List.append_assoc, ridesOf_append_of_notRide hbefore, changesOf_weave _ _ _ hafter]
  refine Score.ext ?_ ?_
  · rw [Score.objective_add, objective_rowScore]
    unfold worth plainScore
    dsimp only
    rw [hchanges, hcost]
    cases task.settings.changes with
    | waitTime => exact Int.add_sub_assoc ..
    | transferPriority => exact (Int.zero_add _).symm
    | asFound => rfl
  · rw [Score.cost_add, cost_plainScore]
    exact hcost

end Rows

/-! ## The score of the chosen changes -/

/-- The rides with the given changes, and the walks between them. -/
def entriesOf (task : Task) (board : Position) : List PlannedRide → List Change → List (RideLeg × Option TransferLeg)
  | [], _ => []
  | ride :: rides, [] => (partLeg ride board ride.leg.alightPosition, none) :: task.entriesOf board rides []
  | ride :: rides, change :: changes =>
    (partLeg ride board change.alight, change.transfer.map (task.changeLeg ride change.alight)) ::
      task.entriesOf change.board rides changes

section Chosen

variable {board : Position} {first next : PlannedRide} {rest : List PlannedRide} {changes : List Change}

theorem entriesOf_cons (task : Task) (board : Position) (first : PlannedRide) (rest : List PlannedRide)
    (changes : List Change) :
    ∃ q w row, task.entriesOf board (first :: rest) changes = (partLeg first board q, w) :: row := by
  cases changes with
  | nil => exact ⟨_, _, _, rfl⟩
  | cons change changes => exact ⟨_, _, _, rfl⟩

theorem Linked.changedLegs_eq (h : task.Linked board (first :: rest) changes) :
    task.changedLegs board (first :: rest) changes = weave (task.entriesOf board (first :: rest) changes) := by
  induction rest generalizing first board changes with
  | nil =>
    cases changes with
    | nil => rfl
    | cons change changes => exact h.elim
  | cons next rest ih =>
    cases changes with
    | nil => exact h.elim
    | cons change changes =>
      obtain ⟨-, -, -, -, hlinked⟩ := h
      obtain ⟨q, w, row, hrow⟩ := entriesOf_cons task change.board next rest changes
      rw [changedLegs, ih hlinked, entriesOf, hrow, weave]
      cases change.transfer <;> rfl

/-- A change between two rides has the score of the legs that it makes. -/
theorem changeScore_eq (hfirst : first.Real task) (hnext : next.Real task) (start alight q : Position)
    (transfer : Option Transfer) : task.changeScore first start alight next board transfer =
      task.linkScore ⟨partLeg first start alight, transfer.map (task.changeLeg first alight), partLeg next board q⟩ := by
  have hwait : next.run.departure board - atStop first alight transfer =
      LegChange.wait ⟨partLeg first start alight, transfer.map (task.changeLeg first alight), partLeg next board q⟩ := by
    cases transfer with
    | none =>
      unfold atStop
      rw [Option.elim_none, Time.add_zero]
      rfl
    | some t => rfl
  have hcost : (transfer.map (task.changeLeg first alight)).elim 0 (·.cost) =
      transfer.elim 0 task.pricing.transferCost := by
    cases transfer <;> rfl
  have hterms : task.changeTerms? first alight next board =
      task.termsBetween? (partLeg first start alight) (partLeg next board q) := by
    unfold changeTerms? termsBetween?
    rw [PlannedRide.call?_eq, PlannedRide.call?_eq, ← hfirst.route_eq, ← hnext.route_eq]
    rfl
  unfold changeScore linkScore linkCost
  rw [hwait, hterms, hcost]
  unfold partCost legCost
  rw [← hfirst.route_eq]
  rfl

theorem lastScore_eq (hfirst : first.Real task) (board q : Position) :
    task.lastScore first board q = task.plainScore (task.legCost (partLeg first board q)) := by
  unfold lastScore plainScore partCost legCost
  rw [← hfirst.route_eq]
  rfl

/-- Linked rides have the score of the legs that they make. -/
theorem Linked.totalScore_eq (h : task.Linked board (first :: rest) changes)
    (hreal : ∀ r ∈ first :: rest, r.Real task) :
    task.totalScore board (first :: rest) changes = task.rowScore (task.entriesOf board (first :: rest) changes) := by
  induction rest generalizing first board changes with
  | nil =>
    cases changes with
    | nil => exact lastScore_eq (hreal first (by simp)) board _
    | cons change changes => exact h.elim
  | cons next rest ih =>
    cases changes with
    | nil => exact h.elim
    | cons change changes =>
      obtain ⟨-, -, -, -, hlinked⟩ := h
      obtain ⟨q, w, row, hrow⟩ := entriesOf_cons task change.board next rest changes
      have hrest := ih hlinked fun r hr => hreal r (List.mem_cons_of_mem first hr)
      rw [totalScore, hrest, entriesOf, hrow, rowScore, changeScore_eq (hreal first (by simp)) (hreal next (by simp))]

end Chosen

/-! ## The score of the changes as they are -/

/-- The transfer of the network that the walk is matched to takes from the ride to the end of the walk, and costs
what the walk does. -/
def Rematches (task : Task) (r : RideLeg) (w : TransferLeg) : Prop :=
  ∃ t, task.walkedTransfer? w = some t ∧ r.alightTime + t.duration = w.arrival ∧ task.pricing.transferCost t = w.cost

/-- Of a walk it is the end and the cost that count. -/
theorem linkScore_congr {r r' : RideLeg} {w w' : TransferLeg} (harrival : w.arrival = w'.arrival)
    (hcost : w.cost = w'.cost) : task.linkScore ⟨r, some w, r'⟩ = task.linkScore ⟨r, some w', r'⟩ := by
  unfold linkScore linkCost LegChange.wait
  simp only [Option.elim_some, harrival, hcost]

/-- A change that is matched to the network has the score of its legs. -/
theorem changeScore_walkAfter? {first second : PlannedRide} (hfirst : first.Real task) (hsecond : second.Real task)
    (hwalk : ∀ w, first.walk = some w → task.Rematches first.leg w) {transfer : Option Transfer}
    (h : task.walkAfter? first = some transfer) :
    task.changeScore first first.leg.boardPosition first.leg.alightPosition second second.leg.boardPosition transfer =
      task.linkScore ⟨first.leg, first.walk, second.leg⟩ := by
  rw [changeScore_eq hfirst hsecond _ _ second.leg.alightPosition, hfirst.partLeg_self, hsecond.partLeg_self]
  unfold walkAfter? at h
  cases hw : first.walk with
  | none =>
    rw [hw] at h
    obtain rfl := Option.some.inj h
    rfl
  | some w =>
    obtain ⟨t, ht, harrival, hcost⟩ := hwalk w hw
    rw [hw] at h
    simp only [ht, Option.map_some] at h
    obtain rfl := Option.some.inj h
    refine linkScore_congr ?_ hcost
    rw [← harrival, hfirst.leg_eq]
    rfl

/-- The current score is that of the legs. -/
theorem currentScore?_eq {rides : List PlannedRide} (hreal : ∀ r ∈ rides, r.Real task)
    (hwalks : ∀ r ∈ rides, ∀ w, r.walk = some w → task.Rematches r.leg w) {current : Score}
    (h : task.currentScore? rides = .ok (some current)) :
    current = task.rowScore (rides.map fun r => (r.leg, r.walk)) := by
  induction rides generalizing current with
  | nil => cases h
  | cons first rest ih =>
    have hfirst := hreal first List.mem_cons_self
    cases rest with
    | nil =>
      obtain ⟨_, -, h⟩ := of_bind_eq_ok h
      obtain ⟨_, -, h⟩ := of_bind_eq_ok h
      obtain rfl := Option.some.inj (Except.ok.inj h)
      rw [lastScore_eq hfirst, hfirst.partLeg_self]
      rfl
    | cons second rest =>
      unfold currentScore? at h
      split at h
      · cases h
      · rename_i transfer htransfer
        obtain ⟨_, -, h⟩ := of_bind_eq_ok h
        obtain ⟨_, -, h⟩ := of_bind_eq_ok h
        obtain ⟨_, -, h⟩ := of_bind_eq_ok h
        obtain ⟨tail?, htail, h⟩ := of_bind_eq_ok h
        obtain ⟨tail, rfl, rfl⟩ := Option.map_eq_some_iff.1 (Except.ok.inj h)
        have hrest := ih (fun r hr => hreal r (List.mem_cons_of_mem first hr))
          (fun r hr => hwalks r (List.mem_cons_of_mem first hr)) htail
        rw [changeScore_walkAfter? hfirst (hreal second (by simp)) (hwalks first List.mem_cons_self) htransfer, hrest]
        rfl

theorem map_of_plannedRides? {entries : List (RideLeg × Option TransferLeg)} {rides : List PlannedRide}
    (h : task.plannedRides? entries = .ok (some rides)) : rides.map (fun r => (r.leg, r.walk)) = entries := by
  induction entries generalizing rides with
  | nil =>
    obtain rfl := Option.some.inj (Except.ok.inj h)
    rfl
  | cons e entries ih =>
    obtain ⟨route, -, h⟩ := of_bind_eq_ok h
    cases hrun : route.run? e.1.run with
    | none => simp only [hrun] at h; cases h
    | some run =>
      simp only [hrun] at h
      obtain ⟨rest?, hrest, h⟩ := of_bind_eq_ok h
      obtain ⟨rest, rfl, rfl⟩ := Option.map_eq_some_iff.1 (Except.ok.inj h)
      rw [List.map_cons, ih hrest]

/-! ## The legs of a journey -/

/-- The walk goes along a transfer of the network, from where and when the ride ends. -/
def FollowsTransfer (task : Task) (r : RideLeg) (w : TransferLeg) : Prop :=
  ∃ t ∈ task.network.transfersFrom w.source, w.target = t.target ∧ w.arrival = r.alightTime + t.duration ∧
    w.departure + t.duration = w.arrival

section Journey

variable {s s' : Standing} {legs : List Leg}

/-- Where no rides are told of some legs, none of the legs is a ride. -/
theorem ride?_of_ridesOf_eq_nil (h : ridesOf legs = []) : ∀ x ∈ legs, x.ride? = none := by
  have hrides := map_fst_ridesOf legs
  rw [h] at hrides
  exact List.filterMap_eq_nil_iff.1 hrides.symm

theorem ridesOf_ride_of_not_walk {l : RideLeg} (h : ∀ t rest, legs ≠ .transfer t :: rest) :
    ridesOf (.ride l :: legs) = (l, none) :: ridesOf legs := by
  cases legs with
  | nil => rfl
  | cons x legs =>
    cases x with
    | transfer t => exact absurd rfl (h t legs)
    | access _ | ride _ | egress _ => rfl

/-- A ride, and perhaps a walk, in front of a row. -/
theorem exists_weave_ride {before after : List Leg} (l : RideLeg) (walk : Option TransferLeg)
    (hbefore : ∀ x ∈ before, x.ride? = none) (hafter : ∀ x ∈ after, x.ride? = none)
    (heq : legs = before ++ weave (ridesOf legs) ++ after)
    (hhead : ridesOf legs ≠ [] → ∃ l' rest, legs = .ride l' :: rest) :
    ∃ after', (∀ x ∈ after', x.ride? = none) ∧
      .ride l :: ((walk.map Leg.transfer).toList ++ legs) = weave ((l, walk) :: ridesOf legs) ++ after' := by
  cases hrow : ridesOf legs with
  | nil =>
    refine ⟨(walk.map Leg.transfer).toList ++ legs, fun x hx => ?_, rfl⟩
    rcases List.mem_append.1 hx with hx | hx
    · obtain ⟨_, -, rfl⟩ := Option.map_eq_some_iff.1 (Option.mem_toList.1 hx)
      rfl
    · exact ride?_of_ridesOf_eq_nil hrow x hx
  | cons e row =>
    obtain ⟨l', rest, hride⟩ := hhead (by simp [hrow])
    -- Nothing stands before the ride that comes first.
    have hnil : before = [] := by
      cases before with
      | nil => rfl
      | cons x before =>
        rw [hride] at heq
        obtain ⟨rfl, -⟩ := List.cons.inj heq
        cases hbefore _ List.mem_cons_self
    rw [hnil, List.nil_append, hrow] at heq
    refine ⟨after, hafter, ?_⟩
    rw [heq]
    simp only [weave, List.cons_append, List.append_assoc]

/-- In a row of steps no two walks come one after the other, so that the rides are told with all that is between. -/
theorem Steps.exists_weave (h : task.Steps s legs s') : ∃ before after, (∀ x ∈ before, x.ride? = none) ∧
    (∀ x ∈ after, x.ride? = none) ∧ legs = before ++ weave (ridesOf legs) ++ after := by
  -- The induction follows `ridesOf`: a ride with a walk, a ride without one, and a leg that is no ride.
  induction legs using ridesOf.induct generalizing s with
  | case1 => exact ⟨[], [], by simp, by simp, rfl⟩
  | case2 l t rest ih =>
    cases h with
    | cons _ h =>
      cases h with
      | cons hwalk h =>
        obtain ⟨before, after, hbefore, hafter, heq⟩ := ih h
        obtain ⟨after', hafter', hlegs⟩ := exists_weave_ride l (some t) hbefore hafter heq fun hne => by
          cases h with
          | nil => exact absurd rfl hne
          | cons hstep _ =>
            cases hstep with
            | ride => exact ⟨_, _, rfl⟩
            | transfer honBoard =>
              -- A walk needs a ride right before it.
              cases hwalk
              cases honBoard
        exact ⟨[], after', by simp, hafter', hlegs⟩
  | case3 l rest hnot ih =>
    cases h with
    | cons _ h =>
      obtain ⟨before, after, hbefore, hafter, heq⟩ := ih h
      obtain ⟨after', hafter', hlegs⟩ := exists_weave_ride l none hbefore hafter heq fun hne => by
        cases h with
        | nil => exact absurd rfl hne
        | cons hstep _ =>
          cases hstep with
          | ride => exact ⟨_, _, rfl⟩
          | transfer => exact absurd rfl (hnot _ _)
      rw [ridesOf_ride_of_not_walk hnot]
      exact ⟨[], after', by simp, hafter', hlegs⟩
  | case4 x rest hnot hnot' ih =>
    cases h with
    | cons hstep h =>
      obtain ⟨before, after, hbefore, hafter, heq⟩ := ih h
      cases hstep with
      | ride => exact absurd rfl (hnot' _)
      | @transfer transfer leg =>
        refine ⟨.transfer leg :: before, after, ?_, hafter, congrArg (.transfer leg :: ·) heq⟩
        rintro x hx
        rcases List.mem_cons.1 hx with rfl | hx
        · rfl
        · exact hbefore x hx

/-- In a row of steps each walk after a ride goes along a transfer. -/
theorem Steps.followsTransfer (h : task.Steps s legs s') {r : RideLeg} {w : TransferLeg}
    (hmem : (r, some w) ∈ ridesOf legs) :
    .transfer w ∈ legs ∧ task.FollowsTransfer r w := by
  induction legs using ridesOf.induct generalizing s with
  | case1 => cases hmem
  | case2 l t rest ih =>
    cases h with
    | cons hride h =>
      cases h with
      | cons hwalk h =>
        rcases List.mem_cons.1 hmem with heq | hmem
        · cases heq
          cases hride
          cases hwalk with
          | transfer _ hfrom hsource htarget harrival hdeparture =>
            exact ⟨by simp, _, hsource ▸ hfrom, htarget, harrival, hdeparture⟩
        · obtain ⟨hin, hfollows⟩ := ih h hmem
          exact ⟨by simp [hin], hfollows⟩
  | case3 l rest hnot ih =>
    cases h with
    | cons _ h =>
      rw [ridesOf_ride_of_not_walk hnot] at hmem
      rcases List.mem_cons.1 hmem with heq | hmem
      · cases heq
      · obtain ⟨hin, hfollows⟩ := ih h hmem
        exact ⟨by simp [hin], hfollows⟩
  | case4 x rest hnot hnot' ih =>
    cases h with
    | cons hstep h =>
      cases hstep with
      | ride => exact absurd rfl (hnot' _)
      | transfer =>
        obtain ⟨hin, hfollows⟩ := ih h hmem
        exact ⟨by simp [hin], hfollows⟩

end Journey

/-- The first transfer of the network with the ends and the duration of the walk costs what the walk does. Only
where transfers run side by side and take equally long can it be another one than the walk went along. -/
def PricedAsWalked (task : Task) (w : TransferLeg) : Prop :=
  ∀ t, (task.network.transfersFrom w.source).find? (fun t => t.target = w.target ∧ t.duration = w.duration) = some t →
    task.pricing.transferCost t = w.cost

/-- A walk along a transfer that adds up exactly is matched to the network. -/
theorem FollowsTransfer.rematches {r : RideLeg} {w : TransferLeg} (h : task.FollowsTransfer r w)
    (hinside : w.arrival.Inside) (hpriced : task.PricedAsWalked w) : task.Rematches r w := by
  obtain ⟨t, ht, htarget, harrival, hdeparture⟩ := h
  have hduration : t.duration = w.duration := by
    have hexact := Time.secs_add_of_inside (hdeparture ▸ hinside)
    unfold TransferLeg.duration
    rw [Time.sub_time, ← hdeparture, hexact]
    omega
  obtain ⟨t', ht'⟩ : ∃ t', (task.network.transfersFrom w.source).find?
      (fun t => t.target = w.target ∧ t.duration = w.duration) = some t' :=
    Option.isSome_iff_exists.1 (List.find?_isSome.2 ⟨t, ht, by simp [htarget, hduration]⟩)
  have hmatch := of_decide_eq_true (List.find?_some ht' :)
  refine ⟨t', ?_, ?_, hpriced t' ht'⟩
  · unfold walkedTransfer?
    rw [ht']
    rfl
  · rw [harrival, hduration, hmatch.2]

/-! ## Itineraries -/

variable {it it' : Itinerary} {earliest : Time}

theorem ridesOf_append_egress (legs : List Leg) (egress : StreetLeg) :
    ridesOf (legs ++ [.egress egress]) = ridesOf legs := by
  induction legs using ridesOf.induct with
  | case1 => rfl
  | case2 l t rest ih => exact congrArg ((l, some t) :: ·) ih
  | case3 l rest hnot ih =>
    have hnot' : ∀ t tail, rest ++ [.egress egress] ≠ .transfer t :: tail := by
      intro t tail heq
      cases rest with
      | nil => cases heq
      | cons x rest =>
        obtain ⟨rfl, -⟩ := List.cons.inj heq
        exact hnot t rest rfl
    rw [List.cons_append, ridesOf_ride_of_not_walk hnot', ridesOf_ride_of_not_walk hnot, ih]
  | case4 x rest hnot hnot' ih =>
    cases x with
    | ride l => exact absurd rfl (hnot' l)
    | access _ | transfer _ | egress _ => exact ih

/-- The legs of an itinerary are the rides with the walks between them, and what stands around these. -/
theorem Sound.legs_eq (h : task.Sound earliest it) (hrides : ridesOf it.legs ≠ []) :
    it.legs = it.beforeRides ++ weave (ridesOf it.legs) ++ it.afterRides := by
  obtain ⟨before, after, hbefore, hafter, heq⟩ : ∃ before after, (∀ x ∈ before, x.ride? = none) ∧
      (∀ x ∈ after, x.ride? = none) ∧ it.legs = before ++ weave (ridesOf it.legs) ++ after := by
    have hjourney := h.journey
    generalize it.legs = legs at hjourney
    cases hjourney with
    | @intro access egress _ _ middle _ hsteps _ _ =>
      obtain ⟨before, after, hbefore, hafter, hmiddle⟩ := hsteps.exists_weave
      have hall : ridesOf (.access access :: (middle ++ [.egress egress])) = ridesOf middle :=
        ridesOf_append_egress middle egress
      refine ⟨.access access :: before, after ++ [.egress egress], fun x hx => ?_, fun x hx => ?_, ?_⟩
      · rcases List.mem_cons.1 hx with rfl | hx
        · rfl
        · exact hbefore x hx
      · rcases List.mem_append.1 hx with hx | hx
        · exact hafter x hx
        · rw [List.mem_singleton.1 hx]
          rfl
      · rw [hall, List.cons_append, List.cons_append, ← List.append_assoc, ← hmiddle]
  obtain ⟨⟨r, w⟩, row, hrow⟩ := List.exists_cons_of_ne_nil hrides
  rw [hrow] at heq ⊢
  obtain ⟨tail, htail⟩ := weave_cons r w row
  obtain ⟨init, r', hinit⟩ := weave_concat r w row
  have hbefore' : it.beforeRides = before := by
    rw [Itinerary.beforeRides, heq, htail, List.append_assoc, List.cons_append]
    exact takeWhile_notRide hbefore _ _
  have hafter' : it.afterRides = after := by
    have hreverse : it.legs.reverse = after.reverse ++ .ride r' :: (before ++ init).reverse := by
      rw [heq, hinit]
      simp
    rw [Itinerary.afterRides, hreverse, takeWhile_notRide fun x hx => hafter x (List.mem_reverse.1 hx),
      List.reverse_reverse]
  rw [hbefore', hafter']
  exact heq

/-- Walks after rides go along transfers. -/
theorem Sound.followsTransfer (h : task.Sound earliest it) {r : RideLeg} {w : TransferLeg}
    (hmem : (r, some w) ∈ ridesOf it.legs) : .transfer w ∈ it.legs ∧ task.FollowsTransfer r w := by
  have hjourney := h.journey
  generalize it.legs = legs at hjourney hmem
  cases hjourney with
  | @intro access egress _ _ middle _ hsteps _ _ =>
    obtain ⟨hin, hfollows⟩ := hsteps.followsTransfer ((ridesOf_append_egress middle egress).symm ▸ hmem :)
    exact ⟨by simp [hin], hfollows⟩

/-- An itinerary whose changes are moved is worth more. -/
theorem worth_of_improve? (h : task.Sound task.request.departure it)
    (hwalks : ∀ w, .transfer w ∈ it.legs → w.arrival.Inside ∧ task.PricedAsWalked w)
    (himprove : task.improve? it = .ok (some it')) : task.worth it'.legs < task.worth it.legs := by
  obtain ⟨rides, current, best, hplanned, hcurrent, hbest, hless, hrebuild⟩ := improve?_eq himprove
  obtain ⟨-, hreal⟩ := planned_of_sound h hplanned
  obtain ⟨first, rest, rfl, hlegs⟩ := rebuild?_legs hrebuild
  have hfirst := hreal first List.mem_cons_self
  have hentries := map_of_plannedRides? hplanned
  -- Both scores are those of the legs.
  have hcurrent' : current = task.rowScore (ridesOf it.legs) := by
    rw [← hentries]
    refine currentScore?_eq hreal (fun r hr w hw => ?_) hcurrent
    have hmem : (r.leg, some w) ∈ ridesOf it.legs := by
      rw [← hentries, ← hw]
      exact List.mem_map_of_mem (f := fun r : PlannedRide => (r.leg, r.walk)) hr
    obtain ⟨hin, hfollows⟩ := h.followsTransfer hmem
    exact hfollows.rematches (hwalks w hin).1 (hwalks w hin).2
  have hlinked := bestChanges?_linked hfirst hbest
  have hbest' : best.1 = task.rowScore (task.entriesOf first.leg.boardPosition (first :: rest) best.2) :=
    (bestChanges?_score hfirst hbest).trans (hlinked.totalScore_eq hreal)
  rw [hcurrent', hbest'] at hless
  have hlegs0 := h.legs_eq (by simp [← hentries])
  rw [hlegs, hlinked.changedLegs_eq, hlegs0]
  obtain ⟨q, w, row, hrow⟩ := entriesOf_cons task first.leg.boardPosition first rest best.2
  rw [hrow] at hless ⊢
  rw [← hentries, List.map_cons] at hless ⊢
  rw [worth_eq Itinerary.ride?_of_mem_beforeRides Itinerary.ride?_of_mem_afterRides,
    worth_eq Itinerary.ride?_of_mem_beforeRides Itinerary.ride?_of_mem_afterRides]
  have htime : (partLeg first first.leg.boardPosition q).boardTime = first.leg.boardTime := by
    rw [hfirst.partLeg_eq, hfirst.leg_eq]
    rfl
  rw [htime]
  exact Score.add_lt_add_left_iff.2 hless

/-- Moving changes leaves an itinerary as it is or makes it strictly better. -/
theorem reconnect_improves_of_sound (h : task.Sound task.request.departure it)
    (hwalks : ∀ w, .transfer w ∈ it.legs → w.arrival.Inside ∧ task.PricedAsWalked w) :
    Gives (task.reconnect it) fun it' => it' = it ∨ task.worth it'.legs < task.worth it.legs := by
  obtain ⟨it', hreconnect, -⟩ := reconnect_gives h
  refine ⟨it', hreconnect, ?_⟩
  unfold reconnect at hreconnect
  split at hreconnect
  · exact .inl (Except.ok.inj hreconnect).symm
  · obtain ⟨o, himprove, hreconnect⟩ := of_bind_eq_ok hreconnect
    cases o with
    | none => exact .inl (Except.ok.inj hreconnect).symm
    | some better =>
      obtain rfl : better = it' := Except.ok.inj hreconnect
      exact .inr (worth_of_improve? h hwalks himprove)

/-- The search that starts with the store tells its goals, and each itinerary whose walks are matched to what they
went along is left as it is or made strictly better when its changes are moved, unless the search stops where a sum
does not fit. -/
def ImprovesAll {σ : Type} [ArrivalStore σ] (task : Task) (store : σ) : Prop :=
  GivesInRange (task.run store) fun outcome =>
    Gives (task.itineraries (log outcome.store) outcome.goals.items) fun its =>
      ∀ it ∈ its, (∀ w, .transfer w ∈ it.legs → w.arrival.Inside ∧ task.PricedAsWalked w) →
        Gives (task.reconnect it) fun it' => it' = it ∨ task.worth it'.legs < task.worth it.legs

theorem Searched.improvesAll {σ : Type} [ArrivalStore σ] [LawfulStore σ] {outcome : Outcome σ}
    (hready : task.Ready) (h : task.Searched outcome) :
    Gives (task.itineraries (log outcome.store) outcome.goals.items) fun its =>
      ∀ it ∈ its, (∀ w, .transfer w ∈ it.legs → w.arrival.Inside ∧ task.PricedAsWalked w) →
        Gives (task.reconnect it) fun it' => it' = it ∨ task.worth it'.legs < task.worth it.legs :=
  (itineraries_gives hready h).mono fun _ hits it hit => reconnect_improves_of_sound (hits.1 it hit)

end Task

/-- On a built network, moving the changes of an itinerary that a search with either store has told leaves it as it
is or makes its legs strictly better: the objective is lower, or it is the same and the cost is lower. The walks
must not end outside the range of times, and each must cost what the transfer does to which it is matched. So it is
wherever the clock has broken the search off. -/
theorem Network.reconnect_improves {net : Network} (hnet : net.IsBuilt) {settings : Settings}
    (hsettings : settings.check = .ok ()) {request : Request} (hrequest : request.check net.stopCount = .ok ())
    (clock : Clock) :
    (Task.ofRequest net settings request clock).ImprovesAll
        (EarliestArrivals.init net.stopCount settings.maxRounds) ∧
      (Task.ofRequest net settings request clock).ImprovesAll
        (ArrivalFrontiers.init net.stopCount settings.frontierSize) := by
  have hready := Task.ready_of_check hnet hsettings hrequest clock
  obtain ⟨hearliest, hfrontiers⟩ := Task.runs_give hready
  exact ⟨hearliest.mono fun _ h => h.improvesAll hready, hfrontiers.mono fun _ h => h.improvesAll hready⟩

/-! ## Two buses along a river -/

/-- A bus on either bank of a river. A walk leads over a bridge, and another one to a pier where the second bus waits
for the first. -/
def NetworkDraft.river? : Except DataError NetworkDraft := do
  let ahead ← Schedule.uniform ⟨"ahead", by decide⟩ #[.hms 8 0 0, .hms 8 10 0, .hms 8 20 0]
  let behind ← Schedule.uniform ⟨"behind", by decide⟩ #[.hms 8 15 0, .hms 8 25 0, .hms 8 45 0]
  let left ← StopPattern.ofStops "left" #[0, 1, 3]
  let right ← StopPattern.ofStops "right" #[2, 4, 5]
  let bridge ← Transfer.to 2 60 60
  let pier ← Transfer.to 4 60 60
  let draft := (((NetworkDraft.empty.addStop "Mill").addStop "Bridge").addStop "Ford").addStop "Quay"
  let draft := (draft.addStop "Lock").addStop "Port"
  let draft ← draft.addRoute ⟨"left", by decide⟩ .bus left [ahead] []
  let draft ← draft.addRoute ⟨"right", by decide⟩ .bus right [behind] []
  let draft ← draft.addTransfer 1 bridge
  let draft ← draft.addTransfer 3 pier
  return draft.addNotice ⟨⟨"ahead", by decide⟩, 2, ⟨"behind", by decide⟩, 1, ⟨.guaranteed, .preferred⟩⟩

theorem NetworkDraft.made_river {draft : NetworkDraft} (h : river? = .ok draft) : draft.Made := by
  obtain ⟨ahead, -, h⟩ := of_bind_eq_ok h
  obtain ⟨behind, -, h⟩ := of_bind_eq_ok h
  obtain ⟨left, -, h⟩ := of_bind_eq_ok h
  obtain ⟨right, -, h⟩ := of_bind_eq_ok h
  obtain ⟨bridge, -, h⟩ := of_bind_eq_ok h
  obtain ⟨pier, -, h⟩ := of_bind_eq_ok h
  obtain ⟨draft1, hleft, h⟩ := of_bind_eq_ok h
  obtain ⟨draft2, hright, h⟩ := of_bind_eq_ok h
  obtain ⟨draft3, hbridge, h⟩ := of_bind_eq_ok h
  obtain ⟨draft4, hpier, h⟩ := of_bind_eq_ok h
  obtain rfl := Except.ok.inj h
  have hstops := Made.addStop "Quay" (.addStop "Ford" (.addStop "Bridge" (.addStop "Mill" .empty)))
  have hroutes := Made.addRoute (.addRoute (.addStop "Port" (.addStop "Lock" hstops)) (by simp) hleft) (by simp) hright
  exact .addNotice _ (.addTransfer (.addTransfer hroutes hbridge) hpier)

/-- The way from a house by the mill to one in the port. -/
def Request.alongRiver : Request where
  departure := .hms 7 50 0
  latestArrival := none
  access := [.walk 0 60 60]
  egress := [.walk 5 60 60]
  weights := .standard

namespace Network

/-- The finished network. -/
def river : Network := (NetworkDraft.river?.toOption.getD .empty).finish

theorem river_isBuilt : river.IsBuilt := by
  refine ⟨_, ?_, rfl⟩
  cases h : NetworkDraft.river? with
  | error e => exact .empty
  | ok draft => exact NetworkDraft.made_river h

/-- Whether a leg is matched to the transfer that it went along, if it is a walk. -/
def walkIsPriced (task : Task) : Leg → Bool
  | .transfer w =>
    decide w.arrival.Inside &&
      ((task.network.transfersFrom w.source).find? fun t => t.target = w.target ∧ t.duration = w.duration).all
        fun t => decide (task.pricing.transferCost t = w.cost)
  | _ => true

theorem walks_of_all_walkIsPriced {task : Task} {legs : List Leg} (h : legs.all (walkIsPriced task) = true)
    (w : TransferLeg) (hw : .transfer w ∈ legs) : w.arrival.Inside ∧ task.PricedAsWalked w := by
  obtain ⟨hinside, hpriced⟩ := Bool.and_eq_true_iff.1 (List.all_eq_true.1 h _ hw)
  refine ⟨of_decide_eq_true hinside, fun t ht => ?_⟩
  rw [ht] at hpriced
  exact of_decide_eq_true hpriced

/-- The search crosses the bridge, and its change is moved to the pier. -/
theorem river_moved : (((Task.ofRequest river .welcomeChanges .alongRiver).run
    (EarliestArrivals.init river.stopCount Settings.welcomeChanges.maxRounds)).toOption.bind fun outcome =>
      ((Task.ofRequest river .welcomeChanges .alongRiver).itineraries outcome.store.log
        outcome.goals.items).toOption).any (fun its => its.any fun it =>
          it.legs.all (walkIsPriced (Task.ofRequest river .welcomeChanges .alongRiver)) &&
          ((Task.ofRequest river .welcomeChanges .alongRiver).reconnect it).toOption.any fun it' =>
            it.rides.map (·.alightStop) = [1, 5] ∧ it'.rides.map (·.alightStop) = [3, 5]) = true := by
  have hdepartures : departureTimes (Task.ofRequest river .welcomeChanges .alongRiver).request.departure
      (Task.ofRequest river .welcomeChanges .alongRiver).settings.window
      (Task.ofRequest river .welcomeChanges .alongRiver).settings.step = [.hms 7 50 0] := by decide +kernel
  have hrounds : (Task.ofRequest river .welcomeChanges .alongRiver).settings.maxRounds = 2 := rfl
  simp only [Task.run, hdepartures, Task.runIterations, Task.runIteration, hrounds, Task.runRounds, Task.runRound,
    Task.routesToScan_eq_insertionSort]
  decide +kernel

/-- The change from one bus to the other is moved from the bridge to the pier, where the second bus waits: the journey
costs more, and its changes are more welcome. -/
theorem river_reconnect_improves :
    river.IsBuilt ∧ Settings.welcomeChanges.check = .ok () ∧ Request.alongRiver.check river.stopCount = .ok () ∧
      Gives ((Task.ofRequest river .welcomeChanges .alongRiver).run
        (EarliestArrivals.init river.stopCount Settings.welcomeChanges.maxRounds)) fun outcome =>
          Gives ((Task.ofRequest river .welcomeChanges .alongRiver).itineraries outcome.store.log
            outcome.goals.items) fun its => ∃ it ∈ its,
              (∀ w, .transfer w ∈ it.legs →
                w.arrival.Inside ∧ (Task.ofRequest river .welcomeChanges .alongRiver).PricedAsWalked w) ∧
              ∃ it' ≠ it, (Task.ofRequest river .welcomeChanges .alongRiver).reconnect it = .ok it' ∧
                (Task.ofRequest river .welcomeChanges .alongRiver).worth it'.legs <
                  (Task.ofRequest river .welcomeChanges .alongRiver).worth it.legs := by
  have hsettings : Settings.welcomeChanges.check = .ok () := Settings.check_of_defect? (by decide +kernel)
  have hrequest : Request.alongRiver.check river.stopCount = .ok () := by
    have h : Request.alongRiver.defect? river.stopCount = none := by decide +kernel
    unfold Request.check
    rw [h]
  obtain ⟨himproves, -⟩ := reconnect_improves river_isBuilt hsettings hrequest .still
  obtain ⟨outcome, hrun, its, hits, himproves⟩ := himproves.gives (Task.run_ne_error_of_told river_moved _)
  refine ⟨river_isBuilt, hsettings, hrequest, outcome, hrun, its, hits, ?_⟩
  obtain ⟨it, hit, hmoved⟩ := Task.exists_of_told_any hrun hits river_moved
  obtain ⟨hpriced, hmoved⟩ := Bool.and_eq_true_iff.1 hmoved
  have hwalks := walks_of_all_walkIsPriced hpriced
  obtain ⟨it', hreconnect, himproved⟩ := himproves it hit hwalks
  rw [hreconnect] at hmoved
  obtain ⟨hbridge, hpier⟩ := of_decide_eq_true hmoved
  have hne : it' ≠ it := by
    rintro rfl
    rw [hbridge] at hpier
    cases hpier
  exact ⟨it, hit, hwalks, it', hne, hreconnect, himproved.resolve_left hne⟩

end Network

end JourneyPlanner
