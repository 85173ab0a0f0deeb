import Mathlib.Data.List.Chain
import JourneyPlanner.Proofs.Answering
/-!
# The shape of an itinerary

A leg leads to a standing (`Leg.LeadsTo`), and what a step asks of the standing it starts from is what
two legs in a row have to do with each other (`Leg.Joins`). `Network.plan_shape` is about every
itinerary of every answer: its ends, its legs one by one, and each two of them in a row.
-/
namespace JourneyPlanner

namespace Leg

/-- The stop at which the leg starts. -/
def startStop? : Leg → Option Stop
  | .access _ => none
  | .ride l => some l.boardStop
  | .transfer l => some l.source
  | .egress l => some l.stop

/-- Whether the leg ends at the door of a vehicle, from which one may walk on. -/
def endsOnBoard : Leg → Bool
  | .access l => decide (0 < l.rides)
  | .ride _ => true
  | _ => false

/-- The leg `y` may come right after the leg `x`. -/
structure Joins (x y : Leg) : Prop where
  stop : ∃ stop, x.endStop? = some stop ∧ y.startStop? = some stop
  transfer : ∀ t, y = .transfer t → x.endsOnBoard = true ∧ t.departure = x.arrival
  egress : ∀ e, y = .egress e → e.rides = 0 → x.endsOnBoard = true

/-- The leg leaves the traveller at the standing. -/
structure LeadsTo (x : Leg) (s : Standing) : Prop where
  stop : x.endStop? = some s.stop
  time : x.arrival = s.time
  onBoard : x.endsOnBoard = s.onBoard

end Leg

/-- The ride is on a run of the network, between two of its positions and at the times of the run. -/
def RideLeg.IsReal (l : RideLeg) (net : Network) : Prop :=
  ∃ route run, net.routes[l.route]? = some route ∧ route.run? l.run = some run ∧
    l.boardPosition < l.alightPosition ∧ l.alightPosition < route.pattern.size ∧
    l.boardStop = route.pattern.stop l.boardPosition ∧ l.alightStop = route.pattern.stop l.alightPosition ∧
    l.boardTime = run.departure l.boardPosition ∧ l.alightTime = run.arrival l.alightPosition ∧
    l.boardTime ≤ l.alightTime

/-- The walk is a transfer of the network, and takes as long. -/
def TransferLeg.IsReal (t : TransferLeg) (net : Network) : Prop :=
  ∃ transfer ∈ net.transfersFrom t.source, t.target = transfer.target ∧ t.duration = transfer.duration

namespace Task

/-- The leg is one of some paths. -/
def IsOneOf (leg : StreetLeg) (paths : List StreetPath) : Prop := ∃ path ∈ paths, leg = path.legUntil leg.arrival

/-- What the legs of an itinerary look like. -/
structure WellShaped (task : Task) (legs : List Leg) : Prop where
  ends : ∃ access egress middle, legs = .access access :: (middle ++ [.egress egress]) ∧
    IsOneOf access task.request.access ∧ IsOneOf egress task.request.egress ∧
    (∀ x ∈ middle, (∃ l, x = .ride l) ∨ ∃ t, x = .transfer t) ∧
    access.rides + (middle.filterMap Leg.ride?).length ≤ task.settings.maxTransfers + 1
  joins : legs.IsChain Leg.Joins
  rides : ∀ l, .ride l ∈ legs → l.IsReal task.network
  transfers : ∀ t, .transfer t ∈ legs → t.IsReal task.network

variable {task : Task} {earliest : Time} {s s' : Standing} {x y : Leg} {legs : List Leg}

/-! ## One step -/

theorem Starts.leadsTo {leg : StreetLeg} (h : task.Starts earliest leg s) : Leg.LeadsTo (.access leg) s := by
  cases h
  exact ⟨rfl, rfl, rfl⟩

theorem Step.leadsTo (h : task.Step s y s') : y.LeadsTo s' := by
  cases h with
  | ride _ _ _ _ _ _ _ _ => exact ⟨rfl, rfl, rfl⟩
  | transfer _ _ _ htarget harrival _ _ _ => exact ⟨congrArg some htarget, harrival, rfl⟩

theorem Ends.isOneOf {leg : StreetLeg} (h : task.Ends s leg) : IsOneOf leg task.request.egress := by
  cases h with
  | intro hpath _ _ _ => exact ⟨_, hpath, rfl⟩

theorem Starts.isOneOf {leg : StreetLeg} (h : task.Starts earliest leg s) : IsOneOf leg task.request.access := by
  cases h with
  | intro hpath _ _ _ _ _ => exact ⟨_, hpath, rfl⟩

/-- Inside the range of times a transfer leaves when the traveller gets there, and takes its time. -/
theorem departure_of_inside {t : TransferLeg} {transfer : Transfer} {time : Time}
    (harrival : t.arrival = time + transfer.duration) (hdeparture : t.departure + transfer.duration = t.arrival)
    (hinside : t.arrival.Inside) : t.departure = time ∧ t.duration = transfer.duration := by
  have h1 := Time.secs_add_of_inside (hdeparture.symm ▸ hinside)
  have h2 := Time.secs_add_of_inside (harrival ▸ hinside)
  rw [hdeparture] at h1
  rw [← harrival] at h2
  refine ⟨Time.ext (by omega), ?_⟩
  unfold TransferLeg.duration
  rw [Time.sub_time]
  omega

theorem Step.joins (h : task.Step s y s') (hx : x.LeadsTo s) (hinside : y.arrival.Inside) : x.Joins y := by
  cases h with
  | ride _ _ _ _ _ _ hstop _ =>
    refine ⟨⟨s.stop, hx.stop, congrArg some hstop⟩, ?_, ?_⟩
    · rintro t h
      cases h
    · rintro e h
      cases h
  | transfer honBoard _ hsource _ harrival hdeparture _ _ =>
    refine ⟨⟨s.stop, hx.stop, congrArg some hsource⟩, ?_, ?_⟩
    · rintro t h
      cases h
      refine ⟨hx.onBoard.trans honBoard, ?_⟩
      rw [hx.time]
      exact (departure_of_inside harrival hdeparture hinside).1
    · rintro e h
      cases h

/-- A walk to the destination needs a vehicle to step off. -/
theorem Ends.joins {egress : StreetLeg} (h : task.Ends s egress) (hx : x.LeadsTo s) : x.Joins (.egress egress) := by
  cases h with
  | @intro path start _ hstop honBoard _ =>
    refine ⟨⟨s.stop, hx.stop, congrArg some hstop⟩, ?_, ?_⟩
    · rintro t h
      cases h
    · rintro e h hrides
      cases h
      rw [hx.onBoard]
      have hwalk : path.onBoard = false := decide_eq_false (by rw [show path.rides = 0 from hrides]; omega)
      rwa [hwalk, Bool.false_or] at honBoard

theorem Step.isReal (h : task.Step s y s') (hinside : y.arrival.Inside) :
    (∀ l, y = .ride l → l.IsReal task.network) ∧ ∀ t, y = .transfer t → t.IsReal task.network := by
  cases h with
  | @ride route run p q hroute hoffers hrun _ hpq hq _ _ =>
    refine ⟨fun l h => ?_, fun t h => by cases h⟩
    cases h
    exact ⟨route, run, hroute, hrun, hpq, hq, rfl, rfl, rfl, rfl, hoffers.board_le_alight hpq hq⟩
  | @transfer transfer _ _ htransfer hsource htarget harrival hdeparture _ _ =>
    refine ⟨fun l h => (by cases h), fun t h => ?_⟩
    cases h
    exact ⟨transfer, by rwa [hsource], htarget, (departure_of_inside harrival hdeparture hinside).2⟩

/-! ## Rows of steps -/

theorem Steps.isChain (h : task.Steps s legs s') (hx : x.LeadsTo s) (hinside : ∀ y ∈ legs, y.arrival.Inside)
    {egress : StreetLeg} (hend : task.Ends s' egress) : (x :: (legs ++ [.egress egress])).IsChain Leg.Joins := by
  induction h generalizing x with
  | nil => exact .cons_cons (hend.joins hx) (.singleton _)
  | cons hstep _ ih =>
    refine .cons_cons (hstep.joins hx (hinside _ (by simp))) ?_
    exact ih hstep.leadsTo (fun y hy => hinside y (by simp [hy])) hend

/-- Each leg of a row of steps is a step. -/
theorem Steps.exists_step (h : task.Steps s legs s') {y : Leg} (hy : y ∈ legs) : ∃ s1 s2, task.Step s1 y s2 := by
  induction h with
  | nil => cases hy
  | cons hstep _ ih =>
    rcases List.mem_cons.1 hy with rfl | hy
    · exact ⟨_, _, hstep⟩
    · exact ih hy

theorem Step.kind (h : task.Step s y s') : (∃ l, y = .ride l) ∨ ∃ t, y = .transfer t := by
  cases h with
  | ride => exact .inl ⟨_, rfl⟩
  | transfer => exact .inr ⟨_, rfl⟩

/-! ## Journeys -/

theorem Journey.wellShaped (h : task.Journey earliest legs) (hinside : ∀ l ∈ legs, l.arrival.Inside) :
    task.WellShaped legs := by
  cases h with
  | @intro access egress _ _ middle hstart hsteps hrounds hend =>
    have hmiddle : ∀ y ∈ middle, y.arrival.Inside := fun y hy =>
      hinside y (List.mem_cons_of_mem _ (List.mem_append_left _ hy))
    have hmem : ∀ {y}, y ∈ Leg.access access :: (middle ++ [.egress egress]) →
        y = .access access ∨ y ∈ middle ∨ y = .egress egress := by
      intro y hy
      simpa using hy
    refine ⟨⟨access, egress, middle, rfl, hstart.isOneOf, hend.isOneOf, fun y hy => ?_, ?_⟩,
      hsteps.isChain hstart.leadsTo hmiddle hend, fun l hl => ?_, fun t ht => ?_⟩
    · obtain ⟨_, _, hstep⟩ := hsteps.exists_step hy
      exact hstep.kind
    · rw [← hsteps.connects.rideCount_eq, ← hstart.rides_eq, ← hsteps.rides_eq]
      exact hrounds
    · rcases hmem hl with h | h | h
      · cases h
      · obtain ⟨_, _, hstep⟩ := hsteps.exists_step h
        exact (hstep.isReal (hmiddle _ h)).1 l rfl
      · cases h
    · rcases hmem ht with h | h | h
      · cases h
      · obtain ⟨_, _, hstep⟩ := hsteps.exists_step h
        exact (hstep.isReal (hmiddle _ h)).2 t rfl
      · cases h

end Task

/-- Every itinerary that a plan returns has its shape, as long as its times stay inside the range, and also where
the clock breaks the search off. -/
theorem Network.plan_shape {net : Network} (hnet : net.IsBuilt) {settings : Settings}
    (hsettings : settings.check = .ok ()) {request : Request} (hrequest : request.check net.stopCount = .ok ())
    {clock : Clock} (hsums : net.SumsFit settings request clock) :
    ∃ result, net.plan settings request clock = .ok result ∧
      ∀ it ∈ result.itineraries, (∀ l ∈ it.legs, l.arrival.Inside) →
        (Task.ofRequest net settings request clock).WellShaped it.legs := by
  obtain ⟨result, hresult, hplanned⟩ := exists_plan hnet hsettings hrequest hsums
  exact ⟨result, hresult, fun it hit hinside => (hplanned.sound it hit).journey.wellShaped hinside⟩

theorem Network.shape_of_ferry_plan : ∃ result, ferry.plan .hasty .overFerry .slow = .ok result ∧
    result.timedOut = true ∧
    ∃ it ∈ result.itineraries, (Task.ofRequest ferry .hasty .overFerry .slow).WellShaped it.legs := by
  obtain ⟨result, hresult, h⟩ := plan_shape ferry_isBuilt Settings.check_hasty Request.check_overFerry sumsFit_hastyFerry
  obtain ⟨it, hit, hinside⟩ := exists_inside_of_plan_hastyFerry hresult
  exact ⟨result, hresult, (plan_hastyFerry hresult).1, it, hit, h it hit hinside⟩

end JourneyPlanner
