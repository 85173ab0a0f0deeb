import JourneyPlanner.Proofs.Shape
/-!
# Itineraries can be travelled

An itinerary is feasible (`Task.Feasible`) when it leaves the origin no earlier than asked and while the
path is open, waits for the slack before the first ride, and changes between two rides as the rules for
changes allow. `Network.plan_feasible` says so of every itinerary of every answer, for each profile,
window and way of moving changes.
-/
namespace JourneyPlanner

/-- The rule for the change between two rides. -/
def Network.changeRule? (net : Network) (r r' : RideLeg) : Option ConnectionRule :=
  net.rule? (r.run.call? r.route r.alightPosition) (r'.run.call? r'.route r'.boardPosition)

/-- When the leg of the way ends that comes right before the legs after it. -/
def reachedBy (x : Leg) (walks : List Leg) : Time := ((x :: walks).getLast (List.cons_ne_nil _ _)).arrival

namespace Task

/-- The legs can be travelled one after another under the rules. -/
structure Feasible (task : Task) (legs : List Leg) : Prop where
  /-- The access leg leaves no earlier than asked, while its path is open. -/
  access : ∃ path ∈ task.request.access, ∃ access rest, legs = .access access :: rest ∧
    access = path.legUntil access.arrival ∧ task.request.departure ≤ access.departure ∧ path.IsOpen access.departure
  /-- The first ride leaves after the slack, which is longer after an access with rides. -/
  first : ∀ access walks r after, legs = .access access :: (walks ++ .ride r :: after) →
    (∀ x ∈ walks, x.ride? = none) →
    reachedBy (.access access) walks + (task.settings.boardSlack +
      if 0 < access.rides then task.settings.transferSlack else 0) ≤ r.boardTime
  /-- The next ride leaves as the rule for the change has it, and without one after both slacks. -/
  change : ∀ before r walks r' after, legs = before ++ .ride r :: (walks ++ .ride r' :: after) →
    (∀ x ∈ walks, x.ride? = none) →
    ChangeAllowed (task.network.changeRule? r r')
      (reachedBy (.ride r) walks + (task.settings.boardSlack + task.settings.transferSlack))
      (reachedBy (.ride r) walks) r.alightTime r'.boardTime

variable {task : Task} {earliest : Time} {s s' : Standing} {x : Leg} {legs : List Leg}

/-! ## Walks between rides -/

theorem Steps.leadsTo_getLast (h : task.Steps s legs s') (hx : x.LeadsTo s) :
    ((x :: legs).getLast (List.cons_ne_nil _ _)).LeadsTo s' := by
  induction h generalizing x with
  | nil => exact hx
  | cons hstep _ ih =>
    rw [List.getLast_cons (List.cons_ne_nil _ _)]
    exact ih hstep.leadsTo

/-- A walk changes neither the number of rides nor the trip left last. -/
theorem Steps.of_walks (h : task.Steps s legs s') (hwalks : ∀ x ∈ legs, x.ride? = none) :
    s'.rides = s.rides ∧ s'.last = s.last := by
  induction h with
  | nil => exact ⟨rfl, rfl⟩
  | cons hstep _ ih =>
    obtain ⟨hrides, hlast⟩ := ih fun x hx => hwalks x (by simp [hx])
    cases hstep with
    | ride => cases hwalks _ List.mem_cons_self
    | transfer => exact ⟨hrides, hlast⟩

theorem Steps.reachedBy_eq (h : task.Steps s legs s') (hx : x.LeadsTo s) : reachedBy x legs = s'.time :=
  (h.leadsTo_getLast hx).time

/-! ## Changes -/

/-- Where no trip has been left, it does not matter when one would have been. -/
theorem changeAllowed_of_elim {net : Network} {last : Option AlightedTrip} {route : Route} {p : Position} {run : Run}
    {floor reached alighted departure : Time} (halighted : ∀ trip, last = some trip → trip.time = alighted)
    (h : ChangeAllowed (net.boardingRule? last route p run) floor reached (last.elim reached (·.time)) departure) :
    ChangeAllowed (net.boardingRule? last route p run) floor reached alighted departure := by
  cases last with
  | none => exact h
  | some trip =>
    rw [← halighted trip rfl]
    exact h

/-- The ride after a ride leaves as the rules allow. -/
theorem Steps.change {walks after : List Leg} {r r' : RideLeg}
    (h : task.Steps s (.ride r :: (walks ++ .ride r' :: after)) s') (hwalks : ∀ x ∈ walks, x.ride? = none) :
    ChangeAllowed (task.network.changeRule? r r')
      (reachedBy (.ride r) walks + (task.settings.boardSlack + task.settings.transferSlack))
      (reachedBy (.ride r) walks) r.alightTime r'.boardTime := by
  cases h with
  | cons hride hrest =>
    obtain ⟨s2, hsteps, hrest⟩ := hrest.split
    obtain ⟨hrides, hlast⟩ := hsteps.of_walks hwalks
    rw [hsteps.reachedBy_eq hride.leadsTo]
    cases hrest with
    | cons hride' _ =>
      cases hride with
      | @ride route run p q hroute _ _ _ _ _ _ _ =>
        cases hride' with
        | @ride route' run' p' q' _ _ _ _ _ _ _ hmay =>
          have hpos : 0 < s2.rides := hrides ▸ Nat.succ_pos _
          simp only [MayBoard] at hmay
          rw [if_pos hpos, hlast] at hmay
          have hrule : task.network.changeRule? (.ofRun route run p q) (.ofRun route' run' p' q') =
              task.network.boardingRule? (run.alighted? route.index q) route' p' run' := by
            have hcall : (run.alighted? route.index q).map (·.call) = run.ref.call? route.index q := by
              unfold Run.alighted?
              cases run.ref.call? route.index q <;> rfl
            unfold Network.boardingRule?
            rw [hcall]
            rfl
          rw [hrule]
          refine changeAllowed_of_elim (fun trip htrip => ?_) hmay
          simp only [Run.alighted?] at htrip
          obtain ⟨_, _, rfl⟩ := Option.map_eq_some_iff.1 htrip
          rfl

/-- The first ride leaves after the slack. -/
theorem Steps.firstRide {access : StreetLeg} {walks after : List Leg} {r : RideLeg}
    (hstart : task.Starts earliest access s) (h : task.Steps s (walks ++ .ride r :: after) s')
    (hwalks : ∀ x ∈ walks, x.ride? = none) :
    task.settings.boardingFloor (reachedBy (.access access) walks) access.rides ≤ r.boardTime := by
  obtain ⟨s2, hsteps, hrest⟩ := h.split
  obtain ⟨hrides, hlast⟩ := hsteps.of_walks hwalks
  rw [hsteps.reachedBy_eq hstart.leadsTo, ← hstart.rides_eq, ← hrides]
  have hnone : s2.last = none := by
    rw [hlast]
    cases hstart
    rfl
  cases hrest with
  | cons hride _ =>
    cases hride with
    | ride _ _ _ _ _ _ _ hmay =>
      rw [hnone] at hmay
      exact hmay

/-! ## Journeys -/

/-- A ride in front of which the way to the destination ends stands before its egress leg. -/
theorem exists_of_append_egress {before after middle : List Leg} {r : RideLeg} {egress : StreetLeg}
    (h : middle ++ [.egress egress] = before ++ .ride r :: after) :
    ∃ after', after = after' ++ [.egress egress] ∧ middle = before ++ .ride r :: after' := by
  rcases List.eq_nil_or_concat after with rfl | ⟨after', y, rfl⟩
  · obtain ⟨_, hlast⟩ := List.append_inj' h rfl
    cases hlast
  · rw [List.concat_eq_append, ← List.cons_append, ← List.append_assoc] at h
    obtain ⟨hmiddle, hlast⟩ := List.append_inj' h rfl
    cases hlast
    exact ⟨after', List.concat_eq_append, hmiddle⟩

/-- Each change between two rides of a journey is made as the rules allow. -/
theorem Journey.change (h : task.Journey earliest legs) {before walks after : List Leg} {r r' : RideLeg}
    (hlegs : legs = before ++ .ride r :: (walks ++ .ride r' :: after)) (hwalks : ∀ x ∈ walks, x.ride? = none) :
    ChangeAllowed (task.network.changeRule? r r')
      (reachedBy (.ride r) walks + (task.settings.boardSlack + task.settings.transferSlack))
      (reachedBy (.ride r) walks) r.alightTime r'.boardTime := by
  cases h with
  | intro _ hsteps _ _ =>
    cases before with
    | nil => cases hlegs
    | cons y before =>
      obtain ⟨_, htail⟩ := List.cons.inj hlegs
      obtain ⟨rest, hrest, rfl⟩ := exists_of_append_egress htail
      obtain ⟨after', _, rfl⟩ := exists_of_append_egress hrest.symm
      obtain ⟨_, _, hchange⟩ := hsteps.split
      exact hchange.change hwalks

theorem Journey.feasible (h : task.Journey task.request.departure legs) (hinside : ∀ l ∈ legs, l.arrival.Inside) :
    task.Feasible legs := by
  have hjourney := h
  cases h with
  | @intro access egress _ _ middle hstart hsteps _ _ =>
    refine ⟨?_, ?_, fun _ _ _ _ _ heq hwalks => hjourney.change heq hwalks⟩
    · obtain ⟨path, hpath, hleg, hdeparture, hopen⟩ := hstart.isOpen (hinside _ List.mem_cons_self)
      exact ⟨path, hpath, access, _, rfl, hleg, hdeparture, hopen⟩
    · intro access' walks r after heq hwalks
      obtain ⟨haccess, htail⟩ := List.cons.inj heq
      cases haccess
      obtain ⟨after', _, rfl⟩ := exists_of_append_egress htail
      exact Steps.firstRide hstart hsteps hwalks

end Task

/-- Every itinerary that a plan returns can be travelled, as long as its times stay inside the range, and also where
the clock breaks the search off. -/
theorem Network.plan_feasible {net : Network} (hnet : net.IsBuilt) {settings : Settings}
    (hsettings : settings.check = .ok ()) {request : Request} (hrequest : request.check net.stopCount = .ok ())
    {clock : Clock} (hsums : net.SumsFit settings request clock) :
    ∃ result, net.plan settings request clock = .ok result ∧
      ∀ it ∈ result.itineraries, (∀ l ∈ it.legs, l.arrival.Inside) →
        (Task.ofRequest net settings request clock).Feasible it.legs := by
  obtain ⟨result, hresult, hplanned⟩ := exists_plan hnet hsettings hrequest hsums
  exact ⟨result, hresult, fun it hit hinside => (hplanned.sound it hit).journey.feasible hinside⟩

theorem Network.feasible_of_ferry_plan : ∃ result, ferry.plan .hasty .overFerry .slow = .ok result ∧
    result.timedOut = true ∧
    ∃ it ∈ result.itineraries, (Task.ofRequest ferry .hasty .overFerry .slow).Feasible it.legs := by
  obtain ⟨result, hresult, h⟩ :=
    plan_feasible ferry_isBuilt Settings.check_hasty Request.check_overFerry sumsFit_hastyFerry
  obtain ⟨it, hit, hinside⟩ := exists_inside_of_plan_hastyFerry hresult
  exact ⟨result, hresult, (plan_hastyFerry hresult).1, it, hit, h it hit hinside⟩

end JourneyPlanner
