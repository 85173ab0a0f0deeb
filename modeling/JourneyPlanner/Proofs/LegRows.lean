import JourneyPlanner.Itinerary
/-!
# Rows of legs

`Connects` describes rides and transfers that each start at the stop where the one before has ended, and
`endOfMiddle` follows such a row to its last stop. `Itinerary.ofLegs` takes exactly the rows that have an
access leg in front of one and an egress leg behind it.
-/
namespace JourneyPlanner

namespace Itinerary

variable (leg : Leg) (legs legs' : List Leg)

@[simp] theorem rideCount_nil : rideCount [] = 0 := rfl

@[simp] theorem rideCount_cons : rideCount (leg :: legs) = leg.rides + rideCount legs := rfl

@[simp] theorem rideCount_append : rideCount (legs ++ legs') = rideCount legs + rideCount legs' := by
  induction legs with
  | nil => simp
  | cons leg legs ih => simp [ih, Nat.add_assoc]

end Itinerary

/-! ## Between the ends -/

/-- Rides and transfers that lead from one stop to another. Each starts at the stop where the one before ends. -/
inductive Connects : Stop → List Leg → Stop → Prop
  | nil {stop : Stop} : Connects stop [] stop
  | ride {start stop : Stop} {l : RideLeg} {legs : List Leg} : l.boardStop = start →
      Connects l.alightStop legs stop → Connects start (.ride l :: legs) stop
  | transfer {start stop : Stop} {l : TransferLeg} {legs : List Leg} : l.source = start →
      Connects l.target legs stop → Connects start (.transfer l :: legs) stop

variable {start stop : Stop} {legs : List Leg}

theorem Connects.endOfMiddle_eq (h : Connects start legs stop) : endOfMiddle start legs = .ok stop := by
  induction h with
  | nil => rfl
  | ride hstart _ ih => rw [endOfMiddle, if_pos hstart, ih]
  | transfer hstart _ ih => rw [endOfMiddle, if_pos hstart, ih]

theorem connects_of_endOfMiddle (h : endOfMiddle start legs = .ok stop) : Connects start legs stop := by
  induction legs generalizing start with
  | nil =>
    cases h
    exact .nil
  | cons leg legs ih =>
    cases leg with
    | access l => cases h
    | egress l => cases h
    | ride l =>
      rw [endOfMiddle] at h
      split at h
      · rename_i hstart
        exact .ride hstart (ih h)
      · cases h
    | transfer l =>
      rw [endOfMiddle] at h
      split at h
      · rename_i hstart
        exact .transfer hstart (ih h)
      · cases h

/-- The rides of a row in between are its ride legs, one each. -/
theorem Connects.rideCount_eq (h : Connects start legs stop) :
    Itinerary.rideCount legs = (legs.filterMap Leg.ride?).length := by
  induction h with
  | nil => rfl
  | ride _ _ ih =>
    rw [Itinerary.rideCount_cons, ih]
    simp only [List.filterMap_cons, Leg.ride?, Leg.rides, List.length_cons]
    omega
  | transfer _ _ ih =>
    rw [Itinerary.rideCount_cons, ih]
    simp only [List.filterMap_cons, Leg.ride?, Leg.rides, Nat.zero_add]

/-! ## From end to end -/

namespace Itinerary

variable {cost : Int} {it : Itinerary} {access egress : StreetLeg} {middle : List Leg}

/-- The itinerary of legs that each start where the one before ended. -/
theorem ofLegs_eq (h : endOfMiddle access.stop middle = .ok egress.stop) (cost : Int) :
    ofLegs (.access access :: (middle ++ [.egress egress])) cost =
      .ok
        { legs := .access access :: (middle ++ [.egress egress])
          departure := access.departure
          arrival := egress.arrival
          transfers := rideCount (.access access :: (middle ++ [.egress egress])) - 1
          cost := cost } := by
  unfold ofLegs
  have hlast : (Leg.access access :: (middle ++ [.egress egress])).getLast? = some (.egress egress) := by
    rw [← List.cons_append, List.getLast?_concat]
  simp only [List.head?_cons, hlast, List.tail_cons, List.dropLast_concat, h, if_true]

/-- A row whose first leg is an access leg and whose last one is an egress leg has the others in between. -/
theorem legs_eq_of_ends (hfirst : legs.head? = some (.access access)) (hlast : legs.getLast? = some (.egress egress)) :
    legs = .access access :: (legs.tail.dropLast ++ [.egress egress]) := by
  obtain ⟨front, rfl⟩ := List.getLast?_eq_some_iff.1 hlast
  cases front with
  | nil => cases hfirst
  | cons leg middle =>
    obtain rfl : leg = .access access := Option.some.inj hfirst
    rw [List.cons_append, List.tail_cons, List.dropLast_concat]

/-- An itinerary takes its times from the two ends of its row, and the legs in between lead from one to the other. -/
theorem of_ofLegs_eq_ok (h : ofLegs legs cost = .ok it) : ∃ access middle egress,
    legs = .access access :: (middle ++ [.egress egress]) ∧ endOfMiddle access.stop middle = .ok egress.stop ∧
      it =
        { legs := legs
          departure := access.departure
          arrival := egress.arrival
          transfers := rideCount legs - 1
          cost := cost } := by
  unfold ofLegs at h
  split at h
  · rename_i first last hfirst hlast
    split at h
    · cases h
    · rename_i stop hmiddle
      split at h
      · rename_i hstop
        exact ⟨first, legs.tail.dropLast, last, legs_eq_of_ends hfirst hlast, hstop ▸ hmiddle, (Except.ok.inj h).symm⟩
      · cases h
  · cases h

theorem legs_of_ofLegs (h : ofLegs legs cost = .ok it) : it.legs = legs := by
  obtain ⟨_, _, _, -, -, rfl⟩ := of_ofLegs_eq_ok h
  rfl

theorem transfers_of_ofLegs (h : ofLegs legs cost = .ok it) : it.transfers = rideCount legs - 1 := by
  obtain ⟨_, _, _, -, -, rfl⟩ := of_ofLegs_eq_ok h
  rfl

theorem arrival_of_ofLegs (h : ofLegs (.access access :: (middle ++ [.egress egress])) cost = .ok it) :
    it.arrival = egress.arrival := by
  obtain ⟨_, _, _, hlegs, -, rfl⟩ := of_ofLegs_eq_ok h
  have hlast := List.append_inj_right' (List.tail_eq_of_cons_eq hlegs) rfl
  cases hlast
  rfl

/-- A row of legs makes an itinerary exactly if it is an access leg, rides and transfers that lead on from its stop, and
an egress leg from the stop that they lead to. The legs and the cost stay what they are, the times are those of the two
ends, and the transfers are one less than the rides, zero without rides. -/
theorem ofLegs_eq_ok_iff (legs : List Leg) (cost : Int) (it : Itinerary) : ofLegs legs cost = .ok it ↔
    ∃ access middle egress, legs = .access access :: (middle ++ [.egress egress]) ∧
      Connects access.stop middle egress.stop ∧ it.legs = legs ∧ it.cost = cost ∧ it.departure = access.departure ∧
      it.arrival = egress.arrival ∧
      it.transfers = access.rides + egress.rides + (middle.filterMap Leg.ride?).length - 1 := by
  constructor
  · intro h
    obtain ⟨access, middle, egress, rfl, hmiddle, rfl⟩ := of_ofLegs_eq_ok h
    have hconnects := connects_of_endOfMiddle hmiddle
    refine ⟨access, middle, egress, rfl, hconnects, rfl, rfl, rfl, rfl, ?_⟩
    simp only [rideCount_cons, rideCount_append, rideCount_nil, hconnects.rideCount_eq, Leg.rides]
    omega
  · rintro ⟨access, middle, egress, rfl, hconnects, hlegs, hcost, hdeparture, harrival, htransfers⟩
    have hcount : it.transfers = rideCount (.access access :: (middle ++ [.egress egress])) - 1 := by
      simp only [rideCount_cons, rideCount_append, rideCount_nil, hconnects.rideCount_eq, Leg.rides]
      omega
    rw [ofLegs_eq hconnects.endOfMiddle_eq, ← hcount]
    cases it
    subst hlegs hcost hdeparture harrival
    rfl

end Itinerary

end JourneyPlanner
