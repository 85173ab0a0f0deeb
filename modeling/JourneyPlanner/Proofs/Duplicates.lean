import JourneyPlanner.Proofs.FirstOccurrences
import JourneyPlanner.Proofs.Ranking
/-!
# Which itineraries of the same legs are kept

`splitDuplicates` has an itinerary that is preferred take the place of the one with the same legs. In the end each row of
legs has the place in which it has come first, and there the first of the cheapest itineraries that have these legs: as
long as itineraries are made of their legs, those with the same legs differ in nothing but the cost.
-/
namespace JourneyPlanner.Itinerary

open scoped List

variable {its : List Itinerary} {it k a b c : Itinerary}

theorem preference_eq_lt : preference a b = .lt ↔ a.cost < b.cost ∨ a.cost = b.cost ∧
    (a.transfers < b.transfers ∨ a.transfers = b.transfers ∧ a.arrival.secs < b.arrival.secs) := by
  have harrival : compare a.arrival b.arrival = compare a.arrival.secs b.arrival.secs := rfl
  simp only [preference, harrival, Ordering.then_eq_lt, Int.compare_eq_lt, Int.compare_eq_eq, Nat.compare_eq_lt,
    Nat.compare_eq_eq]

theorem preference_trans (hab : preference a b = .lt) (hbc : preference b c = .lt) : preference a c = .lt := by
  rw [preference_eq_lt] at *
  omega

theorem preference_eq_lt_of_ne (hab : preference a b = .lt) (hcb : preference c b ≠ .lt) : preference a c = .lt := by
  rw [ne_eq, preference_eq_lt] at hcb
  rw [preference_eq_lt] at *
  omega

/-! ## One more itinerary -/

theorem enterByLegs_perm (it : Itinerary) (its : List Itinerary) :
    ((enterByLegs it its).1 ++ (enterByLegs it its).2.toList).Perm (it :: its) := by
  induction its with
  | nil => exact List.Perm.refl _
  | cons k ks ih =>
    unfold enterByLegs
    split
    · split
      · exact (List.perm_append_singleton k ks).cons it
      · exact List.perm_append_singleton it (k :: ks)
    · exact (ih.cons k).trans (List.Perm.swap it k ks)

/-- Where no two itineraries have the same legs, those of other legs stay, and of those with the legs of the new one the
one that is preferred. -/
theorem mem_enterByLegs_cases (hnodup : (its.map (·.legs)).Nodup) (hk : k ∈ (enterByLegs it its).1) :
    (k ∈ its ∧ k.legs ≠ it.legs) ∨
      (k = it ∧ ∀ x ∈ its, x.legs = it.legs → preference it x = .lt) ∨
      (k ∈ its ∧ k.legs = it.legs ∧ preference it k ≠ .lt) := by
  induction its with
  | nil => exact .inr (.inl ⟨List.mem_singleton.1 hk, fun x hx => by cases hx⟩)
  | cons y ys ih =>
    rw [List.map_cons, List.nodup_cons] at hnodup
    have hother : ∀ x ∈ ys, x.legs ≠ y.legs := fun x hx hlegs => hnodup.1 (hlegs ▸ List.mem_map_of_mem hx)
    unfold enterByLegs at hk
    split at hk
    · rename_i hlegs
      split at hk
      · rename_i hbetter
        rcases List.mem_cons.1 hk with rfl | hk
        · refine .inr (.inl ⟨rfl, fun x hx hxlegs => ?_⟩)
          rcases List.mem_cons.1 hx with rfl | hx
          · exact hbetter
          · exact absurd (hxlegs.trans hlegs.symm) (hother x hx)
        · exact .inl ⟨List.mem_cons_of_mem y hk, hlegs ▸ hother k hk⟩
      · rename_i hbetter
        rcases List.mem_cons.1 hk with rfl | hk
        · exact .inr (.inr ⟨by simp, hlegs, hbetter⟩)
        · exact .inl ⟨List.mem_cons_of_mem y hk, hlegs ▸ hother k hk⟩
    · rename_i hlegs
      rcases List.mem_cons.1 hk with rfl | hk
      · exact .inl ⟨by simp, hlegs⟩
      · rcases ih hnodup.2 hk with ⟨hk, hne⟩ | ⟨rfl, hall⟩ | ⟨hk, hsame, hbetter⟩
        · exact .inl ⟨List.mem_cons_of_mem y hk, hne⟩
        · refine .inr (.inl ⟨rfl, fun x hx hxlegs => ?_⟩)
          rcases List.mem_cons.1 hx with rfl | hx
          · exact absurd hxlegs hlegs
          · exact hall x hx hxlegs
        · exact .inr (.inr ⟨List.mem_cons_of_mem y hk, hsame, hbetter⟩)

/-- If of each row of legs the first of the most preferred itineraries is kept, this is still so with one more. -/
theorem isFirstBest_enterByLegs {kept : List Itinerary} (hnodup : (kept.map (·.legs)).Nodup)
    (hcover : ∀ x ∈ its, ∃ k ∈ kept, k.legs = x.legs)
    (hfirst : ∀ k ∈ kept, IsFirstBest (fun a b => preference a b = .lt) (its.filter (·.legs = k.legs)) k) :
    ∀ k ∈ (enterByLegs it kept).1,
      IsFirstBest (fun a b => preference a b = .lt) ((its ++ [it]).filter (·.legs = k.legs)) k := by
  intro k hk
  rw [List.filter_append]
  rcases mem_enterByLegs_cases hnodup hk with ⟨hk, hne⟩ | ⟨rfl, hall⟩ | ⟨hk, hsame, hbetter⟩
  · have hlast : [it].filter (·.legs = k.legs) = [] := by simp [Ne.symm hne]
    rw [hlast, List.append_nil]
    exact hfirst k hk
  · have hlast : [k].filter (·.legs = k.legs) = [k] := by simp
    rw [hlast]
    by_cases hold : ∃ x ∈ kept, x.legs = k.legs
    · obtain ⟨x, hx, hlegs⟩ := hold
      have hold := hfirst x hx
      rw [hlegs] at hold
      exact hold.concat (fun _ _ _ => preference_trans) (fun _ _ _ => preference_eq_lt_of_ne) (hall x hx hlegs)
    · have hnone : its.filter (·.legs = k.legs) = [] := by
        refine List.filter_eq_nil_iff.2 fun x hx hlegs => hold ?_
        obtain ⟨y, hy, hylegs⟩ := hcover x hx
        exact ⟨y, hy, hylegs.trans (of_decide_eq_true hlegs)⟩
      rw [hnone]
      exact isFirstBest_singleton k
  · have hlast : [it].filter (·.legs = k.legs) = [it] := by simp [hsame]
    rw [hlast]
    exact (hfirst k hk).concat_of_not hbetter

/-! ## All itineraries -/

theorem splitDuplicates_concat (its : List Itinerary) (it : Itinerary) :
    splitDuplicates (its ++ [it]) = (splitDuplicates its).addDistinct it := List.foldl_append ..

theorem Split.addDistinct_perm (s : Split) (it : Itinerary) :
    ((s.addDistinct it).kept ++ (s.addDistinct it).removed).Perm (it :: (s.kept ++ s.removed)) := by
  calc (enterByLegs it s.kept).1 ++ (s.removed ++ (enterByLegs it s.kept).2.toList)
    _ ~ (enterByLegs it s.kept).1 ++ ((enterByLegs it s.kept).2.toList ++ s.removed) :=
      List.perm_append_comm.append_left _
    _ = (enterByLegs it s.kept).1 ++ (enterByLegs it s.kept).2.toList ++ s.removed := (List.append_assoc ..).symm
    _ ~ it :: (s.kept ++ s.removed) := (enterByLegs_perm it s.kept).append_right s.removed

/-- Each itinerary is kept or dropped, as often as it comes. -/
theorem splitDuplicates_perm (its : List Itinerary) :
    ((splitDuplicates its).kept ++ (splitDuplicates its).removed).Perm its :=
  foldl_split_perm Split.addDistinct_perm its

/-- Each row of legs keeps the place in which it has come first. -/
theorem legs_splitDuplicates (its : List Itinerary) :
    (splitDuplicates its).kept.map (·.legs) = (its.map (·.legs)).eraseDups := by
  induction its using List.reverseRecOn with
  | nil => rfl
  | append_singleton its it ih =>
    rw [splitDuplicates_concat, List.map_append, List.map_singleton, eraseDups_concat, ← ih]
    exact legs_enterByLegs it (splitDuplicates its).kept

/-- What is kept is the first of the most preferred itineraries with its legs. -/
theorem isFirstBest_splitDuplicates (its : List Itinerary) : ∀ k ∈ (splitDuplicates its).kept,
    IsFirstBest (fun a b => preference a b = .lt) (its.filter (·.legs = k.legs)) k := by
  induction its using List.reverseRecOn with
  | nil =>
    intro k hk
    cases hk
  | append_singleton its it ih =>
    rw [splitDuplicates_concat]
    exact isFirstBest_enterByLegs (splitDuplicates_nodup its) (splitDuplicates_spec its).2 ih

/-! ## Itineraries made of their legs -/

/-- The legs alone say which of two itineraries with the same legs is preferred, but for the cost. -/
theorem preference_eq_lt_iff {legs legs' : List Leg} {cost cost' : Int} (ha : ofLegs legs cost = .ok a)
    (hb : ofLegs legs' cost' = .ok b) (hlegs : a.legs = b.legs) : preference a b = .lt ↔ a.cost < b.cost := by
  rw [legs_of_ofLegs ha, legs_of_ofLegs hb] at hlegs
  subst hlegs
  have htransfers : a.transfers = b.transfers := by rw [transfers_of_ofLegs ha, transfers_of_ofLegs hb]
  have harrival : a.arrival = b.arrival := by
    obtain ⟨access, middle, egress, rfl, -, -⟩ := of_ofLegs_eq_ok ha
    rw [arrival_of_ofLegs ha, arrival_of_ofLegs hb]
  rw [preference_eq_lt, htransfers, harrival]
  omega

variable (its) in
/-- What is kept of a list in which itineraries with the same legs may come. -/
structure DistinctExactly : Prop where
  /-- One itinerary of each row of legs, in the order in which these rows have come first. -/
  legs : (splitDuplicates its).kept.map (·.legs) = (its.map (·.legs)).eraseDups
  /-- The first one of those with the lowest cost. -/
  cheapest : ∀ k ∈ (splitDuplicates its).kept,
    IsFirstBest (fun a b => a.cost < b.cost) (its.filter (·.legs = k.legs)) k
  perm : ((splitDuplicates its).kept ++ (splitDuplicates its).removed).Perm its

/-- Of itineraries made of their legs the first of the cheapest ones is kept for each row of legs. -/
theorem distinctExactly (hmade : ∀ it ∈ its, ∃ legs cost, ofLegs legs cost = .ok it) : DistinctExactly its := by
  refine ⟨legs_splitDuplicates its, fun k hk => ?_, splitDuplicates_perm its⟩
  refine (isFirstBest_splitDuplicates its k hk).congr fun a ha b hb => ?_
  obtain ⟨hamem, halegs⟩ := List.mem_filter.1 ha
  obtain ⟨hbmem, hblegs⟩ := List.mem_filter.1 hb
  obtain ⟨_, _, ha⟩ := hmade a hamem
  obtain ⟨_, _, hb⟩ := hmade b hbmem
  exact preference_eq_lt_iff ha hb ((of_decide_eq_true halegs).trans (of_decide_eq_true hblegs).symm)

/-- A walk over a stop, at some cost. -/
def doorWalk (stop : Stop) (cost : Int) : Itinerary where
  legs := [.access ⟨stop, .ofSecs 0, .ofSecs 60, 60, 0⟩, .egress ⟨stop, .ofSecs 60, .ofSecs 120, 60, 0⟩]
  departure := .ofSecs 0
  arrival := .ofSecs 120
  transfers := 0
  cost := cost

/-- The dear walk gives way to the cheap one, in its place, and the cheap one does not give way to its equal. -/
theorem cheap_walk_kept : (∀ it ∈ [doorWalk 1 300, doorWalk 2 200, doorWalk 1 120, doorWalk 1 120],
      ∃ legs cost, ofLegs legs cost = .ok it) ∧
    (splitDuplicates [doorWalk 1 300, doorWalk 2 200, doorWalk 1 120, doorWalk 1 120]).kept =
      [doorWalk 1 120, doorWalk 2 200] ∧
    DistinctExactly [doorWalk 1 300, doorWalk 2 200, doorWalk 1 120, doorWalk 1 120] := by
  have hmade : ∀ it ∈ [doorWalk 1 300, doorWalk 2 200, doorWalk 1 120, doorWalk 1 120],
      ∃ legs cost, ofLegs legs cost = .ok it := by
    have hwalk : ∀ stop cost, ofLegs (doorWalk stop cost).legs cost = .ok (doorWalk stop cost) := fun stop cost => by
      simp [ofLegs, endOfMiddle, doorWalk, Leg.rides]
    intro it hit
    simp only [List.mem_cons, List.not_mem_nil, or_false] at hit
    rcases hit with rfl | rfl | rfl | rfl <;> exact ⟨_, _, hwalk _ _⟩
  exact ⟨hmade, by decide, distinctExactly hmade⟩

end JourneyPlanner.Itinerary
