import JourneyPlanner.Proofs.Answering
/-!
# The itineraries of an answer are ranked

Whatever a search has left behind, its answer is in the order of preference and no itinerary of it
dominates another one. Where the changes stay as they have been found, it has one itinerary of each row
of legs, all of them tell goals of the search, and each told goal is there or dominated: an itinerary
that has driven out a dominator dominates in its place.
-/
namespace JourneyPlanner

namespace Itinerary

variable {a b c it : Itinerary} {its : List Itinerary} {dominates : Itinerary → Itinerary → Bool}

/-! ## The order of the results -/

/-- The first itinerary arrives earlier, or at the same time with fewer transfers, or with as many at a
lower cost, or at the same cost leaves no earlier. -/
def RankedBefore (a b : Itinerary) : Prop :=
  a.arrival < b.arrival ∨ a.arrival = b.arrival ∧ (a.transfers < b.transfers ∨ a.transfers = b.transfers ∧
    (a.cost < b.cost ∨ a.cost = b.cost ∧ b.departure ≤ a.departure))

theorem rankedBefore_iff : a.RankedBefore b ↔ a.arrival.secs < b.arrival.secs ∨ a.arrival.secs = b.arrival.secs ∧
    (a.transfers < b.transfers ∨ a.transfers = b.transfers ∧
      (a.cost < b.cost ∨ a.cost = b.cost ∧ b.departure.secs ≤ a.departure.secs)) := by
  rw [← Time.ext_iff]
  rfl

theorem isLE_rankOrder : (rankOrder a b).isLE = true ↔ a.RankedBefore b := by
  have harrival : compare a.arrival b.arrival = compare a.arrival.secs b.arrival.secs := rfl
  have hdeparture : compare b.departure a.departure = compare b.departure.secs a.departure.secs := rfl
  rw [rankedBefore_iff, rankOrder, Ordering.then_assoc, harrival, hdeparture]
  simp only [Ordering.isLE_then_iff_or, Int.compare_eq_lt, Int.compare_eq_eq, Nat.compare_eq_lt, Nat.compare_eq_eq,
    Int.isLE_compare]

theorem RankedBefore.trans (h : a.RankedBefore b) (h' : b.RankedBefore c) : a.RankedBefore c := by
  rw [rankedBefore_iff] at *
  omega

theorem rankedBefore_total (a b : Itinerary) : a.RankedBefore b ∨ b.RankedBefore a := by
  rw [rankedBefore_iff, rankedBefore_iff]
  omega

theorem rank_pairwise (its : List Itinerary) : (rank its).Pairwise RankedBefore := by
  refine (List.pairwise_mergeSort ?_ ?_ its).imp isLE_rankOrder.1
  · intro a b c hab hbc
    exact isLE_rankOrder.2 ((isLE_rankOrder.1 hab).trans (isLE_rankOrder.1 hbc))
  · intro a b
    rw [Bool.or_eq_true]
    exact (rankedBefore_total a b).imp isLE_rankOrder.2 isLE_rankOrder.2

/-! ## Domination -/

theorem not_dominates_self (a : Itinerary) : a.dominates a = false := by
  simp [Itinerary.dominates, BetterSomewhere, Time.lt_iff]

theorem not_dominatesInRange_self (a : Itinerary) : a.dominatesInRange a = false := by
  simp [dominatesInRange, BetterSomewhere, Time.lt_iff]

theorem dominates_trans (h : a.dominates b = true) (h' : b.dominates c = true) : a.dominates c = true := by
  simp only [Itinerary.dominates, Bool.and_eq_true, decide_eq_true_eq, AtLeastAsGood, BetterSomewhere, Time.le_iff,
    Time.lt_iff] at *
  omega

theorem dominatesInRange_trans (h : a.dominatesInRange b = true) (h' : b.dominatesInRange c = true) :
    a.dominatesInRange c = true := by
  simp only [dominatesInRange, Bool.and_eq_true, Bool.or_eq_true, decide_eq_true_eq, AtLeastAsGood, BetterSomewhere,
    Time.le_iff, Time.lt_iff] at *
  omega

/-- No itinerary that is kept dominates one that is kept. -/
theorem splitDominated_undominated (hself : ∀ a, dominates a a = false) (its : List Itinerary) :
    ∀ a ∈ (splitDominated dominates its).kept, ∀ b ∈ (splitDominated dominates its).kept, dominates a b = false := by
  refine foldl_split (P := fun _ kept => ∀ a ∈ kept, ∀ b ∈ kept, dominates a b = false) (by simp) ?_ its
  intro _ s it h
  unfold Split.addUndominated
  split
  · exact h
  · rename_i hnone
    have hbefore : ∀ k ∈ s.kept, dominates k it = false := by simpa using hnone
    intro a ha b hb
    rcases List.mem_append.1 ha with ha | ha <;> rcases List.mem_append.1 hb with hb | hb
    · exact h a (List.mem_filter.1 ha).1 b (List.mem_filter.1 hb).1
    · rw [List.mem_singleton.1 hb]
      exact hbefore a (List.mem_filter.1 ha).1
    · rw [List.mem_singleton.1 ha]
      simpa using (List.mem_filter.1 hb).2
    · rw [List.mem_singleton.1 ha, List.mem_singleton.1 hb]
      exact hself it

theorem splitDominated_sublist (its : List Itinerary) : (splitDominated dominates its).kept.Sublist its := by
  refine foldl_split (P := fun done kept => kept.Sublist done) (List.Sublist.refl _) ?_ its
  intro done s it h
  unfold Split.addUndominated
  split
  · exact h.trans (List.sublist_append_left _ _)
  · exact (List.filter_sublist.trans h).append (List.Sublist.refl _)

/-! ## Itineraries with the same legs -/

/-- Entering an itinerary adds its legs at the end, unless they are there. -/
theorem legs_enterByLegs (it : Itinerary) (its : List Itinerary) : (enterByLegs it its).1.map (·.legs) =
    if it.legs ∈ its.map (·.legs) then its.map (·.legs) else its.map (·.legs) ++ [it.legs] := by
  induction its with
  | nil => rfl
  | cons k ks ih =>
    unfold enterByLegs
    by_cases hlegs : k.legs = it.legs
    · rw [if_pos hlegs, if_pos (List.mem_map.2 ⟨k, (by simp), hlegs⟩)]
      split
      · exact congrArg (· :: ks.map (·.legs)) hlegs.symm
      · rfl
    · have hiff : it.legs ∈ (k :: ks).map (·.legs) ↔ it.legs ∈ ks.map (·.legs) := by
        rw [List.map_cons, List.mem_cons, or_iff_right (Ne.symm hlegs)]
      rw [if_neg hlegs]
      show k.legs :: (enterByLegs it ks).1.map (·.legs) = _
      by_cases hmem : it.legs ∈ ks.map (·.legs)
      · rw [ih, if_pos hmem, if_pos (hiff.2 hmem)]
        rfl
      · rw [ih, if_neg hmem, if_neg fun h => hmem (hiff.1 h)]
        rfl

/-- No two itineraries that are kept have the same legs. -/
theorem splitDuplicates_nodup (its : List Itinerary) : ((splitDuplicates its).kept.map (·.legs)).Nodup := by
  refine foldl_split (P := fun _ kept => (kept.map (·.legs)).Nodup) List.nodup_nil ?_ its
  intro _ s it h
  show ((enterByLegs it s.kept).1.map (·.legs)).Nodup
  rw [legs_enterByLegs]
  split
  · exact h
  · rename_i hnot
    refine List.nodup_append.2 ⟨h, by simp, fun legs hlegs legs' hlegs' heq => hnot ?_⟩
    rwa [← List.mem_singleton.1 hlegs', ← heq]

end Itinerary

namespace Task

open Itinerary

variable {task : Task} {a b c : Itinerary} {its : List Itinerary}

theorem not_dominates_self (a : Itinerary) : task.dominates a a = false := by
  unfold dominates
  split
  · exact not_dominatesInRange_self a
  · exact Itinerary.not_dominates_self a

theorem dominates_trans (h : task.dominates a b = true) (h' : task.dominates b c = true) :
    task.dominates a c = true := by
  unfold dominates at *
  by_cases hwindow : 0 < task.settings.window
  · rw [if_pos hwindow] at *
    exact dominatesInRange_trans h h'
  · rw [if_neg hwindow] at *
    exact Itinerary.dominates_trans h h'

/-! ## Told goals -/

variable {log : ArrivalLog} {goals : List Goal} {g g' : Goal} {it it' : Itinerary}

/-- An itinerary that tells a goal is made of its legs, at their price. -/
theorem ofLegs_of_itinerary? (h : task.itinerary? log g = .ok (some it)) :
    ofLegs it.legs (task.pricing.legsCost it.legs) = .ok it := by
  unfold itinerary? at h
  obtain ⟨chain, -, h⟩ := of_bind_eq_ok h
  obtain ⟨legs, -, h⟩ := of_bind_eq_ok h
  cases legs with
  | none => cases h
  | some legs =>
    cases hpath : task.request.egress[g.egress]? with
    | none =>
      simp only [hpath] at h
      cases h
    | some path =>
      simp only [hpath] at h
      have hoption := Except.ok.inj h
      cases hmade : ofLegs (legs ++ [.egress (egressLeg path g)])
          (task.pricing.legsCost (legs ++ [.egress (egressLeg path g)])) with
      | error e =>
        rw [hmade] at hoption
        cases hoption
      | ok made =>
        rw [hmade] at hoption
        obtain rfl := Option.some.inj hoption
        rw [legs_of_ofLegs hmade]
        exact hmade

/-- Two goals that are told with the same legs are told alike. -/
theorem itinerary_ext (h : task.itinerary? log g = .ok (some it)) (h' : task.itinerary? log g' = .ok (some it'))
    (hlegs : it.legs = it'.legs) : it = it' := by
  have heq := ofLegs_of_itinerary? h
  rw [hlegs, ofLegs_of_itinerary? h'] at heq
  exact (Except.ok.inj heq).symm

theorem mem_itineraries (h : task.itineraries log goals = .ok its) :
    it ∈ its ↔ ∃ g ∈ goals, task.itinerary? log g = .ok (some it) := by
  unfold itineraries at h
  obtain ⟨os, hos, h⟩ := of_bind_eq_ok h
  cases h
  rw [List.mem_filterMap, ← mem_of_mapM_eq_ok hos]
  simp

theorem itineraries_ext (h : task.itineraries log goals = .ok its) :
    ∀ a ∈ its, ∀ b ∈ its, a.legs = b.legs → a = b := by
  intro a ha b hb hlegs
  obtain ⟨_, -, ha⟩ := (mem_itineraries h).1 ha
  obtain ⟨_, -, hb⟩ := (mem_itineraries h).1 hb
  exact itinerary_ext ha hb hlegs

/-! ## The answer -/

/-- What a result shows of the goals that a search has left behind. -/
structure Ranks {σ : Type} [ArrivalStore σ] (task : Task) (outcome : Outcome σ) (result : SearchResult) : Prop where
  sorted : result.itineraries.Pairwise RankedBefore
  /-- Over a range of departures the departure counts, too. -/
  undominated : ∀ a ∈ result.itineraries, ∀ b ∈ result.itineraries,
    ¬ if 0 < task.settings.window then a.dominatesInRange b = true else a.dominates b = true
  distinct : task.settings.changes = .asFound → (result.itineraries.map (·.legs)).Nodup
  told : task.settings.changes = .asFound → ∀ it ∈ result.itineraries,
    ∃ g ∈ outcome.goals.items, task.itinerary? (ArrivalStore.log outcome.store) g = .ok (some it)
  covered : task.settings.changes = .asFound → ∀ g ∈ outcome.goals.items, ∀ it,
    task.itinerary? (ArrivalStore.log outcome.store) g = .ok (some it) → ∃ k ∈ result.itineraries,
      k.legs = it.legs ∨ if 0 < task.settings.window then k.dominatesInRange it = true else k.dominates it = true

theorem dominates_iff : task.dominates a b = true ↔
    if 0 < task.settings.window then a.dominatesInRange b = true else a.dominates b = true := by
  unfold dominates
  split <;> rfl

theorem reconnectAll_undominated {moved : Selection} (h : task.reconnectAll its = .ok moved)
    (hits : ∀ a ∈ its, ∀ b ∈ its, task.dominates a b = false) :
    ∀ a ∈ moved.itineraries, ∀ b ∈ moved.itineraries, task.dominates a b = false := by
  unfold reconnectAll at h
  split at h
  · cases h
    exact hits
  · obtain ⟨reconnected, -, h⟩ := of_bind_eq_ok h
    cases h
    exact splitDominated_undominated not_dominates_self reconnected

/-- As found the itineraries stay what they are. -/
theorem reconnectAll_asFound {moved : Selection} (h : task.reconnectAll its = .ok moved)
    (hchanges : task.settings.changes = .asFound) : moved.itineraries = its := by
  rw [reconnectAll, if_pos hchanges] at h
  cases h
  rfl

/-- What is selected comes from moving the changes of distinct itineraries none of which dominates another. -/
theorem of_select {selection : Selection} (h : task.select its = .ok selection) : ∃ moved,
    task.reconnectAll (splitDominated task.dominates (splitDuplicates its).kept).kept = .ok moved ∧
      selection.itineraries = rank moved.itineraries := by
  unfold select at h
  obtain ⟨moved, hmoved, h⟩ := of_bind_eq_ok h
  cases h
  exact ⟨moved, hmoved, rfl⟩

/-- Each itinerary is selected with its legs, or dominated by one that is, unless itineraries of the same legs
differ. -/
theorem covered_of_select (hext : ∀ a ∈ its, ∀ b ∈ its, a.legs = b.legs → a = b) (hit : it ∈ its) :
    ∃ k ∈ (splitDominated task.dominates (splitDuplicates its).kept).kept,
      k.legs = it.legs ∨ task.dominates k it = true := by
  obtain ⟨hmem, hcover⟩ := splitDuplicates_spec its
  obtain ⟨x, hx, hlegs⟩ := hcover it hit
  obtain rfl := hext x (hmem x hx) it hit hlegs
  have htrans : ∀ a b c, a = b ∨ task.dominates a b = true → b = c ∨ task.dominates b c = true →
      a = c ∨ task.dominates a c = true := by
    rintro a b c (rfl | hab) (rfl | hbc)
    · exact .inl rfl
    · exact .inr hbc
    · exact .inr hab
    · exact .inr (dominates_trans hab hbc)
  obtain ⟨-, hcover'⟩ := splitDominated_spec (R := fun a b => a = b ∨ task.dominates a b = true)
    (fun _ => .inl rfl) htrans (fun _ _ => .inr) (splitDuplicates its).kept
  obtain ⟨k, hk, hkx⟩ := hcover' x hx
  exact ⟨k, hk, hkx.imp_left (congrArg Itinerary.legs)⟩

/-- The answer ranks what a search has left behind, whatever that is. -/
theorem answer_ranks {σ : Type} [ArrivalStore σ] {outcome : Outcome σ} {result : SearchResult}
    {events : List SearchEvent} (h : task.answer outcome = .ok (result, events)) : task.Ranks outcome result := by
  unfold answer at h
  obtain ⟨its, hits, h⟩ := of_bind_eq_ok h
  obtain ⟨selection, hselection, h⟩ := of_bind_eq_ok h
  cases h
  obtain ⟨moved, hmoved, hranked⟩ := of_select hselection
  have hundominated := reconnectAll_undominated hmoved (splitDominated_undominated not_dominates_self _)
  have hmem : ∀ it, it ∈ selection.itineraries ↔ it ∈ moved.itineraries := fun it => by rw [hranked, mem_rank]
  have hfound := reconnectAll_asFound hmoved
  refine ⟨?_, ?_, ?_, ?_, ?_⟩
  · show selection.itineraries.Pairwise RankedBefore
    rw [hranked]
    exact rank_pairwise _
  · intro a ha b hb hdominates
    rw [← dominates_iff, hundominated a ((hmem a).1 ha) b ((hmem b).1 hb)] at hdominates
    cases hdominates
  · intro hchanges
    show (selection.itineraries.map (·.legs)).Nodup
    rw [hranked, hfound hchanges]
    refine ((List.mergeSort_perm _ _).map _).nodup_iff.2 ?_
    exact (splitDuplicates_nodup its).sublist ((splitDominated_sublist _).map _)
  · intro hchanges it hit
    rw [hmem, hfound hchanges] at hit
    have hdistinct := (splitDominated_sublist _).subset hit
    exact (mem_itineraries hits).1 ((splitDuplicates_spec its).1 it hdistinct)
  · intro hchanges g hg it hit
    obtain ⟨k, hk, hcovers⟩ := covered_of_select (itineraries_ext hits) ((mem_itineraries hits).2 ⟨g, hg, hit⟩)
    refine ⟨k, (hmem k).2 (hfound hchanges ▸ hk), ?_⟩
    rw [← dominates_iff]
    exact hcovers

end Task

/-! ## Plans -/

/-- The result shows, ranked, what a search with the store of the profile has left behind. -/
inductive Network.Ranked (net : Network) (settings : Settings) (request : Request) (clock : Clock)
    (result : SearchResult) : Prop
  | standard {outcome : Outcome EarliestArrivals} : settings.profile = .standard →
      (Task.ofRequest net settings request clock).run (EarliestArrivals.init net.stopCount settings.maxRounds) =
        .ok outcome →
      (Task.ofRequest net settings request clock).Ranks outcome result → Ranked net settings request clock result
  | multiCriteria {outcome : Outcome ArrivalFrontiers} : settings.profile = .multiCriteria →
      (Task.ofRequest net settings request clock).run (ArrivalFrontiers.init net.stopCount settings.frontierSize) =
        .ok outcome →
      (Task.ofRequest net settings request clock).Ranks outcome result → Ranked net settings request clock result

/-- An answer is that of a search. -/
theorem Task.search_ranks {task : Task} {σ : Type} [ArrivalStore σ] {store : σ} {result : SearchResult}
    (h : task.search store = .ok result) : ∃ outcome, task.run store = .ok outcome ∧ task.Ranks outcome result := by
  obtain ⟨outcome, houtcome, h⟩ := of_bind_eq_ok h
  obtain ⟨⟨result, events⟩, hanswer, h⟩ := of_bind_eq_ok h
  cases h
  exact ⟨outcome, houtcome, answer_ranks hanswer⟩

/-- Whatever a plan returns is ranked, and it returns a result unless the network has not been built, the
settings or the request are refused, or a sum does not fit. What is ranked is what the search has left behind,
wherever the clock has broken it off: `Task.answer_ranks` holds of any outcome. -/
theorem Network.plan_ranked (net : Network) (settings : Settings) (request : Request) (clock : Clock) :
    match net.plan settings request clock with
    | .ok result => net.Ranked settings request clock result
    | .error e => ¬ net.IsBuilt ∨ settings.check ≠ .ok () ∨ request.check net.stopCount ≠ .ok () ∨
        e = .brokenNetwork .sum := by
  cases hplan : net.plan settings request clock with
  | ok result =>
    obtain ⟨task, htask, h⟩ := of_bind_eq_ok hplan
    obtain ⟨_, -, htask⟩ := of_bind_eq_ok htask
    obtain ⟨_, -, htask⟩ := of_bind_eq_ok htask
    obtain rfl := Except.ok.inj htask
    have h := of_mapError_eq_ok h
    cases hprofile : settings.profile with
    | standard =>
      rw [hprofile] at h
      obtain ⟨outcome, hrun, hranks⟩ := Task.search_ranks h
      exact .standard hprofile hrun hranks
    | multiCriteria =>
      rw [hprofile] at h
      obtain ⟨outcome, hrun, hranks⟩ := Task.search_ranks h
      exact .multiCriteria hprofile hrun hranks
  | error e =>
    refine Classical.byContradiction fun hall => ?_
    obtain ⟨hnet, hsettings, hrequest, hsum⟩ : net.IsBuilt ∧ settings.check = .ok () ∧
        request.check net.stopCount = .ok () ∧ e ≠ .brokenNetwork .sum := by
      simpa only [not_or, Classical.not_not, ne_eq] using hall
    rcases plan_gives hnet hsettings hrequest clock with ⟨result, hresult, -⟩ | ⟨e', he', rfl⟩
    · rw [hplan] at hresult
      cases hresult
    · rw [hplan] at he'
      exact hsum (Except.error.inj he')

theorem Network.ranked_ferry_plan : ∃ result, ferry.plan .hasty .overFerry .slow = .ok result ∧
    result.timedOut = true ∧ ferry.Ranked .hasty .overFerry .slow result := by
  obtain ⟨result, hresult, -⟩ :=
    exists_plan ferry_isBuilt Settings.check_hasty Request.check_overFerry sumsFit_hastyFerry
  have h := plan_ranked ferry .hasty .overFerry .slow
  rw [hresult] at h
  exact ⟨result, hresult, (plan_hastyFerry hresult).1, h⟩

end JourneyPlanner
