import JourneyPlanner.Proofs.Ranking
/-!
# Which itineraries are dominated

`splitDominated` decides about each itinerary by those it has kept so far, and takes some of these back
later. In the end this is as if each one had been compared with all of them: whoever takes back an
itinerary dominates what that one has kept out. So what is kept does not depend on the order in which the
itineraries come.
-/
namespace JourneyPlanner.Itinerary

open scoped List

/-- Some itinerary of a list dominates one. -/
def DominatedBy (dominates : Itinerary → Itinerary → Bool) (its : List Itinerary) (it : Itinerary) : Prop :=
  ∃ k ∈ its, dominates k it = true

instance (dominates : Itinerary → Itinerary → Bool) (its : List Itinerary) (it : Itinerary) :
    Decidable (DominatedBy dominates its it) := inferInstanceAs (Decidable (∃ _ ∈ _, _))

variable {dominates : Itinerary → Itinerary → Bool} {its its' : List Itinerary} {it k : Itinerary}

theorem dominatedBy_concat :
    DominatedBy dominates (its ++ [k]) it ↔ DominatedBy dominates its it ∨ dominates k it = true := by
  unfold DominatedBy
  simp [List.mem_append, or_and_right, exists_or]

theorem DominatedBy.perm (hperm : its.Perm its') : DominatedBy dominates its it ↔ DominatedBy dominates its' it :=
  exists_congr fun _ => and_congr_left fun _ => hperm.mem_iff

theorem splitDominated_concat (its : List Itinerary) (it : Itinerary) :
    splitDominated dominates (its ++ [it]) = (splitDominated dominates its).addUndominated dominates it :=
  List.foldl_append ..

/-- An itinerary that a kept one dominates is removed. -/
theorem Split.addUndominated_of_dominated {s : Split} (h : DominatedBy dominates s.kept it) :
    s.addUndominated dominates it = ⟨s.kept, s.removed ++ [it]⟩ := if_pos (List.any_eq_true.2 h)

/-- Any other one is kept, and those that it dominates are removed. -/
theorem Split.addUndominated_of_not_dominated {s : Split} (h : ¬ DominatedBy dominates s.kept it) :
    s.addUndominated dominates it =
      ⟨s.kept.filter (fun k => !dominates it k) ++ [it], s.removed ++ s.kept.filter (dominates it)⟩ :=
  if_neg fun hany => h (List.any_eq_true.1 hany)

theorem Split.addUndominated_perm (s : Split) (it : Itinerary) :
    ((s.addUndominated dominates it).kept ++ (s.addUndominated dominates it).removed).Perm
      (it :: (s.kept ++ s.removed)) := by
  by_cases h : DominatedBy dominates s.kept it
  · rw [Split.addUndominated_of_dominated h, ← List.append_assoc]
    exact List.perm_append_singleton it (s.kept ++ s.removed)
  · rw [Split.addUndominated_of_not_dominated h, List.append_assoc]
    have hkept : s.kept.filter (fun k => !dominates it k) ++ s.kept.filter (dominates it) ~ s.kept :=
      List.perm_append_comm.trans (List.filter_append_perm _ _)
    calc s.kept.filter (fun k => !dominates it k) ++ it :: (s.removed ++ s.kept.filter (dominates it))
      _ ~ it :: (s.kept.filter (fun k => !dominates it k) ++ (s.removed ++ s.kept.filter (dominates it))) :=
        List.perm_middle
      _ ~ it :: (s.kept.filter (fun k => !dominates it k) ++ (s.kept.filter (dominates it) ++ s.removed)) :=
        (List.perm_append_comm.append_left _).cons it
      _ = it :: (s.kept.filter (fun k => !dominates it k) ++ s.kept.filter (dominates it) ++ s.removed) := by
        rw [List.append_assoc]
      _ ~ it :: (s.kept ++ s.removed) := (hkept.append_right s.removed).cons it

/-- Each itinerary is kept or removed, as often as it comes. -/
theorem splitDominated_perm (its : List Itinerary) :
    ((splitDominated dominates its).kept ++ (splitDominated dominates its).removed).Perm its :=
  foldl_split_perm Split.addUndominated_perm its

section

variable (htrans : ∀ a b c, dominates a b = true → dominates b c = true → dominates a c = true)
include htrans

/-- Those that are kept dominate whatever any itinerary dominates. -/
theorem dominatedBy_kept :
    DominatedBy dominates (splitDominated dominates its).kept it ↔ DominatedBy dominates its it := by
  obtain ⟨hmem, hcover⟩ := splitDominated_spec (R := fun a b => a = b ∨ dominates a b = true) (fun _ => .inl rfl)
    (fun a b c hab hbc => by
      rcases hab with rfl | hab
      · exact hbc
      · rcases hbc with rfl | hbc
        · exact .inr hab
        · exact .inr (htrans _ _ _ hab hbc))
    (fun _ _ => .inr) its
  constructor
  · rintro ⟨k, hk, hdominates⟩
    exact ⟨k, hmem k hk, hdominates⟩
  · rintro ⟨k, hk, hdominates⟩
    obtain ⟨k', hk', rfl | hdominates'⟩ := hcover k hk
    · exact ⟨k', hk', hdominates⟩
    · exact ⟨k', hk', htrans _ _ _ hdominates' hdominates⟩

variable (hself : ∀ a, dominates a a = false)
include hself

/-- What is kept are the itineraries that none of all dominates. -/
theorem kept_splitDominated (its : List Itinerary) :
    (splitDominated dominates its).kept = its.filter fun it => ¬ DominatedBy dominates its it := by
  induction its using List.reverseRecOn with
  | nil => rfl
  | append_singleton its it ih =>
    rw [splitDominated_concat, List.filter_append]
    by_cases h : DominatedBy dominates its it
    · rw [Split.addUndominated_of_dominated ((dominatedBy_kept htrans).2 h), ih]
      have hlast : [it].filter (fun x => ¬ DominatedBy dominates (its ++ [it]) x) = [] := by
        simpa using dominatedBy_concat.2 (.inl h)
      rw [hlast, List.append_nil]
      -- What the last one dominates its own dominator dominates.
      refine List.filter_congr fun x _ => decide_eq_decide.2 (not_congr ?_)
      rw [dominatedBy_concat]
      refine (or_iff_left_of_imp fun hx => ?_).symm
      obtain ⟨k, hk, hkit⟩ := h
      exact ⟨k, hk, htrans _ _ _ hkit hx⟩
    · rw [Split.addUndominated_of_not_dominated fun hkept => h ((dominatedBy_kept htrans).1 hkept), ih]
      have hlast : [it].filter (fun x => ¬ DominatedBy dominates (its ++ [it]) x) = [it] := by
        simp [dominatedBy_concat, h, hself]
      rw [hlast, List.filter_filter]
      refine congrArg (· ++ [it]) (List.filter_congr fun x _ => ?_)
      simp [dominatedBy_concat, and_comm]

end

/-! ## The filter -/

variable (dominates its) in
/-- What the filter makes of a list is decided by all of its itineraries together. -/
structure FilteredExactly : Prop where
  /-- Those that none of all the itineraries dominates, in their order and as often as they come. -/
  kept : (splitDominated dominates its).kept = its.filter fun it => ¬ DominatedBy dominates its it
  removed : (splitDominated dominates its).removed.Perm (its.filter fun it => DominatedBy dominates its it)
  covered : ∀ it ∈ (splitDominated dominates its).removed, DominatedBy dominates (splitDominated dominates its).kept it
  perm : ∀ its', its.Perm its' → (splitDominated dominates its).kept.Perm (splitDominated dominates its').kept

theorem FilteredExactly.of_order (hself : ∀ a, dominates a a = false)
    (htrans : ∀ a b c, dominates a b = true → dominates b c = true → dominates a c = true) (its : List Itinerary) :
    FilteredExactly dominates its := by
  have hkept := kept_splitDominated htrans hself
  have hremoved : (splitDominated dominates its).removed.Perm (its.filter fun it => DominatedBy dominates its it) := by
    have hall : (its.filter (fun it => ¬ DominatedBy dominates its it) ++
        its.filter fun it => DominatedBy dominates its it).Perm its := by
      simp only [decide_not]
      exact List.perm_append_comm.trans (List.filter_append_perm _ _)
    rw [← hkept its] at hall
    exact (List.perm_append_left_iff _).1 ((splitDominated_perm its).trans hall.symm)
  refine ⟨hkept its, hremoved, fun it hit => ?_, fun its' hperm => ?_⟩
  · rw [dominatedBy_kept htrans]
    simpa using (List.mem_filter.1 (hremoved.mem_iff.1 hit)).2
  · rw [hkept its, hkept its', List.filter_congr fun it _ => decide_eq_decide.2 (not_congr (DominatedBy.perm hperm))]
    exact hperm.filter _

/-- With and without the departure as a criterion the filter is exact, and blind to the order of the list. -/
theorem filteredExactly (its : List Itinerary) :
    FilteredExactly Itinerary.dominates its ∧ FilteredExactly dominatesInRange its :=
  ⟨.of_order not_dominates_self (fun _ _ _ => dominates_trans) its,
    .of_order not_dominatesInRange_self (fun _ _ _ => dominatesInRange_trans) its⟩

end JourneyPlanner.Itinerary
