import JourneyPlanner.Proofs.Reconnecting
import JourneyPlanner.Search.Plan
/-!
# Selecting itineraries

The answer of a search has only itineraries that it has found, with their changes moved. Whatever is
left out is covered by one that is not: it leaves no earlier where that counts, arrives no later, and
has no more transfers (`Task.Covers`).
-/
namespace JourneyPlanner

namespace Itinerary

variable {dominates : Itinerary → Itinerary → Bool} {R : Itinerary → Itinerary → Prop} {its : List Itinerary}

/-! ## Keeping one of each -/

theorem mem_enterByLegs {it k : Itinerary} (h : k ∈ (enterByLegs it its).1) : k = it ∨ k ∈ its := by
  induction its with
  | nil => exact .inl (List.mem_singleton.1 h)
  | cons x xs ih =>
    simp only [enterByLegs] at h
    split at h
    · split at h
      · rcases List.mem_cons.1 h with rfl | h
        · exact .inl rfl
        · exact .inr (by simp [h])
      · exact .inr h
    · rcases List.mem_cons.1 h with rfl | h
      · exact .inr (by simp)
      · rcases ih h with h | h
        · exact .inl h
        · exact .inr (by simp [h])

/-- No row of legs is lost. -/
theorem enterByLegs_covers (it : Itinerary) {x : Itinerary} (hx : x = it ∨ x ∈ its) :
    ∃ k ∈ (enterByLegs it its).1, k.legs = x.legs := by
  induction its with
  | nil =>
    obtain rfl : x = it := hx.resolve_right (by simp)
    exact ⟨x, List.mem_singleton_self x, rfl⟩
  | cons y ys ih =>
    unfold enterByLegs
    split
    · rename_i hlegs
      rcases hx with rfl | hx
      · split
        · exact ⟨x, (by simp), rfl⟩
        · exact ⟨y, (by simp), hlegs⟩
      · rcases List.mem_cons.1 hx with rfl | hx
        · split
          · exact ⟨it, (by simp), hlegs.symm⟩
          · exact ⟨x, (by simp), rfl⟩
        · split <;> exact ⟨x, List.mem_cons_of_mem _ hx, rfl⟩
    · rcases hx with rfl | hx
      · obtain ⟨k, hk, hlegs⟩ := ih (.inl rfl)
        exact ⟨k, List.mem_cons_of_mem _ hk, hlegs⟩
      · rcases List.mem_cons.1 hx with rfl | hx
        · exact ⟨x, (by simp), rfl⟩
        · obtain ⟨k, hk, hlegs⟩ := ih (.inr hx)
          exact ⟨k, List.mem_cons_of_mem _ hk, hlegs⟩

/-- What holds after every element of a fold. -/
theorem foldl_split {f : Split → Itinerary → Split} {P : List Itinerary → List Itinerary → Prop}
    (hnil : P [] []) (step : ∀ done s it, P done s.kept → P (done ++ [it]) (f s it).kept) (its : List Itinerary) :
    P its (its.foldl f ⟨[], []⟩).kept := by
  suffices h : ∀ rest done s, P done s.kept → P (done ++ rest) (rest.foldl f s).kept from h its [] ⟨[], []⟩ hnil
  intro rest
  induction rest with
  | nil =>
    intro done s h
    rwa [List.append_nil]
  | cons it rest ih =>
    intro done s h
    have key := ih (done ++ [it]) (f s it) (step done s it h)
    rwa [List.append_assoc] at key

/-- Nothing is lost in a fold that keeps or removes each element, and may remove later what it has kept. -/
theorem foldl_split_perm {f : Split → Itinerary → Split}
    (step : ∀ s it, ((f s it).kept ++ (f s it).removed).Perm (it :: (s.kept ++ s.removed))) (its : List Itinerary) :
    ((its.foldl f ⟨[], []⟩).kept ++ (its.foldl f ⟨[], []⟩).removed).Perm its := by
  suffices h : ∀ s, ((its.foldl f s).kept ++ (its.foldl f s).removed).Perm (its ++ (s.kept ++ s.removed)) by
    simpa using h ⟨[], []⟩
  induction its with
  | nil => exact fun s => List.Perm.refl _
  | cons it its ih => exact fun s => (ih (f s it)).trans (((step s it).append_left its).trans List.perm_middle)

/-- One itinerary of each row of legs is kept. -/
theorem splitDuplicates_spec (its : List Itinerary) : (∀ k ∈ (splitDuplicates its).kept, k ∈ its) ∧
    ∀ it ∈ its, ∃ k ∈ (splitDuplicates its).kept, k.legs = it.legs := by
  refine foldl_split (P := fun done kept => (∀ k ∈ kept, k ∈ done) ∧ ∀ it ∈ done, ∃ k ∈ kept, k.legs = it.legs)
    ⟨fun _ h => h, fun _ h => by cases h⟩ (fun done s it ⟨hmem, hcover⟩ => ⟨fun k hk => ?_, fun x hx => ?_⟩) its
  · rcases mem_enterByLegs hk with rfl | hk
    · exact List.mem_append_right _ (List.mem_singleton_self k)
    · exact List.mem_append_left _ (hmem k hk)
  · rcases List.mem_append.1 hx with hx | hx
    · obtain ⟨k, hk, hlegs⟩ := hcover x hx
      obtain ⟨k', hk', hlegs'⟩ := enterByLegs_covers it (.inr hk)
      exact ⟨k', hk', hlegs'.trans hlegs⟩
    · exact enterByLegs_covers it (.inl (List.mem_singleton.1 hx))

/-- Whatever is dominated is covered by what is kept. -/
theorem splitDominated_spec (hrefl : ∀ a, R a a) (htrans : ∀ a b c, R a b → R b c → R a c)
    (hdom : ∀ a b, dominates a b = true → R a b) (its : List Itinerary) :
    (∀ k ∈ (splitDominated dominates its).kept, k ∈ its) ∧
      ∀ it ∈ its, ∃ k ∈ (splitDominated dominates its).kept, R k it := by
  refine foldl_split (P := fun done kept => (∀ k ∈ kept, k ∈ done) ∧ ∀ it ∈ done, ∃ k ∈ kept, R k it)
    ⟨fun _ h => h, fun _ h => by cases h⟩ (fun done s it ⟨hmem, hcover⟩ => ?_) its
  unfold Split.addUndominated
  split
  · rename_i hany
    obtain ⟨k, hk, hkit⟩ := List.any_eq_true.1 hany
    refine ⟨fun k hk => List.mem_append_left _ (hmem k hk), fun x hx => ?_⟩
    rcases List.mem_append.1 hx with hx | hx
    · exact hcover x hx
    · rw [List.mem_singleton.1 hx]
      exact ⟨k, hk, hdom _ _ hkit⟩
  · refine ⟨fun k hk => ?_, fun x hx => ?_⟩
    · rcases List.mem_append.1 hk with hk | hk
      · exact List.mem_append_left _ (hmem k (List.mem_filter.1 hk).1)
      · exact List.mem_append_right _ hk
    · have hself : it ∈ s.kept.filter (fun k => !dominates it k) ++ [it] :=
        List.mem_append_right _ (List.mem_singleton_self it)
      rcases List.mem_append.1 hx with hx | hx
      · obtain ⟨k, hk, hkx⟩ := hcover x hx
        -- Whoever removes the covering itinerary covers it.
        cases hdominates : dominates it k with
        | true => exact ⟨it, hself, htrans _ _ _ (hdom _ _ hdominates) hkx⟩
        | false =>
          exact ⟨k, List.mem_append_left _ (List.mem_filter.2 ⟨hk, by rw [hdominates]; rfl⟩), hkx⟩
      · rw [List.mem_singleton.1 hx]
        exact ⟨it, hself, hrefl it⟩

theorem mem_rank {it : Itinerary} : it ∈ rank its ↔ it ∈ its := List.mem_mergeSort

end Itinerary

namespace Task

variable {task : Task} {earliest : Time}

/-- At least as good on the arrival and the transfers, and on the departure where that counts. -/
structure Covers (task : Task) (a b : Itinerary) : Prop where
  departure : 0 < task.settings.window → b.departure ≤ a.departure
  arrival : a.arrival ≤ b.arrival
  transfers : a.transfers ≤ b.transfers

theorem Covers.refl (a : Itinerary) : task.Covers a a := ⟨fun _ => Time.le_refl _, Time.le_refl _, Nat.le_refl _⟩

theorem Covers.trans {a b c : Itinerary} (h : task.Covers a b) (h' : task.Covers b c) : task.Covers a c :=
  ⟨fun hw => Time.le_trans (h'.departure hw) (h.departure hw), Time.le_trans h.arrival h'.arrival,
    Nat.le_trans h.transfers h'.transfers⟩

theorem covers_of_dominates {a b : Itinerary} (h : task.dominates a b = true) : task.Covers a b := by
  simp only [dominates] at h
  split at h
  · obtain ⟨h, _⟩ := (Bool.and_eq_true _ _).mp h
    obtain ⟨hdeparture, hgood⟩ := (Bool.and_eq_true _ _).mp h
    obtain ⟨harrival, htransfers, _⟩ := of_decide_eq_true hgood
    exact ⟨fun _ => of_decide_eq_true hdeparture, harrival, htransfers⟩
  · rename_i hw
    obtain ⟨hgood, _⟩ := (Bool.and_eq_true _ _).mp h
    obtain ⟨harrival, htransfers, _⟩ := of_decide_eq_true hgood
    exact ⟨fun hw' => absurd hw' hw, harrival, htransfers⟩

/-- Moved itineraries cover those that have been given. -/
theorem reconnectAll_gives {its : List Itinerary} (h : ∀ it ∈ its, task.Sound earliest it) :
    Gives (task.reconnectAll its) fun selection => (∀ it ∈ selection.itineraries, task.Sound earliest it) ∧
      ∀ it ∈ its, ∃ k ∈ selection.itineraries, task.Covers k it := by
  unfold reconnectAll
  split
  · exact gives_ok ⟨h, fun it hit => ⟨it, hit, .refl it⟩⟩
  · refine (gives_mapM (P := task.Sound earliest) its fun it hit => ?_).bind fun moved ⟨hmoved, hall⟩ => ?_
    · exact (reconnect_gives (h it hit)).mono fun _ h => h.1
    · obtain ⟨hmem, hcover⟩ := Itinerary.splitDominated_spec (R := task.Covers) .refl (fun _ _ _ => .trans)
        (fun _ _ => covers_of_dominates) moved
      refine gives_pure ⟨fun it hit => hmoved it (hmem it hit), fun it hit => ?_⟩
      obtain ⟨it', hit', heq⟩ := hall it hit
      obtain ⟨_, hdeparture, harrival, htransfers⟩ := (reconnect_gives (h it hit)).of_eq heq
      obtain ⟨k, hk, hkcovers⟩ := hcover it' hit'
      refine ⟨k, hk, hkcovers.trans ⟨fun _ => ?_, ?_, ?_⟩⟩
      · rw [hdeparture]
        exact Time.le_refl _
      · rw [harrival]
        exact Time.le_refl _
      · exact Nat.le_of_eq htransfers

theorem select_gives {its : List Itinerary} (h : ∀ it ∈ its, task.Sound earliest it) :
    Gives (task.select its) fun selection => (∀ it ∈ selection.itineraries, task.Sound earliest it) ∧
      ∀ it ∈ its, ∃ k ∈ selection.itineraries, task.Covers k it := by
  obtain ⟨hmem, hcover⟩ := Itinerary.splitDuplicates_spec its
  obtain ⟨hmem', hcover'⟩ := Itinerary.splitDominated_spec (R := task.Covers) .refl (fun _ _ _ => .trans)
    (fun _ _ => covers_of_dominates) (Itinerary.splitDuplicates its).kept
  unfold select
  apply (reconnectAll_gives fun it hit => h it (hmem it (hmem' it hit))).bind
  rintro moved ⟨hsound, hmoved⟩
  refine gives_pure ⟨fun it hit => hsound it (Itinerary.mem_rank.1 hit), fun it hit => ?_⟩
  obtain ⟨x, hx, hlegs⟩ := hcover it hit
  -- Itineraries with the same legs are the same.
  obtain rfl : x = it := by
    have hmade := (h x (hmem x hx)).made
    rw [hlegs, (h it hit).made] at hmade
    exact (Except.ok.inj hmade).symm
  obtain ⟨y, hy, hyx⟩ := hcover' x hx
  obtain ⟨z, hz, hzy⟩ := hmoved y hy
  exact ⟨z, Itinerary.mem_rank.2 hz, hzy.trans hyx⟩

end Task

end JourneyPlanner
