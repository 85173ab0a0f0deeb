import Mathlib.Data.Finset.Card
import Mathlib.Data.List.Induction
import JourneyPlanner.Proofs.Building
import JourneyPlanner.Proofs.FirstOccurrences
/-!
# The order of entries does not matter

Terms for one change may be entered into a table more than once. What stays is the strictest rule that
has been entered for the change, at the least priority cost that has been entered with that rule, so that
the table says the same of every change whatever the order (`ConnectionTable.ofEntries_perm`). Only the
order in which trips are listed is that of the first entries.
-/
namespace JourneyPlanner

/-! ## The stricter of two rules -/

namespace ConnectionRule

/-- The first rule restricts the change more than the second: forbidding it more than any least duration, a longer
least duration more than a shorter one, and any of these more than a promise. -/
inductive Overrules : ConnectionRule → ConnectionRule → Prop
  | notAllowed_minimumTime (secs : Int) : Overrules .notAllowed (.minimumTime secs)
  | longer {shorter secs : Int} : shorter < secs → Overrules (.minimumTime secs) (.minimumTime shorter)
  | minimumTime_guaranteed (secs : Int) : Overrules (.minimumTime secs) .guaranteed
  | notAllowed_guaranteed : Overrules .notAllowed .guaranteed

/-- The classes of two rules, and within a class their least durations, tell which one is the stricter. -/
theorem stricterThan_iff {a b : ConnectionRule} : a.StricterThan b ↔ a.Overrules b := by
  constructor
  · intro h
    cases a <;> cases b <;> simp [StricterThan, rank, minimum] at h
    · exact .notAllowed_guaranteed
    · exact .notAllowed_minimumTime _
    · exact .minimumTime_guaranteed _
    · exact .longer h
  · intro h
    cases h with
    | longer hlt => exact .inr ⟨rfl, hlt⟩
    | _ => exact .inl (by simp [rank])

theorem eq_of_rank {a b : ConnectionRule} (hrank : a.rank = b.rank) (hminimum : a.minimum = b.minimum) : a = b := by
  cases a <;> cases b <;> simp_all [rank, minimum]

/-- Of two rules that differ one is the stricter. -/
theorem overrules_or_eq (a b : ConnectionRule) : a.Overrules b ∨ a = b ∨ b.Overrules a := by
  by_cases heq : a = b
  · exact .inr (.inl heq)
  · have hne : a.rank = b.rank → a.minimum ≠ b.minimum := fun hrank hminimum => heq (eq_of_rank hrank hminimum)
    simp only [← stricterThan_iff, StricterThan]
    omega

theorem Overrules.trans {a b c : ConnectionRule} (h : a.Overrules b) (h' : b.Overrules c) : a.Overrules c := by
  cases h with
  | longer hlt =>
    cases h' with
    | longer hlt' => exact .longer (Int.lt_trans hlt' hlt)
    | minimumTime_guaranteed => exact .minimumTime_guaranteed _
  | notAllowed_minimumTime =>
    cases h' with
    | longer => exact .notAllowed_minimumTime _
    | minimumTime_guaranteed => exact .notAllowed_guaranteed
  | minimumTime_guaranteed => cases h'
  | notAllowed_guaranteed => cases h'

theorem Overrules.ne {a b : ConnectionRule} (h : a.Overrules b) : a ≠ b := by
  rintro rfl
  cases h with
  | longer hlt => exact Int.lt_irrefl _ hlt

theorem strictest_of_overrules {a b : ConnectionRule} (h : b.Overrules a) : a.strictest b = b :=
  if_pos (stricterThan_iff.2 h)

theorem strictest_of_not_overrules {a b : ConnectionRule} (h : ¬ b.Overrules a) : a.strictest b = a :=
  if_neg (mt stricterThan_iff.1 h)

end ConnectionRule

namespace ConnectionTerms

variable {old new : ConnectionTerms}

theorem merge_of_stricter (h : new.rule.Overrules old.rule) : old.merge new = new := by
  unfold merge
  simp only [ConnectionRule.strictest_of_overrules h, ne_eq, h.ne, not_false_eq_true, if_true]

theorem merge_of_laxer (h : old.rule.Overrules new.rule) : old.merge new = old := by
  unfold merge
  have hnot : ¬ new.rule.Overrules old.rule := fun h' => (h.trans h').ne rfl
  simp only [ConnectionRule.strictest_of_not_overrules hnot, ne_eq, not_true_eq_false, if_false, h.ne, false_and]

theorem merge_of_eq (h : old.rule = new.rule) :
    old.merge new = if termsCost (some new) < termsCost (some old) then new else old := by
  unfold merge
  have hnot : ¬ new.rule.Overrules old.rule := fun h' => h'.ne h.symm
  simp only [ConnectionRule.strictest_of_not_overrules hnot, ne_eq, not_true_eq_false, if_false]
  simp only [h, true_and]

end ConnectionTerms

/-! ## What stays of the terms for one change -/

/-- Of some terms, these have the strictest rule and the least priority cost that comes with it. -/
structure Prevails (terms : ConnectionTerms) (entered : List ConnectionTerms) : Prop where
  mem : terms ∈ entered
  strictest : ∀ t ∈ entered, t.rule = terms.rule ∨ terms.rule.Overrules t.rule
  cheapest : ∀ t ∈ entered, t.rule = terms.rule → termsCost (some terms) ≤ termsCost (some t)

namespace Prevails

variable {terms terms' : ConnectionTerms} {entered : List ConnectionTerms}

theorem single (terms : ConnectionTerms) : Prevails terms [terms] where
  mem := List.mem_singleton_self terms
  strictest t ht := .inl (by rw [List.mem_singleton.1 ht])
  cheapest t ht _ := by rw [List.mem_singleton.1 ht]

/-- A stricter rule prevails over all that came before it. -/
theorem replace (h : Prevails terms entered) {new : ConnectionTerms} (hnew : new.rule.Overrules terms.rule) :
    Prevails new (entered ++ [new]) where
  mem := by simp
  strictest t ht := by
    rcases List.mem_append.1 ht with ht | ht
    · rcases h.strictest t ht with heq | hless
      · exact .inr (heq ▸ hnew)
      · exact .inr (hnew.trans hless)
    · exact .inl (by rw [List.mem_singleton.1 ht])
  cheapest t ht hrule := by
    rcases List.mem_append.1 ht with ht | ht
    · -- No terms from before have the new rule.
      rcases h.strictest t ht with heq | hless
      · exact absurd (hrule.symm.trans heq) hnew.ne
      · exact absurd hrule.symm (hnew.trans hless).ne
    · rw [List.mem_singleton.1 ht]

/-- New terms with the same rule prevail when they cost less. -/
theorem reprice (h : Prevails terms entered) {new : ConnectionTerms} (hrule : new.rule = terms.rule)
    (hcost : termsCost (some new) ≤ termsCost (some terms)) : Prevails new (entered ++ [new]) where
  mem := by simp
  strictest t ht := by
    rcases List.mem_append.1 ht with ht | ht
    · rw [hrule]
      exact h.strictest t ht
    · exact .inl (by rw [List.mem_singleton.1 ht])
  cheapest t ht heq := by
    rcases List.mem_append.1 ht with ht | ht
    · exact Int.le_trans hcost (h.cheapest t ht (heq.trans hrule))
    · rw [List.mem_singleton.1 ht]

/-- Terms prevail over new ones that are less strict, or as strict and no cheaper. -/
theorem keep (h : Prevails terms entered) {new : ConnectionTerms}
    (hnew : new.rule = terms.rule ∨ terms.rule.Overrules new.rule)
    (hcost : new.rule = terms.rule → termsCost (some terms) ≤ termsCost (some new)) :
    Prevails terms (entered ++ [new]) where
  mem := List.mem_append_left _ h.mem
  strictest t ht := by
    rcases List.mem_append.1 ht with ht | ht
    · exact h.strictest t ht
    · rw [List.mem_singleton.1 ht]
      exact hnew
  cheapest t ht := by
    rcases List.mem_append.1 ht with ht | ht
    · exact h.cheapest t ht
    · rw [List.mem_singleton.1 ht]
      exact hcost

/-- Merging new terms into those that prevail leaves terms that prevail. -/
theorem merge (h : Prevails terms entered) (new : ConnectionTerms) :
    Prevails (terms.merge new) (entered ++ [new]) := by
  rcases terms.rule.overrules_or_eq new.rule with hless | heq | hgreater
  · rw [ConnectionTerms.merge_of_laxer hless]
    exact h.keep (.inr hless) fun hrule => absurd hrule.symm hless.ne
  · rw [ConnectionTerms.merge_of_eq heq]
    split
    · rename_i hcost
      exact h.reprice heq.symm (Int.le_of_lt hcost)
    · rename_i hcost
      exact h.keep (.inl heq.symm) fun _ => Int.not_lt.1 hcost
  · rw [ConnectionTerms.merge_of_stricter hgreater]
    exact h.replace hgreater

/-- Two prevailing terms differ at most in how the same cost comes about. -/
theorem unique (h : Prevails terms entered) (h' : Prevails terms' entered) :
    terms.rule = terms'.rule ∧ termsCost (some terms) = termsCost (some terms') := by
  have hrule : terms.rule = terms'.rule := by
    rcases h.strictest terms' h'.mem with heq | hless
    · exact heq.symm
    · rcases h'.strictest terms h.mem with heq | hless'
      · exact heq
      · exact absurd rfl (hless.trans hless').ne
  exact ⟨hrule, Int.le_antisymm (h.cheapest terms' h'.mem hrule.symm) (h'.cheapest terms h.mem hrule)⟩

theorem perm {entered' : List ConnectionTerms} (h : Prevails terms entered) (hperm : entered.Perm entered') :
    Prevails terms entered' where
  mem := hperm.mem_iff.1 h.mem
  strictest t ht := h.strictest t (hperm.mem_iff.2 ht)
  cheapest t ht := h.cheapest t (hperm.mem_iff.2 ht)

end Prevails

namespace ConnectionTable

/-- The table of some entries, made one after another. -/
def ofEntries (entries : List ConnectionEntry) : ConnectionTable :=
  entries.foldl (fun table e => table.insert e.alight e.board e.terms) .empty

/-- The terms that are entered for one change. -/
def termsFor (entries : List ConnectionEntry) (alight board : TripCall) : List ConnectionTerms :=
  (entries.filter fun e => e.alight = alight ∧ e.board = board).map (·.terms)

/-- The trips of a route with a change to them at `position` after `alight`, by their first entries. -/
def tripsFor (entries : List ConnectionEntry) (alight : TripCall) (route : RouteIndex) (position : Position) :
    List Nat :=
  ((keys entries).eraseDups.filter fun k => k.1 = alight ∧ k.2.route = route ∧ k.2.position = position).map (·.2.trip)

variable {entries entries' : List ConnectionEntry} {e : ConnectionEntry} {alight board : TripCall}

theorem ofEntries_concat : ofEntries (entries ++ [e]) = (ofEntries entries).insert e.alight e.board e.terms :=
  List.foldl_concat ..

theorem mem_keys : (alight, board) ∈ keys entries ↔ ∃ e ∈ entries, e.alight = alight ∧ e.board = board := by
  simp [keys]

/-! ## Looking a change up -/

/-- New terms for a change are merged into those it has, and leave all other changes alone. -/
theorem lookup?_insert (table : ConnectionTable) (alight board : TripCall) (terms : ConnectionTerms)
    (alight' board' : TripCall) : (table.insert alight board terms).lookup? alight' board' =
      if alight = alight' ∧ board = board' then some ((table.lookup? alight board).elim terms (·.merge terms))
      else table.lookup? alight' board' := by
  obtain ⟨entries⟩ := table
  unfold insert lookup?
  dsimp only
  induction entries with
  | nil => by_cases hkey : alight = alight' ∧ board = board' <;> simp [enter, hkey]
  | cons e entries ih =>
    -- The first entry is for the change with the new terms, for the one that is looked up, or for neither.
    by_cases hown : e.alight = alight ∧ e.board = board
    · by_cases hkey : alight = alight' ∧ board = board' <;> simp [enter, hown, hkey]
    · by_cases hother : e.alight = alight' ∧ e.board = board'
      · have hkey : ¬ (alight = alight' ∧ board = board') := fun hkey =>
          hown ⟨hother.1.trans hkey.1.symm, hother.2.trans hkey.2.symm⟩
        rw [enter, if_neg hown, if_neg hkey]
        simp [hother]
      · simpa [enter, hown, hother] using ih

/-- The table tells the terms that prevail among those entered for a change. -/
theorem lookup?_ofEntries (entries : List ConnectionEntry) (alight board : TripCall) :
    match (ofEntries entries).lookup? alight board with
    | none => termsFor entries alight board = []
    | some terms => Prevails terms (termsFor entries alight board) := by
  induction entries using List.reverseRecOn with
  | nil => rfl
  | append_singleton entries e ih =>
    rw [ofEntries_concat, lookup?_insert]
    unfold termsFor at ih ⊢
    rw [List.filter_append, List.map_append]
    by_cases hkey : e.alight = alight ∧ e.board = board
    · obtain ⟨rfl, rfl⟩ := hkey
      simp only [and_self, if_true, decide_true, List.filter_cons_of_pos, List.filter_nil, List.map_cons, List.map_nil]
      cases hold : (ofEntries entries).lookup? e.alight e.board with
      | none =>
        rw [hold] at ih
        rw [ih]
        exact .single e.terms
      | some old =>
        rw [hold] at ih
        exact ih.merge e.terms
    · simpa [hkey] using ih

/-! ## The changes of a table -/

/-- A change keeps the place of its first entry. -/
theorem keys_ofEntries (entries : List ConnectionEntry) :
    keys (ofEntries entries).entries = (keys entries).eraseDups := by
  induction entries using List.reverseRecOn with
  | nil => rfl
  | append_singleton entries e ih =>
    have hconcat : keys (entries ++ [e]) = keys entries ++ [(e.alight, e.board)] := by simp [keys]
    rw [ofEntries_concat, hconcat, eraseDups_concat]
    show keys (enter e.alight e.board e.terms (ofEntries entries).entries) = _
    rw [keys_enter, ih]

theorem nodup_keys_ofEntries (entries : List ConnectionEntry) : (keys (ofEntries entries).entries).Nodup :=
  (keys_fold entries .empty List.nodup_nil).1

theorem isSome_lookup? (table : ConnectionTable) (alight board : TripCall) :
    (table.lookup? alight board).isSome ↔ (alight, board) ∈ keys table.entries := by
  simp [lookup?, mem_keys]

theorem isSome_lookup?_ofEntries :
    ((ofEntries entries).lookup? alight board).isSome ↔ (alight, board) ∈ keys entries := by
  rw [isSome_lookup?, keys_ofEntries, List.mem_eraseDups]

theorem size_eq_length (table : ConnectionTable) : table.size = (keys table.entries).length := by
  simp [size, keys]

/-- A table grows by one with a change that it does not have, and not otherwise. -/
theorem size_insert (table : ConnectionTable) (alight board : TripCall) (terms : ConnectionTerms) :
    (table.insert alight board terms).size =
      if (table.lookup? alight board).isSome then table.size else table.size + 1 := by
  rw [size_eq_length, size_eq_length]
  show (keys (enter alight board terms table.entries)).length = _
  rw [keys_enter]
  by_cases hmem : (alight, board) ∈ keys table.entries
  · rw [if_pos hmem, if_pos ((isSome_lookup? ..).2 hmem)]
  · rw [if_neg hmem, if_neg (mt (isSome_lookup? ..).1 hmem), List.length_append]
    rfl

/-- Each distinct change counts once. -/
theorem size_ofEntries (entries : List ConnectionEntry) : (ofEntries entries).size = (keys entries).toFinset.card := by
  induction entries using List.reverseRecOn with
  | nil => rfl
  | append_singleton entries e ih =>
    have hkeys : (keys (entries ++ [e])).toFinset = Insert.insert (e.alight, e.board) (keys entries).toFinset := by
      ext k
      simp [keys]
    rw [ofEntries_concat, size_insert, ih, hkeys]
    by_cases hmem : (e.alight, e.board) ∈ keys entries
    · rw [if_pos (isSome_lookup?_ofEntries.2 hmem), Finset.insert_eq_of_mem (List.mem_toFinset.2 hmem)]
    · rw [if_neg (mt isSome_lookup?_ofEntries.1 hmem), Finset.card_insert_of_notMem (mt List.mem_toFinset.1 hmem)]

/-! ## The trips with terms -/

theorem boarding_trips (table : ConnectionTable) (alight : TripCall) (route : RouteIndex) (position : Position) :
    (table.boarding alight route position).map (·.1) =
      ((keys table.entries).filter fun k => k.1 = alight ∧ k.2.route = route ∧ k.2.position = position).map
        (·.2.trip) := by
  unfold boarding keys
  rw [List.filter_map, List.map_map, List.map_map]
  rfl

/-- Just the trips are listed for which the table tells terms. -/
theorem mem_boarding_trips (table : ConnectionTable) (alight : TripCall) (route : RouteIndex) (position : Position)
    (trip : Nat) : trip ∈ (table.boarding alight route position).map (·.1) ↔
      (table.lookup? alight ⟨route, trip, position⟩).isSome := by
  rw [boarding_trips, isSome_lookup?, List.mem_map]
  constructor
  · rintro ⟨⟨a, r, t, p⟩, hk, rfl⟩
    obtain ⟨hmem, hkey⟩ := List.mem_filter.1 hk
    obtain ⟨rfl, rfl, rfl⟩ := of_decide_eq_true hkey
    exact hmem
  · exact fun hmem => ⟨_, List.mem_filter.2 ⟨hmem, by simp⟩, rfl⟩

/-- Two changes to one route at one position differ in the trip. -/
theorem nodup_boarding_trips {table : ConnectionTable} (h : (keys table.entries).Nodup) (alight : TripCall)
    (route : RouteIndex) (position : Position) : ((table.boarding alight route position).map (·.1)).Nodup := by
  rw [boarding_trips]
  refine List.Nodup.map_on (fun k hk k' hk' htrip => ?_) (h.filter _)
  obtain ⟨halight, hroute, hposition⟩ := of_decide_eq_true (List.mem_filter.1 hk).2
  obtain ⟨halight', hroute', hposition'⟩ := of_decide_eq_true (List.mem_filter.1 hk').2
  obtain ⟨a, r, t, p⟩ := k
  obtain ⟨a', r', t', p'⟩ := k'
  simp_all

/-- A trip is listed with the terms that the table tells for it. -/
theorem lookup?_of_mem_boarding {table : ConnectionTable} (h : (keys table.entries).Nodup) {route : RouteIndex}
    {position : Position} {trip : Nat} {terms : ConnectionTerms}
    (hmem : (trip, terms) ∈ table.boarding alight route position) :
    table.lookup? alight ⟨route, trip, position⟩ = some terms := by
  obtain ⟨e, he, heq⟩ := List.mem_map.1 hmem
  obtain ⟨hentry, hkey⟩ := List.mem_filter.1 he
  obtain ⟨rfl, rfl, rfl⟩ := of_decide_eq_true hkey
  obtain ⟨rfl, rfl⟩ := Prod.mk.inj heq
  exact lookup?_of_mem h hentry

/-! ## Any order -/

/-- What a table tells of each change after some entries. -/
structure Sums (table : ConnectionTable) (entries : List ConnectionEntry) : Prop where
  isSome_iff : ∀ alight board, (table.lookup? alight board).isSome ↔ (alight, board) ∈ keys entries
  prevails : ∀ alight board terms, table.lookup? alight board = some terms →
    Prevails terms (termsFor entries alight board)
  size_eq : table.size = (keys entries).toFinset.card

/-- What a table lists for a boarding after some entries. -/
structure Lists (table : ConnectionTable) (entries : List ConnectionEntry) : Prop where
  trips_eq : ∀ alight route position,
    (table.boarding alight route position).map (·.1) = tripsFor entries alight route position
  nodup : ∀ alight route position, ((table.boarding alight route position).map (·.1)).Nodup
  mem_iff : ∀ alight route position trip, trip ∈ (table.boarding alight route position).map (·.1) ↔
    (table.lookup? alight ⟨route, trip, position⟩).isSome
  terms_eq : ∀ alight route position, ∀ entry ∈ table.boarding alight route position,
    table.lookup? alight ⟨route, entry.1, position⟩ = some entry.2

theorem sums_ofEntries (entries : List ConnectionEntry) : (ofEntries entries).Sums entries where
  isSome_iff _ _ := isSome_lookup?_ofEntries
  prevails alight board terms h := by
    have hlookup := lookup?_ofEntries entries alight board
    rw [h] at hlookup
    exact hlookup
  size_eq := size_ofEntries entries

theorem lists_ofEntries (entries : List ConnectionEntry) : (ofEntries entries).Lists entries where
  trips_eq alight route position := by
    rw [boarding_trips, keys_ofEntries]
    rfl
  nodup := nodup_boarding_trips (nodup_keys_ofEntries entries)
  mem_iff := mem_boarding_trips (ofEntries entries)
  terms_eq _ _ _ _ h := lookup?_of_mem_boarding (nodup_keys_ofEntries entries) h

theorem Sums.perm {table : ConnectionTable} (h : table.Sums entries) (hperm : entries.Perm entries') :
    table.Sums entries' where
  isSome_iff alight board := (h.isSome_iff alight board).trans (hperm.map _).mem_iff
  prevails alight board terms hterms := (h.prevails alight board terms hterms).perm ((hperm.filter _).map _)
  size_eq := h.size_eq.trans (congrArg Finset.card (List.toFinset_eq_of_perm _ _ (hperm.map _)))

/-- Two tables that sum up the same entries agree on the rule and the priority cost of every change. -/
theorem Sums.agree {table table' : ConnectionTable} (h : table.Sums entries) (h' : table'.Sums entries)
    (alight board : TripCall) :
    (table.lookup? alight board).map (fun t => (t.rule, termsCost (some t))) =
      (table'.lookup? alight board).map fun t => (t.rule, termsCost (some t)) := by
  have hsome := (h.isSome_iff alight board).trans (h'.isSome_iff alight board).symm
  cases hlookup : table.lookup? alight board with
  | none =>
    rw [hlookup] at hsome
    rw [Option.not_isSome_iff_eq_none.1 (mt hsome.2 (by simp))]
  | some terms =>
    rw [hlookup] at hsome
    obtain ⟨terms', hlookup'⟩ := Option.isSome_iff_exists.1 (hsome.1 rfl)
    obtain ⟨hrule, hcost⟩ := (h.prevails _ _ _ hlookup).unique (h'.prevails _ _ _ hlookup')
    rw [hlookup', Option.map_some, Option.map_some, hrule, hcost]

/-- In whatever order some entries are made, the table tells of each change the strictest rule that has been
entered for it, at the least priority cost that has been entered with that rule, and counts each change once.
Trips are listed in the order of their first entries. -/
theorem ofEntries_perm {entries entries' : List ConnectionEntry} (h : entries.Perm entries') :
    (ofEntries entries').Sums entries ∧ (ofEntries entries').Lists entries' ∧
      ∀ alight board, ((ofEntries entries').lookup? alight board).map (fun t => (t.rule, termsCost (some t))) =
        ((ofEntries entries).lookup? alight board).map fun t => (t.rule, termsCost (some t)) := by
  have hsums := (sums_ofEntries entries').perm h.symm
  exact ⟨hsums, lists_ofEntries entries', hsums.agree (sums_ofEntries entries)⟩

/-- Promises for the changes from one trip to two trips of a route, and what is entered for them later. -/
def repeated : List ConnectionEntry :=
  [⟨⟨0, 0, 1⟩, ⟨1, 2, 0⟩, .guaranteed, .allowed⟩,
    ⟨⟨0, 0, 1⟩, ⟨1, 5, 0⟩, .guaranteed, .recommended⟩,
    ⟨⟨0, 0, 1⟩, ⟨1, 2, 0⟩, .minimumTime 120, .allowed⟩,
    ⟨⟨0, 0, 1⟩, ⟨1, 2, 0⟩, .minimumTime 120, .preferred⟩,
    ⟨⟨0, 0, 1⟩, ⟨1, 5, 0⟩, .notAllowed, .preferred⟩,
    ⟨⟨0, 0, 1⟩, ⟨1, 5, 0⟩, .minimumTime 3600, .allowed⟩]

/-- Backwards the same terms remain, and the trips change places. -/
theorem repeated_reverse : repeated.Perm repeated.reverse ∧
    (ofEntries repeated.reverse).Sums repeated ∧ (ofEntries repeated.reverse).Lists repeated.reverse ∧
      (ofEntries repeated).boarding ⟨0, 0, 1⟩ 1 0 =
        [(2, ⟨.minimumTime 120, .preferred⟩), (5, ⟨.notAllowed, .preferred⟩)] ∧
      (ofEntries repeated.reverse).boarding ⟨0, 0, 1⟩ 1 0 =
        [(5, ⟨.notAllowed, .preferred⟩), (2, ⟨.minimumTime 120, .preferred⟩)] := by
  have hperm : repeated.Perm repeated.reverse := (List.reverse_perm repeated).symm
  obtain ⟨hsums, hlists, -⟩ := ofEntries_perm hperm
  exact ⟨hperm, hsums, hlists, by decide, by decide⟩

end ConnectionTable

end JourneyPlanner
