import Mathlib.Data.List.Chain
import JourneyPlanner.Proofs.Recording
import JourneyPlanner.Proofs.Retracing
/-!
# Every arrival goes back to an access path

In every state of a search each arrival of the log continues one with a smaller number, or has come by an
access path (`ArrivalLog.Rooted`). So whoever follows an arrival back comes to an access path
(`ArrivalLog.Rooted.chain_gives`). What a store hands out to board from is of an earlier round, and with
frontiers of the round before; what it hands out to walk on from is of the same round. That is why an
arrival has no more rides than its round, and with frontiers just as many.
-/
namespace JourneyPlanner

namespace ArrivalLog

/-- Each arrival of the log continues one with a smaller number, by rides from a round `before` and by transfers in
the same round, and has no more rides than its round. -/
structure Rooted (before : Nat → Nat → Prop) (limit : Nat) (log : ArrivalLog) : Prop where
  continues : ∀ id a, log.get? id = .ok a → log.Continues before a
  backward : log.Backward
  rides_le : ∀ id a, log.get? id = .ok a → a.rides ≤ a.round
  round_le : ∀ id a, log.get? id = .ok a → a.round ≤ limit

/-- The arrivals lead to `a`: the first one is by an access path, no other one is, and each other one continues the
one before it. -/
structure LeadTo (log : ArrivalLog) (first : Arrival) (rest : List Arrival) (a : Arrival) : Prop where
  first_isAccess : first.isAccess = true
  rest_isAccess : ∀ b ∈ rest, b.isAccess = false
  getLast_eq : (first :: rest).getLast? = some a
  linked : (first :: rest).IsChain fun b c => ∃ id, c.parent = some id ∧ log.get? id = .ok b

variable {before : Nat → Nat → Prop} {limit : Nat} {log : ArrivalLog} {a b : Arrival} {id : Nat}

theorem Continues.cases_parent (h : log.Continues before a) : a.isAccess = true ∧ a.parent = none ∨
    a.isAccess = false ∧ ∃ id b, a.parent = some id ∧ log.get? id = .ok b := by
  unfold Arrival.isAccess
  cases h with
  | access hvia hparent _ =>
    rw [hvia]
    exact .inl ⟨rfl, hparent⟩
  | ride hvia hparent hget _ _ =>
    rw [hvia]
    exact .inr ⟨rfl, _, _, hparent, hget⟩
  | transfer hvia hparent hget _ _ _ _ =>
    rw [hvia]
    exact .inr ⟨rfl, _, _, hparent, hget⟩

/-- What relates rides and round of every arrival of the log does so for one that continues them. -/
theorem Continues.tallies {T : Nat → Nat → Prop} (h : log.Continues before a)
    (hlog : ∀ id b, log.get? id = .ok b → T b.rides b.round) (haccess : ∀ k, T k k)
    (hride : ∀ n j k, T n j → before j k → T (n + 1) k) : T a.rides a.round := by
  cases h with
  | access _ _ hrides =>
    rw [hrides]
    exact haccess _
  | ride _ _ hget hrides hround =>
    rw [hrides]
    exact hride _ _ _ (hlog _ _ hget) hround
  | transfer _ _ hget _ _ hrides hround =>
    rw [hrides, hround]
    exact hlog _ _ hget

theorem rooted_empty : Rooted before limit .empty where
  continues _ _ h := by cases h
  backward _ _ h := by cases h
  rides_le _ _ h := by cases h
  round_le _ _ h := by cases h

/-- One more arrival that continues those of the log. -/
theorem Rooted.push (h : log.Rooted before limit) (hcontinues : log.Continues before a) (hround : a.round ≤ limit)
    (hbefore : ∀ j k, before j k → j < k) : (log.push a).Rooted before limit where
  continues := forall_push (fun id b hb => (h.continues id b hb).mono (extends_push log a))
    (hcontinues.mono (extends_push log a))
  backward id b hb parent hparent := by
    rcases get?_push_cases hb with hb | ⟨rfl, rfl⟩
    · exact h.backward id b hb parent hparent
    · -- What the new arrival continues is in the log, which ends where its number begins.
      obtain ⟨-, hnone⟩ | ⟨-, id, c, hsome, hget⟩ := hcontinues.cases_parent
      · rw [hnone] at hparent
        cases hparent
      · rw [hsome] at hparent
        cases hparent
        exact lt_size hget
  rides_le := forall_push h.rides_le <| hcontinues.tallies h.rides_le (fun _ => Nat.le_refl _)
    fun _ _ _ hle hjk => Nat.succ_le_of_lt (Nat.lt_of_le_of_lt hle (hbefore _ _ hjk))
  round_le := forall_push h.round_le hround

theorem LeadTo.snoc {first : Arrival} {rest : List Arrival} (h : log.LeadTo first rest b) (haccess : a.isAccess = false)
    (hparent : a.parent = some id) (hget : log.get? id = .ok b) : log.LeadTo first (rest ++ [a]) a where
  first_isAccess := h.first_isAccess
  rest_isAccess := List.forall_mem_append.2 ⟨h.rest_isAccess, List.forall_mem_singleton.2 haccess⟩
  getLast_eq := by
    rw [← List.cons_append]
    exact List.getLast?_concat
  linked := by
    rw [← List.cons_append]
    refine List.isChain_append.2 ⟨h.linked, .singleton _, fun x hx y hy => ?_⟩
    rw [h.getLast_eq] at hx
    cases hx
    cases hy
    exact ⟨id, hparent, hget⟩

theorem Rooted.chainOnto_gives (h : log.Rooted before limit) (hget : log.get? id = .ok a) (tail : List Arrival) :
    ∃ first rest, log.chainOnto id tail = .ok (first :: rest ++ tail) ∧ log.LeadTo first rest a := by
  induction id using Nat.strongRecOn generalizing a tail with
  | ind id ih =>
    obtain ⟨haccess, hnone⟩ | ⟨haccess, parent, b, hsome, hparent⟩ := (h.continues id a hget).cases_parent
    · refine ⟨a, [], ?_, haccess, by simp, rfl, .singleton a⟩
      rw [chainOnto, hget]
      simp only [hnone]
      rfl
    · obtain ⟨first, rest, hchain, hleads⟩ := ih parent (h.backward id a hget parent hsome) hparent (a :: tail)
      refine ⟨first, rest ++ [a], ?_, hleads.snoc haccess hsome hparent⟩
      rw [Task.chainOnto_parent h.backward hget hsome, hchain]
      simp

/-- Following an arrival back ends at an access path, and nowhere before. -/
theorem Rooted.chain_gives (h : log.Rooted before limit) (hget : log.get? id = .ok a) :
    ∃ first rest, log.chain id = .ok (first :: rest) ∧ log.LeadTo first rest a := by
  obtain ⟨first, rest, hchain, hleads⟩ := h.chainOnto_gives hget []
  exact ⟨first, rest, by rw [chain, hchain, List.append_nil], hleads⟩

end ArrivalLog

/-! ## What the stores keep -/

theorem EarliestArrivals.rooted_invariant {n m : Nat} (hm : m < 255) :
    ArrivalStore.Invariant m (· < ·) fun s : EarliestArrivals => Good n m s ∧ s.log.Rooted (· < ·) m where
  beginIteration _ h := ⟨h.1.beginIteration, h.2⟩
  beginRound _ hk h := ⟨h.1.beginRound hk, h.2⟩
  reject _ h := h
  accept {s s' a id} h hround hcontinues haccept := by
    obtain ⟨hgood, hrooted⟩ := h
    have hstop := hgood.stop_lt_of_accept haccept
    have htallies : Tallies a.rides a.round := by
      refine hcontinues.tallies hgood.tallies (fun k => ⟨Nat.le_refl k, fun h => h⟩) ?_
      rintro n j k ⟨hle, -⟩ hjk
      exact ⟨Nat.succ_le_of_lt (Nat.lt_of_le_of_lt hle hjk), fun _ => Nat.succ_pos n⟩
    have hle : a.round ≤ m := hround ▸ hgood.round_le
    obtain ⟨rfl, -⟩ := Prod.mk.inj (Except.ok.inj ((accept_eq hgood hstop).symm.trans haccept))
    exact ⟨hgood.accepted hstop hround htallies, hrooted.push hcontinues hle fun _ _ h => h⟩
  boards {s stop ids} h hids id hid := by
    obtain ⟨a, ha, -, hlt⟩ := h.1.arrival_of_boardable hids hid
    have hrides := h.2.rides_le id a ha
    have hround := h.2.round_le id a ha
    exact ⟨a, ha, hlt, by omega⟩
  walks {s stop ids} h hids id hid := h.1.arrival_of_transferable hids hid

theorem ArrivalFrontiers.rooted_invariant {n m : Nat} (hm : m < 255) :
    ArrivalStore.Invariant m (fun j k => j + 1 = k) fun s : ArrivalFrontiers =>
      Good n m s ∧ s.log.Rooted (fun j k => j + 1 = k) m where
  beginIteration i h := ⟨h.1.beginIteration i, h.2⟩
  beginRound _ hk h := ⟨h.1.beginRound hk, h.2⟩
  reject _ h := h
  accept {s s' a id} h hround hcontinues haccept := by
    obtain ⟨hgood, hrooted⟩ := h
    obtain ⟨hstop, f, hf⟩ := hgood.frontier_of_accept haccept
    have htallies : a.rides = a.round :=
      hcontinues.tallies hgood.tallies (fun _ => rfl) fun _ _ _ heq hjk => heq ▸ hjk
    have hle : a.round ≤ m := hround ▸ hgood.round_le
    obtain ⟨rfl, -⟩ := Prod.mk.inj (Except.ok.inj ((accept_eq hf).symm.trans haccept))
    have hbefore : ∀ j k, j + 1 = k → j < k := fun j k h => h ▸ Nat.lt_succ_self j
    exact ⟨hgood.accepted f hstop hround htallies, hrooted.push hcontinues hle hbefore⟩
  boards {s stop ids} h hids id hid := by
    obtain ⟨a, ha, -, heq⟩ := h.1.arrival_of_boardable hids hid
    have hrides := h.2.rides_le id a ha
    have hround := h.2.round_le id a ha
    exact ⟨a, ha, heq, by omega⟩
  walks {s stop ids} h hids id hid := h.1.arrival_of_transferable hids hid

namespace Network

/-- In every state of a search, with either store, each arrival goes back to an access path. So it is wherever the
clock breaks the search off. -/
theorem arrivals_rooted {net : Network} (hnet : net.IsBuilt) {settings : Settings} (hsettings : settings.check = .ok ())
    {request : Request} (hrequest : request.check net.stopCount = .ok ()) (clock : Clock) :
    (Task.ofRequest net settings request clock).Always (EarliestArrivals.init net.stopCount settings.maxRounds) (fun s =>
        s.log.Rooted (· < ·) settings.maxRounds ∧ ∀ id a, s.log.get? id = .ok a →
          ∃ first rest, s.log.chain id = .ok (first :: rest) ∧ s.log.LeadTo first rest a) ∧
      (Task.ofRequest net settings request clock).Always (ArrivalFrontiers.init net.stopCount settings.frontierSize)
        (fun s => s.log.Rooted (fun j k => j + 1 = k) settings.maxRounds ∧ ∀ id a, s.log.get? id = .ok a →
          a.rides = a.round ∧ ∃ first rest, s.log.chain id = .ok (first :: rest) ∧ s.log.LeadTo first rest a) := by
  have hready := Task.ready_of_check hnet hsettings hrequest clock
  have hm : settings.maxRounds < 255 := Nat.lt_of_le_of_lt hready.settings.maxRounds_le (by omega)
  obtain ⟨hearliest, hfrontiers⟩ := Task.runs_give hready
  have hempty : EarliestArrivals.Good net.stopCount settings.maxRounds (.init net.stopCount settings.maxRounds) :=
    EarliestArrivals.good_init _ _
  have hempty' : ArrivalFrontiers.Good net.stopCount settings.maxRounds (.init net.stopCount settings.frontierSize) :=
    ArrivalFrontiers.good_init _ (Nat.lt_succ_of_lt hm)
  constructor
  · have halways := Task.always_of_run (EarliestArrivals.rooted_invariant hm)
      ⟨hempty, ArrivalLog.rooted_empty⟩ hearliest
    exact halways.mono fun s h => ⟨h.2, fun id a ha => h.2.chain_gives ha⟩
  · have halways := Task.always_of_run (ArrivalFrontiers.rooted_invariant hm)
      ⟨hempty', ArrivalLog.rooted_empty⟩ hfrontiers
    exact halways.mono fun s h => ⟨h.2, fun id a ha => ⟨h.1.tallies id a ha, h.2.chain_gives ha⟩⟩

/-- The search for the ferry goes back from the island to the flexible service, a walk and a ride later. -/
theorem ferry_arrivals_rooted :
    (Task.ofRequest ferry .standard .overFerry).Always
        (EarliestArrivals.init ferry.stopCount Settings.standard.maxRounds)
        (fun s => s.log.Rooted (· < ·) Settings.standard.maxRounds) ∧
      (Task.ofRequest ferry .standard .overFerry).Always
        (ArrivalFrontiers.init ferry.stopCount Settings.standard.frontierSize)
        (fun s => s.log.Rooted (fun j k => j + 1 = k) Settings.standard.maxRounds) ∧
      (((Task.ofRequest ferry .standard .overFerry).run
          (EarliestArrivals.init ferry.stopCount Settings.standard.maxRounds)).toOption.bind fun outcome =>
        (outcome.store.log.chain 2).toOption.map (·.map fun a => (a.parent, a.rides, a.round))) =
        some [(none, 1, 1), (some 0, 1, 1), (some 1, 2, 2)] := by
  obtain ⟨hearliest, hfrontiers⟩ := arrivals_rooted ferry_isBuilt Settings.check_standard Request.check_overFerry .still
  exact ⟨hearliest.mono fun _ h => h.1, hfrontiers.mono fun _ h => h.1, by decide +kernel⟩

end Network

end JourneyPlanner
