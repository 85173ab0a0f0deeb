import JourneyPlanner.Proofs.Retracing
import JourneyPlanner.Search.Reconnect
/-!
# Moved changes keep a journey

Moving the changes of an itinerary keeps its runs, its first boarding and its last alighting. Whatever
changes are chosen, each of them is one that a search could have made (`Task.Linked`), so that the legs
between the first boarding and the last alighting are steps again.
-/
namespace JourneyPlanner

namespace Score

theorem ext {a b : Score} (hobjective : a.objective = b.objective) (hcost : a.cost = b.cost) : a = b := by
  cases a
  cases b
  simp_all

theorem add_assoc (a b c : Score) : a + b + c = a + (b + c) :=
  ext (Int.add_assoc ..) (Int.add_assoc ..)

theorem zero_add (a : Score) : zero + a = a := ext (Int.zero_add _) (Int.zero_add _)

end Score

/-- The ride is a part of a run of the network. -/
structure PlannedRide.Real (task : Task) (r : PlannedRide) : Prop where
  route : task.network.routes[r.route.index]? = some r.route
  offers : r.route.Offers r.run
  resolves : r.route.run? r.run.ref = some r.run
  boardable : task.pricing.boardable r.run.schedule = true
  leg_eq : r.leg = .ofRun r.route r.run r.leg.boardPosition r.leg.alightPosition
  board_lt : r.leg.boardPosition < r.leg.alightPosition
  alight_lt : r.leg.alightPosition < r.route.pattern.size

namespace PlannedRide

/-- Someone who stands at `s` may board the ride at position `p`. -/
def Boards (r : PlannedRide) (task : Task) (s : Standing) (p : Position) : Prop :=
  r.route.pattern.stop p = s.stop ∧ task.MayBoard s.last s.time s.rides r.route p r.run

/-- Where the ride leads that ends at position `q`, with so many rides in all. -/
def leadsTo (r : PlannedRide) (q : Position) (rides : Nat) : Standing :=
  ⟨r.route.pattern.stop q, r.run.arrival q, rides, true, r.run.alighted? r.route.index q⟩

variable {task : Task} {r : PlannedRide} {s : Standing} {p q : Position}

theorem call?_eq (r : PlannedRide) (p : Position) : r.call? p = r.leg.run.call? r.route.index p := by
  unfold call? RunRef.call?
  cases r.leg.run <;> rfl

theorem Real.run_eq (h : r.Real task) : r.leg.run = r.run.ref := by
  rw [h.leg_eq]
  rfl

theorem Real.route_eq (h : r.Real task) : r.leg.route = r.route.index := by
  rw [h.leg_eq]
  rfl

theorem Real.partLeg_eq (h : r.Real task) (p q : Position) : Task.partLeg r p q = .ofRun r.route r.run p q := by
  unfold Task.partLeg
  rw [h.leg_eq]
  rfl

theorem Real.partLeg_self (h : r.Real task) : Task.partLeg r r.leg.boardPosition r.leg.alightPosition = r.leg :=
  (h.partLeg_eq _ _).trans h.leg_eq.symm

theorem Real.step (h : r.Real task) (hboards : r.Boards task s p) (hpq : p < q) (hq : q < r.route.pattern.size) :
    task.Step s (.ride (Task.partLeg r p q)) (r.leadsTo q (s.rides + 1)) := by
  rw [h.partLeg_eq]
  exact .ride h.route h.offers h.resolves h.boardable hpq hq hboards.1 hboards.2

end PlannedRide

/-- The only way to ride it is to board its run and to be led where it ends. -/
theorem PlannedRide.Real.of_step {task : Task} {r : PlannedRide} {s s' : Standing} (h : r.Real task)
    (hstep : task.Step s (.ride r.leg) s') :
    r.Boards task s r.leg.boardPosition ∧ s' = r.leadsTo r.leg.alightPosition (s.rides + 1) := by
  generalize hleg : r.leg = leg at hstep
  cases hstep with
  | @ride route run p q hroute hoffers hrun hboardable hpq hq hstop hmay =>
    have heq : RideLeg.ofRun r.route r.run r.leg.boardPosition r.leg.alightPosition = .ofRun route run p q :=
      h.leg_eq.symm.trans hleg
    have hindex : r.route.index = route.index := congrArg RideLeg.route heq
    obtain rfl : r.route = route := by
      have key := h.route
      rw [hindex, hroute] at key
      exact (Option.some.inj key).symm
    obtain rfl : r.run = run := by
      have href : r.run.ref = run.ref := congrArg RideLeg.run heq
      have key := h.resolves
      rw [href, hrun] at key
      exact (Option.some.inj key).symm
    exact ⟨⟨hstop, hmay⟩, rfl⟩

namespace Task

variable {task : Task} {s s' : Standing}

/-- The changes connect the rides, the first of which is boarded at the position. -/
def Linked (task : Task) : Position → List PlannedRide → List Change → Prop
  | board, [ride], [] => board < ride.leg.alightPosition
  | board, ride :: next :: rest, change :: changes =>
    board < change.alight ∧ change.alight < ride.size ∧
      task.changeTransfer? ride change.alight next change.board = some change.transfer ∧
      task.isFeasible ride change.alight next change.board change.transfer = true ∧
      task.Linked change.board (next :: rest) changes
  | _, _, _ => False

/-- The changes are an assignment for the rides, the first of which is boarded at the position: each of them is the
one that `connect?` makes of its places, every ride is boarded before it is left, and a ride between two others
before the last position of its pattern. -/
inductive Assigned (task : Task) : Position → List PlannedRide → List Change → Prop
  | last {board : Position} {ride : PlannedRide} :
      board < ride.leg.alightPosition → Assigned task board [ride] []
  | change {board : Position} {ride next : PlannedRide} {rest : List PlannedRide} {change : Change}
      {changes : List Change} :
      board < change.alight → change.alight < ride.size →
      change.board < next.size → (rest ≠ [] → change.board < next.size - 1) →
      task.connect? ride board change.alight next change.board = some change →
      Assigned task change.board (next :: rest) changes →
      Assigned task board (ride :: next :: rest) (change :: changes)

/-! ## One change -/

/-- The best of some entries is one of them. -/
theorem mem_of_foldl_best {α : Type} {f : Option α → α → Option α} {entries : List α} {a : α}
    (hf : ∀ best e, f best e = best ∨ f best e = some e) (h : entries.foldl f none = some a) : a ∈ entries := by
  induction entries using List.reverseRecOn with
  | nil => cases h
  | append_singleton entries e ih =>
    rw [List.foldl_append, List.foldl_cons, List.foldl_nil] at h
    rcases hf (entries.foldl f none) e with heq | heq <;> rw [heq] at h
    · exact List.mem_append_left _ (ih h)
    · cases h
      simp

theorem mem_of_transferBetween? {net : Network} {source target : Stop} {transfer : Transfer}
    (h : net.transferBetween? source target = some transfer) :
    transfer ∈ net.transfersFrom source ∧ transfer.target = target := by
  have hquicker : ∀ best e, Network.quicker best e = best ∨ Network.quicker best e = some e := by
    intro best e
    unfold Network.quicker
    split
    · exact .inr rfl
    · split
      · exact .inr rfl
      · exact .inl rfl
  have hmem := mem_of_foldl_best hquicker h
  obtain ⟨hfrom, htarget⟩ := List.mem_filter.1 hmem
  exact ⟨hfrom, of_decide_eq_true htarget⟩

/-- A change that is feasible is one that the rules allow. -/
theorem boards_of_isFeasible {ride next : PlannedRide} (hride : ride.Real task) (hnext : next.Real task)
    {alight board : Position} {transfer : Option Transfer} {reached : Standing}
    (h : task.isFeasible ride alight next board transfer = true)
    (hstop : next.route.pattern.stop board = reached.stop) (htime : reached.time = atStop ride alight transfer)
    (hrides : 0 < reached.rides) (hlast : reached.last = ride.run.alighted? ride.route.index alight) :
    next.Boards task reached board := by
  have hrule : (task.changeTerms? ride alight next board).map ConnectionTerms.rule =
      task.network.boardingRule? reached.last next.route board next.run := by
    unfold changeTerms? Network.boardingRule? Network.rule?
    rw [hlast, PlannedRide.call?_eq, PlannedRide.call?_eq, hride.run_eq, hnext.run_eq]
    unfold Run.alighted?
    cases ride.run.ref.call? ride.route.index alight <;> cases next.run.ref.call? next.route.index board <;> rfl
  refine ⟨hstop, ?_⟩
  simp only [isFeasible] at h
  rw [hrule] at h
  unfold MayBoard
  rw [if_pos hrides, htime]
  generalize hterms : task.network.boardingRule? reached.last next.route board next.run = rule at h ⊢
  cases rule with
  | none =>
    have hfloor := of_decide_eq_true h
    exact hfloor
  | some rule =>
    cases rule with
    | notAllowed => cases h
    | guaranteed => trivial
    | minimumTime secs =>
      -- A rule between two trips is there only if the first of them is scheduled.
      have halighted : reached.last.elim (atStop ride alight transfer) (·.time) = ride.run.arrival alight := by
        rw [hlast] at hterms ⊢
        simp only [Run.alighted?] at hterms ⊢
        cases hcall : ride.run.ref.call? ride.route.index alight with
        | none =>
          rw [hcall] at hterms
          cases hterms
        | some call => rfl
      unfold ChangeAllowed
      rw [halighted]
      exact of_decide_eq_true h

/-! ## The legs of linked rides -/

/-- The legs of linked rides are steps, from the first boarding to the last alighting. -/
theorem Linked.steps {first : PlannedRide} {rest : List PlannedRide} {board : Position} {changes : List Change}
    (h : task.Linked board (first :: rest) changes) (hreal : ∀ r ∈ first :: rest, r.Real task)
    (hboards : first.Boards task s board) :
    task.Steps s (task.changedLegs board (first :: rest) changes)
      (((first :: rest).getLast (List.cons_ne_nil _ _)).leadsTo
        ((first :: rest).getLast (List.cons_ne_nil _ _)).leg.alightPosition (s.rides + (rest.length + 1))) := by
  induction rest generalizing first board changes s with
  | nil =>
    have hfirst := hreal first (by simp)
    cases changes with
    | nil => exact .cons (hfirst.step hboards h hfirst.alight_lt) .nil
    | cons change changes => exact h.elim
  | cons next rest ih =>
    have hfirst := hreal first (by simp)
    have hnext := hreal next (by simp)
    cases changes with
    | nil => exact h.elim
    | cons change changes =>
      obtain ⟨hlt, hsize, htransfer, hfeasible, hlinked⟩ := h
      have hride := hfirst.step hboards hlt hsize
      have hrest := fun s hs => ih (s := s) hlinked (fun r hr => hreal r (by simp [hr])) hs
      have hcount : s.rides + ((next :: rest).length + 1) = s.rides + 1 + (rest.length + 1) := by
        rw [List.length_cons]
        omega
      rw [List.getLast_cons (List.cons_ne_nil _ _), hcount]
      unfold changedLegs
      simp only [changeTransfer?] at htransfer
      split at htransfer
      · -- The next ride is boarded where this one is left.
        rename_i hstop
        have hnone : change.transfer = none := (Option.some.inj htransfer).symm
        rw [hnone] at hfeasible ⊢
        have htime : first.run.arrival change.alight = atStop first change.alight none := by
          unfold atStop
          exact (Time.add_zero _).symm
        exact .cons hride (hrest _ (boards_of_isFeasible hfirst hnext hfeasible hstop.symm htime (Nat.succ_pos _) rfl))
      · obtain ⟨t, ht, hsome⟩ := Option.map_eq_some_iff.1 htransfer
        obtain ⟨hfrom, htarget⟩ := mem_of_transferBetween? ht
        rw [← hsome] at hfeasible ⊢
        have hwalk : task.Step (first.leadsTo change.alight (s.rides + 1))
            (.transfer (task.changeLeg first change.alight t))
            ⟨t.target, first.run.arrival change.alight + t.duration, s.rides + 1, false,
              first.run.alighted? first.route.index change.alight⟩ :=
          .transfer rfl hfrom rfl rfl rfl rfl rfl rfl
        exact .cons hride (.cons hwalk
          (hrest _ (boards_of_isFeasible hfirst hnext hfeasible htarget.symm rfl (Nat.succ_pos _) rfl)))

/-! ## The changes that are chosen -/

theorem betterChoice_eq (best : Option BoardChoice) (choice : BoardChoice) :
    betterChoice best choice = best ∨ betterChoice best choice = some choice := by
  unfold betterChoice
  split
  · exact .inr rfl
  · split
    · exact .inr rfl
    · exact .inl rfl

/-- The score of some rides with the changes between them, the first ride boarded at the position. -/
def totalScore (task : Task) : Position → List PlannedRide → List Change → Score
  | board, [ride], _ => task.lastScore ride board ride.leg.alightPosition
  | board, ride :: next :: rest, change :: changes =>
    task.changeScore ride board change.alight next change.board change.transfer +
      task.totalScore change.board (next :: rest) changes
  | _, _, _ => .zero

/-- However the changes go on from a choice, together with their score they satisfy `P`. -/
def Leads (task : Task) (P : Score → List Change → Prop) (ride : PlannedRide) (rest : List PlannedRide)
    (choices : BoardChoices) : Prop :=
  ∀ board choice, choices[board]? = some (some choice) → (rest = [] → board < ride.leg.alightPosition) ∧
    ∀ changes, task.Assigned board (ride :: rest) changes →
      P (choice.score + task.totalScore board (ride :: rest) changes) (choice.changes.reverse ++ changes)

variable {P : Score → List Change → Prop} {first second : PlannedRide} {rest : List PlannedRide} {choices : BoardChoices}

theorem connect?_eq {start alight board : Position} {change : Change}
    (h : task.connect? first start alight second board = some change) :
    change.alight = alight ∧ change.board = board ∧
      change.score = task.changeScore first start alight second board change.transfer ∧
      task.changeTransfer? first alight second board = some change.transfer ∧
      task.isFeasible first alight second board change.transfer = true := by
  simp only [connect?] at h
  split at h
  · cases h
  · rename_i transfer htransfer
    split at h
    · rename_i hfeasible
      cases h
      exact ⟨rfl, rfl, rfl, htransfer, hfeasible⟩
    · cases h

theorem Assigned.linked {board : Position} {rides : List PlannedRide} {changes : List Change}
    (h : task.Assigned board rides changes) : task.Linked board rides changes := by
  induction h with
  | last hlt => exact hlt
  | change hlt hsize _ _ hconnect _ ih =>
    obtain ⟨-, -, -, htransfer, hfeasible⟩ := connect?_eq hconnect
    exact ⟨hlt, hsize, htransfer, hfeasible, ih⟩

/-- A way to board the next ride is a way to board this one with one more change. -/
theorem Leads.choicesAt (h : task.Leads P first (second :: rest) choices) {board : Position} (hboard : board < second.size)
    (hmiddle : rest ≠ [] → board < second.size - 1) {choice : BoardChoice}
    (hchoice : choice ∈ task.choicesAt first second choices board) {changes : List Change}
    (hassigned : task.Assigned board (second :: rest) changes) :
    P (choice.score + task.totalScore board (second :: rest) changes) (choice.changes.reverse ++ changes) := by
  simp only [Task.choicesAt] at hchoice
  obtain ⟨⟨c?, start⟩, hmem, hchoice⟩ := List.mem_flatMap.1 hchoice
  have hstart := List.mem_zipIdx_iff_getElem?.1 hmem
  cases c? with
  | none => cases hchoice
  | some c =>
    obtain ⟨alight, halight, hchange⟩ := List.mem_filterMap.1 hchoice
    obtain ⟨change, hconnect, rfl⟩ := Option.map_eq_some_iff.1 hchange
    obtain ⟨rfl, rfl, hscore, -⟩ := connect?_eq hconnect
    have hrange := List.mem_range'_1.1 halight
    rw [List.reverse_cons, List.append_assoc, hscore, Score.add_assoc]
    have hsize : change.alight < first.size := Nat.lt_of_lt_of_le hrange.2 (by omega)
    exact (h start c hstart).2 (change :: changes) (.change hrange.1 hsize hboard hmiddle hconnect hassigned)

theorem of_getElem?_map_range {α : Type} {f : Nat → α} {n i : Nat} {a : α}
    (h : ((List.range n).map f)[i]? = some a) : i < n ∧ f i = a := by
  obtain ⟨hi, heq⟩ := List.getElem?_eq_some_iff.1 h
  exact ⟨by simpa using hi, by simpa using heq⟩

theorem Leads.nextChoices (h : task.Leads P first (second :: rest) choices) :
    task.Leads P second rest (task.nextChoices first second rest.isEmpty choices) := by
  intro board choice hchoice
  simp only [Task.nextChoices] at hchoice
  obtain ⟨hboard, hchoice⟩ := of_getElem?_map_range hchoice
  split at hchoice
  · rename_i hlimit
    refine ⟨fun hlast => ?_, fun changes hassigned => h.choicesAt hboard (fun hne => ?_)
      (mem_of_foldl_best betterChoice_eq hchoice) hassigned⟩
    · rw [hlast] at hlimit
      exact hlimit
    · rw [List.isEmpty_eq_false_iff.2 hne] at hlimit
      exact hlimit
  · cases hchoice

theorem Leads.bestFrom (h : task.Leads P first rest choices) {choice : BoardChoice}
    (hbest : task.bestFrom first choices rest = some choice) : P choice.score choice.changes.reverse := by
  induction rest generalizing first choices with
  | nil =>
    simp only [Task.bestFrom] at hbest
    obtain ⟨⟨c?, board⟩, hmem, hc⟩ := List.mem_filterMap.1 (mem_of_foldl_best betterChoice_eq hbest)
    obtain ⟨c, hsome, rfl⟩ := Option.map_eq_some_iff.1 hc
    have hboard := List.mem_zipIdx_iff_getElem?.1 hmem
    simp only at hsome hboard
    rw [hsome] at hboard
    obtain ⟨hlt, hleads⟩ := h board c hboard
    have key := hleads [] (.last (hlt rfl))
    rwa [List.append_nil] at key
  | cons second rest ih =>
    simp only [Task.bestFrom] at hbest
    exact ih h.nextChoices hbest

/-- What holds of all assignments with their scores holds of the one that is chosen. -/
theorem of_bestChanges? (hlast : rest = [] → first.leg.boardPosition < first.leg.alightPosition)
    {best : Score × List Change} (h : task.bestChanges? (first :: rest) = some best)
    (hP : ∀ changes, task.Assigned first.leg.boardPosition (first :: rest) changes →
      P (task.totalScore first.leg.boardPosition (first :: rest) changes) changes) : P best.1 best.2 := by
  simp only [bestChanges?] at h
  obtain ⟨choice, hbest, rfl⟩ := Option.map_eq_some_iff.1 h
  refine Leads.bestFrom ?_ hbest
  intro board choice hchoice
  obtain ⟨-, hchoice⟩ := of_getElem?_map_range hchoice
  split at hchoice
  · rename_i heq
    cases hchoice
    rw [heq]
    refine ⟨hlast, fun changes hassigned => ?_⟩
    rw [Score.zero_add]
    exact hP changes hassigned
  · cases hchoice

/-- The changes chosen for some rides link them. -/
theorem bestChanges?_linked (hfirst : first.Real task) {best : Score × List Change}
    (h : task.bestChanges? (first :: rest) = some best) :
    task.Linked first.leg.boardPosition (first :: rest) best.2 :=
  of_bestChanges? (P := fun _ changes => task.Linked _ _ changes) (fun _ => hfirst.board_lt) h
    fun _ hassigned => hassigned.linked

/-- The best score is that of the changes chosen. -/
theorem bestChanges?_score (hfirst : first.Real task) {best : Score × List Change}
    (h : task.bestChanges? (first :: rest) = some best) :
    best.1 = task.totalScore first.leg.boardPosition (first :: rest) best.2 :=
  of_bestChanges? (P := fun score changes => score = task.totalScore _ _ changes) (fun _ => hfirst.board_lt) h
    fun _ _ => rfl

/-! ## The rides of a journey -/

theorem Steps.ride_real {legs : List Leg} (h : task.Steps s legs s') :
    ∀ l, .ride l ∈ legs → ∃ route run, ∀ walk, PlannedRide.Real task ⟨l, walk, route, run⟩ := by
  induction h with
  | nil => exact fun l hl => by cases hl
  | cons hstep _ ih =>
    intro l hl
    rcases List.mem_cons.1 hl with rfl | hl
    · cases hstep with
      | @ride route run p q hroute hoffers hrun hboardable hpq hq _ _ =>
        exact ⟨route, run, fun walk => ⟨hroute, hoffers, hrun, hboardable, rfl, hpq, hq⟩⟩
    · exact ih l hl

theorem map_fst_ridesOf (legs : List Leg) : (ridesOf legs).map (·.1) = legs.filterMap Leg.ride? := by
  induction legs using ridesOf.induct with
  | case1 => rfl
  | case2 l t rest ih => simpa [ridesOf, List.filterMap_cons, Leg.ride?] using ih
  | case3 l rest hnot ih => simpa [ridesOf, List.filterMap_cons, Leg.ride?] using ih
  | case4 leg rest hnot hnot' ih =>
    cases leg with
    | ride l => exact absurd rfl (hnot' l)
    | access _ | transfer _ | egress _ => simpa [ridesOf, List.filterMap_cons, Leg.ride?] using ih

/-- The rides of a journey are found in the network. -/
theorem plannedRides?_gives (entries : List (RideLeg × Option TransferLeg))
    (h : ∀ e ∈ entries, ∃ route run, ∀ walk, PlannedRide.Real task ⟨e.1, walk, route, run⟩) :
    Gives (task.plannedRides? entries) fun o => ∃ rides, o = some rides ∧
      rides.map (·.leg) = entries.map (·.1) ∧ ∀ r ∈ rides, r.Real task := by
  induction entries with
  | nil => exact gives_ok ⟨[], rfl, rfl, by simp⟩
  | cons e entries ih =>
    obtain ⟨leg, walk⟩ := e
    obtain ⟨route, run, hreal⟩ := h _ List.mem_cons_self
    obtain ⟨_, hrest, rides, rfl, hmap, hall⟩ := ih fun e he => h e (by simp [he])
    have hroute : task.network.route? leg.route = .ok route := by
      have hget : task.network.routes[leg.route]? = some route := by
        rw [show leg.route = route.index from (hreal walk).route_eq]
        exact (hreal walk).route
      unfold Network.route?
      simp only [hget]
    have hrun : route.run? leg.run = some run := by
      rw [(hreal walk).run_eq]
      exact (hreal walk).resolves
    refine ⟨some (⟨leg, walk, route, run⟩ :: rides), ?_, _, rfl, ?_, ?_⟩
    · unfold plannedRides?
      rw [hroute, ok_bind]
      simp only [hrun]
      rw [hrest]
      rfl
    · rw [List.map_cons, List.map_cons, hmap]
    · intro r hr
      rcases List.mem_cons.1 hr with rfl | hr
      · exact hreal walk
      · exact hall r hr

theorem currentScore?_gives (rides : List PlannedRide) (h : ∀ r ∈ rides, r.Real task) :
    Gives (task.currentScore? rides) fun _ => True := by
  have hcheck : ∀ r ∈ rides, ∀ p ≤ r.leg.alightPosition, r.checkPosition p = .ok () := by
    intro r hr p hp
    exact if_pos (Nat.lt_of_le_of_lt hp (h r hr).alight_lt)
  have hboard : ∀ r ∈ rides, r.checkPosition r.leg.boardPosition = .ok () := fun r hr =>
    hcheck r hr _ (Nat.le_of_lt (h r hr).board_lt)
  have halight : ∀ r ∈ rides, r.checkPosition r.leg.alightPosition = .ok () := fun r hr =>
    hcheck r hr _ (Nat.le_refl _)
  clear h hcheck
  induction rides with
  | nil => exact gives_ok trivial
  | cons first rest ih =>
    cases rest with
    | nil =>
      unfold currentScore?
      rw [halight first (by simp), hboard first (by simp)]
      exact gives_ok trivial
    | cons second rest =>
      have hrest := ih (fun r hr => hboard r (by simp [hr]))
        (fun r hr => halight r (by simp [hr]))
      unfold currentScore?
      split
      · exact gives_ok trivial
      · rw [halight first (by simp), hboard first (by simp),
          hboard second (by simp)]
        exact hrest.bind fun _ _ => gives_pure trivial

/-! ## The new journey -/

/-- Two rides or more stand between legs of other kinds. -/
theorem exists_outer_rides {legs : List Leg} {l : RideLeg} {ls : List RideLeg}
    (h : legs.filterMap Leg.ride? = l :: ls) (hne : ls ≠ []) :
    ∃ before mid l' after, legs = before ++ .ride l :: (mid ++ .ride l' :: after) ∧
      (∀ x ∈ before, x.ride? = none) ∧ (∀ x ∈ after, x.ride? = none) := by
  have hride : ∀ {x : Leg} {l}, x.ride? = some l → x = .ride l := by
    intro x l h
    cases x <;> cases h
    rfl
  obtain ⟨before, x, rest, rfl, hbefore, hx, hrest⟩ := List.filterMap_eq_cons_iff.1 h
  obtain rfl := hride hx
  obtain ⟨ls', l', rfl⟩ := List.eq_nil_or_concat ls |>.resolve_left hne
  rw [List.concat_eq_append] at hrest
  obtain ⟨r1, r2, rfl, _, hr2⟩ := List.filterMap_eq_append_iff.1 hrest
  obtain ⟨r3, y, after, rfl, _, hy, hafter⟩ := List.filterMap_eq_cons_iff.1 hr2
  obtain rfl := hride hy
  exact ⟨before, r1 ++ r3, l', after, by simp, hbefore, List.filterMap_eq_nil_iff.1 hafter⟩

theorem takeWhile_notRide {before : List Leg} (h : ∀ x ∈ before, x.ride? = none) (l : RideLeg) (rest : List Leg) :
    (before ++ .ride l :: rest).takeWhile (fun x => !isRide x) = before := by
  rw [List.takeWhile_append_of_pos fun x hx => by rw [isRide, h x hx]; rfl,
    List.takeWhile_cons_of_neg (by simp [isRide, Leg.ride?]), List.append_nil]

/-- Linked rides in place of those of a row of steps lead to the same end. -/
theorem Steps.relink {before mid after : List Leg} {l l' : RideLeg}
    (h : task.Steps s (before ++ .ride l :: (mid ++ .ride l' :: after)) s')
    (hbefore : ∀ x ∈ before, x.ride? = none) (hafter : ∀ x ∈ after, x.ride? = none) {first : PlannedRide}
    {rest : List PlannedRide} (hreal : ∀ r ∈ first :: rest, r.Real task)
    (hlegs : (first :: rest).map (·.leg) = (before ++ .ride l :: (mid ++ .ride l' :: after)).filterMap Leg.ride?)
    {changes : List Change} (hlinked : task.Linked first.leg.boardPosition (first :: rest) changes) :
    task.Steps s (before ++ (task.changedLegs first.leg.boardPosition (first :: rest) changes ++ after)) s' := by
  have hlegs' : (first :: rest).map (·.leg) = (l :: mid.filterMap Leg.ride?) ++ [l'] := by
    rw [hlegs, List.filterMap_append, List.filterMap_eq_nil_iff.2 hbefore]
    simp only [List.filterMap_cons, List.filterMap_append, Leg.ride?, List.filterMap_eq_nil_iff.2 hafter,
      List.nil_append, List.cons_append]
  have hfirst : first.leg = l := (List.cons.inj hlegs').1
  generalize hlast : (first :: rest).getLast (List.cons_ne_nil _ _) = last
  have hmem : last ∈ first :: rest := hlast ▸ List.getLast_mem _
  have hlast' : last.leg = l' := by
    have key := congrArg List.getLast? hlegs'
    rw [List.getLast?_map, List.getLast?_eq_some_getLast (List.cons_ne_nil _ _), hlast, List.getLast?_concat] at key
    exact Option.some.inj key
  obtain ⟨s1, hs1, h⟩ := h.split
  rw [← List.cons_append] at h
  obtain ⟨s2, hs2, h⟩ := h.split
  -- The rides of the row are the planned ones.
  have hcount : s2.rides + 1 = s1.rides + (rest.length + 1) := by
    have hrides := hs2.rides_eq
    have hlength := congrArg List.length hlegs'
    rw [hs2.connects.rideCount_eq] at hrides
    simp only [List.filterMap_cons, Leg.ride?, List.length_map, List.length_cons, List.length_append,
      List.length_nil] at hrides hlength
    omega
  cases hs2 with
  | cons hride hmid =>
    cases h with
    | cons hride' hsafter =>
      rw [← hfirst] at hride
      rw [← hlast'] at hride'
      obtain ⟨hboards, _⟩ := (hreal first (by simp)).of_step hride
      obtain ⟨_, rfl⟩ := (hreal last hmem).of_step hride'
      have key := hlinked.steps hreal hboards
      rw [hlast, ← hcount] at key
      exact hs1.append (key.append hsafter)

theorem takeWhile_outer {before mid after : List Leg} {l l' : RideLeg} {access egress : StreetLeg}
    (h : ∀ x ∈ before, x.ride? = none) :
    (Leg.access access :: ((before ++ .ride l :: (mid ++ .ride l' :: after)) ++ [.egress egress])).takeWhile
      (fun x => !isRide x) = .access access :: before := by
  rw [List.append_assoc, List.cons_append, ← List.cons_append]
  refine takeWhile_notRide (fun x hx => ?_) l _
  rcases List.mem_cons.1 hx with rfl | hx
  · rfl
  · exact h x hx

theorem reverse_takeWhile_outer {before mid after : List Leg} {l l' : RideLeg} {access egress : StreetLeg}
    (h : ∀ x ∈ after, x.ride? = none) :
    ((Leg.access access :: ((before ++ .ride l :: (mid ++ .ride l' :: after)) ++ [.egress egress])).reverse.takeWhile
      (fun x => !isRide x)).reverse = after ++ [.egress egress] := by
  have hreverse : (Leg.access access :: ((before ++ .ride l :: (mid ++ .ride l' :: after)) ++
      [.egress egress])).reverse = (after ++ [Leg.egress egress]).reverse ++
      .ride l' :: (Leg.access access :: (before ++ .ride l :: mid)).reverse := by simp
  have hnone : ∀ x ∈ (after ++ [Leg.egress egress]).reverse, x.ride? = none := by
    intro x hx
    rcases List.mem_append.1 (List.mem_reverse.1 hx) with hx | hx
    · exact h x hx
    · rw [List.mem_singleton.1 hx]
      rfl
  rw [hreverse, takeWhile_notRide hnone, List.reverse_reverse]

theorem mem_of_ride? {legs : List Leg} {l : RideLeg} (h : l ∈ legs.filterMap Leg.ride?) : .ride l ∈ legs := by
  obtain ⟨x, hx, hl⟩ := List.mem_filterMap.1 h
  cases x <;> cases hl
  exact hx

variable {earliest : Time} {it : Itinerary}

theorem Journey.ride_real {legs : List Leg} (h : task.Journey earliest legs) (l : RideLeg) (hl : .ride l ∈ legs) :
    ∃ route run, ∀ walk, PlannedRide.Real task ⟨l, walk, route, run⟩ := by
  cases h with
  | intro _ hsteps _ _ =>
    rcases List.mem_cons.1 hl with hl | hl
    · cases hl
    · rcases List.mem_append.1 hl with hl | hl
      · exact hsteps.ride_real l hl
      · cases List.mem_singleton.1 hl

/-- The itinerary has been reached by the same access leg and egress leg, with as many rides. -/
structure SameEnds (it it' : Itinerary) : Prop where
  departure_eq : it'.departure = it.departure
  arrival_eq : it'.arrival = it.arrival
  transfers_eq : it'.transfers = it.transfers

/-- An itinerary rebuilt on the planned rides is a journey again. -/
theorem rebuild?_spec (h : task.Sound earliest it) {l : RideLeg} {ls : List RideLeg}
    (hlegs : it.legs.filterMap Leg.ride? = l :: ls) (hne : ls ≠ []) {rides : List PlannedRide}
    (hreal : ∀ r ∈ rides, r.Real task) (hrides : rides.map (·.leg) = it.legs.filterMap Leg.ride?)
    {best : Score × List Change} (hbest : task.bestChanges? rides = some best) :
    ∃ it', task.rebuild? it rides best.2 = some it' ∧ task.Sound earliest it' ∧ SameEnds it it' := by
  obtain ⟨hjourney, hmade⟩ := h
  generalize hall : it.legs = all at hjourney
  cases hjourney with
  | @intro access egress s s' middle hstart hsteps hrounds hend =>
    have hmiddle : (Leg.access access :: (middle ++ [.egress egress])).filterMap Leg.ride? =
        middle.filterMap Leg.ride? := by
      simp only [List.filterMap_cons, List.filterMap_append, Leg.ride?, List.filterMap_nil, List.append_nil]
    rw [hall, hmiddle] at hlegs hrides
    obtain ⟨before, mid, l', after, rfl, hbefore, hafter⟩ := exists_outer_rides hlegs hne
    cases rides with
    | nil => cases hbest
    | cons first rest =>
      have hlinked := bestChanges?_linked (hreal first (by simp)) hbest
      have hsteps' := hsteps.relink hbefore hafter hreal hrides hlinked
      generalize hnew : before ++ (task.changedLegs first.leg.boardPosition (first :: rest) best.2 ++ after) = new
        at hsteps'
      have hrebuild : task.rebuild? it (first :: rest) best.2 =
          (Itinerary.ofLegs (.access access :: (new ++ [.egress egress]))
            (task.pricing.legsCost (.access access :: (new ++ [.egress egress])))).toOption := by
        have hnew' : (.access access :: before) ++
            task.changedLegs first.leg.boardPosition (first :: rest) best.2 ++ (after ++ [.egress egress]) =
            .access access :: (new ++ [.egress egress]) := by
          rw [← hnew]
          simp only [List.cons_append, List.append_assoc]
        simp only [rebuild?]
        rw [hall, takeWhile_outer hbefore, reverse_takeWhile_outer hafter, hnew']
      rw [hall, hsteps.ofLegs_eq hstart hend] at hmade
      refine ⟨_, by rw [hrebuild, hsteps'.ofLegs_eq hstart hend]; rfl,
        ⟨.intro hstart hsteps' hrounds hend, hsteps'.ofLegs_eq hstart hend _⟩, ?_⟩
      rw [← Except.ok.inj hmade]
      refine ⟨rfl, rfl, ?_⟩
      -- Both rows of steps lead from one standing to the other.
      have hcount := hsteps'.rides_eq.symm.trans hsteps.rides_eq
      simp only [Itinerary.rideCount_cons, Itinerary.rideCount_append, Itinerary.rideCount_nil] at hcount ⊢
      omega

/-- Looking for better changes succeeds, and what is found is a journey with the same ends. -/
theorem improve?_gives (h : task.Sound earliest it) (hlength : 2 ≤ (it.legs.filterMap Leg.ride?).length) :
    Gives (task.improve? it) fun o => ∀ it', o = some it' → task.Sound earliest it' ∧ SameEnds it it' := by
  have hreal : ∀ e ∈ ridesOf it.legs, ∃ route run, ∀ walk, PlannedRide.Real task ⟨e.1, walk, route, run⟩ := by
    intro e he
    have hmem : e.1 ∈ it.legs.filterMap Leg.ride? := by
      rw [← map_fst_ridesOf]
      exact List.mem_map_of_mem he
    exact h.journey.ride_real e.1 (mem_of_ride? hmem)
  unfold improve?
  apply (plannedRides?_gives _ hreal).bind
  rintro _ ⟨rides, rfl, hlegs, hall⟩
  rw [map_fst_ridesOf] at hlegs
  apply (currentScore?_gives rides hall).bind
  intro o _
  cases o with
  | none => exact gives_pure fun _ hnone => by cases hnone
  | some current =>
    simp only
    split
    · exact gives_pure fun _ hnone => by cases hnone
    · rename_i best changes hbest
      split
      · cases hrides : it.legs.filterMap Leg.ride? with
        | nil => simp [hrides] at hlength
        | cons l ls =>
          have hne : ls ≠ [] := by
            rintro rfl
            simp [hrides] at hlength
          obtain ⟨it', hrebuild, hsound⟩ := rebuild?_spec h hrides hne hall hlegs hbest
          apply gives_pure
          intro it'' heq
          rw [hrebuild] at heq
          cases heq
          exact hsound
      · exact gives_pure fun _ hnone => by cases hnone

/-- Moving the changes of an itinerary succeeds, and keeps the itinerary a journey with the same ends. -/
theorem reconnect_gives (h : task.Sound earliest it) :
    Gives (task.reconnect it) fun it' => task.Sound earliest it' ∧ SameEnds it it' := by
  unfold reconnect
  split
  · exact gives_ok ⟨h, rfl, rfl, rfl⟩
  · rename_i hcond
    have hlength : 2 ≤ (it.legs.filterMap Leg.ride?).length := by
      simp only [Itinerary.rides] at hcond
      omega
    apply (improve?_gives h hlength).bind
    intro o ho
    cases o with
    | none => exact gives_pure ⟨h, rfl, rfl, rfl⟩
    | some it' => exact gives_pure (ho it' rfl)

end Task

end JourneyPlanner
