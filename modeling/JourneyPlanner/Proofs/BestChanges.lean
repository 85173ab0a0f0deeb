import JourneyPlanner.Proofs.Worth
/-!
# The best changes of some rides

Where the changes between some rides can be made is decided for all of them together (`Task.Assigned`). The search
keeps one way to board a ride at each of its positions, the best one. That is enough: what the rides from there on
score does not depend on how the position was reached, so a better way there is a better way in all
(`Task.bestFrom_le`).
-/
namespace JourneyPlanner

namespace Score

theorem lt_iff {a b : Score} : a < b ↔ a.objective < b.objective ∨ a.objective = b.objective ∧ a.cost < b.cost := Iff.rfl

theorem lt_irrefl (a : Score) : ¬ a < a := by
  rw [lt_iff]
  omega

theorem not_lt_trans {a b c : Score} (h : ¬ b < a) (h' : ¬ c < b) : ¬ c < a := by
  rw [lt_iff] at *
  omega

theorem not_lt_of_lt {a b : Score} (h : a < b) : ¬ b < a := by
  rw [lt_iff] at *
  omega

theorem add_lt_add_right_iff {a b c : Score} : a + c < b + c ↔ a < b := by
  rw [lt_iff, lt_iff, objective_add, objective_add, cost_add, cost_add]
  omega

end Score

namespace Task

variable {task : Task} {first second : PlannedRide} {rest : List PlannedRide} {choices : BoardChoices}
  {board : Position} {change : Change} {changes : List Change} {c : BoardChoice}

/-! ## One ride after another -/

/-- The best of some ways is no worse than any of them. -/
theorem exists_foldl_betterChoice {ways : List BoardChoice} (hc : c ∈ ways) :
    ∃ best, ways.foldl betterChoice none = some best ∧ ¬ c.score < best.score := by
  induction ways using List.reverseRecOn with
  | nil => cases hc
  | append_singleton ways way ih =>
    rw [List.foldl_append, List.foldl_cons, List.foldl_nil]
    rcases List.mem_append.1 hc with hc | hc
    · obtain ⟨best, hbest, hle⟩ := ih hc
      rw [hbest]
      unfold betterChoice
      dsimp only
      split
      · rename_i hlt
        exact ⟨way, rfl, Score.not_lt_trans (Score.not_lt_of_lt hlt) hle⟩
      · exact ⟨best, rfl, hle⟩
    · obtain rfl := List.mem_singleton.1 hc
      cases ways.foldl betterChoice none with
      | none => exact ⟨c, rfl, Score.lt_irrefl _⟩
      | some best =>
        unfold betterChoice
        dsimp only
        split
        · exact ⟨c, rfl, Score.lt_irrefl _⟩
        · rename_i hlt
          exact ⟨best, rfl, hlt⟩

/-- A ride of an assignment is boarded where the search looks. -/
theorem Assigned.lt_boardLimit (h : task.Assigned board (first :: rest) changes)
    (hmiddle : rest ≠ [] → board < first.size - 1) : board < boardLimit first rest.isEmpty := by
  cases h with
  | last hlt => exact hlt
  | change _ _ _ _ _ _ => exact hmiddle (List.cons_ne_nil _ _)

/-- One more change from a way to board the first ride: there is a way to board the second ride that is as good. -/
theorem exists_nextChoices {start : Position} (hc : choices[start]? = some (some c)) (hlt : start < change.alight)
    (hsize : change.alight < first.size) (hboard : change.board < second.size) {isLast : Bool}
    (hlimit : change.board < boardLimit second isLast)
    (hconnect : task.connect? first start change.alight second change.board = some change) :
    ∃ c', (task.nextChoices first second isLast choices)[change.board]? = some (some c') ∧
      ¬ c.score + change.score < c'.score := by
  have hmem : (⟨c.score + change.score, change :: c.changes⟩ : BoardChoice) ∈
      task.choicesAt first second choices change.board := by
    refine List.mem_flatMap.2 ⟨(some c, start), List.mem_zipIdx_iff_getElem?.2 hc, ?_⟩
    have hrange : change.alight < start + 1 + (first.size - (start + 1)) := by
      rwa [Nat.add_sub_cancel' (Nat.le_trans hlt (Nat.le_of_lt hsize))]
    refine List.mem_filterMap.2 ⟨change.alight, List.mem_range'_1.2 ⟨hlt, hrange⟩, ?_⟩
    rw [hconnect]
    rfl
  obtain ⟨c', hbest, hle⟩ := exists_foldl_betterChoice hmem
  refine ⟨c', ?_, hle⟩
  rw [nextChoices, List.getElem?_map, List.getElem?_range hboard, Option.map_some, if_pos hlimit, hbest]

/-- However the rides go on from a way to board the first of them, the way that is chosen is as good. -/
theorem bestFrom_le (hc : choices[board]? = some (some c)) (h : task.Assigned board (first :: rest) changes) :
    ∃ best, task.bestFrom first choices rest = some best ∧
      ¬ c.score + task.totalScore board (first :: rest) changes < best.score := by
  induction rest generalizing first choices board c changes with
  | nil =>
    cases h with
    | last hlt =>
      refine exists_foldl_betterChoice (c := { c with score := c.score + _ }) ?_
      exact List.mem_filterMap.2 ⟨(some c, board), List.mem_zipIdx_iff_getElem?.2 hc, rfl⟩
  | cons second rest ih =>
    cases h with
    | @change _ _ _ _ change changes hlt hsize hboard hmiddle hconnect hrest =>
      obtain ⟨-, -, hscore, -⟩ := connect?_eq hconnect
      obtain ⟨c', hc', hle⟩ := exists_nextChoices hc hlt hsize hboard (hrest.lt_boardLimit hmiddle) hconnect
      obtain ⟨best, hbest, hle'⟩ := ih hc' hrest
      refine ⟨best, hbest, ?_⟩
      rw [totalScore, ← hscore, ← Score.add_assoc]
      exact Score.not_lt_trans hle' (mt Score.add_lt_add_right_iff.1 hle)

/-! ## All rides -/

/-- Some changes are found where there is an assignment, and they score as well. -/
theorem Assigned.bestChanges?_le (h : task.Assigned first.leg.boardPosition (first :: second :: rest) changes) :
    ∃ best, task.bestChanges? (first :: second :: rest) = some best ∧
      ¬ task.totalScore first.leg.boardPosition (first :: second :: rest) changes < best.1 := by
  have hboard : first.leg.boardPosition < first.size := by
    cases h with
    | change hlt hsize _ _ _ _ => exact Nat.lt_trans hlt hsize
  have hstart : ((List.range first.size).map fun p =>
      if p = first.leg.boardPosition then some ⟨.zero, []⟩ else none)[first.leg.boardPosition]? =
        some (some (⟨.zero, []⟩ : BoardChoice)) := by simp [hboard]
  obtain ⟨best, hbest, hle⟩ := bestFrom_le hstart h
  rw [Score.zero_add] at hle
  exact ⟨(best.score, best.changes.reverse), by rw [bestChanges?, hbest, Option.map_some], hle⟩

/-- The changes chosen for two rides or more are an assignment with the score told, and none scores lower. No changes
are chosen just where there is no assignment. -/
theorem bestChanges?_optimal (task : Task) (first second : PlannedRide) (rest : List PlannedRide) :
    (task.bestChanges? (first :: second :: rest) = none ↔
      ¬ ∃ changes, task.Assigned first.leg.boardPosition (first :: second :: rest) changes) ∧
    ∀ score changes, task.bestChanges? (first :: second :: rest) = some (score, changes) →
      task.Assigned first.leg.boardPosition (first :: second :: rest) changes ∧
      task.totalScore first.leg.boardPosition (first :: second :: rest) changes = score ∧
      ∀ others, task.Assigned first.leg.boardPosition (first :: second :: rest) others →
        ¬ task.totalScore first.leg.boardPosition (first :: second :: rest) others < score := by
  have hchosen : ∀ score changes, task.bestChanges? (first :: second :: rest) = some (score, changes) →
      task.Assigned first.leg.boardPosition (first :: second :: rest) changes ∧
        task.totalScore first.leg.boardPosition (first :: second :: rest) changes = score := fun score changes h =>
    of_bestChanges? (P := fun score changes => task.Assigned _ _ changes ∧ task.totalScore _ _ changes = score)
      (fun hnil => absurd hnil (List.cons_ne_nil _ _)) h fun _ hassigned => ⟨hassigned, rfl⟩
  refine ⟨⟨?_, fun hnot => ?_⟩, fun score changes h => ⟨(hchosen _ _ h).1, (hchosen _ _ h).2, fun others hothers => ?_⟩⟩
  · rintro hnone ⟨changes, hassigned⟩
    obtain ⟨best, hbest, -⟩ := hassigned.bestChanges?_le
    rw [hnone] at hbest
    cases hbest
  · cases hbest : task.bestChanges? (first :: second :: rest) with
    | none => rfl
    | some best => exact absurd ⟨_, (hchosen best.1 best.2 hbest).1⟩ hnot
  · obtain ⟨best, hbest, hle⟩ := hothers.bestChanges?_le
    rw [h] at hbest
    rwa [← Option.some.inj hbest] at hle

end Task

namespace Network

/-- The two rides along the river, with the change at the bridge. -/
def riverRides : List PlannedRide :=
  [(0, 0, 1), (1, 0, 2)].filterMap fun (index, board, alight) => do
    let route ← river.routes[index]?
    let run ← route.scheduled? 0
    some ⟨.ofRun route run board alight, none, route, run⟩

/-- The best change leads from the quay to the lock: the first ride is left at its last position, and the second one
is boarded at its second. -/
theorem river_optimal_changes : ∃ first second, riverRides = [first, second] ∧
    ∃ score changes, (Task.ofRequest river .welcomeChanges .alongRiver).bestChanges? [first, second] =
        some (score, changes) ∧
      changes.map (fun change => (change.alight, change.board)) = [(2, 1)] ∧
      (Task.ofRequest river .welcomeChanges .alongRiver).Assigned first.leg.boardPosition [first, second] changes ∧
      ∀ others, (Task.ofRequest river .welcomeChanges .alongRiver).Assigned first.leg.boardPosition [first, second]
          others →
        ¬ (Task.ofRequest river .welcomeChanges .alongRiver).totalScore first.leg.boardPosition [first, second] others <
          score := by
  have hlength : riverRides.length = 2 := by decide +kernel
  have heval : ((Task.ofRequest river .welcomeChanges .alongRiver).bestChanges? riverRides).any (fun best =>
      decide (best.2.map (fun change => (change.alight, change.board)) = [(2, 1)])) = true := by decide +kernel
  obtain ⟨first, second, hrides⟩ := List.length_eq_two.1 hlength
  rw [hrides] at heval
  obtain ⟨⟨score, changes⟩, hbest, hplaces⟩ := Option.any_eq_true .. |>.1 heval
  obtain ⟨-, hoptimal⟩ := Task.bestChanges?_optimal (Task.ofRequest river .welcomeChanges .alongRiver) first second []
  obtain ⟨hassigned, -, hleast⟩ := hoptimal score changes hbest
  exact ⟨first, second, hrides, score, changes, hbest, of_decide_eq_true hplaces, hassigned, hleast⟩

end Network

end JourneyPlanner
