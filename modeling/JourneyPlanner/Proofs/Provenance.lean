import JourneyPlanner.Proofs.Journeys
import JourneyPlanner.Proofs.Stores
/-!
# Where arrivals come from

`Task.Traces` says that an arrival continues arrivals of the log, one step at a time and from an access
path on, each step being one that a search takes. It stays so while the log grows (`Task.Traces.mono`),
and goals go back to such arrivals (`Task.GoalTraces`).
-/
namespace JourneyPlanner

/-- The passenger who boards a run at position `p` from the arrival of number `id`. -/
def Task.riderOn (task : Task) (route : Route) (p : Position) (id : Nat) (a : Arrival) (run : Run) : Rider :=
  let boardTime := run.departure p
  let costAtBoard := a.cost + task.pricing.boardingCost (decide (0 < a.rides))
    (if a.isAccess then 0 else boardTime - a.time) run.schedule.accessibility
  { parent := id
    run := run
    boardPosition := p
    boardTime := boardTime
    costAtBoard := costAtBoard
    relativeCost := task.pricing.relativeCost route.index run.schedule.reluctance costAtBoard boardTime
    rides := addRides a.rides 1 }

/-- Where an arrival leaves the traveller. -/
def Arrival.standing (a : Arrival) (last : Option AlightedTrip) : Standing :=
  ⟨a.stop, a.time, a.rides, a.onBoard, last⟩

namespace Task

variable (task : Task)

/-- The arrival continues arrivals of the log, back to an access path for one of the departures from
`earliest` on. `last` is the trip left last. -/
inductive Traces (log : ArrivalLog) (earliest : Time) : Arrival → Option AlightedTrip → Prop
  | access {path : StreetPath} {number : Nat} {departure : Time} {round : Nat} {a : Arrival} :
      task.request.access[number]? = some path → departure ∈ task.departures → earliest ≤ departure →
      round ≤ task.settings.maxRounds → accessArrival? departure round (path, number) = some a →
      Traces log earliest a none
  | ride {parent : Arrival} {id : Nat} {last : Option AlightedTrip} {route : Route} {p q : Position}
      {run : Run} {round : Nat} : log.get? id = .ok parent → Traces log earliest parent last →
      task.network.routes[route.index]? = some route → p < q → q < route.pattern.size →
      route.pattern.stop p = parent.stop → task.board? route p parent last = some run →
      parent.rides + 1 ≤ task.settings.maxRounds →
      Traces log earliest
        (task.alight route round q (route.pattern.stop q) (task.riderOn route p id parent run))
        (run.alighted? route.index q)
  | transfer {parent : Arrival} {id : Nat} {last : Option AlightedTrip} {transfer : Transfer}
      {number round : Nat} : log.get? id = .ok parent → Traces log earliest parent last →
      parent.onBoard = true → (task.network.transfersFrom parent.stop)[number]? = some transfer →
      Traces log earliest (task.walkFrom round parent.stop id parent (transfer, number)) last

variable {task : Task} {log : ArrivalLog} {earliest : Time} {a : Arrival} {last : Option AlightedTrip}

theorem accessArrival?_eq {departure : Time} {round : Nat} {path : StreetPath} {number : Nat}
    (h : accessArrival? departure round (path, number) = some a) :
    path.rides = round ∧ ∃ start, path.earliestStart? departure = some start ∧
      a = ⟨none, path.stop, start + path.duration, path.rides, path.cost, round, .access number path.onBoard⟩ := by
  simp only [accessArrival?] at h
  split at h
  · rename_i hrides
    split at h
    · cases h
    · rename_i start hstart
      cases h
      exact ⟨hrides, start, hstart, rfl⟩
  · cases h

theorem alighted?_alight (route : Route) (round : Nat) (q : Position) (stop : Stop) (rider : Rider) :
    (task.alight route round q stop rider).alighted? = rider.run.alighted? route.index q := by
  unfold alight Arrival.alighted? Run.alighted? RunRef.call?
  cases rider.run.ref <;> rfl

namespace Traces

theorem mono {log' : ArrivalLog} {earlier : Time} (h : task.Traces log earliest a last)
    (hlog : log.Extends log') (hle : earlier ≤ earliest) : task.Traces log' earlier a last := by
  induction h with
  | access hpath hdeparture hearliest hround harrival =>
    exact .access hpath hdeparture (Time.le_trans hle hearliest) hround harrival
  | ride hparent _ hroute hpq hq hstop hboard hrides ih =>
    exact .ride (hlog _ _ hparent) ih hroute hpq hq hstop hboard hrides
  | transfer hparent _ honBoard htransfer ih => exact .transfer (hlog _ _ hparent) ih honBoard htransfer

/-- The log knows which trip was left last. -/
theorem alighted?_eq (h : task.Traces log earliest a last) : log.alighted? a = .ok last := by
  -- An arrival on board is an access or a ride, so that a transfer looks back one step only.
  have honBoard : ∀ {a last}, task.Traces log earliest a last → a.onBoard = true → a.alighted? = last := by
    intro a last h honBoard
    cases h with
    | access _ _ _ _ harrival =>
      obtain ⟨_, _, _, rfl⟩ := accessArrival?_eq harrival
      rfl
    | ride _ _ _ _ _ _ _ _ => exact alighted?_alight _ _ _ _ _
    | transfer _ _ _ _ => cases honBoard
  cases h with
  | access _ _ _ _ harrival =>
    obtain ⟨_, _, _, rfl⟩ := accessArrival?_eq harrival
    rfl
  | ride _ _ _ _ _ _ _ _ => exact congrArg Except.ok (alighted?_alight _ _ _ _ _)
  | transfer hparent hlast hboard _ =>
    simp only [ArrivalLog.alighted?, walkFrom]
    rw [hparent]
    exact congrArg Except.ok (honBoard hlast hboard)

/-- An arrival has been reached after one trip only, however it is traced. -/
theorem last_eq (h : task.Traces log earliest a last) {last' : Option AlightedTrip}
    (h' : task.Traces log earliest a last') : last = last' := by
  have heq := h.alighted?_eq
  rw [h'.alighted?_eq] at heq
  exact (Except.ok.inj heq).symm

theorem rides_le (h : task.Traces log earliest a last) : a.rides ≤ task.settings.maxRounds := by
  induction h with
  | access _ _ _ hround harrival =>
    obtain ⟨hrides, _, _, rfl⟩ := accessArrival?_eq harrival
    exact hrides ▸ hround
  | ride _ _ _ _ _ _ _ hrides _ => exact Nat.le_trans (Nat.min_le_right _ _) hrides
  | transfer _ _ _ _ ih => exact ih

theorem stop_lt (hnet : task.network.Sound) (haccess : ∀ path ∈ task.request.access, path.stop < task.network.stopCount)
    (h : task.Traces log earliest a last) : a.stop < task.network.stopCount := by
  cases h with
  | access hpath _ _ _ harrival =>
    obtain ⟨_, _, _, rfl⟩ := accessArrival?_eq harrival
    exact haccess _ (List.mem_of_getElem? hpath)
  | ride _ _ hroute _ hq _ _ _ => exact hnet.stop_lt hroute hq
  | transfer _ _ _ htransfer => exact hnet.transfer_target _ _ (List.mem_of_getElem? htransfer)

/-- The arrival continues one that is in the log already. -/
theorem parent_lt (h : task.Traces log earliest a last) {parent : Nat} (hparent : a.parent = some parent) :
    parent < log.size := by
  cases h with
  | access _ _ _ _ harrival =>
    obtain ⟨_, _, _, rfl⟩ := accessArrival?_eq harrival
    cases hparent
  | ride hget _ _ _ _ _ _ _ =>
    cases hparent
    exact ArrivalLog.lt_size hget
  | transfer hget _ _ _ =>
    cases hparent
    exact ArrivalLog.lt_size hget

end Traces

/-- A passenger is found by boarding, where the sums of the boarding fit. -/
theorem riderFrom?_eq {id : Nat} (hget : log.get? id = .ok a) (h : task.Traces log earliest a last)
    (route : Route) (p : Position) : task.riderFrom? route p id log =
      if task.sumsFit route p a then .ok ((task.board? route p a last).map (task.riderOn route p id a))
      else .error .sum := by
  unfold riderFrom? findRun
  rw [hget, ok_bind, h.alighted?_eq, ok_bind]
  split
  · cases task.board? route p a last <;> rfl
  · rfl

/-! ## Arrivals at the destination -/

/-- The goal has been reached from an arrival of the log. -/
def GoalTraces (task : Task) (log : ArrivalLog) (goal : Goal) : Prop :=
  ∃ a last path, log.get? goal.node = .ok a ∧ task.Traces log goal.departure a last ∧
    task.request.egress[goal.egress]? = some path ∧
    task.goal? goal.departure goal.node a (path, goal.egress) = some goal

theorem GoalTraces.mono {log' : ArrivalLog} {goal : Goal} (h : task.GoalTraces log goal)
    (hlog : log.Extends log') : task.GoalTraces log' goal := by
  obtain ⟨a, last, path, hget, htraces, h⟩ := h
  exact ⟨a, last, path, hlog _ _ hget, htraces.mono hlog (Time.le_refl _), h⟩

theorem goal?_eq {departure : Time} {node : Nat} {path : StreetPath} {number : Nat} {goal : Goal}
    (h : task.goal? departure node a (path, number) = some goal) :
    path.stop = a.stop ∧ (path.onBoard || a.onBoard) = true ∧
      ∃ start, path.earliestStart? a.time = some start ∧
        goal = ⟨node, number, start + path.duration, addRides a.rides path.rides, a.cost + path.cost, departure⟩ := by
  simp only [goal?] at h
  split at h
  · rename_i hcond
    split at h
    · cases h
    · rename_i start hstart
      split at h
      · cases h
      · cases h
        exact ⟨hcond.1, hcond.2, start, hstart, rfl⟩
  · cases h

/-- Every goal found from an arrival is one of its goals. -/
theorem goalTraces_of_mem {departure : Time} {node : Nat} {goal : Goal} (hget : log.get? node = .ok a)
    (h : task.Traces log departure a last) (hgoal : goal ∈ task.goals departure node a) :
    task.GoalTraces log goal := by
  simp only [goals] at hgoal
  obtain ⟨⟨path, number⟩, hmem, hgoal⟩ := List.mem_filterMap.1 hgoal
  have hpath : task.request.egress[number]? = some path := by
    simpa using List.mem_zipIdx_iff_getElem?.1 hmem
  obtain ⟨_, _, _, _, rfl⟩ := goal?_eq hgoal
  exact ⟨a, last, path, hget, h, hpath, hgoal⟩

end Task

end JourneyPlanner
