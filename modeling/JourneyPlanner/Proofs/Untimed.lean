import JourneyPlanner.Proofs.Iterations
import JourneyPlanner.Search.Plan
/-!
# Searches without a timeout

Only the rounds ask the clock: what a search tells of its goals and selects among them does not depend on
it (`Task.answer_withClock`). Without a timeout the rounds do not, either, and neither does the plan
(`Network.plan_untimed`).
-/
namespace JourneyPlanner

namespace Task

/-- The task under another clock. -/
def withClock (task : Task) (clock : Clock) : Task := { task with clock := clock }

variable (task : Task) (clock : Clock)

/-! ## Telling and selecting -/

theorem legs?_withClock (as : List Arrival) : (task.withClock clock).legs? as = task.legs? as := by
  induction as with
  | nil => rfl
  | cons a as ih =>
    simp only [legs?, ih]
    rfl

theorem plannedRides?_withClock (rides : List (RideLeg × Option TransferLeg)) :
    (task.withClock clock).plannedRides? rides = task.plannedRides? rides := by
  induction rides with
  | nil => rfl
  | cons ride rides ih =>
    simp only [plannedRides?, ih]
    rfl

theorem currentScore?_withClock (rides : List PlannedRide) :
    (task.withClock clock).currentScore? rides = task.currentScore? rides := by
  induction rides with
  | nil => rfl
  | cons ride rides ih =>
    cases rides with
    | nil => rfl
    | cons next rest =>
      simp only [currentScore?, ih]
      rfl

theorem bestFrom_withClock (ride : PlannedRide) (choices : BoardChoices) (rest : List PlannedRide) :
    (task.withClock clock).bestFrom ride choices rest = task.bestFrom ride choices rest := by
  induction rest generalizing ride choices with
  | nil => rfl
  | cons next rest ih =>
    simp only [bestFrom, ih]
    rfl

theorem changedLegs_withClock (board : Position) (rides : List PlannedRide) (changes : List Change) :
    (task.withClock clock).changedLegs board rides changes = task.changedLegs board rides changes := by
  induction rides generalizing board changes with
  | nil => rfl
  | cons ride rides ih =>
    cases changes with
    | nil => simp only [changedLegs, ih]
    | cons change changes =>
      simp only [changedLegs, ih]
      rfl

theorem reconnect_withClock (it : Itinerary) : (task.withClock clock).reconnect it = task.reconnect it := by
  have hbest : ∀ rides, (task.withClock clock).bestChanges? rides = task.bestChanges? rides := by
    intro rides
    cases rides with
    | nil => rfl
    | cons first rest => simp only [bestChanges?, bestFrom_withClock]
  have hrebuild : ∀ rides changes, (task.withClock clock).rebuild? it rides changes = task.rebuild? it rides changes := by
    intro rides changes
    simp only [rebuild?, changedLegs_withClock]
    rfl
  simp only [reconnect, improve?, plannedRides?_withClock, currentScore?_withClock, hbest, hrebuild]
  rfl

variable {σ : Type} [ArrivalStore σ]

theorem answer_withClock (outcome : Outcome σ) : (task.withClock clock).answer outcome = task.answer outcome := by
  have htold : (task.withClock clock).itinerary? = task.itinerary? := by
    funext log g
    simp only [itinerary?, legs?_withClock]
    rfl
  have hreconnect : (task.withClock clock).reconnect = task.reconnect := funext (task.reconnect_withClock clock)
  simp only [answer, select, reconnectAll, itineraries, htold, hreconnect]
  rfl

/-! ## Searching -/

variable {task} (htimeout : task.settings.timeout = none)

include htimeout

/-- Without a timeout the rounds are run whatever the clock says. -/
theorem runRounds_withClock (departure : Time) (left round : Nat) (p : Progress σ) :
    (task.withClock clock).runRounds departure left round p = task.runRounds departure left round p := by
  induction left generalizing round p with
  | zero => rfl
  | succ left ih =>
    have htimeout' : (task.withClock clock).settings.timeout = none := htimeout
    unfold runRounds
    rw [timeIsOver_of_untimed htimeout, timeIsOver_of_untimed htimeout', if_neg Bool.false_ne_true,
      if_neg Bool.false_ne_true]
    simp only [ih]
    rfl

theorem runIterations_withClock (iteration : Nat) (departures : List Time) (p : Progress σ) :
    (task.withClock clock).runIterations iteration departures p = task.runIterations iteration departures p := by
  induction departures generalizing iteration p with
  | nil => rfl
  | cons departure departures ih =>
    have hiteration : (task.withClock clock).runIteration iteration departure p =
        task.runIteration iteration departure p := by
      unfold runIteration
      simp only [runRounds_withClock clock htimeout]
      rfl
    unfold runIterations
    rw [hiteration]
    simp only [ih]

theorem search_withClock (store : σ) : (task.withClock clock).search store = task.search store := by
  have hrun : (task.withClock clock).run store = task.run store :=
    congrArg (· >>= _) (runIterations_withClock clock htimeout _ _ _)
  unfold search
  rw [hrun]
  simp only [answer_withClock]

end Task

/-- Without a timeout a plan does not depend on the clock. -/
theorem Network.plan_untimed {settings : Settings} (htimeout : settings.timeout = none) (net : Network)
    (request : Request) (clock clock' : Clock) :
    net.plan settings request clock = net.plan settings request clock' := by
  have hsearch : ∀ {σ : Type} [ArrivalStore σ] (store : σ),
      (Task.ofRequest net settings request clock).search store =
        (Task.ofRequest net settings request clock').search store := fun store =>
    Task.search_withClock clock (show (Task.ofRequest net settings request clock').settings.timeout = none from htimeout)
      store
  unfold plan task?
  simp only [bind_assoc, pure_bind, hsearch]

end JourneyPlanner
