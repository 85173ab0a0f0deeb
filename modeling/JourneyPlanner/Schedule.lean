import JourneyPlanner.Time
import JourneyPlanner.DataError
/-!
# Schedules of trips

A `Schedule` gives a trip's arrival and departure at each position of its route. No vehicle leaves a
position before it arrives there, or arrives at the next position before it has left the one before.
-/
namespace JourneyPlanner

/-- What is known about boarding a trip in a wheelchair. -/
inductive Accessibility where
  | possible
  | notPossible
  | noInformation
  deriving DecidableEq, Repr

/-- The arrival and departure times of one trip, in the order of its positions. -/
structure Schedule where
  id : TripId
  arrivals : Array Time
  departures : Array Time
  /-- Which of the ride-time factors applies to the trip. -/
  reluctance : Nat
  accessibility : Accessibility
  size_eq : departures.size = arrivals.size
  two_le : 2 ≤ arrivals.size
  dwell : ∀ p, arrivals.getD p .midnight ≤ departures.getD p .midnight
  drive : ∀ p, p + 1 < arrivals.size →
    departures.getD p .midnight ≤ arrivals.getD (p + 1) .midnight
  deriving DecidableEq

namespace Schedule

/-- The first fault of the times from position `p` on, given the arrival and departure at each. -/
def disorder? (p : Position) : List (Time × Time) → Option DataError
  | [] => none
  | (arrival, departure) :: rest =>
    if departure < arrival then some (.departureBeforeArrival p)
    else
      match rest with
      | [] => none
      | (next, _) :: _ =>
        if next < departure then some (.decreasingTimes p) else disorder? (p + 1) rest

theorem dwell_of_disorder?_eq_none {p : Position} {times : List (Time × Time)}
    (h : disorder? p times = none) : ∀ a d, (a, d) ∈ times → a ≤ d := by
  induction times generalizing p with
  | nil => simp
  | cons head rest ih =>
    obtain ⟨arrival, departure⟩ := head
    intro a d hm
    rw [disorder?.eq_def] at h
    simp only at h
    split at h
    · simp at h
    · rename_i hle
      rcases List.mem_cons.1 hm with hm | hm
      · cases hm
        rw [Time.lt_iff] at hle
        rw [Time.le_iff]
        omega
      · cases rest with
        | nil => simp at hm
        | cons next rest =>
          simp only at h
          split at h
          · simp at h
          · exact ih h a d hm

theorem drive_of_disorder?_eq_none {p : Position} {times : List (Time × Time)}
    (h : disorder? p times = none) (i : Nat) (hi : i + 1 < times.length) :
    times[i].2 ≤ times[i + 1].1 := by
  induction times generalizing p i with
  | nil => simp at hi
  | cons head rest ih =>
    obtain ⟨arrival, departure⟩ := head
    rw [disorder?.eq_def] at h
    simp only at h
    split at h
    · simp at h
    · cases rest with
      | nil => simp at hi
      | cons next rest =>
        simp only at h
        split at h
        · simp at h
        · rename_i hle
          cases i with
          | zero =>
            simp only [List.getElem_cons_zero, List.getElem_cons_succ]
            rw [Time.lt_iff] at hle
            rw [Time.le_iff]
            omega
          | succ i => exact ih h i (by simpa using hi)

def ofTimes (id : TripId) (arrivals departures : Array Time) : Except DataError Schedule :=
  if hsize : departures.size = arrivals.size then
    if htwo : 2 ≤ arrivals.size then
      match h : disorder? 0 (arrivals.toList.zip departures.toList) with
      | some e => .error e
      | none =>
        .ok
          { id, arrivals, departures
            reluctance := 0
            accessibility := .noInformation
            size_eq := hsize
            two_le := htwo
            dwell := by
              intro p
              by_cases hp : p < arrivals.size
              · have hp' : p < departures.size := by omega
                have hm : (arrivals[p], departures[p]) ∈ arrivals.toList.zip departures.toList := by
                  rw [List.mem_iff_getElem]
                  exact ⟨p, by simp; omega, by simp⟩
                simpa [Array.getD, hp, hp'] using dwell_of_disorder?_eq_none h _ _ hm
              · have hp' : ¬ p < departures.size := by omega
                simp [Array.getD, hp, hp', Time.le_refl]
            drive := by
              intro p hp
              have hp' : p < departures.size := by omega
              have hl : p + 1 < (arrivals.toList.zip departures.toList).length := by
                simp
                omega
              have := drive_of_disorder?_eq_none h p hl
              simpa [Array.getD, hp, hp'] using this }
    else .error (.patternTooShort arrivals.size)
  else .error (.timesLengthMismatch arrivals.size departures.size)

/-- A schedule of a trip that leaves each position when it arrives there. -/
def uniform (id : TripId) (times : Array Time) : Except DataError Schedule := ofTimes id times times

/-- The number of positions. -/
def size (s : Schedule) : Nat := s.arrivals.size

/-- The arrival at a position, midnight outside the schedule. -/
def arrival (s : Schedule) (p : Position) : Time := s.arrivals.getD p .midnight

/-- The departure from a position, midnight outside the schedule. -/
def departure (s : Schedule) (p : Position) : Time := s.departures.getD p .midnight

theorem arrival_le_departure (s : Schedule) (p : Position) : s.arrival p ≤ s.departure p :=
  s.dwell p

theorem departure_le_arrival_succ (s : Schedule) {p : Position} (h : p + 1 < s.size) :
    s.departure p ≤ s.arrival (p + 1) :=
  s.drive p h

/-- The same trip, every time moved by so many seconds. -/
def shift (s : Schedule) (secs : Int) : Schedule :=
  { s with
    arrivals := s.arrivals.map (· + secs)
    departures := s.departures.map (· + secs)
    size_eq := by simp [s.size_eq]
    two_le := by simpa using s.two_le
    dwell := by
      intro p
      have h := s.dwell p
      have hs := s.size_eq
      by_cases hp : p < s.arrivals.size
      · have hp' : p < s.departures.size := by omega
        simp only [Array.getD, hp, hp'] at h
        simpa [Array.getD, hp, hp'] using Time.add_mono h secs
      · have hp' : ¬ p < s.departures.size := by omega
        simp [Array.getD, hp, hp', Time.le_refl]
    drive := by
      intro p hp
      simp only [Array.size_map] at hp
      have h := s.drive p hp
      have hp' : p < s.departures.size := by
        have := s.size_eq
        omega
      simp only [Array.getD, hp, hp'] at h
      simpa [Array.getD, hp, hp'] using Time.add_mono h secs }

end Schedule

end JourneyPlanner
