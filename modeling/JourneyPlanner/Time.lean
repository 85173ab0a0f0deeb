/-!
# Times of a service day

A `Time` is a whole number of seconds after the midnight that starts the service day. Times before
that midnight are negative, and a vehicle that runs past the next midnight counts on upwards. Every
time fits into 32 bits with a sign; adding a duration stops at the ends of that range.
-/
namespace JourneyPlanner

/-- A service time in seconds, between `-2^31` and `2^31 - 1`. -/
structure Time where
  secs : Int
  lower : -2147483648 ≤ secs
  upper : secs ≤ 2147483647
  deriving DecidableEq, Repr

namespace Time

@[ext]
theorem ext {a b : Time} (h : a.secs = b.secs) : a = b := by
  cases a
  cases b
  simp_all

/-- The time nearest to `n` seconds after midnight. -/
def ofSecs (n : Int) : Time where
  secs := max (-2147483648) (min 2147483647 n)
  lower := by omega
  upper := by omega

/-- Whether a number of seconds fits into 32 bits with a sign. -/
def fits (n : Int) : Bool := decide (-2147483648 ≤ n) && decide (n ≤ 2147483647)

/-- The midnight that starts the service day. -/
def midnight : Time := ofSecs 0

instance : Inhabited Time := ⟨midnight⟩

/-- The time with the given hours, minutes and seconds, each of any size and sign. -/
def hms (hours minutes seconds : Int) : Time := ofSecs (hours * 3600 + minutes * 60 + seconds)

instance : LE Time := ⟨fun a b => a.secs ≤ b.secs⟩

instance : LT Time := ⟨fun a b => a.secs < b.secs⟩

instance (a b : Time) : Decidable (a ≤ b) := inferInstanceAs (Decidable (a.secs ≤ b.secs))

instance (a b : Time) : Decidable (a < b) := inferInstanceAs (Decidable (a.secs < b.secs))

instance : Ord Time := ⟨fun a b => compare a.secs b.secs⟩

instance : Max Time := ⟨fun a b => if a ≤ b then b else a⟩

instance : Min Time := ⟨fun a b => if a ≤ b then a else b⟩

/-- The time `d` seconds later, or the last time there is. -/
instance : HAdd Time Int Time := ⟨fun t d => ofSecs (t.secs + d)⟩

/-- The time `d` seconds earlier, or the first time there is. -/
instance : HSub Time Int Time := ⟨fun t d => ofSecs (t.secs - d)⟩

/-- The seconds from `b` to `a`. -/
instance : HSub Time Time Int := ⟨fun a b => a.secs - b.secs⟩

theorem le_iff {a b : Time} : a ≤ b ↔ a.secs ≤ b.secs := Iff.rfl

theorem lt_iff {a b : Time} : a < b ↔ a.secs < b.secs := Iff.rfl

theorem le_refl (a : Time) : a ≤ a := Int.le_refl a.secs

theorem sub_time (a b : Time) : a - b = a.secs - b.secs := rfl

theorem secs_ofSecs (n : Int) : (ofSecs n).secs = max (-2147483648) (min 2147483647 n) := rfl

theorem secs_add (t : Time) (d : Int) :
    (t + d).secs = max (-2147483648) (min 2147483647 (t.secs + d)) := rfl

theorem secs_sub (t : Time) (d : Int) :
    (t - d).secs = max (-2147483648) (min 2147483647 (t.secs - d)) := rfl

@[simp]
theorem secs_midnight : midnight.secs = 0 := rfl

theorem ofSecs_secs (t : Time) : ofSecs t.secs = t := by
  have h1 := t.lower
  have h2 := t.upper
  apply Time.ext
  rw [secs_ofSecs]
  omega

theorem add_mono {a b : Time} (h : a ≤ b) (d : Int) : a + d ≤ b + d := by
  rw [le_iff] at h ⊢
  rw [secs_add, secs_add]
  omega

end Time

end JourneyPlanner
