import JourneyPlanner.Text.Digits
/-!
# JSON numbers

A `Number` keeps the digits as they are written. Whether it is an integer, and which float it stands
for, is decided where it is used. `1.0` and `1e2` are no integers, and neither is `-0`.
-/
namespace JourneyPlanner.Json

open JourneyPlanner.Text

/-- The digits of a number as they are written. -/
structure Number where
  negative : Bool
  whole : List Char
  fraction : Option (List Char)
  /-- The sign of the exponent, true for a minus, and its digits. -/
  exponent : Option (Bool × List Char)
  deriving DecidableEq, Repr

namespace Number

/-- The number of an integer. -/
def ofInt (n : Int) : Number := ⟨decide (n < 0), decimal n.natAbs, none, none⟩

/-- A row of digits at the front of a text, which must not be empty, and the rest. -/
def digitsFirst? (cs : List Char) : Option (List Char × List Char) :=
  match cs.span Char.isDigit with
  | ([], _) => none
  | (ds, rest) => some (ds, rest)

/-- The fraction after a point, if there is a point. -/
def fractionFirst? : List Char → Option (Option (List Char) × List Char)
  | '.' :: cs => (digitsFirst? cs).map fun (ds, rest) => (some ds, rest)
  | cs => some (none, cs)

/-- The sign in front of the digits of an exponent, true for a minus. -/
def exponentSign : List Char → Bool × List Char
  | '-' :: cs => (true, cs)
  | '+' :: cs => (false, cs)
  | cs => (false, cs)

/-- The exponent that a text consists of, if it is not empty. -/
def exponentOf? : List Char → Option (Option (Bool × List Char))
  | [] => some none
  | c :: cs =>
    if c = 'e' ∨ c = 'E' then
      match digitsFirst? (exponentSign cs).2 with
      | some (ds, []) => some (some ((exponentSign cs).1, ds))
      | _ => none
    else none

/-- A number without its sign. A first digit zero stands alone. -/
def unsigned? (negative : Bool) (cs : List Char) : Option Number := do
  let (whole, rest) ← digitsFirst? cs
  if whole.head? = some '0' ∧ whole ≠ ['0'] then none
  else
    let (fraction, rest) ← fractionFirst? rest
    let exponent ← exponentOf? rest
    return ⟨negative, whole, fraction, exponent⟩

def ofChars? : List Char → Option Number
  | '-' :: cs => unsigned? true cs
  | cs => unsigned? false cs

def toChars (n : Number) : List Char :=
  (if n.negative then ['-'] else []) ++ n.whole ++ (n.fraction.elim [] fun ds => '.' :: ds) ++
    n.exponent.elim [] fun (minus, ds) => 'e' :: ((if minus then ['-'] else []) ++ ds)

/-! ## Integers -/

/-- The integer that a number is written as, if it fits into 64 bits, with a sign if it has one. -/
def toInt? (n : Number) : Option Int :=
  if n.fraction.isNone && n.exponent.isNone then
    let v := digitsValue n.whole
    if n.negative then if 0 < v ∧ v ≤ UInt64.size / 2 then some (-(v : Int)) else none
    else if v < UInt64.size then some v else none
  else none

/-! ## Floats

A float is made from the leading digits that fit into 64 bits, multiplied or divided by a power of
ten. With up to 19 digits and a small exponent that is the float nearest to the number. -/

/-- Appends digits to a number as long as it fits into 64 bits, and gives back the other digits. -/
def appendDigits (n : Nat) : List Char → Nat × List Char
  | [] => (n, [])
  | c :: cs =>
    let next := 10 * n + digitValue c
    if next < 2 ^ 64 then appendDigits next cs else (n, c :: cs)

/-- The digits that are used, and the power of ten that belongs to them without the exponent. Digits
left of the point that are not used still count. -/
def significand (n : Number) : Nat × Int :=
  let (whole, unused) := appendDigits 0 n.whole
  let fraction := n.fraction.getD []
  let (digits, ignored) := appendDigits whole fraction
  (digits, (unused.length : Int) - ((fraction.length - ignored.length : Nat) : Int))

/-- The power `10 ^ k` as a float. -/
def powerOfTen (k : Nat) : Float := Float.ofScientific 1 false k

/-- `x * 10 ^ e`, unless that is too large for a float. -/
def scale? (x : Float) (e : Int) : Option Float :=
  if e.natAbs ≤ 308 then
    if 0 ≤ e then
      let y := x * powerOfTen e.natAbs
      if y.isInf then none else some y
    else some (x / powerOfTen e.natAbs)
  else if x == 0.0 then some x
  else if 0 ≤ e then none
  else scale? (x / powerOfTen 308) (e + 308)
termination_by e.natAbs
decreasing_by omega

/-- The largest exponent that is counted. -/
def exponentLimit : Nat := 2147483647

/-- The float without its sign. -/
def magnitude? (n : Number) : Option Float :=
  let (digits, e) := n.significand
  match n.exponent with
  | none => scale? (Float.ofNat digits) e
  | some (minus, ds) =>
    let k := digitsValue ds
    if exponentLimit < k then if digits ≠ 0 ∧ !minus then none else some 0.0
    else
      let total := if minus then e - (k : Int) else e + (k : Int)
      scale? (Float.ofNat digits) (max (-2147483648) (min 2147483647 total))

/-- The float that a number stands for, unless it is too large for one. -/
def toFloat? (n : Number) : Option Float := n.magnitude?.map fun x => if n.negative then -x else x

end Number

end JourneyPlanner.Json
