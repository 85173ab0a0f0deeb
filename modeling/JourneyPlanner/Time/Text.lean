import JourneyPlanner.Time
import JourneyPlanner.Text.Blank
import JourneyPlanner.Text.Fields
import JourneyPlanner.Text.Digits
/-!
# Times as text

A time is written `H:MM`, or `H:MM:SS` when the seconds are not zero, with a minus sign in front
when it is before midnight. Reading takes either form with up to three hour digits, and ignores
blanks around it. A duration is written as its nonzero parts, such as `1h5m`.
-/
namespace JourneyPlanner

/-- Why a text is no time. -/
inductive TimeError where
  | hourDigits
  | components
  | secondDigits
  | tooManyComponents
  | minuteRange
  | secondRange
  deriving DecidableEq, Repr

def TimeError.message : TimeError → String
  | .hourDigits => "invalid time: invalid hour digits"
  | .components => "invalid time: expected H:MM or H:MM:SS format"
  | .secondDigits => "invalid time: invalid second digits"
  | .tooManyComponents => "invalid time: too many components"
  | .minuteRange => "invalid time: minute must be 0-59"
  | .secondRange => "invalid time: second must be 0-59"

namespace Time

open JourneyPlanner.Text

/-! ## Reading -/

/-- Whether a minus sign comes first, and what follows it. -/
def signOf : List Char → Bool × List Char
  | '-' :: cs => (true, cs)
  | cs => (false, cs)

/-- The hours of the first component: one to three digits. -/
def hours? (cs : List Char) : Option Nat :=
  if cs.isEmpty || decide (3 < cs.length) then none else digits? cs

/-- The seconds of the third component, zero when there is none. -/
def seconds? : List (List Char) → Option Nat
  | [] => some 0
  | s :: _ => twoDigits? s

/-- The seconds written by the components between the colons. -/
def ofComponents : List (List Char) → Except TimeError Nat
  | [] => .error .hourDigits
  | hour :: rest =>
    match hours? hour with
    | none => .error .hourDigits
    | some h =>
      match rest with
      | [] => .error .components
      | minute :: rest =>
        match twoDigits? minute with
        | none => .error .components
        | some m =>
          match seconds? rest with
          | none => .error .secondDigits
          | some s =>
            if 1 < rest.length then .error .tooManyComponents
            else if 59 < m then .error .minuteRange
            else if 59 < s then .error .secondRange
            else .ok (h * 3600 + m * 60 + s)

/-- The time written by a text, or what is wrong with the text. -/
def ofChars (cs : List Char) : Except TimeError Time :=
  let (negative, cs) := signOf (trim cs)
  match ofComponents (fields (· == ':') cs) with
  | .error e => .error e
  | .ok n => .ok (ofSecs (if negative then -(n : Int) else n))

/-- The time written by a string, or what is wrong with the string. -/
def parse (s : String) : Except TimeError Time := ofChars s.toList

/-- A comma or a blank. -/
def isListSeparator (c : Char) : Bool := c == ',' || isBlank c

/-- The times of a list separated by commas and blanks, or what is wrong with the first bad one. -/
def parseList (s : String) : Except TimeError (List Time) :=
  ((fields isListSeparator s.toList).filter fun f => !f.isEmpty).mapM ofChars

/-! ## Writing -/

/-- A minus sign for a negative number. -/
def signText (n : Int) : List Char := if n < 0 then ['-'] else []

/-- The characters of a time. -/
def toChars (t : Time) : List Char :=
  let n := t.secs.natAbs
  let seconds := if n % 60 = 0 then [] else ':' :: twoDigits (n % 60)
  signText t.secs ++ decimal (n / 3600) ++ ':' :: twoDigits (n % 3600 / 60) ++ seconds

instance : ToString Time := ⟨fun t => String.ofList t.toChars⟩

/-- One part of a duration with its unit, left out when it is zero. -/
def durationPart (n : Nat) (unit : Char) : List Char :=
  if n = 0 then [] else decimal n ++ [unit]

/-- A duration in seconds as hours, minutes and seconds. -/
def durationText (secs : Int) : String :=
  let n := secs.natAbs
  if n = 0 then "0s"
  else
    String.ofList (signText secs ++ durationPart (n / 3600) 'h' ++ durationPart (n % 3600 / 60) 'm'
      ++ durationPart (n % 60) 's')

end Time

end JourneyPlanner
