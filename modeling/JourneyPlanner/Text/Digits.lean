/-!
# Decimal digits

Numbers are read from and written with the ASCII digits `0` to `9` only.
-/
namespace JourneyPlanner.Text

/-- The value of a digit character. -/
def digitValue (c : Char) : Nat := c.toNat - '0'.toNat

/-- The number that a row of digits writes in base ten; an empty row writes zero. -/
def digitsValue (cs : List Char) : Nat := cs.foldl (fun n c => 10 * n + digitValue c) 0

/-- The number written by `cs`, where every character is a digit. -/
def digits? (cs : List Char) : Option Nat :=
  if cs.all Char.isDigit then some (digitsValue cs) else none

/-- The number written by exactly two digits. -/
def twoDigits? (cs : List Char) : Option Nat :=
  if cs.length = 2 then digits? cs else none

/-- A number below one hundred as two digits. -/
def twoDigits (n : Nat) : List Char := [Nat.digitChar (n / 10), Nat.digitChar (n % 10)]

/-- A number in base ten, without leading zeros. -/
def decimal (n : Nat) : List Char := Nat.toDigits 10 n

end JourneyPlanner.Text
