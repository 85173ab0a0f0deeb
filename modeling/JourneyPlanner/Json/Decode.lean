import JourneyPlanner.Json.Value
/-!
# Records in JSON

A record is written as an object, or as an array of its fields in their order. In an object, fields
that are not known are skipped, and one that is known must not be repeated. In an array, fields may be
missing at the end.
-/
namespace JourneyPlanner.Json.Value

/-- An integer between two bounds. -/
def intBetween? (lo hi : Int) : Value → Option Int
  | .number n =>
    match n.toInt? with
    | some i => if lo ≤ i ∧ i ≤ hi then some i else none
    | none => none
  | _ => none

/-- An integer of 32 bits with a sign. -/
def int32? : Value → Option Int := intBetween? (-2147483648) 2147483647

/-- An integer of 64 bits without a sign. -/
def nat64? (v : Value) : Option Nat := (intBetween? 0 18446744073709551615 v).map Int.toNat

def float? : Value → Option Float
  | .number n => n.toFloat?
  | _ => none

/-- A truth value. -/
def bool? : Value → Option Bool
  | .bool b => some b
  | _ => none

def text? : Value → Option String
  | .string s => s
  | _ => none

/-- A list of things that are read alike. -/
def list? {α : Type} (item? : Value → Option α) : Value → Option (List α)
  | .array items => items.mapM item?
  | _ => none

/-- One of some names: a string, or an object that has the name as its only key with the value null. -/
def oneOf? {α : Type} (names : List (String × α)) : Value → Option α
  | .string (some s) => names.lookup s
  | .object [(some s, .null)] => names.lookup s
  | _ => none

/-- The fields of a record with the given names, each missing or given by a value. -/
def fields? (names : List String) : Value → Option (List (Option Value))
  | .object members =>
    match members.mapM Prod.fst with
    | none => none
    | some keys =>
      if names.all fun name => decide (keys.count name ≤ 1) then
        some (names.map fun name => (members.find? fun m => m.1 == some name).map (·.2))
      else none
  | .array items =>
    if items.length ≤ names.length then
      some (items.map some ++ List.replicate (names.length - items.length) none)
    else none
  | _ => none

/-- A field that has a default. -/
def orDefault {α : Type} (read? : Value → Option α) (default : α) : Option Value → Option α
  | none => some default
  | some v => read? v

/-- A field that may be null. -/
def orNull {α : Type} (read? : Value → Option α) : Value → Option (Option α)
  | .null => some none
  | v => (read? v).map some

/-- The member of an object with the given key, the last one if there are several. -/
def member? (key : String) : Value → Option Value
  | .object members => (members.reverse.find? fun m => m.1 == some key).map (·.2)
  | _ => none

end JourneyPlanner.Json.Value
