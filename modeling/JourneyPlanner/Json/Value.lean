import JourneyPlanner.Json.Token
/-!
# JSON values

`Value.ofText?` reads a text as one value. Values may be nested to any depth, and the members of an
object keep their order and their repetitions.
-/
namespace JourneyPlanner.Json

/-- A value. The text of a string or a key is missing if its escapes name no characters. -/
inductive Value where
  | null
  | bool (value : Bool)
  | number (value : Number)
  | string (text : Option String)
  | array (items : List Value)
  | object (members : List (Option String × Value))

namespace Value

/-- A value around the one that is being read; what it holds so far is in reverse. -/
inductive Frame where
  | array (items : List Value)
  | object (members : List (Option String × Value))
  | member (members : List (Option String × Value)) (key : Option String)

/-- What may come next. -/
inductive Expecting where
  | value
  | firstItem
  | firstKey
  | key
  | colon
  | separator
  | nothing (value : Value)

/-- The reader between two tokens, with the values around, the innermost one first. -/
structure Reader where
  frames : List Frame
  expecting : Expecting

namespace Reader

/-- A value has been read. -/
def complete (frames : List Frame) (v : Value) : Option Reader :=
  match frames with
  | [] => some ⟨[], .nothing v⟩
  | .array items :: rest => some ⟨.array (v :: items) :: rest, .separator⟩
  | .member members key :: rest => some ⟨.object ((key, v) :: members) :: rest, .separator⟩
  | .object _ :: _ => none

/-- A token that starts a value. -/
def startValue (frames : List Frame) : Token → Option Reader
  | .null => complete frames .null
  | .bool b => complete frames (.bool b)
  | .number n => complete frames (.number n)
  | .string s => complete frames (.string s)
  | .openArray => some ⟨.array [] :: frames, .firstItem⟩
  | .openObject => some ⟨.object [] :: frames, .firstKey⟩
  | _ => none

def startMember : List Frame → Token → Option Reader
  | .object members :: rest, .string key => some ⟨.member members key :: rest, .colon⟩
  | _, _ => none

/-- A token after a value: another one follows, or the value around it ends. -/
def endValue : List Frame → Token → Option Reader
  | .array items :: rest, .comma => some ⟨.array items :: rest, .value⟩
  | .object members :: rest, .comma => some ⟨.object members :: rest, .key⟩
  | .array items :: rest, .closeArray => complete rest (.array items.reverse)
  | .object members :: rest, .closeObject => complete rest (.object members.reverse)
  | _, _ => none

/-- One token. -/
def step (s : Reader) (t : Token) : Option Reader :=
  match s.expecting with
  | .value => startValue s.frames t
  | .firstItem => if t = .closeArray then endValue s.frames t else startValue s.frames t
  | .firstKey => if t = .closeObject then endValue s.frames t else startMember s.frames t
  | .key => startMember s.frames t
  | .colon => if t = .colon then some { s with expecting := .value } else none
  | .separator => endValue s.frames t
  | .nothing _ => none

end Reader

def ofTokens? (ts : List Token) : Option Value :=
  (ts.foldlM Reader.step ⟨[], .value⟩).bind fun s =>
    match s.expecting with
    | .nothing v => some v
    | _ => none

def ofText? (s : String) : Option Value := (tokens? s.toList).bind ofTokens?

/-! ## Writing -/

/-- A hexadecimal digit in lower case. -/
def hexDigit (n : Nat) : Char := Nat.digitChar n

/-- A character inside a written string. -/
def quotedChar (c : Char) : List Char :=
  if c = '"' then ['\\', '"']
  else if c = '\\' then ['\\', '\\']
  else if c.toNat < 0x20 then
    ['\\', 'u', '0', '0', hexDigit (c.toNat / 16), hexDigit (c.toNat % 16)]
  else [c]

/-- A string with its quotation marks. -/
def quoted (s : String) : String :=
  String.ofList ('"' :: (s.toList.flatMap quotedChar ++ ['"']))

mutual

/-- The text of a value, without blanks. -/
def toText : Value → String
  | .null => "null"
  | .bool b => if b then "true" else "false"
  | .number n => String.ofList n.toChars
  | .string s => quoted (s.getD "")
  | .array items => "[" ++ ",".intercalate (itemTexts items) ++ "]"
  | .object members => "\x7b" ++ ",".intercalate (memberTexts members) ++ "\x7d"

def itemTexts : List Value → List String
  | [] => []
  | v :: vs => toText v :: itemTexts vs

def memberTexts : List (Option String × Value) → List String
  | [] => []
  | (k, v) :: ms => (quoted (k.getD "") ++ ":" ++ toText v) :: memberTexts ms

end

/-- An integer. -/
def int (n : Int) : Value := .number (.ofInt n)

def text (s : String) : Value := .string (some s)

/-- An array of things that are written alike. -/
def arrayOf {α : Type} (write : α → Value) (xs : List α) : Value := .array (xs.map write)

/-- A thing that may be missing, which is written as null. -/
def optional {α : Type} (write : α → Value) : Option α → Value
  | none => .null
  | some a => write a

/-- A natural number. -/
def nat (n : Nat) : Value := .int n

/-- An object with members in the given order. -/
def record (members : List (String × Value)) : Value :=
  .object (members.map fun (k, v) => (some k, v))

end Value

end JourneyPlanner.Json
