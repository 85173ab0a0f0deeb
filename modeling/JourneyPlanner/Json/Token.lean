import JourneyPlanner.Json.Number
/-!
# JSON tokens

The lexer goes through a text one character at a time and keeps the token that it is in. A string
whose escapes do not pair up to characters is a token too, but has no text: it may stand where it is
skipped.
-/
namespace JourneyPlanner.Json

/-- The words and signs of JSON. -/
inductive Token where
  | openArray
  | closeArray
  | openObject
  | closeObject
  | colon
  | comma
  | null
  | bool (value : Bool)
  | number (value : Number)
  /-- A string, without a text if its escapes name no characters. -/
  | string (text : Option String)
  deriving DecidableEq, Repr

/-! ## Strings -/

/-- A part of a string: a character that stands for itself or has an escape of its own, or a 16-bit
unit that is written in hexadecimal. -/
inductive Piece where
  | char (c : Char)
  | unit (n : Nat)
  deriving DecidableEq, Repr

/-- A unit that begins a pair. -/
def isLead (n : Nat) : Bool := decide (0xD800 ≤ n) && decide (n ≤ 0xDBFF)

/-- A unit that ends a pair. -/
def isTrail (n : Nat) : Bool := decide (0xDC00 ≤ n) && decide (n ≤ 0xDFFF)

/-- The character of a pair of units. -/
def pairChar (lead trail : Nat) : Char :=
  Char.ofNat ((lead - 0xD800) * 0x400 + (trail - 0xDC00) + 0x10000)

/-- The characters of a string, unless a unit of a pair stands alone. -/
def decodePieces : List Piece → Option (List Char)
  | [] => some []
  | .char c :: rest => (decodePieces rest).map (c :: ·)
  | .unit n :: .unit m :: rest =>
    if isLead n then
      if isTrail m then (decodePieces rest).map (pairChar n m :: ·) else none
    else if isTrail n then none
    else (decodePieces (.unit m :: rest)).map (Char.ofNat n :: ·)
  | .unit n :: rest =>
    if isLead n || isTrail n then none else (decodePieces rest).map (Char.ofNat n :: ·)

/-- The character of an escape of one letter. -/
def escapeChar? (c : Char) : Option Char :=
  [('"', '"'), ('\\', '\\'), ('/', '/'), ('b', '\x08'), ('f', '\x0c'), ('n', '\n'), ('r', '\r'),
    ('t', '\t')].lookup c

/-- The value of a hexadecimal digit of either case. -/
def hexValue? (c : Char) : Option Nat :=
  if c.isDigit then some (Text.digitValue c)
  else if 'a' ≤ c ∧ c ≤ 'f' then some (c.toNat - 'a'.toNat + 10)
  else if 'A' ≤ c ∧ c ≤ 'F' then some (c.toNat - 'A'.toNat + 10)
  else none

/-! ## The lexer -/

/-- What the lexer is in; parts read so far are in reverse. -/
inductive LexMode where
  | between
  | number (chars : List Char)
  | word (chars : List Char)
  | string (pieces : List Piece)
  | escape (pieces : List Piece)
  /-- Some hexadecimal digits are still to come. -/
  | hex (pieces : List Piece) (left value : Nat)
  deriving DecidableEq, Repr

/-- The lexer between two characters; the tokens are in reverse. -/
structure Lexer where
  tokens : List Token
  mode : LexMode
  deriving DecidableEq, Repr

namespace Lexer

/-- A blank between tokens. -/
def isSpace (c : Char) : Bool := c == ' ' || c == '\n' || c == '\t' || c == '\r'

/-- A character of a number. -/
def isNumberChar (c : Char) : Bool := c.isDigit || ['-', '+', '.', 'e', 'E'].contains c

/-- A token of one character. -/
def sign? (c : Char) : Option Token :=
  [('[', Token.openArray), (']', .closeArray), ('\x7b', .openObject), ('\x7d', .closeObject),
    (':', .colon), (',', .comma)].lookup c

def word? (chars : List Char) : Option Token :=
  [("null", Token.null), ("true", .bool true), ("false", .bool false)].lookup (String.ofList chars)

/-- Adds a token. -/
def emit (s : Lexer) (t : Token) : Lexer := ⟨t :: s.tokens, .between⟩

/-- The character that comes after a token. -/
def start (s : Lexer) (c : Char) : Option Lexer :=
  if isSpace c then some s
  else
    match sign? c with
    | some t => some (s.emit t)
    | none =>
      if c = '"' then some { s with mode := .string [] }
      else if c = '-' || c.isDigit then some { s with mode := .number [c] }
      else if c.isLower then some { s with mode := .word [c] }
      else none

/-- Ends a number or a word. -/
def finishToken (s : Lexer) : Option Lexer :=
  match s.mode with
  | .between => some s
  | .number chars => (Number.ofChars? chars.reverse).map fun n => s.emit (.number n)
  | .word chars => (word? chars.reverse).map s.emit
  | _ => none

/-- One character. -/
def step (s : Lexer) (c : Char) : Option Lexer :=
  match s.mode with
  | .between => s.start c
  | .number chars =>
    if isNumberChar c then some { s with mode := .number (c :: chars) }
    else s.finishToken.bind (·.start c)
  | .word chars =>
    if c.isLower then some { s with mode := .word (c :: chars) }
    else s.finishToken.bind (·.start c)
  | .string pieces =>
    if c = '"' then some (s.emit (.string ((decodePieces pieces.reverse).map String.ofList)))
    else if c = '\\' then some { s with mode := .escape pieces }
    else if c.toNat < 0x20 then none
    else some { s with mode := .string (.char c :: pieces) }
  | .escape pieces =>
    if c = 'u' then some { s with mode := .hex pieces 4 0 }
    else (escapeChar? c).map fun e => { s with mode := .string (.char e :: pieces) }
  | .hex pieces left value =>
    (hexValue? c).map fun d =>
      let next := 16 * value + d
      if left ≤ 1 then { s with mode := .string (.unit next :: pieces) }
      else { s with mode := .hex pieces (left - 1) next }

end Lexer

def tokens? (cs : List Char) : Option (List Token) :=
  ((cs.foldlM Lexer.step ⟨[], .between⟩).bind Lexer.finishToken).map (·.tokens.reverse)

end JourneyPlanner.Json
