import NinetySix.Decimal.Shortest
import NinetySix.Json.Value

set_option autoImplicit false

/-! # JSON text

Values are written in two layouts. `Value.compact` has no blanks. `Value.pretty` puts every entry
of a container on a line of its own, two spaces further in than the container, and a space after
each colon; an empty container stays on one line.

In a string a quote, a backslash and the control characters are escaped, the five that have a
letter by it and the others by four hexadecimal digits. All other characters stand for themselves.
-/

namespace NinetySix.Json

/-- A control character as an escape of four hexadecimal digits. -/
def unitEscape (c : Char) : List Char :=
  let digit (n : Nat) : Char := Nat.digitChar (n % 16)
  ['\\', 'u', '0', '0', digit (c.toNat / 16), digit c.toNat]

/-- One character of a written string. -/
def escapeChar (c : Char) : List Char :=
  match c with
  | '"' => ['\\', '"']
  | '\\' => ['\\', '\\']
  | '\x08' => ['\\', 'b']
  | '\x0c' => ['\\', 'f']
  | '\n' => ['\\', 'n']
  | '\r' => ['\\', 'r']
  | '\t' => ['\\', 't']
  | c => if c.toNat < 0x20 then unitEscape c else [c]

/-- A string as it is written. -/
def writeString (s : String) : String :=
  "\"" ++ String.ofList (s.toList.flatMap escapeChar) ++ "\""

/-- A list of texts with a separator between neighbours. -/
def joined (sep : String) : List String → String
  | [] => ""
  | [x] => x
  | x :: rest => x ++ sep ++ joined sep rest

namespace Value

mutual

/-- The text of a value without blanks. -/
def compact : Value → String
  | .null => "null"
  | .bool b => if b then "true" else "false"
  | .int n => toString n
  | .double x => x.text
  | .string s => writeString s
  | .array items => "[" ++ joined "," (compactItems items) ++ "]"
  | .object fields => "\x7b" ++ joined "," (compactFields fields) ++ "\x7d"

/-- The texts of the entries of an array. -/
def compactItems : List Value → List String
  | [] => []
  | v :: rest => compact v :: compactItems rest

/-- The texts of the entries of an object. -/
def compactFields : List (String × Value) → List String
  | [] => []
  | (k, v) :: rest => (writeString k ++ ":" ++ compact v) :: compactFields rest

end

/-- A new line, indented by `depth` steps. -/
def newline (depth : Nat) : String := String.ofList ('\n' :: List.replicate (2 * depth) ' ')

mutual

/-- The text of a value over several lines; the value stands inside `depth` containers. -/
def prettyAt (depth : Nat) : Value → String
  | .null => "null"
  | .bool b => if b then "true" else "false"
  | .int n => toString n
  | .double x => x.text
  | .string s => writeString s
  | .array [] => "[]"
  | .array (v :: rest) =>
    "[" ++ newline (depth + 1)
      ++ joined ("," ++ newline (depth + 1)) (prettyItems (depth + 1) (v :: rest))
      ++ newline depth ++ "]"
  | .object [] => "\x7b\x7d"
  | .object (f :: rest) =>
    "\x7b" ++ newline (depth + 1)
      ++ joined ("," ++ newline (depth + 1)) (prettyFields (depth + 1) (f :: rest))
      ++ newline depth ++ "\x7d"

/-- The texts of the entries of an array. -/
def prettyItems (depth : Nat) : List Value → List String
  | [] => []
  | v :: rest => prettyAt depth v :: prettyItems depth rest

/-- The texts of the entries of an object. -/
def prettyFields (depth : Nat) : List (String × Value) → List String
  | [] => []
  | (k, v) :: rest => (writeString k ++ ": " ++ prettyAt depth v) :: prettyFields depth rest

end

/-- The text of a value over several lines. -/
def pretty (v : Value) : String := prettyAt 0 v

end Value

end NinetySix.Json
