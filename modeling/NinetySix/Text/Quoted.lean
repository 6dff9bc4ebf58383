import NinetySix.Text.Invisible

set_option autoImplicit false

/-! # Quoted texts in messages

A message that names a text chosen by the caller shows it between double quotes, with every
character that could not be seen spelt out. A quote and a backslash get a backslash; NUL, tab,
line feed and carriage return have their letters; any other invisible character is written as
its code point in braces. Everything else stands for itself, the apostrophe too.
-/

namespace NinetySix.Text

/-- A number in lower-case hexadecimal, without leading zeros. -/
def hexadecimal (n : Nat) : String := String.ofList (Nat.toDigits 16 n)

/-- One character of a quoted text. -/
def quotedChar (c : Char) : String :=
  match c with
  | '"' => "\\\""
  | '\\' => "\\\\"
  | '\x00' => "\\0"
  | '\t' => "\\t"
  | '\n' => "\\n"
  | '\r' => "\\r"
  | c => if isInvisible c then "\\u\x7b" ++ hexadecimal c.toNat ++ "\x7d" else c.toString

/-- The text between double quotes, every character of it visible. -/
def quoted (s : String) : String :=
  "\"" ++ String.join (s.toList.map quotedChar) ++ "\""

end NinetySix.Text
