set_option autoImplicit false

/-! # Numerals and names in settings

Settings are written by hand, so their numerals may carry a plus sign, and names in them are
compared without regard to the case of ASCII letters.
-/

namespace NinetySix.Text

/-- The ASCII digits only. -/
def isDigit (c : Char) : Bool := '0' ≤ c && c ≤ '9'

/-- The value of a list of digits read in base ten. -/
def digitsValue (ds : List Char) : Nat :=
  ds.foldl (fun n c => 10 * n + (c.toNat - '0'.toNat)) 0

/-- A numeral of an unsigned 64-bit word: an optional plus sign, then digits only, at least
one, with a value below `2 ^ 64`. -/
def word64? (s : String) : Option Nat :=
  let digits := match s.toList with
    | '+' :: rest => rest
    | cs => cs
  if digits.isEmpty || !digits.all isDigit then none
  else
    let n := digitsValue digits
    if n < UInt64.size then some n else none

/-- Lower case for ASCII letters; every other character stays. -/
def lowerAscii (s : String) : String := s.map Char.toLower

end NinetySix.Text
