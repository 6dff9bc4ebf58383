set_option autoImplicit false

/-! # Blank characters

The characters of the Unicode property White_Space, and the trimming and blankness tests on
strings that are defined by it. The property includes the next-line control, the no-break
space and the separators of the general punctuation block; it does not include the zero-width
space.
-/

namespace NinetySix.Text

/-- The ranges of code points that are White_Space, ascending. -/
def blankRanges : List (Nat × Nat) :=
  [(0x9, 0xd), (0x20, 0x20), (0x85, 0x85), (0xa0, 0xa0), (0x1680, 0x1680), (0x2000, 0x200a),
   (0x2028, 0x2029), (0x202f, 0x202f), (0x205f, 0x205f), (0x3000, 0x3000)]

/-- The character is White_Space. -/
def isBlank (c : Char) : Bool := blankRanges.any fun r => r.1 ≤ c.toNat && c.toNat ≤ r.2

/-- Every character of the string is blank; the empty string is. -/
def allBlank (s : String) : Bool := s.toList.all isBlank

/-- The string without its leading and trailing blanks. -/
def trim (s : String) : String :=
  String.ofList (((s.toList.dropWhile isBlank).reverse.dropWhile isBlank).reverse)

end NinetySix.Text
