import NinetySix.Text.Numeral

set_option autoImplicit false

/-! # Tokens of JSON text

`Token.scan` cuts a text into its tokens, dropping the blanks between them, and fails on a
character that starts no token, on a malformed number and on a string that is not closed,
holds a raw control character or an unknown escape.

Scanning checks the grammar only. What a number or a string denotes, and whether it denotes
anything at all, is decided by the readers of the tokens: a number keeps its digits, and a string
keeps its escapes in hexadecimal apart from the characters that stand for themselves.
-/

namespace NinetySix.Json

/-- A number as it is written: the digits before and after the point, and the exponent. -/
structure Numeral where
  negative : Bool
  whole : List Char
  fraction : Option (List Char)
  exponent : Option (Bool × List Char)
  deriving DecidableEq, Repr

/-- A part of a written string: a character, or an escape that gives a 16-bit unit. -/
inductive Piece where
  | char (c : Char)
  | unit (n : Nat)
  deriving DecidableEq, Repr

inductive Token where
  | openBrace
  | closeBrace
  | openBracket
  | closeBracket
  | comma
  | colon
  | null
  | bool (b : Bool)
  | number (n : Numeral)
  | string (s : List Piece)
  deriving DecidableEq, Repr

namespace Token

/-! ## Numbers -/

/-- The longest run of digits, which has to be non-empty, and what follows it. -/
def digits1? (cs : List Char) : Option (List Char × List Char) :=
  match cs.takeWhile Text.isDigit with
  | [] => none
  | ds => some (ds, cs.dropWhile Text.isDigit)

/-- The digits before the point: a zero stands alone. -/
def whole? : List Char → Option (List Char × List Char)
  | '0' :: rest => some (['0'], rest)
  | cs => digits1? cs

/-- The point and the digits after it, if there is a point. -/
def fraction? : List Char → Option (Option (List Char) × List Char)
  | '.' :: rest => (digits1? rest).map fun (ds, rest) => (some ds, rest)
  | cs => some (none, cs)

/-- The digits of an exponent with its sign, `true` for a negative one. -/
def signedDigits? : List Char → Option ((Bool × List Char) × List Char)
  | '+' :: rest => (digits1? rest).map fun (ds, rest) => ((false, ds), rest)
  | '-' :: rest => (digits1? rest).map fun (ds, rest) => ((true, ds), rest)
  | cs => (digits1? cs).map fun (ds, rest) => ((false, ds), rest)

/-- The exponent, if there is one. -/
def exponent? : List Char → Option (Option (Bool × List Char) × List Char)
  | 'e' :: rest => (signedDigits? rest).map fun (x, rest) => (some x, rest)
  | 'E' :: rest => (signedDigits? rest).map fun (x, rest) => (some x, rest)
  | cs => some (none, cs)

/-- A number without its sign. -/
def magnitude? (negative : Bool) (cs : List Char) : Option (Numeral × List Char) := do
  let (whole, cs) ← whole? cs
  let (fraction, cs) ← fraction? cs
  let (exponent, cs) ← exponent? cs
  return ({ negative, whole, fraction, exponent }, cs)

/-- A number. -/
def numeral? : List Char → Option (Numeral × List Char)
  | '-' :: rest => magnitude? true rest
  | cs => magnitude? false cs

/-! ## Strings -/

/-- The value of a hexadecimal digit of either case. -/
def hexDigit? (c : Char) : Option Nat :=
  if '0' ≤ c ∧ c ≤ '9' then some (c.toNat - '0'.toNat)
  else if 'a' ≤ c ∧ c ≤ 'f' then some (c.toNat - 'a'.toNat + 10)
  else if 'A' ≤ c ∧ c ≤ 'F' then some (c.toNat - 'A'.toNat + 10)
  else none

/-- The value of four hexadecimal digits. -/
def hexUnit? (a b c d : Char) : Option Nat := do
  return (((← hexDigit? a) * 16 + (← hexDigit? b)) * 16 + (← hexDigit? c)) * 16 + (← hexDigit? d)

/-- The character that a one-letter escape stands for. -/
def escape? : Char → Option Char
  | '"' => some '"'
  | '\\' => some '\\'
  | '/' => some '/'
  | 'b' => some '\x08'
  | 'f' => some '\x0c'
  | 'n' => some '\n'
  | 'r' => some '\r'
  | 't' => some '\t'
  | _ => none

/-- The pieces of a string up to its closing quote, after the pieces `done`, which are in reverse
order, and what follows the quote. -/
def stringBody? (done : List Piece) : List Char → Option (List Piece × List Char)
  | [] => none
  | '"' :: rest => some (done.reverse, rest)
  | '\\' :: 'u' :: a :: b :: c :: d :: rest =>
    match hexUnit? a b c d with
    | some n => stringBody? (.unit n :: done) rest
    | none => none
  | '\\' :: e :: rest =>
    match escape? e with
    | some c => stringBody? (.char c :: done) rest
    | none => none
  | c :: rest => if c.toNat < 0x20 ∨ c = '\\' then none else stringBody? (.char c :: done) rest

/-! ## The scanner -/

/-- The blanks of JSON: space, tab, line feed and carriage return. -/
def isSpace (c : Char) : Bool := c == ' ' || c == '\t' || c == '\n' || c == '\r'

/-- The token at the start of a text and what follows it. -/
def next? : List Char → Option (Token × List Char)
  | '{' :: rest => some (.openBrace, rest)
  | '}' :: rest => some (.closeBrace, rest)
  | '[' :: rest => some (.openBracket, rest)
  | ']' :: rest => some (.closeBracket, rest)
  | ',' :: rest => some (.comma, rest)
  | ':' :: rest => some (.colon, rest)
  | 'n' :: 'u' :: 'l' :: 'l' :: rest => some (.null, rest)
  | 't' :: 'r' :: 'u' :: 'e' :: rest => some (.bool true, rest)
  | 'f' :: 'a' :: 'l' :: 's' :: 'e' :: rest => some (.bool false, rest)
  | '"' :: rest => (stringBody? [] rest).map fun (s, rest) => (.string s, rest)
  | cs => (numeral? cs).map fun (n, rest) => (.number n, rest)

/-! ### Every token takes a character

`scan` goes on with what follows a token. The lemmas bound the length of what each part leaves
over. -/

theorem length_dropWhile_le {α : Type} (p : α → Bool) (xs : List α) :
    (xs.dropWhile p).length ≤ xs.length :=
  (List.dropWhile_sublist p).length_le

theorem length_of_digits1? {cs ds rest : List Char} (h : digits1? cs = some (ds, rest)) :
    rest.length < cs.length := by
  unfold digits1? at h
  split at h
  · cases h
  · next hne =>
    cases h
    have hpos := List.length_pos_iff.mpr hne
    have hsum := congrArg List.length (List.takeWhile_append_dropWhile (p := Text.isDigit) (l := cs))
    rw [List.length_append] at hsum
    omega

theorem length_of_whole? {cs ds rest : List Char} (h : whole? cs = some (ds, rest)) :
    rest.length < cs.length := by
  unfold whole? at h
  split at h
  · cases h; simp
  · exact length_of_digits1? h

theorem length_of_fraction? {cs rest : List Char} {x : Option (List Char)}
    (h : fraction? cs = some (x, rest)) : rest.length ≤ cs.length := by
  unfold fraction? at h
  split at h
  · obtain ⟨⟨ds, r⟩, hd, heq⟩ := Option.map_eq_some_iff.mp h
    cases heq
    have := length_of_digits1? hd
    simp only [List.length_cons]
    omega
  · cases h; exact Nat.le_refl _

theorem length_of_signedDigits? {cs rest : List Char} {x : Bool × List Char}
    (h : signedDigits? cs = some (x, rest)) : rest.length < cs.length := by
  unfold signedDigits? at h
  split at h <;>
    · obtain ⟨⟨ds, r⟩, hd, heq⟩ := Option.map_eq_some_iff.mp h
      cases heq
      have := length_of_digits1? hd
      simp only [List.length_cons] at *
      omega

theorem length_of_exponent? {cs rest : List Char} {x : Option (Bool × List Char)}
    (h : exponent? cs = some (x, rest)) : rest.length ≤ cs.length := by
  unfold exponent? at h
  split at h
  · obtain ⟨⟨y, r⟩, hd, heq⟩ := Option.map_eq_some_iff.mp h
    cases heq
    have := length_of_signedDigits? hd
    simp only [List.length_cons]
    omega
  · obtain ⟨⟨y, r⟩, hd, heq⟩ := Option.map_eq_some_iff.mp h
    cases heq
    have := length_of_signedDigits? hd
    simp only [List.length_cons]
    omega
  · cases h; exact Nat.le_refl _

theorem length_of_magnitude? {negative : Bool} {cs rest : List Char} {n : Numeral}
    (h : magnitude? negative cs = some (n, rest)) : rest.length < cs.length := by
  simp only [magnitude?, Option.bind_eq_bind, Option.bind_eq_some_iff] at h
  obtain ⟨⟨w, r₁⟩, hw, ⟨f, r₂⟩, hf, ⟨x, r₃⟩, hx, heq⟩ := h
  cases heq
  have h₁ : r₁.length < cs.length := length_of_whole? hw
  have h₂ : r₂.length ≤ r₁.length := length_of_fraction? hf
  have h₃ : r₃.length ≤ r₂.length := length_of_exponent? hx
  exact Nat.lt_of_le_of_lt (Nat.le_trans h₃ h₂) h₁

theorem length_of_numeral? {cs rest : List Char} {n : Numeral}
    (h : numeral? cs = some (n, rest)) : rest.length < cs.length := by
  unfold numeral? at h
  split at h
  · have := length_of_magnitude? h
    simp only [List.length_cons]
    omega
  · exact length_of_magnitude? h

theorem length_of_stringBody? {done s : List Piece} {cs rest : List Char}
    (h : stringBody? done cs = some (s, rest)) : rest.length < cs.length := by
  fun_induction stringBody? done cs with
  | case1 => cases h
  | case2 => cases h; simp
  | case3 _ _ _ _ _ _ _ _ ih => have := ih h; simp only [List.length_cons]; omega
  | case4 => cases h
  | case5 _ _ _ _ _ _ ih => have := ih h; simp only [List.length_cons]; omega
  | case6 => cases h
  | case7 => cases h
  | case8 _ _ _ _ _ _ _ ih => have := ih h; simp only [List.length_cons]; omega

theorem length_of_next? {cs rest : List Char} {t : Token} (h : next? cs = some (t, rest)) :
    rest.length < cs.length := by
  unfold next? at h
  split at h
  iterate 9 · cases h; simp only [List.length_cons]; omega
  · obtain ⟨⟨s, r⟩, hs, heq⟩ := Option.map_eq_some_iff.mp h
    cases heq
    have := length_of_stringBody? hs
    simp only [List.length_cons]
    omega
  · obtain ⟨⟨n, r⟩, hn, heq⟩ := Option.map_eq_some_iff.mp h
    cases heq
    exact length_of_numeral? hn

/-- The tokens of a text. -/
def scan (cs : List Char) : Option (List Token) :=
  if (cs.dropWhile isSpace).isEmpty then some []
  else
    match _hn : next? (cs.dropWhile isSpace) with
    | none => none
    | some (t, rest) => (scan rest).map (t :: ·)
termination_by cs.length
decreasing_by
  have h₁ := length_of_next? _hn
  have h₂ := length_dropWhile_le isSpace cs
  omega

end Token

end NinetySix.Json
