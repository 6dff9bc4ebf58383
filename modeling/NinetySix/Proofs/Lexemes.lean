import Mathlib
import NinetySix.Json.Printer

set_option autoImplicit false

/-! # Scanning what the printer writes

The printer writes strings with escapes, integers in decimal, and line breaks around the entries
of a container. `Token.Scans text ts` says that the scanner cuts `text` into the tokens `ts`,
whatever follows it, as long as what follows does not go on with a number (`Token.Stops`).

* `Token.scans_int`: an integer is scanned as its numeral, and `Numeral.value?_ofInt`: the numeral
  denotes the integer if it fits a signed or an unsigned 64-bit word.
* `Token.scans_writeString`: a string is scanned as its `pieces`, and `stringOfPieces?_pieces`: the
  pieces denote the string, whatever characters it has.
* `Token.scans_entries`: brackets around entries with commas and line breaks between them are
  scanned as the tokens of the entries with commas between them.
-/

namespace NinetySix.Json

namespace Token

/-! ## One step of the scanner -/

theorem scan_space {c : Char} (hc : isSpace c = true) (cs : List Char) :
    scan (c :: cs) = scan cs := by
  rw [scan, scan.eq_def cs, List.dropWhile_cons, if_pos hc]

theorem scan_of_next? {c : Char} {cs rest : List Char} {t : Token} (hc : isSpace c = false)
    (h : next? (c :: cs) = some (t, rest)) : scan (c :: cs) = (scan rest).map (t :: ·) := by
  have hdrop : (c :: cs).dropWhile isSpace = c :: cs := by simp [hc]
  rw [scan, hdrop, List.isEmpty_cons, if_neg Bool.false_ne_true]
  split
  · next hn => rw [h] at hn; cases hn
  · next hn => rw [h] at hn; cases hn; rfl

theorem scan_spaces {bs : List Char} (hbs : ∀ c ∈ bs, isSpace c = true) (cs : List Char) :
    scan (bs ++ cs) = scan cs := by
  induction bs with
  | nil => rfl
  | cons b bs ih =>
      obtain ⟨hb, hbs⟩ := List.forall_mem_cons.mp hbs
      rw [List.cons_append, scan_space hb, ih hbs]

theorem scan_newline (depth : Nat) (cs : List Char) :
    scan ((Value.newline depth).toList ++ cs) = scan cs := by
  apply scan_spaces
  intro c hc
  rw [Value.newline, String.toList_ofList, List.mem_cons] at hc
  rcases hc with rfl | hc
  · rfl
  · rw [List.eq_of_mem_replicate hc]
    rfl

/-! ## Texts and their tokens -/

/-- The text does not go on with a number that stands before it. -/
def Stops (cs : List Char) : Prop :=
  ∀ c ∈ cs.head?, Text.isDigit c = false ∧ c ≠ '.' ∧ c ≠ 'e' ∧ c ≠ 'E'

theorem stops_nil : Stops [] := by simp [Stops]

theorem stops_cons {c : Char} (hc : Text.isDigit c = false ∧ c ≠ '.' ∧ c ≠ 'e' ∧ c ≠ 'E')
    (cs : List Char) : Stops (c :: cs) := by
  intro d hd
  cases hd
  exact hc

theorem stops_newline (depth : Nat) (cs : List Char) :
    Stops ((Value.newline depth).toList ++ cs) := by
  rw [Value.newline, String.toList_ofList, List.cons_append]
  exact stops_cons (by decide) _

/-- The text has the tokens `ts`, whatever follows it. -/
def Scans (text : String) (ts : List Token) : Prop :=
  ∀ cs, Stops cs → scan (text.toList ++ cs) = (scan cs).map (ts ++ ·)

/-- A text that is one token, recognised without a look at what follows. -/
theorem scans_of_next? {text : String} {c : Char} {cs : List Char} {t : Token}
    (htext : text.toList = c :: cs) (hc : isSpace c = false)
    (h : ∀ rest, next? (c :: (cs ++ rest)) = some (t, rest)) : Scans text [t] := by
  intro rest _
  rw [htext, List.cons_append, scan_of_next? hc (h rest)]
  rfl

/-- The character is a token of its own. -/
def Mark (c : Char) (t : Token) : Prop :=
  isSpace c = false ∧ ∀ cs, next? (c :: cs) = some (t, cs)

theorem Mark.scan {c : Char} {t : Token} (h : Mark c t) (cs : List Char) :
    scan (c :: cs) = (scan cs).map (t :: ·) := scan_of_next? h.1 (h.2 cs)

theorem mark_comma : Mark ',' .comma := ⟨rfl, fun _ => rfl⟩

theorem mark_colon : Mark ':' .colon := ⟨rfl, fun _ => rfl⟩

/-! ## Integers -/

theorem isDigit_of_mem_toDigits {n : Nat} {c : Char} (hc : c ∈ Nat.toDigits 10 n) :
    Text.isDigit c = true := by
  have h := Nat.isDigit_of_mem_toDigits (by decide) (by decide) hc
  simpa [Text.isDigit, Char.isDigit, Char.le_def] using h

/-- A number is written with a first digit, which is zero only for zero itself. -/
theorem exists_toDigits_cons (n : Nat) :
    ∃ d ds, Nat.toDigits 10 n = d :: ds ∧ Text.isDigit d = true ∧ (d = '0' → n = 0) := by
  induction n using Nat.strong_induction_on with
  | _ n ih =>
      rcases Nat.lt_or_ge n 10 with hlt | hge
      · have hone : Nat.toDigits 10 n = [Nat.digitChar n] := Nat.toDigits_of_lt_base hlt
        have hmem : Nat.digitChar n ∈ Nat.toDigits 10 n := by
          rw [hone]
          exact List.mem_singleton_self _
        exact ⟨_, _, hone, isDigit_of_mem_toDigits hmem, Nat.digitChar_eq_zero.mp⟩
      · obtain ⟨d, ds, hds, hd, hzero⟩ := ih (n / 10) (by omega)
        have hmore := Nat.toDigits_of_base_le (by decide) hge
        rw [hds, List.cons_append] at hmore
        refine ⟨d, _, hmore, hd, ?_⟩
        intro h
        have := hzero h
        omega

theorem digits1?_append {ds cs : List Char} (hne : ds ≠ [])
    (hds : ∀ c ∈ ds, Text.isDigit c = true) (hcs : Stops cs) :
    digits1? (ds ++ cs) = some (ds, cs) := by
  have hrun : cs.takeWhile Text.isDigit = [] ∧ cs.dropWhile Text.isDigit = cs := by
    cases cs with
    | nil => exact ⟨rfl, rfl⟩
    | cons c cs =>
        have hc : Text.isDigit c = false := (hcs c rfl).1
        simp [hc]
  rw [digits1?, List.takeWhile_append_of_pos hds, List.dropWhile_append_of_pos hds, hrun.1,
    hrun.2, List.append_nil]
  obtain ⟨d, ds, rfl⟩ := List.exists_cons_of_ne_nil hne
  rfl

theorem whole?_toDigits (n : Nat) {cs : List Char} (hcs : Stops cs) :
    whole? (Nat.toDigits 10 n ++ cs) = some (Nat.toDigits 10 n, cs) := by
  by_cases hn : n = 0
  · subst hn
    rfl
  · obtain ⟨d, ds, hds, -, hzero⟩ := exists_toDigits_cons n
    have hdigits := digits1?_append Nat.toDigits_ne_nil
      (fun c hc => isDigit_of_mem_toDigits (n := n) hc) hcs
    rw [hds, List.cons_append] at hdigits ⊢
    unfold whole?
    split
    · next heq =>
      cases heq
      exact absurd (hzero rfl) hn
    · exact hdigits

theorem fraction?_of_stops {cs : List Char} (hcs : Stops cs) : fraction? cs = some (none, cs) := by
  unfold fraction?
  split
  · exact absurd rfl (hcs '.' rfl).2.1
  · rfl

theorem exponent?_of_stops {cs : List Char} (hcs : Stops cs) : exponent? cs = some (none, cs) := by
  unfold exponent?
  split
  · exact absurd rfl (hcs 'e' rfl).2.2.1
  · exact absurd rfl (hcs 'E' rfl).2.2.2
  · rfl

theorem magnitude?_toDigits (negative : Bool) (n : Nat) {cs : List Char} (hcs : Stops cs) :
    magnitude? negative (Nat.toDigits 10 n ++ cs) =
      some (⟨negative, Nat.toDigits 10 n, none, none⟩, cs) := by
  simp only [magnitude?, Option.bind_eq_bind, whole?_toDigits n hcs, Option.bind_some,
    fraction?_of_stops hcs, exponent?_of_stops hcs, Option.pure_def]

end Token

/-- The numeral that an integer is written as. -/
def Numeral.ofInt (n : Int) : Numeral := ⟨decide (n < 0), Nat.toDigits 10 n.natAbs, none, none⟩

/-- The integers that stay integers when they are read: those of a signed or of an unsigned
64-bit word. -/
def IntegerRange (n : Int) : Prop := -0x8000000000000000 ≤ n ∧ n < 0x10000000000000000

theorem Numeral.value?_ofInt {n : Int} (hn : IntegerRange n) :
    (Numeral.ofInt n).value? = some (.int n) := by
  have hvalue : Text.digitsValue (Nat.toDigits 10 n.natAbs) = n.natAbs :=
    Nat.ofDigitChars_ten_toDigits
  obtain ⟨hlow, hhigh⟩ := hn
  by_cases hneg : n < 0
  · have hrange : 0 < n.natAbs ∧ n.natAbs ≤ 0x8000000000000000 := by omega
    have habs : -(n.natAbs : Int) = n := by omega
    simp only [value?, ofInt, hvalue, hneg, decide_true, if_true, if_pos hrange, habs]
  · have hrange : n.natAbs < UInt64.size := by simp only [UInt64.size]; omega
    have habs : (n.natAbs : Int) = n := by omega
    simp only [value?, ofInt, hvalue, hneg, decide_false, Bool.false_eq_true, if_false,
      if_pos hrange, habs]

/-- A numeral denotes an integer of 64 bits or a floating-point number. -/
theorem Numeral.value?_cases {x : Numeral} {v : Value} (h : x.value? = some v) :
    (∃ n, IntegerRange n ∧ v = .int n) ∨ ∃ d, v = .double d := by
  have hdouble : ∀ {y : Option Binary64}, y.map Value.double = some v → ∃ d, v = .double d := by
    intro y hy
    obtain ⟨d, -, hd⟩ := Option.map_eq_some_iff.mp hy
    exact ⟨d, hd.symm⟩
  unfold value? at h
  split at h
  · simp only at h
    split at h
    · split at h
      · cases h
        exact .inl ⟨_, ⟨by omega, by omega⟩, rfl⟩
      · exact .inr (hdouble h)
    · split at h
      · next hlt =>
        cases h
        simp only [UInt64.size] at hlt
        exact .inl ⟨_, ⟨by omega, by omega⟩, rfl⟩
      · exact .inr (hdouble h)
  · exact .inr (hdouble h)

namespace Token

/-- A character that a number may start with starts no other token and is no blank. -/
theorem scan_number {c : Char} {cs rest : List Char} {n : Numeral}
    (hc : Text.isDigit c = true ∨ c = '-') (h : numeral? (c :: cs) = some (n, rest)) :
    scan (c :: cs) = (scan rest).map (.number n :: ·) := by
  have hspace : isSpace c = false := by
    by_contra hs
    simp only [isSpace, Bool.not_eq_false, Bool.or_eq_true, beq_iff_eq] at hs
    rcases hs with ((rfl | rfl) | rfl) | rfl <;> exact absurd hc (by decide)
  have hnext : next? (c :: cs) = some (.number n, rest) := by
    unfold next?
    split
    iterate 10 · next heq => cases heq; exact absurd hc (by decide)
    · rw [h]
      rfl
  exact scan_of_next? hspace hnext

theorem scan_toDigits (n : Nat) {cs : List Char} (hcs : Stops cs) :
    scan (Nat.toDigits 10 n ++ cs)
      = (scan cs).map (.number ⟨false, Nat.toDigits 10 n, none, none⟩ :: ·) := by
  obtain ⟨d, ds, hds, hd, -⟩ := exists_toDigits_cons n
  have hread := magnitude?_toDigits false n hcs
  rw [hds, List.cons_append] at hread ⊢
  apply scan_number (.inl hd)
  unfold numeral?
  split
  · next heq =>
    cases heq
    exact absurd hd (by decide)
  · exact hread

theorem scans_int (n : Int) : Scans (toString n) [.number (.ofInt n)] := by
  intro cs hcs
  by_cases hn : n < 0
  · have htext : (toString n).toList = '-' :: Nat.toDigits 10 n.natAbs := by
      rw [Int.toString_eq_repr, Int.repr_eq_if, if_neg (by omega), Nat.repr_eq_ofList_toDigits,
        show (-n).toNat = n.natAbs by omega, String.toList_append, String.toList_ofList]
      simp
    have hnum : Numeral.ofInt n = ⟨true, Nat.toDigits 10 n.natAbs, none, none⟩ := by
      simp [Numeral.ofInt, hn]
    rw [htext, hnum, List.cons_append, scan_number (.inr rfl) (magnitude?_toDigits true _ hcs)]
    rfl
  · have htext : (toString n).toList = Nat.toDigits 10 n.natAbs := by
      rw [Int.toString_eq_repr, Int.repr_eq_if, if_pos (by omega), Nat.repr_eq_ofList_toDigits,
        show n.toNat = n.natAbs by omega, String.toList_ofList]
    have hnum : Numeral.ofInt n = ⟨false, Nat.toDigits 10 n.natAbs, none, none⟩ := by
      simp [Numeral.ofInt, hn]
    rw [htext, hnum, scan_toDigits _ hcs]
    rfl

end Token

/-! ## Strings -/

/-- The piece that the written form of a character is scanned as: control characters without a
letter of their own are written as units. -/
def piece (c : Char) : Piece := if escapeChar c = unitEscape c then .unit c.toNat else .char c

/-- The pieces that a written string is scanned as. -/
def pieces (s : String) : List Piece := s.toList.map piece

theorem hexUnit?_digits : ∀ n < 0x20,
    Token.hexUnit? '0' '0' (Nat.digitChar (n / 16 % 16)) (Nat.digitChar (n % 16)) = some n := by
  decide

/-- The three ways in which a character is written. -/
theorem escapeChar_cases (c : Char) :
    (∃ e, escapeChar c = ['\\', e] ∧ e ≠ 'u' ∧ Token.escape? e = some c) ∨
    (c.toNat < 0x20 ∧ escapeChar c = unitEscape c) ∨
    (0x20 ≤ c.toNat ∧ c ≠ '"' ∧ c ≠ '\\' ∧ escapeChar c = [c]) := by
  unfold escapeChar
  split
  · exact .inl ⟨'"', rfl, by decide, rfl⟩
  · exact .inl ⟨'\\', rfl, by decide, rfl⟩
  · exact .inl ⟨'b', rfl, by decide, rfl⟩
  · exact .inl ⟨'f', rfl, by decide, rfl⟩
  · exact .inl ⟨'n', rfl, by decide, rfl⟩
  · exact .inl ⟨'r', rfl, by decide, rfl⟩
  · exact .inl ⟨'t', rfl, by decide, rfl⟩
  · next hquote hback _ _ _ _ _ =>
    by_cases hc : c.toNat < 0x20
    · exact .inr (.inl ⟨hc, if_pos hc⟩)
    · exact .inr (.inr ⟨Nat.le_of_not_lt hc, hquote, hback, if_neg hc⟩)

theorem piece_of_unit {c : Char} (h : escapeChar c = unitEscape c) : piece c = .unit c.toNat :=
  if_pos h

theorem piece_of_short {c : Char} (h : (escapeChar c).length < 6) : piece c = .char c := by
  refine if_neg fun heq => ?_
  rw [heq] at h
  exact absurd h (by simp [unitEscape])

theorem stringBody?_escapeChar (c : Char) (done : List Piece) (cs : List Char) :
    Token.stringBody? done (escapeChar c ++ cs) = Token.stringBody? (piece c :: done) cs := by
  rcases escapeChar_cases c with ⟨e, he, hu, hc⟩ | ⟨hlow, hc⟩ | ⟨hlow, hquote, hback, hc⟩
  · rw [piece_of_short (by rw [he]; simp), he]
    simp only [List.cons_append, List.nil_append]
    rw [Token.stringBody?.eq_def]
    simp [hc, hu]
  · rw [piece_of_unit hc, hc]
    simp only [unitEscape, List.cons_append, List.nil_append, Token.stringBody?,
      hexUnit?_digits _ hlow]
  · rw [piece_of_short (by rw [hc]; simp), hc]
    simp only [List.cons_append, List.nil_append]
    rw [Token.stringBody?.eq_def]
    simp [hback, Nat.not_lt.mpr hlow]

theorem stringBody?_written (text : List Char) (done : List Piece) (cs : List Char) :
    Token.stringBody? done (text.flatMap escapeChar ++ '"' :: cs) =
      some (done.reverse ++ text.map piece, cs) := by
  induction text generalizing done with
  | nil => simp [Token.stringBody?]
  | cons c text ih =>
      rw [List.flatMap_cons, List.append_assoc, stringBody?_escapeChar, ih]
      simp

theorem Token.scans_writeString (s : String) :
    Token.Scans (writeString s) [.string (pieces s)] := by
  have htext : (writeString s).toList = '"' :: (s.toList.flatMap escapeChar ++ ['"']) := by
    simp [writeString]
  apply Token.scans_of_next? htext rfl
  intro rest
  rw [List.append_assoc, Token.next?, List.singleton_append, stringBody?_written]
  rfl

theorem textOfPieces?_piece (c : Char) (ps : List Piece) :
    textOfPieces? (piece c :: ps) = (textOfPieces? ps).map (c :: ·) := by
  rcases escapeChar_cases c with ⟨e, he, -, -⟩ | ⟨hlow, hc⟩ | ⟨-, -, -, hc⟩
  · rw [piece_of_short (by rw [he]; simp), textOfPieces?]
  · -- a control character is no surrogate
    rw [piece_of_unit hc, textOfPieces?.eq_def]
    simp only
    rw [if_neg (by omega), if_neg (by omega), Char.ofNat_toNat]
  · rw [piece_of_short (by rw [hc]; simp), textOfPieces?]

/-- **The pieces of a written string denote the string.** -/
@[simp] theorem stringOfPieces?_pieces (s : String) : stringOfPieces? (pieces s) = some s := by
  have htext : ∀ text : List Char, textOfPieces? (text.map piece) = some text := by
    intro text
    induction text with
    | nil => rfl
    | cons c text ih => rw [List.map_cons, textOfPieces?_piece, ih, Option.map_some]
  rw [stringOfPieces?, pieces, htext, Option.map_some, String.ofList_toList]

/-! ## Entries of a container -/

theorem toList_joined (sep x : String) (xs : List String) :
    (joined sep (x :: xs)).toList = x.toList ++ xs.flatMap fun y => sep.toList ++ y.toList := by
  induction xs generalizing x with
  | nil => simp [joined]
  | cons y ys ih => simp [joined, ih]

namespace Token

/-- The tokens of the entries of a container, with a comma between neighbours. -/
def commaSeparated : List (List Token) → List Token
  | [] => []
  | ts :: rest => ts ++ rest.flatMap (.comma :: ·)

section

variable {α : Type} {entries : List α} {text : α → String} {ts : α → List Token}

/-- The entries after the first: each one follows a comma and a line break, and a number before
them ends at the comma. -/
theorem scan_moreEntries (h : ∀ a ∈ entries, Scans (text a) (ts a)) (depth : Nat) {cs : List Char}
    (hcs : Stops cs) :
    scan ((entries.flatMap fun a => ("," ++ Value.newline depth).toList ++ (text a).toList) ++ cs) =
        (scan cs).map ((entries.flatMap fun a => .comma :: ts a) ++ ·) ∧
      Stops ((entries.flatMap fun a => ("," ++ Value.newline depth).toList ++ (text a).toList)
        ++ cs) := by
  have hsep : ("," ++ Value.newline depth).toList = ',' :: (Value.newline depth).toList := by
    simp
  rw [hsep]
  induction entries with
  | nil => exact ⟨by simp, hcs⟩
  | cons a entries ih =>
      obtain ⟨ha, hentries⟩ := List.forall_mem_cons.mp h
      obtain ⟨hscan, hstops⟩ := ih hentries
      simp only [List.flatMap_cons, List.cons_append, List.append_assoc] at hscan hstops ⊢
      refine ⟨?_, stops_cons (by decide) _⟩
      rw [mark_comma.scan, scan_newline, ha _ hstops, hscan]
      simp [Option.map_map, Function.comp_def]

theorem scans_joined (h : ∀ a ∈ entries, Scans (text a) (ts a)) (depth : Nat) :
    Scans (joined ("," ++ Value.newline depth) (entries.map text))
      (commaSeparated (entries.map ts)) := by
  intro cs hcs
  cases entries with
  | nil => simp [joined, commaSeparated]
  | cons a entries =>
      obtain ⟨ha, hentries⟩ := List.forall_mem_cons.mp h
      obtain ⟨hscan, hstops⟩ := scan_moreEntries hentries depth hcs
      rw [List.map_cons, toList_joined, List.flatMap_map, List.append_assoc, ha _ hstops, hscan]
      simp [commaSeparated, List.flatMap_map, Option.map_map, Function.comp_def]

/-- **A container over several lines** has its opening token, the tokens of its entries with commas
between them, and its closing token. -/
theorem scans_entries {opening closing : Char} {o c : Token} (hopen : Mark opening o)
    (hclose : Mark closing c) (h : ∀ a ∈ entries, Scans (text a) (ts a)) (depth : Nat) :
    Scans (String.singleton opening ++ Value.newline (depth + 1)
        ++ joined ("," ++ Value.newline (depth + 1)) (entries.map text) ++ Value.newline depth
        ++ String.singleton closing)
      (o :: (commaSeparated (entries.map ts) ++ [c])) := by
  intro cs _
  simp only [String.toList_append, String.toList_singleton, List.append_assoc, List.cons_append,
    List.nil_append]
  rw [hopen.scan, scan_newline, scans_joined h _ _ (stops_newline _ _), scan_newline, hclose.scan]
  simp [Option.map_map, Function.comp_def]

end

theorem scans_empty {opening closing : Char} {o c : Token} (hopen : Mark opening o)
    (hclose : Mark closing c) : Scans (String.ofList [opening, closing]) [o, c] := by
  intro cs _
  rw [String.toList_ofList, List.cons_append, List.cons_append, List.nil_append, hopen.scan,
    hclose.scan]
  simp [Option.map_map, Function.comp_def]

/-- A field is a key, a colon and a value. -/
theorem scans_field (key : String) {text : String} {ts : List Token} (h : Scans text ts) :
    Scans (writeString key ++ ": " ++ text) (.string (pieces key) :: .colon :: ts) := by
  intro cs hcs
  have htext : (writeString key ++ ": " ++ text).toList ++ cs =
      (writeString key).toList ++ ':' :: ' ' :: (text.toList ++ cs) := by
    simp
  rw [htext, scans_writeString key _ (stops_cons (by decide) _), mark_colon.scan, scan_space rfl,
    h cs hcs]
  simp [Option.map_map, Function.comp_def]

end Token

end NinetySix.Json
