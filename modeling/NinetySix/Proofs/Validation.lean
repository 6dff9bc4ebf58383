import NinetySix.Model.Validate
import NinetySix.Proofs.Compilation

set_option autoImplicit false

/-! # What validation finds

Validation makes one pass over a descriptor and lists its findings. Here the list is counted: each
check of a single value that fails adds one finding, and so does each runtime parameter whose name
is blank or has occurred before (`Descriptor.length_findings`). The loop over the names remembers
what it has seen, and its invariant is that every name is either found fault with or remembered for
the first time (`Descriptor.length_runtimeFindings_add`).

A descriptor is valid if the count is zero, so what validation accepts is read off the count. The
conditions are stated without the functions that check them: a version is three runs of digits with
dots between them (`Descriptor.MajorMinorPatch`), and an overflow mode is a name, or an object with
that name as its only key (`Descriptor.OverflowKnown`).

Compilation reads the hint and the overflow mode by itself. It agrees with validation in that no
valid descriptor is refused for one of the two.
-/

namespace NinetySix

/-! ## Blank texts -/

namespace Text

/-- A text is blank if trimming leaves nothing of it. -/
theorem allBlank_iff_trim {s : String} : allBlank s = true ↔ trim s = "" := by
  have htrim : trim s = "" ↔ ∀ c ∈ s.toList.dropWhile isBlank, isBlank c = true := by
    rw [trim, String.ofList_eq_empty_iff, List.reverse_eq_nil_iff, List.dropWhile_eq_nil_iff]
    simp only [List.mem_reverse]
  rw [htrim, allBlank, List.all_eq_true]
  constructor
  · intro h c hc
    exact h c ((List.dropWhile_sublist _).mem hc)
  · intro h c hc
    rw [← List.takeWhile_append_dropWhile (p := isBlank) (l := s.toList)] at hc
    rcases List.mem_append.mp hc with hc | hc
    · exact List.mem_takeWhile_imp hc
    · exact h c hc

end Text

namespace Descriptor

variable {d : Descriptor}

/-! ## Versions -/

/-- A run of at least one ASCII digit. -/
def IsNumber (run : List Char) : Prop := run ≠ [] ∧ ∀ c ∈ run, '0' ≤ c ∧ c ≤ '9'

/-- Three numbers with single dots between them. -/
def MajorMinorPatch (s : String) : Prop :=
  ∃ major minor patch, IsNumber major ∧ IsNumber minor ∧ IsNumber patch ∧
    s.toList = major ++ '.' :: (minor ++ '.' :: patch)

theorem splitAtChar_eq_splitOn (sep : Char) (cs : List Char) :
    splitAtChar sep cs = cs.splitOn sep := by
  induction cs with
  | nil => rfl
  | cons c cs ih =>
      rw [splitAtChar, List.splitOn_cons_eq_if_modifyHead, ih]
      by_cases hc : c = sep
      · simp [hc]
      · rw [if_neg hc, if_neg (by simpa using hc)]
        cases hpieces : cs.splitOn sep with
        | nil => exact absurd hpieces (List.splitOn_ne_nil sep cs)
        | cons piece pieces => rfl

theorem isNumber_iff {run : List Char} :
    IsNumber run ↔ (!run.isEmpty && run.all Text.isDigit) = true := by
  simp [IsNumber, Text.isDigit]

theorem dot_notMem_of_isNumber {run : List Char} (h : IsNumber run) : '.' ∉ run := by
  intro hdot
  obtain ⟨hlow, -⟩ := h.2 '.' hdot
  exact absurd hlow (by decide)

/-- **The check of versions.** Cutting a text at its dots and joining the pieces with dots are
inverse to each other on pieces without dots. -/
theorem isVersion_iff {s : String} : isVersion s = true ↔ MajorMinorPatch s := by
  unfold isVersion MajorMinorPatch
  simp only [splitAtChar_eq_splitOn, Bool.and_eq_true, beq_iff_eq, List.all_eq_true]
  constructor
  · rintro ⟨hlength, hparts⟩
    obtain ⟨major, minor, patch, hsplit⟩ := List.length_eq_three.mp hlength
    rw [hsplit] at hparts
    -- there are three pieces, and joined again they are the text
    have hjoined : ['.'].intercalate (s.toList.splitOn '.') = s.toList :=
      List.intercalate_splitOn '.'
    rw [hsplit] at hjoined
    refine ⟨major, minor, patch, ?_, ?_, ?_, ?_⟩
    · exact isNumber_iff.mpr (by simpa using hparts major (by simp))
    · exact isNumber_iff.mpr (by simpa using hparts minor (by simp))
    · exact isNumber_iff.mpr (by simpa using hparts patch (by simp))
    · simpa [List.intercalate] using hjoined.symm
  · rintro ⟨major, minor, patch, hmajor, hminor, hpatch, hs⟩
    -- no number has a dot in it, so the text is cut where it was joined
    have hsplit : s.toList.splitOn '.' = [major, minor, patch] := by
      have hdots : ∀ run ∈ [major, minor, patch], '.' ∉ run := by
        simp [dot_notMem_of_isNumber hmajor, dot_notMem_of_isNumber hminor,
          dot_notMem_of_isNumber hpatch]
      rw [← List.splitOn_intercalate '.' hdots (by simp), hs]
      simp [List.intercalate]
    rw [hsplit]
    refine ⟨rfl, fun run hrun => ?_⟩
    have hnumber : IsNumber run := by
      simp only [List.mem_cons, List.not_mem_nil, or_false] at hrun
      rcases hrun with rfl | rfl | rfl
      · exact hmajor
      · exact hminor
      · exact hpatch
    simpa using isNumber_iff.mp hnumber

instance (s : String) : Decidable (MajorMinorPatch s) :=
  decidable_of_iff (isVersion s = true) isVersion_iff

/-! ## Overflow modes -/

/-- The value names an overflow mode, as a string or as the only key of an object. -/
def NamesMode (v : Json.Value) : Prop :=
  ∃ mode : OverflowMode, v = .string mode.name ∨ v = .object [(mode.name, .null)]

/-- The overflow mode, if it is given, is one. -/
def OverflowKnown (d : Descriptor) : Prop :=
  ∀ v ∈ Table.find? overflowField d.compiledParams, NamesMode v

theorem isSome_modeOf?_iff {v : Json.Value} : (modeOf? v).isSome = true ↔ NamesMode v := by
  unfold NamesMode
  rw [Option.isSome_iff_exists]
  refine exists_congr fun mode => ?_
  fun_cases modeOf? v with
  | case1 s => simp [byName?_eq_some_iff]
  | case2 k => simp [byName?_eq_some_iff]
  | case3 v hstring hobject =>
      constructor
      · intro h
        cases h
      · rintro (rfl | rfl)
        · exact absurd rfl (hstring _)
        · exact absurd rfl (hobject _)

instance (v : Json.Value) : Decidable (NamesMode v) :=
  decidable_of_iff ((modeOf? v).isSome = true) isSome_modeOf?_iff

instance (d : Descriptor) : Decidable d.OverflowKnown :=
  inferInstanceAs (Decidable (∀ v ∈ Table.find? overflowField d.compiledParams, _))

/-! ## Counting the findings -/

/-- One for a condition that fails. -/
def oneUnless (p : Prop) [Decidable p] : Nat := if p then 0 else 1

theorem oneUnless_eq_zero_iff {p : Prop} [Decidable p] : oneUnless p = 0 ↔ p := by
  unfold oneUnless
  split <;> simp_all

/-- The number of checks of single values that fail. -/
def scalarFailures (d : Descriptor) : Nat :=
  oneUnless (Text.trim d.name ≠ "") + oneUnless (Text.trim d.namespaceName ≠ "")
    + oneUnless (MajorMinorPatch d.version) + oneUnless d.HintKnown + oneUnless d.OverflowKnown

/-- The runtime parameters whose names are not blank. -/
def namedParams (names : List String) : List String :=
  names.filter fun name => Text.trim name ≠ ""

/-- The runtime parameters whose names are blank. -/
def blankParams (names : List String) : List String :=
  names.filter fun name => Text.trim name = ""

theorem length_hintFindings (d : Descriptor) :
    d.hintFindings.length = oneUnless d.HintKnown := by
  unfold hintFindings oneUnless
  by_cases hknown : d.HintKnown
  · obtain ⟨tier, -, hhint⟩ := hint_of_known hknown
    rw [if_pos hknown, hhint]
    cases tier with
    | none => rfl
    | some tier => simp [Tier.ofName_name]
  · obtain ⟨h, hhint, hh⟩ : ∃ h, d.complexityHint = some h ∧ h ∉ ["C0", "C1", "C2", "C3"] := by
      simpa [HintKnown] using hknown
    rw [if_neg hknown, hhint]
    simp [Tier.ofName_of_not_mem hh]

theorem length_overflowFindings (d : Descriptor) :
    d.overflowFindings.length = oneUnless d.OverflowKnown := by
  unfold overflowFindings oneUnless
  by_cases hknown : d.OverflowKnown
  · rw [if_pos hknown]
    split
    · rfl
    · next v hfind =>
      rw [if_pos (isSome_modeOf?_iff.mpr (hknown v hfind))]
      rfl
  · obtain ⟨v, hfind, hv⟩ : ∃ v, Table.find? overflowField d.compiledParams = some v ∧
        ¬ NamesMode v := by
      simpa [OverflowKnown] using hknown
    rw [if_neg hknown, hfind]
    simp [isSome_modeOf?_iff, hv]

/-- **The loop over the names:** each name is found fault with, or it is not blank and remembered
for the first time. -/
theorem length_runtimeFindings_add (seen names : List String) :
    (runtimeFindings seen names).length + ((namedParams names).toFinset \ seen.toFinset).card
      = names.length := by
  induction names generalizing seen with
  | nil => simp [runtimeFindings, namedParams]
  | cons name rest ih =>
      rw [runtimeFindings]
      by_cases hblank : Text.trim name = ""
      · have hnamed : namedParams (name :: rest) = namedParams rest := by
          simp [namedParams, hblank]
        rw [if_pos (Text.allBlank_iff_trim.mpr hblank), hnamed, List.length_cons, List.length_cons]
        have := ih seen
        omega
      · have hnamed : namedParams (name :: rest) = name :: namedParams rest := by
          simp [namedParams, hblank]
        rw [if_neg (mt Text.allBlank_iff_trim.mp hblank), hnamed, List.toFinset_cons]
        by_cases hseen : name ∈ seen
        · -- the name has been remembered before, so it adds nothing new
          have hold : name ∈ seen.toFinset := List.mem_toFinset.mpr hseen
          rw [if_pos (by simpa using hseen), Finset.insert_sdiff_of_mem _ hold, List.length_cons,
            List.length_cons]
          have := ih seen
          omega
        · have hnew : name ∉ seen.toFinset := fun h => hseen (List.mem_toFinset.mp h)
          rw [if_neg (by simpa using hseen), Finset.insert_sdiff_of_notMem _ hnew]
          -- the rest is met with the name remembered, so the name is counted here and not again
          have hrest := ih (name :: seen)
          rw [List.toFinset_cons, Finset.sdiff_insert] at hrest
          have hcard := Finset.card_erase_add_one
            (Finset.mem_insert_self name ((namedParams rest).toFinset \ seen.toFinset))
          rw [Finset.erase_insert_eq_erase] at hcard
          rw [List.length_cons]
          omega

theorem length_runtimeFindings (names : List String) :
    (runtimeFindings [] names).length = (blankParams names).length
      + ((namedParams names).length - (namedParams names).toFinset.card) := by
  have hloop := length_runtimeFindings_add [] names
  rw [List.toFinset_nil, Finset.sdiff_empty] at hloop
  have hsplit : names.length = (blankParams names).length + (namedParams names).length := by
    simpa [blankParams, namedParams, decide_not] using
      List.length_eq_length_filter_add (l := names) fun name => decide (Text.trim name = "")
  have hle := List.toFinset_card_le (namedParams names)
  omega

/-- **The findings are counted.** -/
theorem length_findings (d : Descriptor) :
    d.findings.length = d.scalarFailures + (blankParams d.runtimeParams).length
      + ((namedParams d.runtimeParams).length - (namedParams d.runtimeParams).toFinset.card) := by
  have hblank (s : String) (finding : Finding) :
      (if Text.allBlank s then [finding] else []).length = oneUnless (Text.trim s ≠ "") := by
    simp [oneUnless, apply_ite List.length, Text.allBlank_iff_trim]
  have hversion : (if isVersion d.version then [] else [Finding.badVersion d.version]).length
      = oneUnless (MajorMinorPatch d.version) := by
    simp [oneUnless, apply_ite List.length, isVersion_iff]
  simp only [findings, List.length_append, hblank, hversion, length_hintFindings,
    length_runtimeFindings, length_overflowFindings, scalarFailures]
  omega

/-- Names that are neither blank nor repeated are all counted as distinct. -/
theorem runtimeFindings_eq_zero_iff (names : List String) :
    (runtimeFindings [] names).length = 0 ↔
      (∀ name ∈ names, Text.trim name ≠ "") ∧ names.Nodup := by
  have hblank : (blankParams names).length = 0 ↔ ∀ name ∈ names, Text.trim name ≠ "" := by
    simp [blankParams]
  rw [length_runtimeFindings, Nat.add_eq_zero_iff, hblank]
  refine and_congr_right fun hnames => ?_
  have hnamed : namedParams names = names := by
    simpa [namedParams] using hnames
  rw [hnamed]
  have hle := List.toFinset_card_le names
  constructor
  · intro hcard
    exact Multiset.toFinset_card_eq_card_iff_nodup.mp (show names.toFinset.card = names.length by omega)
  · intro hnodup
    rw [List.toFinset_card_of_nodup hnodup, Nat.sub_self]

theorem isValid_iff (d : Descriptor) :
    d.isValid = true ↔ Text.trim d.name ≠ "" ∧ Text.trim d.namespaceName ≠ "" ∧
      MajorMinorPatch d.version ∧ d.HintKnown ∧ (∀ name ∈ d.runtimeParams, Text.trim name ≠ "") ∧
      d.runtimeParams.Nodup ∧ d.OverflowKnown := by
  rw [isValid, List.isEmpty_iff, ← List.length_eq_zero_iff, length_findings, Nat.add_assoc,
    ← length_runtimeFindings, Nat.add_eq_zero_iff, runtimeFindings_eq_zero_iff, scalarFailures]
  simp only [Nat.add_eq_zero_iff, oneUnless_eq_zero_iff]
  constructor
  · rintro ⟨⟨⟨⟨⟨hname, hspace⟩, hversion⟩, hhint⟩, hmode⟩, hnames, hnodup⟩
    exact ⟨hname, hspace, hversion, hhint, hnames, hnodup, hmode⟩
  · rintro ⟨hname, hspace, hversion, hhint, hnames, hnodup, hmode⟩
    exact ⟨⟨⟨⟨⟨hname, hspace⟩, hversion⟩, hhint⟩, hmode⟩, hnames, hnodup⟩

end Descriptor

/-! ## Compilation agrees -/

/-- If the result is an error about a field of the descriptor, then the field is one of these. -/
def Blames (fields : List String) {α : Type} (result : Except ConstructionError α) : Prop :=
  ∀ field reason, result = .error (.invalidField field reason) → field ∈ fields

section Blames

variable {fields : List String} {α β : Type} {d : Descriptor}

theorem Blames.ok (a : α) : Blames fields (.ok a) := by
  rintro field reason ⟨⟩

theorem Blames.bind {x : Except ConstructionError α} {f : α → Except ConstructionError β}
    (hx : Blames fields x) (hf : ∀ a, Blames fields (f a)) : Blames fields (x >>= f) := by
  cases x with
  | ok a => exact hf a
  | error e =>
      intro field reason h
      cases h
      exact hx field reason rfl

theorem checkedClass_blames (n : Int) : Blames fields (checkedClass n) := by
  intro field reason h
  unfold checkedClass at h
  split at h <;> cases h

theorem Term.grade_blames (g : Int) : Blames fields (Term.grade g) := by
  intro field reason h
  unfold Term.grade at h
  split at h <;> cases h

theorem Term.param_blames (name : String) : Blames fields (Term.param name) := by
  intro field reason h
  unfold Term.param at h
  split at h <;> cases h

theorem Descriptor.intParam_blames {field : String} (h : field ∈ fields) :
    Blames fields (d.intParam field) := by
  unfold Descriptor.intParam
  split
  · exact .ok _
  · split
    · exact .ok _
    · rintro _ _ ⟨⟩
      exact h
  · rintro _ _ ⟨⟩
    exact h

theorem Descriptor.requiredInt_blames {field : String} (h : field ∈ fields) :
    Blames fields (d.requiredInt field) := by
  refine (intParam_blames h).bind fun v => ?_
  cases v with
  | some n => exact .ok n
  | none =>
      rintro _ _ ⟨⟩
      exact h

theorem Descriptor.OverflowKnown.overflowMode_eq_ok (h : d.OverflowKnown) :
    ∃ mode, d.overflowMode = .ok mode := by
  unfold Descriptor.overflowMode
  split
  · exact ⟨.drop, rfl⟩
  · next v hfind =>
    obtain ⟨mode, hmode⟩ := Option.isSome_iff_exists.mp (isSome_modeOf?_iff.mpr (h v hfind))
    exact ⟨mode, by rw [hmode]⟩

namespace Recipe

theorem operand_blames (lifted : Bool) (h : "class" ∈ fields) : Blames fields (operand d lifted) := by
  refine (Descriptor.intParam_blames h).bind fun v => ?_
  cases v with
  | some c =>
      cases lifted with
      | true => exact (checkedClass_blames c).bind fun _ => .ok _
      | false => exact (checkedClass_blames c).bind fun _ => .ok _
  | none =>
      dsimp only
      split
      · exact Term.param_blames _
      · rintro _ _ ⟨⟩
        exact h

/-- A ring operation is not refused for a mode that is one. -/
theorem ringTerm_blames (op : RingOp) (h : "class" ∈ fields) (hmode : d.OverflowKnown) :
    Blames fields (ringTerm d op) := by
  obtain ⟨mode, hmode⟩ := hmode.overflowMode_eq_ok
  unfold ringTerm
  rw [hmode]
  refine (Descriptor.intParam_blames h).bind fun v => ?_
  cases v with
  | some c => exact ((checkedClass_blames c).bind fun _ => .ok _).bind fun _ => .ok _
  | none => exact .ok _

/-- **What a recipe can find fault with**, if the overflow mode is known: the other three
parameters. -/
theorem term_blames (r : Recipe) (hmode : d.OverflowKnown) :
    Blames ["class", "k", "grade"] (r.term d) := by
  have hclass : "class" ∈ ["class", "k", "grade"] := by simp
  have hexponent : "k" ∈ ["class", "k", "grade"] := by simp
  have hgrade : "grade" ∈ ["class", "k", "grade"] := by simp
  cases r with
  | literal => exact operand_blames false hclass
  | lift =>
      refine (Descriptor.requiredInt_blames hclass).bind fun c => ?_
      exact (checkedClass_blames c).bind fun _ => .ok _
  | project => exact (operand_blames true hclass).bind fun _ => .ok _
  | projectGrade =>
      refine (operand_blames true hclass).bind fun t => ?_
      refine (Descriptor.requiredInt_blames hgrade).bind fun g => ?_
      exact (Term.grade_blames g).bind fun _ => .ok _
  | ring op => exact ringTerm_blames op hclass hmode
  | turn axis =>
      refine (operand_blames false hclass).bind fun t => ?_
      exact ((Descriptor.intParam_blames hexponent).bind fun _ => .ok _).bind fun _ => .ok _
  | mirror => exact (operand_blames false hclass).bind fun _ => .ok _

end Recipe

end Blames

namespace Descriptor

variable {d : Descriptor}

theorem term_ne_overflow (hmode : d.OverflowKnown) (reason : String) :
    d.term ≠ .error (.construction (.invalidField overflowField reason)) := by
  intro h
  unfold Descriptor.term at h
  split at h
  · next r hr =>
    cases hterm : r.term d with
    | ok t =>
        rw [hterm] at h
        cases h
    | error cause =>
        rw [hterm] at h
        cases h
        -- the mode is known, so only another parameter can be blamed
        have hfield := r.term_blames hmode overflowField reason hterm
        exact absurd hfield (by decide)
  · cases h

/-- A descriptor whose hint and overflow mode are known is not refused for either of them. -/
theorem compile_ne_error (hknown : d.HintKnown) (hmode : d.OverflowKnown) (o : Options) :
    (∀ h, Model.compile d o ≠ .error (.lowering (.invalidHint h))) ∧
    ∀ reason, Model.compile d o ≠ .error (.construction (.invalidField overflowField reason)) := by
  -- with a known hint, an error of compilation is an error of the term
  have hcases := Model.compile_cases_of_known hknown o
  constructor
  · intro h hcompile
    have hterm : d.term = .error (.lowering (.invalidHint h)) := by
      simpa [hcompile] using hcases
    rcases term_eq_error hterm with ⟨name, he⟩ | ⟨cause, he⟩ <;> cases he
  · intro reason hcompile
    have hterm : d.term = .error (.construction (.invalidField overflowField reason)) := by
      simpa [hcompile] using hcases
    exact term_ne_overflow hmode reason hterm

end Descriptor

open Descriptor (MajorMinorPatch namedParams blankParams)

/-- **Validation accepts exactly the well-formed descriptors, and counts every finding.** It accepts a
descriptor whose name and namespace are not blank, whose version is three numbers, whose hint and
overflow mode are known if they are given, and whose runtime parameters have names that are not
blank and differ from each other. There is one finding for each check of a single value that fails,
one for each blank name, and one for each repetition of a name. A descriptor that is accepted may
fail to compile, but not for its hint or its overflow mode. -/
theorem validation_exact (d : Descriptor) :
    (d.isValid = true ↔
      Text.trim d.name ≠ "" ∧ Text.trim d.namespaceName ≠ "" ∧ MajorMinorPatch d.version ∧
      (∀ h, d.complexityHint = some h → h ∈ ["C0", "C1", "C2", "C3"]) ∧
      (∀ name ∈ d.runtimeParams, Text.trim name ≠ "") ∧ d.runtimeParams.Nodup ∧
      ∀ v, Table.find? "overflow" d.compiledParams = some v → Descriptor.NamesMode v) ∧
    d.findings.length = d.scalarFailures + (blankParams d.runtimeParams).length
      + ((namedParams d.runtimeParams).length - (namedParams d.runtimeParams).toFinset.card) ∧
    (d.isValid = true → ∀ o,
      (∀ h, Model.compile d o ≠ .error (.lowering (.invalidHint h))) ∧
      ∀ reason, Model.compile d o ≠ .error (.construction (.invalidField "overflow" reason))) := by
  refine ⟨d.isValid_iff, d.length_findings, fun hvalid o => ?_⟩
  obtain ⟨-, -, -, hhint, -, -, hmode⟩ := d.isValid_iff.mp hvalid
  exact Descriptor.compile_ne_error hhint hmode o

/-- Everything that validation looks at is wrong here, and one name stands three times. -/
def faultyDescriptor : Descriptor where
  name := "\u2003"
  version := "1..0"
  namespaceName := ""
  compiledParams := [("overflow", .string "wrap")]
  runtimeParams := ["a", " ", "b", "a", "", "a"]
  complexityHint := some "C7"
  backend := none

/-- A sum whose overflow mode is given as an object. -/
def trackedSum : Descriptor where
  name := "add96"
  version := "1.20.3"
  namespaceName := "ring"
  compiledParams := [("overflow", .object [("track", .null)])]
  runtimeParams := ["a", "b"]
  complexityHint := some "C1"
  backend := none

/-- Five checks of single values fail, two names are blank, and a name is repeated twice. -/
theorem validation_exact_faultyDescriptor :
    faultyDescriptor.isValid = false ∧ faultyDescriptor.findings.length = 5 + 2 + 2 ∧
    trackedSum.isValid = true ∧
    (∀ h, Model.compile trackedSum {} ≠ .error (.lowering (.invalidHint h))) ∧
    ∀ reason, Model.compile trackedSum { maxSweeps := 0 }
      ≠ .error (.construction (.invalidField "overflow" reason)) := by
  obtain ⟨hfaulty, hcount, -⟩ := validation_exact faultyDescriptor
  obtain ⟨hsum, -, hcompile⟩ := validation_exact trackedSum
  have hvalid : trackedSum.isValid = true := by
    refine hsum.mpr ⟨by decide, by decide, by decide, ?_, by decide, by decide, ?_⟩
    · rintro h ⟨⟩
      decide
    · rintro v ⟨⟩
      exact ⟨.track, .inr rfl⟩
  refine ⟨?_, ?_, hvalid, (hcompile hvalid {}).1, (hcompile hvalid { maxSweeps := 0 }).2⟩
  · rw [← Bool.not_eq_true, hfaulty]
    intro h
    exact h.1 (by decide)
  · rw [hcount]
    decide +kernel

end NinetySix
