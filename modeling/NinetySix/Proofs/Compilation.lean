import NinetySix.Proofs.Lowering
import NinetySix.Proofs.Recipes

set_option autoImplicit false

/-! # When compilation fails

A descriptor can fail to compile for five reasons, and they are looked for in this order: its hint
names no tier, no recipe has its name, the recipe rejects its parameters, no sweep is allowed, or a
grade projection would have to run on the class backend. Each stage of `Model.compile` has a lemma
that says how it ends if the stages before it succeed.

The last two reasons are narrow since the terms of recipes are (`Recipe.Shape`). They are normal, so
that a single sweep suffices. Only the recipe for grade projection makes one that cannot be lowered
to class instructions, and the tier of that term is `C2`, for which the element backend is chosen.
It takes a preference or a hint to move it (`Descriptor.GradeOnClass`).
-/

namespace NinetySix

/-! ## Hints and preferences -/

namespace Tier

theorem mem_names_iff {s : String} :
    s ∈ ["C0", "C1", "C2", "C3"] ↔ ∃ tier : Tier, tier.name = s := by
  constructor
  · intro h
    simp only [List.mem_cons, List.not_mem_nil, or_false] at h
    rcases h with rfl | rfl | rfl | rfl
    · exact ⟨.c0, rfl⟩
    · exact ⟨.c1, rfl⟩
    · exact ⟨.c2, rfl⟩
    · exact ⟨.c3, rfl⟩
  · rintro ⟨tier, rfl⟩
    cases tier <;> simp [name]

theorem ofName_name (tier : Tier) : ofName tier.name = .ok tier := by
  cases tier <;> rfl

theorem ofName_of_not_mem {s : String} (h : s ∉ ["C0", "C1", "C2", "C3"]) :
    ofName s = .error (.invalidHint s) := by
  simp only [List.mem_cons, List.not_mem_nil, or_false, not_or] at h
  obtain ⟨h0, h1, h2, h3⟩ := h
  rw [ofName, if_neg h0, if_neg h1, if_neg h2, if_neg h3]

end Tier

/-- The class backend is chosen by name, or for the first two tiers. -/
theorem Preference.select_eq_byClass_iff {pref : Preference} {tier : Tier} :
    pref.select tier = .byClass ↔
      pref = .use .byClass ∨ pref = .auto ∧ (tier = .c0 ∨ tier = .c1) := by
  cases pref with
  | use b => simp [select]
  | auto => cases tier <;> simp [select]

namespace Descriptor

variable {d : Descriptor} {o : Options}

/-- The hint, if there is one, names a tier. -/
def HintKnown (d : Descriptor) : Prop := ∀ h ∈ d.complexityHint, h ∈ ["C0", "C1", "C2", "C3"]

instance (d : Descriptor) : Decidable d.HintKnown :=
  inferInstanceAs (Decidable (∀ h ∈ d.complexityHint, _))

/-- The preference that counts: the options have it, or they have none and the descriptor has it, or
neither has one and it is automatic. -/
def Prefers (d : Descriptor) (o : Options) (pref : Preference) : Prop :=
  o.preference = some pref ∨
    o.preference = none ∧ (d.backend = some pref ∨ d.backend = none ∧ pref = .auto)

instance (d : Descriptor) (o : Options) (pref : Preference) : Decidable (d.Prefers o pref) :=
  inferInstanceAs (Decidable (_ ∨ _))

theorem preference_eq_iff {pref : Preference} : d.preference o = pref ↔ d.Prefers o pref := by
  unfold preference Prefers
  cases o.preference with
  | some override => simp
  | none =>
      cases d.backend with
      | some own => simp
      | none => simp [eq_comm]

/-- A grade projection that is sent to the class backend, by the preference or by the hint. -/
def GradeOnClass (d : Descriptor) (o : Options) : Prop :=
  d.name = "project_grade" ∧
    (d.Prefers o (.use .byClass) ∨
      d.Prefers o .auto ∧ (d.complexityHint = some "C0" ∨ d.complexityHint = some "C1"))

instance (d : Descriptor) (o : Options) : Decidable (d.GradeOnClass o) :=
  inferInstanceAs (Decidable (_ ∧ _))

/-- The backend that a term is lowered for. A hint counts in place of the tier of the term. -/
def backendFor (d : Descriptor) (o : Options) (hint : Option Tier) (t : Term) : Backend :=
  (d.preference o).select (hint.getD (t.tier (o.compiled && d.runtimeParams.isEmpty)))

theorem hint_of_not_mem {h : String} (hd : d.complexityHint = some h)
    (hh : h ∉ ["C0", "C1", "C2", "C3"]) : d.hint = .error (.invalidHint h) := by
  rw [hint, hd]
  dsimp only
  rw [Tier.ofName_of_not_mem hh]
  rfl

theorem hint_of_known (hd : d.HintKnown) :
    ∃ tier, d.hint = .ok tier ∧ d.complexityHint = tier.map Tier.name := by
  cases hhint : d.complexityHint with
  | none => exact ⟨none, by rw [hint, hhint], rfl⟩
  | some h =>
      obtain ⟨tier, rfl⟩ := Tier.mem_names_iff.mp (hd h hhint)
      refine ⟨some tier, ?_, rfl⟩
      rw [hint, hhint]
      dsimp only
      rw [Tier.ofName_name]
      rfl

/-! ## The term of a descriptor -/

/-- A descriptor with a term has the name of the recipe that makes it. -/
theorem recipe_of_term {t : Term} (h : d.term = .ok t) :
    ∃ r : Recipe, d.name = r.name ∧ r.Shape t := by
  unfold term at h
  split at h
  · next r hr =>
    have hname : r.name = d.name := by simpa using List.find?_some hr
    exact ⟨r, hname.symm, Recipe.shape_term (mapError_eq_ok.mp h)⟩
  · cases h

/-- A recipe fails for reasons of its own. -/
theorem term_eq_error {e : CompileError} (h : d.term = .error e) :
    (∃ name, e = .unknownModel name) ∨ ∃ cause, e = .construction cause := by
  unfold term at h
  split at h
  · next r hr =>
    cases hterm : r.term d with
    | ok t =>
        rw [hterm] at h
        cases h
    | error cause =>
        rw [hterm] at h
        cases h
        exact .inr ⟨cause, rfl⟩
  · cases h
    exact .inl ⟨_, rfl⟩

end Descriptor

namespace Recipe.Shape

variable {r : Recipe} {t : Term}

/-- Only the recipe for grade projection projects a grade. -/
theorem classPure_iff (h : r.Shape t) : t.classPure = true ↔ r ≠ .projectGrade := by
  cases h with
  | single hr ha => simp [Term.classPure, Term.atoms, ha, hr]
  | moved f hr ha =>
      unfold Term.transformed
      split <;> simp [Term.classPure, Term.atoms, ha, hr]
  | pair ha hb => simp [Term.classPure, Term.atoms, ha, ← hb]

/-- The element backend is chosen for a grade projection, whether it is compiled or not. -/
theorem tier_projectGrade (h : Recipe.projectGrade.Shape t) (compiled : Bool) :
    t.tier compiled = .c2 := by
  cases h with
  | single hr => exact absurd rfl hr
  | moved f hr => exact absurd rfl hr
  | pair ha hb =>
      simp [Term.tier, Term.signals, Signals.tier, Term.seqDepth, Term.isAtom, Term.classPure,
        Term.atoms, maxSeqDepth, hb]

end Recipe.Shape

/-! ## The stages of compilation -/

namespace Model

variable {d : Descriptor} {o : Options} {t : Term} {hint : Option Tier}

theorem compile_of_hint {e : LoweringError} (h : d.hint = .error e) :
    compile d o = .error (.lowering e) := by
  rw [compile, h]
  rfl

theorem compile_of_term {e : CompileError} (hhint : d.hint = .ok hint) (h : d.term = .error e) :
    compile d o = .error e := by
  rw [compile, hhint, h]
  rfl

theorem compile_of_maxSweeps (hhint : d.hint = .ok hint) (hterm : d.term = .ok t)
    (h : o.maxSweeps = 0) : compile d o = .error (.normalization ⟨0⟩) := by
  rw [compile, hhint, hterm, h]
  rfl

/-- One sweep finds the term normal, so the term of the recipe is what is lowered. -/
theorem compile_eq_plan (hhint : d.hint = .ok hint) (hterm : d.term = .ok t) (h : 0 < o.maxSweeps) :
    ∃ model : Plan → Model, compile d o = do
      let plan ← (t.plan (d.backendFor o hint t)).mapError .lowering
      return model plan := by
  obtain ⟨r, -, hshape⟩ := Descriptor.recipe_of_term hterm
  have hnormal := Rule.derive_of_isNormal (hshape.isNormal Rule.standard) h
  rw [compile, hhint, hterm]
  simp only [Except.mapError, bind, Except.bind, hnormal]
  exact ⟨_, rfl⟩

/-- A term that has no class plan is lowered for the class backend exactly if the descriptor sends a
grade projection there. -/
theorem backendFor_eq_byClass_iff {r : Recipe} (hhint : d.complexityHint = hint.map Tier.name)
    (hname : d.name = r.name) (hshape : r.Shape t) :
    (d.backendFor o hint t = .byClass ∧ t.classPure = false) ↔ d.GradeOnClass o := by
  rw [Descriptor.GradeOnClass, Descriptor.backendFor, Preference.select_eq_byClass_iff,
    Descriptor.preference_eq_iff, Descriptor.preference_eq_iff, ← Bool.not_eq_true,
    hshape.classPure_iff, not_not]
  by_cases hr : r = .projectGrade
  · subst hr
    rw [hshape.tier_projectGrade, hhint, hname]
    cases hint with
    | none => simp [Recipe.name]
    | some tier => cases tier <;> simp [Recipe.name, Tier.name]
  · have hother : d.name ≠ "project_grade" := by
      intro h
      have hsame : r.name = Recipe.projectGrade.name := hname.symm.trans h
      exact hr (Recipe.name_injective hsame)
    simp [hr, hother]

/-- The last stage, which fails for grade projections on the class backend. -/
theorem compile_lowers (hknown : d.HintKnown) (hterm : d.term = .ok t) (h : 0 < o.maxSweeps) :
    (d.GradeOnClass o → compile d o = .error (.lowering .gradeProjection)) ∧
    (¬ d.GradeOnClass o → ∃ m, compile d o = .ok m) := by
  obtain ⟨hint, hhint, hnamed⟩ := Descriptor.hint_of_known hknown
  obtain ⟨r, hname, hshape⟩ := Descriptor.recipe_of_term hterm
  obtain ⟨model, hcompile⟩ := compile_eq_plan hhint hterm h
  rw [← backendFor_eq_byClass_iff hnamed hname hshape, hcompile]
  constructor
  · rintro ⟨hbackend, himpure⟩
    rw [hbackend, Term.plan_byClass_of_impure himpure]
    rfl
  · intro hfits
    have hpure : d.backendFor o hint t = .byClass → t.classPure = true := by
      intro hbackend
      by_contra himpure
      exact hfits ⟨hbackend, Bool.not_eq_true _ ▸ himpure⟩
    obtain ⟨plan, hplan⟩ := Term.plan_eq_ok hpure
    rw [hplan]
    exact ⟨model plan, rfl⟩

/-- Every way in which compilation can end after a hint that names a tier, or without one. -/
theorem compile_cases_of_known (hknown : d.HintKnown) (o : Options) :
    (∃ e, d.term = .error e ∧ compile d o = .error e) ∨
    (o.maxSweeps = 0 ∧ compile d o = .error (.normalization ⟨0⟩)) ∨
    (d.GradeOnClass o ∧ compile d o = .error (.lowering .gradeProjection)) ∨
    ∃ m, compile d o = .ok m := by
  obtain ⟨hint, hhint, -⟩ := Descriptor.hint_of_known hknown
  cases hterm : d.term with
  | error e => exact .inl ⟨e, rfl, compile_of_term hhint hterm⟩
  | ok t =>
      right
      by_cases hsweeps : o.maxSweeps = 0
      · exact .inl ⟨hsweeps, compile_of_maxSweeps hhint hterm hsweeps⟩
      · right
        obtain ⟨hfails, hsucceeds⟩ := compile_lowers hknown hterm (Nat.pos_of_ne_zero hsweeps)
        by_cases hgrade : d.GradeOnClass o
        · exact .inl ⟨hgrade, hfails hgrade⟩
        · exact .inr (hsucceeds hgrade)

/-- **Every way in which compilation can end.** -/
theorem compile_cases (d : Descriptor) (o : Options) :
    (∃ h, d.complexityHint = some h ∧ compile d o = .error (.lowering (.invalidHint h))) ∨
    (∃ e, d.term = .error e ∧ compile d o = .error e) ∨
    (o.maxSweeps = 0 ∧ compile d o = .error (.normalization ⟨0⟩)) ∨
    (d.GradeOnClass o ∧ compile d o = .error (.lowering .gradeProjection)) ∨
    ∃ m, compile d o = .ok m := by
  by_cases hknown : d.HintKnown
  · exact .inr (compile_cases_of_known hknown o)
  · left
    simp only [Descriptor.HintKnown, not_forall] at hknown
    obtain ⟨h, hd, hh⟩ := hknown
    exact ⟨h, hd, compile_of_hint (Descriptor.hint_of_not_mem hd hh)⟩

end Model

/-- **Compilation fails exactly when it should.** A hint that names no tier is an error whatever
else is wrong. After that come the errors of the recipe, then a limit of no sweeps, and then grade
projections that are sent to the class backend. Whatever is left compiles. So the limit is never
reached if there is a sweep at all, and the backend that is chosen without a hint or a preference
always fits. -/
theorem compile_fails_exactly (d : Descriptor) (o : Options) :
    (∀ h, d.complexityHint = some h → h ∉ ["C0", "C1", "C2", "C3"] →
      Model.compile d o = .error (.lowering (.invalidHint h))) ∧
    (d.HintKnown →
      (∀ e, d.term = .error e → Model.compile d o = .error e) ∧
      ∀ t, d.term = .ok t →
        (o.maxSweeps = 0 → Model.compile d o = .error (.normalization ⟨0⟩)) ∧
        (0 < o.maxSweeps →
          (Model.compile d o = .error (.lowering .gradeProjection) ↔ d.GradeOnClass o) ∧
          ((∃ m, Model.compile d o = .ok m) ↔ ¬ d.GradeOnClass o))) ∧
    (0 < o.maxSweeps → ∀ limit, Model.compile d o ≠ .error (.normalization limit)) ∧
    (d.complexityHint = none → d.Prefers o .auto →
      ∀ cause, Model.compile d o ≠ .error (.lowering cause)) := by
  refine ⟨?_, ?_, ?_, ?_⟩
  · intro h hd hh
    exact Model.compile_of_hint (Descriptor.hint_of_not_mem hd hh)
  · intro hknown
    obtain ⟨hint, hhint, -⟩ := Descriptor.hint_of_known hknown
    refine ⟨fun e he => Model.compile_of_term hhint he, fun t hterm => ⟨?_, fun hsweeps => ?_⟩⟩
    · exact Model.compile_of_maxSweeps hhint hterm
    · obtain ⟨hfails, hsucceeds⟩ := Model.compile_lowers hknown hterm hsweeps
      by_cases hgrade : d.GradeOnClass o
      · simp [hgrade, hfails hgrade]
      · obtain ⟨m, hm⟩ := hsucceeds hgrade
        simp [hgrade, hm]
  · intro hsweeps limit hlimit
    have hcases : d.term = .error (.normalization limit) ∨ o.maxSweeps = 0 ∧ limit = ⟨0⟩ := by
      simpa [hlimit] using Model.compile_cases d o
    rcases hcases with hterm | ⟨hzero, -⟩
    · rcases Descriptor.term_eq_error hterm with ⟨name, he⟩ | ⟨cause, he⟩ <;> cases he
    · omega
  · intro hhint hauto cause hcause
    have hother : ¬ d.Prefers o (.use .byClass) := by
      rw [← Descriptor.preference_eq_iff] at hauto ⊢
      simp [hauto]
    have hterm : d.term = .error (.lowering cause) := by
      simpa [hcause, hhint, hother, Descriptor.GradeOnClass] using Model.compile_cases d o
    rcases Descriptor.term_eq_error hterm with ⟨name, he⟩ | ⟨cause, he⟩ <;> cases he

/-- The first grade of class 5, under a hint and with a preference of its own. -/
def gradeOfFive (hint : Option String) (backend : Option Preference) : Descriptor where
  name := "project_grade"
  version := "1"
  namespaceName := "grades"
  compiledParams := [("class", .int 5), ("grade", .int 1)]
  runtimeParams := []
  complexityHint := hint
  backend := backend

/-- A hint can send a grade projection to the class backend, and so can a preference, which counts
before a hint that would not. The preference of the descriptor does this by itself, but it is beaten
by the one of the options, also if that is automatic. A hint in lower case is the first error of
three. -/
theorem compile_fails_exactly_gradeOfFive :
    (∃ m, Model.compile (gradeOfFive none none) { maxSweeps := 1 } = .ok m) ∧
    Model.compile (gradeOfFive (some "C1") none) {} = .error (.lowering .gradeProjection) ∧
    Model.compile (gradeOfFive (some "C3") none) { preference := some (.use .byClass) }
      = .error (.lowering .gradeProjection) ∧
    Model.compile (gradeOfFive none (some (.use .byClass))) {}
      = .error (.lowering .gradeProjection) ∧
    (∃ m, Model.compile (gradeOfFive (some "C0") (some (.use .byElement))) {} = .ok m) ∧
    (∃ m, Model.compile (gradeOfFive (some "C1") (some (.use .byClass)))
      { preference := some (.use .byElement) } = .ok m) ∧
    (∃ m, Model.compile (gradeOfFive none (some (.use .byClass))) { preference := some .auto }
      = .ok m) ∧
    Model.compile (gradeOfFive none (some (.use .byElement)))
      { preference := some (.use .byClass) } = .error (.lowering .gradeProjection) ∧
    Model.compile (gradeOfFive (some "C1") none) { maxSweeps := 0 }
      = .error (.normalization ⟨0⟩) ∧
    Model.compile (gradeOfFive (some "c1") none)
      { preference := some (.use .byClass), maxSweeps := 0 }
      = .error (.lowering (.invalidHint "c1")) := by
  have hends (hint : Option String) (backend : Option Preference) (o : Options)
      (hknown : (gradeOfFive hint backend).HintKnown) (hsweeps : 0 < o.maxSweeps) :
      (Model.compile (gradeOfFive hint backend) o = .error (.lowering .gradeProjection) ↔
        (gradeOfFive hint backend).GradeOnClass o) ∧
      ((∃ m, Model.compile (gradeOfFive hint backend) o = .ok m) ↔
        ¬ (gradeOfFive hint backend).GradeOnClass o) := by
    obtain ⟨-, hterm, -⟩ := compile_fails_exactly (gradeOfFive hint backend) o
    exact ((hterm hknown).2 _ rfl).2 hsweeps
  refine ⟨?_, ?_, ?_, ?_, ?_, ?_, ?_, ?_, ?_, ?_⟩
  · exact (hends none none _ (by decide) (by decide)).2.mpr (by decide)
  · exact (hends (some "C1") none _ (by decide) (by decide)).1.mpr (by decide)
  · exact (hends (some "C3") none _ (by decide) (by decide)).1.mpr (by decide)
  · exact (hends none _ _ (by decide) (by decide)).1.mpr (by decide)
  · exact (hends (some "C0") _ _ (by decide) (by decide)).2.mpr (by decide)
  · exact (hends (some "C1") _ _ (by decide) (by decide)).2.mpr (by decide)
  · exact (hends none _ _ (by decide) (by decide)).2.mpr (by decide)
  · exact (hends none _ _ (by decide) (by decide)).1.mpr (by decide)
  · obtain ⟨-, hknown, -⟩ := compile_fails_exactly (gradeOfFive (some "C1") none) { maxSweeps := 0 }
    exact ((hknown (by decide)).2 _ rfl).1 rfl
  · exact (compile_fails_exactly (gradeOfFive (some "c1") none) _).1 "c1" rfl (by decide)

end NinetySix
