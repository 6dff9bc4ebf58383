import NinetySix.Model.Compile
import NinetySix.Proofs.Leafwise

set_option autoImplicit false

/-! # Folding is sound

A model of the first tier is run once when it is compiled, without parameters, and if that succeeds,
its outcome is the answer of every run. The tier may be a hint, which counts whatever the term is,
so this is also tried on plans that read parameters. It is sound all the same: parameters can only
make a run succeed that failed without them, and never change the outcome of a run that did not
(`Plan.run_keeps`). The order `Keeps` on results says this, step by step along a plan.

`Model.compile_eq_ok` is the inversion of compilation: all that is known of a compiled model.
-/

namespace NinetySix

/-! ## Results that are kept -/

/-- The second result is the first, unless that is a failure. -/
def Keeps {ε α : Type} (x y : Except ε α) : Prop := ∀ a, x = .ok a → y = .ok a

namespace Keeps

variable {ε α β : Type}

theorem refl (x : Except ε α) : Keeps x x := fun _ h => h

theorem bind {x y : Except ε α} {f g : α → Except ε β} (h : Keeps x y)
    (hfg : ∀ a, Keeps (f a) (g a)) : Keeps (x >>= f) (y >>= g) := by
  intro b hb
  obtain ⟨a, ha, hfa⟩ := bind_eq_ok.mp hb
  exact bind_eq_ok.mpr ⟨a, h a ha, hfg a b hfa⟩

end Keeps

/-! ## More parameters -/

namespace Params

/-- Every parameter of the first table is in the second, with the same value. -/
def Extends (p p' : Params) : Prop :=
  ∀ name v, Table.find? name p = some v → Table.find? name p' = some v

theorem nil_extends (p : Params) : Extends [] p := by
  intro name v h
  cases h

variable {p p' : Params}

theorem Extends.require (h : p.Extends p') (name : String) :
    Keeps (p.require name) (p'.require name) := by
  intro v hv
  unfold Params.require at hv ⊢
  split at hv
  · next w hfind =>
    rw [h name w hfind]
    exact hv
  · cases hv

theorem Extends.int (h : p.Extends p') (name : String) : Keeps (p.int name) (p'.int name) :=
  (h.require name).bind fun _ => .refl _

theorem Extends.operand (h : p.Extends p') (name : String) :
    Keeps (p.operand name) (p'.operand name) :=
  (h.require name).bind fun _ => .refl _

end Params

namespace ClassOp

variable {p p' : Params}

theorem leftValue_keeps (h : p.Extends p') (state : Option Register) :
    Keeps (leftValue p state) (leftValue p' state) := by
  cases state with
  | none => exact h.int leftOperand
  | some r => exact .refl _

theorem step_keeps (h : p.Extends p') (state : Option Register) (op : ClassOp) :
    Keeps (step p state op) (step p' state op) := by
  cases op with
  | literal c => exact .refl _
  | lift c => exact .refl _
  | load name => exact (h.int name).bind fun _ => .refl _
  | ring op mode =>
      exact (leftValue_keeps h state).bind fun _ =>
        (h.int rightOperand).bind fun _ => .refl _
  | transform f => exact .refl _
  | toClass => exact .refl _

theorem runFrom_keeps (h : p.Extends p') (state : Option Register) (ops : List ClassOp) :
    Keeps (runFrom p state ops) (runFrom p' state ops) := by
  induction ops generalizing state with
  | nil => exact .refl _
  | cons op ops ih =>
      unfold runFrom at ih ⊢
      rw [List.foldlM_cons, List.foldlM_cons]
      exact (step_keeps h state op).bind ih

end ClassOp

namespace ElementOp

variable {p p' : Params}

theorem leftValue_keeps (h : p.Extends p') (state : Option Cell) :
    Keeps (leftValue p state) (leftValue p' state) := by
  cases state with
  | none => exact h.operand leftOperand
  | some cell => exact .refl _

theorem coreStep_keeps (h : p.Extends p') (state : Option Cell) (op : ClassOp) :
    Keeps (coreStep p state op) (coreStep p' state op) := by
  cases op with
  | literal c => exact .refl _
  | lift c => exact .refl _
  | load name => exact ((h.require name).bind fun _ => .refl _).bind fun _ => .refl _
  | ring op mode =>
      exact (leftValue_keeps h state).bind fun _ =>
        (h.operand rightOperand).bind fun _ => .refl _
  | transform f => exact .refl _
  | toClass => exact .refl _

/-- The instructions of the algebra read no parameters. -/
theorem step_keeps (h : p.Extends p') (state : Option Cell) (op : ElementOp) :
    Keeps (step p state op) (step p' state op) := by
  cases op with
  | core op => exact coreStep_keeps h state op
  | projectGrade g => exact .refl _
  | multiply x => exact .refl _
  | add x => exact .refl _
  | scale k => exact .refl _
  | cross x => exact .refl _

theorem runFrom_keeps (h : p.Extends p') (state : Option Cell) (ops : List ElementOp) :
    Keeps (runFrom p state ops) (runFrom p' state ops) := by
  induction ops generalizing state with
  | nil => exact .refl _
  | cons op ops ih =>
      refine (step_keeps h state op).bind fun next => ?_
      cases next with
      | state cell => exact ih cell
      | absent => exact .refl _

end ElementOp

/-- **A plan that succeeds keeps its outcome when more parameters are given.** -/
theorem Plan.run_keeps {p p' : Params} (h : p.Extends p') (plan : Plan) :
    Keeps (plan.run p) (plan.run p') := by
  cases plan with
  | byClass ops => exact (ClassOp.runFrom_keeps h none ops).bind fun _ => .refl _
  | byElement ops => exact ElementOp.runFrom_keeps h none ops

/-! ## Compiled models -/

theorem mapError_eq_ok {ε ε' α : Type} {f : ε → ε'} {x : Except ε α} {a : α} :
    x.mapError f = .ok a ↔ x = .ok a := by
  cases x with
  | error e => simp [Except.mapError]
  | ok b => simp [Except.mapError]

namespace Model

/-- The model is what the descriptor and the options ask for. -/
structure CompiledFrom (d : Descriptor) (o : Options) (m : Model) : Prop where
  namespaceName : m.namespaceName = d.namespaceName
  name : m.name = d.name
  version : m.version = d.version
  runtimeParams : m.runtimeParams = d.runtimeParams
  term : ∃ source normal, d.term = .ok source ∧
    Rule.derive Rule.standard o.maxSweeps source = .ok normal ∧ m.term = normal.term
  tier : ∃ hint, d.hint = .ok hint ∧
    m.tier = hint.getD (m.term.tier (o.compiled && d.runtimeParams.isEmpty))
  backend : m.backend = (d.preference o).select m.tier
  plan : m.term.plan m.backend = .ok m.plan
  folded : m.folded = if m.tier = .c0 then m.plan.fold? else none

/-- **What compilation gives.** -/
theorem compile_eq_ok {d : Descriptor} {o : Options} {m : Model} (h : compile d o = .ok m) :
    CompiledFrom d o m := by
  obtain ⟨hint, hhint, h⟩ := bind_eq_ok.mp h
  obtain ⟨source, hsource, h⟩ := bind_eq_ok.mp h
  obtain ⟨normal, hnormal, h⟩ := bind_eq_ok.mp h
  obtain ⟨plan, hplan, h⟩ := bind_eq_ok.mp h
  cases h
  exact {
    namespaceName := rfl
    name := rfl
    version := rfl
    runtimeParams := rfl
    term := ⟨source, normal, hsource, mapError_eq_ok.mp hnormal, rfl⟩
    tier := ⟨hint, mapError_eq_ok.mp hhint, rfl⟩
    backend := rfl
    plan := mapError_eq_ok.mp hplan
    folded := rfl }

variable {d : Descriptor} {o : Options} {m : Model} {p : Params}

/-- The answer of a folded model is the outcome of its plan, with any parameters. -/
theorem CompiledFrom.plan_run_of_folded (h : CompiledFrom d o m) {out : Outcome}
    (hfolded : m.folded = some out) (p : Params) : m.plan.run p = .ok out := by
  rw [h.folded] at hfolded
  split at hfolded
  · have hempty : m.plan.run [] = .ok out := by
      unfold Plan.fold? at hfolded
      cases hrun : m.plan.run [] with
      | error e =>
          rw [hrun] at hfolded
          cases hfolded
      | ok out' =>
          rw [hrun] at hfolded
          cases hfolded
          rfl
    exact Plan.run_keeps p.nil_extends m.plan out hempty
  · cases hfolded

/-- A declared parameter that is missing is found before anything is run. -/
theorem run_of_missing {before after : List String} {name : String}
    (hparams : m.runtimeParams = before ++ name :: after)
    (hbefore : ∀ n ∈ before, p.contains n = true) (hname : p.contains name = false) :
    m.run p = .error (.missingParameter name) := by
  have hnone : before.find? (fun n => !p.contains n) = none := by
    rw [List.find?_eq_none]
    intro n hn
    simp [hbefore n hn]
  have hfind : m.runtimeParams.find? (fun n => !p.contains n) = some name := by
    rw [hparams, List.find?_append, hnone, Option.none_or, List.find?_cons_of_pos]
    simp [hname]
  rw [run, hfind]

/-- With all declared parameters a model gives what its plan gives, folded or not. -/
theorem CompiledFrom.run_eq (h : CompiledFrom d o m)
    (hp : ∀ n ∈ d.runtimeParams, p.contains n = true) : m.run p = m.plan.run p := by
  have hfind : m.runtimeParams.find? (fun n => !p.contains n) = none := by
    rw [h.runtimeParams, List.find?_eq_none]
    intro n hn
    simp [hp n hn]
  rw [run, hfind]
  -- all parameters are there, so only a folded model is not run by its plan
  cases hfolded : m.folded with
  | none => rfl
  | some out => exact (h.plan_run_of_folded hfolded p).symm

end Model

/-- **Folding is sound.** A run of a compiled model fails with the first declared parameter that is
missing, and if none is missing, its result is that of the plan. The outcome of a model that was
folded is the one that the plan gives with any parameters, also where a hint made a model of the
first tier out of a term that reads its input. -/
theorem folding_sound {d : Descriptor} {o : Options} {m : Model} (h : Model.compile d o = .ok m)
    (p : Params) :
    (∀ before name after, d.runtimeParams = before ++ name :: after →
      (∀ n ∈ before, p.contains n = true) → p.contains name = false →
      m.run p = .error (.missingParameter name)) ∧
    ((∀ n ∈ d.runtimeParams, p.contains n = true) → m.run p = m.plan.run p) ∧
    (∀ out, m.folded = some out → m.plan.run p = .ok out) := by
  have hm := Model.compile_eq_ok h
  refine ⟨?_, hm.run_eq, fun out hfolded => hm.plan_run_of_folded hfolded p⟩
  intro before name after hparams hbefore hname
  exact Model.run_of_missing (hm.runtimeParams.trans hparams) hbefore hname

/-- A rotation of a class, with a parameter that it does not need. -/
def hintedRotation : Descriptor where
  name := "rotate"
  version := "1"
  namespaceName := "turns"
  compiledParams := [("class", .int 95), ("k", .int 5)]
  runtimeParams := ["x"]
  complexityHint := some "C0"
  backend := some (.use .byElement)

/-- A sum that needs a parameter, and is said to be of the first tier. -/
def hintedSum : Descriptor where
  name := "add96"
  version := "1"
  namespaceName := "sums"
  compiledParams := [("class", .int 90), ("overflow", .string "track")]
  runtimeParams := []
  complexityHint := some "C0"
  backend := none

/-- The rotation is folded and still asks for its parameter; the sum is not folded, and its runs are
those of its plan. -/
theorem folding_sound_hinted :
    ∃ m m', Model.compile hintedRotation {} = .ok m ∧ Model.compile hintedSum {} = .ok m' ∧
      m.folded = some (.number 23) ∧ m'.tier = .c0 ∧ m'.folded = none ∧
      m.run [] = .error (.missingParameter "x") ∧
      m.plan.run [("x", .int 7)] = .ok (.number 23) ∧
      m'.run [("b", .int 10)] = m'.plan.run [("b", .int 10)] ∧
      m'.plan.run [("b", .int 10)] = .ok (.tracked 4 true) := by
  have hm : Model.compile hintedRotation {} = .ok _ := rfl
  have hm' : Model.compile hintedSum {} = .ok _ := rfl
  obtain ⟨hmissing, -, -⟩ := folding_sound hm []
  obtain ⟨-, -, hfolded⟩ := folding_sound hm [("x", .int 7)]
  obtain ⟨-, hrun, -⟩ := folding_sound hm' [("b", .int 10)]
  exact ⟨_, _, hm, hm', rfl, rfl, rfl, hmissing [] "x" [] rfl (by simp) rfl, hfolded _ rfl,
    hrun (by simp [hintedSum]), rfl⟩

end NinetySix
