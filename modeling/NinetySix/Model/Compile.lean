import NinetySix.Model.Options
import NinetySix.Model.Recipe
import NinetySix.Plan.Basic

set_option autoImplicit false

/-! # Compilation

A descriptor is compiled in five steps: its recipe makes a term, the term is normalised, the normal
form is classified, the tier and the preference choose a backend, and the normal form is lowered to
a plan for it. The plan of a model of the first tier is run once, without parameters; if that
succeeds, its outcome is the answer of every run.
-/

namespace NinetySix

structure Model where
  namespaceName : String
  name : String
  version : String
  term : Term
  tier : Tier
  backend : Backend
  plan : Plan
  runtimeParams : List String
  folded : Option Outcome
  deriving DecidableEq, Repr

/-- The preference that counts: that of the options, or else that of the descriptor. -/
def Descriptor.preference (d : Descriptor) (o : Options) : Preference :=
  (o.preference.or d.backend).getD .auto

/-- The tier that the descriptor hints at. -/
def Descriptor.hint (d : Descriptor) : Except LoweringError (Option Tier) :=
  match d.complexityHint with
  | none => .ok none
  | some h => (Tier.ofName h).map some

/-- The outcome of a plan that needs no parameters. -/
def Plan.fold? (plan : Plan) : Option Outcome := (plan.run []).toOption

namespace Model

/-- Compiles a descriptor. The hint is checked before everything else. -/
def compile (d : Descriptor) (o : Options) : Except CompileError Model := do
  let hint ← d.hint.mapError .lowering
  let source ← d.term
  let normal ← (Rule.derive Rule.standard o.maxSweeps source).mapError .normalization
  let term := normal.term
  let tier := hint.getD (term.tier (o.compiled && d.runtimeParams.isEmpty))
  let backend := (d.preference o).select tier
  let plan ← (term.plan backend).mapError .lowering
  return {
    namespaceName := d.namespaceName
    name := d.name
    version := d.version
    term
    tier
    backend
    plan
    runtimeParams := d.runtimeParams
    folded := if tier = .c0 then plan.fold? else none }

/-- Runs a model. The declared parameters are looked for first, in their order. -/
def run (m : Model) (p : Params) : Except ExecutionError Outcome :=
  match m.runtimeParams.find? fun name => !p.contains name with
  | some name => .error (.missingParameter name)
  | none =>
    match m.folded with
    | some o => .ok o
    | none => m.plan.run p

end Model

end NinetySix
