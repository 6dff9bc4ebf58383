import NinetySix.Model.Descriptor
import NinetySix.Normal.Derivation

set_option autoImplicit false

/-! # Recipes

A recipe makes a term from the parameters of a descriptor:

| parameter  | meaning                             | default |
|------------|-------------------------------------|---------|
| `class`    | the class that is worked on         | none    |
| `k`        | the exponent of a turn              | 1       |
| `grade`    | the grade that is kept              | none    |
| `overflow` | the mode of a ring operation        | `drop`  |

Without a `class`, recipes that need an operand take the runtime parameter `x`.
-/

namespace NinetySix

/-- Failures of compilation. -/
inductive CompileError where
  | unknownModel (name : String)
  | construction (cause : ConstructionError)
  | lowering (cause : LoweringError)
  | normalization (cause : SweepLimit)
  deriving DecidableEq, Repr

def CompileError.message : CompileError → String
  | .unknownModel name => "UnknownModel: " ++ name
  | .construction cause => cause.message
  | .lowering cause => cause.message
  | .normalization cause => cause.message

inductive Recipe where
  | literal
  | lift
  | project
  | projectGrade
  | ring (op : RingOp)
  | turn (axis : Axis)
  | mirror
  deriving DecidableEq, Repr

namespace Recipe

def name : Recipe → String
  | .literal => "literal"
  | .lift => "lift"
  | .project => "project"
  | .projectGrade => "project_grade"
  | .ring op => op.name
  | .turn .rotate => "rotate"
  | .turn .triality => "triality"
  | .turn .twist => "twist"
  | .mirror => "mirror"

/-- All recipes. -/
def all : List Recipe :=
  [.literal, .lift, .project, .projectGrade, .ring .add, .ring .sub, .ring .mul,
   .turn .rotate, .turn .triality, .turn .twist, .mirror]

/-- The recipe with a name. -/
def ofName? (s : String) : Option Recipe := all.find? fun r => r.name == s

/-- The runtime parameter that stands in for the class. -/
def runtimeOperand : String := "x"

/-- The operand: the compiled class, by itself or lifted, or else a runtime parameter. -/
def operand (d : Descriptor) (lifted : Bool) : Except ConstructionError Term := do
  match ← d.intParam "class" with
  | some c => if lifted then Term.lift c else Term.literal c
  | none =>
    if d.runtimeParams.contains runtimeOperand then Term.param runtimeOperand
    else .error (.invalidField "class"
      ("required unless `" ++ runtimeOperand ++ "` is a runtime parameter"))

/-- A ring operation, after the compiled class if there is one. -/
def ringTerm (d : Descriptor) (op : RingOp) : Except ConstructionError Term := do
  let ring := Term.atom (.ring op (← d.overflowMode))
  match ← d.intParam "class" with
  | some c => return .seq (← Term.literal c) ring
  | none => return ring

/-- The exponent of a turn. -/
def exponent (d : Descriptor) : Except ConstructionError Int := return (← d.intParam "k").getD 1

/-- The term that the recipe makes. -/
def term (d : Descriptor) : Recipe → Except ConstructionError Term
  | .literal => operand d false
  | .lift => do Term.lift (← d.requiredInt "class")
  | .project => return .seq (← operand d true) (.atom .toClass)
  | .projectGrade => do
    let t ← operand d true
    return .seq t (← Term.grade (← d.requiredInt "grade"))
  | .ring op => ringTerm d op
  | .turn axis => do
    let t ← operand d false
    return Term.transformed (.ofInt axis (← exponent d)) t
  | .mirror => return Term.transformed .mirror (← operand d false)

end Recipe

/-- The term of a descriptor. -/
def Descriptor.term (d : Descriptor) : Except CompileError Term :=
  match Recipe.ofName? d.name with
  | some r => (r.term d).mapError .construction
  | none => .error (.unknownModel d.name)

end NinetySix
