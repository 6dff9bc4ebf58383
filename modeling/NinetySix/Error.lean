import NinetySix.Text.Quoted

set_option autoImplicit false

/-! # Causes of failure

Each stage of the work has its own causes of failure, and each cause has one message. The causes
that name an element or wrap another stage's stand with the stages they belong to.
-/

namespace NinetySix

/-- Failures of coefficient arithmetic and of the algebra. -/
inductive AlgebraError where
  | negativePower (exponent : Int)
  | invalidGenerator (index : Int)
  | coefficientOverflow
  deriving DecidableEq, Repr

def AlgebraError.message : AlgebraError → String
  | .negativePower n => s!"negative power {n} is not defined for algebraic elements"
  | .invalidGenerator i => s!"invalid Fano generator index: {i} (must be 1..=7)"
  | .coefficientOverflow => "coefficient overflow: result exceeds the i64 range"

/-- Failures to build a coordinate, an atom or a recipe from the data given. -/
inductive ConstructionError where
  | invalidClass (index : Int)
  | invalidGrade (grade : Int)
  | invalidParameter (name : String)
  | invalidField (field reason : String)
  deriving DecidableEq, Repr

def ConstructionError.message : ConstructionError → String
  | .invalidClass i => s!"invalid class index: {i} (must be 0..=95)"
  | .invalidGrade g => s!"invalid grade: {g} (must be 0..=7)"
  | .invalidParameter name => "invalid parameter name: " ++ Text.quoted name
  | .invalidField field reason => s!"invalid descriptor field `{field}`: {reason}"

/-- Failures to choose or to make a plan. -/
inductive LoweringError where
  | gradeProjection
  | invalidHint (hint : String)
  deriving DecidableEq, Repr

def LoweringError.message : LoweringError → String
  | .gradeProjection => "Grade projection requires SGA backend"
  | .invalidHint hint =>
    "invalid complexity hint: " ++ Text.quoted hint ++ " (expected one of C0, C1, C2, C3)"

end NinetySix
