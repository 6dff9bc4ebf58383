import NinetySix.Algebra.Rank
import NinetySix.Term.Basic

set_option autoImplicit false

/-! # Parameters and outcomes

A plan runs with parameters, a table of named integers and elements, and ends with an outcome or
with a cause of failure. Both backends hold numbers in a `Register`: a class value, and the overflow
flag of the last ring operation if that was tracked.
-/

namespace NinetySix

/-- Failures of a run. -/
inductive ExecutionError where
  | missingParameter (name : String)
  | parameterType (name expected : String)
  | missingOperand (operation : String)
  | projectionInput
  | algebra (cause : AlgebraError)
  | rank (cause : RankError)
  deriving DecidableEq, Repr

def ExecutionError.message : ExecutionError → String
  | .missingParameter name => "missing runtime parameter: " ++ name
  | .parameterType name expected =>
    s!"runtime parameter `{name}` has the wrong type: expected {expected}"
  | .missingOperand operation =>
    operation ++ " requires an input value but no state is established"
  | .projectionInput => "projectClass requires an input element"
  | .algebra cause => "algebra error: " ++ cause.message
  | .rank cause => "bridge error: " ++ cause.message

/-- A step of the algebra within a run. -/
def ofAlgebra {α : Type} : Except AlgebraError α → Except ExecutionError α :=
  Except.mapError .algebra

/-- A step between classes and elements within a run. -/
def ofRank {α : Type} : Except RankError α → Except ExecutionError α :=
  Except.mapError .rank

/-! ## Parameters -/

inductive ParamValue where
  | int (n : Int)
  | element (x : Element)
  deriving DecidableEq, Repr

/-- The parameters of a run, sorted by name. -/
abbrev Params := Table String ParamValue

namespace Params

/-- The parameter with a name. -/
def require (p : Params) (name : String) : Except ExecutionError ParamValue :=
  match Table.find? name p with
  | some v => .ok v
  | none => .error (.missingParameter name)

def contains (p : Params) (name : String) : Bool := (Table.find? name p).isSome

/-- A parameter that has to be an integer. -/
def int (p : Params) (name : String) : Except ExecutionError Int := do
  match ← p.require name with
  | .int n => return n
  | .element _ => .error (.parameterType name "integer")

/-- An operand of a ring operation: an integer, or the class of an element. -/
def operand (p : Params) (name : String) : Except ExecutionError Int := do
  match ← p.require name with
  | .int n => return n
  | .element x => return ((← ofRank x.project : Nat) : Int)

end Params

/-- The parameter on the left of a ring operation that has no value before it. -/
def leftOperand : String := "a"

/-- The parameter on the right of every ring operation. -/
def rightOperand : String := "b"

/-! ## Outcomes -/

inductive Outcome where
  /-- A class value. -/
  | number (value : Nat)
  /-- A class value with the overflow flag of a tracked ring operation. -/
  | tracked (value : Nat) (overflow : Bool)
  /-- An element. -/
  | element (x : Element)
  /-- An element was to be projected that is not of rank one. -/
  | absent
  /-- No instruction gave a value. -/
  | fallback
  deriving DecidableEq, Repr

namespace Outcome

/-- The class value, if there is one. -/
def value : Outcome → Option Nat
  | .number c => some c
  | .tracked c _ => some c
  | .element x => x.project?
  | .absent => none
  | .fallback => some 0

/-- The overflow flag, if it was tracked. -/
def overflow : Outcome → Option Bool
  | .tracked _ o => some o
  | _ => none

end Outcome

/-! ## Registers -/

structure Register where
  value : Nat
  overflow : Option Bool
  deriving DecidableEq, Repr

namespace Register

/-- A value without a flag. -/
def plain (value : Nat) : Register := ⟨value, none⟩

/-- An integer modulo 96. -/
def ofInt (n : Int) : Register := plain (n % classCount).toNat

/-- A transform moves the value and keeps the flag. -/
def transform (f : Transform) (r : Register) : Register := { r with value := f.actClass r.value }

/-- The result of a ring operation: the exact value modulo 96 and, if tracked, whether the exact
value was outside the range of class indices. -/
def ring (op : RingOp) (mode : OverflowMode) (left right : Int) : Register :=
  let exact := op.eval left right
  { value := (exact % classCount).toNat
    overflow := match mode with
      | .track => some (!(0 ≤ exact && exact < classCount))
      | .drop => none }

def outcome (r : Register) : Outcome :=
  match r.overflow with
  | some o => .tracked r.value o
  | none => .number r.value

end Register

end NinetySix
