import NinetySix.Plan.ByElement
import NinetySix.Tier

set_option autoImplicit false

/-! # Plans

A plan is a list of instructions for one of the two backends.
-/

namespace NinetySix

inductive Plan where
  | byClass (ops : List ClassOp)
  | byElement (ops : List ElementOp)
  deriving DecidableEq, Repr

namespace Plan

def backend : Plan → Backend
  | .byClass _ => .byClass
  | .byElement _ => .byElement

/-- The number of instructions. -/
def size : Plan → Nat
  | .byClass ops => ops.length
  | .byElement ops => ops.length

def isEmpty (plan : Plan) : Bool := plan.size == 0

/-- Runs the plan. -/
def run : Plan → Params → Except ExecutionError Outcome
  | .byClass ops, p => ClassOp.run ops p
  | .byElement ops, p => ElementOp.run ops p

end Plan

/-- The plan of a term for a backend. -/
def Term.plan (t : Term) : Backend → Except LoweringError Plan
  | .byClass => return .byClass (← t.classPlan)
  | .byElement => .ok (.byElement t.elementPlan)

end NinetySix
