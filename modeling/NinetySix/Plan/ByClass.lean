import NinetySix.Plan.Outcome
import NinetySix.Term.Leaf

set_option autoImplicit false

/-! # The class backend

A class plan is a list of instructions on class values. Its state is a register, or nothing until
the first instruction that gives a value. A term lowers to the instructions of its leaves: each
leaf gives its atom and then the transforms above it, the innermost first. Grade projection has no
meaning on classes, so a term that has it does not lower.
-/

namespace NinetySix

inductive ClassOp where
  | literal (index : Nat)
  | load (name : String)
  | ring (op : RingOp) (mode : OverflowMode)
  | transform (f : Transform)
  | lift (index : Nat)
  | toClass
  deriving DecidableEq, Repr

namespace ClassOp

def text : ClassOp → String
  | .literal c => "literal " ++ Atom.classText c
  | .load name => "load $" ++ name
  | .ring op mode => op.name ++ " " ++ (match mode with | .drop => "Drop" | .track => "Track")
  | .transform f => f.text
  | .lift c => "lift " ++ Atom.classText c
  | .toClass => "projectClass"

/-- The instruction of an atom. -/
def ofAtom : Atom → Except LoweringError ClassOp
  | .literal c => .ok (.literal c)
  | .param name => .ok (.load name)
  | .lift c => .ok (.lift c)
  | .grade _ => .error .gradeProjection
  | .toClass => .ok .toClass
  | .ring op mode => .ok (.ring op mode)

/-- The instructions of a leaf. -/
def ofLeaf (leaf : Leaf) : Except LoweringError (List ClassOp) :=
  return (← ofAtom leaf.atom) :: leaf.applied.map .transform

/-! ## Running -/

/-- The left operand of a ring operation: the value so far, or else a parameter. -/
def leftValue (p : Params) : Option Register → Except ExecutionError Int
  | some r => .ok r.value
  | none => p.int leftOperand

/-- One instruction. -/
def step (p : Params) (state : Option Register) : ClassOp → Except ExecutionError (Option Register)
  | .literal c => .ok (some (.plain c))
  | .lift c => .ok (some (.plain c))
  | .load name => return some (.ofInt (← p.int name))
  | .ring op mode => do
    let left ← leftValue p state
    let right ← p.int rightOperand
    return some (.ring op mode left right)
  | .transform f => .ok (state.map (Register.transform f))
  | .toClass => .ok state

/-- The outcome of a final state. -/
def finish : Option Register → Outcome
  | some r => r.outcome
  | none => .fallback

/-- Runs a plan. -/
def run (ops : List ClassOp) (p : Params) : Except ExecutionError Outcome :=
  return finish (← ops.foldlM (step p) none)

end ClassOp

/-- The class plan of a term. -/
def Term.classPlan (t : Term) : Except LoweringError (List ClassOp) :=
  return (← t.leaves.mapM ClassOp.ofLeaf).flatten

end NinetySix
