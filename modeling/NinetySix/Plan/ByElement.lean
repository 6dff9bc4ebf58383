import NinetySix.Plan.ByClass

set_option autoImplicit false

/-! # The element backend

An element plan has the instructions of class plans, run on numbers and elements alike, and those
of the algebra. Numbers behave as on the class backend. Lifting gives an element; a ring operation
takes the class of an element, and an instruction of the algebra lifts a number. Projecting an
element that is not of rank one to a class ends the run at once, without an answer.
-/

namespace NinetySix

inductive ElementOp where
  /-- An instruction of class plans. -/
  | core (op : ClassOp)
  | projectGrade (g : Nat)
  | multiply (x : Element)
  | add (x : Element)
  | scale (k : Int)
  | cross (x : Element)
  deriving DecidableEq, Repr

namespace ElementOp

/-- The instruction of an atom. -/
def ofAtom : Atom → ElementOp
  | .literal c => .core (.literal c)
  | .param name => .core (.load name)
  | .lift c => .core (.lift c)
  | .grade g => .projectGrade g
  | .toClass => .core .toClass
  | .ring op mode => .core (.ring op mode)

/-- The instructions of a leaf. -/
def ofLeaf (leaf : Leaf) : List ElementOp :=
  ofAtom leaf.atom :: leaf.applied.map fun f => .core (.transform f)

/-! ## Running -/

/-- A value of a run. -/
inductive Cell where
  | number (r : Register)
  | element (x : Element)
  deriving DecidableEq, Repr

namespace Cell

/-- The element of a value; a number is lifted. -/
def toElement : Cell → Except ExecutionError Element
  | .number r => ofRank (Element.lift r.value)
  | .element x => .ok x

/-- The class of a value; an element has to have rank one. -/
def classValue : Cell → Except ExecutionError Int
  | .number r => .ok r.value
  | .element x => return ((← ofRank x.project : Nat) : Int)

def transform (f : Transform) : Cell → Cell
  | .number r => .number (r.transform f)
  | .element x => .element (f.actElement x)

def outcome : Cell → Outcome
  | .number r => r.outcome
  | .element x => .element x

end Cell

/-- What an instruction leads to: a state to go on with, or the end without an answer. -/
inductive Next where
  | state (cell : Option Cell)
  | absent
  deriving DecidableEq, Repr

/-- The left operand of a ring operation: the value so far, or else a parameter. -/
def leftValue (p : Params) : Option Cell → Except ExecutionError Int
  | some cell => cell.classValue
  | none => p.operand leftOperand

/-- A parameter as a value. -/
def load (p : Params) (name : String) : Except ExecutionError Cell := do
  match ← p.require name with
  | .int n => return .number (.ofInt n)
  | .element x => return .element x

/-- An instruction of the algebra: it needs a value, and works on it as an element. -/
def onElement (operation : String) (state : Option Cell)
    (f : Element → Except AlgebraError Element) : Except ExecutionError Next := do
  match state with
  | none => .error (.missingOperand operation)
  | some cell => return .state (some (.element (← ofAlgebra (f (← cell.toElement)))))

/-- An instruction of class plans. -/
def coreStep (p : Params) (state : Option Cell) : ClassOp → Except ExecutionError Next
  | .literal c => .ok (.state (some (.number (.plain c))))
  | .lift c => return .state (some (.element (← ofRank (Element.lift c))))
  | .load name => return .state (some (← load p name))
  | .ring op mode => do
    let left ← leftValue p state
    let right ← p.operand rightOperand
    return .state (some (.number (.ring op mode left right)))
  | .transform f => .ok (.state (state.map (Cell.transform f)))
  | .toClass =>
    match state with
    | none => .error .projectionInput
    | some (.number r) => .ok (.state (some (.number r)))
    | some (.element x) =>
      match x.project? with
      | some c => .ok (.state (some (.number (.plain c))))
      | none => .ok .absent

/-- One instruction. -/
def step (p : Params) (state : Option Cell) : ElementOp → Except ExecutionError Next
  | .core op => coreStep p state op
  | .projectGrade g => onElement "projectGrade" state fun x => .ok (x.gradePart g)
  | .multiply y => onElement "multiply" state fun x => x.mul y
  | .add y => onElement "add" state fun x => x.add y
  | .scale k => onElement "scale" state fun x => x.scale k
  | .cross y => onElement "cross" state fun x => x.cross y

/-- The outcome of a final state. -/
def finish : Option Cell → Outcome
  | some cell => cell.outcome
  | none => .fallback

/-- Runs a plan from a state. -/
def runFrom (p : Params) (state : Option Cell) : List ElementOp → Except ExecutionError Outcome
  | [] => .ok (finish state)
  | op :: rest => do
    match ← step p state op with
    | .state cell => runFrom p cell rest
    | .absent => return .absent

/-- Runs a plan. -/
def run (ops : List ElementOp) (p : Params) : Except ExecutionError Outcome := runFrom p none ops

end ElementOp

/-- The element plan of a term. -/
def Term.elementPlan (t : Term) : List ElementOp := t.leaves.flatMap ElementOp.ofLeaf

end NinetySix
