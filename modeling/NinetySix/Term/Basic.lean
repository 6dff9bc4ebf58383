import NinetySix.Text.Blank
import NinetySix.Transform

set_option autoImplicit false

/-! # Terms

A term is the program that is normalised, classified and lowered:

    term      ::= atom | seq term term | par term term | transform term

The constructors of `Term` build any tree, also one whose exponents are not reduced or whose class
literals are out of range. The functions `Term.literal`, `Term.lift`, `Term.grade`, `Term.param` and
`Term.transformed` check what they are given, and a term built with them has neither.
-/

namespace NinetySix

/-- What happens to the overflow of a ring operation: it is dropped, or tracked in the result. -/
inductive OverflowMode where
  | drop
  | track
  deriving DecidableEq, Repr

def OverflowMode.name : OverflowMode → String
  | .drop => "drop"
  | .track => "track"

/-- The operations of the ring of integers modulo 96. -/
inductive RingOp where
  | add
  | sub
  | mul
  deriving DecidableEq, Repr

def RingOp.name : RingOp → String
  | .add => "add96"
  | .sub => "sub96"
  | .mul => "mul96"

/-- The exact result of an operation on integers. -/
def RingOp.eval : RingOp → Int → Int → Int
  | .add, a, b => a + b
  | .sub, a, b => a - b
  | .mul, a, b => a * b

inductive Atom where
  /-- A class. -/
  | literal (index : Nat)
  /-- A parameter that is given when the program runs. -/
  | param (name : String)
  /-- A class as an element. -/
  | lift (index : Nat)
  /-- Keeps the terms of one grade. -/
  | grade (g : Nat)
  /-- Projects to a class. -/
  | toClass
  /-- A ring operation on the value so far and a parameter. -/
  | ring (op : RingOp) (mode : OverflowMode)
  deriving DecidableEq, Repr

namespace Atom

def isRing : Atom → Bool
  | .ring _ _ => true
  | _ => false

/-- The atom depends on what is given when the program runs. -/
def readsInput : Atom → Bool
  | .ring _ _ => true
  | .param _ => true
  | _ => false

def isGrade : Atom → Bool
  | .grade _ => true
  | _ => false

/-- A class index in two digits, or three if it has them. -/
def classText (index : Nat) : String :=
  "c" ++ (if index < 10 then "0" else "") ++ toString index

def text : Atom → String
  | .literal c => classText c
  | .param name => "$" ++ name
  | .lift c => "lift(" ++ classText c ++ ")"
  | .grade g => "grade(" ++ toString g ++ ")"
  | .toClass => "class"
  | .ring op mode => op.name ++ "[" ++ mode.name ++ "]"

end Atom

inductive Term where
  | atom (a : Atom)
  | seq (left right : Term)
  | par (left right : Term)
  | transform (f : Transform) (body : Term)
  deriving DecidableEq, Repr

namespace Term

/-! ## Checked constructors -/

def literal (n : Int) : Except ConstructionError Term :=
  return .atom (.literal (← checkedClass n))

def lift (n : Int) : Except ConstructionError Term :=
  return .atom (.lift (← checkedClass n))

def grade (g : Int) : Except ConstructionError Term :=
  if 0 ≤ g ∧ g ≤ 7 then .ok (.atom (.grade g.toNat)) else .error (.invalidGrade g)

/-- A parameter, whose name must not be blank. -/
def param (name : String) : Except ConstructionError Term :=
  if Text.allBlank name then .error (.invalidParameter name) else .ok (.atom (.param name))

/-- A transformed term: the exponent is reduced, and an identity leaves no trace. -/
def transformed (f : Transform) (t : Term) : Term :=
  if f.isIdentity then t else .transform f.reduced t

/-! ## Measures and views -/

def isAtom : Term → Bool
  | .atom _ => true
  | _ => false

/-- The number of nodes. -/
def size : Term → Nat
  | .atom _ => 1
  | .seq l r => 1 + l.size + r.size
  | .par l r => 1 + l.size + r.size
  | .transform _ t => 1 + t.size

/-- The number of transform nodes. -/
def transformCount : Term → Nat
  | .atom _ => 0
  | .seq l r => l.transformCount + r.transformCount
  | .par l r => l.transformCount + r.transformCount
  | .transform _ t => 1 + t.transformCount

/-- The atoms from left to right. -/
def atoms : Term → List Atom
  | .atom a => [a]
  | .seq l r => l.atoms ++ r.atoms
  | .par l r => l.atoms ++ r.atoms
  | .transform _ t => t.atoms

def text : Term → String
  | .atom a => a.text
  | .seq l r => "(" ++ l.text ++ " ; " ++ r.text ++ ")"
  | .par l r => "(" ++ l.text ++ " || " ++ r.text ++ ")"
  | .transform f t => f.text ++ "(" ++ t.text ++ ")"

end Term

end NinetySix
