import NinetySix.Algebra.Multivector
import NinetySix.Coordinates

set_option autoImplicit false

/-! # Elements

An element is a residue modulo four, a residue modulo three and a multivector. Sums and products
add the residues and act on the multivectors; the three involutions change the sign of some grades.
Rotation, triality and mirror act on the residues, and the twist turns the ring of the eight slots,
which are the scalar and the generators, leaving all higher grades in place.
-/

namespace NinetySix

structure Element where
  z4 : Fin 4
  z3 : Fin 3
  clifford : Multivector
  deriving DecidableEq, Repr

namespace Element

/-- The element with the residues of two integers. -/
def make (z4 z3 : Int) (m : Multivector) : Element := ⟨residue z4, residue z3, m⟩

def zero : Element := make 0 0 .zero

def identity : Element := make 0 0 (.scalar 1)

/-- The multivector part is canonical. -/
def Canonical (x : Element) : Prop := x.clifford.Canonical

/-! ## Ring operations -/

def mul (x y : Element) : Except AlgebraError Element :=
  return ⟨x.z4 + y.z4, x.z3 + y.z3, ← x.clifford.mul y.clifford⟩

/-- The sum; the residues are added too. -/
def add (x y : Element) : Except AlgebraError Element :=
  return ⟨x.z4 + y.z4, x.z3 + y.z3, ← x.clifford.add y.clifford⟩

def cross (x y : Element) : Except AlgebraError Element :=
  return ⟨x.z4 + y.z4, x.z3 + y.z3, ← x.clifford.cross y.clifford⟩

def scale (x : Element) (k : Int) : Except AlgebraError Element :=
  return { x with clifford := ← x.clifford.scale k }

/-- `acc · base ^ n` by squaring. The base is squared only while a digit of `n` is left that needs
the square. -/
def powLoop (acc base : Element) (n : Nat) : Except AlgebraError Element :=
  if n = 0 then .ok acc
  else do
    let acc ← if n % 2 = 1 then acc.mul base else .ok acc
    if n / 2 = 0 then .ok acc
    else powLoop acc (← base.mul base) (n / 2)
termination_by n
decreasing_by omega

/-- The power with an exponent that is not negative. -/
def pow (x : Element) (n : Int) : Except AlgebraError Element :=
  if n < 0 then .error (.negativePower n) else powLoop identity x n.toNat

/-! ## Involutions -/

/-- Changes the sign of the odd grades. -/
def involute (x : Element) : Except AlgebraError Element :=
  return { x with clifford := ← x.clifford.negateGrades fun k => k % 2 = 1 }

/-- Reverses the order of the generators in every blade. -/
def reverse (x : Element) : Except AlgebraError Element :=
  return { x with clifford := ← x.clifford.negateGrades fun k => k * (k - 1) / 2 % 2 = 1 }

/-- The grade involution and the reversion together. -/
def conjugate (x : Element) : Except AlgebraError Element :=
  return { x with clifford := ← x.clifford.negateGrades fun k => k * (k + 1) / 2 % 2 = 1 }

/-! ## Moves -/

def rotate (x : Element) (k : Int) : Element := { x with z4 := shift x.z4 k }

def triality (x : Element) (k : Int) : Element := { x with z3 := shift x.z3 k }

/-- The blade that a twist moves a blade to. -/
def twistBlade (k : Int) (b : Blade) : Blade :=
  match b.slot? with
  | some s => Blade.ofSlot (shift s k)
  | none => b

def twist (x : Element) (k : Int) : Element :=
  { x with clifford := x.clifford.mapBlades (twistBlade k) }

def mirror (x : Element) : Element := { x with z3 := -x.z3 }

/-- The terms of one grade. -/
def gradePart (x : Element) (g : Nat) : Element := { x with clifford := x.clifford.gradePart g }

def text (x : Element) : String :=
  s!"⟨z4={x.z4.val}, z3={x.z3.val} | " ++ x.clifford.text ++ "⟩"

end Element

end NinetySix
