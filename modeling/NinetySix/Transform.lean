import NinetySix.Algebra.Rank

set_option autoImplicit false

/-! # Transforms

A transform is a power of one of three commuting turns, rotation, triality and twist, or the
mirror. A turn has a finite order, and exponents count modulo it; they are kept as written until
they are reduced. Transforms act on coordinates, on class indices and on elements.
-/

namespace NinetySix

/-- The three turns, in the order in which normal forms apply them from the outside in. -/
inductive Axis where
  | rotate
  | triality
  | twist
  deriving DecidableEq, Repr

namespace Axis

def order : Axis → Nat
  | .rotate => 4
  | .triality => 3
  | .twist => 8

/-- The place in the order of normal forms. -/
def rank : Axis → Nat
  | .rotate => 0
  | .triality => 1
  | .twist => 2

def symbol : Axis → String
  | .rotate => "R"
  | .triality => "D"
  | .twist => "T"

/-- The turn by `k` steps on coordinates. -/
def turn : Axis → Coordinates → Int → Coordinates
  | .rotate => Coordinates.rotate
  | .triality => Coordinates.triality
  | .twist => Coordinates.twist

/-- The turn by `k` steps on elements. -/
def turnElement : Axis → Element → Int → Element
  | .rotate => Element.rotate
  | .triality => Element.triality
  | .twist => Element.twist

end Axis

inductive Transform where
  | power (axis : Axis) (exponent : Nat)
  | mirror
  deriving DecidableEq, Repr

namespace Transform

/-- A power of a turn with its exponent reduced. -/
def ofInt (axis : Axis) (k : Int) : Transform := .power axis (k % axis.order).toNat

def exponent : Transform → Nat
  | .power _ k => k
  | .mirror => 1

def order : Transform → Nat
  | .power a _ => a.order
  | .mirror => 2

/-- The transform moves nothing. -/
def isIdentity (f : Transform) : Bool := f.exponent % f.order == 0

/-- The exponent is smaller than the order. -/
def isReduced (f : Transform) : Bool := f.exponent < f.order

/-- The same transform with its exponent reduced. -/
def reduced : Transform → Transform
  | .power a k => .power a (k % a.order)
  | .mirror => .mirror

def text : Transform → String
  | .power a k => a.symbol ++ "^" ++ toString k
  | .mirror => "M"

/-! ## Actions -/

/-- The action on coordinates. -/
def act : Transform → Coordinates → Coordinates
  | .power a k, c => a.turn c k
  | .mirror, c => c.mirror

/-- The action on class indices, which count modulo 96. -/
def actClass (f : Transform) (index : Nat) : Nat := (f.act (.ofClass index)).classIndex

/-- The action on elements. -/
def actElement : Transform → Element → Element
  | .power a k, x => a.turnElement x k
  | .mirror, x => x.mirror

end Transform

end NinetySix
