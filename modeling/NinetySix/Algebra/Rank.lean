import NinetySix.Algebra.Element

set_option autoImplicit false

/-! # Classes as elements

A class lifts to the element that has its quadrant and its modality as residues, and the blade of
its slot with coefficient one. Elements of this form have *rank one*, and they project back to
their class; every other element projects to nothing.
-/

namespace NinetySix

/-- Failures to go between classes and elements. -/
inductive RankError where
  | composite (element : Element)
  | invalidClass (index : Int)
  deriving DecidableEq, Repr

def RankError.message : RankError → String
  | .composite x => "element is not rank-1 and has no class index: " ++ x.text
  | .invalidClass i => s!"invalid class index: {i} (must be 0..=95)"

namespace Element

/-- The element with given coordinates. -/
def ofCoordinates (c : Coordinates) : Element :=
  ⟨c.quadrant, c.modality.toFin, .term (Blade.ofSlot c.slot) 1⟩

/-- The element of a class. -/
def lift (index : Nat) : Except RankError Element :=
  if index < classCount then .ok (ofCoordinates (.ofClass index)) else .error (.invalidClass index)

/-- The slot of an element of rank one: its only term is a slot with coefficient one. -/
def slot? (x : Element) : Option (Fin 8) :=
  match x.clifford.terms with
  | [(b, 1)] => b.slot?
  | _ => none

/-- The coordinates of an element of rank one. -/
def coordinates? (x : Element) : Option Coordinates :=
  x.slot?.map fun s => ⟨x.z4, .ofFin x.z3, s⟩

/-- The class of an element of rank one. -/
def project? (x : Element) : Option Nat := x.coordinates?.map Coordinates.classIndex

/-- The class of an element, or the reason why there is none. -/
def project (x : Element) : Except RankError Nat :=
  match x.project? with
  | some c => .ok c
  | none => .error (.composite x)

end Element

end NinetySix
