import NinetySix.Term.Basic
import NinetySix.Text.Numeral

set_option autoImplicit false

/-! # Tiers and backends

A term is classified by four signals into one of four tiers:

* `C0`: a single atom that is compiled, reads no input and projects no grade;
* `C1`: no grade projection, and at most five sequential steps deep;
* `C2`: a grade projection, and at most five sequential steps deep;
* `C3`: deeper than that.

Unless a preference says otherwise, the tiers `C0` and `C1` run on the class backend, the others on
the element backend.
-/

namespace NinetySix

inductive Tier where
  | c0
  | c1
  | c2
  | c3
  deriving DecidableEq, Repr

namespace Tier

def name : Tier → String
  | .c0 => "C0"
  | .c1 => "C1"
  | .c2 => "C2"
  | .c3 => "C3"

/-- The tier with the given name, which has to be spelt exactly. -/
def ofName (s : String) : Except LoweringError Tier :=
  if s = "C0" then .ok .c0
  else if s = "C1" then .ok .c1
  else if s = "C2" then .ok .c2
  else if s = "C3" then .ok .c3
  else .error (.invalidHint s)

end Tier

inductive Backend where
  | byClass
  | byElement
  deriving DecidableEq, Repr

def Backend.name : Backend → String
  | .byClass => "class"
  | .byElement => "sga"

/-- The choice of a backend: one of the two, or whichever the tier asks for. -/
inductive Preference where
  | use (backend : Backend)
  | auto
  deriving DecidableEq, Repr

namespace Preference

def name : Preference → String
  | .use b => b.name
  | .auto => "auto"

/-- The preference with exactly the given name. -/
def ofName? (s : String) : Option Preference :=
  if s = "class" then some (.use .byClass)
  else if s = "sga" then some (.use .byElement)
  else if s = "auto" then some .auto
  else none

/-- A preference that is not known, in lower case. -/
structure Unknown where
  name : String
  deriving DecidableEq, Repr

def Unknown.message (u : Unknown) : String := "unknown backend preference: " ++ u.name

/-- The preference with the given name in any case. -/
def read (s : String) : Except Unknown Preference :=
  match ofName? (Text.lowerAscii s) with
  | some p => .ok p
  | none => .error ⟨Text.lowerAscii s⟩

end Preference

/-! ## Signals -/

structure Signals where
  seqDepth : Nat
  classPure : Bool
  readsInput : Bool
  singleAtom : Bool
  deriving DecidableEq, Repr

namespace Term

/-- The greatest number of sequential compositions above an atom. -/
def seqDepth : Term → Nat
  | .atom _ => 0
  | .seq l r => 1 + max l.seqDepth r.seqDepth
  | .par l r => max l.seqDepth r.seqDepth
  | .transform _ t => t.seqDepth

/-- No atom projects a grade. -/
def classPure (t : Term) : Bool := t.atoms.all fun a => !a.isGrade

/-- Some atom reads what is given when the program runs. -/
def readsInput (t : Term) : Bool := t.atoms.any Atom.readsInput

def signals (t : Term) : Signals where
  seqDepth := t.seqDepth
  classPure := t.classPure
  readsInput := t.readsInput
  singleAtom := t.isAtom

end Term

/-- The greatest sequential depth below the last tier. -/
def maxSeqDepth : Nat := 5

/-- The tier of a term with the given signals. -/
def Signals.tier (s : Signals) (compiled : Bool) : Tier :=
  if maxSeqDepth < s.seqDepth then .c3
  else if s.singleAtom && compiled && !s.readsInput && s.classPure then .c0
  else if s.classPure then .c1
  else .c2

/-- The tier of a term. -/
def Term.tier (t : Term) (compiled : Bool) : Tier := t.signals.tier compiled

/-- The backend that a preference gives to a tier. -/
def Preference.select : Preference → Tier → Backend
  | .use b, _ => b
  | .auto, .c0 => .byClass
  | .auto, .c1 => .byClass
  | .auto, .c2 => .byElement
  | .auto, .c3 => .byElement

end NinetySix
