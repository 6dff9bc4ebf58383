import NinetySix.Algebra.Blade
import NinetySix.Algebra.Coefficient
import NinetySix.Algebra.Fano
import NinetySix.Table

set_option autoImplicit false

/-! # Multivectors

A multivector is a table from blades to coefficients. The table of a *canonical* multivector
ascends, holds no zero and only coefficients of 64 bits; all operations keep this. `Multivector.coeff`
is the view through which multivectors are compared: the coefficient of every blade, zero for those
that are absent.

Sums and products are built from one operation, `Multivector.accumulate`, which adds a term to a
multivector and fails when the sum does not fit. Both products go through the pairs of terms in
ascending order, those of the left factor outermost, and gather what the pairs contribute.
-/

namespace NinetySix

structure Multivector where
  terms : Table Blade Int
  deriving DecidableEq, Repr

namespace Multivector

/-- The blades ascend, no coefficient is zero, and every coefficient fits 64 bits. -/
structure Canonical (m : Multivector) : Prop where
  ascending : Table.Ascending m.terms
  nonzero : ∀ t ∈ m.terms, t.2 ≠ 0
  inRange : ∀ t ∈ m.terms, InRange t.2

def zero : Multivector := ⟨[]⟩

/-- The multivector with one term, or zero. -/
def term (b : Blade) (c : Int) : Multivector := if c = 0 then zero else ⟨[(b, c)]⟩

/-- A multiple of the scalar blade. -/
def scalar (c : Int) : Multivector := term Blade.scalar c

def isZero (m : Multivector) : Bool := m.terms.isEmpty

/-- The number of terms. -/
def size (m : Multivector) : Nat := m.terms.length

/-- The coefficient of a blade. -/
def coeff (m : Multivector) (b : Blade) : Int := (Table.find? b m.terms).getD 0

/-- Replaces the coefficient of a blade; a zero removes its term. -/
def setCoeff (m : Multivector) (b : Blade) (c : Int) : Multivector :=
  if c = 0 then ⟨Table.erase b m.terms⟩ else ⟨Table.insert b c m.terms⟩

theorem coeff_setCoeff {m : Multivector} (h : Table.Ascending m.terms) (b b' : Blade) (c : Int) :
    (m.setCoeff b c).coeff b' = if b' = b then c else m.coeff b' := by
  unfold setCoeff
  by_cases hc : c = 0
  · rw [if_pos hc]
    by_cases hb : b' = b
    · subst hb
      simp [coeff, Table.find?_erase_self b' h, hc]
    · simp [coeff, Table.find?_erase_of_ne hb, hb]
  · rw [if_neg hc]
    by_cases hb : b' = b
    · subst hb
      simp [coeff, Table.find?_insert_self]
    · simp [coeff, Table.find?_insert_of_ne hb, hb]

theorem Canonical.setCoeff {m : Multivector} (h : m.Canonical) (b : Blade) {c : Int}
    (hc : InRange c) : (m.setCoeff b c).Canonical := by
  unfold Multivector.setCoeff
  by_cases h0 : c = 0
  · rw [if_pos h0]
    exact ⟨Table.ascending_erase b h.ascending,
      fun t ht => h.nonzero t (Table.mem_of_mem_erase ht),
      fun t ht => h.inRange t (Table.mem_of_mem_erase ht)⟩
  · rw [if_neg h0]
    refine ⟨Table.ascending_insert b c h.ascending, fun t ht => ?_, fun t ht => ?_⟩
    · rcases Table.mem_insert ht with rfl | ht
      · exact h0
      · exact h.nonzero t ht
    · rcases Table.mem_insert ht with rfl | ht
      · exact hc
      · exact h.inRange t ht

/-- Adds a term. A zero coefficient changes nothing. -/
def accumulate (m : Multivector) (b : Blade) (c : Int) : Except AlgebraError Multivector :=
  if c = 0 then .ok m else (checked (m.coeff b + c)).map (m.setCoeff b)

/-- Adds a list of terms one after the other. -/
def accumulateAll (m : Multivector) (terms : List (Blade × Int)) : Except AlgebraError Multivector :=
  terms.foldlM (fun m t => m.accumulate t.1 t.2) m

/-! ## Linear operations -/

def add (x y : Multivector) : Except AlgebraError Multivector := x.accumulateAll y.terms

/-- Applies a checked map to every coefficient, and drops the zeros that arise. -/
def mapCoeffs (m : Multivector) (f : Blade → Int → Except AlgebraError Int) :
    Except AlgebraError Multivector := do
  let terms ← m.terms.mapM fun t => return (t.1, ← f t.1 t.2)
  return ⟨terms.filter fun t => t.2 ≠ 0⟩

def scale (m : Multivector) (k : Int) : Except AlgebraError Multivector :=
  m.mapCoeffs fun _ c => checked (c * k)

/-- Changes the sign of the coefficients of certain grades. -/
def negateGrades (m : Multivector) (negated : Nat → Bool) : Except AlgebraError Multivector :=
  m.mapCoeffs fun b c => if negated b.grade then checked (-c) else .ok c

/-- The terms of one grade. -/
def gradePart (m : Multivector) (g : Nat) : Multivector := ⟨m.terms.filter fun t => t.1.grade == g⟩

/-- Moves every coefficient to another blade. The map of blades has to be injective. -/
def mapBlades (m : Multivector) (f : Blade → Blade) : Multivector :=
  ⟨Table.ofList (m.terms.map fun t => (f t.1, t.2))⟩

/-! ## Products -/

/-- A contribution to a product: a blade, a sign, and the coefficients of the two factors. -/
structure Contribution where
  blade : Blade
  sign : Int
  left : Int
  right : Int
  deriving DecidableEq, Repr

/-- The exact coefficient that a contribution adds. -/
def Contribution.value (c : Contribution) : Int := c.left * c.right * c.sign

/-- Adds a contribution; the product is checked before and after its sign. -/
def contribute (m : Multivector) (c : Contribution) : Except AlgebraError Multivector := do
  let p ← checked (c.left * c.right)
  let q ← checked (p * c.sign)
  m.accumulate c.blade q

/-- The sum of the contributions in their order. -/
def gather (cs : List Contribution) : Except AlgebraError Multivector := cs.foldlM contribute zero

/-- The contributions to the geometric product. -/
def geometric (x y : Multivector) : List Contribution :=
  x.terms.flatMap fun s => y.terms.map fun t =>
    ⟨s.1.product t.1, s.1.sign t.1, s.2, t.2⟩

/-- The geometric product. -/
def mul (x y : Multivector) : Except AlgebraError Multivector := gather (geometric x y)

/-- The contribution of two terms to the cross product; none unless both are generators, and
different. -/
def crossTerm (s t : Blade × Int) : Except AlgebraError (Option Contribution) :=
  match s.1.generator?, t.1.generator? with
  | some i, some j => do
    let product ← Fano.crossPoints i j
    return product.map fun p => ⟨Blade.generator p.1, p.2, s.2, t.2⟩
  | _, _ => .ok none

/-- Adds the contribution of two terms to the cross product. -/
def contributeCross (m : Multivector) (p : (Blade × Int) × Blade × Int) :
    Except AlgebraError Multivector := do
  match ← crossTerm p.1 p.2 with
  | some c => m.contribute c
  | none => return m

/-- The cross product of the grade-one parts, over the same pairs of terms as the geometric
product. -/
def cross (x y : Multivector) : Except AlgebraError Multivector :=
  (x.terms.flatMap fun s => y.terms.map fun t => (s, t)).foldlM contributeCross zero

/-! ## Text -/

/-- The negative of a coefficient in a word of 64 bits. The least word has no other negative than
itself. -/
def negated (c : Int) : Int := Int.bmod (-c) 0x10000000000000000

/-- A term with its sign in front; the first term of a text has no plus sign. -/
def termText (first : Bool) (t : Blade × Int) : String :=
  let sign := match first, decide (t.2 < 0) with
    | true, false => ""
    | true, true => "-"
    | false, false => " + "
    | false, true => " - "
  sign ++ toString (if t.2 < 0 then negated t.2 else t.2) ++ "·" ++ t.1.text

def text (m : Multivector) : String :=
  match m.terms with
  | [] => "0"
  | t :: rest => termText true t ++ String.join (rest.map (termText false))

end Multivector

end NinetySix
