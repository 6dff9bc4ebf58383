import NinetySix.Term.Basic

set_option autoImplicit false

/-! # The rules of normalisation

Six local rules bring a term into normal form. Each looks at a transform node and what stands
directly below it, and either gives a replacement or declines:

* *identity elimination* drops a transform that moves nothing, and reduces an exponent;
* *power folding* joins two powers of the same turn;
* *mirror cancellation* drops a pair of mirrors;
* *mirror conjugation* turns a mirror over a triality or a twist into the inverse of that turn;
* *distribution* moves a transform into both parts of a composition;
* *commutation ordering* puts two turns into the order of their axes.
-/

namespace NinetySix

inductive Rule where
  | identity
  | folding
  | cancellation
  | conjugation
  | distribution
  | ordering
  deriving DecidableEq, Repr

namespace Rule

def name : Rule → String
  | .identity => "identity-elimination"
  | .folding => "power-folding"
  | .cancellation => "mirror-cancellation"
  | .conjugation => "mirror-conjugation"
  | .distribution => "distribution"
  | .ordering => "commutation-ordering"

/-- The rules in the order in which they are tried. -/
def standard : List Rule :=
  [.identity, .folding, .cancellation, .conjugation, .distribution, .ordering]

/-- The rule with the given name. -/
def ofName? (s : String) : Option Rule := standard.find? fun r => r.name == s

/-- Drops an identity, or reduces an exponent. -/
def dropIdentity? : Term → Option Term
  | .transform f t =>
    if f.isIdentity then some t
    else if f.isReduced then none
    else some (.transform f.reduced t)
  | _ => none

/-- Joins two powers of one turn. A sum that moves nothing is left to identity elimination. -/
def foldPowers? : Term → Option Term
  | .transform (.power a j) (.transform (.power b k) t) =>
    if a = b then some (.transform (.ofInt a (j + k)) t) else none
  | _ => none

/-- Drops a pair of mirrors. -/
def cancelMirrors? : Term → Option Term
  | .transform .mirror (.transform .mirror t) => some t
  | _ => none

/-- A mirror over a power of a triality or a twist gives the inverse power. It declines when that
power moves nothing. -/
def conjugateMirror? : Term → Option Term
  | .transform .mirror (.transform (.power a k) t) =>
    if (Transform.power a k).isIdentity ∨ a = .rotate then none
    else some (.transform (.ofInt a (a.order - k)) t)
  | _ => none

/-- Moves a transform into both parts of a composition. -/
def distribute? : Term → Option Term
  | .transform f (.seq l r) => some (.seq (.transform f l) (.transform f r))
  | .transform f (.par l r) => some (.par (.transform f l) (.transform f r))
  | _ => none

/-- Exchanges two turns that stand in the wrong order. -/
def reorder? : Term → Option Term
  | .transform (.power a j) (.transform (.power b k) t) =>
    if b.rank < a.rank then some (.transform (.power b k) (.transform (.power a j) t)) else none
  | _ => none

/-- The replacement that a rule gives for a term, if it applies at the root. -/
def reduct? : Rule → Term → Option Term
  | .identity => dropIdentity?
  | .folding => foldPowers?
  | .cancellation => cancelMirrors?
  | .conjugation => conjugateMirror?
  | .distribution => distribute?
  | .ordering => reorder?

/-- The first rule of a list that applies at the root, with its replacement. -/
def fire? (rules : List Rule) (t : Term) : Option (Rule × Term) :=
  rules.findSome? fun r => (r.reduct? t).map (r, ·)

end Rule

end NinetySix
