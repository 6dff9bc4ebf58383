import NinetySix.Normal.Rule

set_option autoImplicit false

/-! # Derivations

A *sweep* goes over a term once. It treats the parts of a node before the node and fires at most one
rule at each node; only at a mirror are the rules tried first, and if one fires, the parts are left
for the next sweep. Sweeps are repeated until one fires nothing.

The result is a `Derivation`: the last term, and the rules that were fired, in their order.
`derive` fails when the sweeps do not come to rest within a given number; `normalize` takes
whatever the default number of sweeps gives.
-/

namespace NinetySix

/-- The term that was reached, and the rules that led to it. -/
structure Derivation where
  term : Term
  trace : List Rule
  deriving DecidableEq, Repr

namespace Derivation

/-- The number of rules that were fired. -/
def count (d : Derivation) : Nat := d.trace.length

/-- Some rule was fired. -/
def changed (d : Derivation) : Bool := !d.trace.isEmpty

end Derivation

/-- The sweeps did not come to rest within the given number. -/
structure SweepLimit where
  limit : Nat
  deriving DecidableEq, Repr

def SweepLimit.message (e : SweepLimit) : String :=
  s!"normalization did not converge within {e.limit} passes"

namespace Rule

/-- Fires at the root, after the rules in `trace` were fired below it. -/
def settle (rules : List Rule) (t : Term) (trace : List Rule) : Derivation :=
  match fire? rules t with
  | some (r, t') => ⟨t', trace ++ [r]⟩
  | none => ⟨t, trace⟩

/-- One sweep. -/
def sweep (rules : List Rule) : Term → Derivation
  | .atom a => settle rules (.atom a) []
  | .seq l r =>
    let dl := sweep rules l
    let dr := sweep rules r
    settle rules (.seq dl.term dr.term) (dl.trace ++ dr.trace)
  | .par l r =>
    let dl := sweep rules l
    let dr := sweep rules r
    settle rules (.par dl.term dr.term) (dl.trace ++ dr.trace)
  | .transform (.power a k) t =>
    let d := sweep rules t
    settle rules (.transform (.power a k) d.term) d.trace
  | .transform .mirror t =>
    match fire? rules (.transform .mirror t) with
    | some (r, t') => ⟨t', [r]⟩
    | none =>
      let d := sweep rules t
      settle rules (.transform .mirror d.term) d.trace

/-- Sweeps until one fires nothing, but at most `n` times. The flag says whether the sweeps came to
rest. -/
def iterate (rules : List Rule) : Nat → Term → Derivation × Bool
  | 0, t => (⟨t, []⟩, false)
  | n + 1, t =>
    let d := sweep rules t
    if d.trace.isEmpty then (d, true)
    else
      let (rest, rested) := iterate rules n d.term
      (⟨rest.term, d.trace ++ rest.trace⟩, rested)

/-- The derivation to a normal form within `limit` sweeps, the last of which fires nothing. -/
def derive (rules : List Rule) (limit : Nat) (t : Term) : Except SweepLimit Derivation :=
  match iterate rules limit t with
  | (d, true) => .ok d
  | (_, false) => .error ⟨limit⟩

/-- No rule applies anywhere in the term. -/
def isNormal (rules : List Rule) : Term → Bool
  | .atom a => (fire? rules (.atom a)).isNone
  | .seq l r => (fire? rules (.seq l r)).isNone && isNormal rules l && isNormal rules r
  | .par l r => (fire? rules (.par l r)).isNone && isNormal rules l && isNormal rules r
  | .transform f t => (fire? rules (.transform f t)).isNone && isNormal rules t

end Rule

/-- The number of sweeps unless another is asked for. -/
def defaultSweeps : Nat := 10000

/-- The term that the standard rules reach within the default number of sweeps. -/
def Term.normalize (t : Term) : Term := (Rule.iterate Rule.standard defaultSweeps t).1.term

end NinetySix
