import NinetySix.Term.Basic

set_option autoImplicit false

/-! # Leaves

The leaves of a term are its atoms from left to right, each with the chain of the transforms above
it, the outermost first. Lowering sees a term only through its leaves.
-/

namespace NinetySix

structure Leaf where
  atom : Atom
  chain : List Transform
  deriving DecidableEq, Repr

namespace Leaf

/-- The leaf below one more transform. -/
def under (f : Transform) (leaf : Leaf) : Leaf := { leaf with chain := f :: leaf.chain }

/-- The transforms in the order in which they are applied, the innermost first. -/
def applied (leaf : Leaf) : List Transform := leaf.chain.reverse

end Leaf

/-- The leaves of a term from left to right. -/
def Term.leaves : Term → List Leaf
  | .atom a => [⟨a, []⟩]
  | .seq l r => l.leaves ++ r.leaves
  | .par l r => l.leaves ++ r.leaves
  | .transform f t => t.leaves.map (Leaf.under f)

end NinetySix
