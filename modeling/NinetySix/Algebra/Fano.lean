import NinetySix.Error

set_option autoImplicit false

/-! # The Fano plane

The seven generators are the points of the Fano plane, numbered from zero. Its lines are the
triples `(n, n + 1, n + 3)` modulo seven. Read cyclically a line `(a, b, c)` says
`a × b = c`, `b × c = a` and `c × a = b`, and the reverse order changes the sign. Any two distinct
points lie on one line, so `Fano.crossPoints` refuses none of them.
-/

namespace NinetySix.Fano

/-- The lines, each in its cyclic order. -/
def lines : List (Fin 7 × Fin 7 × Fin 7) := (List.finRange 7).map fun n => (n, n + 1, n + 3)

/-- The three products that a line gives: `(x, y, z)` for `x × y = z`. -/
def products : Fin 7 × Fin 7 × Fin 7 → List (Fin 7 × Fin 7 × Fin 7)
  | (a, b, c) => [(a, b, c), (b, c, a), (c, a, b)]

/-- The cross product of two points with its sign, if there is a line through them. -/
def cross (i j : Fin 7) : Option (Fin 7 × Int) :=
  (lines.flatMap products).findSome? fun (x, y, z) =>
    if (i, j) = (x, y) then some (z, 1)
    else if (i, j) = (y, x) then some (z, -1)
    else none

/-- The point with an index from one to seven. -/
def point (index : Nat) : Except AlgebraError (Fin 7) :=
  if h : 1 ≤ index ∧ index ≤ 7 then .ok ⟨index - 1, by omega⟩ else .error (.invalidGenerator index)

/-- The cross product of two points, none for a point with itself. Two different points without a
line through them are refused. -/
def crossPoints (i j : Fin 7) : Except AlgebraError (Option (Fin 7 × Int)) :=
  if i = j then .ok none
  else
    match cross i j with
    | some p => .ok (some p)
    | none => .error (.invalidGenerator (j.val + 1))

/-- The cross product by indices from one to seven, zero for a point with itself. -/
def crossIndices (i j : Nat) : Except AlgebraError (Nat × Int) := do
  let p ← point i
  let q ← point j
  match ← crossPoints p q with
  | some (r, s) => return (r.val + 1, s)
  | none => return (0, 0)

end NinetySix.Fano
