set_option autoImplicit false

/-! # Basis blades

A basis blade is a product of distinct generators `e₁, …, e₇` in ascending order, given by the set
of its generators: bit `i` stands for `e` with index `i + 1`. Generators anticommute and square to
one, so the product of two blades is, up to sign, the blade of the symmetric difference; the sign
counts the transpositions that sort the factors.
-/

namespace NinetySix

/-- A set of the seven generators. -/
abbrev Blade := BitVec 7

namespace Blade

/-- The blade with the given bits; a bit beyond the seventh is dropped. -/
def ofBits (bits : Nat) : Blade := BitVec.ofNat 7 bits

/-- The blade without generators. -/
def scalar : Blade := 0#7

/-- A single generator. -/
def generator (i : Fin 7) : Blade := BitVec.ofNat 7 (Nat.pow 2 i.val)

/-- The generators of a blade, ascending. -/
def generators (b : Blade) : List (Fin 7) := (List.finRange 7).filter fun i => b.getLsb i

/-- The number of generators. -/
def grade (b : Blade) : Nat := b.generators.length

/-- The generator that the blade consists of, if it is a single one. -/
def generator? (b : Blade) : Option (Fin 7) :=
  match b.generators with
  | [i] => some i
  | _ => none

/-- The transpositions that sort the generators of `a` followed by those of `b`: the pairs of a
generator of `a` and a smaller generator of `b`. -/
def swaps (a b : Blade) : Nat :=
  (a.generators.flatMap fun i => b.generators.filter (· < i)).length

/-- The sign of the product of two blades. -/
def sign (a b : Blade) : Int := if swaps a b % 2 = 0 then 1 else -1

/-- The product of two blades without its sign. -/
def product (a b : Blade) : Blade := a ^^^ b

/-! ## Slots

The scalar and the seven generators are the eight slots of the context ring, in this order. -/

/-- The blade of a slot. -/
def ofSlot (s : Fin 8) : Blade := BitVec.ofNat 7 (Nat.pow 2 s.val / 2)

/-- The slot of a blade of grade zero or one. -/
def slot? (b : Blade) : Option (Fin 8) := (List.finRange 8).find? fun s => ofSlot s == b

def text (b : Blade) : String :=
  if b = scalar then "1"
  else "e" ++ String.join (b.generators.map fun i => toString (i.val + 1))

end Blade

end NinetySix
