set_option autoImplicit false

/-! # Binary floating-point numbers, exactly

A finite number of the 64-bit binary format is a sign, a mantissa below `2 ^ 53` and an
exponent of two. All arithmetic here is on natural numbers: `Binary64.nearest` rounds an exact
quotient once, to the nearest representable number, and products, quotients and powers of ten
are that rounding applied to an exact value.

`Binary64.ofDecimal?` reads a decimal `digits · 10 ^ scale` in two roundings: the digits are
rounded first, and the result is then multiplied or divided by a rounded power of ten.
-/

namespace NinetySix

/-- The number `± mantissa · 2 ^ exponent`. The two zeros differ in their sign. -/
structure Binary64 where
  negative : Bool
  mantissa : Nat
  exponent : Int
  deriving DecidableEq, Repr

namespace Binary64

/-- The least exponent of two, that of the subnormal numbers. -/
def minExponent : Int := -1074

/-- The greatest exponent of two of a finite number. -/
def maxExponent : Int := 971

/-- The quotient rounded to the nearest natural number, a half to the even neighbour. -/
def roundDiv (num den : Nat) : Nat :=
  let q := num / den
  let r := num % den
  if 2 * r < den then q
  else if den < 2 * r then q + 1
  else if q % 2 = 0 then q else q + 1

/-- `num / den` as a quotient of natural numbers in units of `2 ^ e`. -/
def inUnits (num den : Nat) (e : Int) : Nat × Nat :=
  if 0 ≤ e then (num, den * Nat.pow 2 e.toNat) else (num * Nat.pow 2 (-e).toNat, den)

/-- The exponent of two in whose units `num / den` has 53 binary digits, but never below the
least exponent. -/
def unitExponent (num den : Nat) : Int :=
  let e : Int := (num.log2 : Int) - (den.log2 : Int) - 53
  let (n, d) := inUnits num den e
  max minExponent (if Nat.pow 2 53 ≤ n / d then e + 1 else e)

/-- The representable number nearest to `num / den`, a tie going to the even mantissa; none
when that is beyond the finite numbers. -/
def nearest (negative : Bool) (num den : Nat) : Option Binary64 :=
  if num = 0 then some ⟨negative, 0, minExponent⟩
  else
    let e := unitExponent num den
    let (n, d) := inUnits num den e
    let m := roundDiv n d
    let (m, e) := if m = Nat.pow 2 53 then (Nat.pow 2 52, e + 1) else (m, e)
    if maxExponent < e then none else some ⟨negative, m, e⟩

/-- The number is a zero of either sign. -/
def isZero (x : Binary64) : Bool := x.mantissa == 0

/-- The magnitude as an exact quotient. -/
def ratio (x : Binary64) : Nat × Nat :=
  if 0 ≤ x.exponent then (x.mantissa * Nat.pow 2 x.exponent.toNat, 1)
  else (x.mantissa, Nat.pow 2 (-x.exponent).toNat)

/-- The product, rounded once; none when it is too large. The sign is that of `x`. -/
def scaleUp (x y : Binary64) : Option Binary64 :=
  nearest x.negative (x.ratio.1 * y.ratio.1) (x.ratio.2 * y.ratio.2)

/-- The quotient, rounded once. The sign is that of `x`. -/
def scaleDown (x y : Binary64) : Option Binary64 :=
  nearest x.negative (x.ratio.1 * y.ratio.2) (x.ratio.2 * y.ratio.1)

/-- The greatest power of ten that is a finite number. -/
def maxPower : Nat := 308

/-- `10 ^ k`, rounded. -/
def powerOfTen (k : Nat) : Option Binary64 := nearest false (Nat.pow 10 k) 1

/-- Divides `n` times by the greatest finite power of ten, or until a zero is reached. -/
def divMaxPower (x : Binary64) : Nat → Option Binary64
  | 0 => some x
  | n + 1 =>
    if x.isZero then some x
    else do divMaxPower (← x.scaleDown (← powerOfTen maxPower)) n

/-- `x / 10 ^ k`, where a power beyond the greatest finite one is divided off in steps. -/
def divPowerOfTen (x : Binary64) (k : Nat) : Option Binary64 := do
  let steps := (k - 1) / maxPower
  (← x.divMaxPower steps).scaleDown (← powerOfTen (k - maxPower * steps))

/-- The decimal `± digits · 10 ^ scale`; none when it is too large for a finite number. -/
def ofDecimal? (negative : Bool) (digits : Nat) (scale : Int) : Option Binary64 := do
  let x ← nearest negative digits 1
  if scale < 0 then x.divPowerOfTen (-scale).toNat
  else if x.isZero then some x
  else if maxPower < scale.toNat then none
  else x.scaleUp (← powerOfTen scale.toNat)

/-- Equality of values: the sign of a zero does not count. -/
def sameValue (x y : Binary64) : Bool := x = y || (x.isZero && y.isZero)

end Binary64

end NinetySix
