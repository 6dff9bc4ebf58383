import NinetySix.Decimal.Binary64

set_option autoImplicit false

/-! # The shortest decimal of a binary number

The reals that round to a given binary number form an interval around it. Among the decimals in
that interval, `Binary64.shortest` takes one with the fewest digits, and of those the nearest to
the number. For each digit count only the two neighbours of the number on that decimal grid have
to be tried: if any point of the grid lies in the interval, one of the two does.

`Binary64.text` lays the digits out: positionally, with at least one digit after the point, when
the first digit stands for a power of ten from `10 ^ -5` to `10 ^ 15`, and with an exponent
otherwise.
-/

namespace NinetySix.Binary64

/-! ## The interval of a number -/

/-- The quarter of the last place of a number with exponent `e`, as a fraction. The ends of the
interval of a number are whole multiples of it. -/
def quarterUnit (e : Int) : Nat × Nat :=
  if 2 ≤ e then (Nat.pow 2 (e - 2).toNat, 1) else (1, Nat.pow 2 (2 - e).toNat)

/-- The lower end of the interval of `m · 2 ^ e`, in quarter units: half a place below, but only
a quarter below a power of two, whose lower neighbour is nearer. -/
def lowEnd (m : Nat) (e : Int) : Nat :=
  if m = Nat.pow 2 52 ∧ minExponent < e then 4 * m - 1 else 4 * m - 2

/-- The upper end of the interval of `m · 2 ^ e`, in quarter units. -/
def highEnd (m : Nat) : Nat := 4 * m + 2

/-- The fraction `num / den` rounds to `m · 2 ^ e`. The ends of the interval do so exactly when
`m` is even. -/
def roundsTo (m : Nat) (e : Int) (num den : Nat) : Bool :=
  let (un, ud) := quarterUnit e
  let n := num * ud
  let d := den * un
  if m % 2 = 0 then lowEnd m e * d ≤ n && n ≤ highEnd m * d
  else lowEnd m e * d < n && n < highEnd m * d

/-! ## Decimal grids -/

/-- The number of decimal digits; one for zero. -/
def decimalLength (n : Nat) : Nat := (Nat.toDigits 10 n).length

/-- The power of ten that the first digit of the positive fraction `num / den` stands for. -/
def leadingPower (num den : Nat) : Int :=
  if den ≤ num then (decimalLength (num / den) : Int) - 1
  else
    let j := decimalLength (den / num) - 1
    if den ≤ num * Nat.pow 10 j then -(j : Int) else -(j : Int) - 1

/-- A fraction times a power of ten. -/
def timesPower (num den : Nat) (k : Int) : Nat × Nat :=
  if 0 ≤ k then (num * Nat.pow 10 k.toNat, den) else (num, den * Nat.pow 10 (-k).toNat)

/-- The multiple of `10 ^ step` that rounds to `m · 2 ^ e`, if there is one. Of two such
neighbours the nearer is taken, and at equal distance the even one. -/
def onGrid? (m : Nat) (e step : Int) : Option Nat :=
  let (num, den) := ratio ⟨false, m, e⟩
  let (n, d) := timesPower num den (-step)
  let below := n / d
  let fits (g : Nat) : Bool :=
    let (gn, gd) := timesPower g 1 step
    roundsTo m e gn gd
  let nearer :=
    if 2 * (n % d) < d then below
    else if d < 2 * (n % d) then below + 1
    else if below % 2 = 0 then below else below + 1
  match fits below, fits (below + 1) with
  | true, true => some nearer
  | true, false => some below
  | false, true => some (below + 1)
  | false, false => none

/-- The decimal `digits · 10 ^ step` with the fewest digits that rounds to the positive number
`m · 2 ^ e`: grids with one digit, with two digits and so on are tried in turn. Seventeen digits
always suffice. -/
def shortest (m : Nat) (e : Int) : Nat × Int :=
  let (num, den) := ratio ⟨false, m, e⟩
  let lead := leadingPower num den
  let grid (count : Nat) : Option (Nat × Int) :=
    let step : Int := lead - (count : Int)
    (onGrid? m e step).map (·, step)
  ((List.range 17).findSome? grid).getD (0, 0)

/-! ## Layout -/

/-- The digits without trailing zeros, and the power of ten of the first of them. -/
def scientific (digits : Nat) (step : Int) : List Char × Int :=
  let ds := Nat.toDigits 10 digits
  ((ds.reverse.dropWhile (· == '0')).reverse, step + (ds.length : Int) - 1)

/-- Digits with the point placed so that the first stands for `10 ^ lead`; at least one digit
stands on either side of the point. -/
def positional (ds : List Char) (lead : Int) : List Char :=
  if lead < 0 then '0' :: '.' :: (List.replicate ((-lead).toNat - 1) '0' ++ ds)
  else
    let whole := lead.toNat + 1
    let padded := ds ++ List.replicate (whole + 1 - ds.length) '0'
    padded.take whole ++ '.' :: padded.drop whole

/-- Digits with a point after the first, if others follow, and a signed exponent. -/
def withExponent (ds : List Char) (lead : Int) : List Char :=
  let mantissa := match ds with
    | d :: rest@(_ :: _) => d :: '.' :: rest
    | ds => ds
  let sign := if lead < 0 then '-' else '+'
  mantissa ++ 'e' :: sign :: Nat.toDigits 10 lead.natAbs

/-- The least and the greatest power of ten of the first digit that is written positionally. -/
def positionalRange : Int × Int := (-5, 15)

/-- The text of a number. -/
def text (x : Binary64) : String :=
  let sign := if x.negative then ['-'] else []
  let magnitude :=
    if x.isZero then ['0', '.', '0']
    else
      let (digits, step) := shortest x.mantissa x.exponent
      let (ds, lead) := scientific digits step
      if positionalRange.1 ≤ lead ∧ lead ≤ positionalRange.2 then positional ds lead
      else withExponent ds lead
  String.ofList (sign ++ magnitude)

end NinetySix.Binary64
