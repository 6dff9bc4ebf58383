import NinetySix.Decimal.Binary64
import NinetySix.Json.Document
import NinetySix.Table

set_option autoImplicit false

/-! # JSON values

A `Value` is what a document denotes. An integer that fits a signed or an unsigned 64-bit word
stays an integer; every other number, and minus zero, becomes a binary floating-point number.
The fields of an object are a table: sorted, and of a repeated key the last one counts.

`Value.ofDocument?` fails on a number too large for a floating-point number, on a lone surrogate,
and on containers nested deeper than it is told to go.
-/

namespace NinetySix.Json

inductive Value where
  | null
  | bool (b : Bool)
  | int (n : Int)
  | double (x : Binary64)
  | string (s : String)
  | array (items : List Value)
  | object (fields : List (String × Value))
  deriving Repr

/-! ## What numbers denote -/

namespace Numeral

/-- The leading digits whose value, continuing from `n`, fits a 64-bit word; the value and the
digits that are left. -/
def absorb (n : Nat) : List Char → Nat × List Char
  | [] => (n, [])
  | c :: rest =>
    let n' := 10 * n + (c.toNat - '0'.toNat)
    if n' < UInt64.size then absorb n' rest else (n, c :: rest)

/-- The exponent as an integer. -/
def exponentValue (x : Numeral) : Int :=
  match x.exponent with
  | none => 0
  | some (negative, ds) =>
    let n : Int := Text.digitsValue ds
    if negative then -n else n

/-- The floating-point number of a numeral. Digits are taken in as long as their value fits a
64-bit word. A digit before the point that is not taken in counts as a factor of ten; one after
the point is dropped. -/
def toDouble? (x : Numeral) : Option Binary64 :=
  let (n, left) := absorb 0 x.whole
  let fraction := x.fraction.getD []
  let (n, unread) := absorb n fraction
  let scale : Int := (left.length : Int) - ((fraction.length : Int) - (unread.length : Int))
  Binary64.ofDecimal? x.negative n (scale + x.exponentValue)

/-- The value of a numeral. -/
def value? (x : Numeral) : Option Value :=
  match x.fraction, x.exponent with
  | none, none =>
    let n := Text.digitsValue x.whole
    if x.negative then
      if 0 < n ∧ n ≤ 0x8000000000000000 then some (.int (-n)) else x.toDouble?.map .double
    else if n < UInt64.size then some (.int n)
    else x.toDouble?.map .double
  | _, _ => x.toDouble?.map .double

end Numeral

/-! ## What documents denote -/

namespace Value

/-- The value of a document whose containers are nested at most `depth` deep. -/
def ofDocument? : Nat → Document → Option Value
  | _, .null => some .null
  | _, .bool b => some (.bool b)
  | _, .number n => n.value?
  | _, .string s => (stringOfPieces? s).map .string
  | 0, .array _ => none
  | 0, .object _ => none
  | depth + 1, .array items => (items.mapM (ofDocument? depth)).map .array
  | depth + 1, .object fields => do
    let fields ← fields.mapM fun (k, v) => do
      let k ← stringOfPieces? k
      let v ← ofDocument? depth v
      return (k, v)
    return .object (Table.ofList fields)

/-- The value of a text whose containers are nested at most `depth` deep. -/
def parse? (depth : Nat) (text : String) : Option Value := do
  ofDocument? depth (← Document.parse? text)

/-! ## Equality

Numbers are compared by value, so that the two floating-point zeros are equal. -/

mutual

/-- The two values are equal. -/
def same : Value → Value → Bool
  | .null, .null => true
  | .bool a, .bool b => a == b
  | .int a, .int b => a == b
  | .double a, .double b => a.sameValue b
  | .string a, .string b => a == b
  | .array a, .array b => sameItems a b
  | .object a, .object b => sameFields a b
  | _, _ => false

/-- The two lists have equal values in the same places. -/
def sameItems : List Value → List Value → Bool
  | [], [] => true
  | a :: as, b :: bs => same a b && sameItems as bs
  | _, _ => false

/-- The two lists have the same keys with equal values in the same places. -/
def sameFields : List (String × Value) → List (String × Value) → Bool
  | [], [] => true
  | (j, a) :: as, (k, b) :: bs => j == k && same a b && sameFields as bs
  | _, _ => false

end

end Value

end NinetySix.Json
