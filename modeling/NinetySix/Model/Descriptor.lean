import NinetySix.Json.Printer
import NinetySix.Tier

set_option autoImplicit false

/-! # Model descriptors

A descriptor names a recipe and carries its parameters: those that are compiled in, a table of JSON
values, and the names of those that are given when the model runs. It may hint at a tier and prefer
a backend.

A descriptor is written as a JSON object with seven fields (`Descriptor.toJson`). It is read from
such an object, in which fields may stand in any order, unknown fields are skipped and all but the
first three may be left out; or from an array of the fields in their order, which may end after the
third (`Descriptor.ofJson?`). A skipped field only has to be grammatical.
-/

namespace NinetySix

open Json (Value Document)

structure Descriptor where
  name : String
  version : String
  namespaceName : String
  compiledParams : Table String Value
  runtimeParams : List String
  complexityHint : Option String
  backend : Option Preference
  deriving Repr

namespace Descriptor

/-- How deep the containers of a descriptor may be nested, its own among them. -/
def maxDepth : Nat := 127

/-! ## Reading the fields -/

/-- A string. -/
def readString? : Document → Option String
  | .string s => Json.stringOfPieces? s
  | _ => none

/-- An object of parameters, which stands one level inside the descriptor. -/
def readParams? (doc : Document) : Option (Table String Value) :=
  match Value.ofDocument? (maxDepth - 1) doc with
  | some (.object fields) => some fields
  | _ => none

/-- A list of strings. -/
def readStrings? : Document → Option (List String)
  | .array items => items.mapM readString?
  | _ => none

/-- A value or null, which stands for none. -/
def readOptional? {α : Type} (read : Document → Option α) : Document → Option (Option α)
  | .null => some none
  | doc => (read doc).map some

/-- A choice among names: the name as a string, or an object with the name as its only key and null
as its value. -/
def readChoice? : Document → Option String
  | .string s => Json.stringOfPieces? s
  | .object [(k, .null)] => Json.stringOfPieces? k
  | _ => none

/-- A preference. -/
def readPreference? (doc : Document) : Option Preference := do
  Preference.ofName? (← readChoice? doc)

/-! ## The two forms -/

/-- A descriptor from its fields; a missing field has its default, if it may be missing. -/
def ofFields? (name version namespaceName params runtime hint backend : Option Document) :
    Option Descriptor := do
  return {
    name := ← readString? (← name)
    version := ← readString? (← version)
    namespaceName := ← readString? (← namespaceName)
    compiledParams := ← (params.map readParams?).getD (some [])
    runtimeParams := ← (runtime.map readStrings?).getD (some [])
    complexityHint := ← (hint.map (readOptional? readString?)).getD (some none)
    backend := ← (backend.map (readOptional? readPreference?)).getD (some none) }

/-- The names of the fields in their order. -/
def fieldNames : List String :=
  ["name", "version", "namespace", "compiledParams", "runtimeParams", "complexityHint", "backend"]

/-- No field of a descriptor is given twice. -/
def fieldsDistinct (keys : List String) : Bool :=
  fieldNames.all fun f => keys.count f ≤ 1

/-- A descriptor from the fields of an object. -/
def ofObject? (fields : List (List Json.Piece × Document)) : Option Descriptor := do
  let fields ← fields.mapM fun (k, v) => return (← Json.stringOfPieces? k, v)
  if !fieldsDistinct (fields.map Prod.fst) then none
  else
    let get (f : String) : Option Document := Table.find? f fields
    ofFields? (get "name") (get "version") (get "namespace") (get "compiledParams")
      (get "runtimeParams") (get "complexityHint") (get "backend")

/-- A descriptor from the entries of an array. -/
def ofArray? (items : List Document) : Option Descriptor :=
  if fieldNames.length < items.length then none
  else ofFields? items[0]? items[1]? items[2]? items[3]? items[4]? items[5]? items[6]?

/-- The descriptor that a JSON text describes. -/
def ofJson? (text : String) : Option Descriptor := do
  match ← Document.parse? text with
  | .object fields => ofObject? fields
  | .array items => ofArray? items
  | _ => none

/-! ## Writing -/

/-- The fields of the descriptor in their order; absent optional fields are left out. -/
def fields (d : Descriptor) : List (String × Value) :=
  [("name", .string d.name),
    ("version", .string d.version),
    ("namespace", .string d.namespaceName),
    ("compiledParams", .object d.compiledParams),
    ("runtimeParams", .array (d.runtimeParams.map .string))]
    ++ (d.complexityHint.map fun h => ("complexityHint", Value.string h)).toList
    ++ (d.backend.map fun b => ("backend", Value.string b.name)).toList

/-- The descriptor as a JSON object. -/
def toValue (d : Descriptor) : Value := .object d.fields

/-- The descriptor as JSON text over several lines. -/
def toJson (d : Descriptor) : String := d.toValue.pretty

/-- The two descriptors are equal. -/
def same (d e : Descriptor) : Bool :=
  d.name == e.name && d.version == e.version && d.namespaceName == e.namespaceName
    && Value.sameFields d.compiledParams e.compiledParams && d.runtimeParams == e.runtimeParams
    && d.complexityHint == e.complexityHint && d.backend == e.backend

/-! ## Parameters -/

/-- A compiled parameter that has to be an integer of 64 bits, if it is given. -/
def intParam (d : Descriptor) (field : String) : Except ConstructionError (Option Int) :=
  match Table.find? field d.compiledParams with
  | none => .ok none
  | some (.int n) =>
    if InRange n then .ok (some n)
    else .error (.invalidField field ("expected an integer, got " ++ (Value.int n).compact))
  | some v => .error (.invalidField field ("expected an integer, got " ++ v.compact))

/-- A compiled parameter that has to be given. -/
def requiredInt (d : Descriptor) (field : String) : Except ConstructionError Int := do
  match ← d.intParam field with
  | some n => return n
  | none => .error (.invalidField field "required")

/-- The overflow mode that a value names, as a string or as the only key of an object with the
value null. -/
def modeOf? : Value → Option OverflowMode
  | .string s => byName? s
  | .object [(k, .null)] => byName? k
  | _ => none
where
  byName? (s : String) : Option OverflowMode :=
    if s = "drop" then some .drop else if s = "track" then some .track else none

/-- The name of the compiled parameter for the overflow mode. -/
def overflowField : String := "overflow"

/-- The overflow mode; overflow is dropped unless the descriptor says otherwise. -/
def overflowMode (d : Descriptor) : Except ConstructionError OverflowMode :=
  match Table.find? overflowField d.compiledParams with
  | none => .ok .drop
  | some v =>
    match modeOf? v with
    | some m => .ok m
    | none => .error (.invalidField overflowField ("expected \"drop\" or \"track\", got " ++ v.compact))

end Descriptor

end NinetySix
