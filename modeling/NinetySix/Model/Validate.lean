import NinetySix.Model.Descriptor
import NinetySix.Text.Blank

set_option autoImplicit false

/-! # Validation

Validation looks at a descriptor without compiling it and lists everything that is wrong with it,
in the order of the fields. A descriptor is valid when the list is empty.
-/

namespace NinetySix.Descriptor

open Json (Value)

/-- What can be wrong with a descriptor. -/
inductive Finding where
  | emptyName
  | emptyNamespace
  | badVersion (version : String)
  | badHint (cause : LoweringError)
  | emptyRuntimeParam
  | repeatedRuntimeParam (name : String)
  | badOverflow (value : Value)
  deriving Repr

def Finding.message : Finding → String
  | .emptyName => "name must not be empty"
  | .emptyNamespace => "namespace must not be empty"
  | .badVersion v => "version " ++ Text.quoted v ++ " is not MAJOR.MINOR.PATCH"
  | .badHint cause => cause.message
  | .emptyRuntimeParam => "runtime parameter names must not be empty"
  | .repeatedRuntimeParam name => "duplicate runtime parameter: " ++ name
  | .badOverflow v => "overflow must be \"drop\" or \"track\", got " ++ v.compact

/-- A list cut at every occurrence of a character; there is always one piece more than cuts. -/
def splitAtChar (sep : Char) : List Char → List (List Char)
  | [] => [[]]
  | c :: rest =>
    if c = sep then [] :: splitAtChar sep rest
    else
      match splitAtChar sep rest with
      | [] => [[c]]
      | piece :: pieces => (c :: piece) :: pieces

/-- Three non-empty runs of ASCII digits with dots between them. -/
def isVersion (s : String) : Bool :=
  let parts := splitAtChar '.' s.toList
  parts.length == 3 && parts.all fun part => !part.isEmpty && part.all Text.isDigit

/-- The findings about runtime parameter names, after the names in `seen`. A blank name is not
remembered, so it is found each time as blank. -/
def runtimeFindings (seen : List String) : List String → List Finding
  | [] => []
  | name :: rest =>
    if Text.allBlank name then .emptyRuntimeParam :: runtimeFindings seen rest
    else if seen.contains name then .repeatedRuntimeParam name :: runtimeFindings seen rest
    else runtimeFindings (name :: seen) rest

/-- The finding about the hint, if it names no tier. -/
def hintFindings (d : Descriptor) : List Finding :=
  match d.complexityHint with
  | none => []
  | some h =>
    match Tier.ofName h with
    | .ok _ => []
    | .error e => [.badHint e]

/-- The finding about the overflow mode, if it is none. -/
def overflowFindings (d : Descriptor) : List Finding :=
  match Table.find? overflowField d.compiledParams with
  | none => []
  | some v => if (modeOf? v).isSome then [] else [.badOverflow v]

/-- All findings. -/
def findings (d : Descriptor) : List Finding :=
  (if Text.allBlank d.name then [.emptyName] else [])
    ++ (if Text.allBlank d.namespaceName then [.emptyNamespace] else [])
    ++ (if isVersion d.version then [] else [.badVersion d.version])
    ++ d.hintFindings
    ++ runtimeFindings [] d.runtimeParams
    ++ d.overflowFindings

/-- Nothing is wrong. -/
def isValid (d : Descriptor) : Bool := d.findings.isEmpty

end NinetySix.Descriptor
