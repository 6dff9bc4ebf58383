import NinetySix.Digest.Blake3
import NinetySix.Model.Compile

set_option autoImplicit false

/-! # Model keys

A key stands for everything that compilation depends on: the name and the version, the compiled
parameters and the schema by their digests, the preference that counts, the hint, the runtime
parameters and whether the model is compiled ahead. The namespace is not part of it.
-/

namespace NinetySix

structure Key where
  name : String
  version : String
  paramsHash : String
  schemaHash : Option String
  preference : Preference
  complexityHint : Option String
  runtimeParams : List String
  compiled : Bool
  deriving DecidableEq, Repr

namespace Key

/-- The text of the compiled parameters that is hashed. -/
def paramsText (d : Descriptor) : String := (Json.Value.object d.compiledParams).compact

/-- The key of a descriptor. -/
def of (d : Descriptor) (schema : Option String) (o : Options) : Key where
  name := d.name
  version := d.version
  paramsHash := Blake3.hexDigest (paramsText d)
  schemaHash := schema.map Blake3.hexDigest
  preference := d.preference o
  complexityHint := d.complexityHint
  runtimeParams := d.runtimeParams
  compiled := o.compiled

/-- The first sixteen characters of a digest. -/
def short (hash : String) : String := String.ofList (hash.toList.take 16)

def text (k : Key) : String :=
  k.name ++ "@" ++ k.version ++ "#" ++ short k.paramsHash
    ++ (match k.schemaHash with | some h => "/" ++ short h | none => "")
    ++ "[" ++ k.preference.name
    ++ (match k.complexityHint with | some h => "," ++ h | none => "")
    ++ (if k.compiled then "" else ",runtime")
    ++ "]"

end Key

end NinetySix
