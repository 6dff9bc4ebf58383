import NinetySix.Json.Token

set_option autoImplicit false

/-! # Documents

A `Document` is the tree of a JSON text before its numbers and strings are given a meaning.
`Document.parse?` reads the tokens from left to right with one step function, `Reading.step`; the
containers that are still open are kept in a list of frames. A text is accepted exactly when it is
one JSON value in the grammar, whatever its depth.
-/

namespace NinetySix.Json

/-- The tree of a JSON text. Object fields keep their order and their repetitions. -/
inductive Document where
  | null
  | bool (b : Bool)
  | number (n : Numeral)
  | string (s : List Piece)
  | array (items : List Document)
  | object (fields : List (List Piece × Document))
  deriving Repr

namespace Document

/-- A container that is still open, with its finished entries in reverse order. -/
inductive Frame where
  | array (done : List Document)
  | object (done : List (List Piece × Document)) (key : List Piece)

/-- What has been read, and so what may follow. -/
inductive Reading where
  /-- A value has to follow. -/
  | value (frames : List Frame)
  /-- An array was opened: a value or the closing bracket follows. -/
  | firstItem (frames : List Frame)
  /-- An object was opened: a key or the closing brace follows. -/
  | firstKey (frames : List Frame)
  /-- A comma in an object was read: a key follows. -/
  | key (done : List (List Piece × Document)) (frames : List Frame)
  /-- A key was read: a colon follows. -/
  | colon (done : List (List Piece × Document)) (key : List Piece) (frames : List Frame)
  /-- A value was read in full: a comma, a closing token or the end follows. -/
  | complete (value : Document) (frames : List Frame)

namespace Reading

/-- A token where a value is due. -/
def begin? (frames : List Frame) : Token → Option Reading
  | .null => some (.complete .null frames)
  | .bool b => some (.complete (.bool b) frames)
  | .number n => some (.complete (.number n) frames)
  | .string s => some (.complete (.string s) frames)
  | .openBracket => some (.firstItem frames)
  | .openBrace => some (.firstKey frames)
  | _ => none

/-- One token. -/
def step : Reading → Token → Option Reading
  | .value frames, t => begin? frames t
  | .firstItem frames, .closeBracket => some (.complete (.array []) frames)
  | .firstItem frames, t => begin? (.array [] :: frames) t
  | .firstKey frames, .closeBrace => some (.complete (.object []) frames)
  | .firstKey frames, .string k => some (.colon [] k frames)
  | .key done frames, .string k => some (.colon done k frames)
  | .colon done k frames, .colon => some (.value (.object done k :: frames))
  | .complete v (.array done :: frames), .comma => some (.value (.array (v :: done) :: frames))
  | .complete v (.array done :: frames), .closeBracket =>
    some (.complete (.array (v :: done).reverse) frames)
  | .complete v (.object done k :: frames), .comma => some (.key ((k, v) :: done) frames)
  | .complete v (.object done k :: frames), .closeBrace =>
    some (.complete (.object ((k, v) :: done).reverse) frames)
  | _, _ => none

/-- The document, when the text may end here. -/
def document? : Reading → Option Document
  | .complete v [] => some v
  | _ => none

end Reading

/-- The document of a list of tokens. -/
def ofTokens? (ts : List Token) : Option Document := do
  (← ts.foldlM Reading.step (.value [])).document?

/-- The document of a text. -/
def parse? (text : String) : Option Document := do
  ofTokens? (← Token.scan text.toList)

end Document

/-! ## What strings denote -/

/-- The text of a written string. Escapes are 16-bit units: two surrogates in the right order
make one character, and a surrogate without its partner denotes nothing. -/
def textOfPieces? : List Piece → Option (List Char)
  | [] => some []
  | .char c :: rest => (textOfPieces? rest).map (c :: ·)
  | .unit n :: rest =>
    if 0xdc00 ≤ n ∧ n ≤ 0xdfff then none
    else if 0xd800 ≤ n ∧ n ≤ 0xdbff then
      match rest with
      | .unit m :: rest =>
        if 0xdc00 ≤ m ∧ m ≤ 0xdfff then
          (textOfPieces? rest).map
            (Char.ofNat (0x10000 + (n - 0xd800) * 0x400 + (m - 0xdc00)) :: ·)
        else none
      | _ => none
    else (textOfPieces? rest).map (Char.ofNat n :: ·)

/-- The string of a written string. -/
def stringOfPieces? (s : List Piece) : Option String := (textOfPieces? s).map String.ofList

end NinetySix.Json
