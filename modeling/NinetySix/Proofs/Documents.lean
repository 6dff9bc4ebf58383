import NinetySix.Proofs.Lexemes

set_option autoImplicit false

/-! # Documents, their tokens and their text

Every document is read back from its own tokens (`Document.ofTokens?_tokens`). The reader keeps a
stack of open containers; the induction says that the tokens of a document, read where a value is
due, leave the stack as it was and the document complete (`Document.Reads`).

A value without floating-point numbers is printed with the tokens of `Value.document`
(`Value.scans_prettyAt`), so the document of the printed text is that one
(`Value.parse?_pretty`).
-/

namespace NinetySix.Json

/-- A function that goes through a list entry by entry is a map. -/
theorem eq_map_of_cons {α β : Type} {f : α → β} {g : List α → List β} (hnil : g [] = [])
    (hcons : ∀ a l, g (a :: l) = f a :: g l) (l : List α) : g l = l.map f := by
  induction l with
  | nil => exact hnil
  | cons a l ih => rw [hcons, ih, List.map_cons]

/-! ## Reading tokens -/

namespace Document

/-- Induction over the entries of containers. -/
theorem induct {P : Document → Prop} (null : P .null) (bool : ∀ b, P (.bool b))
    (number : ∀ n, P (.number n)) (string : ∀ s, P (.string s))
    (array : ∀ items, (∀ doc ∈ items, P doc) → P (.array items))
    (object : ∀ fields, (∀ f ∈ fields, P f.2) → P (.object fields)) (doc : Document) : P doc :=
  @Document.rec P (fun items => ∀ doc ∈ items, P doc) (fun fields => ∀ f ∈ fields, P f.2)
    (fun f => P f.2) null bool number string array object
    (List.forall_mem_nil _) (fun _ _ h hs => List.forall_mem_cons.mpr ⟨h, hs⟩)
    (List.forall_mem_nil _) (fun _ _ h hs => List.forall_mem_cons.mpr ⟨h, hs⟩)
    (fun _ _ h => h) doc

mutual

/-- The tokens of a document. -/
def tokens : Document → List Token
  | .null => [.null]
  | .bool b => [.bool b]
  | .number n => [.number n]
  | .string s => [.string s]
  | .array items => .openBracket :: (Token.commaSeparated (itemTokens items) ++ [.closeBracket])
  | .object fields => .openBrace :: (Token.commaSeparated (fieldTokens fields) ++ [.closeBrace])

/-- The tokens of each entry of an array. -/
def itemTokens : List Document → List (List Token)
  | [] => []
  | doc :: rest => tokens doc :: itemTokens rest

/-- The tokens of each entry of an object. -/
def fieldTokens : List (List Piece × Document) → List (List Token)
  | [] => []
  | (k, doc) :: rest => (.string k :: .colon :: tokens doc) :: fieldTokens rest

end

theorem itemTokens_eq_map (items : List Document) : itemTokens items = items.map tokens :=
  eq_map_of_cons rfl (fun _ _ => rfl) items

theorem fieldTokens_eq_map (fields : List (List Piece × Document)) :
    fieldTokens fields = fields.map fun f => .string f.1 :: .colon :: tokens f.2 :=
  eq_map_of_cons rfl (fun _ _ => rfl) fields

/-- Where a value is due, the tokens of the document complete it. -/
def Reads (doc : Document) : Prop :=
  ∀ (frames : List Frame) (rest : List Token),
    (doc.tokens ++ rest).foldlM Reading.step (.value frames) =
      rest.foldlM Reading.step (.complete doc frames)

/-- The first token of a document does not close an array, so the first item of an array is read
as any other. -/
theorem foldlM_firstItem (doc : Document) (frames : List Frame) (rest : List Token) :
    (doc.tokens ++ rest).foldlM Reading.step (.firstItem frames) =
      (doc.tokens ++ rest).foldlM Reading.step (.value (.array [] :: frames)) := by
  cases doc <;> simp [tokens, Reading.step]

theorem foldlM_moreItems {items : List Document} (h : ∀ doc ∈ items, Reads doc) (doc : Document)
    (done : List Document) (frames : List Frame) (rest : List Token) :
    ((items.flatMap fun item => .comma :: item.tokens) ++ .closeBracket :: rest).foldlM
        Reading.step (.complete doc (.array done :: frames)) =
      rest.foldlM Reading.step (.complete (.array (done.reverse ++ doc :: items)) frames) := by
  induction items generalizing doc done with
  | nil => simp [Reading.step]
  | cons item items ih =>
      obtain ⟨hitem, hitems⟩ := List.forall_mem_cons.mp h
      simp only [List.flatMap_cons, List.cons_append, List.append_assoc, List.foldlM_cons,
        Reading.step, Option.bind_eq_bind, Option.bind_some]
      rw [hitem, ih hitems]
      simp

theorem foldlM_moreFields {fields : List (List Piece × Document)} (h : ∀ f ∈ fields, Reads f.2)
    (key : List Piece) (doc : Document) (done : List (List Piece × Document))
    (frames : List Frame) (rest : List Token) :
    ((fields.flatMap fun f => .comma :: .string f.1 :: .colon :: f.2.tokens)
        ++ .closeBrace :: rest).foldlM
        Reading.step (.complete doc (.object done key :: frames)) =
      rest.foldlM Reading.step
        (.complete (.object (done.reverse ++ (key, doc) :: fields)) frames) := by
  induction fields generalizing key doc done with
  | nil => simp [Reading.step]
  | cons f fields ih =>
      obtain ⟨hf, hfields⟩ := List.forall_mem_cons.mp h
      simp only [List.flatMap_cons, List.cons_append, List.append_assoc, List.foldlM_cons,
        Reading.step, Option.bind_eq_bind, Option.bind_some]
      rw [hf, ih hfields]
      simp

theorem reads_array {items : List Document} (h : ∀ doc ∈ items, Reads doc) :
    Reads (.array items) := by
  intro frames rest
  cases items with
  | nil => simp [tokens, itemTokens, Token.commaSeparated, Reading.step, Reading.begin?]
  | cons doc items =>
      obtain ⟨hdoc, hitems⟩ := List.forall_mem_cons.mp h
      have hmore := foldlM_moreItems hitems doc [] frames rest
      simp only [tokens, itemTokens_eq_map, List.map_cons, Token.commaSeparated, List.flatMap_map,
        List.cons_append, List.append_assoc, List.nil_append, List.foldlM_cons, Reading.step,
        Reading.begin?, Option.bind_eq_bind, Option.bind_some]
      rw [foldlM_firstItem, hdoc, hmore]
      rfl

theorem reads_object {fields : List (List Piece × Document)} (h : ∀ f ∈ fields, Reads f.2) :
    Reads (.object fields) := by
  intro frames rest
  cases fields with
  | nil => simp [tokens, fieldTokens, Token.commaSeparated, Reading.step, Reading.begin?]
  | cons f fields =>
      obtain ⟨hf, hfields⟩ := List.forall_mem_cons.mp h
      have hmore := foldlM_moreFields hfields f.1 f.2 [] frames rest
      simp only [tokens, fieldTokens_eq_map, List.map_cons, Token.commaSeparated,
        List.flatMap_map, List.cons_append, List.append_assoc, List.nil_append, List.foldlM_cons,
        Reading.step, Reading.begin?, Option.bind_eq_bind, Option.bind_some]
      rw [hf, hmore]
      rfl

theorem reads (doc : Document) : Reads doc := by
  induction doc using Document.induct with
  | null => intro frames rest; rfl
  | bool b => intro frames rest; rfl
  | number n => intro frames rest; rfl
  | string s => intro frames rest; rfl
  | array items ih => exact reads_array ih
  | object fields ih => exact reads_object ih

/-- **Every document is read back from its tokens.** -/
theorem ofTokens?_tokens (doc : Document) : ofTokens? doc.tokens = some doc := by
  have h := reads doc [] []
  rw [List.append_nil] at h
  rw [ofTokens?, h]
  rfl

end Document

/-! ## Scanning the text of values -/

namespace Value

/-- Induction over the entries of containers. -/
theorem induct {P : Value → Prop} (null : P .null) (bool : ∀ b, P (.bool b))
    (int : ∀ n, P (.int n)) (double : ∀ x, P (.double x)) (string : ∀ s, P (.string s))
    (array : ∀ items, (∀ v ∈ items, P v) → P (.array items))
    (object : ∀ fields, (∀ f ∈ fields, P f.2) → P (.object fields)) (v : Value) : P v :=
  @Value.rec P (fun items => ∀ v ∈ items, P v) (fun fields => ∀ f ∈ fields, P f.2)
    (fun f => P f.2) null bool int double string array object
    (List.forall_mem_nil _) (fun _ _ h hs => List.forall_mem_cons.mpr ⟨h, hs⟩)
    (List.forall_mem_nil _) (fun _ _ h hs => List.forall_mem_cons.mpr ⟨h, hs⟩)
    (fun _ _ h => h) v

mutual

/-- No floating-point number stands in the value, at any depth. -/
def doubleFree : Value → Bool
  | .double _ => false
  | .array items => doubleFreeItems items
  | .object fields => doubleFreeFields fields
  | _ => true

/-- The same for the entries of an array. -/
def doubleFreeItems : List Value → Bool
  | [] => true
  | v :: rest => doubleFree v && doubleFreeItems rest

/-- The same for the entries of an object. -/
def doubleFreeFields : List (String × Value) → Bool
  | [] => true
  | (_, v) :: rest => doubleFree v && doubleFreeFields rest

end

theorem doubleFree_array {items : List Value} :
    doubleFree (.array items) = true ↔ ∀ v ∈ items, v.doubleFree = true := by
  rw [doubleFree]
  induction items with
  | nil => simp [doubleFreeItems]
  | cons v rest ih => rw [doubleFreeItems, Bool.and_eq_true, ih, List.forall_mem_cons]

theorem doubleFree_object {fields : List (String × Value)} :
    doubleFree (.object fields) = true ↔ ∀ f ∈ fields, f.2.doubleFree = true := by
  rw [doubleFree]
  induction fields with
  | nil => simp [doubleFreeFields]
  | cons f rest ih => rw [doubleFreeFields, Bool.and_eq_true, ih, List.forall_mem_cons]

mutual

/-- The document that a value without floating-point numbers is written as. What is written for
a floating-point number is left open: null stands in its place. -/
def document : Value → Document
  | .null => .null
  | .bool b => .bool b
  | .int n => .number (.ofInt n)
  | .double _ => .null
  | .string s => .string (pieces s)
  | .array items => .array (itemDocuments items)
  | .object fields => .object (fieldDocuments fields)

/-- The documents of the entries of an array. -/
def itemDocuments : List Value → List Document
  | [] => []
  | v :: rest => document v :: itemDocuments rest

/-- The documents of the entries of an object. -/
def fieldDocuments : List (String × Value) → List (List Piece × Document)
  | [] => []
  | (k, v) :: rest => (pieces k, document v) :: fieldDocuments rest

end

theorem document_array (items : List Value) :
    document (.array items) = .array (items.map document) :=
  congrArg Document.array (eq_map_of_cons (g := itemDocuments) rfl (fun _ _ => rfl) items)

theorem document_object (fields : List (String × Value)) :
    document (.object fields) = .object (fields.map fun f => (pieces f.1, document f.2)) :=
  congrArg Document.object (eq_map_of_cons (g := fieldDocuments) rfl (fun _ _ => rfl) fields)

theorem prettyItems_eq_map (depth : Nat) (items : List Value) :
    prettyItems depth items = items.map (prettyAt depth) :=
  eq_map_of_cons (by rw [prettyItems]) (fun _ _ => by rw [prettyItems]) items

theorem prettyFields_eq_map (depth : Nat) (fields : List (String × Value)) :
    prettyFields depth fields =
      fields.map fun f => writeString f.1 ++ ": " ++ prettyAt depth f.2 :=
  eq_map_of_cons (by rw [prettyFields]) (fun _ _ => by rw [prettyFields]) fields

theorem scans_array {items : List Value}
    (h : ∀ v ∈ items, ∀ depth, Token.Scans (v.prettyAt depth) v.document.tokens) (depth : Nat) :
    Token.Scans (prettyAt depth (.array items)) (document (.array items)).tokens := by
  have hopen : Token.Mark '[' .openBracket := ⟨rfl, fun _ => rfl⟩
  have hclose : Token.Mark ']' .closeBracket := ⟨rfl, fun _ => rfl⟩
  rw [document_array, Document.tokens, Document.itemTokens_eq_map, List.map_map]
  cases items with
  | nil => exact Token.scans_empty hopen hclose
  | cons v rest =>
      rw [prettyAt, prettyItems_eq_map]
      exact Token.scans_entries hopen hclose (fun v hv => h v hv (depth + 1)) depth

theorem scans_object {fields : List (String × Value)}
    (h : ∀ f ∈ fields, ∀ depth, Token.Scans (f.2.prettyAt depth) f.2.document.tokens)
    (depth : Nat) :
    Token.Scans (prettyAt depth (.object fields)) (document (.object fields)).tokens := by
  have hopen : Token.Mark '\x7b' .openBrace := ⟨rfl, fun _ => rfl⟩
  have hclose : Token.Mark '\x7d' .closeBrace := ⟨rfl, fun _ => rfl⟩
  have hfield : ∀ f ∈ fields, Token.Scans (writeString f.1 ++ ": " ++ f.2.prettyAt (depth + 1))
      (.string (pieces f.1) :: .colon :: f.2.document.tokens) :=
    fun f hf => Token.scans_field f.1 (h f hf (depth + 1))
  rw [document_object, Document.tokens, Document.fieldTokens_eq_map, List.map_map]
  cases fields with
  | nil => exact Token.scans_empty hopen hclose
  | cons f rest =>
      rw [prettyAt, prettyFields_eq_map]
      exact Token.scans_entries hopen hclose hfield depth

/-- **A value without floating-point numbers is printed with the tokens of its document.** -/
theorem scans_prettyAt {v : Value} (hv : v.doubleFree = true) (depth : Nat) :
    Token.Scans (v.prettyAt depth) v.document.tokens := by
  induction v using Value.induct generalizing depth with
  | null =>
      have htext : "null".toList = ['n', 'u', 'l', 'l'] := rfl
      exact Token.scans_of_next? htext rfl fun _ => rfl
  | bool b =>
      cases b with
      | false =>
          have htext : "false".toList = ['f', 'a', 'l', 's', 'e'] := rfl
          exact Token.scans_of_next? htext rfl fun _ => rfl
      | true =>
          have htext : "true".toList = ['t', 'r', 'u', 'e'] := rfl
          exact Token.scans_of_next? htext rfl fun _ => rfl
  | int n => exact Token.scans_int n
  | double x => exact absurd hv Bool.false_ne_true
  | string s => exact Token.scans_writeString s
  | array items ih =>
      exact scans_array (fun v hmem => ih v hmem (doubleFree_array.mp hv v hmem)) depth
  | object fields ih =>
      exact scans_object (fun f hmem => ih f hmem (doubleFree_object.mp hv f hmem)) depth

/-- The printed text of a value is one document. -/
theorem parse?_pretty {v : Value} (hv : v.doubleFree = true) :
    Document.parse? v.pretty = some v.document := by
  have hscan := scans_prettyAt hv 0 [] Token.stops_nil
  have hempty : Token.scan [] = some [] := by rw [Token.scan]; rfl
  rw [List.append_nil, hempty, Option.map_some, List.append_nil] at hscan
  rw [Document.parse?, pretty, hscan]
  exact Document.ofTokens?_tokens v.document

end Value

end NinetySix.Json
