import NinetySix.Model.Descriptor
import NinetySix.Proofs.Documents
import NinetySix.Proofs.Tables

set_option autoImplicit false

/-! # Descriptors read back from their text

A descriptor that was read from a text, in either form, is read back from the text it is written
as, unless a floating-point number stands among its compiled parameters
(`Descriptor.ofJson?_toJson`).

The reader gives values that are `Value.Readable`: integers of 64 bits, objects with ascending keys
and no more containers around each other than allowed (`Value.readable_of_ofDocument?`). Of
such a value nothing is lost when its document is read again (`Value.ofDocument?_document`), and
the document is that of the printed text.
-/

namespace NinetySix.Json

/-! ## Lists of readings -/

section

variable {α β γ : Type}

theorem exists_of_mem_mapM {f : α → Option β} {l : List α} {r : List β} (h : l.mapM f = some r)
    {b : β} (hb : b ∈ r) : ∃ a ∈ l, f a = some b := by
  induction l generalizing r with
  | nil =>
      cases h
      cases hb
  | cons a l ih =>
      simp only [List.mapM_cons, Option.bind_eq_bind, Option.bind_eq_some_iff] at h
      obtain ⟨b', ha, r', hl, heq⟩ := h
      cases heq
      rcases List.mem_cons.mp hb with rfl | hb
      · exact ⟨a, List.mem_cons_self, ha⟩
      · obtain ⟨a', hmem, ha'⟩ := ih hl hb
        exact ⟨a', List.mem_cons_of_mem _ hmem, ha'⟩

theorem mapM_map_eq_some {f : β → Option γ} {g : α → β} {k : α → γ} {l : List α}
    (h : ∀ a ∈ l, f (g a) = some (k a)) : (l.map g).mapM f = some (l.map k) := by
  induction l with
  | nil => rfl
  | cons a l ih =>
      obtain ⟨ha, hl⟩ := List.forall_mem_cons.mp h
      simp [List.mapM_cons, ha, ih hl]

end

/-! ## Values -/

namespace Value

/-- The values that can be read when containers may be nested `depth` deep. -/
def Readable : Nat → Value → Prop
  | _, .int n => IntegerRange n
  | 0, .array _ => False
  | 0, .object _ => False
  | depth + 1, .array items => ∀ v ∈ items, Readable depth v
  | depth + 1, .object fields => Table.Ascending fields ∧ ∀ f ∈ fields, Readable depth f.2
  | _, _ => True

theorem readable_of_value? {x : Numeral} {v : Value} (h : x.value? = some v) (depth : Nat) :
    v.Readable depth := by
  rcases Numeral.value?_cases h with ⟨n, hn, rfl⟩ | ⟨d, rfl⟩
  · rwa [Readable]
  · simp [Readable]

/-- **What is read is readable.** -/
theorem readable_of_ofDocument? {depth : Nat} {doc : Document} {v : Value}
    (h : ofDocument? depth doc = some v) : v.Readable depth := by
  induction doc using Document.induct generalizing depth v with
  | null =>
      rw [ofDocument?] at h
      cases h
      simp [Readable]
  | bool b =>
      rw [ofDocument?] at h
      cases h
      simp [Readable]
  | number n =>
      rw [ofDocument?] at h
      exact readable_of_value? h depth
  | string s =>
      rw [ofDocument?] at h
      obtain ⟨text, -, rfl⟩ := Option.map_eq_some_iff.mp h
      simp [Readable]
  | array items ih =>
      cases depth with
      | zero => cases h
      | succ depth =>
          obtain ⟨vs, hvs, rfl⟩ := Option.map_eq_some_iff.mp h
          intro v hv
          obtain ⟨item, hmem, hitem⟩ := exists_of_mem_mapM hvs hv
          exact ih item hmem hitem
  | object fields ih =>
      cases depth with
      | zero => cases h
      | succ depth =>
          simp only [ofDocument?, Option.bind_eq_bind, Option.bind_eq_some_iff] at h
          obtain ⟨pairs, hpairs, heq⟩ := h
          cases heq
          refine ⟨Table.ascending_ofList pairs, fun f hf => ?_⟩
          -- an entry of the table is one of the fields that were read
          obtain ⟨field, hmem, hfield⟩ := exists_of_mem_mapM hpairs (Table.mem_of_mem_ofList hf)
          simp only [Option.bind_eq_some_iff] at hfield
          obtain ⟨k, -, v, hv, heq⟩ := hfield
          cases heq
          exact ih field hmem hv

/-- **A readable value is read from its document.** -/
theorem ofDocument?_document {depth : Nat} {v : Value} (hv : v.Readable depth)
    (hfree : v.doubleFree = true) : ofDocument? depth v.document = some v := by
  induction v using Value.induct generalizing depth with
  | null => rw [document, ofDocument?]
  | bool b => rw [document, ofDocument?]
  | int n =>
      rw [Readable] at hv
      rw [document, ofDocument?, Numeral.value?_ofInt hv]
  | double x => exact absurd hfree Bool.false_ne_true
  | string s => rw [document, ofDocument?, stringOfPieces?_pieces, Option.map_some]
  | array items ih =>
      cases depth with
      | zero => exact absurd hv id
      | succ depth =>
          have hitems : ∀ v ∈ items, ofDocument? depth v.document = some v :=
            fun v hmem => ih v hmem (hv v hmem) (doubleFree_array.mp hfree v hmem)
          rw [document_array, ofDocument?, mapM_map_eq_some hitems, List.map_id', Option.map_some]
  | object fields ih =>
      cases depth with
      | zero => exact absurd hv id
      | succ depth =>
          obtain ⟨hasc, hfields⟩ := hv
          have hentries : ∀ f ∈ fields, ofDocument? depth f.2.document = some f.2 :=
            fun f hmem => ih f hmem (hfields f hmem) (doubleFree_object.mp hfree f hmem)
          rw [document_object, ofDocument?, mapM_map_eq_some (k := id)]
          · simp [hasc.ofList_eq]
          · intro f hf
            simp [hentries f hf]

end Value

end NinetySix.Json

namespace NinetySix.Descriptor

open Json (Value Document)

/-! ## Descriptors -/

/-- The compiled parameters of a descriptor are such as can be read: the object that holds them
stands one level inside the descriptor. -/
def Readable (d : Descriptor) : Prop := (Value.object d.compiledParams).Readable (maxDepth - 1)

theorem readable_of_readParams? {doc : Document} {params : Table String Value}
    (h : readParams? doc = some params) : (Value.object params).Readable (maxDepth - 1) := by
  unfold readParams? at h
  split at h
  · next fields hdoc =>
    cases h
    exact Value.readable_of_ofDocument? hdoc
  · cases h

theorem readable_of_ofFields? {name version namespaceName params runtime hint backend :
    Option Document} {d : Descriptor}
    (h : ofFields? name version namespaceName params runtime hint backend = some d) :
    d.Readable := by
  simp only [ofFields?, Option.bind_eq_bind, Option.bind_eq_some_iff] at h
  obtain ⟨_, -, _, -, _, -, _, -, _, -, _, -, fields, hfields, _, -, _, -, _, -, heq⟩ := h
  cases heq
  cases params with
  | none =>
      cases hfields
      exact ⟨List.Pairwise.nil, List.forall_mem_nil _⟩
  | some doc => exact readable_of_readParams? hfields

/-- Whichever form a descriptor is read from, its parameters are readable. -/
theorem readable_of_ofJson? {text : String} {d : Descriptor} (h : ofJson? text = some d) :
    d.Readable := by
  simp only [ofJson?, Option.bind_eq_bind, Option.bind_eq_some_iff] at h
  obtain ⟨doc, -, hdoc⟩ := h
  split at hdoc
  · next fields =>
    simp only [ofObject?, Option.bind_eq_bind, Option.bind_eq_some_iff] at hdoc
    obtain ⟨pairs, -, hpairs⟩ := hdoc
    split at hpairs
    · cases hpairs
    · exact readable_of_ofFields? hpairs
  · next items =>
    unfold ofArray? at hdoc
    split at hdoc
    · cases hdoc
    · exact readable_of_ofFields? hdoc
  · cases hdoc

/-! ### Each field is read back -/

@[simp] theorem readString?_document (s : String) : readString? (Value.string s).document = some s := by
  rw [Value.document, readString?, Json.stringOfPieces?_pieces]

@[simp] theorem readStrings?_document (ss : List String) :
    readStrings? (Value.array (ss.map .string)).document = some ss := by
  have hread : ∀ s ∈ ss, readString? ((Value.document ∘ Value.string) s) = some s :=
    fun s _ => readString?_document s
  rw [Value.document_array, List.map_map, readStrings?, Json.mapM_map_eq_some hread, List.map_id']

theorem readParams?_document {params : Table String Value}
    (hread : (Value.object params).Readable (maxDepth - 1))
    (hfree : (Value.object params).doubleFree = true) :
    readParams? (Value.object params).document = some params := by
  rw [readParams?, Value.ofDocument?_document hread hfree]

@[simp] theorem readPreference?_document (p : Preference) :
    readPreference? (Value.string p.name).document = some p := by
  rw [Value.document, readPreference?, readChoice?, Json.stringOfPieces?_pieces]
  rcases p with (_ | _) | _ <;> rfl

/-- The fields of a written object are looked up by their names. -/
theorem ofObject?_document {fields : List (String × Value)}
    (hdistinct : fieldsDistinct (fields.map Prod.fst) = true) :
    ofObject? (fields.map fun f => (Json.pieces f.1, f.2.document)) =
      ofFields? ((Table.find? "name" fields).map Value.document)
        ((Table.find? "version" fields).map Value.document)
        ((Table.find? "namespace" fields).map Value.document)
        ((Table.find? "compiledParams" fields).map Value.document)
        ((Table.find? "runtimeParams" fields).map Value.document)
        ((Table.find? "complexityHint" fields).map Value.document)
        ((Table.find? "backend" fields).map Value.document) := by
  have hkeys : (fields.map fun f => (Json.pieces f.1, f.2.document)).mapM
      (fun f => do return (← Json.stringOfPieces? f.1, f.2)) =
        some (fields.map fun f => (f.1, f.2.document)) :=
    Json.mapM_map_eq_some fun f _ => by simp
  rw [ofObject?, hkeys]
  simp only [Option.bind_eq_bind, Option.bind_some, List.map_map, Function.comp_def, hdistinct,
    Table.find?_map]
  rfl

/-- An optional field that is left out if it is absent is read back. -/
theorem readOptional?_written {α : Type} {read : Document → Option α} {name : α → String}
    (h : ∀ a, read (Value.string (name a)).document = some a) (x : Option α) :
    (((x.map fun a => Value.string (name a)).map Value.document).map (readOptional? read)).getD
      (some none) = some x := by
  cases x with
  | none => rfl
  | some a =>
      show (read (Value.string (name a)).document).map some = some (some a)
      rw [h, Option.map_some]

/-! ### The descriptor is read back -/

/-- Apart from the compiled parameters there are only strings in a written descriptor. -/
theorem doubleFree_toValue {d : Descriptor} (h : ∀ p ∈ d.compiledParams, p.2.doubleFree = true) :
    d.toValue.doubleFree = true := by
  have hparams : (Value.object d.compiledParams).doubleFree = true := Value.doubleFree_object.mpr h
  have hstring : ∀ s, (Value.string s).doubleFree = true := fun _ => rfl
  have hruntime : (Value.array (d.runtimeParams.map .string)).doubleFree = true := by
    rw [Value.doubleFree_array, List.forall_mem_map]
    exact fun s _ => hstring s
  rw [toValue, Value.doubleFree_object, fields]
  cases d.complexityHint <;> cases d.backend <;> simp [hparams, hruntime, hstring]

theorem fieldsDistinct_fields (d : Descriptor) :
    fieldsDistinct (d.fields.map Prod.fst) = true := by
  cases hhint : d.complexityHint <;> cases hbackend : d.backend <;>
    · simp only [fields, hhint, hbackend]
      rfl

/-- The optional fields are found exactly when they are present. -/
theorem find?_optional (d : Descriptor) :
    Table.find? "complexityHint" d.fields = d.complexityHint.map Value.string ∧
      Table.find? "backend" d.fields = d.backend.map fun b => Value.string b.name := by
  cases hhint : d.complexityHint <;> cases hbackend : d.backend <;>
    simp [fields, Table.find?, hhint, hbackend]

/-- A descriptor with readable parameters is read back from its written form. -/
theorem Readable.read_back {d : Descriptor} (hd : d.Readable)
    (hfree : ∀ p ∈ d.compiledParams, p.2.doubleFree = true) : ofJson? d.toJson = some d := by
  have hparams := readParams?_document hd (Value.doubleFree_object.mpr hfree)
  have hhint := readOptional?_written readString?_document d.complexityHint
  have hbackend := readOptional?_written readPreference?_document d.backend
  have hdoc : d.toValue.document =
      .object (d.fields.map fun f => (Json.pieces f.1, f.2.document)) :=
    Value.document_object d.fields
  rw [ofJson?, toJson, Value.parse?_pretty (doubleFree_toValue hfree), hdoc]
  show ofObject? (d.fields.map fun f => (Json.pieces f.1, f.2.document)) = some d
  obtain ⟨hfindHint, hfindBackend⟩ := find?_optional d
  rw [ofObject?_document (fieldsDistinct_fields d), hfindHint, hfindBackend, ofFields?, hhint,
    hbackend]
  simp [fields, Table.find?, hparams]

/-- **A descriptor read from a text is read back from the text it is written as**, whichever form,
order of fields, blanks and escapes the first text had, unless a floating-point number stands at
some depth of its compiled parameters. -/
theorem ofJson?_toJson {text : String} {d : Descriptor} (h : ofJson? text = some d)
    (hfree : ∀ p ∈ d.compiledParams, p.2.doubleFree = true) : ofJson? d.toJson = some d :=
  (readable_of_ofJson? h).read_back hfree

/-- The entries of an array, with escapes, a key that stands twice, the least and the greatest
integer and a backend in the long form. -/
theorem ofJson?_toJson_ofArray :
    ∃ d, ofJson? ("[\"\\\"a\\n\",\"1\",\"b\\/c\", \x7b\"k\":1,\"e\":[-9223372036854775808,"
        ++ "\"\\u0001\\ud83d\\ude00\"],\"k\":18446744073709551615\x7d,[\"r\"],null,"
        ++ "\x7b\"sga\":null\x7d]") = some d ∧
      d.compiledParams = [("e", .array [.int (-9223372036854775808), .string "\x01😀"]),
        ("k", .int 18446744073709551615)] ∧
      ofJson? d.toJson = some d := by
  refine ⟨⟨"\"a\n", "1", "b/c", _, ["r"], none, some (.use .byElement)⟩, ?read, rfl,
    ofJson?_toJson ?read ?free⟩
  case read => cbv
  case free => simp [Value.doubleFree, Value.doubleFreeItems]

end NinetySix.Descriptor
