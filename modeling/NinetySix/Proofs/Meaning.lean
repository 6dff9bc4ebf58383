import NinetySix.Proofs.Chains

set_option autoImplicit false

/-! # Normalisation keeps the meaning of a term

Two terms have the same meaning when they have the same atoms in the same order, and above each atom
stand chains with the same action (`Term.Related SameAction`). A run cannot tell such terms apart
(`ClassOp.runFrom_sameAction`, `ElementOp.runFrom_sameAction`), as long as the values that it
meets are classes and canonical elements: on a number outside the range of classes a transform that
moves nothing is still seen, since every transform reduces.

All rules but mirror conjugation keep the meaning of a term, wherever they are fired. Conjugation
does not: it drops a mirror.
-/

namespace NinetySix

/-! ## Chains with the same action -/

/-- The two chains move every coordinate and every canonical element alike. -/
structure SameAction (fs gs : List Transform) : Prop where
  onCoordinates : ∀ c, Transform.actChain fs c = Transform.actChain gs c
  onElements : ∀ x : Element, x.Canonical →
    Transform.actChainElement fs x = Transform.actChainElement gs x

namespace SameAction

variable {fs gs hs : List Transform}

theorem refl (fs : List Transform) : SameAction fs fs := ⟨fun _ => rfl, fun _ _ => rfl⟩

theorem trans (h : SameAction fs gs) (h' : SameAction gs hs) : SameAction fs hs :=
  ⟨fun c => (h.onCoordinates c).trans (h'.onCoordinates c),
    fun x hx => (h.onElements x hx).trans (h'.onElements x hx)⟩

theorem cons (f : Transform) (h : SameAction fs gs) : SameAction (f :: fs) (f :: gs) :=
  ⟨fun c => congrArg f.act (h.onCoordinates c),
    fun x hx => congrArg f.actElement (h.onElements x hx)⟩

theorem append (h : SameAction fs gs) (chain : List Transform) :
    SameAction (fs ++ chain) (gs ++ chain) := by
  refine ⟨fun c => ?_, fun x hx => ?_⟩
  · rw [Transform.actChain_append, Transform.actChain_append, h.onCoordinates]
  · rw [Transform.actChainElement_append, Transform.actChainElement_append,
      h.onElements _ (hx.actChainElement chain)]

theorem congruence : ChainCongruence SameAction := ⟨refl, trans, cons, append⟩

end SameAction

/-- Every rule but conjugation puts a chain with the same action in the place of a chain. -/
theorem Rule.Replaces.sameAction {r : Rule} {fs gs : List Transform} (h : r.Replaces fs gs)
    (hr : r ≠ .conjugation) : SameAction fs gs := by
  cases h with
  | @drop f hid =>
      cases f with
      | mirror => cases hid
      | power a k =>
          -- a full number of turns is no turn
          have hk : (k : Int) % a.order = 0 % a.order := by
            rw [Int.zero_emod]
            exact_mod_cast Transform.isIdentity_power.mp hid
          refine ⟨fun c => ?_, fun x hx => ?_⟩
          · exact (a.turn_congr c hk).trans (a.turn_zero c)
          · exact (a.turnElement_congr x hk).trans (a.turnElement_zero hx)
  | @reduce f _ _ =>
      cases f with
      | mirror => exact .refl _
      | power a k =>
          rw [Transform.reduced_power_eq_ofInt]
          exact ⟨fun c => (Transform.act_ofInt a k c).symm,
            fun x _ => (Transform.actElement_ofInt a k x).symm⟩
  | fold a j k =>
      refine ⟨fun c => ?_, fun x hx => ?_⟩
      · show a.turn (a.turn c k) j = (Transform.ofInt a (j + k)).act c
        rw [Transform.act_ofInt, a.turn_turn, Int.add_comm]
      · show a.turnElement (a.turnElement x k) j = (Transform.ofInt a (j + k)).actElement x
        rw [Transform.actElement_ofInt, a.turnElement_turnElement hx, Int.add_comm]
  | cancel => exact ⟨Coordinates.mirror_mirror, fun x _ => x.mirror_mirror⟩
  | conjugate => exact absurd rfl hr
  | @swap a b j k _ =>
      exact ⟨fun c => a.turn_comm b c j k, fun x hx => a.turnElement_comm b hx j k⟩

/-! ## Derivations keep the meaning -/

/-- **A derivation without conjugations keeps the meaning.** -/
theorem Derives.sameAction {rules trace : List Rule} {t u : Term} (h : Derives rules trace t u)
    (hc : .conjugation ∉ trace) : t.Related SameAction u := by
  refine SameAction.congruence.related_of_derives h fun r hr fs gs hreplaces => ?_
  have hne : r ≠ .conjugation := by
    rintro rfl
    exact hc hr
  exact hreplaces.sameAction hne

/-! ## Runs see the meaning only -/

namespace Register

theorem move_sameAction {fs gs : List Transform} (h : SameAction fs gs) {r : Register}
    (hr : r.Bounded) : r.move fs = r.move gs := by
  rw [move_eq fs hr, move_eq gs hr, h.onCoordinates]

end Register

namespace ClassOp

variable {p : Params}

/-- A state whose value, if it has one, is the index of a class. -/
def Bounded (state : Option Register) : Prop := ∀ r ∈ state, r.Bounded

/-- The instruction of an atom gives a class, if the atom names one. -/
theorem bounded_step {a : Atom} {op : ClassOp} {state state' : Option Register} (ha : a.Bounded)
    (hop : ofAtom a = .ok op) (hs : Bounded state) (h : step p state op = .ok state') :
    Bounded state' := by
  cases a with
  | literal c =>
      cases hop
      cases h
      rintro r ⟨⟩
      exact ha
  | lift c =>
      cases hop
      cases h
      rintro r ⟨⟩
      exact ha
  | param name =>
      cases hop
      obtain ⟨n, -, h⟩ := bind_eq_ok.mp h
      cases h
      rintro r ⟨⟩
      exact Register.bounded_ofInt n
  | grade g => cases hop
  | toClass =>
      cases hop
      cases h
      exact hs
  | ring op mode =>
      cases hop
      obtain ⟨left, -, h⟩ := bind_eq_ok.mp h
      obtain ⟨right, -, h⟩ := bind_eq_ok.mp h
      cases h
      rintro r ⟨⟩
      exact Register.bounded_ring op mode left right

theorem Bounded.move {state : Option Register} (hs : Bounded state) (chain : List Transform) :
    Bounded (state.map (Register.move chain)) := by
  intro r hr
  obtain ⟨r', hr', rfl⟩ := Option.mem_map.mp hr
  exact (hs r' hr').move chain

theorem map_move_sameAction {fs gs : List Transform} (h : SameAction fs gs)
    {state : Option Register} (hs : Bounded state) :
    state.map (Register.move fs) = state.map (Register.move gs) := by
  cases state with
  | none => rfl
  | some r => exact congrArg some (Register.move_sameAction h (hs r rfl))

/-- **Class plans of leaves with the same meaning run alike.** -/
theorem runFrom_sameAction {leaves leaves' : List Leaf}
    (h : List.Forall₂ (Leaf.Related SameAction) leaves leaves')
    (hb : ∀ leaf ∈ leaves, leaf.atom.Bounded) {ops ops' : List ClassOp}
    (hops : ofLeaves leaves = .ok ops) (hops' : ofLeaves leaves' = .ok ops')
    {state : Option Register} (hs : Bounded state) :
    runFrom p state ops = runFrom p state ops' := by
  induction h generalizing ops ops' state with
  | nil =>
      cases hops
      cases hops'
      rfl
  | @cons leaf leaf' rest rest' hleaf _ ih =>
      obtain ⟨op, ops, hop, hrest, rfl⟩ := ofLeaves_cons_eq_ok.mp hops
      obtain ⟨op', ops', hop', hrest', rfl⟩ := ofLeaves_cons_eq_ok.mp hops'
      -- the atoms agree, so the first instructions do
      have heq : op' = op := by
        rw [← hleaf.1, hop] at hop'
        exact (Except.ok.inj hop').symm
      subst heq
      rw [runFrom_leaf, runFrom_leaf]
      cases hstep : step p state op' with
      | error e => rfl
      | ok state' =>
          have hs' : Bounded state' := bounded_step (hb leaf List.mem_cons_self) hop hs hstep
          show runFrom p (state'.map (Register.move leaf.chain)) ops
            = runFrom p (state'.map (Register.move leaf'.chain)) ops'
          rw [← map_move_sameAction hleaf.2 hs']
          exact ih (fun l hl => hb l (List.mem_cons_of_mem _ hl)) hrest hrest'
            (hs'.move leaf.chain)

end ClassOp

/-- The elements among the parameters are canonical. -/
def Params.Canonical (p : Params) : Prop :=
  ∀ name x, Table.find? name p = some (.element x) → x.Canonical

namespace ElementOp

variable {p : Params}

/-- A number that is the index of a class, or a canonical element. -/
def Cell.Sound : Cell → Prop
  | .number r => r.Bounded
  | .element x => x.Canonical

/-- A state whose value, if it has one, is sound. -/
def Sound (state : Option Cell) : Prop := ∀ cell ∈ state, cell.Sound

theorem Cell.Sound.move {cell : Cell} (hc : cell.Sound) (chain : List Transform) :
    (cell.move chain).Sound := by
  cases cell with
  | number r =>
      rw [Cell.move_number]
      exact Register.Bounded.move hc chain
  | element x =>
      rw [Cell.move_element]
      exact Element.Canonical.actChainElement hc chain

theorem Cell.move_sameAction {fs gs : List Transform} (h : SameAction fs gs) {cell : Cell}
    (hc : cell.Sound) : cell.move fs = cell.move gs := by
  cases cell with
  | number r => rw [Cell.move_number, Cell.move_number, Register.move_sameAction h hc]
  | element x => rw [Cell.move_element, Cell.move_element, h.onElements x hc]

theorem Cell.Sound.toElement {cell : Cell} {x : Element} (hc : cell.Sound)
    (h : cell.toElement = .ok x) : x.Canonical := by
  cases cell with
  | number r =>
      rw [Cell.toElement, Element.lift_of_lt hc] at h
      cases h
      exact Element.canonical_ofCoordinates _
  | element y =>
      cases h
      exact hc

theorem sound_load (hp : p.Canonical) {name : String} {cell : Cell} (h : load p name = .ok cell) :
    cell.Sound := by
  obtain ⟨v, hv, h⟩ := bind_eq_ok.mp h
  cases v with
  | int n =>
      cases h
      exact Register.bounded_ofInt n
  | element x =>
      cases h
      refine hp name x ?_
      unfold Params.require at hv
      split at hv
      · next v hfind =>
        cases hv
        exact hfind
      · cases hv

/-- The instruction of an atom gives a sound state. -/
theorem sound_step (hp : p.Canonical) {a : Atom} {state state' : Option Cell} (ha : a.Bounded)
    (hs : Sound state) (h : step p state (ofAtom a) = .ok (.state state')) : Sound state' := by
  cases a with
  | literal c =>
      cases h
      rintro cell ⟨⟩
      exact ha
  | lift c =>
      obtain ⟨x, hx, h⟩ := bind_eq_ok.mp h
      rw [Element.lift_of_lt ha] at hx
      cases hx
      cases h
      rintro cell ⟨⟩
      exact Element.canonical_ofCoordinates _
  | param name =>
      obtain ⟨cell, hcell, h⟩ := bind_eq_ok.mp h
      cases h
      rintro cell' ⟨⟩
      exact sound_load hp hcell
  | grade g =>
      cases state with
      | none => cases h
      | some cell =>
          obtain ⟨x, hx, h⟩ := bind_eq_ok.mp h
          cases h
          rintro cell' ⟨⟩
          exact Multivector.Canonical.gradePart ((hs cell rfl).toElement hx) g
  | toClass =>
      match state with
      | none => cases h
      | some (.number r) =>
          cases h
          exact hs
      | some (.element x) =>
          simp only [ofAtom, step, coreStep] at h
          split at h
          · next c hc =>
            cases h
            rintro cell ⟨⟩
            exact Element.project?_lt hc
          · cases h
  | ring op mode =>
      obtain ⟨left, -, h⟩ := bind_eq_ok.mp h
      obtain ⟨right, -, h⟩ := bind_eq_ok.mp h
      cases h
      rintro cell ⟨⟩
      exact Register.bounded_ring op mode left right

theorem Sound.move {state : Option Cell} (hs : Sound state) (chain : List Transform) :
    Sound (state.map (Cell.move chain)) := by
  intro cell hcell
  obtain ⟨cell', hcell', rfl⟩ := Option.mem_map.mp hcell
  exact (hs cell' hcell').move chain

theorem map_move_sameAction {fs gs : List Transform} (h : SameAction fs gs)
    {state : Option Cell} (hs : Sound state) :
    state.map (Cell.move fs) = state.map (Cell.move gs) := by
  cases state with
  | none => rfl
  | some cell => exact congrArg some (Cell.move_sameAction h (hs cell rfl))

/-- **Element plans of leaves with the same meaning run alike.** -/
theorem runFrom_sameAction (hp : p.Canonical) {leaves leaves' : List Leaf}
    (h : List.Forall₂ (Leaf.Related SameAction) leaves leaves')
    (hb : ∀ leaf ∈ leaves, leaf.atom.Bounded) {state : Option Cell} (hs : Sound state) :
    runFrom p state (leaves.flatMap ofLeaf) = runFrom p state (leaves'.flatMap ofLeaf) := by
  induction h generalizing state with
  | nil => rfl
  | @cons leaf leaf' rest rest' hleaf _ ih =>
      rw [List.flatMap_cons, List.flatMap_cons, runFrom_leaf, runFrom_leaf, ← hleaf.1]
      cases hstep : step p state (ofAtom leaf.atom) with
      | error e => rfl
      | ok next =>
          cases next with
          | absent => rfl
          | state state' =>
              -- from a sound value the two chains lead to the same value
              have hs' : Sound state' := sound_step hp (hb leaf List.mem_cons_self) hs hstep
              show runFrom p (state'.map (Cell.move leaf.chain)) (rest.flatMap ofLeaf)
                = runFrom p (state'.map (Cell.move leaf'.chain)) (rest'.flatMap ofLeaf)
              rw [← map_move_sameAction hleaf.2 hs']
              exact ih (fun l hl => hb l (List.mem_cons_of_mem _ hl)) (hs'.move leaf.chain)

end ElementOp

/-! ## Normalisation -/

/-- Terms with the same meaning have the same atoms. -/
theorem Term.Related.atoms_eq {R : List Transform → List Transform → Prop} {t u : Term}
    (h : t.Related R u) : t.atoms = u.atoms := by
  rw [← t.map_atom_leaves, ← u.map_atom_leaves]
  exact List.forall₂_eq_eq_eq ▸
    List.forall₂_map_left_iff.mpr (List.forall₂_map_right_iff.mpr (h.imp fun _ _ hl => hl.1))

/-- **Normalisation cannot be seen in a run.** If a derivation fires no conjugation, as every
derivation from a term without mirrors does, then its first and its last term both lower to class
plans or neither does, and on each backend the plans of the two give the same result. -/
theorem derive_preserves_runs {rules : List Rule} {limit : Nat} {t : Term} {d : Derivation}
    {p : Params} (hd : Rule.derive rules limit t = .ok d) (ht : t.Bounded) (hp : p.Canonical) :
    (t.mirrorFree = true → .conjugation ∉ d.trace) ∧
    (.conjugation ∉ d.trace →
      ((∃ e, t.classPlan = .error e) ↔ ∃ e, d.term.classPlan = .error e) ∧
      (∀ ops ops', t.classPlan = .ok ops → d.term.classPlan = .ok ops' →
        ClassOp.run ops p = ClassOp.run ops' p) ∧
      ElementOp.run t.elementPlan p = ElementOp.run d.term.elementPlan p) := by
  have hderives := Rule.derive_derives hd
  refine ⟨hderives.conjugation_notMem, fun hc => ?_⟩
  -- the rest is about two terms with the same meaning, and no longer about rules
  have hsame : t.Related SameAction d.term := hderives.sameAction hc
  refine ⟨?_, ?_, ?_⟩
  · rw [t.classPlan_eq_error_iff, d.term.classPlan_eq_error_iff, Term.classPure, Term.classPure,
      hsame.atoms_eq]
  · intro ops ops' hops hops'
    rw [ClassOp.run_eq, ClassOp.run_eq]
    congr 1
    exact ClassOp.runFrom_sameAction hsame ht.leaves hops hops' (by rintro r ⟨⟩)
  · exact ElementOp.runFrom_sameAction hp hsame ht.leaves (by rintro cell ⟨⟩)

/-- A sum below a rotation whose exponent is not reduced, with two mirrors above its parameter. -/
def turnedSum : Term :=
  .transform (.power .rotate 5)
    (.seq (.transform .mirror (.transform .mirror (.atom (.param "x")))) (.atom (.ring .add .track)))

/-- An element and an integer as parameters. -/
def turnedSumParams : Params :=
  [("b", .int 90), ("x", .element (.ofCoordinates (.ofClass 90)))]

theorem canonical_turnedSumParams : turnedSumParams.Canonical := by
  intro name x h
  simp only [turnedSumParams, Table.find?] at h
  split at h
  · cases h
  · split at h
    · cases h
      exact Element.canonical_ofCoordinates _
    · cases h

/-- The derivation of `turnedSum` fires a cancellation, a reduction and a distribution, and none of
them changes the result of a run: a refused element on the class backend, a sum on the other. -/
theorem derive_preserves_runs_turnedSum :
    ∃ d ops ops', Rule.derive Rule.standard 9 turnedSum = .ok d ∧
      d.trace = [.cancellation, .identity, .distribution] ∧
      turnedSum.Bounded ∧ turnedSumParams.Canonical ∧
      turnedSum.classPlan = .ok ops ∧ d.term.classPlan = .ok ops' ∧
      ClassOp.run ops turnedSumParams = ClassOp.run ops' turnedSumParams ∧
      ElementOp.run turnedSum.elementPlan turnedSumParams =
        ElementOp.run d.term.elementPlan turnedSumParams := by
  have hd : Rule.derive Rule.standard 9 turnedSum = .ok _ := rfl
  have hb : turnedSum.Bounded := by decide
  obtain ⟨-, hclass, helement⟩ :=
    (derive_preserves_runs hd hb canonical_turnedSumParams).2 (by decide)
  exact ⟨_, _, _, hd, rfl, hb, canonical_turnedSumParams, rfl, rfl, hclass _ _ rfl rfl, helement⟩

end NinetySix
