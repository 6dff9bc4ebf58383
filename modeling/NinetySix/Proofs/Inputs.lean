import NinetySix.Proofs.Leafwise

set_option autoImplicit false

/-! # What a run reads

A run looks at few of its parameters. A parameter atom reads the parameter that it names, and a ring
operation the parameter on its right. The parameter on the left is read only where there is no value
so far, so only by the first ring operation, and then only if nothing but projections to a class
comes before it. These are the names in `Term.reads`.

`ReadsOnly names c` says that a computation with parameters is the same for any two tables that
agree on the given names. It composes along `>>=` (`ReadsOnly.bind`). With `Covers`, which says that
a list of names has all that a list of atoms reads from a given state on, it goes from one atom to
the plan of a term on both backends.
-/

namespace NinetySix

/-! ## Names -/

/-- The parameters that an atom reads, whatever came before it. -/
def Atom.reads : Atom → List String
  | .param name => [name]
  | .ring _ _ => [rightOperand]
  | _ => []

/-- The first atom that is no projection to a class is a ring operation. -/
def opensWithRing (atoms : List Atom) : Bool :=
  (atoms.find? fun a => a ≠ .toClass).any Atom.isRing

/-- The parameters that a run of the term reads: those that its parameter atoms name, the right
operand if it has a ring operation, and the left operand if it opens with one. -/
def Term.reads (t : Term) : List String :=
  t.atoms.flatMap Atom.reads ++ if opensWithRing t.atoms then [leftOperand] else []

theorem Atom.mem_reads {a : Atom} {name : String} :
    name ∈ a.reads ↔ a = .param name ∨ a.isRing = true ∧ name = rightOperand := by
  cases a <;> simp [reads, isRing, eq_comm]

theorem Term.mem_reads {t : Term} {name : String} :
    name ∈ t.reads ↔ .param name ∈ t.atoms ∨
      (∃ a ∈ t.atoms, a.isRing = true) ∧ name = rightOperand ∨
      opensWithRing t.atoms = true ∧ name = leftOperand := by
  have hleft : name ∈ (if opensWithRing t.atoms then [leftOperand] else []) ↔
      opensWithRing t.atoms = true ∧ name = leftOperand := by
    by_cases h : opensWithRing t.atoms = true
    · simp [h]
    · simp [h]
  rw [Term.reads, List.mem_append, hleft, List.mem_flatMap]
  simp only [Atom.mem_reads]
  constructor
  · rintro (⟨a, ha, rfl | ⟨hring, hname⟩⟩ | hopens)
    · exact .inl ha
    · exact .inr (.inl ⟨⟨a, ha, hring⟩, hname⟩)
    · exact .inr (.inr hopens)
  · rintro (hparam | ⟨⟨a, ha, hring⟩, hname⟩ | hopens)
    · exact .inl ⟨_, hparam, .inl rfl⟩
    · exact .inl ⟨a, ha, .inr ⟨hring, hname⟩⟩
    · exact .inr hopens

theorem isRing_of_opensWithRing {atoms : List Atom} (h : opensWithRing atoms = true) :
    ∃ a ∈ atoms, a.isRing = true := by
  obtain ⟨a, ha, hring⟩ := (Option.any_eq_true _ _).mp h
  exact ⟨a, List.mem_of_find?_eq_some ha, hring⟩

/-- A term that reads no input reads no parameter. -/
theorem Term.reads_eq_nil {t : Term} (h : t.readsInput = false) : t.reads = [] := by
  have hquiet : ∀ a ∈ t.atoms, a.readsInput = false := by
    simpa [Term.readsInput] using h
  have hring : ∀ a ∈ t.atoms, a.isRing = false := by
    intro a ha
    have := hquiet a ha
    cases a <;> simp_all [Atom.readsInput, Atom.isRing]
  refine List.eq_nil_iff_forall_not_mem.mpr fun name hname => ?_
  rcases Term.mem_reads.mp hname with hparam | ⟨⟨a, ha, hr⟩, -⟩ | ⟨hopens, -⟩
  · simpa [Atom.readsInput] using hquiet _ hparam
  · simp [hring a ha] at hr
  · obtain ⟨a, ha, hr⟩ := isRing_of_opensWithRing hopens
    simp [hring a ha] at hr

/-- The names have all that the atoms read in a run that has a value so far, or has none. -/
structure Covers (names : List String) (started : Bool) (atoms : List Atom) : Prop where
  reads : ∀ a ∈ atoms, ∀ name ∈ a.reads, name ∈ names
  left : started = false → opensWithRing atoms = true → leftOperand ∈ names

theorem Term.covers_reads (t : Term) : Covers t.reads false t.atoms where
  reads a ha name hname := List.mem_append_left _ (List.mem_flatMap.mpr ⟨a, ha, hname⟩)
  left _ hopens := by simp [Term.reads, hopens]

theorem Term.covers_leaves (t : Term) : Covers t.reads false (t.leaves.map Leaf.atom) := by
  rw [t.map_atom_leaves]
  exact t.covers_reads

namespace Covers

variable {names : List String} {started : Bool} {a : Atom} {atoms : List Atom}

theorem head (h : Covers names started (a :: atoms)) {name : String} (hname : name ∈ a.reads) :
    name ∈ names := h.reads a List.mem_cons_self name hname

theorem left_of_isRing (h : Covers names false (a :: atoms)) (ha : a.isRing = true) :
    leftOperand ∈ names := by
  have hne : a ≠ .toClass := by
    rintro rfl
    cases ha
  exact h.left rfl (by simp [opensWithRing, hne, ha])

/-- Once there is a value, the left operand is not read again. -/
theorem tail (h : Covers names started (a :: atoms)) : Covers names true atoms where
  reads b hb := h.reads b (List.mem_cons_of_mem a hb)
  left hstarted := by cases hstarted

/-- A projection to a class without a value leaves everything to the atoms after it. -/
theorem tail_of_toClass (h : Covers names started (.toClass :: atoms)) :
    Covers names started atoms where
  reads b hb := h.reads b (List.mem_cons_of_mem _ hb)
  left hstarted hopens := h.left hstarted (by simpa [opensWithRing] using hopens)

end Covers

/-! ## Computations with parameters -/

/-- The two tables have the same parameters under the given names, or both have none. -/
def Params.AgreeOn (names : List String) (p q : Params) : Prop :=
  ∀ name ∈ names, Table.find? name p = Table.find? name q

/-- The computation looks at no parameters but those with the given names. -/
def ReadsOnly {α : Type} (names : List String) (c : Params → α) : Prop :=
  ∀ p q : Params, p.AgreeOn names q → c p = c q

namespace ReadsOnly

variable {α β ε : Type} {names : List String}

theorem const (a : α) : ReadsOnly names fun _ => a := fun _ _ _ => rfl

/-- What follows a step has to be known only for what the step can give. -/
theorem bind {x : Params → Except ε α} {f : Params → α → Except ε β} (hx : ReadsOnly names x)
    (hf : ∀ p a, x p = .ok a → ReadsOnly names fun q => f q a) :
    ReadsOnly names fun p => x p >>= f p := by
  intro p q hpq
  show x p >>= f p = x q >>= f q
  rw [← hx p q hpq]
  cases hp : x p with
  | error e => rfl
  | ok a => exact hf p a hp p q hpq

end ReadsOnly

namespace Params

variable {names : List String} {name : String}

theorem require_readsOnly (h : name ∈ names) : ReadsOnly names fun p => p.require name := by
  intro p q hpq
  simp only [require, hpq name h]

theorem int_readsOnly (h : name ∈ names) : ReadsOnly names fun p => p.int name :=
  (require_readsOnly h).bind fun _ _ _ => .const _

theorem operand_readsOnly (h : name ∈ names) : ReadsOnly names fun p => p.operand name :=
  (require_readsOnly h).bind fun _ _ _ => .const _

end Params

/-! ## The class backend -/

namespace ClassOp

variable {names : List String} {a : Atom} {atoms : List Atom} {op : ClassOp}

/-- An atom reads what it has to, given the state before it. -/
theorem step_readsOnly {state : Option Register} (hop : ofAtom a = .ok op)
    (h : Covers names state.isSome (a :: atoms)) : ReadsOnly names fun p => step p state op := by
  cases a with
  | literal c =>
      cases hop
      exact .const _
  | lift c =>
      cases hop
      exact .const _
  | param name =>
      cases hop
      have hname : name ∈ names := h.head List.mem_cons_self
      exact (Params.int_readsOnly hname).bind fun _ _ _ => .const _
  | grade g => cases hop
  | toClass =>
      cases hop
      exact .const _
  | ring op mode =>
      cases hop
      have hright : rightOperand ∈ names := h.head List.mem_cons_self
      have hleft : ReadsOnly names fun p => leftValue p state := by
        cases state with
        | some r => exact .const _
        | none => exact Params.int_readsOnly (h.left_of_isRing rfl)
      refine hleft.bind fun _ left _ => ?_
      exact (Params.int_readsOnly hright).bind fun _ _ _ => .const _

/-- After an atom there is a value, unless there was none before a projection to a class. -/
theorem covers_step {p : Params} {state state' : Option Register} (hop : ofAtom a = .ok op)
    (h : Covers names state.isSome (a :: atoms)) (hstep : step p state op = .ok state') :
    Covers names state'.isSome atoms := by
  cases a with
  | literal c =>
      cases hop
      cases hstep
      exact h.tail
  | lift c =>
      cases hop
      cases hstep
      exact h.tail
  | param name =>
      cases hop
      obtain ⟨n, -, hn⟩ := bind_eq_ok.mp hstep
      cases hn
      exact h.tail
  | grade g => cases hop
  | toClass =>
      cases hop
      cases hstep
      exact h.tail_of_toClass
  | ring op mode =>
      cases hop
      obtain ⟨left, -, hrest⟩ := bind_eq_ok.mp hstep
      obtain ⟨right, -, hresult⟩ := bind_eq_ok.mp hrest
      cases hresult
      exact h.tail

/-- **A class plan reads what its atoms read.** -/
theorem runFrom_readsOnly {leaves : List Leaf} {ops : List ClassOp} (state : Option Register)
    (hops : ofLeaves leaves = .ok ops) (h : Covers names state.isSome (leaves.map Leaf.atom)) :
    ReadsOnly names fun p => runFrom p state ops := by
  induction leaves generalizing ops state with
  | nil =>
      cases hops
      exact .const _
  | cons leaf rest ih =>
      obtain ⟨op, ops', hop, hrest, rfl⟩ := ofLeaves_cons_eq_ok.mp hops
      simp only [runFrom_leaf]
      refine (step_readsOnly hop h).bind fun p state' hstep => ih _ hrest ?_
      rw [Option.isSome_map]
      exact covers_step hop h hstep

end ClassOp

/-! ## The element backend -/

namespace ElementOp

variable {names : List String} {a : Atom} {atoms : List Atom}

theorem load_readsOnly {name : String} (h : name ∈ names) : ReadsOnly names fun p => load p name :=
  (Params.require_readsOnly h).bind fun _ _ _ => .const _

theorem step_readsOnly {state : Option Cell} (h : Covers names state.isSome (a :: atoms)) :
    ReadsOnly names fun p => step p state (ofAtom a) := by
  cases a with
  | literal c => exact .const _
  | lift c => exact .const _
  | param name =>
      have hname : name ∈ names := h.head List.mem_cons_self
      exact (load_readsOnly hname).bind fun _ _ _ => .const _
  | grade g => exact .const _
  | toClass => exact .const _
  | ring op mode =>
      have hright : rightOperand ∈ names := h.head List.mem_cons_self
      have hleft : ReadsOnly names fun p => leftValue p state := by
        cases state with
        | some cell => exact .const _
        | none => exact Params.operand_readsOnly (h.left_of_isRing rfl)
      refine hleft.bind fun _ left _ => ?_
      exact (Params.operand_readsOnly hright).bind fun _ _ _ => .const _

/-- After an atom that does not end the run there is a value. -/
theorem isSome_of_step {p : Params} {state state' : Option Cell}
    (hstep : step p state (ofAtom a) = .ok (.state state')) : state'.isSome = true := by
  cases a with
  | literal c =>
      cases hstep
      rfl
  | lift c =>
      obtain ⟨x, -, hx⟩ := bind_eq_ok.mp hstep
      cases hx
      rfl
  | param name =>
      obtain ⟨cell, -, hcell⟩ := bind_eq_ok.mp hstep
      cases hcell
      rfl
  | grade g =>
      cases state with
      | none => cases hstep
      | some cell =>
          obtain ⟨x, -, hx⟩ := bind_eq_ok.mp hstep
          cases hx
          rfl
  | toClass =>
      match state with
      | none => cases hstep
      | some (.number r) =>
          cases hstep
          rfl
      | some (.element x) =>
          simp only [ofAtom, step, coreStep] at hstep
          split at hstep
          · cases hstep
            rfl
          · cases hstep
  | ring op mode =>
      obtain ⟨left, -, hrest⟩ := bind_eq_ok.mp hstep
      obtain ⟨right, -, hresult⟩ := bind_eq_ok.mp hrest
      cases hresult
      rfl

/-- **An element plan reads what its atoms read.** -/
theorem runFrom_readsOnly {leaves : List Leaf} (state : Option Cell)
    (h : Covers names state.isSome (leaves.map Leaf.atom)) :
    ReadsOnly names fun p => runFrom p state (leaves.flatMap ofLeaf) := by
  induction leaves generalizing state with
  | nil => exact .const _
  | cons leaf rest ih =>
      simp only [List.flatMap_cons, runFrom_leaf]
      refine (step_readsOnly h).bind fun p next hstep => ?_
      cases next with
      | absent => exact .const _
      | state cell =>
          refine ih _ ?_
          rw [Option.isSome_map, isSome_of_step hstep]
          exact h.tail

end ElementOp

/-- On either backend, the plan of the term gives the same result with both tables. -/
def Term.RunsAlike (t : Term) (p q : Params) : Prop :=
  (∀ ops, t.classPlan = .ok ops → ClassOp.run ops p = ClassOp.run ops q) ∧
    ElementOp.run t.elementPlan p = ElementOp.run t.elementPlan q

theorem Term.runsAlike_of_agreeOn {t : Term} {p q : Params} (h : p.AgreeOn t.reads q) :
    t.RunsAlike p q := by
  constructor
  · intro ops hops
    rw [ClassOp.run_eq, ClassOp.run_eq]
    exact congrArg _ (ClassOp.runFrom_readsOnly none hops t.covers_leaves p q h)
  · exact ElementOp.runFrom_readsOnly none t.covers_leaves p q h

/-- **A run depends only on the parameters that its term reads.** If two tables agree on the names
in `Term.reads`, then the plans of the term run alike with both, on either backend. In particular,
the results of a term that reads no input are the same for all parameters. -/
theorem run_depends_on_reads (t : Term) :
    (∀ p q : Params, p.AgreeOn t.reads q → t.RunsAlike p q) ∧
    (t.signals.readsInput = false → ∀ p q : Params, t.RunsAlike p q) := by
  refine ⟨fun p q => Term.runsAlike_of_agreeOn, fun hreads p q => Term.runsAlike_of_agreeOn ?_⟩
  rw [Term.reads_eq_nil hreads]
  intro name hname
  cases hname

/-- A product of a twisted parameter, which has its left operand already. -/
def twistedProduct : Term :=
  .seq (.transform (.power .twist 3) (.atom (.param "x"))) (.atom (.ring .mul .track))

/-- A class that is lifted and projected back. -/
def liftedClass : Term := .seq (.atom (.lift 90)) (.atom .toClass)

/-- The product does not look at the parameter `a`, and the class at no parameter. -/
theorem run_depends_on_reads_twistedProduct :
    let p : Params := [("a", .int 7), ("b", .int 50), ("x", .int 2)]
    let q : Params := [("b", .int 50), ("x", .int 2), ("y", .int 0)]
    twistedProduct.reads = ["x", "b"] ∧ p.AgreeOn twistedProduct.reads q ∧
    ElementOp.run twistedProduct.elementPlan q = .ok (.tracked 58 true) ∧
    liftedClass.signals.readsInput = false ∧
    ∀ p, ElementOp.run liftedClass.elementPlan p = .ok (.number 90) := by
  intro p q
  have hagree : p.AgreeOn twistedProduct.reads q := by
    intro name hname
    rcases List.mem_pair.mp hname with rfl | rfl
    · rfl
    · rfl
  have halike := (run_depends_on_reads twistedProduct).1 p q hagree
  have hclosed := (run_depends_on_reads liftedClass).2 rfl
  exact ⟨rfl, hagree, halike.2.symm.trans rfl, rfl, fun r => (hclosed r []).2.trans rfl⟩

end NinetySix
