import NinetySix.Proofs.Inputs

set_option autoImplicit false

/-! # How a run on the element backend can fail

Few of the failures of the element backend can come from the plan of a term. The algebra never
fails, since terms have no instruction that computes coefficients; every class that is lifted
exists; and a parameter may be an integer or an element wherever one is read. Only the first atom
can meet an empty state, so whether a run fails for want of a value is decided by that atom.

What is left is foreseen (`Foreseen`): a parameter that the term reads may be missing, and an
element that has to be a class may not have rank one. The invariant is that a number in the state is
always the index of a class (`ElementOp.Cell.Bounded`), while elements are arbitrary.
`ElementOp.step_foreseen` keeps it over one atom and `ElementOp.runFrom_foreseen` over a plan.
-/

namespace NinetySix

/-! ## Results that are foreseen -/

/-- The result is good, or a parameter among the names is missing, or an element that has to be a
class does not have rank one. -/
inductive Foreseen (p : Params) (names : List String) {α : Type} (good : α → Prop) :
    Except ExecutionError α → Prop where
  | ok {a : α} (h : good a) : Foreseen p names good (.ok a)
  | missing {name : String} (h : name ∈ names) (habsent : p.contains name = false) :
      Foreseen p names good (.error (.missingParameter name))
  | composite (x : Element) : Foreseen p names good (.error (.rank (.composite x)))

variable {p : Params} {names : List String}

theorem Foreseen.bind {α β : Type} {good : α → Prop} {good' : β → Prop}
    {x : Except ExecutionError α} {f : α → Except ExecutionError β} (hx : Foreseen p names good x)
    (hf : ∀ a, good a → Foreseen p names good' (f a)) : Foreseen p names good' (x >>= f) := by
  cases hx with
  | ok h => exact hf _ h
  | missing h habsent => exact .missing h habsent
  | composite x => exact .composite x

theorem Params.require_foreseen {name : String} (h : name ∈ names) :
    Foreseen p names (fun _ => True) (p.require name) := by
  unfold Params.require
  cases hfind : Table.find? name p with
  | some v => exact .ok trivial
  | none =>
      have habsent : p.contains name = false := by simp [Params.contains, hfind]
      exact .missing h habsent

theorem Element.project_foreseen (x : Element) :
    Foreseen p names (fun _ => True) (ofRank x.project) := by
  unfold Element.project
  cases x.project? with
  | some c => exact .ok trivial
  | none => exact .composite x

theorem Params.operand_foreseen {name : String} (h : name ∈ names) :
    Foreseen p names (fun _ => True) (p.operand name) := by
  refine (require_foreseen h).bind fun v _ => ?_
  cases v with
  | int n => exact .ok trivial
  | element x => exact x.project_foreseen.bind fun _ _ => .ok trivial

/-- The atom needs a value before it. -/
def Atom.NeedsValue (a : Atom) : Prop := a = .toClass ∨ a.isGrade = true

/-- The class value of the outcome, if it has one, is the index of a class. -/
def Outcome.Bounded (out : Outcome) : Prop := ∀ c, out.value = some c → c < classCount

namespace ElementOp

/-! ## One atom -/

/-- A number in the state is the index of a class. Elements are arbitrary. -/
def Cell.Bounded : Cell → Prop
  | .number r => r.Bounded
  | .element _ => True

theorem Cell.Bounded.move {cell : Cell} (h : cell.Bounded) (chain : List Transform) :
    (cell.move chain).Bounded := by
  cases cell with
  | number r =>
      rw [Cell.move_number]
      exact Register.Bounded.move h chain
  | element x =>
      rw [Cell.move_element]
      trivial

/-- A value whose number is in range can be made an element. -/
theorem Cell.Bounded.exists_toElement {cell : Cell} (h : cell.Bounded) :
    ∃ x, cell.toElement = .ok x := by
  cases cell with
  | number r => exact ⟨_, by rw [Cell.toElement, Element.lift_of_lt h]; rfl⟩
  | element x => exact ⟨x, rfl⟩

theorem Cell.classValue_foreseen (cell : Cell) :
    Foreseen p names (fun _ => True) cell.classValue := by
  cases cell with
  | number r => exact .ok trivial
  | element x => exact x.project_foreseen.bind fun _ _ => .ok trivial

theorem load_foreseen {name : String} (h : name ∈ names) :
    Foreseen p names Cell.Bounded (load p name) := by
  refine (Params.require_foreseen h).bind fun v _ => ?_
  cases v with
  | int n => exact .ok (Register.bounded_ofInt n)
  | element x => exact .ok trivial

/-- The run goes on with a value in range, or has ended. -/
inductive Next.Bounded : Next → Prop where
  | state {cell : Cell} (h : cell.Bounded) : Next.Bounded (.state (some cell))
  | absent : Next.Bounded .absent

variable {a : Atom} {atoms : List Atom} {state : Option Cell}

/-- **One atom fails as foreseen.** It gives a value in range, if it is not the first atom or needs
no value before it. -/
theorem step_foreseen (ha : a.Bounded) (hs : ∀ cell ∈ state, cell.Bounded)
    (hstart : state = none → ¬ a.NeedsValue) (hc : Covers names state.isSome (a :: atoms)) :
    Foreseen p names Next.Bounded (step p state (ofAtom a)) := by
  cases a with
  | literal c => exact .ok (.state ha)
  | lift c =>
      have hlift : step p state (ofAtom (.lift c))
          = .ok (.state (some (.element (.ofCoordinates (.ofClass c))))) := by
        simp only [ofAtom, step, coreStep, Element.lift_of_lt ha]
        rfl
      rw [hlift]
      exact .ok (.state trivial)
  | param name =>
      have hname : name ∈ names := hc.head List.mem_cons_self
      exact (load_foreseen hname).bind fun cell hcell => .ok (.state hcell)
  | grade g =>
      cases state with
      | none => exact absurd (.inr rfl) (hstart rfl)
      | some cell =>
          -- a number is lifted, and keeping one grade of an element cannot overflow
          obtain ⟨x, hx⟩ := (hs cell rfl).exists_toElement
          have hgrade : step p (some cell) (ofAtom (.grade g))
              = .ok (.state (some (.element (x.gradePart g)))) := by
            simp only [ofAtom, step, onElement, hx]
            rfl
          rw [hgrade]
          exact .ok (.state trivial)
  | toClass =>
      rcases state with _ | (r | x)
      · exact absurd (.inl rfl) (hstart rfl)
      · exact .ok (.state (hs _ rfl))
      · simp only [ofAtom, step, coreStep]
        split
        · next c hproject =>
          have hlt : (Register.plain c).Bounded := Element.project?_lt hproject
          exact .ok (.state hlt)
        · exact .ok .absent
  | ring op mode =>
      have hright : rightOperand ∈ names := hc.head List.mem_cons_self
      have hleft : Foreseen p names (fun _ => True) (leftValue p state) := by
        cases state with
        | some cell => exact cell.classValue_foreseen
        | none => exact Params.operand_foreseen (hc.left_of_isRing rfl)
      refine hleft.bind fun left _ => ?_
      refine (Params.operand_foreseen hright).bind fun right _ => ?_
      have hring : (Register.ring op mode left right).Bounded :=
        Register.bounded_ring op mode left right
      exact .ok (.state hring)

/-! ## Plans -/

theorem bounded_finish (hs : ∀ cell ∈ state, cell.Bounded) : (finish state).Bounded := by
  intro c hvalue
  match state with
  | none =>
      cases hvalue
      decide
  | some (.number r) =>
      have hc : some r.value = some c := r.value_outcome.symm.trans hvalue
      have hr : r.value < classCount := hs _ rfl
      cases hc
      exact hr
  | some (.element x) => exact Element.project?_lt hvalue

/-- **A plan fails as foreseen**, unless it begins with an atom that needs a value. -/
theorem runFrom_foreseen {leaves : List Leaf} (state : Option Cell)
    (hb : ∀ leaf ∈ leaves, leaf.atom.Bounded) (hs : ∀ cell ∈ state, cell.Bounded)
    (hstart : state = none → ∀ leaf ∈ leaves.head?, ¬ leaf.atom.NeedsValue)
    (hc : Covers names state.isSome (leaves.map Leaf.atom)) :
    Foreseen p names Outcome.Bounded (runFrom p state (leaves.flatMap ofLeaf)) := by
  induction leaves generalizing state with
  | nil => exact .ok (bounded_finish hs)
  | cons leaf rest ih =>
      rw [List.flatMap_cons, runFrom_leaf]
      have hstep : Foreseen p names Next.Bounded (step p state (ofAtom leaf.atom)) :=
        step_foreseen (hb leaf List.mem_cons_self) hs (fun hnone => hstart hnone leaf rfl) hc
      refine hstep.bind fun next hnext => ?_
      cases hnext with
      | absent => exact .ok (by rintro c ⟨⟩)
      | @state cell hcell =>
          -- from here on there is a value, so no later atom can want for one
          refine ih _ (fun l hl => hb l (List.mem_cons_of_mem _ hl)) ?_ ?_ hc.tail
          · rintro cell' ⟨⟩
            exact hcell.move leaf.chain
          · intro hnone
            cases hnone

end ElementOp

/-! ## Terms -/

/-- A term has a first leaf, and a run of the term begins with its atom. -/
theorem Term.exists_first (t : Term) : ∃ leaf rest, t.leaves = leaf :: rest ∧
    t.atoms.head? = some leaf.atom ∧ ∀ p, ElementOp.run t.elementPlan p =
      ElementOp.step p none (ElementOp.ofAtom leaf.atom) >>=
        ElementOp.Next.resume p leaf.chain (rest.flatMap ElementOp.ofLeaf) := by
  obtain ⟨leaf, rest, hleaves⟩ := List.exists_cons_of_ne_nil t.leaves_ne_nil
  refine ⟨leaf, rest, hleaves, ?_, fun p => ?_⟩
  · rw [← t.map_atom_leaves, hleaves]
    rfl
  · rw [ElementOp.run, Term.elementPlan, hleaves, List.flatMap_cons, ElementOp.runFrom_leaf]

/-- **How a run comes out**, by the first atom of its term. -/
theorem Term.run_cases {t : Term} (ht : t.Bounded) (p : Params) :
    (∃ g, t.atoms.head? = some (.grade g) ∧
      ElementOp.run t.elementPlan p = .error (.missingOperand "projectGrade")) ∨
    (t.atoms.head? = some .toClass ∧ ElementOp.run t.elementPlan p = .error .projectionInput) ∨
    (∃ a, t.atoms.head? = some a ∧ ¬ a.NeedsValue ∧
      Foreseen p t.reads Outcome.Bounded (ElementOp.run t.elementPlan p)) := by
  obtain ⟨leaf, rest, hleaves, hhead, hrun⟩ := t.exists_first
  rw [hhead]
  by_cases hneeds : leaf.atom.NeedsValue
  · rcases hneeds with hclass | hgrade
    · refine .inr (.inl ⟨congrArg some hclass, ?_⟩)
      rw [hrun p, hclass]
      rfl
    · obtain ⟨g, hg⟩ : ∃ g, leaf.atom = .grade g := by
        cases hatom : leaf.atom <;> simp_all [Atom.isGrade]
      refine .inl ⟨g, congrArg some hg, ?_⟩
      rw [hrun p, hg]
      rfl
  · refine .inr (.inr ⟨leaf.atom, rfl, hneeds, ?_⟩)
    refine ElementOp.runFrom_foreseen none ht.leaves (by rintro cell ⟨⟩) ?_ t.covers_leaves
    intro _ l hl
    rw [hleaves] at hl
    cases hl
    exact hneeds

/-- **The failures of a run on the element backend are foreseen.** A run of a term that names only
classes that exist never fails in the algebra, nor for the type of a parameter, nor for a class that
does not exist. It fails for want of a value exactly if the first atom projects a grade, and for
want of an input to project exactly if that atom projects to a class. Otherwise it can only miss a
parameter that the term names, or an operand of one of its ring operations, or meet an element that
is not of rank one; and every class value that it gives is in range. -/
theorem element_run_foreseen {t : Term} (ht : t.Bounded) (p : Params) :
    (∀ cause, ElementOp.run t.elementPlan p ≠ .error (.algebra cause)) ∧
    (∀ name expected, ElementOp.run t.elementPlan p ≠ .error (.parameterType name expected)) ∧
    (∀ index, ElementOp.run t.elementPlan p ≠ .error (.rank (.invalidClass index))) ∧
    ((∃ operation, ElementOp.run t.elementPlan p = .error (.missingOperand operation)) ↔
      ∃ g, t.atoms.head? = some (.grade g)) ∧
    (ElementOp.run t.elementPlan p = .error .projectionInput ↔ t.atoms.head? = some .toClass) ∧
    (∀ e, ElementOp.run t.elementPlan p = .error e →
      (∃ operation, e = .missingOperand operation) ∨ e = .projectionInput ∨
      (∃ name, e = .missingParameter name ∧ p.contains name = false ∧
        (.param name ∈ t.atoms ∨
          (∃ a ∈ t.atoms, a.isRing = true) ∧ (name = leftOperand ∨ name = rightOperand))) ∨
      ∃ x, e = .rank (.composite x)) ∧
    (∀ o c, ElementOp.run t.elementPlan p = .ok o → o.value = some c → c ≤ 95) := by
  rcases Term.run_cases ht p with ⟨g, hhead, hrun⟩ | ⟨hhead, hrun⟩ | ⟨a, hhead, hneeds, hforeseen⟩
  · rw [hrun, hhead]
    simp
  · rw [hrun, hhead]
    simp
  · have hgrade : ∀ g, a ≠ .grade g := by
      rintro g rfl
      exact hneeds (.inr rfl)
    have hclass : a ≠ .toClass := fun ha => hneeds (.inl ha)
    rw [hhead]
    generalize ElementOp.run t.elementPlan p = result at hforeseen
    cases hforeseen with
    | ok h =>
        refine ⟨by simp, by simp, by simp, by simp [hgrade], by simp [hclass], by simp, ?_⟩
        rintro o c ⟨⟩ hvalue
        exact Nat.le_of_lt_succ (h c hvalue)
    | @missing name hreads habsent =>
        refine ⟨by simp, by simp, by simp, by simp [hgrade], by simp [hclass], ?_, by simp⟩
        rintro e ⟨⟩
        refine .inr (.inr (.inl ⟨name, rfl, habsent, ?_⟩))
        rcases Term.mem_reads.mp hreads with hparam | ⟨hring, hname⟩ | ⟨hopens, hname⟩
        · exact .inl hparam
        · exact .inr ⟨hring, .inr hname⟩
        · exact .inr ⟨isRing_of_opensWithRing hopens, .inl hname⟩
    | composite x => simp [hgrade, hclass]

/-- A sum with a parameter that is mirrored first. -/
def mirroredSum : Term :=
  .seq (.transform .mirror (.atom (.param "x"))) (.atom (.ring .add .track))

/-- A grade is projected before there is a value. -/
def gradeFirst : Term :=
  .transform (.power .rotate 6) (.par (.atom (.grade 2)) (.atom (.ring .add .drop)))

/-- The sum refuses an element that is not of rank one. Without its right operand it does not fail
for want of `x`, and with two integers it gives a class in range. The projection fails with any
parameters. -/
theorem element_run_foreseen_mirroredSum :
    let x : Element := ⟨1, 2, ⟨[(0#7, 5), (3#7, -1)]⟩⟩
    mirroredSum.Bounded ∧ gradeFirst.Bounded ∧
    ElementOp.run mirroredSum.elementPlan [("b", .int 1), ("x", .element x)]
      = .error (.rank (.composite x.mirror)) ∧
    (∀ e, ElementOp.run mirroredSum.elementPlan [("x", .int 20)] = .error e →
      e ≠ .missingParameter "x") ∧
    (∃ o c, ElementOp.run mirroredSum.elementPlan [("b", .int 90), ("x", .int 20)] = .ok o ∧
      o.value = some c ∧ c ≤ 95) ∧
    ∀ p, ∃ operation,
      ElementOp.run gradeFirst.elementPlan p = .error (.missingOperand operation) := by
  intro x
  have hsum : mirroredSum.Bounded := by decide
  have hgrade : gradeFirst.Bounded := by decide
  refine ⟨hsum, hgrade, rfl, ?_, ?_, fun p => ?_⟩
  · obtain ⟨-, -, -, -, -, herror, -⟩ := element_run_foreseen hsum [("x", .int 20)]
    rintro e he rfl
    have hmissing := herror _ he
    simp [Params.contains, Table.find?] at hmissing
  · obtain ⟨-, -, -, -, -, -, hvalue⟩ :=
      element_run_foreseen hsum [("b", .int 90), ("x", .int 20)]
    exact ⟨_, _, rfl, rfl, hvalue _ _ rfl rfl⟩
  · exact (element_run_foreseen hgrade p).2.2.2.1.mpr ⟨2, rfl⟩

end NinetySix
