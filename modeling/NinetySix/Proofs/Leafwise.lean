import NinetySix.Plan.Basic
import NinetySix.Proofs.Moves

set_option autoImplicit false

/-! # Runs, leaf by leaf

Both backends run a term as the list of its leaves: each leaf does its atom, and then the chain of
transforms above it, which cannot fail and moves the value that is there. The equations
`ClassOp.runFrom_leaf` and `ElementOp.runFrom_leaf` say this for the two backends. Proofs about runs go
by induction on the list of leaves and use these equations only.

What a chain does to a value is its action on coordinates or on elements (`Register.move_eq`,
`ElementOp.Cell.move_element`).
-/

namespace NinetySix

/-- A step and what follows it succeed together. -/
theorem bind_eq_ok {ε α β : Type} {x : Except ε α} {f : α → Except ε β} {b : β} :
    x >>= f = .ok b ↔ ∃ a, x = .ok a ∧ f a = .ok b := by
  cases x with
  | error e => simp [bind, Except.bind]
  | ok a => simp [bind, Except.bind]

/-- The leaves of a term have its atoms. -/
theorem Term.map_atom_leaves (t : Term) : t.leaves.map Leaf.atom = t.atoms := by
  induction t with
  | atom a => rfl
  | seq l r ihl ihr => rw [leaves, atoms, List.map_append, ihl, ihr]
  | par l r ihl ihr => rw [leaves, atoms, List.map_append, ihl, ihr]
  | transform f t ih =>
      rw [leaves, atoms, List.map_map, ← ih]
      rfl

theorem Term.leaves_ne_nil (t : Term) : t.leaves ≠ [] := by
  induction t with
  | atom a => simp [leaves]
  | seq l r ihl ihr => simp [leaves, ihl]
  | par l r ihl ihr => simp [leaves, ihl]
  | transform f t ih => simp [leaves, ih]

/-- The parts of a term at any depth, the term itself first. -/
def Term.parts : Term → List Term
  | .atom a => [.atom a]
  | .seq l r => .seq l r :: (l.parts ++ r.parts)
  | .par l r => .par l r :: (l.parts ++ r.parts)
  | .transform f t => .transform f t :: t.parts

theorem Term.self_mem_parts (t : Term) : t ∈ t.parts := by
  cases t <;> exact List.mem_cons_self

/-- The atoms are the parts that cannot be taken apart. -/
theorem Term.atom_mem_parts {t : Term} {a : Atom} : .atom a ∈ t.parts ↔ a ∈ t.atoms := by
  induction t with
  | atom b => simp [parts, atoms]
  | seq l r ihl ihr => simp [parts, atoms, ihl, ihr]
  | par l r ihl ihr => simp [parts, atoms, ihl, ihr]
  | transform f t ih => simp [parts, atoms, ih]

/-- The class that the atom names, if it names one, exists. -/
def Atom.Bounded : Atom → Prop
  | .literal c => c < classCount
  | .lift c => c < classCount
  | _ => True

instance : (a : Atom) → Decidable a.Bounded
  | .literal c => inferInstanceAs (Decidable (c < classCount))
  | .lift c => inferInstanceAs (Decidable (c < classCount))
  | .param _ => .isTrue trivial
  | .grade _ => .isTrue trivial
  | .toClass => .isTrue trivial
  | .ring _ _ => .isTrue trivial

/-- All classes that the term names exist. -/
def Term.Bounded (t : Term) : Prop := ∀ a ∈ t.atoms, a.Bounded

instance (t : Term) : Decidable t.Bounded := inferInstanceAs (Decidable (∀ a ∈ t.atoms, a.Bounded))

theorem Term.Bounded.leaves {t : Term} (ht : t.Bounded) : ∀ leaf ∈ t.leaves, leaf.atom.Bounded := by
  intro leaf hleaf
  apply ht
  rw [← t.map_atom_leaves]
  exact List.mem_map_of_mem hleaf

/-! ## Chains of transforms -/

namespace Transform

/-- The action of a chain on coordinates. The innermost transform stands last and acts first. -/
def actChain (chain : List Transform) (c : Coordinates) : Coordinates := chain.foldr act c

/-- The action of a chain on elements. -/
def actChainElement (chain : List Transform) (x : Element) : Element := chain.foldr actElement x

theorem actChain_append (fs gs : List Transform) (c : Coordinates) :
    actChain (fs ++ gs) c = actChain fs (actChain gs c) := List.foldr_append

theorem actChainElement_append (fs gs : List Transform) (x : Element) :
    actChainElement (fs ++ gs) x = actChainElement fs (actChainElement gs x) := List.foldr_append

end Transform

theorem Element.Canonical.actChainElement {x : Element} (hx : x.Canonical)
    (chain : List Transform) : (Transform.actChainElement chain x).Canonical := by
  induction chain with
  | nil => exact hx
  | cons f chain ih => exact ih.actElement f

namespace Register

/-- A register below a chain of transforms. -/
def move (chain : List Transform) (r : Register) : Register := chain.foldr transform r

/-- The value of the register is the index of a class. -/
def Bounded (r : Register) : Prop := r.value < classCount

/-- A chain moves the coordinates of a class, and keeps the flag. -/
theorem move_eq (chain : List Transform) {r : Register} (hr : r.Bounded) :
    r.move chain =
      ⟨(Transform.actChain chain (.ofClass r.value)).classIndex, r.overflow⟩ := by
  induction chain with
  | nil =>
      -- the only place where the bound is used: without a transform the value is not reduced
      show r = ⟨(Coordinates.ofClass r.value).classIndex, r.overflow⟩
      rw [Coordinates.classIndex_ofClass, Nat.mod_eq_of_lt hr]
  | cons f chain ih =>
      show (r.move chain).transform f = _
      rw [ih]
      simp only [transform, Transform.actClass, Coordinates.ofClass_classIndex]
      rfl

theorem Bounded.move {r : Register} (hr : r.Bounded) (chain : List Transform) :
    (r.move chain).Bounded := by
  rw [move_eq chain hr]
  exact Coordinates.classIndex_lt _

theorem bounded_ofInt (n : Int) : (ofInt n).Bounded := by
  simp only [Bounded, ofInt, plain, classCount]
  omega

theorem bounded_ring (op : RingOp) (mode : OverflowMode) (left right : Int) :
    (ring op mode left right).Bounded := by
  simp only [Bounded, ring, classCount]
  omega

theorem value_ring (op : RingOp) (mode : OverflowMode) (left right : Int) :
    ((ring op mode left right).value : Int) = op.eval left right % 96 :=
  Int.toNat_of_nonneg (Int.emod_nonneg _ (by decide))

theorem overflow_ring (op : RingOp) (mode : OverflowMode) (left right : Int) :
    (ring op mode left right).overflow =
      if mode = .track then some (decide (op.eval left right < 0 ∨ 96 ≤ op.eval left right))
      else none := by
  cases mode with
  | drop => rfl
  | track =>
      show some (!(decide (0 ≤ op.eval left right) && decide (op.eval left right < 96))) = _
      rw [if_pos rfl, ← Bool.decide_and, ← decide_not]
      simp only [not_and_or, not_le, not_lt]

theorem outcome_of_none {r : Register} (h : r.overflow = none) :
    r.outcome = .number r.value := by
  rw [outcome, h]

theorem outcome_of_some {r : Register} {flag : Bool} (h : r.overflow = some flag) :
    r.outcome = .tracked r.value flag := by
  rw [outcome, h]

theorem value_outcome (r : Register) : r.outcome.value = some r.value := by
  unfold outcome
  split <;> rfl

theorem overflow_outcome (r : Register) : r.outcome.overflow = r.overflow := by
  unfold outcome
  split
  · next o ho => exact ho.symm
  · next ho => exact ho.symm

end Register

namespace Element

theorem lift_of_lt {c : Nat} (hc : c < classCount) : lift c = .ok (ofCoordinates (.ofClass c)) :=
  if_pos hc

theorem canonical_ofCoordinates (c : Coordinates) : (ofCoordinates c).Canonical := by
  refine ⟨List.pairwise_singleton _ _, ?_, ?_⟩
  · intro t ht
    rw [List.mem_singleton.mp ht]
    show (1 : Int) ≠ 0
    decide
  · intro t ht
    rw [List.mem_singleton.mp ht]
    show InRange 1
    decide

theorem project?_lt {x : Element} {c : Nat} (h : x.project? = some c) : c < classCount := by
  obtain ⟨coords, -, rfl⟩ := Option.map_eq_some_iff.mp h
  exact coords.classIndex_lt

end Element

theorem Params.int_of_find? {p : Params} {name : String} {n : Int}
    (h : Table.find? name p = some (.int n)) : p.int name = .ok n := by
  rw [int, require, h]
  rfl

/-! ## The class backend -/

namespace ClassOp

/-- The instructions of a list of leaves. -/
def ofLeaves (leaves : List Leaf) : Except LoweringError (List ClassOp) :=
  return (← leaves.mapM ofLeaf).flatten

theorem ofLeaves_nil : ofLeaves [] = .ok [] := rfl

theorem ofLeaves_cons (leaf : Leaf) (rest : List Leaf) :
    ofLeaves (leaf :: rest) = do
      let op ← ofAtom leaf.atom
      let ops ← ofLeaves rest
      return op :: (leaf.applied.map .transform ++ ops) := by
  simp only [ofLeaves, ofLeaf, List.mapM_cons]
  cases ofAtom leaf.atom with
  | error e => rfl
  | ok op =>
      cases rest.mapM ofLeaf with
      | error e => rfl
      | ok opss => rfl

theorem ofLeaves_cons_eq_ok {leaf : Leaf} {rest : List Leaf} {ops : List ClassOp} :
    ofLeaves (leaf :: rest) = .ok ops ↔
      ∃ op ops', ofAtom leaf.atom = .ok op ∧ ofLeaves rest = .ok ops' ∧
        ops = op :: (leaf.applied.map .transform ++ ops') := by
  rw [ofLeaves_cons, bind_eq_ok]
  constructor
  · rintro ⟨op, hop, h⟩
    obtain ⟨ops', hrest, h⟩ := bind_eq_ok.mp h
    exact ⟨op, ops', hop, hrest, (Except.ok.inj h).symm⟩
  · rintro ⟨op, ops', hop, hrest, rfl⟩
    exact ⟨op, hop, bind_eq_ok.mpr ⟨ops', hrest, rfl⟩⟩

/-- An atom has an instruction unless it projects a grade. -/
theorem ofAtom_eq_ok_iff (a : Atom) : (∃ op, ofAtom a = .ok op) ↔ a.isGrade = false := by
  cases a <;> simp [ofAtom, Atom.isGrade]

/-- **Leaves lower to class instructions exactly when none of them projects a grade.** -/
theorem ofLeaves_eq_ok_iff (leaves : List Leaf) :
    (∃ ops, ofLeaves leaves = .ok ops) ↔ ∀ leaf ∈ leaves, leaf.atom.isGrade = false := by
  induction leaves with
  | nil => exact ⟨fun _ _ h => (List.not_mem_nil h).elim, fun _ => ⟨[], ofLeaves_nil⟩⟩
  | cons leaf rest ih =>
      rw [List.forall_mem_cons, ← ih, ← ofAtom_eq_ok_iff]
      constructor
      · rintro ⟨ops, h⟩
        obtain ⟨op, ops', hop, hrest, -⟩ := ofLeaves_cons_eq_ok.mp h
        exact ⟨⟨op, hop⟩, ops', hrest⟩
      · rintro ⟨⟨op, hop⟩, ops', hrest⟩
        exact ⟨_, ofLeaves_cons_eq_ok.mpr ⟨op, ops', hop, hrest, rfl⟩⟩

theorem ofAtom_eq_error {a : Atom} {e : LoweringError} (h : ofAtom a = .error e) :
    e = .gradeProjection := by
  cases a with
  | grade g =>
      cases h
      rfl
  | _ => cases h

/-- Nothing but a grade projection keeps leaves from being lowered. -/
theorem ofLeaves_eq_error {leaves : List Leaf} {e : LoweringError}
    (h : ofLeaves leaves = .error e) : e = .gradeProjection := by
  induction leaves with
  | nil => cases h
  | cons leaf rest ih =>
      rw [ofLeaves_cons] at h
      cases hatom : ofAtom leaf.atom with
      | error e' =>
          rw [hatom] at h
          cases h
          exact ofAtom_eq_error hatom
      | ok op =>
          cases hrest : ofLeaves rest with
          | error e' =>
              rw [hatom, hrest] at h
              cases h
              exact ih hrest
          | ok ops =>
              rw [hatom, hrest] at h
              cases h

/-- Every leaf has one instruction for its atom and one for each transform above it. -/
theorem length_ofLeaves {leaves : List Leaf} {ops : List ClassOp} (h : ofLeaves leaves = .ok ops) :
    ops.length = (leaves.map fun leaf => leaf.chain.length + 1).sum := by
  induction leaves generalizing ops with
  | nil =>
      cases h
      rfl
  | cons leaf rest ih =>
      obtain ⟨op, ops', -, hrest, rfl⟩ := ofLeaves_cons_eq_ok.mp h
      have hlength := ih hrest
      simp only [List.length_cons, List.length_append, List.length_map, Leaf.applied,
        List.length_reverse, List.map_cons, List.sum_cons]
      omega

end ClassOp

/-- **A term lowers to a class plan exactly when it projects no grade.** -/
theorem Term.classPlan_eq_ok_iff (t : Term) :
    (∃ ops, t.classPlan = .ok ops) ↔ t.classPure = true := by
  rw [show t.classPlan = ClassOp.ofLeaves t.leaves from rfl, ClassOp.ofLeaves_eq_ok_iff, classPure,
    List.all_eq_true, ← t.map_atom_leaves]
  simp

theorem Term.classPlan_eq_error_iff (t : Term) :
    (∃ e, t.classPlan = .error e) ↔ t.classPure = false := by
  rw [← Bool.not_eq_true, ← classPlan_eq_ok_iff]
  cases t.classPlan with
  | error e => simp
  | ok ops => simp

namespace ClassOp

/-- Runs instructions from a state, without giving an outcome yet. -/
def runFrom (p : Params) (state : Option Register) (ops : List ClassOp) :
    Except ExecutionError (Option Register) := ops.foldlM (step p) state

theorem run_eq (ops : List ClassOp) (p : Params) :
    run ops p = (runFrom p none ops).map finish := by
  rw [run, ← runFrom]
  cases runFrom p none ops with
  | error e => rfl
  | ok s => rfl

theorem runFrom_append (p : Params) (state : Option Register) (ops rest : List ClassOp) :
    runFrom p state (ops ++ rest) = runFrom p state ops >>= fun state' => runFrom p state' rest :=
  List.foldlM_append

theorem step_ring {p : Params} {state : Option Register} {left right : Int} (op : RingOp)
    (mode : OverflowMode) (hleft : leftValue p state = .ok left)
    (hright : p.int rightOperand = .ok right) :
    step p state (.ring op mode) = .ok (some (.ring op mode left right)) := by
  rw [step, hleft, hright]
  rfl

theorem runFrom_transforms (p : Params) (state : Option Register) (chain : List Transform)
    (rest : List ClassOp) :
    runFrom p state (chain.reverse.map .transform ++ rest) =
      runFrom p (state.map (Register.move chain)) rest := by
  induction chain generalizing rest with
  | nil =>
      show runFrom p state rest = runFrom p (state.map id) rest
      rw [Option.map_id_apply]
  | cons f chain ih =>
      -- the outermost transform stands last in the plan, right before the rest
      rw [List.reverse_cons, List.map_append, List.append_assoc, ih]
      show runFrom p ((state.map (Register.move chain)).map (Register.transform f)) rest = _
      rw [Option.map_map]
      rfl

/-- **One leaf of a run**: its atom, and then its chain. -/
theorem runFrom_leaf (p : Params) (state : Option Register) (op : ClassOp) (leaf : Leaf)
    (rest : List ClassOp) :
    runFrom p state (op :: (leaf.applied.map .transform ++ rest)) =
      step p state op >>= fun state' => runFrom p (state'.map (Register.move leaf.chain)) rest := by
  rw [runFrom, List.foldlM_cons]
  congr 1
  funext state'
  exact runFrom_transforms p state' leaf.chain rest

end ClassOp

/-! ## The element backend -/

namespace ElementOp

/-- A value below a chain of transforms. -/
def Cell.move (chain : List Transform) (cell : Cell) : Cell := chain.foldr Cell.transform cell

theorem Cell.move_number (chain : List Transform) (r : Register) :
    Cell.move chain (.number r) = .number (r.move chain) := by
  induction chain with
  | nil => rfl
  | cons f chain ih =>
      show (Cell.move chain (.number r)).transform f = _
      rw [ih]
      rfl

theorem Cell.move_element (chain : List Transform) (x : Element) :
    Cell.move chain (.element x) = .element (Transform.actChainElement chain x) := by
  induction chain with
  | nil => rfl
  | cons f chain ih =>
      show (Cell.move chain (.element x)).transform f = _
      rw [ih]
      rfl

theorem runFrom_transforms (p : Params) (state : Option Cell) (chain : List Transform)
    (rest : List ElementOp) :
    runFrom p state ((chain.reverse.map fun f => .core (.transform f)) ++ rest) =
      runFrom p (state.map (Cell.move chain)) rest := by
  induction chain generalizing rest with
  | nil =>
      show runFrom p state rest = runFrom p (state.map id) rest
      rw [Option.map_id_apply]
  | cons f chain ih =>
      rw [List.reverse_cons, List.map_append, List.append_assoc, ih]
      show runFrom p ((state.map (Cell.move chain)).map (Cell.transform f)) rest = _
      rw [Option.map_map]
      rfl

/-- Element plans are as long as class plans. -/
theorem length_ofLeaves (leaves : List Leaf) :
    (leaves.flatMap ofLeaf).length = (leaves.map fun leaf => leaf.chain.length + 1).sum := by
  rw [List.length_flatMap]
  simp [ofLeaf, Leaf.applied]

/-- What a run does after an instruction of an atom with a chain above it. -/
def Next.resume (p : Params) (chain : List Transform) (rest : List ElementOp) :
    Next → Except ExecutionError Outcome
  | .state cell => runFrom p (cell.map (Cell.move chain)) rest
  | .absent => .ok .absent

/-- **One leaf of a run**: its atom, and then its chain, unless the atom ends the run. -/
theorem runFrom_leaf (p : Params) (state : Option Cell) (leaf : Leaf) (rest : List ElementOp) :
    runFrom p state (ofLeaf leaf ++ rest) =
      step p state (ofAtom leaf.atom) >>= Next.resume p leaf.chain rest := by
  rw [ofLeaf, List.cons_append, runFrom]
  congr 1
  funext next
  cases next with
  | state cell => exact runFrom_transforms p cell leaf.chain rest
  | absent => rfl

end ElementOp

end NinetySix
