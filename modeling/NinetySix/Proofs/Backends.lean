import NinetySix.Proofs.Leafwise

set_option autoImplicit false

/-! # The two backends agree

The element backend has two ways to hold a class: as a number, like the class backend, or as the
element of rank one that lifting gives. `Matches` relates a register of the class backend to a value
of the element backend in either form, and the proof is a simulation along the leaves of a term. The
relation is kept by chains of transforms, since lifting commutes with every transform
(`Transform.actElement_ofCoordinates`), and by every atom but grade projection; a ring operation and
the projection to a class read the number back from an element (`Element.project?_ofCoordinates`).

The simulation ends early where the class backend fails. A missing parameter is missing for both
backends. An element in the place of an integer is refused by the class backend only, so then
nothing is said about the other one.
-/

namespace NinetySix

/-! ## Lifting commutes with the moves -/

theorem Modality.toFin_mirrored (d : Modality) : d.mirrored.toFin = -d.toFin := by
  cases d <;> decide

theorem Transform.actElement_ofCoordinates (f : Transform) (c : Coordinates) :
    f.actElement (.ofCoordinates c) = .ofCoordinates (f.act c) := by
  cases f with
  | mirror =>
      show (⟨_, -c.modality.toFin, _⟩ : Element) = ⟨_, c.modality.mirrored.toFin, _⟩
      rw [Modality.toFin_mirrored]
      rfl
  | power a k =>
      cases a with
      | rotate => rfl
      | triality =>
          show (⟨_, shift c.modality.toFin k, _⟩ : Element) = ⟨_, (Modality.ofFin _).toFin, _⟩
          rw [Modality.toFin_ofFin]
          rfl
      | twist =>
          show (⟨_, _, ⟨[(Element.twistBlade k (Blade.ofSlot c.slot), 1)]⟩⟩ : Element) = _
          rw [Element.twistBlade_ofSlot]
          rfl

theorem Element.project?_ofCoordinates (c : Coordinates) :
    (Element.ofCoordinates c).project? = some c.classIndex := by
  have hslot : (Element.ofCoordinates c).slot? = some c.slot := Blade.slot?_ofSlot c.slot
  rw [Element.project?, Element.coordinates?, hslot]
  show some (Coordinates.classIndex ⟨c.quadrant, .ofFin c.modality.toFin, c.slot⟩) = _
  rw [Modality.ofFin_toFin]

/-! ## Values of the two backends -/

/-- The value of the element backend is the one of the class backend, as a number or lifted. -/
inductive Matches : Register → ElementOp.Cell → Prop where
  | number (r : Register) : Matches r (.number r)
  | lifted (c : Coordinates) : Matches (.plain c.classIndex) (.element (.ofCoordinates c))

namespace Matches

variable {r : Register} {cell : ElementOp.Cell}

theorem transform (h : Matches r cell) (f : Transform) :
    Matches (r.transform f) (cell.transform f) := by
  cases h with
  | number r => exact .number _
  | lifted c =>
      show Matches (.plain (f.actClass c.classIndex)) (.element (f.actElement (.ofCoordinates c)))
      rw [f.actElement_ofCoordinates, Transform.actClass, Coordinates.ofClass_classIndex]
      exact .lifted (f.act c)

theorem move (h : Matches r cell) (chain : List Transform) :
    Matches (r.move chain) (cell.move chain) := by
  induction chain with
  | nil => exact h
  | cons f chain ih => exact ih.transform f

/-- The class of a value is the number that the class backend holds. -/
theorem classValue (h : Matches r cell) : cell.classValue = .ok r.value := by
  cases h with
  | number r => rfl
  | lifted c =>
      simp only [ElementOp.Cell.classValue, Element.project, Element.project?_ofCoordinates]
      rfl

theorem outcome (h : Matches r cell) :
    cell.outcome.value = r.outcome.value ∧ cell.outcome.overflow = r.outcome.overflow := by
  cases h with
  | number r => exact ⟨rfl, rfl⟩
  | lifted c => exact ⟨Element.project?_ofCoordinates c, rfl⟩

end Matches

/-! ## Results of the two backends -/

/-- How a result of the class backend is matched: both succeed, and the results are related; both
miss the same parameter; or the class backend refuses an element. -/
inductive Simulates {α β : Type} (rel : α → β → Prop) :
    Except ExecutionError α → Except ExecutionError β → Prop where
  | ok {a : α} {b : β} (h : rel a b) : Simulates rel (.ok a) (.ok b)
  | missing (name : String) :
      Simulates rel (.error (.missingParameter name)) (.error (.missingParameter name))
  | refused (name : String) (result : Except ExecutionError β) :
      Simulates rel (.error (.parameterType name "integer")) result

theorem Simulates.bind {α β γ δ : Type} {rel : α → β → Prop} {rel' : γ → δ → Prop}
    {x : Except ExecutionError α} {y : Except ExecutionError β}
    {f : α → Except ExecutionError γ} {g : β → Except ExecutionError δ} (h : Simulates rel x y)
    (hfg : ∀ a b, rel a b → Simulates rel' (f a) (g b)) : Simulates rel' (x >>= f) (y >>= g) := by
  cases h with
  | @ok a b h => exact hfg a b h
  | missing name => exact .missing name
  | refused name result => exact .refused name _

theorem Simulates.exists_of_ok {α β : Type} {rel : α → β → Prop} {a : α}
    {y : Except ExecutionError β} (h : Simulates rel (.ok a) y) : ∃ b, y = .ok b ∧ rel a b := by
  cases h with
  | @ok _ b h => exact ⟨b, rfl, h⟩

variable {p : Params}

theorem Params.int_simulates_operand (p : Params) (name : String) :
    Simulates Eq (p.int name) (p.operand name) := by
  unfold Params.int Params.operand Params.require
  cases Table.find? name p with
  | none => exact .missing name
  | some v =>
      cases v with
      | int n => exact .ok rfl
      | element x => exact .refused name _

theorem Params.int_simulates_load (p : Params) (name : String) :
    Simulates (fun n cell => cell = .number (.ofInt n)) (p.int name) (ElementOp.load p name) := by
  unfold Params.int ElementOp.load Params.require
  cases Table.find? name p with
  | none => exact .missing name
  | some v =>
      cases v with
      | int n => exact .ok rfl
      | element x => exact .refused name _

theorem leftValue_simulates {s : Option Register} {s' : Option ElementOp.Cell}
    (hs : Option.Rel Matches s s') :
    Simulates Eq (ClassOp.leftValue p s) (ElementOp.leftValue p s') := by
  cases hs with
  | none => exact p.int_simulates_operand leftOperand
  | some h =>
      rw [ElementOp.leftValue, h.classValue]
      exact .ok rfl

/-! ## The simulation -/

/-- Both backends hold a value, and the two match. -/
inductive MatchesNext : Option Register → ElementOp.Next → Prop where
  | intro {r : Register} {cell : ElementOp.Cell} (h : Matches r cell) :
      MatchesNext (some r) (.state (some cell))

/-- **One atom on both backends.** Projecting to a class needs a value on the element backend. -/
theorem step_simulates {a : Atom} {op : ClassOp} {s : Option Register}
    {s' : Option ElementOp.Cell} (hop : ClassOp.ofAtom a = .ok op) (ha : a.Bounded)
    (hs : Option.Rel Matches s s') (hclass : a = .toClass → s ≠ none) :
    Simulates MatchesNext (ClassOp.step p s op) (ElementOp.step p s' (ElementOp.ofAtom a)) := by
  cases a with
  | literal c =>
      cases hop
      exact .ok (.intro (.number _))
  | lift c =>
      cases hop
      have hlift : ElementOp.step p s' (ElementOp.ofAtom (.lift c))
          = .ok (.state (some (.element (.ofCoordinates (.ofClass c))))) := by
        simp only [ElementOp.ofAtom, ElementOp.step, ElementOp.coreStep, Element.lift_of_lt ha]
        rfl
      -- the class backend keeps the index itself, which has to be that of a class
      have hc : (Coordinates.ofClass c).classIndex = c := by
        rw [Coordinates.classIndex_ofClass, Nat.mod_eq_of_lt ha]
      have hmatch := Matches.lifted (.ofClass c)
      rw [hc] at hmatch
      rw [hlift]
      exact .ok (.intro hmatch)
  | param name =>
      cases hop
      refine (p.int_simulates_load name).bind ?_
      rintro n cell rfl
      exact .ok (.intro (.number _))
  | grade g => cases hop
  | toClass =>
      cases hop
      cases hs with
      | none => exact absurd rfl (hclass rfl)
      | some h =>
          cases h with
          | number => exact .ok (.intro (.number _))
          | lifted c =>
              have hproject : ElementOp.step p (some (.element (.ofCoordinates c)))
                  (ElementOp.ofAtom .toClass) = .ok (.state (some (.number (.plain c.classIndex)))) := by
                simp only [ElementOp.ofAtom, ElementOp.step, ElementOp.coreStep,
                  Element.project?_ofCoordinates]
              rw [hproject]
              exact .ok (.intro (.number _))
  | ring op mode =>
      cases hop
      refine (leftValue_simulates hs).bind ?_
      rintro left _ rfl
      refine (p.int_simulates_operand rightOperand).bind ?_
      rintro right _ rfl
      exact .ok (.intro (.number _))

/-- The first leaf has the first atom. -/
theorem Term.atom_ne_of_head? {t : Term} {a : Atom} (h : t.atoms.head? ≠ some a) :
    ∀ leaf ∈ t.leaves.head?, leaf.atom ≠ a := by
  intro leaf hleaf hatom
  rw [← t.map_atom_leaves, List.head?_map, hleaf] at h
  exact h (congrArg some hatom)

/-- **The leaves of a term on both backends.** Only the first atom can meet an empty state. -/
theorem runFrom_simulates {leaves : List Leaf} {ops : List ClassOp}
    (hops : ClassOp.ofLeaves leaves = .ok ops) (hb : ∀ leaf ∈ leaves, leaf.atom.Bounded)
    {s : Option Register} {s' : Option ElementOp.Cell} (hs : Option.Rel Matches s s')
    (hclass : ∀ leaf ∈ leaves.head?, leaf.atom = .toClass → s ≠ none) :
    Simulates (fun s o => ∃ s', Option.Rel Matches s s' ∧ o = ElementOp.finish s')
      (ClassOp.runFrom p s ops)
      (ElementOp.runFrom p s' (leaves.flatMap ElementOp.ofLeaf)) := by
  induction leaves generalizing ops s s' with
  | nil =>
      cases hops
      exact .ok ⟨s', hs, rfl⟩
  | cons leaf rest ih =>
      obtain ⟨op, ops, hop, hrest, rfl⟩ := ClassOp.ofLeaves_cons_eq_ok.mp hops
      rw [List.flatMap_cons, ClassOp.runFrom_leaf, ElementOp.runFrom_leaf]
      have hstep := step_simulates (p := p) hop (hb leaf List.mem_cons_self) hs (hclass leaf rfl)
      refine hstep.bind ?_
      -- from here on there is a value, so a later projection to a class has its input
      rintro _ _ ⟨hmatch⟩
      refine ih hrest (fun l hl => hb l (List.mem_cons_of_mem _ hl))
        (.some (hmatch.move leaf.chain)) ?_
      intro _ _ _ hnone
      cases hnone

theorem finish_matches {s : Option Register} {s' : Option ElementOp.Cell}
    (hs : Option.Rel Matches s s') :
    (ElementOp.finish s').value = (ClassOp.finish s).value ∧
      (ElementOp.finish s').overflow = (ClassOp.finish s).overflow := by
  cases hs with
  | none => exact ⟨rfl, rfl⟩
  | some h => exact h.outcome

/-- **The two backends agree.** A term that projects no grade, names only classes that exist and
does not begin with a projection to a class has a class plan. If that plan gives an outcome, the
element plan gives one with the same value and the same overflow flag; if it misses a parameter, so
does the element plan; and otherwise it refuses an element where it wants an integer. -/
theorem backends_agree {t : Term} (hpure : t.classPure = true) (ht : t.Bounded)
    (hhead : t.atoms.head? ≠ some .toClass) (p : Params) :
    ∃ ops, t.classPlan = .ok ops ∧
      (∀ o, ClassOp.run ops p = .ok o → ∃ o', ElementOp.run t.elementPlan p = .ok o' ∧
        o'.value = o.value ∧ o'.overflow = o.overflow) ∧
      (∀ name, ClassOp.run ops p = .error (.missingParameter name) →
        ElementOp.run t.elementPlan p = .error (.missingParameter name)) ∧
      (∀ e, ClassOp.run ops p = .error e →
        (∃ name, e = .missingParameter name) ∨ ∃ name, e = .parameterType name "integer") := by
  obtain ⟨ops, hops⟩ := t.classPlan_eq_ok_iff.mpr hpure
  have hsim := runFrom_simulates (p := p) hops ht.leaves .none
    fun leaf hleaf hatom => absurd hatom (Term.atom_ne_of_head? hhead leaf hleaf)
  refine ⟨ops, hops, ?_⟩
  rw [ClassOp.run_eq, show ElementOp.run t.elementPlan p
    = ElementOp.runFrom p none (t.leaves.flatMap ElementOp.ofLeaf) from rfl]
  revert hsim
  generalize ClassOp.runFrom p none ops = c
  generalize ElementOp.runFrom p none (t.leaves.flatMap ElementOp.ofLeaf) = e
  intro hsim
  cases hsim with
  | ok h =>
      obtain ⟨s', hs, rfl⟩ := h
      refine ⟨?_, ?_, ?_⟩
      · rintro o ⟨⟩
        exact ⟨_, rfl, finish_matches hs⟩
      · rintro name ⟨⟩
      · rintro e ⟨⟩
  | missing name =>
      refine ⟨?_, ?_, ?_⟩
      · rintro o ⟨⟩
      · rintro name ⟨⟩
        rfl
      · rintro e ⟨⟩
        exact .inl ⟨name, rfl⟩
  | refused name result =>
      refine ⟨?_, ?_, ?_⟩
      · rintro o ⟨⟩
      · rintro name ⟨⟩
      · rintro e ⟨⟩
        exact .inr ⟨name, rfl⟩

/-- A sum, and then a class that is lifted, mirrored and rotated by more than a full turn. -/
def sumThenLift : Term :=
  .seq (.atom (.ring .add .track))
    (.transform (.power .rotate 5) (.transform .mirror (.atom (.lift 83))))

/-- The class backend ends with the number 19, so the element backend ends with its element. -/
theorem backends_agree_sumThenLift :
    sumThenLift.classPure = true ∧ sumThenLift.Bounded ∧
    sumThenLift.atoms.head? ≠ some .toClass ∧
    ∃ o, ElementOp.run sumThenLift.elementPlan [("a", .int 95), ("b", .int 2)] = .ok o ∧
      o.value = some 19 ∧ o.overflow = none := by
  have hpure : sumThenLift.classPure = true := rfl
  have hb : sumThenLift.Bounded := by decide
  have hhead : sumThenLift.atoms.head? ≠ some .toClass := by decide
  obtain ⟨ops, hops, hok, -⟩ :=
    backends_agree hpure hb hhead [("a", .int 95), ("b", .int 2)]
  cases hops
  exact ⟨hpure, hb, hhead, hok (.number 19) rfl⟩

end NinetySix
