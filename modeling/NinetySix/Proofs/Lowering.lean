import NinetySix.Proofs.Convergence
import NinetySix.Proofs.Leafwise

set_option autoImplicit false

/-! # Lowering follows the classification

Classifying a term and lowering it are two walks over the same tree. The classifier looks for grade
projections among the atoms; lowering collects the leaves, each with the transforms above it, and
refuses a leaf that projects a grade. `lowering_follows_classification` says that the two agree: the
backend that is chosen for a term can always run it.

The plans are compared instruction by instruction. A leaf gives one instruction for its atom and one
for each transform on the route to it (`Term.map_chain_leaves`), on either backend, and the element
backend has the instructions of the class backend among its own (`ElementOp.flatMap_ofLeaf`).
-/

namespace NinetySix

/-! ## Routes and leaves -/

/-- The transforms on a route, the outermost first. -/
def Route.transforms (w : Route) : List Transform :=
  w.filterMap fun
    | .composition => none
    | .transform f => some f

namespace Term

/-- The chain above a leaf has the transforms on the route to it. -/
theorem map_chain_leaves (t : Term) :
    t.leaves.map Leaf.chain = t.routes.map Route.transforms := by
  have hcomposition : Route.transforms ∘ (.composition :: ·) = Route.transforms := rfl
  induction t with
  | atom a => rfl
  | seq l r ihl ihr =>
      rw [leaves, routes, List.map_append, List.map_map, hcomposition, List.map_append, ihl, ihr]
  | par l r ihl ihr =>
      rw [leaves, routes, List.map_append, List.map_map, hcomposition, List.map_append, ihl, ihr]
  | transform f t ih =>
      calc (Term.transform f t).leaves.map Leaf.chain
          = (t.leaves.map Leaf.chain).map (f :: ·) := by simp [leaves, Leaf.under]
        _ = (t.routes.map Route.transforms).map (f :: ·) := by rw [ih]
        _ = (Term.transform f t).routes.map Route.transforms := by
            simp [routes, Route.transforms]

/-- The number of instructions that the leaves ask for. -/
theorem sum_length_chains (t : Term) :
    (t.leaves.map fun leaf => leaf.chain.length + 1).sum =
      (t.routes.map fun w => 1 + w.transforms.length).sum := by
  have hchains : t.leaves.map (fun leaf => leaf.chain.length + 1)
      = (t.leaves.map Leaf.chain).map fun chain => 1 + chain.length := by
    simp [Nat.add_comm]
  rw [hchains, map_chain_leaves, List.map_map]
  rfl

/-- The classifier finds a grade projection wherever it stands. -/
theorem classPure_iff (t : Term) : t.classPure = true ↔ ∀ g, .atom (.grade g) ∉ t.parts := by
  simp only [classPure, List.all_eq_true, atom_mem_parts]
  constructor
  · intro h g hg
    cases h _ hg
  · intro h a ha
    cases a with
    | grade g => exact absurd ha (h g)
    | _ => rfl

end Term

/-! ## Instructions -/

theorem ElementOp.ofAtom_eq_core {a : Atom} {op : ClassOp} (h : ClassOp.ofAtom a = .ok op) :
    ElementOp.ofAtom a = .core op := by
  cases a with
  | grade g => cases h
  | _ =>
      cases h
      rfl

/-- **Leaves have the same instructions on both backends**, where the class backend has them. -/
theorem ElementOp.flatMap_ofLeaf {leaves : List Leaf} {ops : List ClassOp}
    (h : ClassOp.ofLeaves leaves = .ok ops) : leaves.flatMap ofLeaf = ops.map .core := by
  induction leaves generalizing ops with
  | nil =>
      cases h
      rfl
  | cons leaf rest ih =>
      obtain ⟨op, ops', hop, hrest, rfl⟩ := ClassOp.ofLeaves_cons_eq_ok.mp h
      rw [List.flatMap_cons, ih hrest, ofLeaf, ofAtom_eq_core hop]
      simp

theorem ClassOp.ofLeaves_append (leaves rest : List Leaf) :
    ofLeaves (leaves ++ rest) = do return (← ofLeaves leaves) ++ (← ofLeaves rest) := by
  simp only [ofLeaves, List.mapM_append]
  cases leaves.mapM ofLeaf with
  | error e => rfl
  | ok opss =>
      cases rest.mapM ofLeaf with
      | error e => rfl
      | ok opss' => exact congrArg Except.ok List.flatten_append

/-! ## The choice of a backend -/

namespace Term

variable {t : Term}

theorem plan_byClass_of_impure (h : t.classPure = false) :
    t.plan .byClass = .error .gradeProjection := by
  obtain ⟨e, he⟩ := t.classPlan_eq_error_iff.mpr h
  obtain rfl : e = .gradeProjection := ClassOp.ofLeaves_eq_error he
  rw [plan, he]
  rfl

theorem plan_eq_ok {b : Backend} (h : b = .byClass → t.classPure = true) :
    ∃ plan, t.plan b = .ok plan := by
  cases b with
  | byClass =>
      obtain ⟨ops, hops⟩ := t.classPlan_eq_ok_iff.mpr (h rfl)
      exact ⟨.byClass ops, by rw [plan, hops]; rfl⟩
  | byElement => exact ⟨_, rfl⟩

/-- The class backend is chosen for terms that project no grade only. -/
theorem classPure_of_select {compiled : Bool}
    (h : Preference.auto.select (t.tier compiled) = .byClass) : t.classPure = true := by
  by_contra hpure
  have himpure : t.signals.classPure = false := Bool.eq_false_iff.mpr hpure
  rw [tier, Signals.tier, himpure] at h
  split at h
  · cases h
  · simp [Preference.select] at h

end Term

/-- **Lowering follows the classification.** A term has a class plan exactly if it is classified as
free of grade projections, that is if none stands in it at any depth; the backend that is chosen
for its tier has a plan for it. If there is a class plan, the element plan has the same instructions
in the same order: for every route to an atom one for the atom and one for each transform on the
route. On either backend, a composition is lowered to the plans of its two sides, one after the
other. -/
theorem lowering_follows_classification (t : Term) :
    ((∃ ops, t.classPlan = .ok ops) ↔ t.signals.classPure = true) ∧
    (t.signals.classPure = true ↔ ∀ g, .atom (.grade g) ∉ t.parts) ∧
    (∀ compiled, ∃ plan, t.plan (Preference.auto.select (t.tier compiled)) = .ok plan) ∧
    (∀ ops, t.classPlan = .ok ops →
      ops.length = t.elementPlan.length ∧
      ops.length = (t.routes.map fun w => 1 + w.transforms.length).sum ∧
      t.elementPlan = ops.map .core) ∧
    ∀ l r, t = .seq l r ∨ t = .par l r →
      t.classPlan = (do return (← l.classPlan) ++ (← r.classPlan)) ∧
      t.elementPlan = l.elementPlan ++ r.elementPlan := by
  refine ⟨t.classPlan_eq_ok_iff, t.classPure_iff, ?_, ?_, ?_⟩
  · intro compiled
    exact Term.plan_eq_ok Term.classPure_of_select
  · intro ops hops
    have hcore : t.elementPlan = ops.map .core := ElementOp.flatMap_ofLeaf hops
    have hlength := (ClassOp.length_ofLeaves hops).trans t.sum_length_chains
    exact ⟨by rw [hcore, List.length_map], hlength, hcore⟩
  · rintro l r (rfl | rfl)
    · exact ⟨ClassOp.ofLeaves_append l.leaves r.leaves, List.flatMap_append⟩
    · exact ⟨ClassOp.ofLeaves_append l.leaves r.leaves, List.flatMap_append⟩

/-- A mirror over a parameter and a rotated sum, beside a projection to a class. -/
def mirroredLoad : Term :=
  .par
    (.transform .mirror (.seq (.atom (.param "x"))
      (.transform (.power .rotate 5) (.atom (.ring .add .track)))))
    (.atom .toClass)

/-- A grade projection below a mirror, in one side of a twisted composition. -/
def buriedGrade : Term :=
  .transform (.power .twist 3)
    (.seq (.atom (.lift 5)) (.transform .mirror (.atom (.grade 1))))

/-- The first term has a plan of two, three and one instructions. The second has a plan for the
backend that is chosen, but no class plan. -/
theorem lowering_follows_classification_mirroredLoad :
    (∃ ops, mirroredLoad.classPlan = .ok ops ∧ ops.length = 2 + 3 + 1 ∧
      mirroredLoad.elementPlan = ops.map .core) ∧
    (∃ plan, buriedGrade.plan (Preference.auto.select (buriedGrade.tier true)) = .ok plan) ∧
    ¬ ∃ ops, buriedGrade.classPlan = .ok ops := by
  obtain ⟨hplan, hgrade, -, hops, -⟩ := lowering_follows_classification mirroredLoad
  obtain ⟨hplan', -, hselect, -⟩ := lowering_follows_classification buriedGrade
  refine ⟨?_, hselect true, ?_⟩
  · obtain ⟨ops, h⟩ := hplan.mpr (hgrade.mpr (by simp [mirroredLoad, Term.parts]))
    obtain ⟨-, hlength, hcore⟩ := hops ops h
    exact ⟨ops, h, hlength, hcore⟩
  · rw [hplan']
    decide

end NinetySix
