import NinetySix.Proofs.Leafwise
import NinetySix.Proofs.Reduction

set_option autoImplicit false

/-! # Derivations, leaf by leaf

Lowering sees a term through its leaves, and a derivation keeps the atoms of the leaves and their
order. What it changes are the chains of transforms above them, and there it can only do what the
rules do (`Rule.Replaces`), at some place within a chain.

So take a relation between chains that is kept by further transforms above and below
(`ChainCongruence`). If it holds of what the rules replace, then it holds between the chains above
the leaves of the first term of a derivation and those above the leaves of the last
(`ChainCongruence.related_of_derives`).
-/

namespace NinetySix

/-- A relation between chains that is kept by further transforms above and below. -/
structure ChainCongruence (R : List Transform → List Transform → Prop) : Prop where
  refl : ∀ fs, R fs fs
  trans : ∀ {fs gs hs}, R fs gs → R gs hs → R fs hs
  cons : ∀ {fs gs} f, R fs gs → R (f :: fs) (f :: gs)
  append : ∀ {fs gs}, R fs gs → ∀ chain, R (fs ++ chain) (gs ++ chain)

/-- The leaves have one atom, below related chains. -/
def Leaf.Related (R : List Transform → List Transform → Prop) (leaf leaf' : Leaf) : Prop :=
  leaf.atom = leaf'.atom ∧ R leaf.chain leaf'.chain

/-- The terms have the same leaves, up to related chains. -/
def Term.Related (R : List Transform → List Transform → Prop) (t u : Term) : Prop :=
  List.Forall₂ (Leaf.Related R) t.leaves u.leaves

theorem Term.leaves_chained (chain : List Transform) (t : Term) :
    (t.chained chain).leaves = t.leaves.map fun leaf => ⟨leaf.atom, chain ++ leaf.chain⟩ := by
  induction chain with
  | nil => exact (List.map_id' _).symm
  | cons f chain ih =>
      show (t.chained chain).leaves.map (Leaf.under f) = _
      rw [ih, List.map_map]
      rfl

namespace ChainCongruence

variable {R : List Transform → List Transform → Prop} (hR : ChainCongruence R)
variable {rules trace : List Rule} {r : Rule} {t u v : Term}

include hR

theorem related_refl (t : Term) : t.Related R t :=
  List.forall₂_same.mpr fun leaf _ => ⟨rfl, hR.refl leaf.chain⟩

theorem related_trans (h : t.Related R u) (h' : u.Related R v) : t.Related R v := by
  unfold Term.Related at *
  generalize t.leaves = ts, u.leaves = us, v.leaves = vs at h h'
  induction h generalizing vs with
  | nil => exact h'
  | cons hleaf _ ih =>
      cases h' with
      | cons hleaf' hrest =>
          have hatom := hleaf.1.trans hleaf'.1
          have hchain := hR.trans hleaf.2 hleaf'.2
          exact .cons ⟨hatom, hchain⟩ (ih _ hrest)

theorem related_transform (f : Transform) (h : t.Related R u) :
    (Term.transform f t).Related R (.transform f u) := by
  refine List.forall₂_map_left_iff.mpr (List.forall₂_map_right_iff.mpr (h.imp ?_))
  intro leaf leaf' hleaf
  exact ⟨hleaf.1, hR.cons f hleaf.2⟩

theorem related_chained {fs gs : List Transform} (h : R fs gs) (t : Term) :
    (t.chained fs).Related R (t.chained gs) := by
  unfold Term.Related
  rw [Term.leaves_chained, Term.leaves_chained]
  refine List.forall₂_map_left_iff.mpr (List.forall₂_map_right_iff.mpr
    (List.forall₂_same.mpr fun leaf _ => ?_))
  exact ⟨rfl, hR.append h leaf.chain⟩

theorem related_of_reduct? (hr : ∀ fs gs, r.Replaces fs gs → R fs gs)
    (h : r.reduct? t = some u) : t.Related R u := by
  obtain ⟨fs, gs, b, hchain, rfl, rfl⟩ | ⟨-, f, x, y, hxy⟩ := Rule.reduct?_cases h
  · exact hR.related_chained (hr fs gs hchain) b
  · -- distribution does not even change the leaves
    have hleaves : t.leaves = u.leaves := by
      obtain ⟨rfl, rfl⟩ | ⟨rfl, rfl⟩ := hxy
      · exact List.map_append
      · exact List.map_append
    unfold Term.Related
    rw [hleaves]
    exact hR.related_refl u

theorem related_of_reduces (hr : ∀ fs gs, r.Replaces fs gs → R fs gs) (h : Reduces rules r t u) :
    t.Related R u := by
  induction h with
  | root h => exact hR.related_of_reduct? hr (Rule.reduct?_of_fire? h)
  | seqLeft right _ ih => exact List.rel_append ih (hR.related_refl right)
  | seqRight left _ ih => exact List.rel_append (hR.related_refl left) ih
  | parLeft right _ ih => exact List.rel_append ih (hR.related_refl right)
  | parRight left _ ih => exact List.rel_append (hR.related_refl left) ih
  | under f _ ih => exact hR.related_transform f ih

/-- **A derivation relates the chains above its leaves**, if every rule that it fires relates the
chains that it replaces. -/
theorem related_of_derives (h : Derives rules trace t u)
    (hrules : ∀ r ∈ trace, ∀ fs gs, r.Replaces fs gs → R fs gs) : t.Related R u := by
  induction h with
  | refl t => exact hR.related_refl t
  | step hred _ ih =>
      have hfirst := hR.related_of_reduces (hrules _ List.mem_cons_self) hred
      have hrest := ih fun r hr => hrules r (List.mem_cons_of_mem _ hr)
      exact hR.related_trans hfirst hrest

end ChainCongruence

end NinetySix
