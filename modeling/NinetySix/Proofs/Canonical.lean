import NinetySix.Proofs.Leafwise
import NinetySix.Proofs.Spread

set_option autoImplicit false

/-! # The canonical form of a term without mirrors

Without mirrors, normalisation has a closed description. The canonical form of a term keeps its
skeleton, which is the term without its transforms, and puts above each atom the chain
`R^a(D^b(T^c(·)))` of the sums of the exponents along the path to that atom, modulo the orders of
the turns. `derive_eq_canonical` says that this is what every derivation with the standard rules
ends in, whichever rules it fired and in whatever order.
-/

namespace NinetySix

/-! ## Sums along a path -/

/-- The exponent of a transform about an axis; the mirror has none. -/
def Transform.exponentAbout (a : Axis) : Transform → Nat
  | .power b k => if a = b then k else 0
  | .mirror => 0

/-- The sums of the exponents in a chain. -/
def Transform.chainExponents (chain : List Transform) : Exponents :=
  fun a => (chain.map (exponentAbout a)).sum

namespace Leaf

/-- The sums of the exponents along the path to the leaf. -/
def exponents (leaf : Leaf) : Exponents := Transform.chainExponents leaf.chain

/-- The sums modulo the orders of the turns. -/
def residues (leaf : Leaf) : Exponents := fun a => leaf.exponents a % a.order

theorem exponents_under (a : Axis) (k : Nat) (leaf : Leaf) (s : Exponents) :
    (fun b => s b + (leaf.under (.power a k)).exponents b) =
      fun b => s.raise a k b + leaf.exponents b := by
  funext b
  show s b + ((if b = a then k else 0) + leaf.exponents b) = _
  unfold Exponents.raise
  split
  · exact (Nat.add_assoc _ _ _).symm
  · rw [Nat.zero_add]

end Leaf

namespace Term

/-! ## Skeletons -/

/-- The term without its transforms. -/
def skeleton : Term → Term
  | .atom a => .atom a
  | .seq l r => .seq l.skeleton r.skeleton
  | .par l r => .par l.skeleton r.skeleton
  | .transform _ t => t.skeleton

/-- The skeleton with the terms of a list in the place of its atoms, from left to right. -/
def relabel : Term → List Term → Term
  | .atom a, ts => ts.headD (.atom a)
  | .seq l r, ts => .seq (l.relabel (ts.take l.atoms.length)) (r.relabel (ts.drop l.atoms.length))
  | .par l r, ts => .par (l.relabel (ts.take l.atoms.length)) (r.relabel (ts.drop l.atoms.length))
  | .transform _ t, ts => t.relabel ts

/-- **The canonical form**: the skeleton with every atom below the canonical chain of the sums along
its path. -/
def canonical (t : Term) : Term :=
  t.skeleton.relabel (t.leaves.map fun leaf => turned leaf.exponents (.atom leaf.atom))

theorem atoms_skeleton (t : Term) : t.skeleton.atoms = t.atoms := by
  induction t with
  | atom a => rfl
  | seq l r ihl ihr => rw [skeleton, atoms, atoms, ihl, ihr]
  | par l r ihl ihr => rw [skeleton, atoms, atoms, ihl, ihr]
  | transform f t ih => exact ih

theorem relabel_skeleton (t : Term) (ts : List Term) : t.skeleton.relabel ts = t.relabel ts := by
  induction t generalizing ts with
  | atom a => rfl
  | seq l r ihl ihr => rw [skeleton, relabel, relabel, atoms_skeleton, ihl, ihr]
  | par l r ihl ihr => rw [skeleton, relabel, relabel, atoms_skeleton, ihl, ihr]
  | transform f t ih => exact ih ts

theorem length_leaves (t : Term) : t.leaves.length = t.atoms.length := by
  rw [← t.map_atom_leaves, List.length_map]

/-- Taking a term without mirrors apart is labelling its skeleton. -/
theorem spread_eq_relabel (leaf : Exponents → Term → Term) {t : Term} (ht : t.mirrorFree = true)
    (s : Exponents) :
    t.spread leaf s =
      t.relabel (t.leaves.map fun l => leaf (fun a => s a + l.exponents a) (.atom l.atom)) := by
  induction t generalizing s with
  | atom a => rfl
  | seq l r ihl ihr =>
      obtain ⟨hl, hr⟩ := Bool.and_eq_true_iff.mp ht
      -- the left part has as many leaves as atoms, so the list is cut between the parts
      rw [spread, relabel, leaves, List.map_append, ihl hl, ihr hr,
        List.take_left' (by rw [List.length_map, length_leaves]),
        List.drop_left' (by rw [List.length_map, length_leaves])]
  | par l r ihl ihr =>
      obtain ⟨hl, hr⟩ := Bool.and_eq_true_iff.mp ht
      rw [spread, relabel, leaves, List.map_append, ihl hl, ihr hr,
        List.take_left' (by rw [List.length_map, length_leaves]),
        List.drop_left' (by rw [List.length_map, length_leaves])]
  | transform f t ih =>
      cases f with
      | mirror => cases ht
      | power a k =>
          rw [spread, ih ht, relabel, leaves, List.map_map]
          congr 1
          refine List.map_congr_left fun l _ => ?_
          show leaf _ (.atom l.atom) = leaf _ (.atom l.atom)
          rw [← Leaf.exponents_under]

theorem canonical_eq_spread {t : Term} (ht : t.mirrorFree = true) :
    t.canonical = t.spread turned 0 := by
  rw [spread_eq_relabel turned ht, canonical, relabel_skeleton]
  simp

/-- The canonical form depends on the skeleton and on the sums modulo the orders only. -/
theorem canonical_congr {t u : Term} (hskeleton : t.skeleton = u.skeleton)
    (hresidues : t.leaves.map Leaf.residues = u.leaves.map Leaf.residues) :
    t.canonical = u.canonical := by
  -- the labels are made from the residues and from the atoms, and these are in the skeleton
  have hlabels : ∀ v : Term, (v.leaves.map fun leaf => turned leaf.exponents (.atom leaf.atom)) =
      List.zipWith (fun s a => turned s (.atom a)) (v.leaves.map Leaf.residues) v.skeleton.atoms := by
    intro v
    rw [atoms_skeleton, ← v.map_atom_leaves, List.zipWith_map, List.zipWith_self]
    refine List.map_congr_left fun leaf _ => uniform_turned _ _ (fun a => ?_) _
    exact (Nat.mod_mod _ _).symm
  rw [canonical, canonical, hlabels, hlabels, hskeleton, hresidues]

/-- Without mirrors, only what stands at the atoms matters. -/
theorem spread_congr {leaf leaf' : Exponents → Term → Term}
    (h : ∀ s a, leaf s (.atom a) = leaf' s (.atom a)) {t : Term} (ht : t.mirrorFree = true)
    (s : Exponents) : t.spread leaf s = t.spread leaf' s := by
  rw [spread_eq_relabel leaf ht, spread_eq_relabel leaf' ht]
  simp only [h]

end Term

/-! ## Normalisation without mirrors -/

namespace Rule

theorem passed_atom (n : Nat) (s : Exponents) (a : Atom) :
    passed n s (.atom a) = Term.turned s (.atom a) := by
  rw [passed, iterate_pass_of_isNormal (isNormal_atom standard a)]
  rfl

theorem term_eq_canonical {t : Term} {limit : Nat} {d : Derivation} (ht : t.mirrorFree = true)
    (hd : derive standard limit t = .ok d) : d.term = t.canonical := by
  obtain ⟨n, hn⟩ := derive_eq_spread hd
  calc d.term = t.spread (passed n) 0 := hn n (Nat.le_refl n)
    _ = t.spread Term.turned 0 := Term.spread_congr (passed_atom n) ht 0
    _ = t.canonical := (Term.canonical_eq_spread ht).symm

end Rule

/-- **Normalisation computes the canonical form** of a term without mirrors. So two such terms with
one skeleton and the same sums at each leaf, modulo the orders of the turns, have one normal form. -/
theorem derive_eq_canonical {t : Term} {limit : Nat} {d : Derivation} (ht : t.mirrorFree = true)
    (hd : Rule.derive Rule.standard limit t = .ok d) :
    d.term = t.canonical ∧
    ∀ (u : Term) (limit' : Nat) (e : Derivation), u.mirrorFree = true →
      Rule.derive Rule.standard limit' u = .ok e → t.skeleton = u.skeleton →
      t.leaves.map Leaf.residues = u.leaves.map Leaf.residues → d.term = e.term := by
  have hcanonical := Rule.term_eq_canonical ht hd
  refine ⟨hcanonical, ?_⟩
  intro u limit' e hu he hskeleton hresidues
  rw [hcanonical, Rule.term_eq_canonical hu he, Term.canonical_congr hskeleton hresidues]

/-- Turns out of order and not reduced, above and inside a composition. -/
def scatteredTurns : Term :=
  .transform (.power .twist 9) (.transform (.power .rotate 6)
    (.seq (.transform (.power .triality 4) (.transform (.power .rotate 1) (.atom (.literal 5))))
      (.transform (.power .twist 7) (.atom (.param "x")))))

/-- The same sums modulo the orders, with all turns at the atoms. -/
def gatheredTurns : Term :=
  .seq (.transform (.power .triality 1) (.transform (.power .twist 1)
      (.transform (.power .rotate 3) (.atom (.literal 5)))))
    (.transform (.power .rotate 2) (.atom (.param "x")))

theorem derive_eq_canonical_scatteredTurns :
    ∃ d e, scatteredTurns.mirrorFree = true ∧ gatheredTurns.mirrorFree = true ∧
      Rule.derive Rule.standard 9 scatteredTurns = .ok d ∧
      Rule.derive Rule.standard 9 gatheredTurns = .ok e ∧
      d.term = .seq (.transform (.power .rotate 3) (.transform (.power .triality 1)
          (.transform (.power .twist 1) (.atom (.literal 5)))))
        (.transform (.power .rotate 2) (.atom (.param "x"))) ∧
      d.term = scatteredTurns.canonical ∧ d.term = e.term := by
  have hd : Rule.derive Rule.standard 9 scatteredTurns = .ok _ := rfl
  have he : Rule.derive Rule.standard 9 gatheredTurns = .ok _ := rfl
  obtain ⟨hcanonical, hsame⟩ := derive_eq_canonical (t := scatteredTurns) rfl hd
  have hresidues : scatteredTurns.leaves.map Leaf.residues
      = gatheredTurns.leaves.map Leaf.residues := by
    refine List.cons_eq_cons.mpr ⟨?_, List.cons_eq_cons.mpr ⟨?_, rfl⟩⟩
    · funext a
      cases a <;> rfl
    · funext a
      cases a <;> rfl
  exact ⟨_, _, rfl, rfl, hd, he, rfl, hcanonical, hsame gatheredTurns 9 _ rfl he rfl hresidues⟩

end NinetySix
