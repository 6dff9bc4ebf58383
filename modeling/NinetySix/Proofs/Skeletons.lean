import NinetySix.Proofs.Canonical
import NinetySix.Proofs.Chains

set_option autoImplicit false

/-! # Normalisation keeps the skeleton and lengthens no chain

Distribution copies transforms, so a term may grow while it is normalised. Its skeleton, which is
the term without its transforms, stays as it is (`Derives.skeleton_eq`). So do the signals of its
tier, except that a term below transforms may be left as a single atom.

Along the path to a leaf nothing grows. Every rule puts a chain of at most the same length in the
place of a chain, and one that rotates by as much up to full turns (`Rule.Replaces.tightened`).
Mirror conjugation is no exception: it changes the sums of trialities and of twists, and a rotation
below a mirror is left alone. Since a plan has one instruction for each leaf and one for each
transform above it, no plan grows either.
-/

namespace NinetySix

/-! ## Chains that get no longer -/

/-- The second chain is no longer than the first, and rotates by as much up to full turns. -/
structure Tightened (fs gs : List Transform) : Prop where
  length_le : gs.length ≤ fs.length
  rotations_mod : Transform.chainExponents gs .rotate % 4 = Transform.chainExponents fs .rotate % 4

namespace Transform

theorem chainExponents_cons (f : Transform) (chain : List Transform) (a : Axis) :
    chainExponents (f :: chain) a = f.exponentAbout a + chainExponents chain a := List.sum_cons

theorem chainExponents_append (fs gs : List Transform) (a : Axis) :
    chainExponents (fs ++ gs) a = chainExponents fs a + chainExponents gs a := by
  simp [chainExponents]

theorem exponentAbout_power (a b : Axis) (k : Nat) :
    (power b k).exponentAbout a = if a = b then k else 0 := rfl

/-- Of a reduced power only the exponent modulo the order is left. -/
theorem exponentAbout_ofInt_mod (a b : Axis) (k : Nat) :
    (ofInt b k).exponentAbout a % a.order = (power b k).exponentAbout a % a.order := by
  rw [ofInt, exponentAbout_power, exponentAbout_power]
  by_cases hab : a = b
  · subst hab
    have hmod : ((k : Int) % a.order).toNat = k % a.order := by
      exact_mod_cast Int.toNat_natCast (k % a.order)
    rw [if_pos rfl, if_pos rfl, hmod, Nat.mod_mod]
  · rw [if_neg hab, if_neg hab]

/-- A transform that moves nothing does not count. -/
theorem exponentAbout_mod_of_isIdentity {f : Transform} (hf : f.isIdentity = true) (a : Axis) :
    f.exponentAbout a % a.order = 0 := by
  cases f with
  | mirror => cases hf
  | power b k =>
      have hk := isIdentity_power.mp hf
      rw [exponentAbout_power]
      by_cases hab : a = b
      · rw [if_pos hab, hab, hk]
      · rw [if_neg hab, Nat.zero_mod]

end Transform

theorem Tightened.congruence : ChainCongruence Tightened where
  refl _ := ⟨le_rfl, rfl⟩
  trans h h' := ⟨h'.length_le.trans h.length_le, h'.rotations_mod.trans h.rotations_mod⟩
  cons f h := by
    have hlength := h.length_le
    have hrotations := h.rotations_mod
    constructor
    · simp only [List.length_cons]
      omega
    · rw [Transform.chainExponents_cons, Transform.chainExponents_cons]
      omega
  append h chain := by
    have hlength := h.length_le
    have hrotations := h.rotations_mod
    constructor
    · simp only [List.length_append]
      omega
    · rw [Transform.chainExponents_append, Transform.chainExponents_append]
      omega

/-- **A rule that replaces a chain lengthens nothing**, and keeps the rotation. -/
theorem Rule.Replaces.tightened {r : Rule} {fs gs : List Transform} (h : r.Replaces fs gs) :
    Tightened fs gs := by
  have hone (f : Transform) : Transform.chainExponents [f] .rotate = f.exponentAbout .rotate := by
    simp [Transform.chainExponents]
  have htwo (f g : Transform) : Transform.chainExponents [f, g] .rotate
      = f.exponentAbout .rotate + g.exponentAbout .rotate := by
    simp [Transform.chainExponents]
  cases h with
  | drop hid =>
      have hzero := Transform.exponentAbout_mod_of_isIdentity hid .rotate
      refine ⟨by simp, ?_⟩
      rw [hone]
      exact hzero.symm
  | @reduce f =>
      refine ⟨by simp, ?_⟩
      rw [hone, hone]
      cases f with
      | mirror => rfl
      | power a k =>
          rw [Transform.reduced_power_eq_ofInt]
          exact Transform.exponentAbout_ofInt_mod .rotate a k
  | fold a j k =>
      have hsum : (Transform.power a (j + k)).exponentAbout .rotate
          = (Transform.power a j).exponentAbout .rotate
            + (Transform.power a k).exponentAbout .rotate := by
        simp only [Transform.exponentAbout_power]
        split <;> rfl
      refine ⟨by simp, ?_⟩
      rw [hone, htwo, ← hsum]
      exact_mod_cast Transform.exponentAbout_ofInt_mod .rotate a (j + k)
  | cancel => exact ⟨by simp, rfl⟩
  | @conjugate a k _ ha =>
      -- the turn is no rotation, so neither side has one
      have hnone (i : Nat) : (Transform.power a i).exponentAbout .rotate = 0 := if_neg ha.symm
      refine ⟨by simp, ?_⟩
      rw [hone, htwo, Transform.ofInt, hnone, hnone]
      rfl
  | swap j k =>
      refine ⟨le_rfl, ?_⟩
      rw [htwo, htwo, Nat.add_comm]

/-! ## Skeletons -/

theorem Term.skeleton_chained (chain : List Transform) (t : Term) :
    (t.chained chain).skeleton = t.skeleton := by
  induction chain with
  | nil => rfl
  | cons f chain ih => exact ih

theorem Rule.skeleton_of_reduct? {r : Rule} {t u : Term} (h : r.reduct? t = some u) :
    u.skeleton = t.skeleton := by
  obtain ⟨fs, gs, b, -, rfl, rfl⟩ | ⟨-, f, x, y, ⟨rfl, rfl⟩ | ⟨rfl, rfl⟩⟩ := reduct?_cases h
  · rw [Term.skeleton_chained, Term.skeleton_chained]
  · rfl
  · rfl

theorem Reduces.skeleton_eq {rules : List Rule} {r : Rule} {t u : Term} (h : Reduces rules r t u) :
    u.skeleton = t.skeleton := by
  induction h with
  | root h => exact Rule.skeleton_of_reduct? (Rule.reduct?_of_fire? h)
  | seqLeft right _ ih => simp [Term.skeleton, ih]
  | seqRight left _ ih => simp [Term.skeleton, ih]
  | parLeft right _ ih => simp [Term.skeleton, ih]
  | parRight left _ ih => simp [Term.skeleton, ih]
  | under f _ ih => exact ih

/-- **A derivation keeps the skeleton.** -/
theorem Derives.skeleton_eq {rules trace : List Rule} {t u : Term} (h : Derives rules trace t u) :
    u.skeleton = t.skeleton := by
  induction h with
  | refl t => rfl
  | step hred _ ih => exact ih.trans hred.skeleton_eq

/-! ## Plans -/

theorem Term.Related.sum_le {t u : Term} (h : t.Related Tightened u) :
    (u.leaves.map fun leaf => leaf.chain.length + 1).sum ≤
      (t.leaves.map fun leaf => leaf.chain.length + 1).sum := by
  refine List.Forall₂.sum_le_sum (List.forall₂_map_left_iff.mpr (List.forall₂_map_right_iff.mpr ?_))
  refine h.flip.imp fun leaf leaf' hleaf => ?_
  have hlength := hleaf.2.length_le
  omega

/-! ## Signals and tiers -/

theorem Term.seqDepth_skeleton (t : Term) : t.skeleton.seqDepth = t.seqDepth := by
  induction t with
  | atom a => rfl
  | seq l r ihl ihr => simp [skeleton, seqDepth, ihl, ihr]
  | par l r ihl ihr => simp [skeleton, seqDepth, ihl, ihr]
  | transform f t ih => exact ih

/-- All signals but one can be read off the skeleton. -/
theorem Term.signals_of_skeleton {t u : Term} (h : u.skeleton = t.skeleton) :
    u.signals = { t.signals with singleAtom := u.isAtom } := by
  have hatoms : u.atoms = t.atoms := by rw [← u.atoms_skeleton, h, t.atoms_skeleton]
  have hdepth : u.seqDepth = t.seqDepth := by rw [← u.seqDepth_skeleton, h, t.seqDepth_skeleton]
  simp [signals, classPure, readsInput, hatoms, hdepth]

/-- A term that becomes a single atom may go from the second tier to the first; nothing else
depends on that signal. -/
theorem Signals.tier_of_singleAtom (s : Signals) (h : s.singleAtom = false) (compiled : Bool) :
    { s with singleAtom := true }.tier compiled = s.tier compiled ∨
      s.tier compiled = .c1 ∧ { s with singleAtom := true }.tier compiled = .c0 := by
  unfold tier
  by_cases hdepth : maxSeqDepth < s.seqDepth
  · simp [hdepth]
  · by_cases hpure : s.classPure = true
    · by_cases hfirst : compiled = true ∧ s.readsInput = false
      · simp [hdepth, hpure, hfirst.1, hfirst.2, h]
      · have hsecond : (compiled && !s.readsInput) = false := by
          cases compiled <;> simp_all
        simp [hdepth, hpure, h, hsecond]
    · simp [hdepth, hpure]

/-- **Normalisation keeps the skeleton and lengthens no chain.** A derivation with any rules ends in
a term with the same skeleton. Above each leaf it leaves a chain that is no longer and rotates by as
much up to full turns, so neither plan has more instructions than before. The signals stay, and so
does the tier, unless a term of the second tier is left as a single atom and goes to the first. -/
theorem derive_keeps_skeleton {rules : List Rule} {limit : Nat} {t : Term} {d : Derivation}
    (hd : Rule.derive rules limit t = .ok d) :
    d.term.skeleton = t.skeleton ∧
    List.Forall₂ (fun leaf leaf' => leaf'.chain.length ≤ leaf.chain.length ∧
      leaf'.exponents .rotate % 4 = leaf.exponents .rotate % 4) t.leaves d.term.leaves ∧
    d.term.elementPlan.length ≤ t.elementPlan.length ∧
    (∀ ops, t.classPlan = .ok ops →
      ∃ ops', d.term.classPlan = .ok ops' ∧ ops'.length ≤ ops.length) ∧
    d.term.signals.seqDepth = t.signals.seqDepth ∧
    d.term.signals.classPure = t.signals.classPure ∧
    d.term.signals.readsInput = t.signals.readsInput ∧
    ∀ compiled, d.term.tier compiled = t.tier compiled ∨
      t.tier compiled = .c1 ∧ d.term.tier compiled = .c0 ∧
        d.term.isAtom = true ∧ t.isAtom = false := by
  have hderives := Rule.derive_derives hd
  have hskeleton := hderives.skeleton_eq
  have hrelated := Tightened.congruence.related_of_derives hderives
    fun r _ fs gs hreplaces => hreplaces.tightened
  have hsignals := Term.signals_of_skeleton hskeleton
  have hpure : d.term.signals.classPure = t.signals.classPure := by rw [hsignals]
  refine ⟨hskeleton, hrelated.imp fun leaf leaf' hleaf => ?_, ?_, ?_, ?_, hpure, ?_, ?_⟩
  · exact ⟨hleaf.2.length_le, hleaf.2.rotations_mod⟩
  · calc d.term.elementPlan.length
        = (d.term.leaves.map fun leaf => leaf.chain.length + 1).sum :=
          ElementOp.length_ofLeaves _
      _ ≤ (t.leaves.map fun leaf => leaf.chain.length + 1).sum := hrelated.sum_le
      _ = t.elementPlan.length := (ElementOp.length_ofLeaves _).symm
  · intro ops hops
    have htpure : t.classPure = true := t.classPlan_eq_ok_iff.mp ⟨ops, hops⟩
    obtain ⟨ops', hops'⟩ := d.term.classPlan_eq_ok_iff.mpr (hpure.trans htpure)
    refine ⟨ops', hops', ?_⟩
    rw [ClassOp.length_ofLeaves hops, ClassOp.length_ofLeaves hops']
    exact hrelated.sum_le
  · rw [hsignals]
  · rw [hsignals]
  · intro compiled
    unfold Term.tier
    rw [hsignals]
    by_cases hatom : t.isAtom = d.term.isAtom
    · left
      rw [← hatom]
      rfl
    · -- an atom is normal, so a derivation from an atom stays there
      have htatom : t.isAtom = false := by
        by_contra hne
        obtain ⟨a, rfl⟩ : ∃ a, t = .atom a := by
          cases t <;> simp_all [Term.isAtom]
        rw [Rule.derive_term_of_isNormal hd (Rule.isNormal_atom rules a)] at hatom
        exact hatom rfl
      have hdatom : d.term.isAtom = true := by
        by_contra hne
        exact hatom (htatom.trans (Bool.eq_false_iff.mpr hne).symm)
      rw [hdatom]
      have htier := t.signals.tier_of_singleAtom htatom compiled
      exact htier.imp id fun h => ⟨h.1, h.2, rfl, htatom⟩

/-- A mirror above a twist and a rotation, which go into both parts of a composition. -/
def mirroredTurns : Term :=
  .transform .mirror (.transform (.power .twist 3) (.transform (.power .rotate 9)
    (.par (.transform (.power .rotate 2) (.atom (.param "x"))) (.atom (.ring .add .drop)))))

/-- Two rotations that make a full turn. -/
def fullTurn : Term :=
  .transform (.power .rotate 3) (.transform (.power .rotate 5) (.atom (.literal 7)))

/-- The mirror is conjugated away, and both chains get shorter; the full turn goes from the second
tier to the first. -/
theorem derive_keeps_skeleton_mirroredTurns :
    ∃ d e, Rule.derive Rule.standard 9 mirroredTurns = .ok d ∧
      Rule.derive Rule.standard 9 fullTurn = .ok e ∧
      .conjugation ∈ d.trace ∧
      d.term.skeleton = .par (.atom (.param "x")) (.atom (.ring .add .drop)) ∧
      d.term.elementPlan.length ≤ 9 ∧ d.term.signals.readsInput = true ∧
      fullTurn.tier true = .c1 ∧ e.term.tier true = .c0 ∧ e.term.isAtom = true := by
  have hd : Rule.derive Rule.standard 9 mirroredTurns = .ok _ := rfl
  have he : Rule.derive Rule.standard 9 fullTurn = .ok _ := rfl
  obtain ⟨hskeleton, -, hlength, -, -, -, hreads, -⟩ := derive_keeps_skeleton hd
  obtain ⟨-, -, -, -, -, -, -, htier⟩ := derive_keeps_skeleton he
  obtain ⟨hbefore, hafter, hatom, -⟩ := (htier true).resolve_left (by decide)
  exact ⟨_, _, hd, he, by decide, hskeleton, hlength, hreads, hbefore, hafter, hatom⟩

end NinetySix
