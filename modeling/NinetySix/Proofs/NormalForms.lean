import NinetySix.Proofs.Convergence
import NinetySix.Proofs.Leafwise

set_option autoImplicit false

/-! # The grammar of normal forms

A term is normal for the standard rules if none of six rules applies at any of its parts. Here the
same is said without the rules (`Term.Grammatical`): transforms stand over atoms and transforms only,
the exponents of turns are positive and below their orders, and of two transforms that follow each
other on the way to an atom, the outer one may stand over the inner one (`Transform.mayCover`):

    R over D, T, M        D over T, M        T over M        M over R

Whether the rules leave a transform alone can be seen at the node below it
(`Rule.fire?_standard_eq_none_iff`), with one exception: a mirror over a triality or a twist is left
alone if that turn moves nothing. But then the turn itself is not left alone, so the exception never
shows in a normal term.
-/

namespace NinetySix

/-! ## The grammar -/

namespace Transform

/-- The exponent of a turn is positive and below the order of the turn. -/
def Proper : Transform → Prop
  | .power a k => 0 < k ∧ k < a.order
  | .mirror => True

/-- The first transform may stand directly over the second. -/
def mayCover : Transform → Transform → Bool
  | .power .rotate _, .power .triality _ => true
  | .power .rotate _, .power .twist _ => true
  | .power .triality _, .power .twist _ => true
  | .power .rotate _, .mirror => true
  | .power .triality _, .mirror => true
  | .power .twist _, .mirror => true
  | .mirror, .power .rotate _ => true
  | _, _ => false

/-- The transform may stand directly over a term with the given root; `none` is an atom. -/
def admits (f : Transform) : Option Node → Bool
  | none => true
  | some .composition => false
  | some (.transform g) => f.mayCover g

end Transform

theorem Axis.rank_lt_of_mayCover {a b : Axis} {j k : Nat}
    (h : (Transform.power a j).mayCover (.power b k) = true) : a.rank < b.rank := by
  cases a <;> cases b <;> simp_all [Transform.mayCover, Axis.rank]

namespace Term

/-- The term belongs to the grammar of normal forms. -/
structure Grammatical (t : Term) : Prop where
  /-- No transform stands directly over a sequential composition. -/
  seq : ∀ f l r, .transform f (.seq l r) ∉ t.parts
  /-- No transform stands directly over a parallel composition. -/
  par : ∀ f l r, .transform f (.par l r) ∉ t.parts
  /-- The exponents of turns are reduced, and none of them is zero. -/
  exponent : ∀ a k u, .transform (.power a k) u ∈ t.parts → 0 < k ∧ k < a.order
  /-- On the way to an atom, every transform may stand over the next one. -/
  chain : ∀ leaf ∈ t.leaves, leaf.chain.IsChain fun f g => f.mayCover g = true

variable {t u l r : Term} {f g : Transform}

theorem grammatical_atom (a : Atom) : (Term.atom a).Grammatical where
  seq := by simp [parts]
  par := by simp [parts]
  exponent := by simp [parts]
  chain := by simp [leaves]

/-- What the grammar forbids in a part, it forbids in the whole. -/
theorem Grammatical.of_part (h : t.Grammatical) (hparts : u.parts ⊆ t.parts)
    (hleaves : ∀ leaf ∈ u.leaves, ∃ leaf' ∈ t.leaves, leaf.chain <:+ leaf'.chain) :
    u.Grammatical where
  seq f l r hpart := h.seq f l r (hparts hpart)
  par f l r hpart := h.par f l r (hparts hpart)
  exponent a k v hpart := h.exponent a k v (hparts hpart)
  chain leaf hleaf := by
    obtain ⟨leaf', hleaf', hsuffix⟩ := hleaves leaf hleaf
    exact (h.chain leaf' hleaf').suffix hsuffix

/-- The grammar asks nothing of a composition but its two sides. -/
theorem grammatical_composition {C : Term → Term → Term} (hC : C = .seq ∨ C = .par) :
    (C l r).Grammatical ↔ l.Grammatical ∧ r.Grammatical := by
  have hparts : (C l r).parts = C l r :: (l.parts ++ r.parts) := by
    rcases hC with rfl | rfl <;> rfl
  have hleaves : (C l r).leaves = l.leaves ++ r.leaves := by
    rcases hC with rfl | rfl <;> rfl
  have hroot : ∀ f u, .transform f u ≠ C l r := by
    rcases hC with rfl | rfl <;> rintro f u ⟨⟩
  constructor
  · intro h
    refine ⟨h.of_part ?_ fun leaf hleaf => ?_, h.of_part ?_ fun leaf hleaf => ?_⟩
    · simp [hparts]
    · exact ⟨leaf, by simp [hleaves, hleaf], List.suffix_refl _⟩
    · simp [hparts]
    · exact ⟨leaf, by simp [hleaves, hleaf], List.suffix_refl _⟩
  · rintro ⟨hl, hr⟩
    have hmem : ∀ {f u}, .transform f u ∈ (C l r).parts →
        .transform f u ∈ l.parts ∨ .transform f u ∈ r.parts := by
      intro f u hu
      simpa [hparts, hroot] using hu
    exact {
      seq := fun f x y hpart => (hmem hpart).elim (hl.seq f x y) (hr.seq f x y)
      par := fun f x y hpart => (hmem hpart).elim (hl.par f x y) (hr.par f x y)
      exponent := fun a k u hpart => (hmem hpart).elim (hl.exponent a k u) (hr.exponent a k u)
      chain := by
        intro leaf hleaf
        rw [hleaves] at hleaf
        exact (List.mem_append.mp hleaf).elim (hl.chain leaf) (hr.chain leaf) }

/-- The chain above a leaf begins with the root of the term, unless that is a composition. -/
theorem admits_of_mem_leaves (h : f.admits t.root? = true) {leaf : Leaf} (hleaf : leaf ∈ t.leaves) :
    ∀ g ∈ leaf.chain.head?, f.mayCover g = true := by
  cases t with
  | atom a =>
      rw [List.mem_singleton.mp hleaf]
      rintro g ⟨⟩
  | seq l r => cases h
  | par l r => cases h
  | transform g t =>
      obtain ⟨leaf', -, rfl⟩ := List.mem_map.mp hleaf
      rintro g' ⟨⟩
      exact h

/-- A transform is judged by its exponent and by what stands directly below it. -/
theorem grammatical_transform :
    (Term.transform f t).Grammatical ↔
      f.Proper ∧ f.admits t.root? = true ∧ t.Grammatical := by
  constructor
  · intro h
    refine ⟨?_, ?_, h.of_part (List.subset_cons_self _ _) fun leaf hleaf => ?_⟩
    · cases f with
      | power a k => exact h.exponent a k t (self_mem_parts _)
      | mirror => trivial
    · cases t with
      | atom a => rfl
      | seq l r => exact absurd (self_mem_parts _) (h.seq f l r)
      | par l r => exact absurd (self_mem_parts _) (h.par f l r)
      | transform g u =>
          -- some leaf stands below both transforms
          obtain ⟨leaf, hleaf⟩ := List.exists_mem_of_ne_nil _ u.leaves_ne_nil
          have hchain := h.chain _ (List.mem_map_of_mem (List.mem_map_of_mem hleaf))
          exact (List.isChain_cons_cons.mp hchain).1
    · exact ⟨leaf.under f, List.mem_map_of_mem hleaf, List.suffix_cons _ _⟩
  · rintro ⟨hf, hroot, ht⟩
    exact {
      seq := by
        intro g l r hpart
        rcases List.mem_cons.mp hpart with heq | hpart
        · cases heq
          cases hroot
        · exact ht.seq g l r hpart
      par := by
        intro g l r hpart
        rcases List.mem_cons.mp hpart with heq | hpart
        · cases heq
          cases hroot
        · exact ht.par g l r hpart
      exponent := by
        intro a k u hpart
        rcases List.mem_cons.mp hpart with heq | hpart
        · cases heq
          exact hf
        · exact ht.exponent a k u hpart
      chain := by
        intro leaf hleaf
        obtain ⟨leaf', hleaf', rfl⟩ := List.mem_map.mp hleaf
        exact List.isChain_cons.mpr ⟨admits_of_mem_leaves hroot hleaf', ht.chain leaf' hleaf'⟩ }

end Term

/-! ## Where the rules do not apply -/

namespace Rule

variable {f g : Transform} {t u : Term}

theorem dropIdentity?_eq_none_iff : dropIdentity? (.transform f t) = none ↔ f.Proper := by
  cases f with
  | mirror => exact ⟨fun _ => trivial, fun _ => rfl⟩
  | power a k =>
      have hpos := a.order_pos
      simp only [dropIdentity?, Transform.isIdentity_power, Transform.isReduced_power,
        Transform.Proper]
      constructor
      · intro h
        split at h
        · cases h
        · next hid =>
          split at h
          · next hlt =>
            rw [Nat.mod_eq_of_lt hlt] at hid
            exact ⟨Nat.pos_of_ne_zero hid, hlt⟩
          · cases h
      · rintro ⟨hk, hlt⟩
        have hid : ¬ k % a.order = 0 := by
          rw [Nat.mod_eq_of_lt hlt]
          omega
        rw [if_neg hid, if_pos hlt]

/-- **The rules leave two transforms alone exactly if the first may stand over the second.** Below a
mirror, the exponent has to be proper, since a mirror is not conjugated with an identity. -/
theorem pair_eq_none_iff (hg : f = .mirror → g.Proper) (u : Term) :
    (foldPowers? (.transform f (.transform g u)) = none ∧
      cancelMirrors? (.transform f (.transform g u)) = none ∧
      conjugateMirror? (.transform f (.transform g u)) = none ∧
      reorder? (.transform f (.transform g u)) = none) ↔ f.mayCover g = true := by
  cases f with
  | power a j =>
      cases g with
      | power b k =>
          cases a <;> cases b <;>
            simp [foldPowers?, cancelMirrors?, conjugateMirror?, reorder?, Axis.rank,
              Transform.mayCover]
      | mirror =>
          cases a <;>
            simp [foldPowers?, cancelMirrors?, conjugateMirror?, reorder?, Transform.mayCover]
  | mirror =>
      cases g with
      | power b k =>
          have hid : ¬ (Transform.power b k).isIdentity = true := by
            obtain ⟨hpos, hlt⟩ := hg rfl
            rw [Transform.isIdentity_power, Nat.mod_eq_of_lt hlt]
            exact Nat.ne_of_gt hpos
          cases b <;>
            simp [foldPowers?, cancelMirrors?, conjugateMirror?, reorder?, Transform.mayCover, hid]
      | mirror => simp [cancelMirrors?, Transform.mayCover]

/-- What the standard rules ask of a transform. -/
theorem fire?_standard_eq_none_iff
    (ht : f = .mirror → ∀ g, t.root? = some (.transform g) → g.Proper) :
    fire? standard (.transform f t) = none ↔ f.Proper ∧ f.admits t.root? = true := by
  have hrules : fire? standard (.transform f t) = none ↔
      dropIdentity? (.transform f t) = none ∧ distribute? (.transform f t) = none ∧
        foldPowers? (.transform f t) = none ∧ cancelMirrors? (.transform f t) = none ∧
        conjugateMirror? (.transform f t) = none ∧ reorder? (.transform f t) = none := by
    rw [fire?_eq_none_iff]
    simp only [standard, List.forall_mem_cons, reduct?, List.not_mem_nil, false_implies,
      implies_true, and_true]
    tauto
  rw [hrules, dropIdentity?_eq_none_iff]
  refine and_congr_right fun _ => ?_
  cases t with
  | atom a => simp [distribute?, foldPowers?, cancelMirrors?, conjugateMirror?, reorder?, Term.root?,
      Transform.admits]
  | seq l r => simp [distribute?, Term.root?, Transform.admits]
  | par l r => simp [distribute?, Term.root?, Transform.admits]
  | transform g u =>
      rw [pair_eq_none_iff fun hf => ht hf g rfl]
      simp [distribute?, Term.root?, Transform.admits]

/-- **The normal terms are those of the grammar.** -/
theorem isNormal_standard_iff (t : Term) : isNormal standard t = true ↔ t.Grammatical := by
  induction t with
  | atom a => exact iff_of_true (isNormal_atom standard a) (Term.grammatical_atom a)
  | seq l r ihl ihr =>
      rw [isNormal_seq, Bool.and_eq_true, ihl, ihr, Term.grammatical_composition (.inl rfl)]
  | par l r ihl ihr =>
      rw [isNormal_par, Bool.and_eq_true, ihl, ihr, Term.grammatical_composition (.inr rfl)]
  | transform f t ih =>
      rw [isNormal, Bool.and_eq_true, Option.isNone_iff_eq_none, ih, Term.grammatical_transform,
        ← and_assoc]
      refine and_congr_left fun ht => fire?_standard_eq_none_iff fun _ g hg => ?_
      -- the term below is in the grammar already, and so the transform at its root is proper
      obtain ⟨u, rfl⟩ := Term.eq_transform_of_root? hg
      exact (Term.grammatical_transform.mp ht).1

/-- The parts of a normal term are normal. -/
theorem isNormal_of_mem_parts {rules : List Rule} (h : isNormal rules t = true)
    (hu : u ∈ t.parts) : isNormal rules u = true := by
  induction t with
  | atom a => rwa [List.mem_singleton.mp hu]
  | seq l r ihl ihr =>
      rcases List.mem_cons.mp hu with rfl | hu
      · exact h
      · rw [isNormal_seq, Bool.and_eq_true] at h
        exact (List.mem_append.mp hu).elim (ihl h.1) (ihr h.2)
  | par l r ihl ihr =>
      rcases List.mem_cons.mp hu with rfl | hu
      · exact h
      · rw [isNormal_par, Bool.and_eq_true] at h
        exact (List.mem_append.mp hu).elim (ihl h.1) (ihr h.2)
  | transform f t ih =>
      rcases List.mem_cons.mp hu with rfl | hu
      · exact h
      · exact ih (Bool.and_eq_true_iff.mp h).2 hu

end Rule

/-! ## Mirrors in normal forms -/

/-- Below a mirror there is an atom or a rotation. -/
theorem Term.below_mirror {u : Term} (h : Transform.mirror.admits u.root? = true) :
    (∃ a, u = .atom a) ∨ ∃ k v, u = .transform (.power .rotate k) v := by
  cases u with
  | atom a => exact .inl ⟨a, rfl⟩
  | seq l r => cases h
  | par l r => cases h
  | transform g v =>
      cases g with
      | power a k =>
          cases a with
          | rotate => exact .inr ⟨k, v, rfl⟩
          | triality => cases h
          | twist => cases h
      | mirror => cases h

theorem Transform.exists_power {f : Transform} (h : .mirror ≠ f) : ∃ a k, f = .power a k := by
  cases f with
  | power a k => exact ⟨a, k, rfl⟩
  | mirror => exact absurd rfl h

/-- There are three axes, so a chain of turns in their order has at most three. -/
theorem Transform.mirror_mem_of_four {f₁ f₂ f₃ f₄ : Transform}
    (h : [f₁, f₂, f₃, f₄].IsChain fun f g => f.mayCover g = true) :
    .mirror ∈ [f₁, f₂, f₃, f₄] := by
  simp only [List.isChain_cons_cons] at h
  obtain ⟨h₁₂, h₂₃, h₃₄, -⟩ := h
  by_contra hmirror
  simp only [List.mem_cons, List.not_mem_nil, or_false, not_or] at hmirror
  obtain ⟨hf₁, hf₂, hf₃, hf₄⟩ := hmirror
  obtain ⟨a₁, k₁, rfl⟩ := exists_power hf₁
  obtain ⟨a₂, k₂, rfl⟩ := exists_power hf₂
  obtain ⟨a₃, k₃, rfl⟩ := exists_power hf₃
  obtain ⟨a₄, k₄, rfl⟩ := exists_power hf₄
  have h₁ := Axis.rank_lt_of_mayCover h₁₂
  have h₂ := Axis.rank_lt_of_mayCover h₂₃
  have h₃ := Axis.rank_lt_of_mayCover h₃₄
  have hmax : a₄.rank ≤ 2 := by cases a₄ <;> decide
  omega

/-- **The grammar of normal forms.** A term is normal for the standard rules exactly if no transform
stands directly over a composition, every exponent of a turn is positive and below its order, and
on every way to an atom two transforms that follow each other are one of the seven allowed pairs.
Hence in a normal term a mirror stands directly over an atom or a rotation, and any four transforms
in a row have a mirror among them. -/
theorem normal_terms_grammar (t : Term) :
    (Rule.isNormal Rule.standard t = true ↔ t.Grammatical) ∧
    (Rule.isNormal Rule.standard t = true →
      (∀ u, .transform .mirror u ∈ t.parts →
        (∃ a, u = .atom a) ∨ ∃ k v, u = .transform (.power .rotate k) v) ∧
      ∀ leaf ∈ t.leaves, ∀ f₁ f₂ f₃ f₄, [f₁, f₂, f₃, f₄] <:+: leaf.chain →
        .mirror ∈ [f₁, f₂, f₃, f₄]) := by
  refine ⟨Rule.isNormal_standard_iff t, fun h => ⟨?_, ?_⟩⟩
  · intro u hu
    have hmirror := (Rule.isNormal_standard_iff _).mp (Rule.isNormal_of_mem_parts h hu)
    exact Term.below_mirror (Term.grammatical_transform.mp hmirror).2.1
  · intro leaf hleaf f₁ f₂ f₃ f₄ hin
    have hchain := ((Rule.isNormal_standard_iff t).mp h).chain leaf hleaf
    have hfour := List.IsChain.infix hchain hin
    exact Transform.mirror_mem_of_four hfour

/-- A stack of turns between two mirrors, beside a mirror over an atom. -/
def mirroredStack : Term :=
  .par
    (.transform (.power .twist 7) (.transform .mirror (.transform (.power .rotate 3)
      (.transform (.power .triality 2) (.transform (.power .twist 5)
        (.transform .mirror (.atom (.param "x"))))))))
    (.transform .mirror (.atom (.literal 95)))

/-- A mirror over a full turn, which conjugation does not touch. -/
def idleMirror : Term := .transform .mirror (.transform (.power .triality 3) (.atom (.literal 8)))

/-- The stack is in the grammar, its three turns in a row end at a mirror, and its first mirror
stands over a rotation. The mirror over a full turn is outside the grammar, although no rule applies
at the mirror itself. -/
theorem normal_terms_grammar_mirroredStack :
    Rule.isNormal Rule.standard mirroredStack = true ∧ mirroredStack.Grammatical ∧
    (∀ u, .transform .mirror u ∈ mirroredStack.parts →
      (∃ a, u = .atom a) ∨ ∃ k v, u = .transform (.power .rotate k) v) ∧
    (∀ f : Transform, (∃ leaf ∈ mirroredStack.leaves,
      [.power .rotate 3, .power .triality 2, .power .twist 5, f] <:+: leaf.chain) → f = .mirror) ∧
    Rule.fire? Rule.standard idleMirror = none ∧ ¬ idleMirror.Grammatical := by
  have hnormal : Rule.isNormal Rule.standard mirroredStack = true := by decide
  obtain ⟨hmirrors, hfour⟩ := (normal_terms_grammar mirroredStack).2 hnormal
  refine ⟨hnormal, (normal_terms_grammar mirroredStack).1.mp hnormal, hmirrors, ?_, by decide, ?_⟩
  · rintro f ⟨leaf, hleaf, hin⟩
    have hmem := hfour leaf hleaf _ _ _ _ hin
    simpa [eq_comm] using hmem
  · intro h
    exact absurd ((normal_terms_grammar idleMirror).1.mpr h) (by decide)

end NinetySix
