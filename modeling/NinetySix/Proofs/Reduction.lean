import Mathlib
import NinetySix.Normal.Derivation

set_option autoImplicit false

/-! # Derivations as chains of single reductions

Five of the six rules only look at the one or two transforms at the head of a chain and put others in
their place; `Rule.Replaces` lists what they do, and `Rule.reduct?_cases` says that there is nothing
else but distribution.

`Reduces rules r t u` says that `u` comes from `t` by firing the rule `r` at one place, where `r` is
the first of the rules that applies there; `Derives rules trace t u` chains such steps and lists
their rules. A sweep does a lot at once, but what it does is a chain of single reductions with the
rules of its trace (`sweep_derives`), and so is a whole derivation (`derive_derives`). A property
of terms that every reduction keeps is therefore kept by normalisation.

The second half is about the end of a derivation. A sweep that fires nothing leaves its term alone,
which then is normal (`isNormal_iff_trace`), and a derivation that succeeds is an iterated pass that
has come to rest (`derive_eq_ok`).
-/

namespace NinetySix

/-! ## What the rules do -/

/-- A term below a chain of transforms, the outermost first. -/
def Term.chained (chain : List Transform) (t : Term) : Term := chain.foldr .transform t

namespace Rule

/-- The rule puts the second chain in the place of the first. -/
inductive Replaces : Rule → List Transform → List Transform → Prop where
  | drop {f : Transform} (h : f.isIdentity = true) : Replaces .identity [f] []
  | reduce {f : Transform} (h : f.isIdentity = false) (h' : f.isReduced = false) :
      Replaces .identity [f] [f.reduced]
  | fold (a : Axis) (j k : Nat) :
      Replaces .folding [.power a j, .power a k] [.ofInt a (j + k)]
  | cancel : Replaces .cancellation [.mirror, .mirror] []
  | conjugate {a : Axis} {k : Nat} (h : (Transform.power a k).isIdentity = false)
      (h' : a ≠ .rotate) :
      Replaces .conjugation [.mirror, .power a k] [.ofInt a (a.order - k)]
  | swap {a b : Axis} (j k : Nat) (h : b.rank < a.rank) :
      Replaces .ordering [.power a j, .power b k] [.power b k, .power a j]

/-- **A rule that applies replaces the head of a chain or distributes.** -/
theorem reduct?_cases {r : Rule} {t u : Term} (h : r.reduct? t = some u) :
    (∃ fs gs, ∃ b : Term, r.Replaces fs gs ∧ t = b.chained fs ∧ u = b.chained gs) ∨
    (r = .distribution ∧ ∃ f x y,
      (t = .transform f (.seq x y) ∧ u = .seq (.transform f x) (.transform f y)) ∨
      (t = .transform f (.par x y) ∧ u = .par (.transform f x) (.transform f y))) := by
  -- each case opens the one function of its rule; the branches in which that declines are empty
  cases r with
  | identity =>
      change dropIdentity? t = some u at h
      unfold dropIdentity? at h
      split at h
      · next f b =>
        split at h
        · next hid => exact .inl ⟨[f], [], b, .drop hid, rfl, (Option.some.inj h).symm⟩
        · next hid =>
          split at h
          · cases h
          · next hred =>
            exact .inl ⟨[f], [f.reduced], b,
              .reduce (Bool.eq_false_iff.mpr hid) (Bool.eq_false_iff.mpr hred), rfl,
              (Option.some.inj h).symm⟩
      · cases h
  | folding =>
      change foldPowers? t = some u at h
      unfold foldPowers? at h
      split at h
      · next a j b k t =>
        split at h
        · next hab =>
          subst hab
          exact .inl ⟨_, _, t, .fold a j k, rfl, (Option.some.inj h).symm⟩
        · cases h
      · cases h
  | cancellation =>
      change cancelMirrors? t = some u at h
      unfold cancelMirrors? at h
      split at h
      · next t => exact .inl ⟨_, _, t, .cancel, rfl, (Option.some.inj h).symm⟩
      · cases h
  | conjugation =>
      change conjugateMirror? t = some u at h
      unfold conjugateMirror? at h
      split at h
      · next a k t =>
        split at h
        · cases h
        · next hcond =>
          obtain ⟨hid, ha⟩ := not_or.mp hcond
          exact .inl ⟨_, _, t, .conjugate (Bool.eq_false_iff.mpr hid) ha, rfl,
            (Option.some.inj h).symm⟩
      · cases h
  | distribution =>
      change distribute? t = some u at h
      unfold distribute? at h
      split at h
      · next f x y => exact .inr ⟨rfl, f, x, y, .inl ⟨rfl, (Option.some.inj h).symm⟩⟩
      · next f x y => exact .inr ⟨rfl, f, x, y, .inr ⟨rfl, (Option.some.inj h).symm⟩⟩
      · cases h
  | ordering =>
      change reorder? t = some u at h
      unfold reorder? at h
      split at h
      · next a j b k t =>
        split at h
        · next hrank => exact .inl ⟨_, _, t, .swap j k hrank, rfl, (Option.some.inj h).symm⟩
        · cases h
      · cases h

/-- A rule replaces what it can replace, whatever stands below. -/
theorem Replaces.reduct?_eq {r : Rule} {fs gs : List Transform} (h : r.Replaces fs gs) (b : Term) :
    r.reduct? (b.chained fs) = some (b.chained gs) := by
  cases h with
  | drop hid => exact if_pos hid
  | reduce hid hred =>
      exact (if_neg (Bool.eq_false_iff.mp hid)).trans (if_neg (Bool.eq_false_iff.mp hred))
  | fold a j k => exact if_pos rfl
  | cancel => rfl
  | conjugate hid ha => exact if_neg (not_or.mpr ⟨Bool.eq_false_iff.mp hid, ha⟩)
  | swap j k hrank => exact if_pos hrank

theorem reduct?_of_fire? {rules : List Rule} {r : Rule} {t u : Term}
    (h : fire? rules t = some (r, u)) : r.reduct? t = some u := by
  -- the pair was made by some rule of the list, which is the one it names
  obtain ⟨r', -, hr'⟩ := List.exists_of_findSome?_eq_some h
  obtain ⟨u', hu', heq⟩ := Option.map_eq_some_iff.mp hr'
  cases heq
  exact hu'

theorem fire?_eq_none_iff {rules : List Rule} {t : Term} :
    fire? rules t = none ↔ ∀ r ∈ rules, r.reduct? t = none := by
  rw [fire?, List.findSome?_eq_none_iff]
  simp

/-- Rules apply at transforms only. -/
theorem fire?_eq_none_of_ne (rules : List Rule) {t : Term} (ht : ∀ f b, t ≠ .transform f b) :
    fire? rules t = none := by
  rw [fire?_eq_none_iff]
  intro r _
  cases t with
  | transform f b => exact absurd rfl (ht f b)
  | atom a => cases r <;> rfl
  | seq x y => cases r <;> rfl
  | par x y => cases r <;> rfl

end Rule

/-! ## Single reductions -/

/-- The rule `r` is the first that applies at some place, and is fired there. -/
inductive Reduces (rules : List Rule) (r : Rule) : Term → Term → Prop where
  | root {t u : Term} (h : Rule.fire? rules t = some (r, u)) : Reduces rules r t u
  | seqLeft {l l' : Term} (right : Term) (h : Reduces rules r l l') :
      Reduces rules r (.seq l right) (.seq l' right)
  | seqRight {x x' : Term} (left : Term) (h : Reduces rules r x x') :
      Reduces rules r (.seq left x) (.seq left x')
  | parLeft {l l' : Term} (right : Term) (h : Reduces rules r l l') :
      Reduces rules r (.par l right) (.par l' right)
  | parRight {x x' : Term} (left : Term) (h : Reduces rules r x x') :
      Reduces rules r (.par left x) (.par left x')
  | under {t t' : Term} (f : Transform) (h : Reduces rules r t t') :
      Reduces rules r (.transform f t) (.transform f t')

/-- A chain of reductions, with the rules that were fired. -/
inductive Derives (rules : List Rule) : List Rule → Term → Term → Prop where
  | refl (t : Term) : Derives rules [] t t
  | step {r : Rule} {trace : List Rule} {t u v : Term} (h : Reduces rules r t u)
      (rest : Derives rules trace u v) : Derives rules (r :: trace) t v

namespace Derives

variable {rules trace trace' : List Rule} {t u v : Term}

theorem trans (h : Derives rules trace t u) (h' : Derives rules trace' u v) :
    Derives rules (trace ++ trace') t v := by
  induction h with
  | refl t => exact h'
  | step hred _ ih => exact .step hred (ih h')

theorem single {r : Rule} (h : Reduces rules r t u) : Derives rules [r] t u := .step h (.refl u)

/-- A derivation of a part is a derivation of the whole. -/
theorem congr {C : Term → Term}
    (hC : ∀ {r : Rule} {x y : Term}, Reduces rules r x y → Reduces rules r (C x) (C y))
    (h : Derives rules trace t u) : Derives rules trace (C t) (C u) := by
  induction h with
  | refl t => exact .refl (C t)
  | step hred _ ih => exact .step (hC hred) ih

theorem eq_of_nil (h : Derives rules [] t u) : t = u := by
  cases h with
  | refl => rfl

end Derives

/-! ## Terms without mirrors -/

/-- No mirror stands in the term. -/
def Term.mirrorFree : Term → Bool
  | .atom _ => true
  | .seq l r => l.mirrorFree && r.mirrorFree
  | .par l r => l.mirrorFree && r.mirrorFree
  | .transform (.power _ _) t => t.mirrorFree
  | .transform .mirror _ => false

theorem Term.mirrorFree_transform (f : Transform) (t : Term) :
    (Term.transform f t).mirrorFree = true ↔ f ≠ .mirror ∧ t.mirrorFree = true := by
  cases f with
  | power a k => simp [mirrorFree]
  | mirror => simp [mirrorFree]

theorem Term.mirrorFree_chained (chain : List Transform) (t : Term) :
    (t.chained chain).mirrorFree = true ↔ .mirror ∉ chain ∧ t.mirrorFree = true := by
  induction chain with
  | nil => simp [chained]
  | cons f chain ih =>
      show (Term.transform f (t.chained chain)).mirrorFree = true ↔ _
      rw [mirrorFree_transform, ih, List.mem_cons, not_or, and_assoc, ne_comm]

theorem Rule.Replaces.mirror_notMem {r : Rule} {fs gs : List Transform} (h : r.Replaces fs gs)
    (hf : .mirror ∉ fs) : .mirror ∉ gs ∧ r ≠ .conjugation := by
  cases h with
  | drop => exact ⟨List.not_mem_nil, by decide⟩
  | @reduce f =>
      cases f with
      | power a k => simp [Transform.reduced]
      | mirror => exact absurd List.mem_cons_self hf
  | fold a j k => simp [Transform.ofInt]
  | cancel => exact absurd List.mem_cons_self hf
  | conjugate => exact absurd List.mem_cons_self hf
  | swap j k => simp

/-- A reduction of a term without mirrors fires no conjugation, and makes no mirror. -/
theorem Reduces.mirrorFree {rules : List Rule} {r : Rule} {t u : Term} (h : Reduces rules r t u)
    (ht : t.mirrorFree = true) : u.mirrorFree = true ∧ r ≠ .conjugation := by
  induction h with
  | root h =>
      obtain ⟨fs, gs, b, hchain, rfl, rfl⟩ | ⟨rfl, f, x, y, ⟨rfl, rfl⟩ | ⟨rfl, rfl⟩⟩ :=
        Rule.reduct?_cases (Rule.reduct?_of_fire? h)
      · obtain ⟨hf, hb⟩ := (Term.mirrorFree_chained fs b).mp ht
        obtain ⟨hg, hr⟩ := hchain.mirror_notMem hf
        exact ⟨(Term.mirrorFree_chained gs b).mpr ⟨hg, hb⟩, hr⟩
      · simp_all [Term.mirrorFree_transform, Term.mirrorFree]
      · simp_all [Term.mirrorFree_transform, Term.mirrorFree]
  | seqLeft right _ ih =>
      obtain ⟨hl, hr⟩ := Bool.and_eq_true_iff.mp ht
      exact ⟨Bool.and_eq_true_iff.mpr ⟨(ih hl).1, hr⟩, (ih hl).2⟩
  | seqRight left _ ih =>
      obtain ⟨hl, hr⟩ := Bool.and_eq_true_iff.mp ht
      exact ⟨Bool.and_eq_true_iff.mpr ⟨hl, (ih hr).1⟩, (ih hr).2⟩
  | parLeft right _ ih =>
      obtain ⟨hl, hr⟩ := Bool.and_eq_true_iff.mp ht
      exact ⟨Bool.and_eq_true_iff.mpr ⟨(ih hl).1, hr⟩, (ih hl).2⟩
  | parRight left _ ih =>
      obtain ⟨hl, hr⟩ := Bool.and_eq_true_iff.mp ht
      exact ⟨Bool.and_eq_true_iff.mpr ⟨hl, (ih hr).1⟩, (ih hr).2⟩
  | under f _ ih =>
      obtain ⟨hf, hb⟩ := (Term.mirrorFree_transform f _).mp ht
      exact ⟨(Term.mirrorFree_transform f _).mpr ⟨hf, (ih hb).1⟩, (ih hb).2⟩

theorem Derives.conjugation_notMem {rules trace : List Rule} {t u : Term}
    (h : Derives rules trace t u) (ht : t.mirrorFree = true) : .conjugation ∉ trace := by
  induction h with
  | refl t => exact List.not_mem_nil
  | step hred _ ih =>
      obtain ⟨hu, hr⟩ := hred.mirrorFree ht
      rw [List.mem_cons, not_or]
      exact ⟨hr.symm, ih hu⟩

namespace Rule

variable {rules trace : List Rule} {s t : Term}

/-! ## Sweeps -/

theorem settle_derives (h : Derives rules trace s t) :
    Derives rules (settle rules t trace).trace s (settle rules t trace).term := by
  unfold settle
  cases hf : fire? rules t with
  | none => exact h
  | some p =>
      obtain ⟨r, t'⟩ := p
      exact h.trans (.single (.root hf))

/-- **A sweep is a chain of single reductions**, with the rules of its trace. -/
theorem sweep_derives (rules : List Rule) (t : Term) :
    Derives rules (sweep rules t).trace t (sweep rules t).term := by
  induction t with
  | atom a => exact settle_derives (.refl _)
  | seq l r ihl ihr =>
      exact settle_derives ((ihl.congr (.seqLeft r)).trans (ihr.congr (.seqRight _)))
  | par l r ihl ihr =>
      exact settle_derives ((ihl.congr (.parLeft r)).trans (ihr.congr (.parRight _)))
  | transform f t ih =>
      cases f with
      | power a k => exact settle_derives (ih.congr (.under _))
      -- a mirror that fires as written skips its part, so its derivation is that one step
      | mirror =>
          rw [sweep]
          cases hf : fire? rules (.transform .mirror t) with
          | none => exact settle_derives (ih.congr (.under _))
          | some p =>
              obtain ⟨r, t'⟩ := p
              exact .single (.root hf)

theorem iterate_derives (rules : List Rule) (n : Nat) (t : Term) :
    Derives rules (iterate rules n t).1.trace t (iterate rules n t).1.term := by
  induction n generalizing t with
  | zero => exact .refl t
  | succ n ih =>
      rw [iterate]
      dsimp only
      split
      · exact sweep_derives rules t
      · exact (sweep_derives rules t).trans (ih _)

theorem iterate_of_derive {limit : Nat} {d : Derivation} (h : derive rules limit t = .ok d) :
    iterate rules limit t = (d, true) := by
  unfold derive at h
  split at h
  · next d' heq =>
    cases h
    exact heq
  · cases h

/-- **A derivation is a chain of single reductions**, with the rules of its trace. -/
theorem derive_derives {limit : Nat} {d : Derivation} (h : derive rules limit t = .ok d) :
    Derives rules d.trace t d.term := by
  have hd := iterate_derives rules limit t
  rw [iterate_of_derive h] at hd
  exact hd

/-! ## Rest -/

/-- A sweep that fires nothing leaves its term as it is. -/
theorem sweep_term_of_trace (h : (sweep rules t).trace = []) : (sweep rules t).term = t := by
  have hd := sweep_derives rules t
  rw [h] at hd
  exact hd.eq_of_nil.symm

theorem settle_trace_eq_nil :
    (settle rules t trace).trace = [] ↔ trace = [] ∧ fire? rules t = none := by
  unfold settle
  cases fire? rules t with
  | none => simp
  | some p => simp

theorem settle_part_trace (C : Term → Term) :
    (settle rules (C (sweep rules t).term) (sweep rules t).trace).trace = [] ↔
      fire? rules (C t) = none ∧ (sweep rules t).trace = [] := by
  rw [settle_trace_eq_nil]
  constructor
  · rintro ⟨ht, hf⟩
    rw [sweep_term_of_trace ht] at hf
    exact ⟨hf, ht⟩
  · rintro ⟨hf, ht⟩
    rw [sweep_term_of_trace ht]
    exact ⟨ht, hf⟩

theorem settle_parts_trace (C : Term → Term → Term) :
    (settle rules (C (sweep rules s).term (sweep rules t).term)
      ((sweep rules s).trace ++ (sweep rules t).trace)).trace = [] ↔
      fire? rules (C s t) = none ∧ (sweep rules s).trace = [] ∧ (sweep rules t).trace = [] := by
  rw [settle_trace_eq_nil, List.append_eq_nil_iff]
  constructor
  · rintro ⟨⟨hs, ht⟩, hf⟩
    rw [sweep_term_of_trace hs, sweep_term_of_trace ht] at hf
    exact ⟨hf, hs, ht⟩
  · rintro ⟨hf, hs, ht⟩
    rw [sweep_term_of_trace hs, sweep_term_of_trace ht]
    exact ⟨⟨hs, ht⟩, hf⟩

theorem isNormal_atom (rules : List Rule) (a : Atom) : isNormal rules (.atom a) = true := by
  rw [isNormal, fire?_eq_none_of_ne rules (by rintro f b ⟨⟩)]
  rfl

theorem isNormal_seq (rules : List Rule) (l r : Term) :
    isNormal rules (.seq l r) = (isNormal rules l && isNormal rules r) := by
  rw [isNormal, fire?_eq_none_of_ne rules (by rintro f b ⟨⟩)]
  rfl

theorem isNormal_par (rules : List Rule) (l r : Term) :
    isNormal rules (.par l r) = (isNormal rules l && isNormal rules r) := by
  rw [isNormal, fire?_eq_none_of_ne rules (by rintro f b ⟨⟩)]
  rfl

/-- **A term is normal exactly when a sweep over it fires nothing.** -/
theorem isNormal_iff_trace (rules : List Rule) (t : Term) :
    isNormal rules t = true ↔ (sweep rules t).trace = [] := by
  induction t with
  | atom a =>
      rw [isNormal, sweep, settle_trace_eq_nil]
      simp
  | seq l r ihl ihr =>
      rw [isNormal, sweep, settle_parts_trace, ← ihl, ← ihr]
      simp [and_assoc]
  | par l r ihl ihr =>
      rw [isNormal, sweep, settle_parts_trace, ← ihl, ← ihr]
      simp [and_assoc]
  | transform f t ih =>
      rw [isNormal, Bool.and_eq_true, Option.isNone_iff_eq_none, ih]
      cases f with
      | power a k =>
          rw [sweep, settle_part_trace]
      | mirror =>
          rw [sweep]
          -- the mirror is tried as written first; past that, its node is like the others
          cases hf : fire? rules (.transform .mirror t) with
          | none => rw [settle_part_trace, hf]
          | some p => simp

/-! ## Passes -/

/-- A sweep without its trace. -/
def pass (rules : List Rule) (t : Term) : Term := (sweep rules t).term

theorem pass_of_isNormal (h : isNormal rules t = true) : pass rules t = t :=
  sweep_term_of_trace ((isNormal_iff_trace rules t).mp h)

theorem iterate_pass_of_isNormal (h : isNormal rules t = true) (n : Nat) :
    (pass rules)^[n] t = t := Function.iterate_fixed (pass_of_isNormal h) n

/-- What the sweeps end with, if they come to rest: a normal term, reached by passes. -/
theorem iterate_rested {n : Nat} {d : Derivation} (h : iterate rules n t = (d, true)) :
    isNormal rules d.term = true ∧ ∃ k, (pass rules)^[k] t = d.term := by
  induction n generalizing t d with
  | zero => cases h
  | succ n ih =>
      rw [iterate] at h
      dsimp only at h
      split at h
      · next hnil =>
        -- the last sweep: it fired nothing, so it ends where it began
        obtain ⟨rfl, -⟩ := Prod.mk.inj h
        have htrace := List.isEmpty_iff.mp hnil
        rw [sweep_term_of_trace htrace]
        exact ⟨(isNormal_iff_trace rules t).mpr htrace, 0, rfl⟩
      · obtain ⟨rfl, hrest⟩ := Prod.mk.inj h
        obtain ⟨hnormal, k, hk⟩ := ih (Prod.ext rfl hrest)
        exact ⟨hnormal, k + 1, hk⟩

/-- **A derivation that succeeds ends in a normal term**, and the passes over its start stay at that
term from some number on. -/
theorem derive_eq_ok {limit : Nat} {d : Derivation} (h : derive rules limit t = .ok d) :
    isNormal rules d.term = true ∧ ∃ n, ∀ m, n ≤ m → (pass rules)^[m] t = d.term := by
  obtain ⟨hnormal, n, hn⟩ := iterate_rested (iterate_of_derive h)
  refine ⟨hnormal, n, fun m hm => ?_⟩
  calc (pass rules)^[m] t = (pass rules)^[m - n + n] t := by rw [Nat.sub_add_cancel hm]
    _ = (pass rules)^[m - n] d.term := by rw [Function.iterate_add_apply, hn]
    _ = d.term := iterate_pass_of_isNormal hnormal (m - n)

/-- A derivation from a normal term stays there. -/
theorem derive_term_of_isNormal {limit : Nat} {d : Derivation} (hd : derive rules limit t = .ok d)
    (h : isNormal rules t = true) : d.term = t := by
  obtain ⟨-, n, hn⟩ := derive_eq_ok hd
  exact (hn n le_rfl).symm.trans (iterate_pass_of_isNormal h n)

end Rule

end NinetySix
