import NinetySix.Proofs.Moves
import NinetySix.Proofs.NormalForms

set_option autoImplicit false

/-! # The turns above the outermost mirrors

Sweeps with the rules of normalisation are a schedule, and with mirrors the schedule matters: what a
mirror conjugates depends on the sweep in which it is reached. Above the outermost mirrors it does
not. There the turns only travel down to the atoms and the mirrors, and on the way they add up, so
all that counts is the sum of the exponents about each axis.

`Term.spread leaf s t` takes `t` apart along these lines: it goes down to the atoms and to the
outermost mirrors, adds up the exponents above each, starting with `s`, and lets `leaf` say what is
to stand there. A pass over a term is a pass over what it reaches, and nothing else can be seen of it
this way (`Rule.spread_pass`), hence the same for any number of passes (`Rule.spread_passes`).
A normal term is recovered from its sums (`Rule.spread_turned_of_isNormal`), so the end of a
derivation is known from what the passes leave at the places that its start reaches
(`Rule.derive_eq_spread`).
-/

namespace NinetySix

/-! ## Sums of exponents -/

/-- The sum of the exponents about each axis. -/
abbrev Exponents := Axis → Nat

namespace Exponents

/-- One more power of a turn. -/
def raise (s : Exponents) (a : Axis) (k : Nat) : Exponents := fun b => if b = a then s b + k else s b

/-- The sums are equal modulo the orders of the turns. -/
def Congr (s s' : Exponents) : Prop := ∀ a, s a % a.order = s' a % a.order

theorem Congr.raise {s s' : Exponents} (h : s.Congr s') (a : Axis) (k : Nat) :
    (s.raise a k).Congr (s'.raise a k) := by
  intro b
  unfold Exponents.raise
  split
  · rw [Nat.add_mod, h b, ← Nat.add_mod]
  · exact h b

theorem raise_congr (s : Exponents) (a : Axis) {j k : Nat} (h : j % a.order = k % a.order) :
    (s.raise a j).Congr (s.raise a k) := by
  intro b
  unfold raise
  split
  · next hb =>
    subst hb
    rw [Nat.add_mod, h, ← Nat.add_mod]
  · rfl

theorem raise_zero (s : Exponents) (a : Axis) : s.raise a 0 = s := by
  funext b
  simp [raise]

theorem raise_raise (s : Exponents) (a : Axis) (j k : Nat) :
    (s.raise a j).raise a k = s.raise a (j + k) := by
  funext b
  unfold raise
  split
  · exact Nat.add_assoc _ _ _
  · rfl

theorem raise_comm (s : Exponents) (a b : Axis) (j k : Nat) :
    (s.raise a j).raise b k = (s.raise b k).raise a j := by
  funext c
  unfold raise
  split
  · split
    · exact Nat.add_right_comm _ _ _
    · rfl
  · rfl

end Exponents

/-! ## Taking a term apart -/

namespace Term

/-- Goes down to the atoms and the outermost mirrors of a term, adds up the exponents above each, and
puts there what `leaf` makes of the sums and the part. -/
def spread (leaf : Exponents → Term → Term) (s : Exponents) : Term → Term
  | .atom a => leaf s (.atom a)
  | .seq l r => .seq (spread leaf s l) (spread leaf s r)
  | .par l r => .par (spread leaf s l) (spread leaf s r)
  | .transform (.power a k) t => spread leaf (s.raise a k) t
  | .transform .mirror t => leaf s (.transform .mirror t)

/-- The sums count modulo the orders only. -/
def Uniform (leaf : Exponents → Term → Term) : Prop :=
  ∀ s s' : Exponents, s.Congr s' → ∀ t, leaf s t = leaf s' t

variable {leaf : Exponents → Term → Term}

theorem Uniform.spread (h : Uniform leaf) : Uniform (spread leaf) := by
  intro s s' hs t
  induction t generalizing s s' with
  | atom a => exact h s s' hs _
  | seq l r ihl ihr => rw [Term.spread, Term.spread, ihl s s' hs, ihr s s' hs]
  | par l r ihl ihr => rw [Term.spread, Term.spread, ihl s s' hs, ihr s s' hs]
  | transform f t ih =>
      cases f with
      | power a k => exact ih _ _ (hs.raise a k)
      | mirror => exact h s s' hs _

/-- What stands at the atoms and mirrors is reached by taking a term apart once. -/
theorem spread_spread (s : Exponents) (t : Term) : spread (spread leaf) s t = spread leaf s t := by
  induction t generalizing s with
  | atom a => rfl
  | seq l r ihl ihr => rw [spread, spread, ihl, ihr]
  | par l r ihl ihr => rw [spread, spread, ihl, ihr]
  | transform f t ih =>
      cases f with
      | power a k => exact ih _
      | mirror => rfl

end Term

namespace Rule

variable {leaf : Exponents → Term → Term}

/-- **A rule at the root cannot be seen**, unless the root is a mirror. -/
theorem spread_reduct? (hleaf : Term.Uniform leaf) {r : Rule} {t u : Term}
    (h : r.reduct? t = some u) (ht : ∀ b, t ≠ .transform .mirror b) (s : Exponents) :
    u.spread leaf s = t.spread leaf s := by
  obtain ⟨fs, gs, b, hchain, rfl, rfl⟩ | ⟨-, f, x, y, ⟨rfl, rfl⟩ | ⟨rfl, rfl⟩⟩ := reduct?_cases h
  -- both chains raise the sums by the same amounts, up to the order of the turns
  · cases hchain with
    | @drop f hid =>
        cases f with
        | mirror => exact absurd rfl (ht b)
        | power a k =>
            have hs := s.raise_congr a ((Transform.isIdentity_power.mp hid).trans
              (Nat.zero_mod a.order).symm)
            rw [s.raise_zero] at hs
            exact (hleaf.spread _ _ hs b).symm
    | @reduce f =>
        cases f with
        | mirror => exact absurd rfl (ht b)
        | power a k => exact hleaf.spread _ _ (s.raise_congr a (Nat.mod_mod _ _)) b
    | fold a j k =>
        show b.spread leaf (s.raise a (((j : Int) + k) % a.order).toNat)
          = b.spread leaf ((s.raise a j).raise a k)
        rw [s.raise_raise]
        refine hleaf.spread _ _ (s.raise_congr a ?_) b
        -- the exponent is reduced as an integer
        have hmod : (((j : Int) + k) % a.order).toNat = (j + k) % a.order := by
          exact_mod_cast Int.toNat_natCast ((j + k) % a.order)
        rw [hmod, Nat.mod_mod]
    | cancel => exact absurd rfl (ht _)
    | conjugate => exact absurd rfl (ht _)
    | @swap a c j k =>
        show b.spread leaf ((s.raise c k).raise a j) = b.spread leaf ((s.raise a j).raise c k)
        rw [s.raise_comm]
  · cases f with
    | mirror => exact absurd rfl (ht _)
    | power a k => rfl
  · cases f with
    | mirror => exact absurd rfl (ht _)
    | power a k => rfl

theorem spread_settle (hleaf : Term.Uniform leaf) (rules : List Rule) (trace : List Rule) {t : Term}
    (ht : ∀ b, t ≠ .transform .mirror b) (s : Exponents) :
    (settle rules t trace).term.spread leaf s = t.spread leaf s := by
  unfold settle
  cases hf : fire? rules t with
  | none => rfl
  | some p =>
      obtain ⟨r, u⟩ := p
      exact spread_reduct? hleaf (reduct?_of_fire? hf) ht s

/-- **A pass over a term is a pass over its atoms and its outermost mirrors.** -/
theorem spread_pass (hleaf : Term.Uniform leaf) (rules : List Rule) (s : Exponents) (t : Term) :
    (pass rules t).spread leaf s = t.spread (fun s b => (pass rules b).spread leaf s) s := by
  induction t generalizing s with
  | atom a => rfl
  | seq l r ihl ihr =>
      rw [Term.spread, ← ihl, ← ihr]
      exact spread_settle hleaf rules _ (by rintro b ⟨⟩) s
  | par l r ihl ihr =>
      rw [Term.spread, ← ihl, ← ihr]
      exact spread_settle hleaf rules _ (by rintro b ⟨⟩) s
  | transform f t ih =>
      cases f with
      | power a k =>
          rw [Term.spread, ← ih]
          exact spread_settle hleaf rules _ (by rintro b ⟨⟩) s
      | mirror => rfl

/-- **Passes over a term are passes over its atoms and its outermost mirrors.** -/
theorem spread_passes (hleaf : Term.Uniform leaf) (rules : List Rule) (n : Nat) (s : Exponents)
    (t : Term) :
    ((pass rules)^[n] t).spread leaf s =
      t.spread (fun s b => ((pass rules)^[n] b).spread leaf s) s := by
  induction n generalizing s t with
  | zero => exact (Term.spread_spread s t).symm
  | succ n ih =>
      -- the first pass is taken apart by what the other passes leave, which counts modulo the
      -- orders because `leaf` does
      have huniform : Term.Uniform fun s b => ((pass rules)^[n] b).spread leaf s :=
        fun s s' hs b => hleaf.spread s s' hs _
      calc ((pass rules)^[n] (pass rules t)).spread leaf s
          = (pass rules t).spread (fun s b => ((pass rules)^[n] b).spread leaf s) s := ih s _
        _ = t.spread (fun s b =>
              (pass rules b).spread (fun s b => ((pass rules)^[n] b).spread leaf s) s) s :=
            spread_pass huniform rules s t
        _ = t.spread (fun s b => ((pass rules)^[n] (pass rules b)).spread leaf s) s := by
            congr 1
            funext s b
            exact (ih s (pass rules b)).symm

end Rule

/-! ## Canonical chains -/

namespace Term

variable {leaf : Exponents → Term → Term} {a : Axis}

/-- The part below its canonical chain: rotation, triality and twist, from the outside in, each by its
sum modulo its order. A turn that moves nothing is left out. -/
def turned (s : Exponents) (t : Term) : Term :=
  transformed (.power .rotate (s .rotate))
    (transformed (.power .triality (s .triality)) (transformed (.power .twist (s .twist)) t))

theorem transformed_of_mod_eq_zero {k : Nat} (h : k % a.order = 0) (t : Term) :
    transformed (.power a k) t = t := if_pos (Transform.isIdentity_power.mpr h)

theorem transformed_of_mod_ne_zero {k : Nat} (h : k % a.order ≠ 0) (t : Term) :
    transformed (.power a k) t = .transform (.power a (k % a.order)) t :=
  if_neg fun hid => h (Transform.isIdentity_power.mp hid)

theorem transformed_congr {j k : Nat} (h : j % a.order = k % a.order) (t : Term) :
    transformed (.power a j) t = transformed (.power a k) t := by
  by_cases hj : j % a.order = 0
  · rw [transformed_of_mod_eq_zero hj, transformed_of_mod_eq_zero (h ▸ hj)]
  · rw [transformed_of_mod_ne_zero hj, transformed_of_mod_ne_zero (h ▸ hj), h]

theorem uniform_turned : Uniform turned := by
  intro s s' hs t
  unfold turned
  rw [transformed_congr (hs .rotate), transformed_congr (hs .triality),
    transformed_congr (hs .twist)]

theorem spread_transformed (hleaf : Uniform leaf) (s : Exponents) (a : Axis) (k : Nat) (t : Term) :
    (transformed (.power a k) t).spread leaf s = t.spread leaf (s.raise a k) := by
  by_cases hk : k % a.order = 0
  · rw [transformed_of_mod_eq_zero hk]
    refine hleaf.spread _ _ ?_ t
    have hs := s.raise_congr a ((Nat.zero_mod a.order).trans hk.symm)
    rwa [s.raise_zero] at hs
  · rw [transformed_of_mod_ne_zero hk]
    exact hleaf.spread _ _ (s.raise_congr a (Nat.mod_mod _ _)) t

/-- Taking a canonical chain apart gives back its sums. -/
theorem spread_turned (hleaf : Uniform leaf) (s s' : Exponents) (t : Term) :
    (turned s' t).spread leaf s = t.spread leaf fun a => s a + s' a := by
  unfold turned
  rw [spread_transformed hleaf, spread_transformed hleaf, spread_transformed hleaf]
  congr 1
  funext a
  cases a <;> simp [Exponents.raise]

/-- Where a canonical chain starts with an axis after `a`, the sums up to `a` vanish. -/
theorem mod_eq_zero_of_head {s : Exponents} {t : Term}
    (h : ∀ b j u, turned s t = .transform (.power b j) u → a.rank < b.rank) :
    ∀ c : Axis, c.rank ≤ a.rank → s c % c.order = 0 := by
  -- no axis comes before rotation, so there is never a rotation in front
  have hrotate : s .rotate % Axis.rotate.order = 0 := by
    by_contra hne
    exact Nat.not_lt_zero _ (h _ _ _ (transformed_of_mod_ne_zero hne _))
  unfold turned at h
  rw [transformed_of_mod_eq_zero hrotate] at h
  have htriality : Axis.triality.rank ≤ a.rank → s .triality % Axis.triality.order = 0 := by
    intro hle
    by_contra hne
    exact Nat.not_lt.mpr hle (h _ _ _ (transformed_of_mod_ne_zero hne _))
  intro c hc
  cases c with
  | rotate => exact hrotate
  | triality => exact htriality hc
  | twist =>
      by_contra hne
      rw [transformed_of_mod_eq_zero (htriality (Nat.le_trans (by decide) hc))] at h
      exact Nat.not_lt.mpr hc (h _ _ _ (transformed_of_mod_ne_zero hne _))

/-- A reduced power in front of a canonical chain of later axes is part of a canonical chain. -/
theorem transform_turned {s : Exponents} {t : Term} {k : Nat} (hk : k % a.order ≠ 0)
    (hlt : k < a.order) (hs : ∀ c : Axis, c.rank ≤ a.rank → s c % c.order = 0) :
    .transform (.power a k) (turned s t) = turned (Function.update s a k) t := by
  have hpower : ∀ u, transformed (.power a k) u = .transform (.power a k) u := by
    intro u
    rw [transformed_of_mod_ne_zero hk, Nat.mod_eq_of_lt hlt]
  have hdrop : ∀ c : Axis, c.rank ≤ a.rank → ∀ u, transformed (.power c (s c)) u = u :=
    fun c hc u => transformed_of_mod_eq_zero (hs c hc) u
  unfold turned
  cases a with
  | rotate =>
      rw [hdrop .rotate (by decide)]
      simp [hpower]
  | triality =>
      rw [hdrop .rotate (by decide), hdrop .triality (by decide)]
      simp [hpower, hdrop .rotate (by decide)]
  | twist =>
      rw [hdrop .rotate (by decide), hdrop .triality (by decide), hdrop .twist (by decide)]
      simp [hpower, hdrop .rotate (by decide), hdrop .triality (by decide)]

end Term

/-! ## Normal terms -/

namespace Rule

/-- What stands in the way of all rules at a power of a turn. -/
theorem of_fire?_power_eq_none {a : Axis} {k : Nat} {t : Term}
    (h : fire? standard (.transform (.power a k) t) = none) :
    k % a.order ≠ 0 ∧ k < a.order ∧ (∀ x y, t ≠ .seq x y) ∧ (∀ x y, t ≠ .par x y) ∧
      ∀ b j u, t = .transform (.power b j) u → a.rank < b.rank := by
  obtain ⟨⟨hpos, hlt⟩, hroot⟩ := (fire?_standard_eq_none_iff (by rintro ⟨⟩)).mp h
  refine ⟨?_, hlt, ?_, ?_, ?_⟩
  · rw [Nat.mod_eq_of_lt hlt]
    omega
  · rintro x y rfl
    cases hroot
  · rintro x y rfl
    cases hroot
  · rintro b j u rfl
    exact Axis.rank_lt_of_mayCover hroot

/-- A normal term that is no composition is an atom or a mirror below a canonical chain. -/
theorem exists_turned_of_isNormal {t : Term} (h : isNormal standard t = true)
    (hseq : ∀ x y, t ≠ .seq x y) (hpar : ∀ x y, t ≠ .par x y) :
    ∃ s b, (∀ leaf s, Term.spread leaf s b = leaf s b) ∧ t = b.turned s := by
  induction t with
  | atom a => exact ⟨fun _ => 0, .atom a, fun _ _ => rfl, rfl⟩
  | seq l r => exact absurd rfl (hseq l r)
  | par l r => exact absurd rfl (hpar l r)
  | transform f t ih =>
      cases f with
      | mirror => exact ⟨fun _ => 0, .transform .mirror t, fun _ _ => rfl, rfl⟩
      | power a k =>
          rw [isNormal, Bool.and_eq_true, Option.isNone_iff_eq_none] at h
          obtain ⟨hk, hlt, hseq', hpar', hrank⟩ := of_fire?_power_eq_none h.1
          obtain ⟨s, b, hb, rfl⟩ := ih h.2 hseq' hpar'
          -- the chain below starts with a later axis, so the new power goes in front of it
          exact ⟨Function.update s a k, b, hb,
            Term.transform_turned hk hlt (Term.mod_eq_zero_of_head hrank)⟩

/-- **A normal term is recovered from its sums.** -/
theorem spread_turned_of_isNormal {t : Term} (h : isNormal standard t = true) :
    t.spread Term.turned 0 = t := by
  -- an atom or a mirror below a canonical chain; a composition has only its parts to recover
  have hchain : ∀ {t : Term}, isNormal standard t = true → (∀ x y, t ≠ .seq x y) →
      (∀ x y, t ≠ .par x y) → t.spread Term.turned 0 = t := by
    intro t ht hseq hpar
    obtain ⟨s, b, hb, rfl⟩ := exists_turned_of_isNormal ht hseq hpar
    rw [Term.spread_turned Term.uniform_turned, hb]
    congr 1
    funext a
    exact Nat.zero_add _
  induction t with
  | atom a => exact hchain h (by rintro x y ⟨⟩) (by rintro x y ⟨⟩)
  | seq l r ihl ihr =>
      rw [isNormal, Bool.and_eq_true, Bool.and_eq_true] at h
      rw [Term.spread, ihl h.1.2, ihr h.2]
  | par l r ihl ihr =>
      rw [isNormal, Bool.and_eq_true, Bool.and_eq_true] at h
      rw [Term.spread, ihl h.1.2, ihr h.2]
  | transform f t => exact hchain h (by rintro x y ⟨⟩) (by rintro x y ⟨⟩)

/-! ## Derivations -/

/-- What `n` passes over a part leave below given sums. -/
def passed (n : Nat) (s : Exponents) (b : Term) : Term :=
  ((pass standard)^[n] b).spread Term.turned s

/-- The passes over a term that has a derivation leave its last term, below any sums. -/
theorem spread_passed_of_derive {limit : Nat} {t : Term} {d : Derivation}
    (h : derive standard limit t = .ok d) :
    ∃ n, ∀ m, n ≤ m → ∀ s, t.spread (passed m) s = d.term.spread Term.turned s := by
  obtain ⟨-, n, hn⟩ := derive_eq_ok h
  refine ⟨n, fun m hm s => ?_⟩
  rw [← hn m hm, spread_passes Term.uniform_turned]
  rfl

/-- **The end of a derivation**, from what passes leave at the atoms and the outermost mirrors. -/
theorem derive_eq_spread {limit : Nat} {t : Term} {d : Derivation}
    (h : derive standard limit t = .ok d) :
    ∃ n, ∀ m, n ≤ m → d.term = t.spread (passed m) 0 := by
  obtain ⟨n, hn⟩ := spread_passed_of_derive h
  refine ⟨n, fun m hm => ?_⟩
  rw [hn m hm, spread_turned_of_isNormal (derive_eq_ok h).1]

/-- A normal term is left as it is. -/
theorem spread_passed_of_isNormal {t : Term} (h : isNormal standard t = true) (m : Nat)
    (s : Exponents) : t.spread (passed m) s = t.spread Term.turned s := by
  have hpasses := spread_passes Term.uniform_turned standard m s t
  rw [iterate_pass_of_isNormal h] at hpasses
  exact hpasses.symm

end Rule

end NinetySix
