import NinetySix.Proofs.Contexts
import NinetySix.Proofs.Convergence

set_option autoImplicit false

/-! # The laws of the mirror

A sweep tries the rules at a mirror before it goes below it, so a mirror meets its part as written. A
mirror over a mirror, over a triality or over a twist therefore fires in the first sweep that reaches
it, and in a context without mirrors above it that is the first sweep of all (`Rule.pass_mirror`).

What it fires to can stand in its place from the start. The two terms are not treated in step: where
the mirror was, the passes over its result begin one pass later, while the rest of the term is treated
alike. The result comes to rest all the same (`Rule.exists_derive`), and from then on one pass more or
less makes no difference (`Rule.spread_passed_of_mirror`).
-/

namespace NinetySix

namespace Rule

/-! ## What a mirror fires to -/

theorem fire?_double_mirror (x : Term) :
    fire? standard (.transform .mirror (.transform .mirror x)) = some (.cancellation, x) := rfl

/-- A mirror over a triality or a twist that moves something gives the inverse turn. -/
theorem fire?_mirror_power {a : Axis} (ha : a ≠ .rotate) {k : Nat} (hk : k % a.order ≠ 0) (x : Term) :
    fire? standard (.transform .mirror (.transform (.power a k) x)) =
      some (.conjugation, .transform (.ofInt a (a.order - k)) x) := by
  have hid : (Transform.power a k).isIdentity = false :=
    Bool.eq_false_iff.mpr fun h => hk (Transform.isIdentity_power.mp h)
  -- the three rules before conjugation decline, whatever the exponent
  refine List.findSome?_eq_some_iff.mpr ⟨[.identity, .folding, .cancellation], .conjugation,
    [.distribution, .ordering], rfl, ?_, ?_⟩
  · exact congrArg (Option.map _) ((Replaces.conjugate hid ha).reduct?_eq x)
  · intro r hr
    simp only [List.mem_cons, List.not_mem_nil, or_false] at hr
    rcases hr with rfl | rfl | rfl
    · rfl
    · rfl
    · rfl

theorem pass_mirror {rules : List Rule} {t u : Term} {r : Rule}
    (h : fire? rules (.transform .mirror t) = some (r, u)) : pass rules (.transform .mirror t) = u := by
  rw [pass, sweep, h]

/-! ## One pass later -/

/-- Passes over a part are passes over what the first of them leaves, one fewer. -/
theorem passed_succ (n : Nat) (s : Exponents) (t : Term) :
    passed (n + 1) s t = (pass standard t).spread (passed n) s :=
  spread_passes Term.uniform_turned standard n s (pass standard t)

/-- **A mirror and what it fires to cannot be told apart** after enough passes. -/
theorem spread_passed_of_mirror {t u : Term} (h : pass standard (.transform .mirror t) = u) :
    ∃ n, ∀ m, n ≤ m → ∀ s,
      (Term.transform .mirror t).spread (passed m) s = u.spread (passed m) s := by
  obtain ⟨d, hd⟩ := exists_derive standard u (Nat.le_refl _)
  obtain ⟨n, hn⟩ := spread_passed_of_derive hd
  refine ⟨n + 1, fun m hm s => ?_⟩
  obtain ⟨m, rfl⟩ := Nat.exists_eq_add_of_le' (Nat.le_trans (Nat.le_add_left 1 n) hm)
  -- the passes over `u` are at rest already, so the one that is missing changes nothing
  calc (Term.transform .mirror t).spread (passed (m + 1)) s
      = (pass standard (.transform .mirror t)).spread (passed m) s := passed_succ m s _
    _ = u.spread (passed m) s := by rw [h]
    _ = d.term.spread Term.turned s := hn m (Nat.le_of_succ_le_succ hm) s
    _ = u.spread (passed (m + 1)) s := (hn (m + 1) (Nat.le_of_succ_le hm) s).symm

/-- **What a mirror fires to stands for it** in every context without mirrors above the hole. -/
theorem term_eq_of_mirror (C : Context) {t u : Term} {r : Rule} {n n' : Nat} {d e : Derivation}
    (h : fire? standard (.transform .mirror t) = some (r, u))
    (hd : derive standard n (C.fill (.transform .mirror t)) = .ok d)
    (he : derive standard n' (C.fill u) = .ok e) : d.term = e.term := by
  refine term_eq_of_spread_passed hd he ?_
  obtain ⟨k, hk⟩ := spread_passed_of_mirror (pass_mirror h)
  exact ⟨k, fun m hm => C.spread_fill (hk m hm) 0⟩

end Rule

open Rule (derive standard)

/-- **The laws of the mirror hold in every context without mirrors above the hole.** A mirror over a
triality or a twist that moves something leads to the same normal form as the inverse turn, and a pair
of mirrors to the same as neither, whatever stands below and beside. -/
theorem derive_mirror_laws (C : Context) (x : Term) (n n' : Nat) (d e : Derivation) :
    (∀ k : Nat, k % 3 ≠ 0 →
      derive standard n (C.fill (.transform .mirror (.transform (.power .triality k) x))) = .ok d →
      derive standard n' (C.fill (.transform (.power .triality ((3 - k : Int) % 3).toNat) x)) = .ok e →
      d.term = e.term) ∧
    (∀ k : Nat, k % 8 ≠ 0 →
      derive standard n (C.fill (.transform .mirror (.transform (.power .twist k) x))) = .ok d →
      derive standard n' (C.fill (.transform (.power .twist ((8 - k : Int) % 8).toNat) x)) = .ok e →
      d.term = e.term) ∧
    (derive standard n (C.fill (.transform .mirror (.transform .mirror x))) = .ok d →
      derive standard n' (C.fill x) = .ok e → d.term = e.term) := by
  refine ⟨?_, ?_, ?_⟩
  · intro k hk
    exact Rule.term_eq_of_mirror C (Rule.fire?_mirror_power (a := .triality) (by decide) hk x)
  · intro k hk
    exact Rule.term_eq_of_mirror C (Rule.fire?_mirror_power (a := .twist) (by decide) hk x)
  · exact Rule.term_eq_of_mirror C (Rule.fire?_double_mirror x)

/-- A twist over a mirror that stays, with a rotation in between. -/
def twistedMirror : Term :=
  .transform (.power .twist 3) (.transform (.power .rotate 1) (.transform .mirror (.atom .toClass)))

/-- The normal forms of the context with turns of that mirror in it. -/
def turnedMirror (q r : Nat) : Term :=
  .seq (.transform (.power .rotate 1) (.transform (.power .triality q) (.transform (.power .twist r)
      (.transform .mirror (.atom .toClass)))))
    (.transform (.power .twist 1) (.transform .mirror (.atom .toClass)))

/-- Below turns about the same axes and beside a mirror, each law joins a derivation that removes a
mirror with one that has none to remove. The exponents are not reduced. -/
theorem derive_mirror_laws_turnedContext :
    let C := turnedContext
    let x := twistedMirror
    (∃ d e, 4 % 3 ≠ 0 ∧
      derive standard 9 (C.fill (.transform .mirror (.transform (.power .triality 4) x))) = .ok d ∧
      derive standard 9 (C.fill (.transform (.power .triality 2) x)) = .ok e ∧
      .conjugation ∈ d.trace ∧ .conjugation ∉ e.trace ∧ d.term = e.term) ∧
    (∃ d e, 13 % 8 ≠ 0 ∧
      derive standard 9 (C.fill (.transform .mirror (.transform (.power .twist 13) x))) = .ok d ∧
      derive standard 9 (C.fill (.transform (.power .twist 3) x)) = .ok e ∧
      .conjugation ∈ d.trace ∧ .conjugation ∉ e.trace ∧ d.term = e.term) ∧
    ∃ d e, derive standard 9 (C.fill (.transform .mirror (.transform .mirror x))) = .ok d ∧
      derive standard 9 (C.fill x) = .ok e ∧
      .cancellation ∈ d.trace ∧ .cancellation ∉ e.trace ∧ d.term = e.term := by
  intro C x
  have hd₁ : derive standard 9 (C.fill (.transform .mirror (.transform (.power .triality 4) x))) =
      .ok ⟨turnedMirror 1 4, [.conjugation, .folding, .identity, .ordering, .ordering, .distribution,
        .ordering, .ordering, .folding]⟩ := by decide +kernel
  have he₁ : derive standard 9 (C.fill (.transform (.power .triality 2) x)) =
      .ok ⟨turnedMirror 1 4, [.ordering, .ordering, .ordering, .identity, .folding, .distribution,
        .ordering, .ordering, .folding]⟩ := by decide +kernel
  have hd₂ : derive standard 9 (C.fill (.transform .mirror (.transform (.power .twist 13) x))) =
      .ok ⟨turnedMirror 2 7, [.conjugation, .identity, .ordering, .ordering, .ordering, .distribution,
        .folding, .ordering, .ordering, .folding]⟩ := by decide +kernel
  have he₂ : derive standard 9 (C.fill (.transform (.power .twist 3) x)) =
      .ok ⟨turnedMirror 2 7, [.ordering, .ordering, .ordering, .identity, .folding, .distribution,
        .ordering, .ordering, .folding]⟩ := by decide +kernel
  have hd₃ : derive standard 9 (C.fill (.transform .mirror (.transform .mirror x))) =
      .ok ⟨turnedMirror 2 4, [.cancellation, .identity, .ordering, .ordering, .distribution,
        .ordering, .ordering, .folding]⟩ := by decide +kernel
  have he₃ : derive standard 9 (C.fill x) =
      .ok ⟨turnedMirror 2 4, [.ordering, .ordering, .identity, .distribution, .ordering, .ordering,
        .folding]⟩ := by decide +kernel
  refine ⟨⟨_, _, by decide, hd₁, he₁, by decide, by decide, ?_⟩,
    ⟨_, _, by decide, hd₂, he₂, by decide, by decide, ?_⟩, _, _, hd₃, he₃, by decide, by decide, ?_⟩
  · exact (derive_mirror_laws C x 9 9 _ _).1 4 (by decide) hd₁ he₁
  · exact (derive_mirror_laws C x 9 9 _ _).2.1 13 (by decide) hd₂ he₂
  · exact (derive_mirror_laws C x 9 9 _ _).2.2 hd₃ he₃

end NinetySix
