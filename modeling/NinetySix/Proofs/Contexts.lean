import NinetySix.Proofs.Spread

set_option autoImplicit false

/-! # Normalisation is modular outside mirrors

A `Context` is a term with a hole in it and no mirror above the hole. To normalise a term in a
context, its part may be normalised first (`derive_modular`): the passes treat the part in the
context as they treat it alone, and the turns above it only travel through. Below a mirror this
fails, since what the mirror conjugates depends on how far its part has come.
-/

namespace NinetySix

/-- A term with a hole, above which stand compositions and powers of turns. -/
inductive Context where
  | hole
  | seqLeft (C : Context) (right : Term)
  | seqRight (left : Term) (C : Context)
  | parLeft (C : Context) (right : Term)
  | parRight (left : Term) (C : Context)
  | power (a : Axis) (k : Nat) (C : Context)
  deriving DecidableEq, Repr

namespace Context

/-- The term with the hole filled. -/
def fill (x : Term) : Context → Term
  | .hole => x
  | .seqLeft C right => .seq (C.fill x) right
  | .seqRight left C => .seq left (C.fill x)
  | .parLeft C right => .par (C.fill x) right
  | .parRight left C => .par left (C.fill x)
  | .power a k C => .transform (.power a k) (C.fill x)

/-- Parts that cannot be told apart below any sums cannot be told apart in a context. -/
theorem spread_fill {leaf : Exponents → Term → Term} {x y : Term}
    (h : ∀ s, x.spread leaf s = y.spread leaf s) (C : Context) (s : Exponents) :
    (C.fill x).spread leaf s = (C.fill y).spread leaf s := by
  induction C generalizing s with
  | hole => exact h s
  | seqLeft C right ih => rw [fill, fill, Term.spread, Term.spread, ih]
  | seqRight left C ih => rw [fill, fill, Term.spread, Term.spread, ih]
  | parLeft C right ih => rw [fill, fill, Term.spread, Term.spread, ih]
  | parRight left C ih => rw [fill, fill, Term.spread, Term.spread, ih]
  | power a k C ih => exact ih (s.raise a k)

end Context

namespace Rule

variable {t u : Term} {n n' : Nat} {d e : Derivation}

/-- Two terms have one normal form if, from some number of passes on, the passes leave the same at
the places that they reach. -/
theorem term_eq_of_spread_passed (hd : derive standard n t = .ok d)
    (he : derive standard n' u = .ok e)
    (h : ∃ k, ∀ m, k ≤ m → t.spread (passed m) 0 = u.spread (passed m) 0) : d.term = e.term := by
  obtain ⟨i, hi⟩ := derive_eq_spread hd
  obtain ⟨j, hj⟩ := derive_eq_spread he
  obtain ⟨k, hk⟩ := h
  -- enough passes for both derivations to have ended
  calc d.term = t.spread (passed (i + j + k)) 0 := hi _ (by omega)
    _ = u.spread (passed (i + j + k)) 0 := hk _ (by omega)
    _ = e.term := (hj _ (by omega)).symm

/-- The end of a derivation stands for its start in every context. -/
theorem term_eq_of_context (C : Context) {n₁ n₂ : Nat} {d₁ d₂ : Derivation}
    (hd : derive standard n t = .ok d) (h₁ : derive standard n₁ (C.fill t) = .ok d₁)
    (h₂ : derive standard n₂ (C.fill d.term) = .ok d₂) : d₁.term = d₂.term := by
  refine term_eq_of_spread_passed h₁ h₂ ?_
  obtain ⟨k, hk⟩ := spread_passed_of_derive hd
  refine ⟨k, fun m hm => C.spread_fill (fun s => ?_) 0⟩
  -- the passes bring the part to its normal form, and leave the normal form alone
  calc t.spread (passed m) s = d.term.spread Term.turned s := hk m hm s
    _ = d.term.spread (passed m) s := (spread_passed_of_isNormal (derive_eq_ok hd).1 m s).symm

/-- The normal form of a composition is the composition of the normal forms. -/
theorem term_eq_of_parts {C : Term → Term → Term}
    (hC : ∀ leaf s x y, (C x y).spread leaf s = C (x.spread leaf s) (y.spread leaf s))
    {x y : Term} {n₁ n₂ : Nat} {d₁ d₂ : Derivation} (h₁ : derive standard n₁ x = .ok d₁)
    (h₂ : derive standard n₂ y = .ok d₂) (hd : derive standard n (C x y) = .ok d) :
    d.term = C d₁.term d₂.term := by
  obtain ⟨i, hi⟩ := derive_eq_spread h₁
  obtain ⟨j, hj⟩ := derive_eq_spread h₂
  obtain ⟨k, hk⟩ := derive_eq_spread hd
  calc d.term = (C x y).spread (passed (i + j + k)) 0 := hk _ (by omega)
    _ = C (x.spread (passed (i + j + k)) 0) (y.spread (passed (i + j + k)) 0) := hC _ _ _ _
    _ = C d₁.term d₂.term := by rw [← hi _ (by omega), ← hj _ (by omega)]

end Rule

/-- **Normalisation is modular outside mirrors.** In a context without mirrors above the hole, a part
and its normal form lead to the same normal form. Hence the normal form of a composition is the
composition of the normal forms. -/
theorem derive_modular :
    (∀ (C : Context) (x : Term) (n n₁ n₂ : Nat) (d d₁ d₂ : Derivation),
      Rule.derive Rule.standard n x = .ok d → Rule.derive Rule.standard n₁ (C.fill x) = .ok d₁ →
      Rule.derive Rule.standard n₂ (C.fill d.term) = .ok d₂ → d₁.term = d₂.term) ∧
    (∀ (x y : Term) (n n₁ n₂ : Nat) (d d₁ d₂ : Derivation),
      Rule.derive Rule.standard n₁ x = .ok d₁ → Rule.derive Rule.standard n₂ y = .ok d₂ →
      Rule.derive Rule.standard n (.seq x y) = .ok d → d.term = .seq d₁.term d₂.term) ∧
    (∀ (x y : Term) (n n₁ n₂ : Nat) (d d₁ d₂ : Derivation),
      Rule.derive Rule.standard n₁ x = .ok d₁ → Rule.derive Rule.standard n₂ y = .ok d₂ →
      Rule.derive Rule.standard n (.par x y) = .ok d → d.term = .par d₁.term d₂.term) := by
  refine ⟨?_, ?_, ?_⟩
  · intro C x n n₁ n₂ d d₁ d₂ hd h₁ h₂
    exact Rule.term_eq_of_context C hd h₁ h₂
  · intro x y n n₁ n₂ d d₁ d₂ h₁ h₂ hd
    exact Rule.term_eq_of_parts (fun _ _ _ _ => rfl) h₁ h₂ hd
  · intro x y n n₁ n₂ d d₁ d₂ h₁ h₂ hd
    exact Rule.term_eq_of_parts (fun _ _ _ _ => rfl) h₁ h₂ hd

/-- A mirror that is conjugated with the triality below it, above a mirror that stays. -/
def mirroredPart : Term :=
  .transform .mirror (.transform (.power .triality 4)
    (.transform .mirror (.transform (.power .rotate 1) (.atom (.param "x")))))

/-- A context whose turns meet the triality that the conjugation leaves. -/
def turnedContext : Context :=
  .power .twist 9 (.seqLeft (.power .triality 2 .hole) (.transform .mirror (.atom .toClass)))

/-- The part is conjugated, and its normal form stands for it in the context and in compositions. -/
theorem derive_modular_turnedContext :
    ∃ d d₁ d₂ e e', Rule.derive Rule.standard 9 mirroredPart = .ok d ∧ .conjugation ∈ d.trace ∧
      Rule.derive Rule.standard 9 (turnedContext.fill mirroredPart) = .ok d₁ ∧
      Rule.derive Rule.standard 9 (turnedContext.fill d.term) = .ok d₂ ∧ d₁.term = d₂.term ∧
      Rule.derive Rule.standard 9 (.seq mirroredPart (turnedContext.fill mirroredPart)) = .ok e ∧
      e.term = .seq d.term d₁.term ∧
      Rule.derive Rule.standard 9 (.par mirroredPart (turnedContext.fill mirroredPart)) = .ok e' ∧
      e'.term = .par d.term d₁.term := by
  obtain ⟨hcontext, hseq, hpar⟩ := derive_modular
  have hd : Rule.derive Rule.standard 9 mirroredPart = .ok _ := rfl
  have hd₁ : Rule.derive Rule.standard 9 (turnedContext.fill mirroredPart) = .ok _ := rfl
  exact ⟨_, _, _, _, _, hd, by decide, hd₁, rfl,
    hcontext turnedContext mirroredPart 9 9 9 _ _ _ hd hd₁ rfl,
    rfl, hseq _ _ 9 9 9 _ _ _ hd hd₁ rfl, rfl, hpar _ _ 9 9 9 _ _ _ hd hd₁ rfl⟩

end NinetySix
