import NinetySix.Proofs.Exactness

set_option autoImplicit false

/-! # The laws of the checked product

The checked operations give what the ring of unbounded integers gives, and a canonical multivector
is determined by its coefficients. So the laws of the ring hold for multivectors, and for elements
with their residues, wherever all operations involved succeed. The identity never fails: a product
with it lists the terms of the other factor, and they add up to that factor.
-/

namespace NinetySix

namespace Multivector

variable {x y z xy xz yz s l r : Multivector}

/-! ## Associativity and distributivity -/

theorem Canonical.mul_assoc_of_ok (hx : x.Canonical) (hy : y.Canonical) (hz : z.Canonical)
    (hxy : x.mul y = .ok xy) (hl : xy.mul z = .ok l) (hyz : y.mul z = .ok yz)
    (hr : x.mul yz = .ok r) : l = r := by
  obtain ⟨hxy, exact_xy⟩ := (hx.mul_computes hy).of_ok hxy
  obtain ⟨hyz, exact_yz⟩ := (hy.mul_computes hz).of_ok hyz
  obtain ⟨hl, exact_l⟩ := (hxy.mul_computes hz).of_ok hl
  obtain ⟨hr, exact_r⟩ := (hx.mul_computes hyz).of_ok hr
  apply hl.eq_of_exact hr
  calc l.exact = x.exact * y.exact * z.exact := by rw [exact_l, exact_xy]
    _ = x.exact * (y.exact * z.exact) := mul_assoc _ _ _
    _ = r.exact := by rw [exact_r, exact_yz]

theorem Canonical.mul_add_of_ok (hx : x.Canonical) (hy : y.Canonical) (hz : z.Canonical)
    (hs : y.add z = .ok s) (hl : x.mul s = .ok l) (hxy : x.mul y = .ok xy) (hxz : x.mul z = .ok xz)
    (hr : xy.add xz = .ok r) : l = r := by
  obtain ⟨hs, exact_s⟩ := (hy.add_computes hz).of_ok hs
  obtain ⟨hl, exact_l⟩ := (hx.mul_computes hs).of_ok hl
  obtain ⟨hxy, exact_xy⟩ := (hx.mul_computes hy).of_ok hxy
  obtain ⟨hxz, exact_xz⟩ := (hx.mul_computes hz).of_ok hxz
  obtain ⟨hr, exact_r⟩ := (hxy.add_computes hxz).of_ok hr
  apply hl.eq_of_exact hr
  calc l.exact = x.exact * (y.exact + z.exact) := by rw [exact_l, exact_s]
    _ = x.exact * y.exact + x.exact * z.exact := mul_add _ _ _
    _ = r.exact := by rw [exact_r, exact_xy, exact_xz]

theorem Canonical.add_mul_of_ok (hx : x.Canonical) (hy : y.Canonical) (hz : z.Canonical)
    (hs : x.add y = .ok s) (hl : s.mul z = .ok l) (hxz : x.mul z = .ok xz) (hyz : y.mul z = .ok yz)
    (hr : xz.add yz = .ok r) : l = r := by
  obtain ⟨hs, exact_s⟩ := (hx.add_computes hy).of_ok hs
  obtain ⟨hl, exact_l⟩ := (hs.mul_computes hz).of_ok hl
  obtain ⟨hxz, exact_xz⟩ := (hx.mul_computes hz).of_ok hxz
  obtain ⟨hyz, exact_yz⟩ := (hy.mul_computes hz).of_ok hyz
  obtain ⟨hr, exact_r⟩ := (hxz.add_computes hyz).of_ok hr
  apply hl.eq_of_exact hr
  calc l.exact = (x.exact + y.exact) * z.exact := by rw [exact_l, exact_s]
    _ = x.exact * z.exact + y.exact * z.exact := add_mul _ _ _
    _ = r.exact := by rw [exact_r, exact_xz, exact_yz]

/-! ## The identity -/

theorem Canonical.zero_add_eq (hx : x.Canonical) : zero.add x = .ok x := by
  have hfits : ∀ b, InRange (zero.coeff b + x.coeff b) := by
    intro b
    show InRange (0 + x.coeff b)
    rw [zero_add]
    exact hx.inRange_coeff b
  obtain ⟨r, hr⟩ := canonical_zero.exists_add hx hfits
  obtain ⟨canonical, heq⟩ := (canonical_zero.add_computes hx).of_ok hr
  rw [exact_zero, zero_add] at heq
  rw [hr, canonical.eq_of_exact hx heq]

/-- Contributions with the terms of a multivector add up to it. -/
theorem Canonical.gather_terms (hx : x.Canonical) {f : Blade × Int → Contribution}
    (hterm : ∀ t, (f t).term = t) (hsign : ∀ t, (f t).sign = 1) :
    gather (x.terms.map f) = .ok x := by
  have hvalue : ∀ t, (f t).value = t.2 := fun t => congrArg Prod.snd (hterm t)
  have hproduct : ∀ t, (f t).left * (f t).right = t.2 := by
    intro t
    rw [← hvalue t, Contribution.value, hsign t, mul_one]
  have hfits : ∀ c ∈ x.terms.map f, c.Fits := by
    refine List.forall_mem_map.mpr fun t ht => ⟨?_, ?_⟩
    · rw [hproduct t]
      exact hx.inRange t ht
    · rw [hvalue t]
      exact hx.inRange t ht
  have hterms : (x.terms.map f).map Contribution.term = x.terms := by
    rw [List.map_map]
    exact List.map_id'' hterm x.terms
  rw [gather, foldlM_contribute_of_fits hfits, hterms]
  exact hx.zero_add_eq

/-- **The identity on the right changes nothing.** -/
theorem Canonical.mul_one_eq (hx : x.Canonical) : x.mul (scalar 1) = .ok x := by
  have hone : (scalar 1).terms = [(.scalar, 1)] := rfl
  have hlist : geometric x (scalar 1) = x.terms.map fun t => ⟨t.1, 1, t.2, 1⟩ := by
    unfold geometric
    simp only [hone, List.map_cons, List.map_nil, Blade.product_scalar, Blade.sign_scalar_right]
    exact List.flatMap_pure_eq_map _ _
  rw [mul, hlist]
  refine hx.gather_terms (fun t => ?_) fun t => rfl
  show (t.1, t.2 * 1 * 1) = t
  rw [mul_one, mul_one]

/-- **The identity on the left changes nothing.** -/
theorem Canonical.one_mul_eq (hx : x.Canonical) : (scalar 1).mul x = .ok x := by
  have hone : (scalar 1).terms = [(.scalar, 1)] := rfl
  have hlist : geometric (scalar 1) x = x.terms.map fun t => ⟨t.1, 1, 1, t.2⟩ := by
    unfold geometric
    simp only [hone, List.flatMap_singleton, Blade.scalar_product, Blade.sign_scalar_left]
  rw [mul, hlist]
  refine hx.gather_terms (fun t => ?_) fun t => rfl
  show (t.1, 1 * t.2 * 1) = t
  rw [mul_one, one_mul]

/-! ## Generators -/

/-- A generator with the coefficient one. -/
def generator (i : Fin 7) : Multivector := term (.generator i) 1

theorem mul_term (a b : Blade) :
    (term a 1).mul (term b 1) = .ok (term (a.product b) (a.sign b)) := by
  show gather [⟨a.product b, a.sign b, 1, 1⟩] = _
  rcases a.sign_eq_one_or b with hs | hs
  · rw [hs]
    rfl
  · rw [hs]
    rfl

theorem term_ne_zero (b : Blade) {c : Int} (hc : c ≠ 0) : term b c ≠ zero := by
  unfold term
  rw [if_neg hc]
  intro h
  cases h

/-- **Different generators anticommute.** -/
theorem generator_anticomm {i j : Fin 7} (h : i ≠ j) :
    ∃ m n, (generator i).mul (generator j) = .ok m ∧ (generator j).mul (generator i) = .ok n ∧
      m.scale (-1) = .ok n ∧ m ≠ zero := by
  refine ⟨_, _, mul_term _ _, mul_term _ _, ?_, ?_⟩
  · rw [Blade.product_comm, Blade.sign_generator_swap h]
    rcases (Blade.generator i).sign_eq_one_or (.generator j) with hs | hs
    · rw [hs]
      rfl
    · rw [hs]
      rfl
  · exact term_ne_zero _ (Blade.sign_ne_zero _ _)

theorem generator_mul_self (i : Fin 7) : (generator i).mul (generator i) = .ok (scalar 1) := by
  rw [generator, mul_term, Blade.product_self, Blade.sign_generator_self]
  rfl

end Multivector

/-! ## Elements -/

namespace Element

variable {x y z xy yz l r : Element}

section Assembled

variable {z4 : Fin 4} {z3 : Fin 3} {result : Except AlgebraError Multivector}

/-- An element of two residues and a checked multivector is there if the multivector is. -/
theorem assembled_eq_ok : (do return ⟨z4, z3, ← result⟩ : Except AlgebraError Element) = .ok r ↔
    result = .ok r.clifford ∧ z4 = r.z4 ∧ z3 = r.z3 := by
  rw [bind_eq_ok]
  constructor
  · rintro ⟨m, hm, h⟩
    cases h
    exact ⟨hm, rfl, rfl⟩
  · rintro ⟨hm, h4, h3⟩
    refine ⟨r.clifford, hm, ?_⟩
    rw [h4, h3]
    rfl

theorem assembled_eq_error {e : AlgebraError} :
    (do return ⟨z4, z3, ← result⟩ : Except AlgebraError Element) = .error e ↔ result = .error e := by
  cases result with
  | ok m =>
      constructor
      · intro h
        cases h
      · intro h
        cases h
  | error e' =>
      constructor
      · intro h
        cases h
        rfl
      · intro h
        cases h
        rfl

end Assembled

theorem mul_eq_ok : x.mul y = .ok r ↔
    x.clifford.mul y.clifford = .ok r.clifford ∧ x.z4 + y.z4 = r.z4 ∧ x.z3 + y.z3 = r.z3 :=
  assembled_eq_ok

theorem Canonical.mul_assoc_of_ok (hx : x.Canonical) (hy : y.Canonical) (hz : z.Canonical)
    (hxy : x.mul y = .ok xy) (hl : xy.mul z = .ok l) (hyz : y.mul z = .ok yz)
    (hr : x.mul yz = .ok r) : l = r := by
  obtain ⟨hxy, xy4, xy3⟩ := mul_eq_ok.mp hxy
  obtain ⟨hl, l4, l3⟩ := mul_eq_ok.mp hl
  obtain ⟨hyz, yz4, yz3⟩ := mul_eq_ok.mp hyz
  obtain ⟨hr, r4, r3⟩ := mul_eq_ok.mp hr
  have h4 : l.z4 = r.z4 := by rw [← l4, ← r4, ← xy4, ← yz4, add_assoc]
  have h3 : l.z3 = r.z3 := by rw [← l3, ← r3, ← xy3, ← yz3, add_assoc]
  have hclifford : l.clifford = r.clifford :=
    Multivector.Canonical.mul_assoc_of_ok hx hy hz hxy hl hyz hr
  calc l = ⟨l.z4, l.z3, l.clifford⟩ := rfl
    _ = ⟨r.z4, r.z3, r.clifford⟩ := by rw [h4, h3, hclifford]
    _ = r := rfl

theorem Canonical.mul_identity (hx : x.Canonical) : x.mul identity = .ok x :=
  mul_eq_ok.mpr ⟨Multivector.Canonical.mul_one_eq hx, add_zero _, add_zero _⟩

theorem Canonical.identity_mul (hx : x.Canonical) : identity.mul x = .ok x :=
  mul_eq_ok.mpr ⟨Multivector.Canonical.one_mul_eq hx, zero_add _, zero_add _⟩

end Element

/-! ## The laws -/

open Multivector (scalar generator)

/-- **The checked product obeys the laws of the algebra.** It is associative for multivectors and
for elements, and distributive on both sides, wherever the operations involved succeed. The identity
always leaves the other factor as it is. Different generators anticommute, and each of them squares
to one. -/
theorem product_laws {x y z : Multivector} {u v w : Element} (hx : x.Canonical) (hy : y.Canonical)
    (hz : z.Canonical) (hu : u.Canonical) (hv : v.Canonical) (hw : w.Canonical) :
    (∀ xy yz l r, x.mul y = .ok xy → xy.mul z = .ok l → y.mul z = .ok yz → x.mul yz = .ok r →
      l = r) ∧
    (∀ uv vw l r, u.mul v = .ok uv → uv.mul w = .ok l → v.mul w = .ok vw → u.mul vw = .ok r →
      l = r) ∧
    (∀ s xy xz l r, y.add z = .ok s → x.mul s = .ok l →
      x.mul y = .ok xy → x.mul z = .ok xz → xy.add xz = .ok r → l = r) ∧
    (∀ s xz yz l r, x.add y = .ok s → s.mul z = .ok l →
      x.mul z = .ok xz → y.mul z = .ok yz → xz.add yz = .ok r → l = r) ∧
    (x.mul (scalar 1) = .ok x ∧ (scalar 1).mul x = .ok x) ∧
    (u.mul .identity = .ok u ∧ Element.identity.mul u = .ok u) ∧
    (∀ i j, i ≠ j → ∃ m n, (generator i).mul (generator j) = .ok m ∧
      (generator j).mul (generator i) = .ok n ∧ m.scale (-1) = .ok n ∧ m ≠ .zero) ∧
    ∀ i, (generator i).mul (generator i) = .ok (scalar 1) := by
  refine ⟨?_, ?_, ?_, ?_, ⟨hx.mul_one_eq, hx.one_mul_eq⟩, ⟨hu.mul_identity, hu.identity_mul⟩, ?_,
    Multivector.generator_mul_self⟩
  · intro xy yz l r hxy hl hyz hr
    exact hx.mul_assoc_of_ok hy hz hxy hl hyz hr
  · intro uv vw l r huv hl hvw hr
    exact hu.mul_assoc_of_ok hv hw huv hl hvw hr
  · intro s xy xz l r hs hl hxy hxz hr
    exact hx.mul_add_of_ok hy hz hs hl hxy hxz hr
  · intro s xz yz l r hs hl hxz hyz hr
    exact hx.add_mul_of_ok hy hz hs hl hxz hyz hr
  · intro i j h
    exact Multivector.generator_anticomm h

/-- Factors with the largest coefficient, of which everything cancels: the intermediate result of
one order is zero, and that of the other is as large as it can be. -/
theorem product_laws_cancelling :
    let x : Multivector := ⟨[(0#7, 1), (1#7, 1)]⟩
    let y : Multivector := ⟨[(0#7, 0x7FFFFFFFFFFFFFFF), (1#7, -0x7FFFFFFFFFFFFFFF)]⟩
    let z := generator 1
    let yz : Multivector := ⟨[(2#7, 0x7FFFFFFFFFFFFFFF), (3#7, -0x7FFFFFFFFFFFFFFF)]⟩
    x.Canonical ∧ y.Canonical ∧ z.Canonical ∧
    (∃ l r : Element, Element.mul ⟨3, 2, x⟩ ⟨2, 2, y⟩ = .ok ⟨1, 1, .zero⟩ ∧
      Element.mul ⟨1, 1, .zero⟩ ⟨1, 1, z⟩ = .ok l ∧
      Element.mul ⟨2, 2, y⟩ ⟨1, 1, z⟩ = .ok ⟨3, 0, yz⟩ ∧
      Element.mul ⟨3, 2, x⟩ ⟨3, 0, yz⟩ = .ok r ∧ l = r) ∧
    x.mul (scalar 1) = .ok x := by
  intro x y z yz
  have hx : x.Canonical := by decide
  have hy : y.Canonical := by decide
  have hz : z.Canonical := by decide
  obtain ⟨-, hassoc, -, -, ⟨hone, -⟩, -⟩ := product_laws (u := ⟨3, 2, x⟩) (v := ⟨2, 2, y⟩)
    (w := ⟨1, 1, z⟩) hx hy hz hx hy hz
  have hxy : Element.mul ⟨3, 2, x⟩ ⟨2, 2, y⟩ = .ok ⟨1, 1, .zero⟩ := by decide
  have hl : Element.mul ⟨1, 1, .zero⟩ ⟨1, 1, z⟩ = .ok ⟨2, 2, .zero⟩ := by decide
  have hyz : Element.mul ⟨2, 2, y⟩ ⟨1, 1, z⟩ = .ok ⟨3, 0, yz⟩ := by decide
  have hr : Element.mul ⟨3, 2, x⟩ ⟨3, 0, yz⟩ = .ok ⟨2, 2, .zero⟩ := by decide
  exact ⟨hx, hy, hz, ⟨_, _, hxy, hl, hyz, hr, hassoc _ _ _ _ hxy hl hyz hr⟩, hone⟩

end NinetySix
