import NinetySix.Proofs.Powers

set_option autoImplicit false

/-! # The involutions and the product

Each of the three involutions changes the sign of the coefficients of some grades. Whether such a
change of signs respects the product is decided by the blades: the sign of a product of two blades
has to be the product of their signs, for a map that keeps the order of the factors
(`Clifford.signed_mul`), and it may differ from it by the swap of the two blades, for one that
reverses it (`Clifford.signed_mul_swap`).

The reversion of a blade moves each of its generators past the smaller ones, so its sign is that of
the product of the blade with itself (`Involution.sign_reversion`), and the law of the reversion
follows from the sign of a product of blades being multiplicative on either side.

The checked involutions overflow exactly if a coefficient that they change has no counterpart of the
opposite sign (`Multivector.Canonical.negateGrades_eq_error_iff`).
-/

namespace NinetySix

/-- The three involutions of the algebra. -/
inductive Involution where
  | grade
  | reversion
  | conjugation
  deriving DecidableEq, Repr

namespace Involution

/-- How often the sign of a grade is changed. -/
def exponent : Involution → Nat → Nat
  | .grade, k => k
  | .reversion, k => k * (k - 1) / 2
  | .conjugation, k => k * (k + 1) / 2

/-- The sign of a grade. -/
def sign (f : Involution) (k : Nat) : Int := (-1) ^ f.exponent k

/-- The grades whose sign changes. -/
def negates (f : Involution) (k : Nat) : Bool := f.exponent k % 2 = 1

/-- The involution of an element. -/
def apply : Involution → Element → Except AlgebraError Element
  | .grade => Element.involute
  | .reversion => Element.reverse
  | .conjugation => Element.conjugate

/-! ## Signs of blades -/

theorem sign_of_negates {f : Involution} {k : Nat} (h : f.negates k = true) : f.sign k = -1 := by
  have hodd : f.exponent k % 2 = 1 := by simpa [negates] using h
  exact Odd.neg_one_pow (Nat.odd_iff.mpr hodd)

theorem sign_of_not_negates {f : Involution} {k : Nat} (h : ¬ f.negates k = true) :
    f.sign k = 1 := by
  have heven : f.exponent k % 2 = 0 := by simpa [negates] using h
  exact Even.neg_one_pow (Nat.even_iff.mpr heven)

theorem sign_mul_self (f : Involution) (k : Nat) : f.sign k * f.sign k = 1 := by
  rw [sign, ← mul_pow]
  exact one_pow _

/-- The conjugation is the grade involution and the reversion together. -/
theorem sign_conjugation (k : Nat) :
    conjugation.sign k = reversion.sign k * Involution.grade.sign k := by
  have hexponent : k * (k + 1) / 2 = k * (k - 1) / 2 + k := by
    calc k * (k + 1) / 2 = (k + 1).choose 2 := by
          rw [Nat.choose_two_right, Nat.add_sub_cancel, Nat.mul_comm]
      _ = k.choose 1 + k.choose 2 := Nat.choose_succ_succ k 1
      _ = k * (k - 1) / 2 + k := by rw [Nat.choose_one_right, Nat.choose_two_right, Nat.add_comm]
  rw [sign, sign, sign, ← pow_add]
  exact congrArg _ hexponent

/-- **The sign of the grade involution is multiplicative.** -/
theorem sign_grade_product (a b : Blade) : Involution.grade.sign (a.product b).grade
    = Involution.grade.sign a.grade * Involution.grade.sign b.grade := by
  have hprod : ∀ c : Blade, Involution.grade.sign c.grade
      = ∏ i : Fin 7, Blade.swapSign (c.getLsb i) := by
    intro c
    rw [Fin.prod_univ_def, ← Blade.neg_one_pow_filter]
    rfl
  simp only [hprod, ← Finset.prod_mul_distrib, ← Blade.swapSign_xor, Blade.getLsb_product]

/-- In an ascending list every pair of entries is a swap of the list with itself. -/
theorem length_flatMap_filter_lt {l : List (Fin 7)} (h : l.Pairwise (· < ·)) :
    (l.flatMap fun i => l.filter (· < i)).length = l.length.choose 2 := by
  induction l with
  | nil => rfl
  | cons a l ih =>
      obtain ⟨hlt, hl⟩ := List.pairwise_cons.mp h
      have hfirst : (a :: l).filter (· < a) = [] := by
        rw [List.filter_eq_nil_iff]
        intro j hj
        rcases List.mem_cons.mp hj with rfl | hj
        · simp
        · simpa using (hlt j hj).le
      -- each later entry is swapped with the first one, and with what it was swapped before
      have hrest : ∀ i ∈ l, (a :: l).filter (· < i) = a :: l.filter (· < i) := by
        intro i hi
        exact List.filter_cons_of_pos (by simpa using hlt i hi)
      have hcount : (l.flatMap fun i => a :: l.filter (· < i)).length
          = l.length + (l.flatMap fun i => l.filter (· < i)).length := by
        simp [List.length_flatMap, List.sum_map_add, add_comm]
      rw [List.flatMap_cons, hfirst, List.nil_append, List.flatMap_congr hrest, hcount, ih hl,
        List.length_cons, Nat.choose_succ_succ, Nat.choose_one_right]

/-- **The sign of the reversion of a blade is that of its square.** -/
theorem sign_reversion (b : Blade) : reversion.sign b.grade = b.sign b := by
  have hascending : b.generators.Pairwise (· < ·) :=
    (List.pairwise_lt_finRange 7).filter _
  have hswaps : b.swaps b = b.grade * (b.grade - 1) / 2 := by
    rw [← Nat.choose_two_right]
    exact length_flatMap_filter_lt hascending
  rw [Blade.sign_eq_pow, hswaps]
  rfl

theorem sign_reversion_product (a b : Blade) :
    reversion.sign (a.product b).grade * a.sign b
      = reversion.sign a.grade * reversion.sign b.grade * b.sign a := by
  have hsquare : a.sign b * a.sign b = 1 := by
    rcases a.sign_eq_one_or b with h | h
    · rw [h, one_mul]
    · rw [h, neg_mul_neg, one_mul]
  simp only [sign_reversion, Blade.sign_product_left, Blade.sign_product_right]
  linear_combination (a.sign a * b.sign b * b.sign a) * hsquare

theorem sign_conjugation_product (a b : Blade) :
    conjugation.sign (a.product b).grade * a.sign b
      = conjugation.sign a.grade * conjugation.sign b.grade * b.sign a := by
  simp only [sign_conjugation, sign_grade_product]
  linear_combination
    (Involution.grade.sign a.grade * Involution.grade.sign b.grade) * sign_reversion_product a b

end Involution

/-! ## Changes of signs over all integers -/

namespace Clifford

/-- Multiplies each coefficient by the sign of its blade. -/
def signed (σ : Blade → Int) (x : Clifford) : Clifford := fun b => σ b * x b

theorem signed_apply (σ : Blade → Int) (x : Clifford) (b : Blade) : signed σ x b = σ b * x b := rfl

variable {σ : Blade → Int}

theorem signed_signed (hσ : ∀ b, σ b * σ b = 1) (x : Clifford) : signed σ (signed σ x) = x := by
  funext b
  rw [signed_apply, signed_apply, ← mul_assoc, hσ, one_mul]

/-- **Signs that are multiplicative keep products.** -/
theorem signed_mul (hσ : ∀ a b : Blade, σ (a.product b) = σ a * σ b) (x y : Clifford) :
    signed σ (x * y) = signed σ x * signed σ y := by
  funext c
  rw [signed_apply, mul_apply, mul_apply, Finset.mul_sum]
  refine Finset.sum_congr rfl fun a _ => ?_
  have hc : σ c = σ a * σ (a.product c) := by rw [← hσ, Blade.product_product]
  rw [signed_apply, signed_apply, hc]
  ring

/-- **Signs that are multiplicative up to the swap of the factors reverse products.** -/
theorem signed_mul_swap (hσ : ∀ a b : Blade, σ (a.product b) * a.sign b = σ a * σ b * b.sign a)
    (x y : Clifford) : signed σ (x * y) = signed σ y * signed σ x := by
  funext c
  rw [signed_apply, mul_apply, mul_apply, ← Equiv.sum_comp c.productPerm, Finset.mul_sum]
  refine Finset.sum_congr rfl fun a _ => ?_
  -- the factors stand at `b` and `a` on the left, and at `a` and `b` on the right
  obtain ⟨b, rfl⟩ : ∃ b, c = a.product b := ⟨a.product c, (Blade.product_product a c).symm⟩
  have hleft : (a.product b).productPerm a = b := by
    show (a.product b).product a = b
    rw [Blade.product_comm, Blade.product_product]
  have hright : b.product (a.product b) = a := by
    rw [Blade.product_comm a b, Blade.product_product]
  have hsigns := hσ b a
  rw [Blade.product_comm b a] at hsigns
  rw [hleft, hright, Blade.product_product, signed_apply, signed_apply]
  linear_combination (x b * y a) * hsigns

end Clifford

/-! ## Checked changes of signs -/

/-- A coefficient that is not the least one has a counterpart of the opposite sign. -/
theorem inRange_neg_iff {c : Int} (hc : InRange c) : InRange (-c) ↔ c ≠ -0x8000000000000000 := by
  unfold InRange at *
  omega

theorem mapM_congr {ε α β : Type} {f g : α → Except ε β} {l : List α} (h : ∀ a ∈ l, f a = g a) :
    l.mapM f = l.mapM g := by
  induction l with
  | nil => rfl
  | cons a l ih =>
      obtain ⟨ha, hl⟩ := List.forall_mem_cons.mp h
      rw [List.mapM_cons, List.mapM_cons, ha, ih hl]

namespace Multivector

variable {m r : Multivector} {f : Involution}

theorem Canonical.negateGrades_eq (hm : m.Canonical) (f : Involution) :
    m.negateGrades f.negates = m.mapCoeffs fun b c => checked (f.sign b.grade * c) := by
  have hterm : ∀ t ∈ m.terms, (if f.negates t.1.grade then checked (-t.2) else .ok t.2)
      = checked (f.sign t.1.grade * t.2) := by
    intro t ht
    by_cases hneg : f.negates t.1.grade = true
    · rw [if_pos hneg, Involution.sign_of_negates hneg, neg_one_mul]
    · rw [if_neg hneg, Involution.sign_of_not_negates hneg, one_mul,
        checked_of_inRange (hm.inRange t ht)]
  unfold negateGrades mapCoeffs
  rw [mapM_congr fun t ht => ?_]
  simp only [hterm t ht]

/-- **A checked involution is exact.** -/
theorem Canonical.negateGrades_computes (hm : m.Canonical) (f : Involution) :
    Computes (Clifford.signed (fun b => f.sign b.grade) m.exact) (m.negateGrades f.negates) := by
  rw [hm.negateGrades_eq f]
  exact hm.mapCoeffs_computes (g := fun b c => f.sign b.grade * c) fun b => mul_zero _

theorem Canonical.exists_negateGrades (hm : m.Canonical)
    (h : ∀ b, InRange (f.sign b.grade * m.coeff b)) : ∃ r, m.negateGrades f.negates = .ok r := by
  rw [hm.negateGrades_eq f]
  exact hm.exists_mapCoeffs (g := fun b c => f.sign b.grade * c) h

/-- **It fails exactly if a coefficient that it changes is the least one.** -/
theorem Canonical.negateGrades_eq_error_iff (hm : m.Canonical) (f : Involution) :
    m.negateGrades f.negates = .error .coefficientOverflow ↔
      ∃ b, f.sign b.grade = -1 ∧ m.coeff b = -0x8000000000000000 := by
  have hfits : ∀ b, ¬ InRange (f.sign b.grade * m.coeff b) ↔
      f.sign b.grade = -1 ∧ m.coeff b = -0x8000000000000000 := by
    intro b
    have hrange := hm.inRange_coeff b
    by_cases hneg : f.negates b.grade = true
    · rw [Involution.sign_of_negates hneg, neg_one_mul, inRange_neg_iff hrange]
      simp
    · rw [Involution.sign_of_not_negates hneg, one_mul]
      simp [hrange]
  rw [(hm.negateGrades_computes f).eq_overflow_iff hm.exists_negateGrades]
  exact exists_congr hfits

/-- **A second application leads back.** -/
theorem Canonical.negateGrades_negateGrades (hm : m.Canonical)
    (h : m.negateGrades f.negates = .ok r) : r.negateGrades f.negates = .ok m := by
  obtain ⟨hr, hexact⟩ := (hm.negateGrades_computes f).of_ok h
  have hback : Clifford.signed (fun b => f.sign b.grade) r.exact = m.exact := by
    rw [hexact, Clifford.signed_signed fun b => f.sign_mul_self b.grade]
  have hfits : ∀ b, InRange (f.sign b.grade * r.coeff b) := by
    intro b
    have hcoeff : f.sign b.grade * r.coeff b = m.coeff b := congrFun hback b
    rw [hcoeff]
    exact hm.inRange_coeff b
  obtain ⟨m', hm'⟩ := hr.exists_negateGrades hfits
  obtain ⟨canonical, heq⟩ := (hr.negateGrades_computes f).of_ok hm'
  rw [hm', canonical.eq_of_exact hm (heq.trans hback)]

end Multivector

/-! ## Involutions of elements -/

namespace Involution

variable {x y z xy fx fy l r : Element} {f : Involution}

theorem apply_eq (f : Involution) (x : Element) :
    f.apply x = do return { x with clifford := ← x.clifford.negateGrades f.negates } := by
  cases f with
  | grade => rfl
  | reversion => rfl
  | conjugation => rfl

theorem apply_eq_ok : f.apply x = .ok y ↔
    x.clifford.negateGrades f.negates = .ok y.clifford ∧ x.z4 = y.z4 ∧ x.z3 = y.z3 := by
  rw [apply_eq]
  exact Element.assembled_eq_ok

theorem apply_eq_error {e : AlgebraError} :
    f.apply x = .error e ↔ x.clifford.negateGrades f.negates = .error e := by
  rw [apply_eq]
  exact Element.assembled_eq_error

/-- The involution with unbounded coefficients. It leaves the residues as they are. -/
def onExact (f : Involution) (u : Element.Exact) : Element.Exact :=
  (u.1, u.2.1, Clifford.signed (fun b => f.sign b.grade) u.2.2)

/-- **An involution that succeeds is exact.** -/
theorem exact_of_apply (hx : x.Canonical) (h : f.apply x = .ok y) :
    y.Canonical ∧ y.exact = f.onExact x.exact := by
  obtain ⟨hclifford, h4, h3⟩ := apply_eq_ok.mp h
  obtain ⟨canonical, heq⟩ := (Multivector.Canonical.negateGrades_computes hx f).of_ok hclifford
  exact ⟨canonical, Prod.ext h4.symm (Prod.ext h3.symm heq)⟩

theorem onExact_mul
    (hsign : ∀ a b : Blade, f.sign (a.product b).grade = f.sign a.grade * f.sign b.grade)
    (u v : Element.Exact) : f.onExact (u * v) = f.onExact u * f.onExact v :=
  Prod.ext rfl (Prod.ext rfl (Clifford.signed_mul hsign _ _))

theorem onExact_mul_swap
    (hsign : ∀ a b : Blade, f.sign (a.product b).grade * a.sign b
      = f.sign a.grade * f.sign b.grade * b.sign a)
    (u v : Element.Exact) : f.onExact (u * v) = f.onExact v * f.onExact u :=
  -- the residues commute
  Prod.ext (mul_comm _ _) (Prod.ext (mul_comm _ _) (Clifford.signed_mul_swap hsign _ _))

theorem onExact_conjugation (u : Element.Exact) :
    conjugation.onExact u = reversion.onExact (Involution.grade.onExact u) := by
  refine Prod.ext rfl (Prod.ext rfl ?_)
  funext b
  show conjugation.sign b.grade * u.2.2 b
    = reversion.sign b.grade * (Involution.grade.sign b.grade * u.2.2 b)
  rw [sign_conjugation, mul_assoc]

/-- The involution of a product is the product of two elements that have its exact value
together. -/
theorem apply_mul_eq {p q : Element} (hx : x.Canonical) (hy : y.Canonical) (hp : p.Canonical)
    (hq : q.Canonical) (hxy : x.mul y = .ok xy) (hl : f.apply xy = .ok l) (hr : p.mul q = .ok r)
    (hlaw : f.onExact (x.exact * y.exact) = p.exact * q.exact) : l = r := by
  obtain ⟨hxy, exact_xy⟩ := (hx.mul_computes hy).of_ok hxy
  obtain ⟨hl, exact_l⟩ := exact_of_apply hxy hl
  obtain ⟨hr, exact_r⟩ := (hp.mul_computes hq).of_ok hr
  apply hl.eq_of_exact hr
  rw [exact_l, exact_xy, hlaw, exact_r]

/-- **An involution that keeps exact products keeps products.** -/
theorem mul_apply_of_ok (hx : x.Canonical) (hy : y.Canonical)
    (hlaw : ∀ u v, f.onExact (u * v) = f.onExact u * f.onExact v)
    (hxy : x.mul y = .ok xy) (hl : f.apply xy = .ok l) (hfx : f.apply x = .ok fx)
    (hfy : f.apply y = .ok fy) (hr : fx.mul fy = .ok r) : l = r := by
  obtain ⟨hfx, exact_fx⟩ := exact_of_apply hx hfx
  obtain ⟨hfy, exact_fy⟩ := exact_of_apply hy hfy
  apply apply_mul_eq hx hy hfx hfy hxy hl hr
  rw [hlaw, exact_fx, exact_fy]

/-- **An involution that reverses exact products reverses products.** -/
theorem mul_apply_swap_of_ok (hx : x.Canonical) (hy : y.Canonical)
    (hlaw : ∀ u v, f.onExact (u * v) = f.onExact v * f.onExact u)
    (hxy : x.mul y = .ok xy) (hl : f.apply xy = .ok l) (hfx : f.apply x = .ok fx)
    (hfy : f.apply y = .ok fy) (hr : fy.mul fx = .ok r) : l = r := by
  obtain ⟨hfx, exact_fx⟩ := exact_of_apply hx hfx
  obtain ⟨hfy, exact_fy⟩ := exact_of_apply hy hfy
  apply apply_mul_eq hx hy hfy hfx hxy hl hr
  rw [hlaw, exact_fx, exact_fy]

theorem conjugation_eq_of_ok (hx : x.Canonical) (hg : Involution.grade.apply x = .ok y)
    (hr : reversion.apply y = .ok r) (hc : conjugation.apply x = .ok z) : z = r := by
  obtain ⟨hy, exact_y⟩ := exact_of_apply hx hg
  obtain ⟨hr, exact_r⟩ := exact_of_apply hy hr
  obtain ⟨hz, exact_z⟩ := exact_of_apply hx hc
  apply hz.eq_of_exact hr
  rw [exact_z, exact_r, exact_y, onExact_conjugation]

theorem apply_apply (hx : x.Canonical) (h : f.apply x = .ok y) : f.apply y = .ok x := by
  obtain ⟨hclifford, h4, h3⟩ := apply_eq_ok.mp h
  exact apply_eq_ok.mpr
    ⟨Multivector.Canonical.negateGrades_negateGrades hx hclifford, h4.symm, h3.symm⟩

/-- There is no other error than an overflow. -/
theorem apply_eq_error_iff (hx : x.Canonical) (f : Involution) (e : AlgebraError) :
    f.apply x = .error e ↔ e = .coefficientOverflow ∧
      ∃ b, f.sign b.grade = -1 ∧ x.clifford.coeff b = -0x8000000000000000 := by
  have hiff := Multivector.Canonical.negateGrades_eq_error_iff hx f
  rw [apply_eq_error, ← hiff]
  constructor
  · intro h
    have he := (Multivector.Canonical.negateGrades_computes hx f).of_error h
    exact ⟨he, he ▸ h⟩
  · rintro ⟨rfl, h⟩
    exact h

end Involution

/-! ## The laws -/

/-- **The involutions respect the product.** The grade involution keeps the order of the factors,
and the reversion and the conjugation reverse it, wherever the operations involved succeed; the
conjugation is the reversion of the grade involution. Each of the three fails exactly if a
coefficient whose sign it changes is the least one, and each leads back when it is applied again. -/
theorem involutions_respect_product {x y : Element} (hx : x.Canonical) (hy : y.Canonical) :
    (∀ xy l gx gy r, x.mul y = .ok xy → xy.involute = .ok l →
      x.involute = .ok gx → y.involute = .ok gy → gx.mul gy = .ok r → l = r) ∧
    (∀ xy l rx ry r, x.mul y = .ok xy → xy.reverse = .ok l →
      x.reverse = .ok rx → y.reverse = .ok ry → ry.mul rx = .ok r → l = r) ∧
    (∀ xy l cx cy r, x.mul y = .ok xy → xy.conjugate = .ok l →
      x.conjugate = .ok cx → y.conjugate = .ok cy → cy.mul cx = .ok r → l = r) ∧
    (∀ gx r c, x.involute = .ok gx → gx.reverse = .ok r → x.conjugate = .ok c → c = r) ∧
    (∀ (f : Involution) e, f.apply x = .error e ↔ e = .coefficientOverflow ∧
      ∃ b, f.sign b.grade = -1 ∧ x.clifford.coeff b = -0x8000000000000000) ∧
    ∀ (f : Involution) z, f.apply x = .ok z → f.apply z = .ok x := by
  refine ⟨?_, ?_, ?_, ?_, Involution.apply_eq_error_iff hx, fun f z => Involution.apply_apply hx⟩
  · intro xy l gx gy r
    exact Involution.mul_apply_of_ok (f := .grade) hx hy
      (Involution.onExact_mul Involution.sign_grade_product)
  · intro xy l rx ry r
    exact Involution.mul_apply_swap_of_ok (f := .reversion) hx hy
      (Involution.onExact_mul_swap Involution.sign_reversion_product)
  · intro xy l cx cy r
    exact Involution.mul_apply_swap_of_ok (f := .conjugation) hx hy
      (Involution.onExact_mul_swap Involution.sign_conjugation_product)
  · intro gx r c
    exact Involution.conjugation_eq_of_ok hx

/-- Factors of mixed grades, whose reversions have to be multiplied in the reversed order; and a
least coefficient, which the grade involution cannot change and the reversion leaves alone. -/
theorem involutions_respect_product_mixedGrades :
    let x : Element := ⟨1, 2, ⟨[(1#7, 2), (3#7, -3)]⟩⟩
    let y : Element := ⟨3, 1, ⟨[(2#7, 1), (7#7, 5)]⟩⟩
    let least : Element := ⟨0, 0, .term 1#7 (-0x8000000000000000)⟩
    x.Canonical ∧ y.Canonical ∧ least.Canonical ∧
    (∃ xy l rx ry r, x.mul y = .ok xy ∧ xy.reverse = .ok l ∧ x.reverse = .ok rx ∧
      y.reverse = .ok ry ∧ ry.mul rx = .ok r ∧ l = r ∧ rx.mul ry ≠ .ok l) ∧
    least.involute = .error .coefficientOverflow ∧ least.reverse = .ok least ∧
    ∃ z, x.conjugate = .ok z ∧ z.conjugate = .ok x := by
  intro x y least
  have hx : x.Canonical := by
    show (⟨[(1#7, 2), (3#7, -3)]⟩ : Multivector).Canonical
    decide
  have hy : y.Canonical := by
    show (⟨[(2#7, 1), (7#7, 5)]⟩ : Multivector).Canonical
    decide
  have hleast : least.Canonical := by
    show (Multivector.term 1#7 (-0x8000000000000000)).Canonical
    decide
  have hxy : x.mul y = .ok ⟨0, 0, ⟨[(1#7, -3), (3#7, 2), (4#7, 15), (6#7, 10)]⟩⟩ := by decide
  have hl : Element.reverse ⟨0, 0, ⟨[(1#7, -3), (3#7, 2), (4#7, 15), (6#7, 10)]⟩⟩
      = .ok ⟨0, 0, ⟨[(1#7, -3), (3#7, -2), (4#7, 15), (6#7, -10)]⟩⟩ := by decide
  have hrx : x.reverse = .ok ⟨1, 2, ⟨[(1#7, 2), (3#7, 3)]⟩⟩ := by decide
  have hry : y.reverse = .ok ⟨3, 1, ⟨[(2#7, 1), (7#7, -5)]⟩⟩ := by decide
  have hr : Element.mul ⟨3, 1, ⟨[(2#7, 1), (7#7, -5)]⟩⟩ ⟨1, 2, ⟨[(1#7, 2), (3#7, 3)]⟩⟩
      = .ok ⟨0, 0, ⟨[(1#7, -3), (3#7, -2), (4#7, 15), (6#7, -10)]⟩⟩ := by decide
  have hc : x.conjugate = .ok ⟨1, 2, ⟨[(1#7, -2), (3#7, 3)]⟩⟩ := by decide
  obtain ⟨-, hreverse, -, -, -, hback⟩ := involutions_respect_product hx hy
  obtain ⟨-, -, -, -, herror, -⟩ := involutions_respect_product hleast hleast
  refine ⟨hx, hy, hleast, ⟨_, _, _, _, _, hxy, hl, hrx, hry, hr, ?_, by decide⟩, ?_, by decide,
    _, hc, hback .conjugation _ hc⟩
  · exact hreverse _ _ _ _ _ hxy hl hrx hry hr
  · exact (herror .grade _).mpr ⟨rfl, 1#7, by decide, by decide⟩

end NinetySix
