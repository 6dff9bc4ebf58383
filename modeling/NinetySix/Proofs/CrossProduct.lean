import NinetySix.Proofs.Laws

set_option autoImplicit false

/-! # The cross product in seven dimensions

The seven points of the Fano plane index the coordinates of a vector, and the grade-one part of an
element is such a vector (`Element.vector`). Each point lies on three lines, so a coordinate of a
cross product is the sum of three minors, one for each line (`Fano.crossVector_eq_minors`). From this
form come the laws of a vector product: it changes its sign with the order of the factors, it is
orthogonal to both, and its square is the one that the angle between them demands
(`Fano.sum_sq_crossVector`). The last law is where the orientations of the lines have to fit
together: turn one line around and it fails, while the others still hold.

The checked product looks at the grade-one parts only. The terms of other grades are skipped when the
contributions are gathered (`Multivector.pairing_gradePart`), so they have no influence on an
overflow either. Nor does it ever refuse a pair of points (`Fano.crossPoints_eq`).
-/

namespace NinetySix

/-! ## Vectors over the points -/

namespace Fano

/-- The indices of two points are never refused. -/
theorem crossIndices_point : ∀ i j : Fin 7, crossIndices (i.val + 1) (j.val + 1) =
    .ok ((cross i j).elim (0, 0) fun p => (p.1.val + 1, p.2)) := by
  decide +kernel

/-- The cross product of two vectors. -/
def crossVector (x y : Fin 7 → Int) (k : Fin 7) : Int :=
  ∑ i, ∑ j, coefficient i j k * (x i * y j)

/-- The indicator of a pair of points. -/
def pair (p q i j : Fin 7) : Int := if i = p ∧ j = q then 1 else 0

theorem sum_pair (p q : Fin 7) (f : Fin 7 → Fin 7 → Int) :
    ∑ i, ∑ j, pair p q i j * f i j = f p q := by
  simp [pair, ite_and]

/-- The three lines through a point, each with the other two points in their cyclic order. -/
theorem coefficient_eq_pairs : ∀ i j k, coefficient i j k =
    (pair (k + 1) (k + 3) i j - pair (k + 3) (k + 1) i j) +
    (pair (k + 2) (k + 6) i j - pair (k + 6) (k + 2) i j) +
    (pair (k + 4) (k + 5) i j - pair (k + 5) (k + 4) i j) := by
  decide +kernel

/-- The minor of two vectors at two points. -/
def minor (x y : Fin 7 → Int) (p q : Fin 7) : Int := x p * y q - x q * y p

/-- **A coordinate of a cross product is the sum of three minors.** -/
theorem crossVector_eq_minors (x y : Fin 7 → Int) (k : Fin 7) :
    crossVector x y k =
      minor x y (k + 1) (k + 3) + minor x y (k + 2) (k + 6) + minor x y (k + 4) (k + 5) := by
  simp only [crossVector, coefficient_eq_pairs, add_mul, sub_mul, Finset.sum_add_distrib,
    Finset.sum_sub_distrib, sum_pair, minor]

variable (x y : Fin 7 → Int)

theorem crossVector_swap (k : Fin 7) : crossVector y x k = -crossVector x y k := by
  simp only [crossVector_eq_minors, minor]
  ring

theorem sum_crossVector_mul_left : ∑ k, crossVector x y k * x k = 0 := by
  simp only [crossVector_eq_minors, minor, Fin.sum_univ_seven, Fin.reduceAdd]
  ring

theorem sum_crossVector_mul_right : ∑ k, crossVector x y k * y k = 0 := by
  have hleft := sum_crossVector_mul_left y x
  simp only [crossVector_swap x y, neg_mul, Finset.sum_neg_distrib, neg_eq_zero] at hleft
  exact hleft

/-- **The square of a cross product** is the product of the squares less the square of the product. -/
theorem sum_sq_crossVector :
    ∑ k, crossVector x y k ^ 2 = (∑ k, x k ^ 2) * (∑ k, y k ^ 2) - (∑ k, x k * y k) ^ 2 := by
  simp only [crossVector_eq_minors, minor, Fin.sum_univ_seven, Fin.reduceAdd]
  ring

end Fano

/-! ## The grade-one part -/

namespace Blade

theorem grade_eq_one_iff : ∀ {b : Blade}, b.grade = 1 ↔ ∃ i, b = generator i := by
  decide +kernel

theorem generator?_of_grade_ne_one {b : Blade} (h : b.grade ≠ 1) : b.generator? = none := by
  cases hb : b.generator? with
  | none => rfl
  | some i => exact absurd (grade_eq_one_iff.mpr ⟨i, generator?_eq_some_iff.mp hb⟩) h

end Blade

namespace Multivector

variable {m m' x y r : Multivector}

/-- What contributes nothing may be left out. -/
theorem flatMap_filter {α β : Type} (p : α → Bool) {f : α → List β}
    (h : ∀ a, p a = false → f a = []) (l : List α) : (l.filter p).flatMap f = l.flatMap f := by
  induction l with
  | nil => rfl
  | cons a l ih =>
      cases hp : p a with
      | true => rw [List.filter_cons_of_pos hp, List.flatMap_cons, List.flatMap_cons, ih]
      | false =>
          rw [List.filter_cons_of_neg (Bool.not_eq_true _ ▸ hp), List.flatMap_cons, h a hp, ih,
            List.nil_append]

/-- **Terms of other grades are skipped**, in both factors. -/
theorem pairing_gradePart (x y : Multivector) :
    pairing Blade.cross (x.gradePart 1) (y.gradePart 1) = pairing Blade.cross x y := by
  have hleft : ∀ a b : Blade, a.grade ≠ 1 → a.cross b = none := fun a b hgrade =>
    Blade.cross_of_left (Blade.generator?_of_grade_ne_one hgrade) b
  have hright : ∀ a b : Blade, b.grade ≠ 1 → a.cross b = none := fun a b hgrade =>
    Blade.cross_of_right a (Blade.generator?_of_grade_ne_one hgrade)
  have hrow : ∀ s : Blade × Int, ((y.gradePart 1).terms.filterMap fun t =>
      (s.1.cross t.1).map fun p => (⟨p.1, p.2, s.2, t.2⟩ : Contribution))
        = y.terms.filterMap fun t => (s.1.cross t.1).map fun p => ⟨p.1, p.2, s.2, t.2⟩ := by
    intro s
    rw [gradePart, List.filterMap_filter]
    refine List.filterMap_congr fun t _ => ?_
    split
    · rfl
    · next hgrade =>
      rw [hright s.1 t.1 (by simpa using hgrade)]
      rfl
  unfold pairing
  simp only [hrow]
  refine flatMap_filter _ (fun s hgrade => ?_) x.terms
  refine List.filterMap_eq_nil_iff.mpr fun t _ => ?_
  rw [hleft s.1 t.1 (by simpa using hgrade)]
  rfl

/-- Canonical multivectors with the same coefficients at the generators have the same grade-one
part. -/
theorem Canonical.gradePart_one_congr (hm : m.Canonical) (hm' : m'.Canonical)
    (h : ∀ i, m.coeff (.generator i) = m'.coeff (.generator i)) : m.gradePart 1 = m'.gradePart 1 := by
  refine eq_of_mem_iff (hm.gradePart 1).ascending (hm'.gradePart 1).ascending fun t => ?_
  simp only [Multivector.gradePart, List.mem_filter, beq_iff_eq, Blade.grade_eq_one_iff]
  refine and_congr_left ?_
  rintro ⟨i, hi⟩
  rw [hm.mem_iff (b := t.1), hm'.mem_iff (b := t.1), hi, h i]

/-- **The cross product depends on the coefficients at the generators only**, whether it succeeds or
not. -/
theorem Canonical.cross_congr {x' y' : Multivector} (hx : x.Canonical) (hy : y.Canonical)
    (hx' : x'.Canonical) (hy' : y'.Canonical)
    (hleft : ∀ i, x'.coeff (.generator i) = x.coeff (.generator i))
    (hright : ∀ i, y'.coeff (.generator i) = y.coeff (.generator i)) : x'.cross y' = x.cross y := by
  rw [cross_eq_gather, cross_eq_gather, ← pairing_gradePart x y, ← pairing_gradePart x' y',
    hx'.gradePart_one_congr hx hleft, hy'.gradePart_one_congr hy hright]

theorem Canonical.grade_of_cross (hx : x.Canonical) (hy : y.Canonical) (h : x.cross y = .ok r) :
    ∀ t ∈ r.terms, t.1.grade = 1 := by
  obtain ⟨canonical, heq⟩ := (hx.cross_computes hy).of_ok h
  intro t ht
  by_contra hgrade
  obtain ⟨hcoeff, hne⟩ := canonical.mem_iff.mp ht
  rw [← exact_apply, heq, Clifford.cross_of_generator?_eq_none _ _
    (Blade.generator?_of_grade_ne_one hgrade)] at hcoeff
  exact hne hcoeff.symm

end Multivector

/-! ## Elements -/

namespace Element

variable {x y u : Element}

/-- The coefficients at the generators. -/
def vector (x : Element) : Fin 7 → Int := fun i => x.clifford.coeff (.generator i)

theorem cross_eq_ok : x.cross y = .ok u ↔
    x.clifford.cross y.clifford = .ok u.clifford ∧ x.z4 + y.z4 = u.z4 ∧ x.z3 + y.z3 = u.z3 :=
  assembled_eq_ok

/-- **The vector of a cross product is the cross product of the vectors.** -/
theorem Canonical.vector_cross (hx : x.Canonical) (hy : y.Canonical) (h : x.cross y = .ok u) :
    u.vector = Fano.crossVector x.vector y.vector := by
  obtain ⟨-, heq⟩ := (Multivector.Canonical.cross_computes hx hy).of_ok (cross_eq_ok.mp h).1
  funext k
  exact (congrFun heq (.generator k)).trans (Clifford.cross_generator _ _ k)

theorem Canonical.error_of_cross (hx : x.Canonical) (hy : y.Canonical) {e : AlgebraError}
    (h : x.cross y = .error e) : e = .coefficientOverflow :=
  (Multivector.Canonical.cross_computes hx hy).of_error (assembled_eq_error.mp h)

end Element

/-- **The cross product is a vector product in seven dimensions.** It has only terms of grade one, and
apart from the residues, which are added, it depends on the coefficients at the generators only. It
is orthogonal to both factors, its square is the product of their squares less the square of their
scalar product, and it changes its sign with the order of the factors. It never fails for want of a
generator: no indices of two points are refused, and only a point and itself have no product. -/
theorem cross_product_laws {x y : Element} (hx : x.Canonical) (hy : y.Canonical) :
    (∀ u, x.cross y = .ok u →
      (∀ t ∈ u.clifford.terms, t.1.grade = 1) ∧
      (u.z4 = x.z4 + y.z4 ∧ u.z3 = x.z3 + y.z3) ∧
      (∀ x' y' : Element, x'.Canonical → y'.Canonical → x'.vector = x.vector →
        y'.vector = y.vector → x'.cross y' = .ok ⟨x'.z4 + y'.z4, x'.z3 + y'.z3, u.clifford⟩) ∧
      ∑ i, u.vector i * x.vector i = 0 ∧
      ∑ i, u.vector i * y.vector i = 0 ∧
      ∑ i, u.vector i ^ 2 = (∑ i, x.vector i ^ 2) * (∑ i, y.vector i ^ 2)
        - (∑ i, x.vector i * y.vector i) ^ 2 ∧
      ∀ v, y.cross x = .ok v → ∀ i, v.vector i = -u.vector i) ∧
    (∀ n, x.cross y ≠ .error (.invalidGenerator n)) ∧
    ∀ i j : Fin 7, (∃ r, Fano.crossIndices (i.val + 1) (j.val + 1) = .ok r) ∧
      (Fano.cross i j = none ↔ i = j) := by
  refine ⟨?_, ?_, fun i j => ⟨⟨_, Fano.crossIndices_point i j⟩, Fano.cross_eq_none_iff i j⟩⟩
  · intro u hu
    obtain ⟨hclifford, h4, h3⟩ := Element.cross_eq_ok.mp hu
    have hvector := hx.vector_cross hy hu
    refine ⟨Multivector.Canonical.grade_of_cross hx hy hclifford, ⟨h4.symm, h3.symm⟩, ?_, ?_, ?_,
      ?_, ?_⟩
    · intro x' y' hx' hy' hleft hright
      refine Element.cross_eq_ok.mpr ⟨?_, rfl, rfl⟩
      exact (Multivector.Canonical.cross_congr hx hy hx' hy' (congrFun hleft)
        (congrFun hright)).trans hclifford
    · rw [hvector]
      exact Fano.sum_crossVector_mul_left _ _
    · rw [hvector]
      exact Fano.sum_crossVector_mul_right _ _
    · rw [hvector]
      exact Fano.sum_sq_crossVector _ _
    · intro v hv i
      rw [hy.vector_cross hx hv, hvector, Fano.crossVector_swap]
  · intro n hn
    cases hx.error_of_cross hy hn

/-- A factor with terms of grade zero and two, which may be dropped. The contributions at the third
generator cancel, and the square of the product is that of the two vectors. -/
theorem cross_product_laws_mixedGrades :
    let x : Element := ⟨1, 2, ⟨[(0#7, 7), (1#7, 2), (2#7, -1), (3#7, 5), (64#7, 3)]⟩⟩
    let x' : Element := ⟨0, 0, ⟨[(1#7, 2), (2#7, -1), (64#7, 3)]⟩⟩
    let y : Element := ⟨3, 1, ⟨[(1#7, 2), (2#7, 4), (64#7, 3)]⟩⟩
    x.Canonical ∧ x'.Canonical ∧ y.Canonical ∧ x'.vector = x.vector ∧
    ∃ u v, x.cross y = .ok u ∧ y.cross x = .ok v ∧ x'.cross y = .ok ⟨3, 1, u.clifford⟩ ∧
      u.vector 2 = 0 ∧ ∑ i, u.vector i * x.vector i = 0 ∧ ∑ i, u.vector i * y.vector i = 0 ∧
      ∑ i, u.vector i ^ 2 = 14 * 29 - 9 ^ 2 ∧ ∀ i, v.vector i = -u.vector i := by
  intro x x' y
  have hx : x.Canonical := by decide
  have hx' : x'.Canonical := by decide
  have hy : y.Canonical := by decide
  have hvector : x'.vector = x.vector := by
    funext i
    revert i
    decide
  have hu : x.cross y = .ok ⟨0, 0, ⟨[(8#7, 10), (32#7, 15)]⟩⟩ := by decide +kernel
  have hv : y.cross x = .ok ⟨0, 0, ⟨[(8#7, -10), (32#7, -15)]⟩⟩ := by decide +kernel
  obtain ⟨hlaws, -⟩ := cross_product_laws hx hy
  obtain ⟨-, -, hpart, hleft, hright, hsquare, hswap⟩ := hlaws _ hu
  refine ⟨hx, hx', hy, hvector, _, _, hu, hv, hpart x' y hx' hy hvector rfl, by decide, hleft, hright,
    ?_, hswap _ hv⟩
  rw [hsquare]
  decide +kernel

end NinetySix
