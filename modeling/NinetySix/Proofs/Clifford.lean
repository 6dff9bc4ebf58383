import NinetySix.Algebra.Element
import NinetySix.Proofs.Tables

set_option autoImplicit false

/-! # The algebra over unbounded integers

Seven anticommuting generators that square to one span an algebra with 128 basis blades. `Clifford`
is this algebra over all integers, with the blades and signs of the checked one, and here it is
shown to be a ring. The checked operations are compared with it: what they give, when they give
something, is what the ring gives.

Associativity is a matter of signs. Which pairs of generators are swapped when two blades are
multiplied can be said one pair at a time (`Blade.sign_eq_prod`), and a generator that stands in
both factors of a product drops out together with its swaps. So the sign is multiplicative in each
of its two blades (`Blade.sign_product_left`, `Blade.sign_product_right`), and the two ways to
multiply three blades have the same sign (`Blade.sign_cocycle`).

The cross product of the grade-one parts is given point by point on the Fano plane
(`Clifford.cross`), and it too is a sum over pairs of blades (`Clifford.cross_eq_sum`).
-/

namespace NinetySix

/-! ## Signs -/

namespace Blade

/-- The factor of a pair of generators in a sign: it is negative if they are swapped. -/
def swapSign (swapped : Bool) : Int := bif swapped then -1 else 1

theorem swapSign_xor (p q : Bool) : swapSign (p ^^ q) = swapSign p * swapSign q := by
  cases p <;> cases q <;> rfl

theorem neg_one_pow_filter {α : Type} (p : α → Bool) (l : List α) :
    (-1 : Int) ^ (l.filter p).length = (l.map fun a => swapSign (p a)).prod := by
  induction l with
  | nil => rfl
  | cons a rest ih =>
      rw [List.map_cons, List.prod_cons, ← ih]
      cases hp : p a with
      | true =>
          rw [List.filter_cons_of_pos hp, List.length_cons, pow_succ']
          rfl
      | false =>
          rw [List.filter_cons_of_neg (Bool.not_eq_true _ ▸ hp)]
          exact (one_mul _).symm

theorem neg_one_pow_flatMap {α β : Type} (p : α → Bool) (f : α → List β) (l : List α) :
    (-1 : Int) ^ ((l.filter p).flatMap f).length =
      (l.map fun a => bif p a then (-1) ^ (f a).length else 1).prod := by
  induction l with
  | nil => rfl
  | cons a rest ih =>
      rw [List.map_cons, List.prod_cons, ← ih]
      cases hp : p a with
      | true =>
          rw [List.filter_cons_of_pos hp, List.flatMap_cons, List.length_append, pow_add]
          rfl
      | false =>
          rw [List.filter_cons_of_neg (Bool.not_eq_true _ ▸ hp)]
          exact (one_mul _).symm

theorem sign_eq_pow (a b : Blade) : sign a b = (-1) ^ swaps a b := by
  unfold sign
  split
  · next h => exact (Even.neg_one_pow (Nat.even_iff.mpr h)).symm
  · next h => exact (Odd.neg_one_pow (Nat.odd_iff.mpr (by omega))).symm

/-- The sign counts the swaps one pair of generators at a time. -/
theorem sign_eq_prod (a b : Blade) :
    sign a b =
      ∏ i : Fin 7, ∏ j : Fin 7, swapSign (a.getLsb i && (decide (j < i) && b.getLsb j)) := by
  rw [sign_eq_pow]
  show (-1 : Int) ^ (((List.finRange 7).filter fun i => a.getLsb i).flatMap
    fun i => b.generators.filter (· < i)).length = _
  rw [neg_one_pow_flatMap, Fin.prod_univ_def]
  congr 2
  funext i
  cases a.getLsb i with
  | false => exact (Finset.prod_const_one).symm
  | true =>
      show (-1 : Int) ^ (b.generators.filter (· < i)).length = _
      rw [generators, List.filter_filter, neg_one_pow_filter, Fin.prod_univ_def]
      rfl

theorem getLsb_product (a b : Blade) (i : Fin 7) :
    (a.product b).getLsb i = (a.getLsb i ^^ b.getLsb i) := BitVec.getLsbD_xor

/-- **The sign is multiplicative on the left.** -/
theorem sign_product_left (a b c : Blade) : sign (a.product b) c = sign a c * sign b c := by
  simp only [sign_eq_prod, ← Finset.prod_mul_distrib, ← swapSign_xor, getLsb_product,
    Bool.and_xor_distrib_right]

theorem sign_product_right (a b c : Blade) : sign a (b.product c) = sign a b * sign a c := by
  simp only [sign_eq_prod, ← Finset.prod_mul_distrib, ← swapSign_xor, getLsb_product,
    Bool.and_xor_distrib_left]

/-! ## Products of blades -/

theorem product_self (a : Blade) : a.product a = scalar := BitVec.xor_self

theorem product_assoc (a b c : Blade) : (a.product b).product c = a.product (b.product c) :=
  BitVec.xor_assoc a b c

theorem product_comm (a b : Blade) : a.product b = b.product a := BitVec.xor_comm a b

theorem scalar_product (b : Blade) : scalar.product b = b := BitVec.zero_xor

theorem product_scalar (b : Blade) : b.product scalar = b := BitVec.xor_zero

/-- Multiplying by a blade twice leads back. -/
theorem product_product (a b : Blade) : a.product (a.product b) = b := by
  rw [← product_assoc, product_self, scalar_product]

theorem product_eq_iff {a b c : Blade} : a.product b = c ↔ b = a.product c := by
  constructor
  · rintro rfl
    exact (product_product a b).symm
  · rintro rfl
    exact product_product a c

/-- Multiplication by a blade permutes the blades. -/
def productPerm (a : Blade) : Equiv.Perm Blade :=
  Function.Involutive.toPerm a.product (product_product a)

theorem sign_eq_one_or (a b : Blade) : sign a b = 1 ∨ sign a b = -1 := by
  unfold sign
  split
  · exact .inl rfl
  · exact .inr rfl

theorem sign_ne_zero (a b : Blade) : sign a b ≠ 0 := by
  rcases sign_eq_one_or a b with h | h
  · rw [h]
    decide
  · rw [h]
    decide

theorem sign_scalar_left (b : Blade) : sign scalar b = 1 := by
  have hsquare := sign_product_left scalar scalar b
  rw [product_self] at hsquare
  rcases sign_eq_one_or scalar b with h | h
  · exact h
  · rw [h] at hsquare
    exact absurd hsquare (by decide)

theorem sign_scalar_right (a : Blade) : sign a scalar = 1 := by
  have hsquare := sign_product_right a scalar scalar
  rw [product_self] at hsquare
  rcases sign_eq_one_or a scalar with h | h
  · exact h
  · rw [h] at hsquare
    exact absurd hsquare (by decide)

theorem sign_generator_self : ∀ i, sign (generator i) (generator i) = 1 := by
  decide

theorem sign_generator_swap : ∀ {i j}, i ≠ j →
    sign (generator j) (generator i) = -sign (generator i) (generator j) := by
  decide

/-- **The signs of the two ways to multiply three blades agree.** -/
theorem sign_cocycle (a b c : Blade) :
    sign a b * sign (a.product b) c = sign a (b.product c) * sign b c := by
  rw [sign_product_left, sign_product_right, mul_assoc]

end Blade

/-! ## The ring -/

/-- Multivectors with unbounded coefficients: an integer for every blade. -/
def Clifford := Blade → Int

namespace Clifford

instance : AddCommGroup Clifford := inferInstanceAs (AddCommGroup (Blade → Int))

theorem add_apply (x y : Clifford) (b : Blade) : (x + y) b = x b + y b := rfl

theorem zero_apply (b : Blade) : (0 : Clifford) b = 0 := rfl

theorem sum_apply {ι : Type} (s : Finset ι) (f : ι → Clifford) (b : Blade) :
    (∑ i ∈ s, f i) b = ∑ i ∈ s, f i b := Finset.sum_apply b s f

/-- One coefficient, and zero for all other blades. -/
def single (b : Blade) (c : Int) : Clifford := fun b' => if b' = b then c else 0

theorem single_apply (b b' : Blade) (c : Int) : single b c b' = if b' = b then c else 0 := rfl

theorem single_zero (b : Blade) : single b 0 = 0 := by
  funext b'
  exact ite_self 0

/-- A coefficient of a product is the sum of the signed products over the pairs of blades that
contribute to it. -/
protected def mul (x y : Clifford) : Clifford := fun b =>
  ∑ p : Blade × Blade with p.1.product p.2 = b, p.1.sign p.2 * (x p.1 * y p.2)

instance : Mul Clifford := ⟨Clifford.mul⟩

instance : One Clifford where
  one := single Blade.scalar 1

theorem mul_def (x y : Clifford) : x * y = Clifford.mul x y := rfl

theorem mul_apply_pairs (x y : Clifford) (b : Blade) : (x * y) b =
    ∑ p : Blade × Blade with p.1.product p.2 = b, p.1.sign p.2 * (x p.1 * y p.2) := by
  rw [mul_def, Clifford.mul]

-- Comparing products by unfolding them would run through all pairs of blades.
attribute [irreducible] Clifford.mul

theorem mul_apply (x y : Clifford) (b : Blade) :
    (x * y) b = ∑ a : Blade, a.sign (a.product b) * (x a * y (a.product b)) := by
  rw [mul_apply_pairs, Finset.sum_filter, Fintype.sum_prod_type]
  refine Finset.sum_congr rfl fun a _ => ?_
  simp only [Blade.product_eq_iff, Finset.sum_ite_eq', Finset.mem_univ, if_true]

protected theorem mul_assoc (x y z : Clifford) : x * y * z = x * (y * z) := by
  funext d
  simp only [mul_apply, Finset.mul_sum, Finset.sum_mul]
  rw [Finset.sum_comm]
  refine Finset.sum_congr rfl fun a _ => ?_
  rw [← Equiv.sum_comp a.productPerm]
  refine Finset.sum_congr rfl fun b _ => ?_
  -- the three factors stand at `a`, `b` and `c`, the blade of the whole product being theirs
  obtain ⟨c, rfl⟩ : ∃ c, d = a.product (b.product c) :=
    ⟨b.product (a.product d), by rw [Blade.product_product, Blade.product_product]⟩
  have hab : a.productPerm b = a.product b := rfl
  have hc : (a.product b).product (a.product (b.product c)) = c := by
    rw [← Blade.product_assoc a b c, Blade.product_product]
  rw [hab, hc, Blade.product_product, Blade.product_product, Blade.product_product]
  linear_combination (x a * y b * z c) * Blade.sign_cocycle a b c

theorem one_apply (b : Blade) : (1 : Clifford) b = if b = Blade.scalar then 1 else 0 := rfl

protected theorem one_mul (x : Clifford) : 1 * x = x := by
  funext b
  rw [mul_apply, Finset.sum_eq_single Blade.scalar]
  · rw [one_apply, if_pos rfl, Blade.scalar_product, Blade.sign_scalar_left, one_mul, one_mul]
  · intro a _ ha
    rw [one_apply, if_neg ha, zero_mul, mul_zero]
  · intro h
    exact absurd (Finset.mem_univ _) h

protected theorem mul_one (x : Clifford) : x * 1 = x := by
  funext b
  rw [mul_apply, Finset.sum_eq_single b]
  · rw [one_apply, Blade.product_self, if_pos rfl, Blade.sign_scalar_right, one_mul, mul_one]
  · intro a _ ha
    have hne : a.product b ≠ Blade.scalar := by
      rw [Ne, Blade.product_eq_iff, Blade.product_scalar]
      exact fun h => ha h.symm
    rw [one_apply, if_neg hne, mul_zero, mul_zero]
  · intro h
    exact absurd (Finset.mem_univ _) h

protected theorem mul_add (x y z : Clifford) : x * (y + z) = x * y + x * z := by
  funext b
  simp only [add_apply, mul_apply, ← Finset.sum_add_distrib, mul_add]

protected theorem add_mul (x y z : Clifford) : (x + y) * z = x * z + y * z := by
  funext b
  simp only [add_apply, mul_apply, ← Finset.sum_add_distrib, add_mul, mul_add]

instance : Monoid Clifford where
  mul_assoc := Clifford.mul_assoc
  one_mul := Clifford.one_mul
  mul_one := Clifford.mul_one

instance : Ring Clifford where
  __ := (inferInstance : AddCommGroup Clifford)
  __ := (inferInstance : Monoid Clifford)
  left_distrib := Clifford.mul_add
  right_distrib := Clifford.add_mul
  zero_mul x := by
    funext b
    simp [mul_apply, zero_apply]
  mul_zero x := by
    funext b
    simp [mul_apply, zero_apply]

end Clifford

/-! ## The cross product -/

namespace Fano

/-- The coefficient of the point `k` in the cross product of the points `i` and `j`. -/
def coefficient (i j k : Fin 7) : Int := (cross i j).elim 0 fun p => if k = p.1 then p.2 else 0

theorem abs_cross : ∀ i j, ∀ p ∈ cross i j, |p.2| = 1 := by
  decide +kernel

/-- Any two different points lie on a line, so they have a product. -/
theorem cross_eq_none_iff : ∀ i j, cross i j = none ↔ i = j := by
  decide +kernel

/-- **No two points are refused.** -/
theorem crossPoints_eq (i j : Fin 7) : crossPoints i j = .ok (cross i j) := by
  unfold crossPoints
  by_cases hij : i = j
  · rw [if_pos hij, (cross_eq_none_iff i j).mpr hij]
  · rw [if_neg hij]
    cases hcross : cross i j with
    | none => exact absurd ((cross_eq_none_iff i j).mp hcross) hij
    | some p => rfl

end Fano

namespace Blade

theorem generator?_eq_some_iff : ∀ {b : Blade} {i : Fin 7},
    b.generator? = some i ↔ b = generator i := by
  decide +kernel

theorem generator?_generator (i : Fin 7) : (generator i).generator? = some i :=
  generator?_eq_some_iff.mpr rfl

theorem generator_injective : Function.Injective generator := by
  intro i j h
  have hsome := generator?_generator i
  rw [h, generator?_generator] at hsome
  exact (Option.some.inj hsome).symm

theorem ne_generator {b : Blade} (h : b.generator? = none) (i : Fin 7) : b ≠ generator i := by
  rintro rfl
  rw [generator?_generator] at h
  cases h

/-- A sum to which only generators contribute. -/
theorem sum_generators {M : Type} [AddCommMonoid M] {f : Blade → M}
    (hf : ∀ b : Blade, b.generator? = none → f b = 0) : ∑ b, f b = ∑ i, f (generator i) := by
  refine (Fintype.sum_of_injective generator generator_injective _ _ ?_ fun _ => rfl).symm
  intro b hb
  apply hf
  cases h : b.generator? with
  | none => rfl
  | some i => exact absurd ⟨i, (generator?_eq_some_iff.mp h).symm⟩ hb

/-- The cross product of two blades with its sign, if both are generators and different. -/
def cross (a b : Blade) : Option (Blade × Int) := do
  let i ← a.generator?
  let j ← b.generator?
  (Fano.cross i j).map fun p => (generator p.1, p.2)

theorem cross_generator (i j : Fin 7) :
    (generator i).cross (generator j) = (Fano.cross i j).map fun p => (generator p.1, p.2) := by
  unfold cross
  rw [generator?_generator, generator?_generator]
  rfl

theorem cross_of_left {a : Blade} (h : a.generator? = none) (b : Blade) : a.cross b = none := by
  unfold cross
  rw [h]
  rfl

theorem cross_of_right (a : Blade) {b : Blade} (h : b.generator? = none) : a.cross b = none := by
  unfold cross
  rw [h]
  cases a.generator? with
  | none => rfl
  | some i => rfl

theorem abs_cross (a b : Blade) : ∀ p ∈ a.cross b, |p.2| = 1 := by
  intro p hp
  obtain ⟨i, -, hp⟩ := Option.bind_eq_some_iff.mp hp
  obtain ⟨j, -, hp⟩ := Option.bind_eq_some_iff.mp hp
  obtain ⟨q, hq, rfl⟩ := Option.map_eq_some_iff.mp hp
  exact Fano.abs_cross i j q hq

end Blade

namespace Clifford

/-- The cross product of the grade-one parts, point by point. -/
def cross (x y : Clifford) : Clifford := fun b => b.generator?.elim 0 fun k =>
  ∑ i, ∑ j, Fano.coefficient i j k * (x (Blade.generator i) * y (Blade.generator j))

theorem cross_generator (x y : Clifford) (k : Fin 7) : cross x y (Blade.generator k) =
    ∑ i, ∑ j, Fano.coefficient i j k * (x (Blade.generator i) * y (Blade.generator j)) := by
  unfold cross
  rw [Blade.generator?_generator]
  rfl

theorem cross_of_generator?_eq_none (x y : Clifford) {b : Blade} (h : b.generator? = none) :
    cross x y b = 0 := by
  unfold cross
  rw [h]
  rfl

theorem single_cross_generator (i j : Fin 7) (c : Int) (b : Blade) :
    (((Blade.generator i).cross (Blade.generator j)).elim 0 fun p => single p.1 (c * p.2)) b =
      b.generator?.elim 0 fun k => Fano.coefficient i j k * c := by
  unfold Fano.coefficient
  rw [Blade.cross_generator, Option.elim_map]
  cases Fano.cross i j with
  | none =>
      cases b.generator? with
      | none => rfl
      | some k => exact (zero_mul c).symm
  | some p =>
      show single (Blade.generator p.1) (c * p.2) b = _
      rw [single_apply]
      cases hb : b.generator? with
      | none => exact if_neg (Blade.ne_generator hb p.1)
      | some k =>
          rw [Blade.generator?_eq_some_iff.mp hb]
          simp only [Blade.generator_injective.eq_iff, Option.elim_some, ite_mul, zero_mul,
            mul_comm c]

/-- The cross product is the sum of the signed products over the pairs of blades that have one. -/
theorem cross_eq_sum (x y : Clifford) : cross x y =
    ∑ a, ∑ b, (Blade.cross a b).elim 0 fun p => single p.1 (x a * y b * p.2) := by
  have hright : ∀ a : Blade, (∑ b, (Blade.cross a b).elim 0 fun p => single p.1 (x a * y b * p.2)) =
      ∑ j, ((Blade.cross a (Blade.generator j)).elim 0 fun p =>
        single p.1 (x a * y (Blade.generator j) * p.2)) := by
    intro a
    refine Blade.sum_generators fun b hb => ?_
    rw [Blade.cross_of_right a hb]
    rfl
  have hleft := Blade.sum_generators (f := fun a => ∑ j, ((Blade.cross a (Blade.generator j)).elim 0
      fun p => single p.1 (x a * y (Blade.generator j) * p.2))) fun a ha => by
    simp only [Blade.cross_of_left ha, Option.elim_none, Finset.sum_const_zero]
  simp only [hright]
  rw [hleft]
  funext b
  simp only [sum_apply, single_cross_generator]
  cases hb : b.generator? with
  | none => simp only [cross_of_generator?_eq_none x y hb, Option.elim_none, Finset.sum_const_zero]
  | some k =>
      rw [Blade.generator?_eq_some_iff.mp hb]
      exact cross_generator x y k

end Clifford

end NinetySix
