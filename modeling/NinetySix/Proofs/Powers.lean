import NinetySix.Proofs.Laws

set_option autoImplicit false

/-! # Powers by squaring

An element with unbounded coefficients is a residue modulo four, a residue modulo three and a member
of the ring `Clifford`. These form a monoid (`Element.Exact`), and a checked product is the product
in it or an overflow (`Element.Canonical.mul_computes`). So the loop that computes a power has its
invariant in that monoid: the accumulator times the power of the base that is still to come stays
the same (`Element.Canonical.powLoop_computes`).

The loop squares its base only while a digit is left. Hence every product that it forms divides the
power it is asked for, and the sum of the absolute coefficients, which no product increases beyond
the product of the sums (`Clifford.norm_mul_le`), bounds them all
(`Element.Canonical.exists_powLoop`).
-/

namespace NinetySix

/-! ## The sum of the absolute coefficients -/

namespace Clifford

/-- The sum of the absolute coefficients. -/
def norm (x : Clifford) : Int := ∑ b, |x b|

theorem norm_one : norm 1 = 1 := by
  have hone : ∀ b : Blade, |(1 : Clifford) b| = if b = Blade.scalar then 1 else 0 := by
    intro b
    rw [one_apply]
    split
    · exact abs_one
    · exact abs_zero
  simp only [norm, hone, Finset.sum_ite_eq', Finset.mem_univ, if_true]

/-- **The sum of the absolute coefficients of a product is at most the product of the sums.** -/
theorem norm_mul_le (x y : Clifford) : norm (x * y) ≤ norm x * norm y := by
  have hterm : ∀ a b, |Blade.sign a (a.product b) * (x a * y (a.product b))|
      = |x a| * |y (a.product b)| := by
    intro a b
    have hsign : |Blade.sign a (a.product b)| = 1 := by
      rcases Blade.sign_eq_one_or a (a.product b) with h | h
      · rw [h, abs_one]
      · rw [h, abs_neg, abs_one]
    rw [abs_mul, hsign, one_mul, abs_mul]
  calc norm (x * y) = ∑ b, |∑ a, Blade.sign a (a.product b) * (x a * y (a.product b))| := by
        simp only [norm, mul_apply]
    _ ≤ ∑ b, ∑ a : Blade, |x a| * |y (a.product b)| := by
        refine Finset.sum_le_sum fun b _ => ?_
        refine (Finset.abs_sum_le_sum_abs _ _).trans ?_
        exact Finset.sum_le_sum fun a _ => (hterm a b).le
    _ = ∑ a : Blade, |x a| * ∑ b, |y (a.product b)| := by
        rw [Finset.sum_comm]
        simp only [Finset.mul_sum]
    _ = ∑ a : Blade, |x a| * norm y := by
        refine Finset.sum_congr rfl fun a _ => ?_
        -- multiplication by a blade only permutes the coefficients
        rw [norm, ← Equiv.sum_comp a.productPerm fun b => |y b|]
        rfl
    _ = norm x * norm y := (Finset.sum_mul _ _ _).symm

end Clifford

theorem Multivector.norm_exact (m : Multivector) : Clifford.norm m.exact = m.norm := rfl

theorem Multivector.norm_nonneg (m : Multivector) : 0 ≤ m.norm :=
  Finset.sum_nonneg fun b _ => abs_nonneg (m.coeff b)

/-! ## Elements with unbounded coefficients -/

namespace Element

/-- The two residues, which a product adds, and the multivector. -/
abbrev Exact := Multiplicative (Fin 4) × Multiplicative (Fin 3) × Clifford

def exact (x : Element) : Exact := (.ofAdd x.z4, .ofAdd x.z3, x.clifford.exact)

theorem Canonical.eq_of_exact {x y : Element} (hx : x.Canonical) (hy : y.Canonical)
    (h : x.exact = y.exact) : x = y := by
  obtain ⟨h4, h⟩ := Prod.mk.inj h
  obtain ⟨h3, h⟩ := Prod.mk.inj h
  have hclifford : x.clifford = y.clifford := Multivector.Canonical.eq_of_exact hx hy h
  calc x = ⟨x.z4, x.z3, x.clifford⟩ := rfl
    _ = ⟨y.z4, y.z3, y.clifford⟩ := by
        rw [Multiplicative.ofAdd.injective h4, Multiplicative.ofAdd.injective h3, hclifford]
    _ = y := rfl

theorem canonical_identity : identity.Canonical := by
  show (Multivector.scalar 1).Canonical
  decide

theorem exact_identity : identity.exact = 1 := by
  have hclifford : identity.clifford.exact = 1 := by
    funext b
    rw [Clifford.one_apply]
    show (if b = Blade.scalar then some 1 else none).getD 0 = _
    split
    · rfl
    · rfl
  calc identity.exact = (1, 1, identity.clifford.exact) := rfl
    _ = 1 := by rw [hclifford]; rfl

/-- The result of a checked operation whose exact result is `f`. -/
abbrev Computes (f : Exact) : Except AlgebraError Element → Prop :=
  NinetySix.Computes Canonical exact f

variable {x y acc base r : Element} {n : Nat}

theorem Canonical.mul_computes (hx : x.Canonical) (hy : y.Canonical) :
    Computes (x.exact * y.exact) (x.mul y) := by
  unfold Element.mul
  apply (Multivector.Canonical.mul_computes hx hy).bind
  intro m canonical heq
  exact .exact canonical (Prod.ext rfl (Prod.ext rfl heq))

theorem Canonical.exists_mul (hx : x.Canonical) (hy : y.Canonical)
    (h : x.clifford.norm * y.clifford.norm ≤ 0x7FFFFFFFFFFFFFFF) : ∃ r, x.mul y = .ok r := by
  obtain ⟨m, hm⟩ := Multivector.Canonical.exists_mul hx hy h
  exact ⟨⟨x.z4 + y.z4, x.z3 + y.z3, m⟩, mul_eq_ok.mpr ⟨hm, rfl, rfl⟩⟩

/-- A product has at most the product of the norms. -/
theorem Canonical.norm_mul_le (hx : x.Canonical) (hy : y.Canonical) (h : x.mul y = .ok r) :
    r.clifford.norm ≤ x.clifford.norm * y.clifford.norm := by
  obtain ⟨-, heq⟩ := (Multivector.Canonical.mul_computes hx hy).of_ok (mul_eq_ok.mp h).1
  rw [← Multivector.norm_exact r.clifford, heq]
  exact Clifford.norm_mul_le _ _

/-! ## The loop -/

/-- The accumulator after one digit of the exponent. -/
def takeDigit (acc base : Element) (n : Nat) : Except AlgebraError Element :=
  if n % 2 = 1 then acc.mul base else .ok acc

/-- **One round of the loop.** -/
theorem powLoop_of_pos (acc base : Element) (hn : n ≠ 0) :
    powLoop acc base n = takeDigit acc base n >>= fun acc' =>
      if n / 2 = 0 then .ok acc'
      else base.mul base >>= fun square => powLoop acc' square (n / 2) := by
  rw [powLoop, if_neg hn, takeDigit]
  by_cases hodd : n % 2 = 1
  · simp only [if_pos hodd]
  · simp only [if_neg hodd]

theorem powLoop_zero (acc base : Element) : powLoop acc base 0 = .ok acc := by
  rw [powLoop, if_pos rfl]

theorem Canonical.takeDigit_computes (hacc : acc.Canonical) (hbase : base.Canonical) (n : Nat) :
    Computes (acc.exact * base.exact ^ (n % 2)) (takeDigit acc base n) := by
  unfold takeDigit
  rcases Nat.mod_two_eq_zero_or_one n with h | h
  · rw [h, pow_zero, mul_one]
    exact .exact hacc rfl
  · rw [h, pow_one]
    exact hacc.mul_computes hbase

/-- **The loop multiplies the accumulator by the power of the base.** -/
theorem Canonical.powLoop_computes (hacc : acc.Canonical) (hbase : base.Canonical) (n : Nat) :
    Computes (acc.exact * base.exact ^ n) (powLoop acc base n) := by
  induction n using Nat.strongRecOn generalizing acc base with
  | ind n ih =>
      by_cases hn : n = 0
      · rw [hn, powLoop_zero, pow_zero, mul_one]
        exact .exact hacc rfl
      · rw [powLoop_of_pos acc base hn]
        have hsplit : acc.exact * base.exact ^ n
            = acc.exact * base.exact ^ (n % 2) * (base.exact * base.exact) ^ (n / 2) := by
          rw [mul_assoc, ← pow_two, ← pow_mul, ← pow_add, Nat.mod_add_div]
        apply (hacc.takeDigit_computes hbase n).bind
        intro acc' hacc' heq
        rw [hsplit, ← heq]
        split
        · next hlast =>
          rw [hlast, pow_zero, mul_one]
          exact .exact hacc' rfl
        · apply (hbase.mul_computes hbase).bind
          intro square hsquare hsq
          rw [← hsq]
          exact ih (n / 2) (by omega) hacc' hsquare

/-! ## When the loop succeeds -/

theorem Canonical.exists_takeDigit {A B : Int} (hacc : acc.Canonical) (hbase : base.Canonical)
    (hA : acc.clifford.norm ≤ A) (hB : base.clifford.norm ≤ B)
    (hfits : A * B ^ (n % 2) ≤ 0x7FFFFFFFFFFFFFFF) :
    ∃ r, takeDigit acc base n = .ok r ∧ r.clifford.norm ≤ A * B ^ (n % 2) := by
  unfold takeDigit
  rcases Nat.mod_two_eq_zero_or_one n with h | h
  · rw [h] at hfits ⊢
    exact ⟨acc, rfl, by simpa using hA⟩
  · rw [h, pow_one] at hfits ⊢
    have hproduct : acc.clifford.norm * base.clifford.norm ≤ A * B :=
      mul_le_mul hA hB (Multivector.norm_nonneg _) ((Multivector.norm_nonneg _).trans hA)
    obtain ⟨r, hr⟩ := hacc.exists_mul hbase (hproduct.trans hfits)
    exact ⟨r, hr, (hacc.norm_mul_le hbase hr).trans hproduct⟩

/-- **The loop succeeds as long as the bound of the whole power fits.** The bounds are at least one
and not the norms themselves: a power that has become zero bounds nothing any more. -/
theorem Canonical.exists_powLoop {A B : Int} (hacc : acc.Canonical) (hbase : base.Canonical)
    (hA : acc.clifford.norm ≤ A) (hB : base.clifford.norm ≤ B) (hA1 : 1 ≤ A) (hB1 : 1 ≤ B)
    (hfits : A * B ^ n ≤ 0x7FFFFFFFFFFFFFFF) : ∃ r, powLoop acc base n = .ok r := by
  induction n using Nat.strongRecOn generalizing acc base A B with
  | ind n ih =>
      by_cases hn : n = 0
      · exact ⟨acc, by rw [hn, powLoop_zero]⟩
      · have hdigit : A * B ^ (n % 2) ≤ A * B ^ n :=
          mul_le_mul_of_nonneg_left (pow_le_pow_right₀ hB1 (Nat.mod_le n 2)) (by omega)
        obtain ⟨acc', hround, hA'⟩ := hacc.exists_takeDigit hbase hA hB (hdigit.trans hfits)
        have hacc' : acc'.Canonical := ((hacc.takeDigit_computes hbase n).of_ok hround).1
        rw [powLoop_of_pos acc base hn, hround]
        by_cases hlast : n / 2 = 0
        · exact ⟨acc', if_pos hlast⟩
        · -- a digit is left, so the square divides the power
          have hsquare : B * B ≤ A * B ^ n := by
            calc B * B = 1 * B ^ 2 := by rw [one_mul, pow_two]
              _ ≤ A * B ^ n := by
                  apply mul_le_mul hA1 (pow_le_pow_right₀ hB1 (by omega))
                  · exact pow_nonneg (by omega) 2
                  · omega
          have hnorm : base.clifford.norm * base.clifford.norm ≤ B * B :=
            mul_le_mul hB hB (Multivector.norm_nonneg _) (by omega)
          obtain ⟨square, hsq⟩ := hbase.exists_mul hbase (hnorm.trans (hsquare.trans hfits))
          have hcanonical : square.Canonical := ((hbase.mul_computes hbase).of_ok hsq).1
          have hrest : A * B ^ (n % 2) * (B * B) ^ (n / 2) ≤ 0x7FFFFFFFFFFFFFFF := by
            rwa [mul_assoc, ← pow_two, ← pow_mul, ← pow_add, Nat.mod_add_div]
          have hpow1 : 1 ≤ B ^ (n % 2) := one_le_pow₀ hB1
          obtain ⟨r, hr⟩ := ih (n / 2) (by omega) hacc' hcanonical hA'
            ((hbase.norm_mul_le hbase hsq).trans hnorm) (one_le_mul_of_one_le_of_one_le hA1 hpow1)
            (one_le_mul_of_one_le_of_one_le hB1 hB1) hrest
          refine ⟨r, ?_⟩
          show (if n / 2 = 0 then _ else _) = _
          rw [if_neg hlast, hsq]
          exact hr

/-! ## Powers -/

theorem val_nsmul {k : Nat} [NeZero k] (a : Fin k) (n : Nat) :
    ((n • a).val : Int) = n * a.val % k := by
  have hval : (n • a).val = n * a.val % k := by
    induction n with
    | zero => simp
    | succ n ih => rw [succ_nsmul, Fin.val_add, ih, Nat.mod_add_mod, Nat.succ_mul]
  exact_mod_cast hval

theorem pow_of_nonneg {n : Int} (hn : 0 ≤ n) : x.pow n = powLoop identity x n.toNat :=
  if_neg (by omega)

theorem Canonical.pow_computes (hx : x.Canonical) {n : Int} (hn : 0 ≤ n) :
    Computes (x.exact ^ n.toNat) (x.pow n) := by
  have h := canonical_identity.powLoop_computes hx n.toNat
  rwa [exact_identity, one_mul, ← pow_of_nonneg hn] at h

theorem Canonical.exists_pow (hx : x.Canonical) {n : Int} (hn : 0 ≤ n)
    (hfits : x.clifford.norm ^ n.toNat ≤ 0x7FFFFFFFFFFFFFFF) : ∃ r, x.pow n = .ok r := by
  rw [pow_of_nonneg hn]
  have hidentity : identity.clifford.norm ≤ 1 := by
    have hexact : identity.clifford.exact = 1 := congrArg (fun f => f.2.2) exact_identity
    rw [← Multivector.norm_exact, hexact, Clifford.norm_one]
  refine canonical_identity.exists_powLoop hx hidentity (le_max_left _ 1) le_rfl
    (le_max_right _ 1) ?_
  rcases le_total 1 x.clifford.norm with h | h
  · calc 1 * max x.clifford.norm 1 ^ n.toNat = x.clifford.norm ^ n.toNat := by
          rw [one_mul, max_eq_left h]
      _ ≤ 0x7FFFFFFFFFFFFFFF := hfits
  · calc 1 * max x.clifford.norm 1 ^ n.toNat = 1 := by rw [one_mul, max_eq_right h, one_pow]
      _ ≤ 0x7FFFFFFFFFFFFFFF := by omega

theorem pow_zero_eq (x : Element) : x.pow 0 = .ok identity :=
  (pow_of_nonneg le_rfl).trans (powLoop_zero _ _)

/-- **A power is the exact product of as many factors.** Only a negative exponent is refused as
such. The power that is returned has the residues multiplied by the exponent and the power of the
multivector over all integers, so powers of one element multiply by adding their exponents. And it
is returned whenever the same power of the sum of the absolute coefficients fits. -/
theorem pow_exact (hx : x.Canonical) (n : Int) :
    (x.pow n = .error (.negativePower n) ↔ n < 0) ∧
    x.pow 0 = .ok identity ∧
    (∀ r, 0 ≤ n → x.pow n = .ok r → r.Canonical ∧
      (r.z4.val : Int) = n * x.z4.val % 4 ∧ (r.z3.val : Int) = n * x.z3.val % 3 ∧
      r.clifford.exact = x.clifford.exact ^ n.toNat) ∧
    (∀ m p q r s, 0 ≤ m → 0 ≤ n → x.pow m = .ok p → x.pow n = .ok q → p.mul q = .ok r →
      x.pow (m + n) = .ok s → s = r) ∧
    (0 ≤ n → x.clifford.norm ^ n.toNat ≤ 0x7FFFFFFFFFFFFFFF → ∃ r, x.pow n = .ok r) := by
  refine ⟨?_, pow_zero_eq x, ?_, ?_, hx.exists_pow⟩
  · constructor
    · intro h
      by_contra hn
      cases (hx.pow_computes (by omega)).of_error h
    · exact fun hn => if_pos hn
  · intro r hn hr
    obtain ⟨canonical, heq⟩ := (hx.pow_computes hn).of_ok hr
    have h4 : r.z4 = n.toNat • x.z4 := congrArg Prod.fst heq
    have h3 : r.z3 = n.toNat • x.z3 := congrArg (fun f => f.2.1) heq
    have hclifford : r.clifford.exact = x.clifford.exact ^ n.toNat := congrArg (fun f => f.2.2) heq
    have hcast : ((n.toNat : Nat) : Int) = n := Int.toNat_of_nonneg hn
    refine ⟨canonical, ?_, ?_, hclifford⟩
    · rw [h4, val_nsmul, hcast]
      rfl
    · rw [h3, val_nsmul, hcast]
      rfl
  · intro m p q r s hm hn hp hq hr hs
    obtain ⟨hp, exact_p⟩ := (hx.pow_computes hm).of_ok hp
    obtain ⟨hq, exact_q⟩ := (hx.pow_computes hn).of_ok hq
    obtain ⟨hr, exact_r⟩ := (hp.mul_computes hq).of_ok hr
    obtain ⟨hs, exact_s⟩ := (hx.pow_computes (by omega)).of_ok hs
    apply hs.eq_of_exact hr
    calc s.exact = x.exact ^ (m.toNat + n.toNat) := by rw [exact_s, Int.toNat_add hm hn]
      _ = x.exact ^ m.toNat * x.exact ^ n.toNat := pow_add _ _ _
      _ = r.exact := by rw [exact_r, exact_p, exact_q]

/-- The greatest power of two that fits, reached with an exponent in whose last round one more
square would overflow. -/
theorem pow_exact_lastDigit :
    let x : Element := ⟨3, 2, .term 3#7 (-2)⟩
    x.Canonical ∧ x.clifford.norm ^ 62 = 0x4000000000000000 ∧
    (∃ square, x.pow 32 = .ok square ∧ square.mul square = .error .coefficientOverflow) ∧
    ∃ p r, x.pow 31 = .ok p ∧ p.mul p = .ok r ∧ x.pow 62 = .ok r ∧
      (r.z4.val : Int) = 62 * 3 % 4 ∧ (r.z3.val : Int) = 62 * 2 % 3 ∧
      r.clifford.exact = x.clifford.exact ^ 62 := by
  intro x
  have hx : x.Canonical := by
    show (Multivector.term 3#7 (-2)).Canonical
    decide
  have hnorm : x.clifford.norm = 2 := by decide +kernel
  have hsquare : x.pow 32 = .ok ⟨0, 1, .scalar 0x100000000⟩ := by cbv
  have hoverflow : mul ⟨0, 1, .scalar 0x100000000⟩ ⟨0, 1, .scalar 0x100000000⟩
      = .error .coefficientOverflow := by decide
  have hp : x.pow 31 = .ok ⟨1, 2, .term 3#7 0x80000000⟩ := by cbv
  have hr : mul ⟨1, 2, .term 3#7 0x80000000⟩ ⟨1, 2, .term 3#7 0x80000000⟩
      = .ok ⟨2, 1, .scalar (-0x4000000000000000)⟩ := by decide
  have hfits : x.clifford.norm ^ 62 = 0x4000000000000000 := by
    rw [hnorm]
    norm_num
  obtain ⟨-, -, -, -, hok⟩ := pow_exact hx 62
  obtain ⟨s, hs⟩ := hok (by omega) (le_of_eq_of_le hfits (by omega))
  obtain ⟨-, -, -, hadd, -⟩ := pow_exact hx 31
  cases hadd 31 _ _ _ s (by omega) (by omega) hp hp hr hs
  obtain ⟨-, -, hvalue, -⟩ := pow_exact hx 62
  obtain ⟨-, h4, h3, hclifford⟩ := hvalue _ (by omega) hs
  exact ⟨hx, hfits, ⟨_, hsquare, hoverflow⟩, _, _, hp, hr, hs, h4, h3, hclifford⟩

end Element

end NinetySix
