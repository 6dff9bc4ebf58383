import NinetySix.Proofs.Clifford
import NinetySix.Proofs.Leafwise

set_option autoImplicit false

/-! # Checked arithmetic is exact

Every operation on coefficients is checked, a product before and after its sign, and a sum each time
a term is added to it. `Multivector.exact` views a multivector in the ring of unbounded integers,
and `Computes` says of the result of an operation that it is the one of that ring or an overflow.
Accumulating a term is the only step (`Canonical.accumulate_cases`), and a run of exact steps is
exact (`Canonical.foldlM_computes`). A sum is a run over the terms of one summand, and both products
are runs over all pairs of terms (`pairing`).

An operation may overflow although its result would fit. For sums and multiples this never happens,
since each blade is visited once. For products it does not happen as long as the sums of the
absolute coefficients have a product that fits (`Canonical.exists_pairing`).
-/

namespace NinetySix

/-! ## Results -/

/-- The result of a checked operation whose exact result is `f`: it is canonical and has the view
`f`, or there was an overflow. -/
inductive Computes {α β : Type} (Canonical : α → Prop) (view : α → β) (f : β) :
    Except AlgebraError α → Prop
  | exact {r : α} (canonical : Canonical r) (eq : view r = f) : Computes Canonical view f (.ok r)
  | overflow : Computes Canonical view f (.error .coefficientOverflow)

namespace Computes

variable {α β γ δ : Type} {Canonical : α → Prop} {view : α → β} {f : β}
variable {Canonical' : γ → Prop} {view' : γ → δ} {g : δ} {result : Except AlgebraError α} {r : α}

theorem of_ok (h : Computes Canonical view f result) (hr : result = .ok r) :
    Canonical r ∧ view r = f := by
  cases h with
  | exact canonical eq =>
      cases hr
      exact ⟨canonical, eq⟩
  | overflow => cases hr

theorem of_error (h : Computes Canonical view f result) {e : AlgebraError}
    (he : result = .error e) : e = .coefficientOverflow := by
  cases h with
  | exact canonical eq => cases he
  | overflow =>
      cases he
      rfl

/-- What goes on with an exact result is exact. -/
theorem bind (h : Computes Canonical view f result) {next : α → Except AlgebraError γ}
    (hnext : ∀ {r : α}, Canonical r → view r = f → Computes Canonical' view' g (next r)) :
    Computes Canonical' view' g (result >>= next) := by
  cases h with
  | exact canonical eq => exact hnext canonical eq
  | overflow => exact .overflow

end Computes

namespace Multivector

variable {m m' : Multivector} {b : Blade} {c : Int}

instance (m : Multivector) : Decidable m.Canonical :=
  decidable_of_iff (m.terms.Pairwise (fun s t : Blade × Int => s.1 < t.1) ∧
      (∀ t ∈ m.terms, t.2 ≠ 0) ∧ ∀ t ∈ m.terms, InRange t.2)
    ⟨fun h => ⟨h.1, h.2.1, h.2.2⟩, fun h => ⟨h.ascending, h.nonzero, h.inRange⟩⟩

instance (x : Element) : Decidable x.Canonical := inferInstanceAs (Decidable x.clifford.Canonical)

/-! ## Coefficients -/

/-- The multivector in the algebra over all integers. -/
def exact (m : Multivector) : Clifford := m.coeff

theorem exact_apply (m : Multivector) (b : Blade) : m.exact b = m.coeff b := rfl

theorem coeff_of_mem (hm : Table.Ascending m.terms) (h : (b, c) ∈ m.terms) : m.coeff b = c := by
  rw [coeff, Table.find?_of_mem hm.nodup_keys h]
  rfl

theorem mem_of_coeff_ne_zero (h : m.coeff b ≠ 0) : (b, m.coeff b) ∈ m.terms := by
  unfold coeff at h ⊢
  cases hfind : Table.find? b m.terms with
  | none =>
      rw [hfind] at h
      exact absurd rfl h
  | some c => exact Table.mem_of_find? hfind

/-- A canonical multivector has a term for every coefficient that is not zero. -/
theorem Canonical.mem_iff (hm : m.Canonical) : (b, c) ∈ m.terms ↔ m.coeff b = c ∧ c ≠ 0 := by
  constructor
  · intro h
    exact ⟨coeff_of_mem hm.ascending h, hm.nonzero (b, c) h⟩
  · rintro ⟨rfl, hc⟩
    exact mem_of_coeff_ne_zero hc

/-- **Canonical multivectors with the same coefficients are equal.** -/
theorem Canonical.eq_of_exact (hm : m.Canonical) (hm' : m'.Canonical) (h : m.exact = m'.exact) :
    m = m' := by
  refine eq_of_mem_iff hm.ascending hm'.ascending fun t => ?_
  have hcoeff : m.coeff t.1 = m'.coeff t.1 := congrFun h t.1
  rw [hm.mem_iff (b := t.1), hm'.mem_iff (b := t.1), hcoeff]

theorem Canonical.inRange_coeff (hm : m.Canonical) (b : Blade) : InRange (m.coeff b) := by
  by_cases h : m.coeff b = 0
  · rw [h]
    decide
  · exact hm.inRange _ (mem_of_coeff_ne_zero h)

theorem canonical_zero : zero.Canonical := by
  decide

theorem exact_zero : zero.exact = 0 := rfl

/-- A sum over the terms is a sum over all blades. -/
theorem sum_terms {M : Type} [AddCommMonoid M] (hm : Table.Ascending m.terms)
    (f : Blade → Int → M) (hf : ∀ b, f b 0 = 0) :
    (m.terms.map fun t => f t.1 t.2).sum = ∑ b, f b (m.coeff b) := by
  have hkeys : (m.terms.map fun t => f t.1 t.2)
      = (Table.keys m.terms).map fun b => f b (m.coeff b) := by
    rw [Table.keys, List.map_map]
    refine List.map_congr_left fun t ht => ?_
    rw [Function.comp_apply, coeff_of_mem hm ht]
  rw [hkeys, ← List.sum_toFinset _ hm.nodup_keys]
  refine Finset.sum_subset (Finset.subset_univ _) fun b _ hb => ?_
  -- a blade without a term has the coefficient zero
  have hzero : m.coeff b = 0 := by
    by_contra hne
    exact hb (List.mem_toFinset.mpr (List.mem_map_of_mem (mem_of_coeff_ne_zero hne)))
  rw [hzero, hf]

theorem exact_eq_sum (hm : Table.Ascending m.terms) :
    m.exact = (m.terms.map fun t => Clifford.single t.1 t.2).sum := by
  rw [sum_terms hm Clifford.single Clifford.single_zero]
  funext b
  rw [Clifford.sum_apply]
  simp only [Clifford.single_apply, Finset.sum_ite_eq, Finset.mem_univ, if_true]
  rfl

/-- The result of a checked operation whose exact coefficients are `f`. -/
abbrev Computes (f : Clifford) : Except AlgebraError Multivector → Prop :=
  NinetySix.Computes Canonical exact f

namespace Computes

variable {f : Clifford} {result : Except AlgebraError Multivector} {r : Multivector}

/-- An exact result has only coefficients that fit. -/
theorem inRange (h : Computes f result) (hr : result = .ok r) (b : Blade) : InRange (f b) := by
  obtain ⟨canonical, rfl⟩ := h.of_ok hr
  exact canonical.inRange_coeff b

/-- If an operation succeeds whenever its exact coefficients fit, it overflows exactly if they do
not. -/
theorem eq_overflow_iff (h : Computes f result) (hok : (∀ b, InRange (f b)) → ∃ r, result = .ok r) :
    result = .error .coefficientOverflow ↔ ∃ b, ¬ InRange (f b) := by
  constructor
  · intro herror
    by_contra hall
    obtain ⟨r, hr⟩ := hok fun b => not_not.mp fun hb => hall ⟨b, hb⟩
    cases hr.symm.trans herror
  · rintro ⟨b, hb⟩
    cases hresult : result with
    | ok r => exact absurd (h.inRange hresult b) hb
    | error e => rw [h.of_error hresult]

theorem exists_coeff (h : Computes f result) (hok : ∃ r, result = .ok r) :
    ∃ r, result = .ok r ∧ r.Canonical ∧ ∀ b, r.coeff b = f b := by
  obtain ⟨r, hr⟩ := hok
  obtain ⟨canonical, heq⟩ := h.of_ok hr
  exact ⟨r, hr, canonical, congrFun heq⟩

end Computes

/-! ## Accumulation -/

/-- **One step of accumulation:** the sum fits and is the new coefficient, or it does not. -/
theorem Canonical.accumulate_cases (hm : m.Canonical) (b : Blade) (c : Int) :
    (InRange (m.coeff b + c) ∧ ∃ m', m.accumulate b c = .ok m' ∧ m'.Canonical ∧
      m'.exact = m.exact + Clifford.single b c) ∨
    (¬ InRange (m.coeff b + c) ∧ m.accumulate b c = .error .coefficientOverflow) := by
  unfold Multivector.accumulate
  split
  · next hc =>
    rw [hc, add_zero, Clifford.single_zero, add_zero]
    exact .inl ⟨hm.inRange_coeff b, m, rfl, hm, rfl⟩
  · by_cases hrange : InRange (m.coeff b + c)
    · rw [checked_of_inRange hrange]
      refine .inl ⟨hrange, _, rfl, hm.setCoeff b hrange, ?_⟩
      funext b'
      rw [exact_apply, coeff_setCoeff hm.ascending, Clifford.add_apply, Clifford.single_apply]
      split
      · next heq => rw [heq, exact_apply]
      · rw [add_zero, exact_apply]
    · rw [checked_of_not_inRange hrange]
      exact .inr ⟨hrange, rfl⟩

theorem accumulateAll_cons (m : Multivector) (t : Blade × Int) (ts : List (Blade × Int)) :
    m.accumulateAll (t :: ts) = m.accumulate t.1 t.2 >>= fun m' => m'.accumulateAll ts :=
  List.foldlM_cons

theorem Canonical.accumulate_computes (hm : m.Canonical) (b : Blade) (c : Int) :
    Computes (m.exact + Clifford.single b c) (m.accumulate b c) := by
  rcases hm.accumulate_cases b c with ⟨-, m', hstep, hm', hexact⟩ | ⟨-, hstep⟩
  · rw [hstep]
    exact .exact hm' hexact
  · rw [hstep]
    exact .overflow

/-- **A run of exact steps is exact**, whatever cancels on the way. -/
theorem Canonical.foldlM_computes {α : Type} {f : α → Clifford}
    {step : Multivector → α → Except AlgebraError Multivector}
    (hstep : ∀ {m : Multivector}, m.Canonical → ∀ a, Computes (m.exact + f a) (step m a))
    (hm : m.Canonical) (as : List α) : Computes (m.exact + (as.map f).sum) (as.foldlM step m) := by
  induction as generalizing m with
  | nil => exact .exact hm (add_zero _).symm
  | cons a as ih =>
      rw [List.foldlM_cons, List.map_cons, List.sum_cons, ← add_assoc]
      apply (hstep hm a).bind
      intro m' hm' heq
      rw [← heq]
      exact ih hm'

/-- Terms with different blades can be accumulated exactly if each of them fits by itself. -/
theorem Canonical.accumulateAll_iff {ts : List (Blade × Int)} (hm : m.Canonical)
    (hnd : (Table.keys ts).Nodup) :
    (∃ m', m.accumulateAll ts = .ok m') ↔ ∀ t ∈ ts, InRange (m.coeff t.1 + t.2) := by
  induction ts generalizing m with
  | nil => exact ⟨fun _ _ h => (List.not_mem_nil h).elim, fun _ => ⟨m, rfl⟩⟩
  | cons t ts ih =>
      obtain ⟨ht, hts⟩ := List.nodup_cons.mp (show (t.1 :: Table.keys ts).Nodup from hnd)
      rw [accumulateAll_cons, List.forall_mem_cons]
      rcases hm.accumulate_cases t.1 t.2 with ⟨hrange, m₁, hstep, hm₁, hexact⟩ | ⟨hrange, hstep⟩
      · -- the coefficients of the later blades are still as they were
        have hsame : ∀ t' ∈ ts, m₁.coeff t'.1 = m.coeff t'.1 := by
          intro t' ht'
          have hne : t'.1 ≠ t.1 := by
            intro heq
            exact ht (heq ▸ List.mem_map_of_mem ht')
          have hcoeff := congrFun hexact t'.1
          rwa [Clifford.add_apply, Clifford.single_apply, if_neg hne, add_zero] at hcoeff
        rw [hstep]
        refine (ih hm₁ hts).trans ?_
        constructor
        · intro h
          exact ⟨hrange, fun t' ht' => hsame t' ht' ▸ h t' ht'⟩
        · rintro ⟨-, h⟩ t' ht'
          exact (hsame t' ht').symm ▸ h t' ht'
      · rw [hstep]
        constructor
        · rintro ⟨m', h⟩
          cases h
        · rintro ⟨h, -⟩
          exact absurd h hrange

theorem inRange_of_abs_le {n : Int} (h : |n| ≤ 0x7FFFFFFFFFFFFFFF) : InRange n := by
  obtain ⟨hlow, hhigh⟩ := abs_le.mp h
  exact ⟨by omega, by omega⟩

/-- Accumulation succeeds as long as no coefficient can grow too large on the way. -/
theorem Canonical.accumulateAll_of_bound {ts : List (Blade × Int)} (hm : m.Canonical)
    (h : ∀ b, |m.coeff b| + (ts.map fun t => |t.2|).sum ≤ 0x7FFFFFFFFFFFFFFF) :
    ∃ m', m.accumulateAll ts = .ok m' := by
  induction ts generalizing m with
  | nil => exact ⟨m, rfl⟩
  | cons t ts ih =>
      rw [accumulateAll_cons]
      simp only [List.map_cons, List.sum_cons] at h
      have hrest : 0 ≤ (ts.map fun t => |t.2|).sum :=
        List.sum_nonneg (List.forall_mem_map.mpr fun t _ => abs_nonneg t.2)
      rcases hm.accumulate_cases t.1 t.2 with ⟨-, m₁, hstep, hm₁, hexact⟩ | ⟨hrange, -⟩
      · rw [hstep]
        -- what a step adds to a coefficient is missing from the rest of the sum afterwards
        refine ih hm₁ fun b => ?_
        have hcoeff : m₁.coeff b = m.coeff b + Clifford.single t.1 t.2 b := congrFun hexact b
        have hsingle : |Clifford.single t.1 t.2 b| ≤ |t.2| := by
          rw [Clifford.single_apply]
          split
          · exact le_refl _
          · rw [abs_zero]
            exact abs_nonneg _
        have hsum := abs_add_le (m.coeff b) (Clifford.single t.1 t.2 b)
        rw [← hcoeff] at hsum
        have hb := h b
        omega
      · have hsum := abs_add_le (m.coeff t.1) t.2
        have ht := h t.1
        exact absurd (inRange_of_abs_le (by omega)) hrange

/-! ## Sums -/

variable {x y r : Multivector}

theorem Canonical.add_computes (hx : x.Canonical) (hy : y.Canonical) :
    Computes (x.exact + y.exact) (x.add y) := by
  rw [exact_eq_sum hy.ascending]
  exact hx.foldlM_computes (fun hm t => hm.accumulate_computes t.1 t.2) y.terms

/-- A sum succeeds as soon as all its coefficients fit. -/
theorem Canonical.exists_add (hx : x.Canonical) (hy : y.Canonical)
    (h : ∀ b, InRange (x.coeff b + y.coeff b)) : ∃ r, x.add y = .ok r := by
  refine (hx.accumulateAll_iff hy.ascending.nodup_keys).mpr fun t ht => ?_
  rw [← coeff_of_mem hy.ascending ht]
  exact h t.1

/-! ## Coefficient by coefficient -/

theorem mapM_checked (g : Blade → Int → Int) (ts : List (Blade × Int)) :
    (ts.mapM fun t => return (t.1, ← checked (g t.1 t.2))) =
      if ∀ t ∈ ts, InRange (g t.1 t.2) then .ok (ts.map fun t => (t.1, g t.1 t.2))
      else .error .coefficientOverflow := by
  induction ts with
  | nil => rfl
  | cons t ts ih =>
      rw [List.mapM_cons, ih]
      by_cases ht : InRange (g t.1 t.2)
      · rw [checked_of_inRange ht]
        simp only [List.forall_mem_cons, ht, true_and]
        split
        · rfl
        · rfl
      · have hnot : ¬ ∀ t' ∈ t :: ts, InRange (g t'.1 t'.2) := by
          intro h
          exact ht (h t List.mem_cons_self)
        rw [checked_of_not_inRange ht, if_neg hnot]
        rfl

/-- The terms of a multivector with a map on its coefficients, less those that become zero. -/
def mapped (m : Multivector) (g : Blade → Int → Int) : Multivector :=
  ⟨(m.terms.map fun t => (t.1, g t.1 t.2)).filter fun t => t.2 ≠ 0⟩

variable {g : Blade → Int → Int}

theorem mem_mapped {t : Blade × Int} :
    t ∈ (m.mapped g).terms ↔ (∃ c, (t.1, c) ∈ m.terms ∧ g t.1 c = t.2) ∧ t.2 ≠ 0 := by
  unfold mapped
  rw [List.mem_filter, List.mem_map, decide_eq_true_eq]
  refine and_congr_left fun _ => ?_
  constructor
  · rintro ⟨t', ht', rfl⟩
    exact ⟨t'.2, ht', rfl⟩
  · rintro ⟨c, hc, hg⟩
    exact ⟨(t.1, c), hc, Prod.ext rfl hg⟩

theorem Canonical.mapped (hm : m.Canonical) (h : ∀ t ∈ m.terms, InRange (g t.1 t.2)) :
    (m.mapped g).Canonical := by
  refine ⟨?_, ?_, ?_⟩
  · exact List.Pairwise.filter _ (List.pairwise_map.mpr hm.ascending)
  · intro t ht
    exact (mem_mapped.mp ht).2
  · intro t ht
    obtain ⟨⟨c, hc, hg⟩, -⟩ := mem_mapped.mp ht
    exact hg ▸ h (t.1, c) hc

theorem Canonical.coeff_mapped (hm : m.Canonical) (hg : ∀ b, g b 0 = 0)
    (h : ∀ t ∈ m.terms, InRange (g t.1 t.2)) (b : Blade) :
    (m.mapped g).coeff b = g b (m.coeff b) := by
  by_cases hzero : g b (m.coeff b) = 0
  · rw [hzero]
    by_contra hne
    obtain ⟨⟨c, hc, hgc⟩, hne⟩ := mem_mapped.mp (mem_of_coeff_ne_zero hne)
    rw [← coeff_of_mem hm.ascending hc, hzero] at hgc
    exact hne hgc.symm
  · have hcoeff : m.coeff b ≠ 0 := by
      intro hc
      rw [hc, hg] at hzero
      exact hzero rfl
    refine coeff_of_mem (hm.mapped h).ascending (mem_mapped.mpr ⟨⟨m.coeff b, ?_, rfl⟩, hzero⟩)
    exact mem_of_coeff_ne_zero hcoeff

theorem mapCoeffs_checked (m : Multivector) (g : Blade → Int → Int) :
    (m.mapCoeffs fun b c => checked (g b c)) =
      if ∀ t ∈ m.terms, InRange (g t.1 t.2) then .ok (m.mapped g)
      else .error .coefficientOverflow := by
  rw [mapCoeffs, mapM_checked]
  split
  · rfl
  · rfl

/-- **A checked map on the coefficients is exact.** -/
theorem Canonical.mapCoeffs_computes (hm : m.Canonical) (hg : ∀ b, g b 0 = 0) :
    Computes (fun b => g b (m.coeff b)) (m.mapCoeffs fun b c => checked (g b c)) := by
  rw [mapCoeffs_checked]
  split
  · next h => exact .exact (hm.mapped h) (funext (hm.coeff_mapped hg h))
  · exact .overflow

theorem Canonical.exists_mapCoeffs (hm : m.Canonical) (h : ∀ b, InRange (g b (m.coeff b))) :
    ∃ r, (m.mapCoeffs fun b c => checked (g b c)) = .ok r := by
  rw [mapCoeffs_checked, if_pos]
  · exact ⟨_, rfl⟩
  · intro t ht
    rw [← coeff_of_mem hm.ascending ht]
    exact h t.1

theorem Canonical.scale_computes (hx : x.Canonical) (k : Int) :
    Computes (fun b => x.coeff b * k) (x.scale k) :=
  hx.mapCoeffs_computes (g := fun _ c => c * k) fun _ => zero_mul k

theorem Canonical.exists_scale (hx : x.Canonical) {k : Int} (h : ∀ b, InRange (x.coeff b * k)) :
    ∃ r, x.scale k = .ok r :=
  hx.exists_mapCoeffs (g := fun _ c => c * k) h

/-! ## Products -/

/-- Both the product and its signed form fit. -/
def Contribution.Fits (c : Contribution) : Prop := InRange (c.left * c.right) ∧ InRange c.value

instance (c : Contribution) : Decidable c.Fits := inferInstanceAs (Decidable (_ ∧ _))

/-- The term that a contribution adds. -/
def Contribution.term (c : Contribution) : Blade × Int := (c.blade, c.value)

theorem contribute_eq (m : Multivector) (c : Contribution) :
    m.contribute c =
      if c.Fits then m.accumulate c.blade c.value else .error .coefficientOverflow := by
  unfold contribute
  by_cases hproduct : InRange (c.left * c.right)
  · rw [checked_of_inRange hproduct]
    show (checked c.value >>= fun q => m.accumulate c.blade q) = _
    by_cases hvalue : InRange c.value
    · have hfits : c.Fits := ⟨hproduct, hvalue⟩
      rw [checked_of_inRange hvalue, if_pos hfits]
      rfl
    · have hfits : ¬ c.Fits := fun h => hvalue h.2
      rw [checked_of_not_inRange hvalue, if_neg hfits]
      rfl
  · have hfits : ¬ c.Fits := fun h => hproduct h.1
    rw [checked_of_not_inRange hproduct, if_neg hfits]
    rfl

theorem Canonical.contribute_computes (hm : m.Canonical) (c : Contribution) :
    Computes (m.exact + Clifford.single c.blade c.value) (m.contribute c) := by
  rw [contribute_eq]
  split
  · exact hm.accumulate_computes c.blade c.value
  · exact .overflow

theorem gather_computes (cs : List Contribution) :
    Computes (cs.map fun c => Clifford.single c.blade c.value).sum (gather cs) := by
  have h := canonical_zero.foldlM_computes (fun hm c => hm.contribute_computes c) cs
  rwa [exact_zero, zero_add] at h

/-- Contributions that fit add up as their terms do. -/
theorem foldlM_contribute_of_fits {cs : List Contribution} (h : ∀ c ∈ cs, c.Fits)
    (m : Multivector) : cs.foldlM contribute m = m.accumulateAll (cs.map Contribution.term) := by
  induction cs generalizing m with
  | nil => rfl
  | cons c cs ih =>
      obtain ⟨hc, hcs⟩ := List.forall_mem_cons.mp h
      rw [List.foldlM_cons, contribute_eq, if_pos hc, List.map_cons, accumulateAll_cons]
      simp only [ih hcs]
      rfl

/-- Contributions that are small together can be added up in any order. -/
theorem exists_gather_of_bound {cs : List Contribution} (hsign : ∀ c ∈ cs, |c.sign| = 1)
    (h : (cs.map fun c => |c.left * c.right|).sum ≤ 0x7FFFFFFFFFFFFFFF) :
    ∃ r, gather cs = .ok r := by
  have hvalue : ∀ c ∈ cs, |c.value| = |c.left * c.right| := by
    intro c hc
    rw [Contribution.value, abs_mul, hsign c hc, mul_one]
  have hfits : ∀ c ∈ cs, c.Fits := by
    intro c hc
    have hle : |c.left * c.right| ≤ (cs.map fun c => |c.left * c.right|).sum := by
      refine List.single_le_sum ?_ _ (List.mem_map_of_mem hc)
      exact List.forall_mem_map.mpr fun c _ => abs_nonneg _
    refine ⟨inRange_of_abs_le (hle.trans h), inRange_of_abs_le ?_⟩
    rw [hvalue c hc]
    exact hle.trans h
  have hterms : ((cs.map Contribution.term).map fun t => |t.2|).sum
      = (cs.map fun c => |c.left * c.right|).sum := by
    rw [List.map_map]
    exact congrArg List.sum (List.map_congr_left hvalue)
  rw [gather, foldlM_contribute_of_fits hfits]
  refine canonical_zero.accumulateAll_of_bound fun b => ?_
  rw [hterms]
  show |(0 : Int)| + _ ≤ _
  rwa [abs_zero, zero_add]

/-! ## Pairs of terms

Both products pair every term of the left factor with every term of the right one; they differ in
the blade and the sign that a pair of blades gives, if it gives any. -/

/-- The contributions of all pairs of terms. -/
def pairing (w : Blade → Blade → Option (Blade × Int)) (x y : Multivector) : List Contribution :=
  x.terms.flatMap fun s => y.terms.filterMap fun t =>
    (w s.1 t.1).map fun p => ⟨p.1, p.2, s.2, t.2⟩

theorem sum_filterMap {α β M : Type} [AddCommMonoid M] (g : α → Option β) (f : β → M) (l : List α) :
    ((l.filterMap g).map f).sum = (l.map fun a => (g a).elim 0 f).sum := by
  induction l with
  | nil => rfl
  | cons a l ih =>
      rw [List.map_cons, List.sum_cons, ← ih]
      cases h : g a with
      | none => rw [List.filterMap_cons_none h, Option.elim_none, zero_add]
      | some b =>
          rw [List.filterMap_cons_some h, List.map_cons, List.sum_cons]
          rfl

theorem sum_flatMap {α β M : Type} [AddCommMonoid M] (g : α → List β) (f : β → M) (l : List α) :
    ((l.flatMap g).map f).sum = (l.map fun a => ((g a).map f).sum).sum := by
  rw [List.map_flatMap, List.flatMap_def, List.sum_flatten, List.map_map]
  rfl

variable {w : Blade → Blade → Option (Blade × Int)}

/-- **A sum over the contributions is a sum over all pairs of blades**, if it is zero where a
coefficient is. -/
theorem sum_pairing {M : Type} [AddCommMonoid M] (hx : Table.Ascending x.terms)
    (hy : Table.Ascending y.terms) (f : Contribution → M)
    (hleft : ∀ b s c, f ⟨b, s, 0, c⟩ = 0) (hright : ∀ b s c, f ⟨b, s, c, 0⟩ = 0) :
    ((pairing w x y).map f).sum =
      ∑ a, ∑ b, (w a b).elim 0 fun p => f ⟨p.1, p.2, x.coeff a, y.coeff b⟩ := by
  have hrow : ∀ a c, (y.terms.map fun t => ((w a t.1).map fun p =>
      (⟨p.1, p.2, c, t.2⟩ : Contribution)).elim 0 f).sum
        = ∑ b, (w a b).elim 0 fun p => f ⟨p.1, p.2, c, y.coeff b⟩ := by
    intro a c
    simp only [Option.elim_map]
    refine sum_terms hy (fun b d => (w a b).elim 0 fun p => f ⟨p.1, p.2, c, d⟩) fun b => ?_
    cases w a b with
    | none => rfl
    | some p => exact hright p.1 p.2 c
  rw [pairing, sum_flatMap]
  simp only [sum_filterMap, hrow]
  refine sum_terms hx
    (fun a c => ∑ b, (w a b).elim 0 fun p => f ⟨p.1, p.2, c, y.coeff b⟩) fun a => ?_
  refine Finset.sum_eq_zero fun b _ => ?_
  cases w a b with
  | none => rfl
  | some p => exact hleft p.1 p.2 (y.coeff b)

theorem Canonical.pairing_computes (hx : x.Canonical) (hy : y.Canonical) :
    Computes (∑ a, ∑ b, (w a b).elim 0 fun p =>
      Clifford.single p.1 (x.coeff a * y.coeff b * p.2)) (gather (pairing w x y)) := by
  have h := gather_computes (pairing w x y)
  rw [sum_pairing hx.ascending hy.ascending] at h
  · exact h
  · intro b s c
    rw [Contribution.value, zero_mul, zero_mul, Clifford.single_zero]
  · intro b s c
    rw [Contribution.value, mul_zero, zero_mul, Clifford.single_zero]

/-- The sum of the absolute coefficients. -/
def norm (m : Multivector) : Int := ∑ b, |m.coeff b|

theorem Canonical.exists_pairing (hx : x.Canonical) (hy : y.Canonical)
    (hsign : ∀ a b, ∀ p ∈ w a b, |p.2| = 1) (h : x.norm * y.norm ≤ 0x7FFFFFFFFFFFFFFF) :
    ∃ r, gather (pairing w x y) = .ok r := by
  apply exists_gather_of_bound
  · intro c hc
    obtain ⟨s, -, hc⟩ := List.mem_flatMap.mp hc
    obtain ⟨t, -, hc⟩ := List.mem_filterMap.mp hc
    obtain ⟨p, hp, rfl⟩ := Option.map_eq_some_iff.mp hc
    exact hsign s.1 t.1 p hp
  · refine le_trans ?_ h
    rw [sum_pairing hx.ascending hy.ascending, norm, norm, Finset.sum_mul_sum]
    · refine Finset.sum_le_sum fun a _ => Finset.sum_le_sum fun b _ => ?_
      cases w a b with
      | none => exact mul_nonneg (abs_nonneg _) (abs_nonneg _)
      | some p => exact (abs_mul _ _).le
    · intro b s c
      rw [zero_mul, abs_zero]
    · intro b s c
      rw [mul_zero, abs_zero]

/-! ## The geometric product -/

theorem geometric_eq_pairing (x y : Multivector) :
    geometric x y = pairing (fun a b => some (a.product b, a.sign b)) x y := by
  unfold geometric pairing
  simp only [Option.map_some, List.filterMap_eq_map']

theorem Canonical.mul_computes (hx : x.Canonical) (hy : y.Canonical) :
    Computes (x.exact * y.exact) (x.mul y) := by
  have hsum : x.exact * y.exact
      = ∑ a, ∑ b, Clifford.single (a.product b) (x.coeff a * y.coeff b * a.sign b) := by
    funext c
    rw [Clifford.mul_apply_pairs, Finset.sum_filter, Fintype.sum_prod_type, Clifford.sum_apply]
    refine Finset.sum_congr rfl fun a _ => ?_
    rw [Clifford.sum_apply]
    refine Finset.sum_congr rfl fun b _ => ?_
    rw [Clifford.single_apply, mul_comm (a.sign b)]
    simp only [eq_comm]
    rfl
  rw [hsum, mul, geometric_eq_pairing]
  exact hx.pairing_computes hy (w := fun a b => some (a.product b, a.sign b))

theorem Canonical.exists_mul (hx : x.Canonical) (hy : y.Canonical)
    (h : x.norm * y.norm ≤ 0x7FFFFFFFFFFFFFFF) : ∃ r, x.mul y = .ok r := by
  rw [mul, geometric_eq_pairing]
  refine hx.exists_pairing hy (fun a b p hp => ?_) h
  cases hp
  rcases a.sign_eq_one_or b with hs | hs
  · rw [hs, abs_one]
  · rw [hs, abs_neg, abs_one]

/-! ## The cross product -/

/-- Two terms contribute what their blades give. They are never refused. -/
theorem crossTerm_eq (s t : Blade × Int) :
    crossTerm s t = .ok ((s.1.cross t.1).map fun p => ⟨p.1, p.2, s.2, t.2⟩) := by
  unfold crossTerm
  cases hs : s.1.generator? with
  | none =>
      rw [Blade.cross_of_left hs]
      rfl
  | some i =>
      cases ht : t.1.generator? with
      | none =>
          rw [Blade.cross_of_right s.1 ht]
          rfl
      | some j =>
          have hpoints : s.1.cross t.1
              = (Fano.cross i j).map fun p => (Blade.generator p.1, p.2) := by
            rw [Blade.generator?_eq_some_iff.mp hs, Blade.generator?_eq_some_iff.mp ht,
              Blade.cross_generator]
          dsimp only
          rw [Fano.crossPoints_eq, hpoints, Option.map_map]
          rfl

/-- Pairs of terms that contribute nothing may be left out of the sum. -/
theorem cross_eq_gather (x y : Multivector) : x.cross y = gather (pairing Blade.cross x y) := by
  have hpairs : pairing Blade.cross x y
      = (x.terms.flatMap fun s => y.terms.map fun t => (s, t)).filterMap fun p =>
        (p.1.1.cross p.2.1).map fun q => ⟨q.1, q.2, p.1.2, p.2.2⟩ := by
    simp only [pairing, List.filterMap_flatMap, List.filterMap_map, Function.comp_def]
  rw [gather, hpairs, List.foldlM_filterMap, cross]
  congr 1
  funext m p
  rw [contributeCross, crossTerm_eq]
  cases p.1.1.cross p.2.1 with
  | none => rfl
  | some q => rfl

theorem Canonical.cross_computes (hx : x.Canonical) (hy : y.Canonical) :
    Computes (Clifford.cross x.exact y.exact) (x.cross y) := by
  rw [Clifford.cross_eq_sum, cross_eq_gather]
  exact hx.pairing_computes hy

theorem Canonical.exists_cross (hx : x.Canonical) (hy : y.Canonical)
    (h : x.norm * y.norm ≤ 0x7FFFFFFFFFFFFFFF) : ∃ r, x.cross y = .ok r := by
  rw [cross_eq_gather]
  exact hx.exists_pairing hy Blade.abs_cross h

/-! ## The four operations -/

/-- **Coefficients are exact, or an overflow is reported.** A sum and a multiple overflow exactly if
one of their exact coefficients does not fit. A coefficient of a product is the exact sum over the
pairs that contribute to it, and the products succeed as long as the sums of the absolute
coefficients have a product that fits. There are no other errors. -/
theorem arithmetic_exact (hx : x.Canonical) (hy : y.Canonical) (k : Int) :
    (x.add y = .error .coefficientOverflow ↔ ∃ b, ¬ InRange (x.coeff b + y.coeff b)) ∧
    ((∀ b, InRange (x.coeff b + y.coeff b)) →
      ∃ r, x.add y = .ok r ∧ r.Canonical ∧ ∀ b, r.coeff b = x.coeff b + y.coeff b) ∧
    (x.scale k = .error .coefficientOverflow ↔ ∃ b, ¬ InRange (x.coeff b * k)) ∧
    ((∀ b, InRange (x.coeff b * k)) →
      ∃ r, x.scale k = .ok r ∧ r.Canonical ∧ ∀ b, r.coeff b = x.coeff b * k) ∧
    (∀ r, x.mul y = .ok r → r.Canonical ∧ ∀ b, r.coeff b =
      ∑ p : Blade × Blade with p.1.product p.2 = b, p.1.sign p.2 * (x.coeff p.1 * y.coeff p.2)) ∧
    (∀ r, x.cross y = .ok r → r.Canonical ∧
      (∀ k, r.coeff (.generator k) = ∑ i, ∑ j, Fano.coefficient i j k *
        (x.coeff (.generator i) * y.coeff (.generator j))) ∧
      ∀ b : Blade, b.generator? = none → r.coeff b = 0) ∧
    (x.norm * y.norm ≤ 0x7FFFFFFFFFFFFFFF →
      (∃ r, x.mul y = .ok r) ∧ ∃ r, x.cross y = .ok r) ∧
    ∀ e, x.add y = .error e ∨ x.scale k = .error e ∨ x.mul y = .error e ∨ x.cross y = .error e →
      e = .coefficientOverflow := by
  have hadd := hx.add_computes hy
  have hscale := hx.scale_computes k
  have hmul := hx.mul_computes hy
  have hcross := hx.cross_computes hy
  refine ⟨hadd.eq_overflow_iff (hx.exists_add hy), ?_, hscale.eq_overflow_iff hx.exists_scale, ?_,
    ?_, ?_, ?_, ?_⟩
  · intro h
    exact hadd.exists_coeff (hx.exists_add hy h)
  · intro h
    exact hscale.exists_coeff (hx.exists_scale h)
  · intro r hr
    obtain ⟨canonical, heq⟩ := hmul.of_ok hr
    refine ⟨canonical, fun b => ?_⟩
    rw [← exact_apply, heq, Clifford.mul_apply_pairs]
    rfl
  · intro r hr
    obtain ⟨canonical, heq⟩ := hcross.of_ok hr
    refine ⟨canonical, fun k => ?_, fun b hb => ?_⟩
    · rw [← exact_apply, heq, Clifford.cross_generator]
      rfl
    · rw [← exact_apply, heq, Clifford.cross_of_generator?_eq_none _ _ hb]
  · intro h
    exact ⟨hx.exists_mul hy h, hx.exists_cross hy h⟩
  · rintro e (h | h | h | h)
    · exact hadd.of_error h
    · exact hscale.of_error h
    · exact hmul.of_error h
    · exact hcross.of_error h

theorem coeff_term (b b' : Blade) (c : Int) : (term b c).coeff b' = if b' = b then c else 0 := by
  unfold term
  split
  · next hc =>
    rw [hc, ite_self]
    rfl
  · show (if b' = b then some c else none).getD 0 = _
    split
    · rfl
    · rfl

/-- Two terms contribute to one blade only. -/
theorem sum_pairs_term (a a' b : Blade) (c c' : Int) :
    ∑ p : Blade × Blade with p.1.product p.2 = b,
      p.1.sign p.2 * ((term a c).coeff p.1 * (term a' c').coeff p.2)
      = if a.product a' = b then a.sign a' * (c * c') else 0 := by
  rw [Finset.sum_filter, Finset.sum_eq_single (a, a')]
  · simp only [coeff_term, if_true]
  · rintro ⟨d, d'⟩ - hne
    have hzero : (term a c).coeff d * (term a' c').coeff d' = 0 := by
      rw [coeff_term, coeff_term]
      by_cases hd : d = a
      · have hd' : d' ≠ a' := by
          rintro rfl
          exact hne (congrArg (·, d') hd)
        rw [if_neg hd', mul_zero]
      · rw [if_neg hd, zero_mul]
    rw [hzero, mul_zero, ite_self]
  · intro hmem
    exact absurd (Finset.mem_univ _) hmem

/-- The largest coefficient leaves no room for a factor of two, and its products with a generator
are just within the bound. In the other order the geometric product has the other sign. -/
theorem arithmetic_exact_largest :
    let x := term (.generator 0) 0x7FFFFFFFFFFFFFFF
    let y := term (.generator 1) 1
    x.Canonical ∧ y.Canonical ∧ x.norm * y.norm = 0x7FFFFFFFFFFFFFFF ∧
    x.scale 2 = .error .coefficientOverflow ∧
    (∃ r, x.mul y = .ok r ∧ r.coeff 3#7 = 0x7FFFFFFFFFFFFFFF) ∧
    (∃ r, y.mul x = .ok r ∧ r.coeff 3#7 = -0x7FFFFFFFFFFFFFFF) ∧
    ∃ r, x.cross y = .ok r ∧ r.coeff (.generator 3) = 0x7FFFFFFFFFFFFFFF := by
  intro x y
  have hx : x.Canonical := by decide
  have hy : y.Canonical := by decide
  have hnorm : x.norm * y.norm = 0x7FFFFFFFFFFFFFFF := by decide +kernel
  obtain ⟨-, -, hscale, -, hmul, hcross, hbound, -⟩ := arithmetic_exact hx hy 2
  obtain ⟨-, -, -, -, hmul', -, hbound', -⟩ := arithmetic_exact hy hx 2
  obtain ⟨⟨r, hr⟩, u, hu⟩ := hbound hnorm.le
  obtain ⟨⟨r', hr'⟩, -⟩ := hbound' (by rw [mul_comm]; exact hnorm.le)
  have hoverflow : x.scale 2 = .error .coefficientOverflow :=
    hscale.mpr ⟨.generator 0, by decide⟩
  refine ⟨hx, hy, hnorm, hoverflow, ⟨r, hr, ?_⟩, ⟨r', hr', ?_⟩, u, hu, ?_⟩
  · rw [(hmul r hr).2 3#7, sum_pairs_term]
    decide
  · rw [(hmul' r' hr').2 3#7, sum_pairs_term]
    decide
  · rw [(hcross u hu).2.1 3]
    decide +kernel

end Multivector

end NinetySix
