import NinetySix.Proofs.Exactness

set_option autoImplicit false

/-! # The moves as a group of symmetries

Rotation, triality and twist are commuting turns of orders four, three and eight, and the mirror is an
involution that commutes with the rotation and the twist and inverts the triality. So a composition
of moves comes down to one of the form `M^m R^p D^q T^r` (`Element.motion`). These compose as in the
group `Z4 × (Z3 ⋊ Z2) × Z8` (`Element.Canonical.motion_motion`), and none of them fixes every element
but the unit of that group (`Element.motion_eq_self_iff`).

Rotation, triality and mirror act on residues. The twist rebuilds the table of the multivector, and a
collision of two blades would lose a term. There is none, because the twist of blades is injective, so
the terms are permuted (`Multivector.mapBlades_perm`): each coefficient is found again at the blade
that its own was moved to (`Multivector.coeff_mapBlades`).
-/

namespace NinetySix

/-! ## Residues -/

/-- Only full turns lead back. -/
theorem shift_eq_self_iff {n : Nat} (x : Fin n) (k : Int) : shift x k = x ↔ (n : Int) ∣ k := by
  constructor
  · intro h
    have hval : ((x.val : Int) + k) % n = x.val % n := by
      rw [← val_shift, h, Int.emod_eq_of_lt (by omega) (by exact_mod_cast x.isLt)]
    rw [Int.emod_eq_emod_iff_emod_sub_eq_zero, add_sub_cancel_left] at hval
    exact Int.dvd_of_emod_eq_zero hval
  · intro h
    rw [shift_congr x (k := 0) (by rw [Int.emod_eq_zero_of_dvd h, Int.zero_emod]), shift_zero]

theorem neg_shift (z : Fin 3) (k : Int) : -shift z k = shift (-z) (-k) := by
  have hneg : ∀ w : Fin 3, ((-w).val : Int) = (-w.val) % (3 : Nat) := by decide
  have hval : ((-shift z k).val : Int) = (shift (-z) (-k)).val := by
    rw [hneg, val_shift, val_shift, hneg]
    omega
  exact Fin.ext (by exact_mod_cast hval)

/-! ## Moving the blades of a multivector -/

namespace Multivector

variable {m : Multivector} {f : Blade → Blade}

/-- The coefficients, each as often as it occurs. -/
def coefficients (m : Multivector) : Multiset Int := Multiset.ofList (m.terms.map Prod.snd)

theorem size_mapBlades (hm : Table.Ascending m.terms) (hf : Function.Injective f) :
    (m.mapBlades f).size = m.size := by
  rw [size, (mapBlades_perm hm hf).length_eq, List.length_map, size]

theorem coefficients_mapBlades (hm : Table.Ascending m.terms) (hf : Function.Injective f) :
    (m.mapBlades f).coefficients = m.coefficients := by
  have hperm := (mapBlades_perm hm hf).map Prod.snd
  rw [List.map_map] at hperm
  exact Multiset.coe_eq_coe.mpr hperm

/-- **Each coefficient is found at the blade that its own was moved to.** -/
theorem coeff_mapBlades (hm : Table.Ascending m.terms) (hf : Function.Injective f) (b : Blade) :
    (m.mapBlades f).coeff (f b) = m.coeff b := by
  by_cases hb : m.coeff b = 0
  · rw [hb]
    by_contra hne
    obtain ⟨b', hb', heq⟩ := (mem_mapBlades hm hf).mp (mem_of_coeff_ne_zero hne)
    rw [hf heq] at hb'
    exact hne ((coeff_of_mem hm hb').symm.trans hb)
  · refine coeff_of_mem (ascending_mapBlades m f) ((mem_mapBlades hm hf).mpr ⟨b, ?_, rfl⟩)
    exact mem_of_coeff_ne_zero hb

end Multivector

namespace Blade

/-- The slots are the blades below grade two. -/
theorem slot?_eq_none_iff : ∀ {b : Blade}, b.slot? = none ↔ 2 ≤ b.grade := by
  decide +kernel

end Blade

/-! ## The twist -/

namespace Element

variable {x : Element}

theorem twistBlade_of_grade {b : Blade} (h : 2 ≤ b.grade) (k : Int) : twistBlade k b = b := by
  unfold twistBlade
  rw [Blade.slot?_eq_none_iff.mpr h]

theorem Canonical.coeff_twist_slot (hx : x.Canonical) (k : Int) (s : Fin 8) :
    (x.twist k).clifford.coeff (.ofSlot (shift s k)) = x.clifford.coeff (.ofSlot s) := by
  rw [← twistBlade_ofSlot]
  exact Multivector.coeff_mapBlades hx.ascending (twistBlade_injective k) _

theorem Canonical.coeff_twist_of_grade (hx : x.Canonical) (k : Int) {b : Blade} (h : 2 ≤ b.grade) :
    (x.twist k).clifford.coeff b = x.clifford.coeff b := by
  have hcoeff := Multivector.coeff_mapBlades hx.ascending (twistBlade_injective k) b
  rwa [twistBlade_of_grade h] at hcoeff

end Element

/-! ## The group -/

/-- A full turn leads back. -/
theorem Axis.turnElement_of_dvd (a : Axis) {x : Element} (hx : x.Canonical) {k : Int}
    (h : (a.order : Int) ∣ k) : a.turnElement x k = x := by
  have hzero : k % a.order = 0 % a.order := by rw [Int.emod_eq_zero_of_dvd h, Int.zero_emod]
  rw [a.turnElement_congr x hzero, a.turnElement_zero hx]

namespace Element

variable {x : Element}

theorem mirror_triality (x : Element) (k : Int) : (x.triality k).mirror = x.mirror.triality (-k) := by
  simp only [mirror, triality, neg_shift]

/-- The motion `M^m R^p D^q T^r`, the twist first and the mirror last. -/
def motion (x : Element) (p q r : Int) (mirrored : Bool) : Element :=
  bif mirrored then (((x.twist r).triality q).rotate p).mirror
  else ((x.twist r).triality q).rotate p

variable {p q r : Int} {mirrored : Bool}

/-- The residue modulo three that a triality and a mirror make of another. -/
def turnZ3 (z : Fin 3) (q : Int) (mirrored : Bool) : Fin 3 :=
  bif mirrored then -shift z q else shift z q

theorem motion_eq (x : Element) :
    x.motion p q r mirrored = ⟨shift x.z4 p, turnZ3 x.z3 q mirrored, (x.twist r).clifford⟩ := by
  cases mirrored <;> rfl

/-- Behind a mirror the triality turns the other way. -/
theorem turnZ3_turnZ3 (z : Fin 3) (q q' : Int) (mirrored mirrored' : Bool) :
    turnZ3 (turnZ3 z q mirrored) q' mirrored' =
      turnZ3 z (q + bif mirrored then -q' else q') (mirrored ^^ mirrored') := by
  cases mirrored with
  | false => cases mirrored' <;> simp [turnZ3, shift_shift]
  | true => cases mirrored' <;> simp [turnZ3, neg_shift, shift_shift, add_comm]

/-- **Two motions compose as in the semidirect product.** -/
theorem Canonical.motion_motion (hx : x.Canonical) (p q r p' q' r' : Int)
    (mirrored mirrored' : Bool) :
    (x.motion p q r mirrored).motion p' q' r' mirrored' =
      x.motion (p + p') (q + bif mirrored then -q' else q') (r + r') (mirrored ^^ mirrored') := by
  have htwist := congrArg Element.clifford (Axis.twist.turnElement_turnElement hx r r')
  rw [motion_eq, motion_eq, motion_eq, shift_shift, turnZ3_turnZ3]
  exact congrArg _ htwist

theorem motion_eq_iff (x : Element) : x.motion p q r mirrored = x ↔
    shift x.z4 p = x.z4 ∧ turnZ3 x.z3 q mirrored = x.z3 ∧ (x.twist r).clifford = x.clifford := by
  rw [motion_eq]
  exact Iff.of_eq (Element.mk.injEq ..)

/-- What fixes the residues `0` and `1` modulo three is no mirror, and turns in full. -/
theorem of_fixed_z3 (h0 : turnZ3 0 q mirrored = 0) (h1 : turnZ3 1 q mirrored = 1) :
    (3 : Int) ∣ q ∧ mirrored = false := by
  cases mirrored with
  | false => exact ⟨(shift_eq_self_iff 0 q).mp h0, rfl⟩
  | true =>
      have hq : (3 : Int) ∣ q := (shift_eq_self_iff 0 q).mp (neg_eq_zero.mp h0)
      have hshift : shift (1 : Fin 3) q = 1 := (shift_eq_self_iff 1 q).mpr hq
      rw [turnZ3, cond_true, hshift] at h1
      exact absurd h1 (by decide)

/-- A twist that fixes the unit turns in full. -/
theorem of_fixed_unit (h : (identity.twist r).clifford = identity.clifford) : (8 : Int) ∣ r := by
  have hcoeff := Canonical.coeff_twist_slot (x := identity) (by decide) r 0
  rw [h] at hcoeff
  have hslot : ∀ s : Fin 8, identity.clifford.coeff (.ofSlot s) = 1 → s = 0 := by decide
  exact (shift_eq_self_iff 0 r).mp (hslot _ hcoeff)

/-- **Only full turns without a mirror fix every element.** -/
theorem motion_eq_self_iff : (∀ x : Element, x.Canonical → x.motion p q r mirrored = x) ↔
    (4 : Int) ∣ p ∧ (3 : Int) ∣ q ∧ (8 : Int) ∣ r ∧ mirrored = false := by
  constructor
  · intro h
    -- the unit has the residue 0 modulo three, which the mirror does not move; so take 1 as well
    obtain ⟨h4, h0, hclifford⟩ := (motion_eq_iff _).mp (h identity (by decide))
    obtain ⟨-, h1, -⟩ := (motion_eq_iff _).mp (h { identity with z3 := 1 } (by decide))
    obtain ⟨hq, hm⟩ := of_fixed_z3 h0 h1
    exact ⟨(shift_eq_self_iff _ p).mp h4, hq, of_fixed_unit hclifford, hm⟩
  · rintro ⟨hp, hq, hr, rfl⟩ x hx
    have htwist : x.twist r = x := Axis.twist.turnElement_of_dvd hx hr
    refine (motion_eq_iff x).mpr ⟨(shift_eq_self_iff _ p).mpr hp, (shift_eq_self_iff _ q).mpr hq, ?_⟩
    rw [htwist]

end Element

/-- **The moves are the group `Z4 × (Z3 ⋊ Z2) × Z8`.** The powers of a turn add up, and the turns have
the orders four, three and eight and commute. The mirror is an involution that commutes with the
rotation and the twist, and inverts the triality. So the motions compose as in that group, and no
other relations hold: a motion that fixes every element is a full turn about each axis, without a
mirror. A twist loses nothing: it keeps the number of terms, the coefficients as often as they occur,
and the blades above grade one in their place, and it moves every slot on. -/
theorem moves_form_group {x : Element} (hx : x.Canonical) (j k : Int) :
    ((x.rotate j).rotate k = x.rotate (j + k) ∧
      (x.triality j).triality k = x.triality (j + k) ∧
      (x.twist j).twist k = x.twist (j + k)) ∧
    (x.rotate 4 = x ∧ x.triality 3 = x ∧ x.twist 8 = x) ∧
    ((x.rotate j).triality k = (x.triality k).rotate j ∧
      (x.rotate j).twist k = (x.twist k).rotate j ∧
      (x.triality j).twist k = (x.twist k).triality j) ∧
    (x.mirror.mirror = x ∧ (x.rotate k).mirror = x.mirror.rotate k ∧
      (x.twist k).mirror = x.mirror.twist k ∧ (x.triality k).mirror = x.mirror.triality (-k)) ∧
    (∀ p q r p' q' r' mirrored mirrored',
      (x.motion p q r mirrored).motion p' q' r' mirrored' = x.motion (p + p')
        (q + bif mirrored then -q' else q') (r + r') (mirrored ^^ mirrored')) ∧
    (∀ p q r mirrored, (∀ y : Element, y.Canonical → y.motion p q r mirrored = y) ↔
      (4 : Int) ∣ p ∧ (3 : Int) ∣ q ∧ (8 : Int) ∣ r ∧ mirrored = false) ∧
    (x.twist k).clifford.size = x.clifford.size ∧
    (x.twist k).clifford.coefficients = x.clifford.coefficients ∧
    (∀ b : Blade, 2 ≤ b.grade → (x.twist k).clifford.coeff b = x.clifford.coeff b) ∧
    ∀ s, (x.twist k).clifford.coeff (.ofSlot (shift s k)) = x.clifford.coeff (.ofSlot s) := by
  have hadd := fun a : Axis => a.turnElement_turnElement hx j k
  have horder := fun a : Axis => a.turnElement_of_dvd hx (dvd_refl _)
  have hcomm := fun a b : Axis => a.turnElement_comm b hx k j
  refine ⟨⟨hadd .rotate, hadd .triality, hadd .twist⟩,
    ⟨horder .rotate, horder .triality, horder .twist⟩,
    ⟨hcomm .triality .rotate, hcomm .twist .rotate, hcomm .twist .triality⟩,
    ⟨x.mirror_mirror, rfl, rfl, x.mirror_triality k⟩, hx.motion_motion,
    fun p q r mirrored => Element.motion_eq_self_iff, ?_, ?_,
    fun b => hx.coeff_twist_of_grade k, hx.coeff_twist_slot k⟩
  · exact Multivector.size_mapBlades hx.ascending (Element.twistBlade_injective k)
  · exact Multivector.coefficients_mapBlades hx.ascending (Element.twistBlade_injective k)

/-- Slots at both ends of the ring and a blade of grade two. The last slot moves on to the first. -/
theorem moves_form_group_wrapping :
    let x : Element := ⟨3, 2, ⟨[(0#7, 5), (1#7, -2), (3#7, 7), (64#7, 1)]⟩⟩
    x.Canonical ∧
    (x.twist (-7)).twist 8 = x.twist 1 ∧ (x.rotate (-7)).twist 8 = (x.twist 8).rotate (-7) ∧
    (x.triality 8).mirror = x.mirror.triality (-8) ∧
    (x.twist 1).clifford.size = 4 ∧ (x.twist 1).clifford.coefficients = {5, -2, 7, 1} ∧
    (x.twist 1).clifford.coeff 3#7 = 7 ∧ (x.twist 1).clifford.coeff .scalar = 1 := by
  intro x
  have hx : x.Canonical := by decide
  obtain ⟨⟨-, -, hadd⟩, -, ⟨-, hcomm, -⟩, ⟨-, -, -, hmirror⟩, -⟩ := moves_form_group hx (-7) 8
  obtain ⟨-, -, -, -, -, -, hsize, hcoefficients, hgrade, hslot⟩ := moves_form_group hx 0 1
  exact ⟨hx, hadd, hcomm, hmirror, hsize, hcoefficients, hgrade 3#7 (by decide), hslot 7⟩

end NinetySix
