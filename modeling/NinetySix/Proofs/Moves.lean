import NinetySix.Proofs.Tables
import NinetySix.Transform

set_option autoImplicit false

/-! # The moves of coordinates and of elements

Rotation, triality and twist are powers of three commuting turns, and the mirror is an involution.
The laws are proved twice, for coordinates (`Axis.turn`) and for elements (`Axis.turnElement`):
turns about one axis add up, exponents count modulo the order, and turns about two axes commute.
On coordinates they hold outright. On elements the twist rebuilds the table of the multivector, so
there they need it to be ascending, which the elements of a run are (`Element.Canonical`); the
moves keep an element canonical.
-/

namespace NinetySix

/-! ## Residues -/

section Shift

variable {n : Nat}

theorem val_shift (x : Fin n) (k : Int) : ((shift x k).val : Int) = (x.val + k) % n := by
  have hn : (n : Int) ≠ 0 := by exact_mod_cast x.pos.ne'
  exact Int.toNat_of_nonneg (Int.emod_nonneg (x.val + k) hn)

/-- Only the residue of the number of steps counts. -/
theorem shift_congr (x : Fin n) {j k : Int} (h : j % n = k % n) : shift x j = shift x k := by
  have hval : ((shift x j).val : Int) = (shift x k).val := by
    rw [val_shift, val_shift, Int.add_emod, h, ← Int.add_emod]
  exact Fin.ext (by exact_mod_cast hval)

@[simp] theorem shift_zero (x : Fin n) : shift x 0 = x := by
  have hval : ((shift x 0).val : Int) = x.val := by
    rw [val_shift, Int.add_zero]
    exact Int.emod_eq_of_lt (by omega) (by exact_mod_cast x.isLt)
  exact Fin.ext (by exact_mod_cast hval)

/-- Moving on twice adds the steps. -/
theorem shift_shift (x : Fin n) (j k : Int) : shift (shift x j) k = shift x (j + k) := by
  have hval : ((shift (shift x j) k).val : Int) = (shift x (j + k)).val := by
    calc ((shift (shift x j) k).val : Int) = ((x.val + j) % n + k) % n := by
          rw [val_shift, val_shift]
      _ = (x.val + (j + k)) % n := by rw [Int.emod_add_emod, Int.add_assoc]
      _ = (shift x (j + k)).val := (val_shift x (j + k)).symm
  exact Fin.ext (by exact_mod_cast hval)

end Shift

/-! ## Coordinates -/

namespace Axis

theorem order_pos (a : Axis) : 0 < a.order := by cases a <;> decide

theorem turn_congr (a : Axis) (c : Coordinates) {j k : Int}
    (h : j % a.order = k % a.order) : a.turn c j = a.turn c k := by
  cases a with
  | rotate => simp only [turn, Coordinates.rotate, shift_congr c.quadrant h]
  | triality =>
      simp only [turn, Coordinates.triality, Modality.shifted, shift_congr c.modality.toFin h]
  | twist => simp only [turn, Coordinates.twist, shift_congr c.slot h]

theorem turn_zero (a : Axis) (c : Coordinates) : a.turn c 0 = c := by
  cases a <;>
    simp [turn, Coordinates.rotate, Coordinates.triality, Coordinates.twist, Modality.shifted]

/-- Two turns about one axis add up. -/
theorem turn_turn (a : Axis) (c : Coordinates) (j k : Int) :
    a.turn (a.turn c j) k = a.turn c (j + k) := by
  cases a <;>
    simp [turn, Coordinates.rotate, Coordinates.triality, Coordinates.twist, Modality.shifted,
      shift_shift]

theorem turn_comm (a b : Axis) (c : Coordinates) (j k : Int) :
    a.turn (b.turn c k) j = b.turn (a.turn c j) k := by
  by_cases hab : a = b
  · subst hab
    rw [turn_turn, turn_turn, Int.add_comm]
  -- different axes move different coordinates
  · cases a <;> cases b <;> first | exact absurd rfl hab | rfl

end Axis

theorem Coordinates.mirror_mirror (c : Coordinates) : c.mirror.mirror = c := by
  obtain ⟨q, d, l⟩ := c
  cases d <;> rfl

/-! ## Moving the blades of a multivector -/

namespace Multivector

variable {m : Multivector}

/-- **Moving the blades permutes the terms.** -/
theorem mapBlades_perm (hm : Table.Ascending m.terms) {f : Blade → Blade}
    (hf : Function.Injective f) :
    (m.mapBlades f).terms.Perm (m.terms.map fun t => (f t.1, t.2)) := by
  -- an injective map keeps the keys different, so no term overwrites another
  have hkeys : Table.keys (m.terms.map fun t => (f t.1, t.2)) = (Table.keys m.terms).map f := by
    simp [Table.keys]
  refine Table.ofList_perm ?_
  rw [hkeys]
  exact hm.nodup_keys.map hf

/-- A multivector with its blades moved has the moved terms. -/
theorem mem_mapBlades (hm : Table.Ascending m.terms) {f : Blade → Blade}
    (hf : Function.Injective f) {t : Blade × Int} :
    t ∈ (m.mapBlades f).terms ↔ ∃ b, (b, t.2) ∈ m.terms ∧ f b = t.1 := by
  rw [(mapBlades_perm hm hf).mem_iff, List.mem_map]
  constructor
  · rintro ⟨⟨b, c⟩, hb, rfl⟩
    exact ⟨b, hb, rfl⟩
  · rintro ⟨b, hb, hft⟩
    exact ⟨(b, t.2), hb, by rw [hft]⟩

theorem ascending_mapBlades (m : Multivector) (f : Blade → Blade) :
    Table.Ascending (m.mapBlades f).terms := Table.ascending_ofList _

/-- Ascending multivectors with the same terms are equal. -/
theorem eq_of_mem_iff {m' : Multivector} (hm : Table.Ascending m.terms)
    (hm' : Table.Ascending m'.terms) (h : ∀ t, t ∈ m.terms ↔ t ∈ m'.terms) : m = m' := by
  obtain ⟨ts⟩ := m
  obtain ⟨ts'⟩ := m'
  exact congrArg Multivector.mk (Table.Ascending.eq_of_mem_iff hm hm' h)

theorem mapBlades_id (hm : Table.Ascending m.terms) : m.mapBlades id = m := by
  refine eq_of_mem_iff (ascending_mapBlades m id) hm fun t => ?_
  rw [mem_mapBlades hm Function.injective_id]
  constructor
  · rintro ⟨b, hb, rfl⟩
    exact hb
  · intro ht
    exact ⟨t.1, ht, rfl⟩

theorem mapBlades_mapBlades (hm : Table.Ascending m.terms) {f g : Blade → Blade}
    (hf : Function.Injective f) (hg : Function.Injective g) :
    (m.mapBlades f).mapBlades g = m.mapBlades (g ∘ f) := by
  refine eq_of_mem_iff (ascending_mapBlades _ g) (ascending_mapBlades m _) fun t => ?_
  rw [mem_mapBlades (ascending_mapBlades m f) hg, mem_mapBlades hm (hg.comp hf)]
  simp only [mem_mapBlades hm hf]
  constructor
  · rintro ⟨b, ⟨b', hb', rfl⟩, hgb⟩
    exact ⟨b', hb', hgb⟩
  · rintro ⟨b', hb', hgf⟩
    exact ⟨f b', ⟨b', hb', rfl⟩, hgf⟩

theorem Canonical.mapBlades (hm : m.Canonical) {f : Blade → Blade} (hf : Function.Injective f) :
    (m.mapBlades f).Canonical := by
  refine ⟨ascending_mapBlades m f, ?_, ?_⟩
  · intro t ht
    obtain ⟨b, hb, -⟩ := (mem_mapBlades hm.ascending hf).mp ht
    exact hm.nonzero (b, t.2) hb
  · intro t ht
    obtain ⟨b, hb, -⟩ := (mem_mapBlades hm.ascending hf).mp ht
    exact hm.inRange (b, t.2) hb

/-- A part of a canonical multivector is canonical. -/
theorem Canonical.gradePart (hm : m.Canonical) (g : Nat) : (m.gradePart g).Canonical :=
  ⟨List.Pairwise.filter _ hm.ascending,
    fun t ht => hm.nonzero t (List.mem_of_mem_filter ht),
    fun t ht => hm.inRange t (List.mem_of_mem_filter ht)⟩

end Multivector

/-! ## The twist of blades -/

namespace Blade

@[simp] theorem slot?_ofSlot (s : Fin 8) : (ofSlot s).slot? = some s := by
  revert s
  decide

theorem ofSlot_of_slot? {b : Blade} {s : Fin 8} (h : b.slot? = some s) : ofSlot s = b := by
  simpa using List.find?_some h

end Blade

namespace Element

theorem twistBlade_congr (b : Blade) {j k : Int} (h : j % (8 : Nat) = k % (8 : Nat)) :
    twistBlade j b = twistBlade k b := by
  unfold twistBlade
  cases b.slot? with
  | none => rfl
  | some s => simp only [shift_congr s h]

theorem twistBlade_zero (b : Blade) : twistBlade 0 b = b := by
  unfold twistBlade
  cases hs : b.slot? with
  | none => rfl
  | some s => simp only [shift_zero, Blade.ofSlot_of_slot? hs]

theorem twistBlade_ofSlot (k : Int) (s : Fin 8) :
    twistBlade k (Blade.ofSlot s) = Blade.ofSlot (shift s k) := by
  simp [twistBlade]

theorem twistBlade_twistBlade (b : Blade) (j k : Int) :
    twistBlade k (twistBlade j b) = twistBlade (j + k) b := by
  cases hs : b.slot? with
  | none => simp only [twistBlade, hs]
  | some s =>
      rw [← Blade.ofSlot_of_slot? hs, twistBlade_ofSlot, twistBlade_ofSlot, twistBlade_ofSlot,
        shift_shift]

theorem twistBlade_injective (k : Int) : Function.Injective (twistBlade k) := by
  have hinv : Function.LeftInverse (twistBlade (-k)) (twistBlade k) := by
    intro b
    rw [twistBlade_twistBlade, Int.add_right_neg, twistBlade_zero]
  exact hinv.injective

end Element

/-! ## Elements -/

namespace Axis

variable {x : Element}

theorem turnElement_congr (a : Axis) (x : Element) {j k : Int}
    (h : j % a.order = k % a.order) : a.turnElement x j = a.turnElement x k := by
  cases a with
  | rotate => simp only [turnElement, Element.rotate, shift_congr x.z4 h]
  | triality => simp only [turnElement, Element.triality, shift_congr x.z3 h]
  | twist =>
      have hblade : Element.twistBlade j = Element.twistBlade k :=
        funext fun b => Element.twistBlade_congr b h
      simp only [turnElement, Element.twist, hblade]

theorem turnElement_zero (a : Axis) (hx : x.Canonical) : a.turnElement x 0 = x := by
  cases a with
  | rotate => simp only [turnElement, Element.rotate, shift_zero]
  | triality => simp only [turnElement, Element.triality, shift_zero]
  | twist =>
      have hid : Element.twistBlade 0 = id := funext Element.twistBlade_zero
      simp only [turnElement, Element.twist, hid, Multivector.mapBlades_id hx.ascending]

/-- Two turns about one axis add up. -/
theorem turnElement_turnElement (a : Axis) (hx : x.Canonical) (j k : Int) :
    a.turnElement (a.turnElement x j) k = a.turnElement x (j + k) := by
  cases a with
  | rotate => simp only [turnElement, Element.rotate, shift_shift]
  | triality => simp only [turnElement, Element.triality, shift_shift]
  | twist =>
      have hcomp : Element.twistBlade k ∘ Element.twistBlade j = Element.twistBlade (j + k) :=
        funext fun b => Element.twistBlade_twistBlade b j k
      simp only [turnElement, Element.twist]
      rw [Multivector.mapBlades_mapBlades hx.ascending (Element.twistBlade_injective j)
        (Element.twistBlade_injective k), hcomp]

theorem turnElement_comm (a b : Axis) (hx : x.Canonical) (j k : Int) :
    a.turnElement (b.turnElement x k) j = b.turnElement (a.turnElement x j) k := by
  by_cases hab : a = b
  · subst hab
    rw [turnElement_turnElement a hx, turnElement_turnElement a hx, Int.add_comm]
  · cases a <;> cases b <;> first | exact absurd rfl hab | rfl

end Axis

theorem Element.Canonical.turnElement {x : Element} (hx : x.Canonical) (a : Axis) (k : Int) :
    (a.turnElement x k).Canonical := by
  cases a with
  | rotate => exact hx
  | triality => exact hx
  | twist => exact Multivector.Canonical.mapBlades hx (Element.twistBlade_injective k)

theorem Element.mirror_mirror (x : Element) : x.mirror.mirror = x := by
  have hneg : ∀ z : Fin 3, - -z = z := by decide
  simp only [Element.mirror, hneg]

/-! ## Transforms -/

namespace Transform

theorem isIdentity_power {a : Axis} {k : Nat} :
    (power a k).isIdentity = true ↔ k % a.order = 0 := by
  simp [isIdentity, exponent, order]

theorem isReduced_power {a : Axis} {k : Nat} : (power a k).isReduced = true ↔ k < a.order :=
  decide_eq_true_iff

theorem reduced_power_eq_ofInt (a : Axis) (k : Nat) : (power a k).reduced = ofInt a k := by
  show power a (k % a.order) = power a ((k : Int) % a.order).toNat
  rw [← Int.natCast_emod, Int.toNat_natCast]

/-- The exponent that `ofInt` keeps has the residue of the one it was given. -/
theorem ofInt_emod (a : Axis) (k : Int) :
    (((k % a.order).toNat : Nat) : Int) % a.order = k % a.order := by
  have hpos : (0 : Int) < a.order := by exact_mod_cast a.order_pos
  rw [Int.toNat_of_nonneg (Int.emod_nonneg k (ne_of_gt hpos)), Int.emod_emod]

theorem act_ofInt (a : Axis) (k : Int) (c : Coordinates) : (ofInt a k).act c = a.turn c k :=
  a.turn_congr c (ofInt_emod a k)

theorem actElement_ofInt (a : Axis) (k : Int) (x : Element) :
    (ofInt a k).actElement x = a.turnElement x k :=
  a.turnElement_congr x (ofInt_emod a k)

end Transform

theorem Element.Canonical.actElement {x : Element} (hx : x.Canonical) (f : Transform) :
    (f.actElement x).Canonical := by
  cases f with
  | power a k => exact hx.turnElement a k
  | mirror => exact hx

end NinetySix
