import NinetySix.Proofs.Backends
import NinetySix.Proofs.Exactness

set_option autoImplicit false

/-! # Elements of rank one

An element has rank one if it is the element of some coordinates (`Element.coordinates?_eq_some_iff`),
and these are then its only ones. So projecting to a class is the exact inverse of lifting: it gives
a class exactly if the element is the lifted class.

The transforms move the elements of rank one as they move coordinates, and they take no other element
to one. The second half holds because every transform has an inverse (`Transform.inverse`): an
element that a transform takes to one of rank one is taken back from there, along coordinates. This
needs a canonical element. A table with a blade in it twice would lose a term to a twist, and what is
left may have rank one.
-/

namespace NinetySix

namespace Element

variable {x : Element}

/-! ## Projecting and lifting -/

theorem slot?_eq_some_iff {s : Fin 8} :
    x.slot? = some s ↔ x.clifford = .term (Blade.ofSlot s) 1 := by
  constructor
  · intro h
    unfold slot? at h
    split at h
    · next b hterms =>
      rw [Blade.ofSlot_of_slot? h]
      exact congrArg Multivector.mk hterms
    · cases h
  · intro h
    unfold slot?
    rw [h]
    exact Blade.slot?_ofSlot s

/-- **Only the elements of coordinates have coordinates**, and they have no others. -/
theorem coordinates?_eq_some_iff {c : Coordinates} : x.coordinates? = some c ↔ x = ofCoordinates c := by
  constructor
  · intro h
    obtain ⟨s, hs, rfl⟩ := Option.map_eq_some_iff.mp h
    show (⟨x.z4, x.z3, x.clifford⟩ : Element) = ⟨x.z4, (Modality.ofFin x.z3).toFin, _⟩
    rw [Modality.toFin_ofFin, slot?_eq_some_iff.mp hs]
  · rintro rfl
    have hslot : (ofCoordinates c).slot? = some c.slot := slot?_eq_some_iff.mpr rfl
    rw [coordinates?, hslot]
    show some (⟨c.quadrant, .ofFin c.modality.toFin, c.slot⟩ : Coordinates) = some c
    rw [Modality.ofFin_toFin]

theorem project?_eq_some_iff {index : Nat} :
    x.project? = some index ↔ ∃ c, x = ofCoordinates c ∧ c.classIndex = index := by
  rw [project?, Option.map_eq_some_iff]
  simp only [coordinates?_eq_some_iff]

theorem lift_eq_ok_iff {index : Nat} :
    lift index = .ok x ↔ index < classCount ∧ x = ofCoordinates (.ofClass index) := by
  unfold lift
  split
  · next hlt => simp [hlt, eq_comm]
  · next hge => simp [hge]

/-- **An element projects to a class exactly if it is the lifted class.** -/
theorem project?_eq_some_iff_lift {index : Nat} :
    x.project? = some index ↔ index < classCount ∧ lift index = .ok x := by
  rw [project?_eq_some_iff, lift_eq_ok_iff]
  constructor
  · rintro ⟨c, rfl, rfl⟩
    rw [Coordinates.ofClass_classIndex]
    exact ⟨c.classIndex_lt, c.classIndex_lt, rfl⟩
  · rintro ⟨-, hlt, rfl⟩
    exact ⟨_, rfl, by rw [Coordinates.classIndex_ofClass, Nat.mod_eq_of_lt hlt]⟩

end Element

/-! ## Transforms -/

namespace Transform

/-- The transform that leads back. -/
def inverse : Transform → Transform
  | .power a k => .ofInt a (-k)
  | .mirror => .mirror

theorem actElement_inverse (f : Transform) {x : Element} (hx : x.Canonical) :
    f.inverse.actElement (f.actElement x) = x := by
  cases f with
  | mirror => exact x.mirror_mirror
  | power a k =>
      show (ofInt a (-k)).actElement (a.turnElement x k) = x
      rw [actElement_ofInt, a.turnElement_turnElement hx, Int.add_right_neg, a.turnElement_zero hx]

/-- A transform takes no element to one of rank one but those that have it. -/
theorem eq_ofCoordinates_of_actElement {f : Transform} {x : Element} {c : Coordinates}
    (hx : x.Canonical) (h : f.actElement x = .ofCoordinates c) :
    x = .ofCoordinates (f.inverse.act c) := by
  rw [← f.actElement_inverse hx, h, actElement_ofCoordinates]

/-- **Projecting commutes with the transforms.** -/
theorem project?_actElement (f : Transform) {x : Element} (hx : x.Canonical) :
    (f.actElement x).project? = x.project?.map f.actClass := by
  cases hcoord : x.coordinates? with
  | some c =>
      rw [Element.coordinates?_eq_some_iff.mp hcoord, f.actElement_ofCoordinates,
        Element.project?_ofCoordinates, Element.project?_ofCoordinates, Option.map_some, actClass,
        Coordinates.ofClass_classIndex]
  | none =>
      have hmoved : (f.actElement x).coordinates? = none := by
        by_contra hne
        obtain ⟨c, hc⟩ := Option.ne_none_iff_exists'.mp hne
        have hx' := eq_ofCoordinates_of_actElement hx (Element.coordinates?_eq_some_iff.mp hc)
        rw [Element.coordinates?_eq_some_iff.mpr hx'] at hcoord
        cases hcoord
      rw [Element.project?, Element.project?, hmoved, hcoord]
      rfl

-- without a canonical element the law fails: the second of two equal blades overwrites the first
example : let x : Element := ⟨0, 0, ⟨[(1#7, 1), (1#7, 1)]⟩⟩
    x.project? = none ∧ (x.twist 1).project? = some 2 := by decide

end Transform

/-- **Projecting inverts lifting and commutes with every transform.** An element projects to a class
exactly if it is that class lifted. An element that is moved by a transform projects to the class
that the transform makes of its own, and to none if it had none. -/
theorem project_inverts_lift {x : Element} (hx : x.Canonical) :
    (∀ c, x.project? = some c ↔ c ≤ 95 ∧ Element.lift c = .ok x) ∧
    ∀ f : Transform, (f.actElement x).project? = x.project?.map f.actClass := by
  refine ⟨fun c => ?_, fun f => f.project?_actElement hx⟩
  rw [Element.project?_eq_some_iff_lift, classCount, Nat.lt_succ_iff]

/-- The class 83, which a twist by 255 takes to the class 82; and an element with two terms, which
stays composite. -/
theorem project_inverts_lift_twisted :
    let x : Element := ⟨3, 1, .term 4#7 1⟩
    let composite : Element := ⟨3, 1, ⟨[(0#7, 1), (64#7, -1)]⟩⟩
    x.Canonical ∧ composite.Canonical ∧ x.project? = some 83 ∧
    (x.twist 255).project? = some 82 ∧ x.mirror.project? = some 91 ∧
    (composite.twist 1).project? = none := by
  intro x composite
  have hx : x.Canonical := by decide
  have hcomposite : composite.Canonical := by decide
  obtain ⟨hproject, hmove⟩ := project_inverts_lift hx
  have hclass : x.project? = some 83 := (hproject 83).mpr ⟨by decide, rfl⟩
  refine ⟨hx, hcomposite, hclass, ?_, ?_, ?_⟩
  · exact (hmove (.power .twist 255)).trans (by rw [hclass]; rfl)
  · exact (hmove .mirror).trans (by rw [hclass]; rfl)
  · exact (project_inverts_lift hcomposite).2 (.power .twist 1)

end NinetySix
