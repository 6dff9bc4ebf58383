import NinetySix.Error

set_option autoImplicit false

/-! # Class coordinates

There are 96 classes. The class with coordinates `(q, d, l)` in `Z4 × Z3 × Z8` has the index
`24 q + 8 d + l`; `q` is its quadrant, `d` its modality and `l` its slot. `Coordinates.classIndex`
and `Coordinates.ofClass` are the two directions of this numbering.

A byte names a class through seven of its bits (`Coordinates.ofByte`); every class has one canonical
byte (`Coordinates.toByte`), and two bytes are equivalent when they name the same class.

Rotation, triality and twist add to one coordinate each, and the mirror negates the modality.
-/

namespace NinetySix

/-! ## Residues -/

theorem toNat_emod_lt {n : Nat} (hn : 0 < n) (k : Int) : (k % n).toNat < n := by
  have hlt := Int.emod_lt_of_pos k (Int.natCast_pos.mpr hn)
  omega

/-- A residue moved on by an integer. -/
def shift {n : Nat} (x : Fin n) (k : Int) : Fin n :=
  ⟨((x.val + k) % n).toNat, toNat_emod_lt x.pos (x.val + k)⟩

/-- The residue of an integer, never negative. -/
def residue {n : Nat} (k : Int) : Fin (n + 1) := shift 0 k

/-! ## Modalities -/

inductive Modality where
  | neutral
  | produce
  | consume
  deriving DecidableEq, Repr

namespace Modality

def toFin : Modality → Fin 3
  | .neutral => 0
  | .produce => 1
  | .consume => 2

def ofFin : Fin 3 → Modality
  | 0 => .neutral
  | 1 => .produce
  | 2 => .consume

@[simp] theorem ofFin_toFin (d : Modality) : ofFin d.toFin = d := by cases d <;> rfl

@[simp] theorem toFin_ofFin (x : Fin 3) : (ofFin x).toFin = x := by
  match x with
  | 0 => rfl
  | 1 => rfl
  | 2 => rfl

/-- The modality with the given number. -/
def ofNat? (n : Nat) : Option Modality := if h : n < 3 then some (ofFin ⟨n, h⟩) else none

/-- The modality of an integer modulo three. -/
def ofResidue (k : Int) : Modality := ofFin (residue k)

/-- The modality `k` steps on. -/
def shifted (d : Modality) (k : Int) : Modality := ofFin (shift d.toFin k)

/-- The negative modulo three: produce and consume change places. -/
def mirrored : Modality → Modality
  | .neutral => .neutral
  | .produce => .consume
  | .consume => .produce

def name : Modality → String
  | .neutral => "Neutral"
  | .produce => "Produce"
  | .consume => "Consume"

end Modality

/-! ## Coordinates -/

/-- The number of classes. -/
def classCount : Nat := 96

structure Coordinates where
  quadrant : Fin 4
  modality : Modality
  slot : Fin 8
  deriving DecidableEq, Repr

namespace Coordinates

/-- Coordinates from plain numbers; the quadrant is checked before the slot. -/
def make (quadrant : Nat) (modality : Modality) (slot : Nat) :
    Except ConstructionError Coordinates :=
  if hq : quadrant < 4 then
    if hl : slot < 8 then .ok ⟨⟨quadrant, hq⟩, modality, ⟨slot, hl⟩⟩
    else .error (.invalidField "l" s!"must be 0..7, got {slot}")
  else .error (.invalidField "h2" s!"must be 0..3, got {quadrant}")

/-- The index of the class. -/
def classIndex (c : Coordinates) : Nat := 24 * c.quadrant + 8 * c.modality.toFin + c.slot

/-- The coordinates of a class; indices count modulo 96. -/
def ofClass (index : Nat) : Coordinates where
  quadrant := Fin.ofNat 4 (index / 24)
  modality := .ofFin (Fin.ofNat 3 (index / 8))
  slot := Fin.ofNat 8 index

theorem classIndex_lt (c : Coordinates) : c.classIndex < classCount := by
  have hd := c.modality.toFin.isLt
  simp only [classIndex, classCount]
  omega

/-- The index determines the coordinates. -/
theorem ofClass_classIndex (c : Coordinates) : ofClass c.classIndex = c := by
  obtain ⟨q, d, l⟩ := c
  have hd := d.toFin.isLt
  simp only [ofClass, classIndex, Coordinates.mk.injEq]
  refine ⟨Fin.ext ?_, ?_, Fin.ext ?_⟩
  · simp only [Fin.ofNat]
    omega
  · have h : Fin.ofNat 3 ((24 * q.val + 8 * d.toFin.val + l.val) / 8) = d.toFin := by
      apply Fin.ext
      simp only [Fin.ofNat]
      omega
    rw [h, Modality.ofFin_toFin]
  · simp only [Fin.ofNat]
    omega

/-- The coordinates of an index give it back, up to multiples of 96. -/
theorem classIndex_ofClass (index : Nat) : (ofClass index).classIndex = index % classCount := by
  simp only [ofClass, classIndex, classCount, Modality.toFin_ofFin, Fin.ofNat]
  omega

def text (c : Coordinates) : String :=
  s!"(h2={c.quadrant.val}, d={c.modality.toFin.val}, l={c.slot.val})"

/-! ### Bytes -/

/-- The bits 7 and 6 are the quadrant and the bits 3 to 1 the slot. Bit 4 alone is the modality
produce, bit 5 alone consume; bit 0 does not count. -/
def ofByte (byte : UInt8) : Coordinates where
  quadrant := Fin.ofNat 4 (byte.toNat / 64)
  modality := match byte.toNat.testBit 4, byte.toNat.testBit 5 with
    | true, false => .produce
    | false, true => .consume
    | _, _ => .neutral
  slot := Fin.ofNat 8 (byte.toNat / 2)

/-- The canonical byte: bit 0 is clear, and a neutral modality has bits 4 and 5 clear. -/
def toByte (c : Coordinates) : Nat := 64 * c.quadrant + 16 * c.modality.toFin + 2 * c.slot

/-! ### Moves -/

def rotate (c : Coordinates) (k : Int) : Coordinates := { c with quadrant := shift c.quadrant k }

def triality (c : Coordinates) (k : Int) : Coordinates := { c with modality := c.modality.shifted k }

def twist (c : Coordinates) (k : Int) : Coordinates := { c with slot := shift c.slot k }

def mirror (c : Coordinates) : Coordinates := { c with modality := c.modality.mirrored }

end Coordinates

/-! ## Class indices and bytes -/

/-- The class index that an integer gives, if it is one. -/
def checkedClass (n : Int) : Except ConstructionError Nat :=
  if 0 ≤ n ∧ n < classCount then .ok n.toNat else .error (.invalidClass n)

/-- The class that a byte names. -/
def classOfByte (byte : UInt8) : Nat := (Coordinates.ofByte byte).classIndex

/-- The two bytes name the same class. -/
def equivalent (a b : UInt8) : Bool := classOfByte a == classOfByte b

/-- All bytes, ascending. -/
def allBytes : List UInt8 := (List.range 256).map UInt8.ofNat

/-- The bytes that name a class, ascending. -/
def bytesOfClass (index : Nat) : List UInt8 := allBytes.filter fun b => classOfByte b == index

/-- Every class with its canonical byte. -/
def allClasses : List (Nat × Nat) :=
  (List.range classCount).map fun c => (c, (Coordinates.ofClass c).toByte)

end NinetySix
