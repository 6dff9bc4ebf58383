import NinetySix.Proofs.Involutions
import NinetySix.Proofs.RankOne

set_option autoImplicit false

/-! # Whatever the operations make is canonical

Equality of elements, their rank and their class are all read off the stored terms, so they are
right only as long as every operation stores terms in the same way: blades ascending and each once,
no coefficient zero. Here the operations work on a `Workbench`, on which the multivectors and the
elements lie that have been made so far. An operation reads some of them and adds its result; only
accumulation changes a multivector where it lies (`Multivector.accumulateInPlace`). An operation
that fails adds nothing.

One operation keeps the bench canonical (`Workbench.Canonical.step`), and so does every sequence of
them from an empty bench (`Workbench.canonical_run`).

Two facts make the form useful. The coefficients and the residues determine a canonical element, and
so what terms accumulate to does not depend on their order (`Multivector.accumulateAll_perm`).
-/

namespace NinetySix

/-! ## Multivectors -/

namespace Multivector

variable {m m' : Multivector} {b : Blade} {c : Int}

theorem canonical_term (b : Blade) (hc : InRange c) : (term b c).Canonical := by
  unfold term
  split
  · exact canonical_zero
  · next hne => exact ⟨List.pairwise_singleton _ _, by simpa using hne, by simpa using hc⟩

/-- Writes a coefficient where the multivector lies, after checking it. -/
def writeChecked (b : Blade) (sum : Int) : ExceptT AlgebraError (StateM Multivector) Unit := do
  -- the check comes first, so a sum without room is never written
  let sum ← checked sum
  modify fun m => m.setCoeff b sum

/-- Adds a term where the multivector lies. -/
def accumulateInPlace (b : Blade) (c : Int) : ExceptT AlgebraError (StateM Multivector) Unit := do
  if c = 0 then return
  writeChecked b ((← get).coeff b + c)

/-- The coefficient that is read is that of the multivector from which the run starts. -/
theorem accumulateInPlace_run (hc : c ≠ 0) (m : Multivector) :
    (accumulateInPlace b c).run.run m = (writeChecked b (m.coeff b + c)).run.run m := by
  rw [accumulateInPlace, if_neg hc]
  rfl

/-- **Accumulation in place** ends with the sum, or it fails and leaves the multivector as it was. -/
theorem accumulateInPlace_cases (m : Multivector) (b : Blade) (c : Int) :
    (∃ m', m.accumulate b c = .ok m' ∧ (accumulateInPlace b c).run.run m = (.ok (), m')) ∨
    (∃ e, m.accumulate b c = .error e ∧ (accumulateInPlace b c).run.run m = (.error e, m)) := by
  unfold accumulate
  by_cases hc : c = 0
  · rw [if_pos hc, accumulateInPlace, if_pos hc]
    exact .inl ⟨m, rfl, rfl⟩
  · rw [if_neg hc, accumulateInPlace_run hc, writeChecked]
    by_cases hrange : InRange (m.coeff b + c)
    · rw [checked_of_inRange hrange]
      exact .inl ⟨m.setCoeff b (m.coeff b + c), rfl, rfl⟩
    · rw [checked_of_not_inRange hrange]
      exact .inr ⟨.coefficientOverflow, rfl, rfl⟩

theorem Canonical.accumulateInPlace (hm : m.Canonical) (b : Blade) (c : Int) :
    ((accumulateInPlace b c).run.run m).2.Canonical := by
  rcases accumulateInPlace_cases m b c with ⟨m', hsum, hrun⟩ | ⟨e, -, hrun⟩
  · rw [hrun]
    exact ((hm.accumulate_computes b c).of_ok hsum).1
  · rw [hrun]
    exact hm

/-- **The order in which terms are accumulated does not matter**, as long as both orders succeed. -/
theorem accumulateAll_perm {ts us : List (Blade × Int)} (h : ts.Perm us)
    (hm : zero.accumulateAll ts = .ok m) (hm' : zero.accumulateAll us = .ok m') : m = m' := by
  -- both runs compute the exact sum of their terms, and that does not depend on the order
  have hrun (ts : List (Blade × Int)) := canonical_zero.foldlM_computes
    (fun hm t => hm.accumulate_computes t.1 t.2) ts
  obtain ⟨canonical, heq⟩ := (hrun ts).of_ok hm
  obtain ⟨canonical', heq'⟩ := (hrun us).of_ok hm'
  refine canonical.eq_of_exact canonical' ?_
  rw [heq, heq', (h.map fun t : Blade × Int => Clifford.single t.1 t.2).sum_eq]

end Multivector

/-! ## Operations -/

/-- The operations on two operands. -/
inductive Combination where
  | sum
  | product
  | cross
  deriving DecidableEq, Repr

namespace Combination

def ofMultivectors : Combination → Multivector → Multivector → Except AlgebraError Multivector
  | .sum => Multivector.add
  | .product => Multivector.mul
  | .cross => Multivector.cross

def ofElements : Combination → Element → Element → Except AlgebraError Element
  | .sum => Element.add
  | .product => Element.mul
  | .cross => Element.cross

theorem canonical_ofMultivectors (op : Combination) {x y m : Multivector} (hx : x.Canonical)
    (hy : y.Canonical) (h : op.ofMultivectors x y = .ok m) : m.Canonical := by
  cases op with
  | sum => exact ((hx.add_computes hy).of_ok h).1
  | product => exact ((hx.mul_computes hy).of_ok h).1
  | cross => exact ((hx.cross_computes hy).of_ok h).1

/-- On elements the residues are added, and the rest is done by the multivectors. -/
theorem ofElements_eq_ok (op : Combination) {x y u : Element} : op.ofElements x y = .ok u ↔
    op.ofMultivectors x.clifford y.clifford = .ok u.clifford ∧
      x.z4 + y.z4 = u.z4 ∧ x.z3 + y.z3 = u.z3 := by
  cases op with
  | sum => exact Element.assembled_eq_ok
  | product => exact Element.assembled_eq_ok
  | cross => exact Element.assembled_eq_ok

end Combination

/-- The operations on one element. -/
inductive Change where
  | scale (k : Int)
  | pow (n : Int)
  | involution (f : Involution)
  | turn (a : Axis) (k : Int)
  | mirror
  | gradePart (g : Nat)
  deriving DecidableEq, Repr

def Change.apply : Change → Element → Except AlgebraError Element
  | .scale k, x => x.scale k
  | .pow n, x => x.pow n
  | .involution f, x => f.apply x
  | .turn a k, x => .ok (a.turnElement x k)
  | .mirror, x => .ok x.mirror
  | .gradePart g, x => .ok (x.gradePart g)

theorem Change.canonical_apply (op : Change) {x y : Element} (hx : x.Canonical)
    (h : op.apply x = .ok y) : y.Canonical := by
  cases op with
  | scale k =>
      have hscaled := (Element.assembled_eq_ok.mp h).1
      exact ((Multivector.Canonical.scale_computes hx k).of_ok hscaled).1
  | pow n =>
      -- a negative exponent is refused, so there is nothing to show for it
      by_cases hn : n < 0
      · rw [Change.apply, Element.pow, if_pos hn] at h
        cases h
      · exact ((hx.pow_computes (not_lt.mp hn)).of_ok h).1
  | involution f => exact (Involution.exact_of_apply hx h).1
  | turn a k =>
      cases h
      exact hx.turnElement a k
  | mirror =>
      cases h
      exact hx
  | gradePart g =>
      cases h
      exact Multivector.Canonical.gradePart hx g

/-- An integer of 64 bits. -/
abbrev Word := { n : Int // InRange n }

/-- The operations on a workbench. Operands are given by their places. -/
inductive Operation where
  -- multivectors
  | zero
  | term (b : Blade) (c : Word)
  | scalar (c : Word)
  | accumulate (target : Nat) (b : Blade) (c : Int)
  | combine (op : Combination) (left right : Nat)
  | scale (source : Nat) (k : Int)
  | gradePart (source : Nat) (g : Nat)
  -- from elements to multivectors, and back
  | part (source : Nat)
  | make (z4 z3 : Int) (source : Nat)
  -- elements
  | zeroElement
  | identity
  | lift (index : Nat)
  | combineElements (op : Combination) (left right : Nat)
  | change (op : Change) (source : Nat)
  deriving DecidableEq, Repr

/-! ## The workbench -/

/-- What has been made so far. -/
structure Workbench where
  multivectors : List Multivector
  elements : List Element
  deriving DecidableEq, Repr

namespace Workbench

def empty : Workbench := ⟨[], []⟩

/-- The multivector at a place. A place where nothing lies reads as zero. -/
def multivector (w : Workbench) (place : Nat) : Multivector := w.multivectors.getD place .zero

/-- The element at a place. -/
def element (w : Workbench) (place : Nat) : Element := w.elements.getD place .zero

def putMultivector (w : Workbench) (m : Multivector) : Workbench :=
  { w with multivectors := w.multivectors ++ [m] }

def putElement (w : Workbench) (x : Element) : Workbench :=
  { w with elements := w.elements ++ [x] }

/-- Puts down the result of an operation that may fail. -/
def keep {ε α : Type} (w : Workbench) (put : Workbench → α → Workbench) : Except ε α → Workbench
  | .ok a => put w a
  | .error _ => w

/-- One operation. -/
def step (w : Workbench) : Operation → Workbench
  | .zero => w.putMultivector .zero
  | .term b c => w.putMultivector (.term b c)
  | .scalar c => w.putMultivector (.scalar c)
  | .accumulate target b c =>
    { w with multivectors := w.multivectors.modify target fun m =>
        ((Multivector.accumulateInPlace b c).run.run m).2 }
  | .combine op left right =>
    w.keep putMultivector (op.ofMultivectors (w.multivector left) (w.multivector right))
  | .scale source k => w.keep putMultivector ((w.multivector source).scale k)
  | .gradePart source g => w.putMultivector ((w.multivector source).gradePart g)
  | .part source => w.putMultivector (w.element source).clifford
  | .make z4 z3 source => w.putElement (.make z4 z3 (w.multivector source))
  | .zeroElement => w.putElement .zero
  | .identity => w.putElement .identity
  | .lift index => w.keep putElement (Element.lift index)
  | .combineElements op left right =>
    w.keep putElement (op.ofElements (w.element left) (w.element right))
  | .change op source => w.keep putElement (op.apply (w.element source))

/-- A sequence of operations from a bench on which something may lie already. -/
def runFrom (w : Workbench) (ops : List Operation) : Workbench := ops.foldl step w

/-- A sequence of operations from an empty bench. -/
def run (ops : List Operation) : Workbench := runFrom empty ops

/-- Everything on the bench is canonical. -/
structure Canonical (w : Workbench) : Prop where
  multivectors : ∀ m ∈ w.multivectors, m.Canonical
  elements : ∀ x ∈ w.elements, x.Canonical

variable {w : Workbench}

theorem canonical_empty : empty.Canonical := ⟨by simp [empty], by simp [empty]⟩

theorem forall_getD {α : Type} {P : α → Prop} {l : List α} {a : α} (hl : ∀ a ∈ l, P a) (ha : P a)
    (i : Nat) : P (l.getD i a) := by
  rw [List.getD_eq_getElem?_getD]
  cases h : l[i]? with
  | none => exact ha
  | some b => exact hl b (List.mem_of_getElem? h)

theorem forall_mem_modify {α : Type} {P : α → Prop} {l : List α} {f : α → α} (hl : ∀ a ∈ l, P a)
    (hf : ∀ a, P a → P (f a)) (i : Nat) : ∀ a ∈ l.modify i f, P a := by
  intro a ha
  obtain ⟨j, hj⟩ := List.mem_iff_getElem?.mp ha
  rw [List.getElem?_modify] at hj
  obtain ⟨b, hb, rfl⟩ := Option.map_eq_some_iff.mp hj
  have hP : P b := hl b (List.mem_of_getElem? hb)
  split
  · exact hf b hP
  · exact hP

theorem Canonical.multivector (hw : w.Canonical) (place : Nat) :
    (w.multivector place).Canonical :=
  forall_getD hw.multivectors Multivector.canonical_zero place

theorem Canonical.element (hw : w.Canonical) (place : Nat) : (w.element place).Canonical :=
  forall_getD hw.elements (a := Element.zero) Multivector.canonical_zero place

theorem Canonical.putMultivector (hw : w.Canonical) {m : Multivector} (hm : m.Canonical) :
    (w.putMultivector m).Canonical :=
  ⟨List.forall_mem_append.mpr ⟨hw.multivectors, by simpa using hm⟩, hw.elements⟩

theorem Canonical.putElement (hw : w.Canonical) {x : Element} (hx : x.Canonical) :
    (w.putElement x).Canonical :=
  ⟨hw.multivectors, List.forall_mem_append.mpr ⟨hw.elements, by simpa using hx⟩⟩

theorem Canonical.keep {ε α : Type} (hw : w.Canonical) {put : Workbench → α → Workbench}
    {result : Except ε α} (h : ∀ a, result = .ok a → (put w a).Canonical) :
    (w.keep put result).Canonical := by
  cases result with
  | ok a => exact h a rfl
  | error e => exact hw

/-- **One operation keeps everything canonical.** -/
theorem Canonical.step (hw : w.Canonical) (op : Operation) : (w.step op).Canonical := by
  cases op with
  | zero => exact hw.putMultivector Multivector.canonical_zero
  | term b c => exact hw.putMultivector (Multivector.canonical_term b c.property)
  | scalar c => exact hw.putMultivector (Multivector.canonical_term _ c.property)
  | accumulate target b c =>
      have hkeep (m : Multivector) (hm : m.Canonical) := hm.accumulateInPlace b c
      exact ⟨forall_mem_modify hw.multivectors hkeep target, hw.elements⟩
  | combine op left right =>
      exact hw.keep fun m h => hw.putMultivector
        (op.canonical_ofMultivectors (hw.multivector left) (hw.multivector right) h)
  | scale source k =>
      exact hw.keep fun m h => hw.putMultivector
        (((hw.multivector source).scale_computes k).of_ok h).1
  | gradePart source g => exact hw.putMultivector ((hw.multivector source).gradePart g)
  | part source => exact hw.putMultivector (hw.element source)
  | make z4 z3 source => exact hw.putElement (hw.multivector source)
  | zeroElement => exact hw.putElement Multivector.canonical_zero
  | identity => exact hw.putElement Element.canonical_identity
  | lift index =>
      refine hw.keep fun x h => hw.putElement ?_
      obtain ⟨-, rfl⟩ := Element.lift_eq_ok_iff.mp h
      exact Element.canonical_ofCoordinates _
  | combineElements op left right =>
      refine hw.keep fun x h => hw.putElement ?_
      exact op.canonical_ofMultivectors (hw.element left) (hw.element right)
        (op.ofElements_eq_ok.mp h).1
  | change op source =>
      exact hw.keep fun x h => hw.putElement (op.canonical_apply (hw.element source) h)

theorem Canonical.runFrom (hw : w.Canonical) (ops : List Operation) :
    (w.runFrom ops).Canonical := by
  induction ops generalizing w with
  | nil => exact hw
  | cons op ops ih => exact ih (hw.step op)

/-- **Whatever a sequence of operations makes is canonical.** -/
theorem canonical_run (ops : List Operation) : (run ops).Canonical := canonical_empty.runFrom ops

end Workbench

/-- The terms are stored under seven bits, ascending and each once, none of them with the coefficient
zero. -/
structure Multivector.Stored (m : Multivector) : Prop extends m.Canonical where
  sevenBits : ∀ b ∈ Table.keys m.terms, b.toNat < 128
  once : (Table.keys m.terms).Nodup

theorem Multivector.Canonical.stored {m : Multivector} (hm : m.Canonical) : m.Stored :=
  ⟨hm, fun b _ => b.isLt, hm.ascending.nodup_keys⟩

/-- **Elements stay canonical under every operation.** Whatever a sequence of operations makes has
its residues in range and its terms stored in the one way. Accumulation in place does what
accumulation does, and it leaves the multivector as it was when it fails. Canonical elements with
the same residues and the same coefficients are equal. The order in which terms are accumulated does
not matter, as long as both orders succeed. -/
theorem operations_keep_canonical :
    (∀ ops : List Operation,
      (∀ m ∈ (Workbench.run ops).multivectors, m.Stored) ∧
      ∀ x ∈ (Workbench.run ops).elements, x.z4.val < 4 ∧ x.z3.val < 3 ∧ x.clifford.Stored) ∧
    (∀ (m : Multivector) (b : Blade) (c : Int),
      (∃ m', m.accumulate b c = .ok m' ∧
        (Multivector.accumulateInPlace b c).run.run m = (.ok (), m')) ∨
      (∃ e, m.accumulate b c = .error e ∧
        (Multivector.accumulateInPlace b c).run.run m = (.error e, m))) ∧
    (∀ x y : Element, x.Canonical → y.Canonical → x.z4 = y.z4 → x.z3 = y.z3 →
      (∀ b, x.clifford.coeff b = y.clifford.coeff b) → x = y) ∧
    ∀ (ts us : List (Blade × Int)) (m m' : Multivector), ts.Perm us →
      Multivector.zero.accumulateAll ts = .ok m → Multivector.zero.accumulateAll us = .ok m' →
      m = m' := by
  refine ⟨fun ops => ⟨?_, ?_⟩, Multivector.accumulateInPlace_cases, ?_, ?_⟩
  · intro m hm
    exact ((Workbench.canonical_run ops).multivectors m hm).stored
  · intro x hx
    exact ⟨x.z4.isLt, x.z3.isLt, ((Workbench.canonical_run ops).elements x hx).stored⟩
  · intro x y hx hy h4 h3 hcoeff
    have hclifford : x.clifford.exact = y.clifford.exact := funext hcoeff
    refine hx.eq_of_exact hy ?_
    rw [Element.exact, Element.exact, h4, h3, hclifford]
  · intro ts us m m' hperm hm hm'
    exact Multivector.accumulateAll_perm hperm hm hm'

/-- The largest coefficient, with an accumulation that has no room, and a pair of accumulations that
cancel; then an element with two terms, multiplied by a class and twisted. -/
def busyBench : List Operation :=
  [.term 1#7 ⟨0x7FFFFFFFFFFFFFFF, by decide⟩,
    .accumulate 0 1#7 1,
    .accumulate 0 2#7 5,
    .accumulate 0 2#7 (-5),
    .scalar ⟨2, by decide⟩,
    .accumulate 1 4#7 (-3),
    .make (-1) 4 1,
    .lift 37,
    .combineElements .product 0 1,
    .change (.turn .twist 3) 2]

/-- A term with the largest coefficient. -/
def fullTerm : Multivector := .term 1#7 0x7FFFFFFFFFFFFFFF

/-- The bench ends with a sum of a scalar and a blade of two generators. The accumulation without room
fails where it stands, eight twists make no difference, and three terms can be accumulated from
either end, but not with the one in the middle last. -/
theorem operations_keep_canonical_busyBench :
    (∃ x ∈ (Workbench.run busyBench).elements,
      x.clifford.terms = [(Blade.scalar, 2), (20#7, -3)] ∧ x.clifford.Stored) ∧
    (Multivector.accumulateInPlace 1#7 1).run.run fullTerm
      = (.error .coefficientOverflow, fullTerm) ∧
    Element.identity.twist 8 = Element.identity ∧
    (∃ m, Multivector.zero.accumulateAll
        [(1#7, 0x7FFFFFFFFFFFFFFF), (1#7, -1), (1#7, 1)] = .ok m ∧
      Multivector.zero.accumulateAll
        [(1#7, 1), (1#7, -1), (1#7, 0x7FFFFFFFFFFFFFFF)] = .ok m) ∧
    Multivector.zero.accumulateAll
        [(1#7, 0x7FFFFFFFFFFFFFFF), (1#7, 1), (1#7, -1)]
      = .error .coefficientOverflow := by
  obtain ⟨hrun, hplace, hequal, hperm⟩ := operations_keep_canonical
  refine ⟨?_, ?_, ?_, ?_, by decide +kernel⟩
  · have hmem : (⟨0, 2, ⟨[(Blade.scalar, 2), (20#7, -3)]⟩⟩ : Element)
        ∈ (Workbench.run busyBench).elements := by
      decide +kernel
    obtain ⟨-, -, hstored⟩ := (hrun busyBench).2 _ hmem
    exact ⟨_, hmem, rfl, hstored⟩
  · have hfull : fullTerm.accumulate 1#7 1 = .error .coefficientOverflow := by
      decide +kernel
    rcases hplace fullTerm 1#7 1 with ⟨m', hok, -⟩ | ⟨e, herror, hsame⟩
    · rw [hfull] at hok
      cases hok
    · rw [hfull] at herror
      cases herror
      exact hsame
  · exact hequal _ _ (by decide +kernel) (by decide +kernel) rfl rfl (by decide +kernel)
  · obtain ⟨m, hm⟩ : ∃ m, Multivector.zero.accumulateAll
        [(1#7, 0x7FFFFFFFFFFFFFFF), (1#7, -1), (1#7, 1)] = .ok m :=
      ⟨fullTerm, by decide +kernel⟩
    obtain ⟨m', hm'⟩ : ∃ m, Multivector.zero.accumulateAll
        [(1#7, 1), (1#7, -1), (1#7, 0x7FFFFFFFFFFFFFFF)] = .ok m :=
      ⟨fullTerm, by decide +kernel⟩
    have hsame : m = m' := hperm _ _ m m' (by decide) hm hm'
    exact ⟨m, hm, hsame ▸ hm'⟩

end NinetySix
