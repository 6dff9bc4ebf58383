import NinetySix.Proofs.Backends

set_option autoImplicit false

/-! # Chains of ring operations

A chain of ring operations takes its first left operand from what stands before it: a literal, a
loaded parameter or, without either, the parameter `a`. After each operation the value is reduced
modulo 96, and the next operation starts from the residue. `ring_chain_exact` says that nothing is
lost by this: the value at the end is the residue of the exact result, computed over the integers
without any reduction in between. The overflow flag of the last operation does depend on the
reductions, since it looks at the residue before it, and on the parameter itself if it is the first
operation.

On plans without elements the element backend is the class backend with its registers in cells
(`Reaches.step`), and so both backends are treated at once.
-/

namespace NinetySix

/-! ## Numeric plans on both backends -/

namespace ClassOp

/-- The instruction deals with numbers only, on either backend. -/
def isNumeric : ClassOp → Bool
  | .lift _ => false
  | .toClass => false
  | _ => true

end ClassOp

/-- After the instructions, both backends hold the same register, or none. -/
structure Reaches (p : Params) (ops : List ClassOp) (state : Option Register) : Prop where
  byClass : ClassOp.runFrom p none ops = .ok state
  byElement : ∀ rest, ElementOp.runFrom p none (ops.map .core ++ rest) =
    ElementOp.runFrom p (state.map .number) rest

variable {p : Params} {op : ClassOp} {ops : List ClassOp} {state state' : Option Register}

theorem matches_number (state : Option Register) :
    Option.Rel Matches state (state.map .number) := by
  cases state with
  | none => exact .none
  | some r => exact .some (.number r)

/-- A left operand that the class backend finds, the element backend finds too. -/
theorem ElementOp.leftValue_number {left : Int} (h : ClassOp.leftValue p state = .ok left) :
    leftValue p (state.map .number) = .ok left := by
  have hsim := leftValue_simulates (p := p) (matches_number state)
  rw [h] at hsim
  obtain ⟨_, hleft, rfl⟩ := hsim.exists_of_ok
  exact hleft

/-- The element backend does with a number what the class backend does. -/
theorem ElementOp.step_core (hop : op.isNumeric = true) (h : ClassOp.step p state op = .ok state') :
    step p (state.map .number) (.core op) = .ok (.state (state'.map .number)) := by
  cases op with
  | literal c =>
      cases h
      rfl
  | load name =>
      obtain ⟨n, hn, h⟩ := bind_eq_ok.mp h
      cases h
      have hload := p.int_simulates_load name
      rw [hn] at hload
      obtain ⟨cell, hcell, rfl⟩ := hload.exists_of_ok
      exact bind_eq_ok.mpr ⟨_, hcell, rfl⟩
  | ring kind mode =>
      obtain ⟨left, hleft, h⟩ := bind_eq_ok.mp h
      obtain ⟨right, hright, h⟩ := bind_eq_ok.mp h
      cases h
      have hsim := p.int_simulates_operand rightOperand
      rw [hright] at hsim
      obtain ⟨_, hright', rfl⟩ := hsim.exists_of_ok
      exact bind_eq_ok.mpr ⟨_, leftValue_number hleft, bind_eq_ok.mpr ⟨_, hright', rfl⟩⟩
  | transform f =>
      cases h
      cases state <;> rfl
  | lift c => cases hop
  | toClass => cases hop

namespace Reaches

theorem nil (p : Params) : Reaches p [] none := ⟨rfl, fun _ => rfl⟩

/-- **One more instruction on both backends.** -/
theorem step (h : Reaches p ops state) (hop : op.isNumeric = true)
    (hstep : ClassOp.step p state op = .ok state') : Reaches p (ops ++ [op]) state' where
  byClass := by
    rw [ClassOp.runFrom_append, h.byClass]
    exact bind_eq_ok.mpr ⟨state, rfl, bind_eq_ok.mpr ⟨state', hstep, rfl⟩⟩
  byElement rest := by
    rw [List.map_append, List.append_assoc, h.byElement]
    show ElementOp.runFrom p (state.map .number) (.core op :: rest) = _
    rw [ElementOp.runFrom, ElementOp.step_core hop hstep]
    rfl

/-- Both backends end with the outcome of the register. -/
theorem outcome {r : Register} (h : Reaches p ops (some r)) :
    ClassOp.run ops p = .ok r.outcome ∧ ElementOp.run (ops.map .core) p = .ok r.outcome := by
  constructor
  · rw [ClassOp.run_eq, h.byClass]
    rfl
  · have hrun := h.byElement []
    rw [List.append_nil] at hrun
    exact hrun

end Reaches

/-! ## Exact results -/

/-- A ring operation with what it does about its overflow. -/
structure RingStep where
  op : RingOp
  mode : OverflowMode
  deriving DecidableEq, Repr

namespace RingStep

def instruction (s : RingStep) : ClassOp := .ring s.op s.mode

/-- The exact result of a chain over the integers, from the left. -/
def exact (right : Int) : Int → List RingStep → Int
  | left, [] => left
  | left, ⟨.add, _⟩ :: rest => exact right (left + right) rest
  | left, ⟨.sub, _⟩ :: rest => exact right (left - right) rest
  | left, ⟨.mul, _⟩ :: rest => exact right (left * right) rest

theorem exact_cons (right left : Int) (s : RingStep) (rest : List RingStep) :
    exact right left (s :: rest) = exact right (s.op.eval left right) rest := by
  obtain ⟨op, mode⟩ := s
  cases op with
  | add => rfl
  | sub => rfl
  | mul => rfl

/-- One operation by itself. -/
theorem exact_singleton (right left : Int) (s : RingStep) :
    exact right left [s] = s.op.eval left right := by
  rw [exact_cons, exact]

theorem exact_concat (right left : Int) (chain : List RingStep) (s : RingStep) :
    exact right left (chain ++ [s]) = s.op.eval (exact right left chain) right := by
  induction chain generalizing left with
  | nil => exact exact_singleton right left s
  | cons first chain ih => rw [List.cons_append, exact_cons, exact_cons, ih]

end RingStep

theorem RingOp.eval_congr (op : RingOp) {left left' : Int} (h : left % 96 = left' % 96)
    (right : Int) : op.eval left right % 96 = op.eval left' right % 96 := by
  have hmod : left ≡ left' [ZMOD 96] := h
  cases op with
  | add => exact hmod.add_right right
  | sub => exact hmod.sub_right right
  | mul => exact hmod.mul_right right

/-- The integer fits a signed word of 128 bits. -/
def InWideRange (n : Int) : Prop :=
  -0x80000000000000000000000000000000 ≤ n ∧ n < 0x80000000000000000000000000000000

instance (n : Int) : Decidable (InWideRange n) := inferInstanceAs (Decidable (_ ∧ _))

/-- Words of 64 bits have their sum, difference and product in 128 bits. -/
theorem RingOp.inWideRange_eval (op : RingOp) {left right : Int} (hleft : InRange left)
    (hright : InRange right) : InWideRange (op.eval left right) := by
  obtain ⟨hl, hl'⟩ := hleft
  obtain ⟨hr, hr'⟩ := hright
  cases op with
  | add =>
      simp only [InWideRange, RingOp.eval]
      omega
  | sub =>
      simp only [InWideRange, RingOp.eval]
      omega
  | mul =>
      have hbound : |left * right| ≤ 0x8000000000000000 * 0x8000000000000000 := by
        rw [abs_mul]
        have hleft : |left| ≤ 0x8000000000000000 := abs_le.mpr ⟨hl, hl'.le⟩
        have hright : |right| ≤ 0x8000000000000000 := abs_le.mpr ⟨hr, hr'.le⟩
        exact mul_le_mul hleft hright (abs_nonneg _) (by decide)
      obtain ⟨hlow, hhigh⟩ := abs_le.mp hbound
      simp only [InWideRange, RingOp.eval]
      omega

/-- The outcome right after a ring operation. -/
theorem Register.outcome_ring_eq_tracked {op : RingOp} {mode : OverflowMode} {left right : Int}
    {v : Nat} {flag : Bool} :
    (ring op mode left right).outcome = .tracked v flag ↔
      mode = .track ∧ v = (ring op mode left right).value ∧
        flag = decide (op.eval left right < 0 ∨ 96 ≤ op.eval left right) := by
  have hflag := overflow_ring op mode left right
  cases mode with
  | drop =>
      rw [outcome_of_none hflag]
      simp
  | track =>
      rw [outcome_of_some hflag]
      simp [eq_comm]

/-! ## Chains -/

/-- What may stand before a chain, and the integer that the chain starts from. -/
inductive Opens (p : Params) : List ClassOp → Int → Prop where
  | bare {a : Int} (h : Table.find? "a" p = some (.int a)) : Opens p [] a
  | literal {c : Nat} (h : c < classCount) : Opens p [.literal c] c
  | load {name : String} {n : Int} (h : Table.find? name p = some (.int n)) :
      Opens p [.load name] n

/-- The left operand of the operation after a chain: the residue of the exact result so far, or the
start itself if nothing stands before the operation. -/
def leftAfter (opening : List ClassOp) (right start : Int) (chain : List RingStep) : Int :=
  if opening = [] ∧ chain = [] then start else RingStep.exact right start chain % 96

variable {opening : List ClassOp} {start b : Int}

theorem leftAfter_concat (opening : List ClassOp) (right start : Int) (chain : List RingStep)
    (s : RingStep) :
    leftAfter opening right start (chain ++ [s]) =
      RingStep.exact right start (chain ++ [s]) % 96 := if_neg (by simp)

/-- The reduction of the left operand does not show in the residue of the result. -/
theorem eval_leftAfter (opening : List ClassOp) (right start : Int) (chain : List RingStep)
    (s : RingStep) :
    s.op.eval (leftAfter opening right start chain) right % 96 =
      RingStep.exact right start (chain ++ [s]) % 96 := by
  rw [RingStep.exact_concat]
  apply RingOp.eval_congr
  unfold leftAfter
  split
  · next hempty => rw [hempty.2]; rfl
  · exact Int.emod_emod_of_dvd _ (dvd_refl 96)

theorem inRange_leftAfter (opening : List ClassOp) (right : Int) {start : Int}
    (h : InRange start) (chain : List RingStep) :
    InRange (leftAfter opening right start chain) := by
  unfold leftAfter
  split
  · exact h
  · simp only [InRange]
    omega

/-- Before the first operation, the left operand is there. -/
theorem Opens.reaches (h : Opens p opening start) (b : Int) :
    ∃ state, Reaches p opening state ∧
      ClassOp.leftValue p state = .ok (leftAfter opening b start []) := by
  cases h with
  | bare h => exact ⟨none, .nil p, Params.int_of_find? h⟩
  | @literal c h =>
      refine ⟨_, (Reaches.nil p).step rfl rfl, ?_⟩
      show Except.ok (c : Int) = .ok ((c : Int) % 96)
      rw [Int.emod_eq_of_lt (by omega) (by unfold classCount at h; omega)]
  | @load name _ h =>
      have hload : ClassOp.step p none (.load name) = .ok (some (.ofInt start)) :=
        bind_eq_ok.mpr ⟨start, Params.int_of_find? h, rfl⟩
      refine ⟨_, (Reaches.nil p).step rfl hload, ?_⟩
      show Except.ok (((start % 96).toNat : Nat) : Int) = .ok (start % 96)
      rw [Int.toNat_of_nonneg (Int.emod_nonneg start (by decide))]

/-- **One operation of a chain.** It finds its left operand, and leaves the next one. -/
theorem Reaches.ring (chain : List RingStep) (s : RingStep)
    (h : Reaches p (opening ++ chain.map RingStep.instruction) state)
    (hleft : ClassOp.leftValue p state = .ok (leftAfter opening b start chain))
    (hb : p.int rightOperand = .ok b) :
    let r := Register.ring s.op s.mode (leftAfter opening b start chain) b
    Reaches p (opening ++ (chain ++ [s]).map RingStep.instruction) (some r) ∧
      ClassOp.leftValue p (some r) = .ok (leftAfter opening b start (chain ++ [s])) := by
  intro r
  constructor
  · have hstep := h.step rfl (ClassOp.step_ring s.op s.mode hleft hb)
    rw [List.map_append, ← List.append_assoc]
    exact hstep
  · rw [leftAfter_concat, ← eval_leftAfter, ← Register.value_ring s.op s.mode]
    rfl

/-- **A whole chain**, by induction from its end. -/
theorem Opens.reaches_chain (h : Opens p opening start) (hb : p.int rightOperand = .ok b)
    (chain : List RingStep) :
    ∃ state, Reaches p (opening ++ chain.map RingStep.instruction) state ∧
      ClassOp.leftValue p state = .ok (leftAfter opening b start chain) := by
  induction chain using List.reverseRecOn with
  | nil =>
      rw [List.map_nil, List.append_nil]
      exact h.reaches b
  | append_singleton chain s ih =>
      obtain ⟨state, hreaches, hleft⟩ := ih
      exact ⟨_, hreaches.ring chain s hleft hb⟩

/-- **Chains of ring operations are exact modulo 96.** A chain that starts from the parameter `a`, a
class literal or a loaded integer ends on both backends with the residue of its exact result. The
outcome is tracked exactly if the last operation is, and then its flag is clear exactly if that
operation stays within the range of classes, with the left operand that it finds. Each operation of
the chain finds the left operand that it should, and its exact result fits 128 bits. -/
theorem ring_chain_exact (hopen : Opens p opening start)
    (hb : Table.find? "b" p = some (.int b)) (hstart : InRange start) (hrange : InRange b)
    (before : List RingStep) (last : RingStep) :
    let chain := before ++ [last]
    let ops := opening ++ chain.map RingStep.instruction
    let final := RingStep.exact b (leftAfter opening b start before) [last]
    (∃ o, ClassOp.run ops p = .ok o ∧ ElementOp.run (ops.map .core) p = .ok o ∧
      (∃ v : Nat, o.value = some v ∧ (v : Int) = RingStep.exact b start chain % 96) ∧
      ((∃ v flag, o = .tracked v flag) ↔ last.mode = .track) ∧
      ∀ v flag, o = .tracked v flag → (flag = false ↔ 0 ≤ final ∧ final < 96)) ∧
    ∀ init s rest, chain = init ++ s :: rest →
      ∃ state, Reaches p (opening ++ init.map RingStep.instruction) state ∧
        ClassOp.leftValue p state = .ok (leftAfter opening b start init) ∧
        ElementOp.leftValue p (state.map .number) = .ok (leftAfter opening b start init) ∧
        InWideRange (RingStep.exact b (leftAfter opening b start init) [s]) := by
  intro chain ops final
  have hright : p.int rightOperand = .ok b := Params.int_of_find? hb
  constructor
  · obtain ⟨state, hreaches, hleft⟩ := hopen.reaches_chain hright before
    obtain ⟨hlast, -⟩ := hreaches.ring before last hleft hright
    obtain ⟨hclass, helement⟩ := hlast.outcome
    refine ⟨_, hclass, helement, ⟨_, Register.value_outcome _, ?_⟩, ?_, ?_⟩
    · rw [Register.value_ring, eval_leftAfter]
    · simp [Register.outcome_ring_eq_tracked]
    · intro v flag ho
      obtain ⟨-, -, rfl⟩ := Register.outcome_ring_eq_tracked.mp ho
      have hfinal : final = last.op.eval (leftAfter opening b start before) b :=
        RingStep.exact_singleton ..
      rw [decide_eq_false_iff_not, hfinal]
      omega
  · intro init s rest _
    obtain ⟨state, hreaches, hleft⟩ := hopen.reaches_chain hright init
    have hwide := s.op.inWideRange_eval (inRange_leftAfter opening b hstart init) hrange
    rw [← RingStep.exact_singleton] at hwide
    exact ⟨state, hreaches, hleft, ElementOp.leftValue_number hleft, hwide⟩

/-- The least word of 64 bits. -/
def leastWord : Int := -0x8000000000000000

/-- The greatest word of 64 bits. -/
def greatestWord : Int := 0x7FFFFFFFFFFFFFFF

/-- The greatest word is added to the least, multiplied with the sum and taken away again. The words
have the residues 31 and 64, and no other operation could stand in the place of one of the three.
The last difference overflows. That of 100 and 10 does not, though its left operand is out of range.
The square of the least word takes up 127 bits. -/
theorem ring_chain_exact_leastWord :
    let p : Params := [("a", .int leastWord), ("b", .int greatestWord)]
    let q : Params := [("a", .int 100), ("b", .int 10)]
    let ops : List ClassOp := [.ring .add .track, .ring .mul .drop, .ring .sub .track]
    Opens p [] leastWord ∧ InRange leastWord ∧ InRange greatestWord ∧
    ClassOp.run ops p = .ok (.tracked 34 true) ∧
    ElementOp.run (ops.map .core) p = .ok (.tracked 34 true) ∧
    (34 : Int) = ((leastWord + greatestWord) * greatestWord - greatestWord) % 96 ∧
    ElementOp.run [.core (.ring .sub .track)] q = .ok (.tracked 90 false) ∧
    InWideRange (leastWord * leastWord) := by
  intro p q ops
  have hopen : Opens p [] leastWord := .bare rfl
  have hleast : InRange leastWord := by decide
  have hgreatest : InRange greatestWord := by decide
  have hrun : ClassOp.run ops p = .ok (.tracked 34 true) := rfl
  obtain ⟨⟨o, hclass, helement, ⟨v, hv, hexact⟩, -⟩, -⟩ :=
    ring_chain_exact hopen (b := greatestWord) rfl hleast hgreatest
      [⟨.add, .track⟩, ⟨.mul, .drop⟩] ⟨.sub, .track⟩
  obtain rfl : .tracked 34 true = o := Except.ok.inj (hrun.symm.trans hclass)
  obtain rfl : 34 = v := Option.some.inj hv
  have hshort : ClassOp.run [.ring .sub .track] q = .ok (.tracked 90 false) := rfl
  obtain ⟨⟨o, hclass', helement', -⟩, -⟩ :=
    ring_chain_exact (p := q) (.bare rfl) (b := 10) rfl (by decide) (by decide) [] ⟨.sub, .track⟩
  obtain rfl : .tracked 90 false = o := Except.ok.inj (hshort.symm.trans hclass')
  obtain ⟨-, hwide⟩ := ring_chain_exact (p := [("a", .int leastWord), ("b", .int leastWord)])
    (.bare rfl) (b := leastWord) rfl hleast hleast [] ⟨.mul, .track⟩
  obtain ⟨-, -, -, -, hproduct⟩ := hwide [] ⟨.mul, .track⟩ [] rfl
  exact ⟨hopen, hleast, hgreatest, hrun, helement, hexact, helement', hproduct⟩

end NinetySix
