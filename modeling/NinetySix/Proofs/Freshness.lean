import NinetySix.Proofs.Leafwise

set_option autoImplicit false

/-! # Nothing stale in the register

A class plan has one register, and the outcome is read from it at the end. An instruction that gives
a value writes the register, flag and all. Transforms and projections to a class do not: they move
the value that is there and keep its flag (`ClassOp.runFrom_of_quiet`). So the last instruction that
writes decides whether there is a flag and which.

A ring operation writes, but its value comes from the one before. A literal, a lifted class or a
loaded parameter looks at nothing (`ClassOp.step_of_restarts`), and a run from the last of these on
is as good as the whole run.
-/

namespace NinetySix

namespace ClassOp

/-- The instruction gives a value that does not depend on the one before. -/
def restarts : ClassOp → Bool
  | .literal _ => true
  | .lift _ => true
  | .load _ => true
  | .ring _ _ => false
  | .transform _ => false
  | .toClass => false

/-- The instruction gives a value. -/
def writes : ClassOp → Bool
  | .ring _ _ => true
  | op => op.restarts

/-- The instruction `op` is the last in the plan with the given property. -/
structure LastAt (prop : ClassOp → Bool) (ops before : List ClassOp) (op : ClassOp)
    (after : List ClassOp) : Prop where
  plan : ops = before ++ op :: after
  holds : prop op = true
  rest : ∀ op' ∈ after, prop op' = false

variable {p : Params} {op : ClassOp} {ops before after : List ClassOp}
variable {state state' : Option Register}

theorem exists_lastAt {prop : ClassOp → Bool} (h : ∃ op ∈ ops, prop op = true) :
    ∃ before op after, LastAt prop ops before op after := by
  induction ops with
  | nil =>
      obtain ⟨op, hop, -⟩ := h
      cases hop
  | cons op ops ih =>
      by_cases hlater : ∃ op' ∈ ops, prop op' = true
      · obtain ⟨before, op', after, hlast⟩ := ih hlater
        exact ⟨op :: before, op', after, by rw [hlast.plan]; rfl, hlast.holds, hlast.rest⟩
      · -- nothing later has the property, so the first instruction has it
        have hrest : ∀ op' ∈ ops, prop op' = false := by
          intro op' hop'
          exact Bool.eq_false_iff.mpr fun hprop => hlater ⟨op', hop', hprop⟩
        obtain ⟨op', hop', hprop⟩ := h
        rcases List.mem_cons.mp hop' with rfl | hop'
        · exact ⟨[], op', ops, rfl, hprop, hrest⟩
        · exact absurd ⟨op', hop', hprop⟩ hlater

/-! ## One instruction -/

/-- An instruction that does not write moves the value, keeps the flag and cannot fail. -/
theorem step_of_quiet (hop : op.writes = false) :
    ∃ move : Register → Register, (∀ r, (move r).overflow = r.overflow) ∧
      ∀ p state, step p state op = .ok (state.map move) := by
  cases op with
  | transform f => exact ⟨Register.transform f, fun _ => rfl, fun _ _ => rfl⟩
  | toClass => exact ⟨id, fun _ => rfl, fun _ _ => by rw [Option.map_id_apply]; rfl⟩
  | _ => cases hop

/-- An instruction that restarts does the same in every state. -/
theorem step_of_restarts (hop : op.restarts = true) (p : Params) (state state' : Option Register) :
    step p state op = step p state' op := by
  cases op with
  | literal c => rfl
  | lift c => rfl
  | load name => rfl
  | _ => cases hop

/-- **An instruction that writes leaves no old flag.** A tracked ring operation gives the flag of its
own result, and every other one takes the flag away. -/
theorem step_of_writes (hop : op.writes = true) (h : step p state op = .ok state') :
    ∃ r, state' = some r ∧
      ((∀ kind, op ≠ .ring kind .track) ∧ r.overflow = none ∨
        ∃ kind left right, op = .ring kind .track ∧ leftValue p state = .ok left ∧
          p.int rightOperand = .ok right ∧
          r.overflow = some (decide (kind.eval left right < 0 ∨ 96 ≤ kind.eval left right))) := by
  cases op with
  | literal c =>
      cases h
      exact ⟨_, rfl, .inl ⟨by rintro kind ⟨⟩, rfl⟩⟩
  | lift c =>
      cases h
      exact ⟨_, rfl, .inl ⟨by rintro kind ⟨⟩, rfl⟩⟩
  | load name =>
      obtain ⟨n, -, h⟩ := bind_eq_ok.mp h
      cases h
      exact ⟨_, rfl, .inl ⟨by rintro kind ⟨⟩, rfl⟩⟩
  | ring kind mode =>
      obtain ⟨left, hleft, h⟩ := bind_eq_ok.mp h
      obtain ⟨right, hright, h⟩ := bind_eq_ok.mp h
      cases h
      refine ⟨_, rfl, ?_⟩
      cases mode with
      | drop => exact .inl ⟨by rintro kind ⟨⟩, Register.overflow_ring ..⟩
      | track =>
          exact .inr ⟨kind, left, right, rfl, hleft, hright, Register.overflow_ring ..⟩
  | transform f => cases hop
  | toClass => cases hop

/-! ## What follows the last write -/

/-- Instructions that do not write move the value, keep the flag and cannot fail. -/
theorem runFrom_of_quiet (h : ∀ op ∈ ops, op.writes = false) :
    ∃ move : Register → Register, (∀ r, (move r).overflow = r.overflow) ∧
      ∀ p state, runFrom p state ops = .ok (state.map move) := by
  induction ops with
  | nil => exact ⟨id, fun _ => rfl, fun _ _ => by rw [Option.map_id_apply]; rfl⟩
  | cons op ops ih =>
      obtain ⟨first, hfirst, hstep⟩ := step_of_quiet (h op List.mem_cons_self)
      obtain ⟨later, hlater, hrun⟩ := ih fun op' hop' => h op' (List.mem_cons_of_mem _ hop')
      refine ⟨later ∘ first, fun r => (hlater _).trans (hfirst r), fun p state => ?_⟩
      rw [runFrom, List.foldlM_cons, hstep]
      exact (hrun p (state.map first)).trans (by rw [Option.map_map])

/-- **A run up to the last write and beyond.** What is written last is moved from there on, but its
flag stays. -/
theorem LastAt.exists_register (hlast : LastAt writes ops before op after)
    (h : runFrom p state ops = .ok state') :
    ∃ s written final, runFrom p state before = .ok s ∧ step p s op = .ok (some written) ∧
      state' = some final ∧ final.overflow = written.overflow := by
  rw [hlast.plan, runFrom_append] at h
  obtain ⟨s, hbefore, h⟩ := bind_eq_ok.mp h
  obtain ⟨s', hop, h⟩ := bind_eq_ok.mp h
  obtain ⟨move, hmove, hafter⟩ := runFrom_of_quiet hlast.rest
  obtain rfl : s'.map move = state' := Except.ok.inj ((hafter p s').symm.trans h)
  obtain ⟨written, rfl, -⟩ := step_of_writes hlast.holds hop
  exact ⟨s, written, move written, hbefore, hop, rfl, hmove written⟩

/-- From the last restart on, a run gives what the whole run gives. -/
theorem LastAt.runFrom_suffix (hlast : LastAt restarts ops before op after)
    (h : runFrom p state ops = .ok state') : runFrom p none (op :: after) = .ok state' := by
  rw [hlast.plan, runFrom_append] at h
  obtain ⟨s, -, h⟩ := bind_eq_ok.mp h
  rw [runFrom, List.foldlM_cons, step_of_restarts hlast.holds p none s]
  exact h

/-! ## Outcomes -/

theorem run_eq_ok {o : Outcome} :
    run ops p = .ok o ↔ ∃ state, runFrom p none ops = .ok state ∧ finish state = o := by
  rw [run_eq]
  cases runFrom p none ops with
  | error e => simp [Except.map]
  | ok state => simp [Except.map]

/-- A plan without a write has nothing to give. -/
theorem finish_eq_fallback_iff (h : runFrom p none ops = .ok state) :
    finish state = .fallback ↔ ∀ op ∈ ops, op.writes = false := by
  by_cases hwrites : ∃ op ∈ ops, op.writes = true
  · obtain ⟨before, op, after, hlast⟩ := exists_lastAt hwrites
    obtain ⟨s, written, final, -, -, rfl, -⟩ := hlast.exists_register h
    have hne : final.outcome ≠ .fallback := by
      unfold Register.outcome
      split <;> simp
    refine iff_of_false hne fun hall => ?_
    obtain ⟨op, hop, hwrites⟩ := hwrites
    rw [hall op hop] at hwrites
    cases hwrites
  · have hquiet : ∀ op ∈ ops, op.writes = false := by
      intro op hop
      exact Bool.eq_false_iff.mpr fun hwrites' => hwrites ⟨op, hop, hwrites'⟩
    obtain ⟨move, -, hrun⟩ := runFrom_of_quiet hquiet
    obtain rfl : none = state := Except.ok.inj ((hrun p none).symm.trans h)
    exact iff_of_true rfl hquiet

/-- The outcome bears the flag of the instruction `op`, which is run after `before`: that of a
tracked ring operation with the operands that it finds there, and none if it is another. -/
inductive Flagged (p : Params) (before : List ClassOp) : ClassOp → Outcome → Prop where
  | tracked {kind : RingOp} {state : Option Register} {left right : Int} (value : Nat)
      (hbefore : runFrom p none before = .ok state) (hleft : leftValue p state = .ok left)
      (hright : p.int rightOperand = .ok right) :
      Flagged p before (.ring kind .track)
        (.tracked value (decide (kind.eval left right < 0 ∨ 96 ≤ kind.eval left right)))
  | plain {op : ClassOp} (value : Nat) (hop : ∀ kind, op ≠ .ring kind .track) :
      Flagged p before op (.number value)

theorem LastAt.flagged {p : Params} {ops before after : List ClassOp} {op : ClassOp} {o : Outcome}
    (hlast : LastAt writes ops before op after) (h : run ops p = .ok o) :
    Flagged p before op o := by
  obtain ⟨state, hrun, rfl⟩ := run_eq_ok.mp h
  obtain ⟨s, written, final, hbefore, hop, rfl, hflag⟩ := hlast.exists_register hrun
  show Flagged p before op final.outcome
  obtain ⟨r, hr, ⟨hkind, hnone⟩ | ⟨kind, left, right, rfl, hleft, hright, hsome⟩⟩ :=
    step_of_writes hlast.holds hop
  · cases hr
    rw [Register.outcome_of_none (hflag.trans hnone)]
    exact .plain _ hkind
  · cases hr
    rw [Register.outcome_of_some (hflag.trans hsome)]
    exact .tracked _ hbefore hleft hright

theorem Flagged.tracked_iff {p : Params} {before : List ClassOp} {op : ClassOp} {o : Outcome}
    (h : Flagged p before op o) :
    (∃ value flag, o = .tracked value flag) ↔ ∃ kind, op = .ring kind .track := by
  cases h with
  | tracked value => exact iff_of_true ⟨_, _, rfl⟩ ⟨_, rfl⟩
  | plain value hop =>
      refine iff_of_false ?_ fun ⟨kind, hkind⟩ => hop kind hkind
      rintro ⟨value, flag, ⟨⟩⟩

/-- **The outcome of a class plan is fresh.** If a run succeeds, it falls back exactly if no
instruction writes. Otherwise the outcome bears the flag of the last instruction that does: it is
tracked exactly if that is a tracked ring operation, the flag being the one which this operation
found, and a plain number if not. And if some instruction restarts, the outcome is that of the plan
from the last of these on. -/
theorem outcome_is_fresh {ops : List ClassOp} {p : Params} {o : Outcome}
    (h : run ops p = .ok o) :
    (o = .fallback ↔ ∀ op ∈ ops, op.writes = false) ∧
    ((∃ op ∈ ops, op.writes = true) →
      ∃ before op after, LastAt writes ops before op after ∧ Flagged p before op o ∧
        ((∃ value flag, o = .tracked value flag) ↔ ∃ kind, op = .ring kind .track)) ∧
    ((∃ op ∈ ops, op.restarts = true) →
      ∃ before op after, LastAt restarts ops before op after ∧
        run (op :: after) p = .ok o) := by
  obtain ⟨state, hrun, ho⟩ := run_eq_ok.mp h
  refine ⟨?_, fun hwrites => ?_, fun hrestarts => ?_⟩
  · rw [← ho]
    exact finish_eq_fallback_iff hrun
  · obtain ⟨before, op, after, hlast⟩ := exists_lastAt hwrites
    have hflagged := hlast.flagged h
    exact ⟨before, op, after, hlast, hflagged, hflagged.tracked_iff⟩
  · obtain ⟨before, op, after, hlast⟩ := exists_lastAt hrestarts
    exact ⟨before, op, after, hlast, run_eq_ok.mpr ⟨state, hlast.runFrom_suffix hrun, ho⟩⟩

/-- Two tracked operations with a literal between them that names no class, and then moves. -/
def secondDifference : List ClassOp :=
  [.ring .add .track, .ring .mul .drop, .literal 98, .ring .sub .track,
    .transform (.power .triality 7), .toClass]

/-- The sum overflows and the difference does not. Only the latter shows in the outcome, and the plan
from the literal on gives it too. -/
theorem outcome_is_fresh_secondDifference :
    let p : Params := [("a", .int 95), ("b", .int 3)]
    run secondDifference p = .ok (.tracked 79 false) ∧
    run (secondDifference.take 1) p = .ok (.tracked 2 true) ∧
    (∃ before op after, LastAt writes secondDifference before op after ∧
      Flagged p before op (.tracked 79 false)) ∧
    ∃ before op after, LastAt restarts secondDifference before op after ∧
      run (op :: after) p = .ok (.tracked 79 false) := by
  intro p
  have hrun : run secondDifference p = .ok (.tracked 79 false) := rfl
  obtain ⟨-, hwritten, hrestarted⟩ := outcome_is_fresh hrun
  obtain ⟨before, op, after, hlast, hflagged, -⟩ := hwritten ⟨.literal 98, by decide, rfl⟩
  exact ⟨hrun, rfl, ⟨before, op, after, hlast, hflagged⟩,
    hrestarted ⟨.literal 98, by decide, rfl⟩⟩

end ClassOp

end NinetySix
