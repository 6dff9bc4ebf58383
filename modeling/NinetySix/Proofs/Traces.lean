import NinetySix.Proofs.Reduction

set_option autoImplicit false

/-! # A trace tells how its term was reached

A sweep rewrites many nodes of a term in one go, and the trace of a derivation is only a list of
rules. It can be read as a chain of terms all the same: there are terms from the first to the last
of the derivation, one more than rules, and each comes from the one before it by putting the reduct
of a single part in the place of that part. The rule that does so is the one of the trace, and the
rules that are tried before it decline the part.

A place in a term is given by the layers around it (`Frame`), so the term before a step is a part
within some layers, and the term after it is another part within the same layers
(`reduces_iff`).
-/

namespace NinetySix

/-! ## Places in a term -/

/-- One layer of a term around a part of it. -/
inductive Frame where
  | seqLeft (right : Term)
  | seqRight (left : Term)
  | parLeft (right : Term)
  | parRight (left : Term)
  | under (f : Transform)
  deriving DecidableEq, Repr

/-- The layer with a part in it. -/
def Frame.fill (x : Term) : Frame → Term
  | .seqLeft right => .seq x right
  | .seqRight left => .seq left x
  | .parLeft right => .par x right
  | .parRight left => .par left x
  | .under f => .transform f x

/-- The term with a part within layers, the outermost first. -/
def Term.within (frames : List Frame) (x : Term) : Term := frames.foldr (fun F t => F.fill t) x

namespace Rule

variable {rules : List Rule} {r : Rule} {s s' t u : Term}

/-- The rule has the reduct `s'` for `s`, and every rule that stands before it declines `s`. -/
def Chosen (rules : List Rule) (r : Rule) (s s' : Term) : Prop :=
  ∃ before after, rules = before ++ r :: after ∧ r.reduct? s = some s' ∧
    ∀ q ∈ before, q.reduct? s = none

/-- **The rule that is fired is the first that applies.** -/
theorem fire?_eq_some_iff : fire? rules s = some (r, s') ↔ Chosen rules r s s' := by
  unfold fire? Chosen
  rw [List.findSome?_eq_some_iff]
  constructor
  · rintro ⟨before, q, after, hrules, hq, hbefore⟩
    obtain ⟨s'', hs, heq⟩ := Option.map_eq_some_iff.mp hq
    cases heq
    exact ⟨before, after, hrules, hs, fun q hq => Option.map_eq_none_iff.mp (hbefore q hq)⟩
  · rintro ⟨before, after, hrules, hs, hbefore⟩
    refine ⟨before, r, after, hrules, by rw [hs]; rfl, fun q hq => ?_⟩
    rw [hbefore q hq]
    rfl

end Rule

/-! ## Steps -/

section Steps

variable {rules trace : List Rule} {r : Rule} {s s' t u : Term}

theorem Reduces.fill (F : Frame) (h : Reduces rules r t u) : Reduces rules r (F.fill t) (F.fill u) := by
  cases F with
  | seqLeft right => exact .seqLeft right h
  | seqRight left => exact .seqRight left h
  | parLeft right => exact .parLeft right h
  | parRight left => exact .parRight left h
  | under f => exact .under f h

/-- A part that is replaced within some layers is replaced within one layer more. -/
theorem exists_within_fill (F : Frame)
    (h : ∃ frames s s', t = s.within frames ∧ u = s'.within frames ∧ Rule.Chosen rules r s s') :
    ∃ frames s s', F.fill t = s.within frames ∧ F.fill u = s'.within frames ∧
      Rule.Chosen rules r s s' := by
  obtain ⟨frames, s, s', rfl, rfl, hchosen⟩ := h
  exact ⟨F :: frames, s, s', rfl, rfl, hchosen⟩

/-- **A reduction replaces one part.** -/
theorem reduces_iff : Reduces rules r t u ↔
    ∃ frames s s', t = s.within frames ∧ u = s'.within frames ∧ Rule.Chosen rules r s s' := by
  constructor
  · intro h
    induction h with
    | root h => exact ⟨[], _, _, rfl, rfl, Rule.fire?_eq_some_iff.mp h⟩
    | seqLeft right _ ih => exact exists_within_fill (.seqLeft right) ih
    | seqRight left _ ih => exact exists_within_fill (.seqRight left) ih
    | parLeft right _ ih => exact exists_within_fill (.parLeft right) ih
    | parRight left _ ih => exact exists_within_fill (.parRight left) ih
    | under f _ ih => exact exists_within_fill (.under f) ih
  · rintro ⟨frames, s, s', rfl, rfl, hchosen⟩
    induction frames with
    | nil => exact .root (Rule.fire?_eq_some_iff.mpr hchosen)
    | cons F frames ih => exact ih.fill F

/-- A normal term cannot be reduced. -/
theorem Reduces.isNormal_eq_false (h : Reduces rules r t u) : Rule.isNormal rules t = false := by
  induction h with
  | @root t u h => cases t <;> simp [Rule.isNormal, h]
  | seqLeft right _ ih => rw [Rule.isNormal_seq, ih, Bool.false_and]
  | seqRight left _ ih => rw [Rule.isNormal_seq, ih, Bool.and_false]
  | parLeft right _ ih => rw [Rule.isNormal_par, ih, Bool.false_and]
  | parRight left _ ih => rw [Rule.isNormal_par, ih, Bool.and_false]
  | under f _ ih => rw [Rule.isNormal, ih, Bool.and_false]

/-- No rule applies to any part of a normal term. -/
theorem Rule.reduct?_within_eq_none (frames : List Frame)
    (h : Rule.isNormal rules (s.within frames) = true) : ∀ r ∈ rules, r.reduct? s = none := by
  refine Rule.fire?_eq_none_iff.mp (Option.eq_none_iff_forall_ne_some.mpr ?_)
  rintro ⟨r, s'⟩ hfire
  -- a rule that applied to the part would reduce the whole term
  have hred : Reduces rules r (s.within frames) (s'.within frames) :=
    reduces_iff.mpr ⟨frames, s, s', rfl, rfl, Rule.fire?_eq_some_iff.mp hfire⟩
  rw [hred.isNormal_eq_false] at h
  cases h

/-- A chain of reductions as a sequence of terms, one more than rules. -/
theorem Derives.exists_sequence (h : Derives rules trace t u) :
    ∃ seq : Fin (trace.length + 1) → Term, seq 0 = t ∧ seq (Fin.last trace.length) = u ∧
      ∀ i : Fin trace.length, Reduces rules (trace.get i) (seq i.castSucc) (seq i.succ) := by
  induction h with
  | refl t => exact ⟨fun _ => t, rfl, rfl, fun i => i.elim0⟩
  | @step r trace t u v hred _ ih =>
      obtain ⟨seq, hfirst, hlast, hsteps⟩ := ih
      -- the new term goes in front, and the steps of the rest move up by one
      refine ⟨Fin.cons t seq, rfl, hlast, fun i => ?_⟩
      cases i using Fin.cases with
      | zero =>
          have hsecond : Fin.cons (α := fun _ => Term) t seq (Fin.succ 0) = u := hfirst
          rw [hsecond]
          exact hred
      | succ i => exact hsteps i

end Steps

/-- **The trace of a derivation is faithful.** There are as many steps as rules in the trace, and
each step replaces one part of the term by the reduct that its rule gives, while all rules before it
decline that part. The steps lead from the first term to the last, to no part of which a rule
applies. -/
theorem trace_is_faithful {rules : List Rule} {limit : Nat} {t : Term} {d : Derivation}
    (h : Rule.derive rules limit t = .ok d) :
    d.count = d.trace.length ∧
    (∃ seq : Fin (d.count + 1) → Term, seq 0 = t ∧ seq (Fin.last d.count) = d.term ∧
      ∀ i : Fin d.count, ∃ frames s s', seq i.castSucc = s.within frames ∧
        seq i.succ = s'.within frames ∧ Rule.Chosen rules (d.trace.get i) s s') ∧
    ∀ frames s, d.term = s.within frames → ∀ r ∈ rules, r.reduct? s = none := by
  refine ⟨rfl, ?_, ?_⟩
  · obtain ⟨seq, hfirst, hlast, hsteps⟩ := (Rule.derive_derives h).exists_sequence
    exact ⟨seq, hfirst, hlast, fun i => reduces_iff.mp (hsteps i)⟩
  · intro frames s hterm
    have hnormal := (Rule.derive_eq_ok h).1
    rw [hterm] at hnormal
    exact Rule.reduct?_within_eq_none frames hnormal

/-- A rotation above two parts, in one of which a mirror fires before what it covers, while in the
other two twists make a full turn. -/
def turnedPair : Term :=
  .transform (.power .rotate 1) (.par
    (.transform .mirror (.transform (.power .triality 4) (.atom (.literal 5))))
    (.transform (.power .twist 3) (.transform (.power .twist 5) (.atom .toClass))))

/-- Rules out of their standard order, one of them twice. -/
def foldingTwice : List Rule :=
  [.ordering, .distribution, .folding, .conjugation, .folding, .identity]

/-- The first sweep over `turnedPair` fires three rules, one in each part and one at the root. The
second of these steps is a folding that the rules before it leave to it. -/
theorem trace_is_faithful_turnedPair :
    ∃ d, Rule.derive foldingTwice 9 turnedPair = .ok d ∧
      d.trace = [.conjugation, .folding, .distribution, .identity] ∧ d.count = 4 ∧
      ∃ seq : Fin 5 → Term, seq 0 = turnedPair ∧ seq 4 = d.term ∧
        ∃ frames s s', seq 1 = s.within frames ∧ seq 2 = s'.within frames ∧
          Rule.Chosen foldingTwice .folding s s' := by
  have hd : Rule.derive foldingTwice 9 turnedPair = .ok
      ⟨.par (.transform (.power .rotate 1) (.transform (.power .triality 2) (.atom (.literal 5))))
        (.transform (.power .rotate 1) (.atom .toClass)),
        [.conjugation, .folding, .distribution, .identity]⟩ := by
    decide +kernel
  obtain ⟨hcount, ⟨seq, hfirst, hlast, hsteps⟩, -⟩ := trace_is_faithful hd
  exact ⟨_, hd, rfl, hcount, seq, hfirst, hlast, hsteps (1 : Fin 4)⟩

end NinetySix
