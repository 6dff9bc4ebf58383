import NinetySix.Proofs.Backends
import NinetySix.Proofs.Folding
import NinetySix.Proofs.Meaning

set_option autoImplicit false

/-! # Compiled models compute their recipes

`Recipe.value?` and `Recipe.flag?` say in integers what a recipe computes: the class
`24 q + 8 d + l` that it works on, with or without a move of one of its three digits, or a sum, a
difference or a product modulo 96, with a flag that the exact result was out of range if that is
tracked. A compiled model gives this whatever the hint, the preference and the options are, since

* the terms of recipes are normal (`Recipe.Shape.isNormal`), so normalisation leaves them as they
  are;
* their runs on the class backend are short and can be written down (`Term.yields_chained`,
  `Term.yields_seq`), and the element backend simulates them (`Term.yields_of_runFrom`), so that the
  tier and the preference, which choose the backend, do not matter (`Recipe.term_yields`);
* it does not matter either whether the model was folded (`Model.CompiledFrom.run_eq`).

Grade projection gives an element and not a class, and is left out.
-/

namespace NinetySix

/-! ## What a recipe computes -/

namespace Descriptor

/-- The integer that is compiled in under a name. -/
def compiledInt? (d : Descriptor) (field : String) : Option Int :=
  match Table.find? field d.compiledParams with
  | some (.int n) => some n
  | _ => none

/-- The class that a recipe works on: the one that is compiled in, or else the parameter `x`
modulo 96. -/
def classWith (d : Descriptor) (x : String → Int) : Int :=
  (d.compiledInt? "class").getD (x "x" % 96)

/-- What stands on the left of a ring operation: the class that is compiled in, or else the
parameter `a`. -/
def leftWith (d : Descriptor) (x : String → Int) : Int := (d.compiledInt? "class").getD (x "a")

/-- The exponent of a turn. -/
def steps (d : Descriptor) : Int := (d.compiledInt? "k").getD 1

/-- Overflow is tracked: the parameter is the string, or the object with this key and null. -/
def tracks (d : Descriptor) : Bool :=
  match Table.find? "overflow" d.compiledParams with
  | some (.string s) => s == "track"
  | some (.object [(k, .null)]) => k == "track"
  | _ => false

end Descriptor

/-- A turn by `k` steps on the class `24 q + 8 d + l`. -/
def Axis.turnClass (a : Axis) (c k : Int) : Int :=
  match a with
  | .rotate => 24 * ((c / 24 + k) % 4) + 8 * (c / 8 % 3) + c % 8
  | .triality => 24 * (c / 24) + 8 * ((c / 8 % 3 + k) % 3) + c % 8
  | .twist => 24 * (c / 24) + 8 * (c / 8 % 3) + (c % 8 + k) % 8

/-- The mirror on the class `24 q + 8 d + l`. -/
def mirrorClass (c : Int) : Int := 24 * (c / 24) + 8 * (-(c / 8 % 3) % 3) + c % 8

namespace Recipe

/-- The recipes that give a class, by their names. -/
def classRecipes : List (String × Recipe) :=
  [("literal", .literal), ("lift", .lift), ("project", .project), ("rotate", .turn .rotate),
   ("triality", .turn .triality), ("twist", .turn .twist), ("mirror", .mirror),
   ("add96", .ring .add), ("sub96", .ring .sub), ("mul96", .ring .mul)]

/-- The exact result of a ring recipe, over the integers. -/
def ringResult (d : Descriptor) (x : String → Int) : RingOp → Int
  | .add => d.leftWith x + x "b"
  | .sub => d.leftWith x - x "b"
  | .mul => d.leftWith x * x "b"

/-- The class that a recipe gives with the parameters `x`. Grade projection gives no class. -/
def value? (d : Descriptor) (x : String → Int) : Recipe → Option Int
  | .literal => some (d.classWith x)
  | .lift => some (d.classWith x)
  | .project => some (d.classWith x)
  | .projectGrade => none
  | .ring op => some (ringResult d x op % 96)
  | .turn axis => some (axis.turnClass (d.classWith x) d.steps)
  | .mirror => some (mirrorClass (d.classWith x))

/-- The overflow flag that a recipe gives: whether the exact result of a ring operation is outside
`0..96`, if that is tracked. -/
def flag? (d : Descriptor) (x : String → Int) : Recipe → Option Bool
  | .ring op =>
    if d.tracks then some (decide (ringResult d x op < 0 ∨ 96 ≤ ringResult d x op)) else none
  | _ => none

/-- The parameters that a recipe reads without declaring them. -/
def needs (d : Descriptor) : Recipe → List String
  | .ring _ => (if (d.compiledInt? "class").isSome then [] else ["a"]) ++ ["b"]
  | _ => []

end Recipe

/-- The parameters have the integers `x` under the given names. -/
def Params.Supplies (p : Params) (x : String → Int) (names : List String) : Prop :=
  ∀ n ∈ names, Table.find? n p = some (.int (x n))

/-! ## The moves of classes in integers -/

theorem Axis.classIndex_turn (a : Axis) {c : Nat} (hc : c < classCount) (k : Int) :
    ((a.turn (.ofClass c) k).classIndex : Int) = a.turnClass c k := by
  unfold classCount at hc
  cases a with
  | rotate =>
      have hshift := val_shift (Coordinates.ofClass c).quadrant k
      simp only [turn, Coordinates.rotate, Coordinates.classIndex, Coordinates.ofClass, turnClass,
        Modality.toFin_ofFin, Fin.ofNat] at hshift ⊢
      push_cast
      omega
  | triality =>
      have hshift := val_shift (Coordinates.ofClass c).modality.toFin k
      simp only [turn, Coordinates.triality, Coordinates.classIndex, Coordinates.ofClass, turnClass,
        Modality.shifted, Modality.toFin_ofFin, Fin.ofNat] at hshift ⊢
      push_cast
      omega
  | twist =>
      have hshift := val_shift (Coordinates.ofClass c).slot k
      simp only [turn, Coordinates.twist, Coordinates.classIndex, Coordinates.ofClass, turnClass,
        Modality.toFin_ofFin, Fin.ofNat] at hshift ⊢
      push_cast
      omega

theorem Coordinates.classIndex_mirror {c : Nat} (hc : c < classCount) :
    (((ofClass c).mirror).classIndex : Int) = mirrorClass c := by
  unfold classCount at hc
  have hneg : ∀ z : Fin 3, (((Modality.ofFin z).mirrored.toFin.val : Nat) : Int) = -z.val % 3 := by
    decide
  have hmodality := hneg (Fin.ofNat 3 (c / 8))
  simp only [mirror, classIndex, ofClass, mirrorClass, Fin.ofNat] at hmodality ⊢
  push_cast
  omega

/-! ## Reading the descriptor -/

theorem checkedClass_eq_ok {n : Int} {c : Nat} (h : checkedClass n = .ok c) :
    c < classCount ∧ (c : Int) = n := by
  unfold checkedClass at h
  split at h
  · next hn =>
    cases h
    omega
  · cases h

theorem Term.literal_eq_ok {n : Int} {t : Term} (h : Term.literal n = .ok t) :
    ∃ c, t = .atom (.literal c) ∧ c < classCount ∧ (c : Int) = n := by
  obtain ⟨c, hc, h⟩ := bind_eq_ok.mp h
  cases h
  exact ⟨c, rfl, checkedClass_eq_ok hc⟩

theorem Term.lift_eq_ok {n : Int} {t : Term} (h : Term.lift n = .ok t) :
    ∃ c, t = .atom (.lift c) ∧ c < classCount ∧ (c : Int) = n := by
  obtain ⟨c, hc, h⟩ := bind_eq_ok.mp h
  cases h
  exact ⟨c, rfl, checkedClass_eq_ok hc⟩

namespace Descriptor

variable {d : Descriptor}

theorem intParam_eq_ok {field : String} {v : Option Int} (h : d.intParam field = .ok v) :
    d.compiledInt? field = v := by
  unfold intParam at h
  unfold compiledInt?
  split at h
  · next hfind =>
    cases h
    rw [hfind]
  · next n hfind =>
    split at h
    · cases h
      rw [hfind]
    · cases h
  · cases h

theorem requiredInt_eq_ok {field : String} {n : Int} (h : d.requiredInt field = .ok n) :
    d.compiledInt? field = some n := by
  obtain ⟨v, hv, h⟩ := bind_eq_ok.mp h
  cases v with
  | none => cases h
  | some m =>
      cases h
      exact intParam_eq_ok hv

theorem byName?_eq_some_iff {s : String} {mode : OverflowMode} :
    modeOf?.byName? s = some mode ↔ s = mode.name := by
  unfold modeOf?.byName?
  by_cases hdrop : s = "drop"
  · subst hdrop
    cases mode <;> simp [OverflowMode.name]
  · by_cases htrack : s = "track"
    · subst htrack
      cases mode <;> simp [OverflowMode.name]
    · cases mode <;> simp [OverflowMode.name, hdrop, htrack]

theorem beq_track_of_byName? {s : String} {mode : OverflowMode}
    (h : modeOf?.byName? s = some mode) : (s == "track") = decide (mode = .track) := by
  rw [byName?_eq_some_iff.mp h]
  cases mode with
  | drop => decide
  | track => decide

theorem overflowMode_eq_ok {mode : OverflowMode} (h : d.overflowMode = .ok mode) :
    d.tracks = decide (mode = .track) := by
  unfold overflowMode overflowField at h
  unfold tracks
  split at h
  · next hfind =>
    cases h
    rw [hfind]
    rfl
  · next v hfind =>
    rw [hfind]
    split at h
    · next m hm =>
      cases h
      unfold modeOf? at hm
      split at hm
      · exact beq_track_of_byName? hm
      · exact beq_track_of_byName? hm
      · cases hm
    · cases h

end Descriptor

namespace Params

variable {p : Params} {x : String → Int} {names : List String}

theorem Supplies.contains (h : p.Supplies x names) {n : String} (hn : n ∈ names) :
    p.contains n = true := by
  rw [Params.contains, h n hn]
  rfl

theorem Supplies.int (h : p.Supplies x names) {n : String} (hn : n ∈ names) :
    p.int n = .ok (x n) := Params.int_of_find? (h n hn)

end Params

/-! ## Terms that give a class -/

/-- On either backend, the plan of the term gives the class and the flag. -/
def Term.Yields (p : Params) (t : Term) (c : Nat) (flag : Option Bool) : Prop :=
  ∀ backend plan, t.plan backend = .ok plan →
    ∃ out, plan.run p = .ok out ∧ out.value = some c ∧ out.overflow = flag

/-- What the class backend gives, the element backend gives too. -/
theorem Term.yields_of_runFrom {p : Params} {t : Term} {ops : List ClassOp} {r : Register}
    (hb : t.Bounded) (hhead : t.atoms.head? ≠ some .toClass) (hops : t.classPlan = .ok ops)
    (hrun : ClassOp.runFrom p none ops = .ok (some r)) : t.Yields p r.value r.overflow := by
  intro backend plan hplan
  cases backend with
  | byClass =>
      obtain ⟨ops', hops', h⟩ := bind_eq_ok.mp hplan
      rw [hops] at hops'
      cases hops'
      cases h
      refine ⟨r.outcome, ?_, r.value_outcome, r.overflow_outcome⟩
      rw [Plan.run, ClassOp.run_eq, hrun]
      rfl
  | byElement =>
      cases hplan
      -- only a run that begins by reading a class could differ, and this one does not
      have hsim := runFrom_simulates (p := p) hops hb.leaves .none
        fun leaf hleaf hatom => absurd hatom (Term.atom_ne_of_head? hhead leaf hleaf)
      rw [hrun] at hsim
      obtain ⟨out, hout, s', hs, rfl⟩ := hsim.exists_of_ok
      obtain ⟨hvalue, hflag⟩ := finish_matches hs
      exact ⟨_, hout, hvalue.trans r.value_outcome, hflag.trans r.overflow_outcome⟩

namespace Term

variable {p : Params} {a b : Atom} {op op' : ClassOp} {r r' : Register}

/-- An atom below a chain of transforms. -/
theorem yields_chained (ha : a.Bounded) (hne : a ≠ .toClass) (hop : ClassOp.ofAtom a = .ok op)
    (hstep : ClassOp.step p none op = .ok (some r)) (chain : List Transform) :
    ((Term.atom a).chained chain).Yields p (r.move chain).value (r.move chain).overflow := by
  have hleaves : ((Term.atom a).chained chain).leaves = [⟨a, chain⟩] := by
    rw [leaves_chained, leaves, List.map_singleton, List.append_nil]
  have hatoms : ((Term.atom a).chained chain).atoms = [a] := by
    rw [← map_atom_leaves, hleaves]
    rfl
  have hops : ((Term.atom a).chained chain).classPlan
      = .ok (op :: ((Leaf.mk a chain).applied.map .transform ++ [])) := by
    rw [show ((Term.atom a).chained chain).classPlan = ClassOp.ofLeaves _ from rfl, hleaves]
    exact ClassOp.ofLeaves_cons_eq_ok.mpr ⟨op, [], hop, rfl, rfl⟩
  refine yields_of_runFrom ?_ ?_ hops ?_
  · intro b hb
    rw [hatoms, List.mem_singleton] at hb
    rw [hb]
    exact ha
  · rw [hatoms]
    exact fun heq => hne (Option.some.inj heq)
  · rw [ClassOp.runFrom_leaf, hstep]
    rfl

/-- An atom after another. -/
theorem yields_seq (ha : a.Bounded) (hne : a ≠ .toClass) (hop : ClassOp.ofAtom a = .ok op)
    (hstep : ClassOp.step p none op = .ok (some r)) (hb : b.Bounded)
    (hop' : ClassOp.ofAtom b = .ok op') (hstep' : ClassOp.step p (some r) op' = .ok (some r')) :
    (Term.seq (.atom a) (.atom b)).Yields p r'.value r'.overflow := by
  have hops : (Term.seq (.atom a) (.atom b)).classPlan = .ok [op, op'] := by
    refine ClassOp.ofLeaves_cons_eq_ok.mpr ⟨op, [op'], hop, ?_, rfl⟩
    exact ClassOp.ofLeaves_cons_eq_ok.mpr ⟨op', [], hop', rfl, rfl⟩
  refine yields_of_runFrom ?_ (fun heq => hne (Option.some.inj heq)) hops ?_
  · intro e he
    rcases List.mem_pair.mp he with rfl | rfl
    · exact ha
    · exact hb
  · rw [ClassOp.runFrom, List.foldlM_cons, hstep]
    show (ClassOp.step p (some r) op' >>= fun state => [].foldlM (ClassOp.step p) state) = _
    rw [hstep']
    rfl

end Term

/-- The atom gives the class to a run that begins with it. -/
structure Atom.Gives (p : Params) (a : Atom) (c : Nat) : Prop where
  lt : c < classCount
  bounded : a.Bounded
  ne_toClass : a ≠ .toClass
  step : ∃ op, ClassOp.ofAtom a = .ok op ∧ ClassOp.step p none op = .ok (some (.plain c))

namespace Atom.Gives

variable {p : Params} {a : Atom} {c : Nat}

theorem literal (p : Params) (hc : c < classCount) : (Atom.literal c).Gives p c :=
  ⟨hc, hc, by rintro ⟨⟩, _, rfl, rfl⟩

theorem lift (p : Params) (hc : c < classCount) : (Atom.lift c).Gives p c :=
  ⟨hc, hc, by rintro ⟨⟩, _, rfl, rfl⟩

theorem param {name : String} {n : Int} (h : p.int name = .ok n) :
    (Atom.param name).Gives p (n % classCount).toNat := by
  refine ⟨Register.bounded_ofInt n, trivial, by rintro ⟨⟩, _, rfl, ?_⟩
  rw [ClassOp.step, h]
  rfl

theorem yields_chained (h : a.Gives p c) (chain : List Transform) :
    ((Term.atom a).chained chain).Yields p
      (Transform.actChain chain (.ofClass c)).classIndex none := by
  obtain ⟨op, hop, hstep⟩ := h.step
  have hyields := Term.yields_chained h.bounded h.ne_toClass hop hstep chain
  have hlt : (Register.plain c).Bounded := h.lt
  rw [Register.move_eq chain hlt] at hyields
  exact hyields

theorem yields (h : a.Gives p c) : (Term.atom a).Yields p c none := by
  have hyields := h.yields_chained []
  rw [show Transform.actChain [] (.ofClass c) = .ofClass c from rfl,
    Coordinates.classIndex_ofClass, Nat.mod_eq_of_lt h.lt] at hyields
  exact hyields

/-- A transform above the atom acts on the class. Where it is left out, it moves nothing. -/
theorem yields_transformed (h : a.Gives p c) (f : Transform) :
    (Term.transformed f (.atom a)).Yields p (f.act (.ofClass c)).classIndex none := by
  unfold Term.transformed
  split
  · next hid =>
    have hact : f.act (.ofClass c) = .ofClass c :=
      ((Rule.Replaces.drop hid).sameAction (by decide)).onCoordinates (.ofClass c)
    rw [hact, Coordinates.classIndex_ofClass, Nat.mod_eq_of_lt h.lt]
    exact h.yields
  · have hact : f.reduced.act (.ofClass c) = f.act (.ofClass c) := by
      cases f with
      | power a k =>
          rw [Transform.reduced_power_eq_ofInt]
          exact Transform.act_ofInt a k _
      | mirror => rfl
    rw [← hact]
    exact h.yields_chained [f.reduced]

theorem yields_project (h : a.Gives p c) :
    (Term.seq (.atom a) (.atom .toClass)).Yields p c none := by
  obtain ⟨op, hop, hstep⟩ := h.step
  exact Term.yields_seq (b := .toClass) h.bounded h.ne_toClass hop hstep trivial rfl rfl

theorem yields_ring (h : a.Gives p c) (op : RingOp) (mode : OverflowMode) {right : Int}
    (hright : p.int rightOperand = .ok right) :
    (Term.seq (.atom a) (.atom (.ring op mode))).Yields p
      (Register.ring op mode c right).value (Register.ring op mode c right).overflow := by
  obtain ⟨op', hop, hstep⟩ := h.step
  exact Term.yields_seq (b := .ring op mode) h.bounded h.ne_toClass hop hstep trivial rfl
    (ClassOp.step_ring op mode rfl hright)

end Atom.Gives

theorem Term.yields_ring {p : Params} (op : RingOp) (mode : OverflowMode) {left right : Int}
    (hleft : p.int leftOperand = .ok left) (hright : p.int rightOperand = .ok right) :
    (Term.atom (.ring op mode)).Yields p
      (Register.ring op mode left right).value (Register.ring op mode left right).overflow :=
  Term.yields_chained (a := .ring op mode) trivial (by rintro ⟨⟩) rfl
    (ClassOp.step_ring op mode hleft hright) []

/-! ## Terms that are normal as they are made -/

namespace Rule

theorem reduct?_reduced {f : Transform} (hf : ¬ f.isIdentity = true) (a : Atom) (r : Rule) :
    r.reduct? (.transform f.reduced (.atom a)) = none := by
  cases f with
  | mirror => cases r <;> rfl
  | power axis k =>
      cases r with
      | identity =>
          have hlt : k % axis.order < axis.order := Nat.mod_lt _ axis.order_pos
          have hne : ¬ (Transform.power axis (k % axis.order)).isIdentity = true := by
            rw [Transform.isIdentity_power] at hf ⊢
            rw [Nat.mod_mod]
            exact hf
          show dropIdentity? (.transform (.power axis (k % axis.order)) (.atom a)) = none
          rw [dropIdentity?, if_neg hne, if_pos (Transform.isReduced_power.mpr hlt)]
      -- every other rule looks for a second node above the atom
      | _ => rfl

theorem isNormal_transformed (rules : List Rule) (f : Transform) (a : Atom) :
    isNormal rules (Term.transformed f (.atom a)) = true := by
  unfold Term.transformed
  split
  · exact isNormal_atom rules a
  · next hf =>
    have hquiet : fire? rules (.transform f.reduced (.atom a)) = none :=
      fire?_eq_none_iff.mpr fun r _ => reduct?_reduced hf a r
    rw [isNormal, hquiet, isNormal_atom]
    rfl

theorem isNormal_pair (rules : List Rule) (a b : Atom) :
    isNormal rules (.seq (.atom a) (.atom b)) = true := by
  rw [isNormal_seq, isNormal_atom, isNormal_atom]
  rfl

end Rule

/-! ## The terms of recipes -/

namespace Recipe

variable {d : Descriptor} {p : Params} {x : String → Int} {t : Term}

/-- An operand is the compiled class, by itself or lifted, or else the runtime parameter. -/
theorem operand_cases {lifted : Bool} (h : operand d lifted = .ok t) :
    (∃ c : Nat, t = .atom (if lifted then .lift c else .literal c) ∧ c < classCount ∧
      d.compiledInt? "class" = some (c : Int)) ∨
    (t = .atom (.param runtimeOperand) ∧ runtimeOperand ∈ d.runtimeParams ∧
      d.compiledInt? "class" = none) := by
  obtain ⟨v, hv, h⟩ := bind_eq_ok.mp h
  have hclass := Descriptor.intParam_eq_ok hv
  cases v with
  | some n =>
      left
      cases lifted with
      | true =>
          obtain ⟨c, rfl, hlt, rfl⟩ := Term.lift_eq_ok h
          exact ⟨c, rfl, hlt, hclass⟩
      | false =>
          obtain ⟨c, rfl, hlt, rfl⟩ := Term.literal_eq_ok h
          exact ⟨c, rfl, hlt, hclass⟩
  | none =>
      right
      dsimp only at h
      split at h
      · next hx =>
        cases h
        exact ⟨rfl, List.contains_iff_mem.mp hx, hclass⟩
      · cases h

/-- A ring operation stands after the class that is compiled in, or by itself. -/
theorem ringTerm_cases {op : RingOp} (h : ringTerm d op = .ok t) :
    ∃ mode, d.overflowMode = .ok mode ∧
      ((∃ c : Nat, t = .seq (.atom (.literal c)) (.atom (.ring op mode)) ∧ c < classCount ∧
        d.compiledInt? "class" = some (c : Int)) ∨
      (t = .atom (.ring op mode) ∧ d.compiledInt? "class" = none)) := by
  obtain ⟨mode, hmode, h⟩ := bind_eq_ok.mp h
  obtain ⟨v, hv, h⟩ := bind_eq_ok.mp h
  have hclass := Descriptor.intParam_eq_ok hv
  refine ⟨mode, hmode, ?_⟩
  cases v with
  | some n =>
      obtain ⟨t', ht', h⟩ := bind_eq_ok.mp h
      cases h
      obtain ⟨c, rfl, hlt, rfl⟩ := Term.literal_eq_ok ht'
      exact .inl ⟨c, rfl, hlt, hclass⟩
  | none =>
      cases h
      exact .inr ⟨rfl, hclass⟩

/-- The forms of the terms that recipes make. Only one recipe projects a grade, at the end of its
term. -/
inductive Shape (r : Recipe) : Term → Prop where
  | single {a : Atom} (hr : r ≠ .projectGrade) (ha : a.isGrade = false) : Shape r (.atom a)
  | moved {a : Atom} (f : Transform) (hr : r ≠ .projectGrade) (ha : a.isGrade = false) :
      Shape r (Term.transformed f (.atom a))
  | pair {a b : Atom} (ha : a.isGrade = false) (hb : b.isGrade = true ↔ r = .projectGrade) :
      Shape r (.seq (.atom a) (.atom b))

theorem operand_shape {lifted : Bool} (h : operand d lifted = .ok t) :
    ∃ a, t = .atom a ∧ a.isGrade = false := by
  rcases operand_cases h with ⟨c, rfl, -, -⟩ | ⟨rfl, -, -⟩
  · refine ⟨_, rfl, ?_⟩
    cases lifted <;> rfl
  · exact ⟨_, rfl, rfl⟩

/-- **What recipes make.** -/
theorem shape_term {r : Recipe} (h : r.term d = .ok t) : r.Shape t := by
  cases r with
  | literal =>
      obtain ⟨a, rfl, ha⟩ := operand_shape h
      exact .single (by simp) ha
  | lift =>
      obtain ⟨n, -, h⟩ := bind_eq_ok.mp h
      obtain ⟨c, rfl, -, -⟩ := Term.lift_eq_ok h
      exact .single (by simp) rfl
  | project =>
      obtain ⟨t', ht', h⟩ := bind_eq_ok.mp h
      cases h
      obtain ⟨a, rfl, ha⟩ := operand_shape ht'
      exact .pair ha (by simp [Atom.isGrade])
  | projectGrade =>
      obtain ⟨t', ht', h⟩ := bind_eq_ok.mp h
      obtain ⟨g, -, h⟩ := bind_eq_ok.mp h
      obtain ⟨u, hu, h⟩ := bind_eq_ok.mp h
      cases h
      obtain ⟨a, rfl, ha⟩ := operand_shape ht'
      unfold Term.grade at hu
      split at hu
      · cases hu
        exact .pair ha (by simp [Atom.isGrade])
      · cases hu
  | ring op =>
      obtain ⟨mode, -, ⟨c, rfl, -, -⟩ | ⟨rfl, -⟩⟩ := ringTerm_cases h
      · exact .pair rfl (by simp [Atom.isGrade])
      · exact .single (by simp) rfl
  | turn axis =>
      obtain ⟨t', ht', h⟩ := bind_eq_ok.mp h
      obtain ⟨k, -, h⟩ := bind_eq_ok.mp h
      cases h
      obtain ⟨a, rfl, ha⟩ := operand_shape ht'
      exact .moved _ (by simp) ha
  | mirror =>
      obtain ⟨t', ht', h⟩ := bind_eq_ok.mp h
      cases h
      obtain ⟨a, rfl, ha⟩ := operand_shape ht'
      exact .moved _ (by simp) ha

/-- The terms of recipes are normal. -/
theorem Shape.isNormal {r : Recipe} (h : r.Shape t) (rules : List Rule) :
    Rule.isNormal rules t = true := by
  cases h with
  | single => exact Rule.isNormal_atom rules _
  | moved f => exact Rule.isNormal_transformed rules f _
  | pair => exact Rule.isNormal_pair rules _ _

/-- The operand of a recipe is an atom that gives the class of the recipe. -/
theorem operand_gives {lifted : Bool} (h : operand d lifted = .ok t)
    (hp : p.Supplies x d.runtimeParams) :
    ∃ a c, t = .atom a ∧ a.Gives p c ∧ (c : Int) = d.classWith x := by
  unfold Descriptor.classWith
  rcases operand_cases h with ⟨c, rfl, hlt, hclass⟩ | ⟨rfl, hx, hclass⟩
  · rw [hclass]
    refine ⟨_, c, rfl, ?_, rfl⟩
    cases lifted with
    | true => exact .lift p hlt
    | false => exact .literal p hlt
  · -- the parameter is declared, so it is supplied
    rw [hclass]
    refine ⟨_, _, rfl, .param (hp.int hx), ?_⟩
    exact Int.toNat_of_nonneg (Int.emod_nonneg _ (by decide))

theorem eval_eq_ringResult (d : Descriptor) (x : String → Int) (op : RingOp) :
    op.eval (d.leftWith x) (x "b") = ringResult d x op := by
  cases op with
  | add => rfl
  | sub => rfl
  | mul => rfl

/-- A ring operation has the compiled class or else the parameter `a` on its left. -/
theorem ringTerm_yields {op : RingOp} (h : ringTerm d op = .ok t)
    (hp : p.Supplies x (needs d (.ring op))) :
    ∃ mode, d.overflowMode = .ok mode ∧ t.Yields p
      (Register.ring op mode (d.leftWith x) (x "b")).value
      (Register.ring op mode (d.leftWith x) (x "b")).overflow := by
  unfold needs at hp
  have hright : p.int rightOperand = .ok (x "b") :=
    hp.int (List.mem_append_right _ (List.mem_singleton_self "b"))
  obtain ⟨mode, hmode, hcases⟩ := ringTerm_cases h
  refine ⟨mode, hmode, ?_⟩
  rw [Descriptor.leftWith]
  rcases hcases with ⟨c, rfl, hlt, hclass⟩ | ⟨rfl, hclass⟩
  · rw [hclass]
    exact (Atom.Gives.literal p hlt).yields_ring op mode hright
  · rw [hclass] at hp ⊢
    have hleft : p.int leftOperand = .ok (x "a") := hp.int (List.mem_cons_self (a := "a"))
    exact Term.yields_ring op mode hleft hright

/-- **The term of a recipe is normal and gives what the recipe computes**, on either backend. -/
theorem term_yields {r : Recipe} (h : r.term d = .ok t) (hr : r ≠ .projectGrade)
    (hp : p.Supplies x (d.runtimeParams ++ r.needs d)) :
    Rule.isNormal Rule.standard t = true ∧
    ∃ c, t.Yields p c (r.flag? d x) ∧ r.value? d x = some (c : Int) := by
  have hdeclared : p.Supplies x d.runtimeParams := fun n hn => hp n (List.mem_append_left _ hn)
  have hneeded : p.Supplies x (r.needs d) := fun n hn => hp n (List.mem_append_right _ hn)
  refine ⟨(shape_term h).isNormal Rule.standard, ?_⟩
  cases r with
  | literal =>
      obtain ⟨a, c, rfl, ha, hc⟩ := operand_gives h hdeclared
      exact ⟨c, ha.yields, congrArg some hc.symm⟩
  | lift =>
      obtain ⟨n, hn, h⟩ := bind_eq_ok.mp h
      obtain ⟨c, rfl, hlt, hc⟩ := Term.lift_eq_ok h
      refine ⟨c, (Atom.Gives.lift p hlt).yields, ?_⟩
      rw [value?, Descriptor.classWith, Descriptor.requiredInt_eq_ok hn, hc]
      rfl
  | project =>
      obtain ⟨t', ht', h⟩ := bind_eq_ok.mp h
      cases h
      obtain ⟨a, c, rfl, ha, hc⟩ := operand_gives ht' hdeclared
      exact ⟨c, ha.yields_project, congrArg some hc.symm⟩
  | projectGrade => exact absurd rfl hr
  | ring op =>
      obtain ⟨mode, hmode, hyields⟩ := ringTerm_yields h hneeded
      have htracked : (ring op).flag? d x
          = (Register.ring op mode (d.leftWith x) (x "b")).overflow := by
        rw [Register.overflow_ring, flag?, Descriptor.overflowMode_eq_ok hmode, eval_eq_ringResult]
        simp only [decide_eq_true_eq]
      refine ⟨_, htracked ▸ hyields, ?_⟩
      rw [value?, Register.value_ring, eval_eq_ringResult]
  | turn axis =>
      obtain ⟨t', ht', h⟩ := bind_eq_ok.mp h
      obtain ⟨k, hk, h⟩ := bind_eq_ok.mp h
      cases h
      obtain ⟨v, hv, hk⟩ := bind_eq_ok.mp hk
      cases hk
      obtain ⟨a, c, rfl, ha, hc⟩ := operand_gives ht' hdeclared
      refine ⟨_, ha.yields_transformed _, ?_⟩
      rw [value?, ← hc, Transform.act_ofInt, Axis.classIndex_turn axis ha.lt, Descriptor.steps,
        Descriptor.intParam_eq_ok hv]
  | mirror =>
      obtain ⟨t', ht', h⟩ := bind_eq_ok.mp h
      cases h
      obtain ⟨a, c, rfl, ha, hc⟩ := operand_gives ht' hdeclared
      refine ⟨_, ha.yields_transformed _, ?_⟩
      rw [value?, ← hc]
      exact congrArg some (Coordinates.classIndex_mirror ha.lt).symm

theorem ofName?_name (r : Recipe) : ofName? r.name = some r := by
  cases r with
  | ring op => cases op <;> rfl
  | turn axis => cases axis <;> rfl
  | _ => rfl

theorem of_mem_classRecipes : ∀ p ∈ classRecipes, p.1 = p.2.name ∧ p.2 ≠ .projectGrade := by
  decide

theorem name_injective : Function.Injective name := by
  intro r r' h
  have hsome : some r = some r' := by rw [← ofName?_name, h, ofName?_name]
  exact Option.some.inj hsome

end Recipe

theorem Descriptor.term_of_name {d : Descriptor} {r : Recipe} {t : Term} (hname : d.name = r.name)
    (h : d.term = .ok t) : r.term d = .ok t := by
  rw [Descriptor.term, hname, Recipe.ofName?_name] at h
  exact mapError_eq_ok.mp h

/-- **A compiled model computes its recipe.** With the declared parameters and those that the recipe
reads, all of them integers, a run succeeds with the class and the flag of the recipe, whatever
hint, preference and options the model was compiled with. -/
theorem run_computes_recipe {d : Descriptor} {o : Options} {m : Model} {r : Recipe} {p : Params}
    {x : String → Int} (h : Model.compile d o = .ok m) (hd : (d.name, r) ∈ Recipe.classRecipes)
    (hp : p.Supplies x (d.runtimeParams ++ r.needs d)) :
    ∃ out c, m.run p = .ok out ∧ out.value = some c ∧ r.value? d x = some (c : Int) ∧
      out.overflow = r.flag? d x := by
  obtain ⟨hname, hr⟩ := Recipe.of_mem_classRecipes _ hd
  have hm := Model.compile_eq_ok h
  obtain ⟨source, normal, hsource, hnormal, hterm⟩ := hm.term
  obtain ⟨hrest, c, hyields, hc⟩ := Recipe.term_yields (d.term_of_name hname hsource) hr hp
  -- normalisation found nothing to do, so the plan is that of the term of the recipe
  have hkept : m.term = source := hterm.trans (Rule.derive_term_of_isNormal hnormal hrest)
  obtain ⟨out, hout, hvalue, hflag⟩ := hyields m.backend m.plan (hkept ▸ hm.plan)
  have hrun : m.run p = m.plan.run p :=
    hm.run_eq fun n hn => hp.contains (List.mem_append_left _ hn)
  exact ⟨out, c, hrun.trans hout, hvalue, hc, hflag⟩

/-- A twist backwards, on the element backend and said to be of the first tier. -/
def backwardTwist : Descriptor where
  name := "twist"
  version := "1"
  namespaceName := "turns"
  compiledParams := [("k", .int (-13))]
  runtimeParams := ["x"]
  complexityHint := some "C0"
  backend := some (.use .byElement)

/-- A difference of two parameters, of which one is declared. -/
def trackedDifference : Descriptor where
  name := "sub96"
  version := "1"
  namespaceName := "sums"
  compiledParams := [("overflow", .object [("track", .null)])]
  runtimeParams := ["a"]
  complexityHint := none
  backend := none

/-- A recipe for class 90, with ten steps for a turn and with overflow being tracked. -/
def recipeOfNinety (name : String) : Descriptor where
  name := name
  version := "1"
  namespaceName := "samples"
  compiledParams := [("class", .int 90), ("k", .int 10), ("overflow", .string "track")]
  runtimeParams := []
  complexityHint := none
  backend := none

/-- From class 95, thirteen steps back lead to class 90; and `5 - 100` is 1 with an overflow. Class
90 has the digits 3, 2 and 2, of which each turn and the mirror change another one or in another
way, and with five it has a sum and a difference in range and a product that is not. -/
theorem run_computes_recipe_backwardTwist :
    (∃ m m' out out', Model.compile backwardTwist { maxSweeps := 1, compiled := false } = .ok m ∧
      Model.compile trackedDifference {} = .ok m' ∧
      m.run [("x", .int (-1))] = .ok out ∧ out.value = some 90 ∧ out.overflow = none ∧
      m'.run [("b", .int 100), ("a", .int 5)] = .ok out' ∧
      out'.value = some 1 ∧ out'.overflow = some true) ∧
    ∀ s ∈ [("literal", 90, none), ("lift", 90, none), ("project", 90, none), ("rotate", 42, none),
        ("triality", 74, none), ("twist", 92, none), ("mirror", 82, none),
        ("add96", 95, some false), ("sub96", 85, some false), ("mul96", 66, some true)],
      ∃ m out, Model.compile (recipeOfNinety s.1) {} = .ok m ∧ m.run [("b", .int 5)] = .ok out ∧
        out.value = some s.2.1 ∧ out.overflow = s.2.2 := by
  constructor
  · have hm : Model.compile backwardTwist { maxSweeps := 1, compiled := false } = .ok _ := rfl
    have hm' : Model.compile trackedDifference {} = .ok _ := rfl
    have hp : Params.Supplies [("x", .int (-1))] (fun _ => -1)
        (backwardTwist.runtimeParams ++ Recipe.needs backwardTwist (.turn .twist)) :=
      List.forall_mem_singleton.mpr rfl
    have hp' : Params.Supplies [("b", .int 100), ("a", .int 5)]
        (fun n => if n = "a" then 5 else 100)
        (trackedDifference.runtimeParams ++ Recipe.needs trackedDifference (.ring .sub)) :=
      List.forall_mem_cons.mpr
        ⟨rfl, List.forall_mem_cons.mpr ⟨rfl, List.forall_mem_singleton.mpr rfl⟩⟩
    obtain ⟨out, c, hrun, hvalue, hc, hflag⟩ := run_computes_recipe hm (by decide) hp
    obtain ⟨out', c', hrun', hvalue', hc', hflag'⟩ := run_computes_recipe hm' (by decide) hp'
    have h90 : (90 : Int) = c := Option.some.inj hc
    have h1 : (1 : Int) = c' := Option.some.inj hc'
    obtain rfl : c = 90 := by omega
    obtain rfl : c' = 1 := by omega
    exact ⟨_, _, out, out', hm, hm', hrun, hvalue, hflag, hrun', hvalue', hflag'⟩
  · -- the parameter `b` is there, whether the recipe reads it or not
    have hrun (name : String) (r : Recipe) (c : Nat) (flag : Option Bool)
        (hcompile : ∃ m, Model.compile (recipeOfNinety name) {} = .ok m)
        (hname : (name, r) ∈ Recipe.classRecipes)
        (hvalue : r.value? (recipeOfNinety name) (fun _ => 5) = some (c : Int))
        (hflag : r.flag? (recipeOfNinety name) (fun _ => 5) = flag) :
        ∃ m out, Model.compile (recipeOfNinety name) {} = .ok m ∧
          m.run [("b", .int 5)] = .ok out ∧ out.value = some c ∧ out.overflow = flag := by
      have hp : Params.Supplies [("b", .int 5)] (fun _ => 5)
          ((recipeOfNinety name).runtimeParams ++ r.needs (recipeOfNinety name)) := by
        intro n hn
        cases r <;> simp_all [recipeOfNinety, Recipe.needs, Descriptor.compiledInt?, Table.find?]
      obtain ⟨m, hm⟩ := hcompile
      obtain ⟨out, c', hout, hc, hc', hflag'⟩ := run_computes_recipe hm hname hp
      have heq : (c' : Int) = c := Option.some.inj (hc'.symm.trans hvalue)
      refine ⟨m, out, hm, hout, ?_, hflag'.trans hflag⟩
      rw [hc, Int.ofNat.inj heq]
    simp only [List.forall_mem_cons, List.not_mem_nil, false_imp_iff, implies_true, and_true]
    refine ⟨?_, ?_, ?_, ?_, ?_, ?_, ?_, ?_, ?_, ?_⟩
    · exact hrun _ .literal _ _ ⟨_, rfl⟩ (by decide) (by decide) rfl
    · exact hrun _ .lift _ _ ⟨_, rfl⟩ (by decide) (by decide) rfl
    · exact hrun _ .project _ _ ⟨_, rfl⟩ (by decide) (by decide) rfl
    · exact hrun _ (.turn .rotate) _ _ ⟨_, rfl⟩ (by decide) (by decide) rfl
    · exact hrun _ (.turn .triality) _ _ ⟨_, rfl⟩ (by decide) (by decide) rfl
    · exact hrun _ (.turn .twist) _ _ ⟨_, rfl⟩ (by decide) (by decide) rfl
    · exact hrun _ .mirror _ _ ⟨_, rfl⟩ (by decide) (by decide) rfl
    · exact hrun _ (.ring .add) _ _ ⟨_, rfl⟩ (by decide) (by decide) (by decide)
    · exact hrun _ (.ring .sub) _ _ ⟨_, rfl⟩ (by decide) (by decide) (by decide)
    · exact hrun _ (.ring .mul) _ _ ⟨_, rfl⟩ (by decide) (by decide) (by decide)

end NinetySix
