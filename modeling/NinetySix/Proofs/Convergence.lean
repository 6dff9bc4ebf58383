import NinetySix.Proofs.Moves
import NinetySix.Proofs.Reduction

set_option autoImplicit false

/-! # Normalisation converges

Distribution copies transforms and ordering only exchanges them, so a term does not get smaller from
sweep to sweep. Its routes get simpler. A route is the list of the nodes above one atom, and a sweep
treats every route by itself: no rule adds an atom, whether a rule applies at a node can be seen on
each route through it, and so can what it does there.

`Route.potential` counts what can still be done on a route: every transform can vanish, an exponent
can be reduced, and a transform can be exchanged with nodes below it that belong above it. A rule
that is fired lowers the potential of all routes through its place (`Rule.Replaces.below`,
`Route.below_exchange`). So a sweep lowers the potential of a route unless no rule applies anywhere
on it, and then leaves it as it is (`Rule.swept_pass`). Hence a route is quiet after as many sweeps
as its potential, which is at most quadratic in its length (`Route.potential_le`).

A derivation ends at a normal term and nowhere else. That it cannot come back to its start is not
due to the potential: the start would be normal, and then nothing would have been fired
(`Rule.trace_eq_nil_iff`).
-/

namespace NinetySix

/-! ## Routes -/

/-- A node above an atom. -/
inductive Node where
  | composition
  | transform (f : Transform)
  deriving DecidableEq, Repr

/-- The nodes from the root of a term to one of its atoms. -/
abbrev Route := List Node

namespace Term

/-- The routes to the atoms, from left to right. -/
def routes : Term → List Route
  | .atom _ => [[]]
  | .seq l r => (l.routes ++ r.routes).map (.composition :: ·)
  | .par l r => (l.routes ++ r.routes).map (.composition :: ·)
  | .transform f t => t.routes.map (.transform f :: ·)

/-- The greatest number of compositions and transforms above an atom. -/
def depth : Term → Nat
  | .atom _ => 0
  | .seq l r => 1 + max l.depth r.depth
  | .par l r => 1 + max l.depth r.depth
  | .transform _ t => 1 + t.depth

/-- The node at the root, if that is no atom. -/
def root? : Term → Option Node
  | .atom _ => none
  | .seq _ _ => some .composition
  | .par _ _ => some .composition
  | .transform f _ => some (.transform f)

theorem exists_mem_routes (t : Term) : ∃ w, w ∈ t.routes := by
  induction t with
  | atom a => exact ⟨[], List.mem_singleton_self []⟩
  | seq l r ihl _ =>
      obtain ⟨w, hw⟩ := ihl
      exact ⟨_, List.mem_map_of_mem (List.mem_append_left _ hw)⟩
  | par l r ihl _ =>
      obtain ⟨w, hw⟩ := ihl
      exact ⟨_, List.mem_map_of_mem (List.mem_append_left _ hw)⟩
  | transform f t ih =>
      obtain ⟨w, hw⟩ := ih
      exact ⟨_, List.mem_map_of_mem hw⟩

/-- Every route begins at the root. -/
theorem head?_of_mem_routes {t : Term} {w : Route} (hw : w ∈ t.routes) : w.head? = t.root? := by
  cases t with
  | atom a =>
      rw [List.mem_singleton.mp hw]
      rfl
  | seq l r =>
      obtain ⟨w', -, rfl⟩ := List.mem_map.mp hw
      rfl
  | par l r =>
      obtain ⟨w', -, rfl⟩ := List.mem_map.mp hw
      rfl
  | transform f t =>
      obtain ⟨w', -, rfl⟩ := List.mem_map.mp hw
      rfl

theorem eq_transform_of_root? {t : Term} {f : Transform} (h : t.root? = some (.transform f)) :
    ∃ b, t = .transform f b := by
  cases t with
  | transform g b =>
      cases h
      exact ⟨b, rfl⟩
  | atom a => cases h
  | seq l r => cases h
  | par l r => cases h

theorem eq_composition_of_root? {t : Term} (h : t.root? = some .composition) :
    ∃ x y, t = .seq x y ∨ t = .par x y := by
  cases t with
  | seq l r => exact ⟨l, r, .inl rfl⟩
  | par l r => exact ⟨l, r, .inr rfl⟩
  | atom a => cases h
  | transform f b => cases h

theorem length_le_depth (t : Term) {w : Route} (hw : w ∈ t.routes) : w.length ≤ t.depth := by
  induction t generalizing w with
  | atom a =>
      rw [List.mem_singleton.mp hw]
      exact Nat.zero_le _
  | seq l r ihl ihr =>
      obtain ⟨w', hw', rfl⟩ := List.mem_map.mp hw
      rw [depth, List.length_cons]
      rcases List.mem_append.mp hw' with hl | hr
      · have := ihl hl
        omega
      · have := ihr hr
        omega
  | par l r ihl ihr =>
      obtain ⟨w', hw', rfl⟩ := List.mem_map.mp hw
      rw [depth, List.length_cons]
      rcases List.mem_append.mp hw' with hl | hr
      · have := ihl hl
        omega
      · have := ihr hr
        omega
  | transform f t ih =>
      obtain ⟨w', hw', rfl⟩ := List.mem_map.mp hw
      have := ih hw'
      rw [depth, List.length_cons]
      omega

theorem routes_chained (chain : List Transform) (t : Term) :
    (t.chained chain).routes = t.routes.map (chain.map Node.transform ++ ·) := by
  induction chain with
  | nil => exact (List.map_id' _).symm
  | cons f chain ih =>
      show (t.chained chain).routes.map (.transform f :: ·) = _
      rw [ih, List.map_map]
      rfl

end Term

/-! ## The potential of a route -/

/-- The node belongs above the transform: all compositions do, and the turns about earlier axes. -/
def Node.precedes (f : Transform) : Node → Bool
  | .composition => true
  | .transform g =>
    match f, g with
    | .power a _, .power b _ => b.rank < a.rank
    | _, _ => false

/-- A transform can vanish, and before that its exponent can be reduced. -/
def Transform.weight (f : Transform) : Nat := if f.isReduced then 1 else 2

namespace Route

/-- The number of nodes on a route below the transform that belong above it. -/
def inversions (f : Transform) (w : Route) : Nat := w.countP (Node.precedes f)

/-- What can still be done on a route. -/
def potential : Route → Nat
  | [] => 0
  | .composition :: w => potential w
  | .transform f :: w => f.weight + inversions f w + potential w

theorem potential_composition (w : Route) : potential (.composition :: w) = potential w := rfl

theorem potential_transform (f : Transform) (w : Route) :
    potential (.transform f :: w) = f.weight + inversions f w + potential w := rfl

theorem inversions_cons (f : Transform) (n : Node) (w : Route) :
    inversions f (n :: w) = inversions f w + if n.precedes f then 1 else 0 := List.countP_cons

/-- The potential is at most quadratic in the length. -/
theorem potential_le (w : Route) :
    w.potential ≤ w.length * (w.length - 1) / 2 + 2 * w.length := by
  induction w with
  | nil => exact Nat.le_refl 0
  | cons n w ih =>
      rw [List.length_cons, Nat.triangle_succ]
      cases n with
      | composition =>
          rw [potential]
          omega
      | transform f =>
          have hweight : f.weight ≤ 2 := by
            unfold Transform.weight
            split <;> omega
          have hinv : inversions f w ≤ w.length := List.countP_le_length
          rw [potential]
          omega

/-- The first route has come further than the second: less can be done on it, and a transform above
it has no more nodes to pass. -/
structure Below (w' w : Route) : Prop where
  potential : w'.potential < w.potential
  inversions : ∀ f, w'.inversions f ≤ w.inversions f

theorem Below.trans {w w' w'' : Route} (h : Below w'' w') (h' : Below w' w) : Below w'' w :=
  ⟨h.potential.trans h'.potential, fun f => (h.inversions f).trans (h'.inversions f)⟩

/-- A route that has come further has done so below any node. -/
theorem Below.cons {w w' : Route} (h : Below w' w) (n : Node) : Below (n :: w') (n :: w) := by
  have hpotential := h.potential
  constructor
  · cases n with
    | composition => exact hpotential
    | transform f =>
        have hinv := h.inversions f
        rw [Route.potential, Route.potential]
        omega
  · intro f
    have hinv := h.inversions f
    rw [inversions_cons, inversions_cons]
    omega

end Route

/-! ## Rules lower the potential -/

namespace Transform

theorem weight_pos (f : Transform) : 0 < f.weight := by
  unfold weight
  split <;> omega

theorem weight_ofInt (a : Axis) (k : Int) : (ofInt a k).weight = 1 :=
  if_pos (isReduced_power.mpr (toNat_emod_lt a.order_pos k))

end Transform

/-- Exponents do not matter to the place of a turn. -/
theorem Node.precedes_power (f : Transform) (a : Axis) (j k : Nat) :
    Node.precedes f (.transform (.power a j)) = Node.precedes f (.transform (.power a k)) := by
  cases f <;> rfl

namespace Route

theorem inversions_power (a : Axis) (j k : Nat) (w : Route) :
    inversions (.power a j) w = inversions (.power a k) w := by
  refine List.countP_congr fun n _ => ?_
  cases n with
  | composition => rfl
  | transform g => cases g <;> rfl

/-- A transform vanishes. -/
theorem below_drop (f : Transform) (w : Route) : Below w (.transform f :: w) := by
  have hpos := f.weight_pos
  constructor
  · rw [potential_transform]
    omega
  · intro g
    rw [inversions_cons]
    omega

/-- A transform and a turn become one turn. -/
theorem below_join (f : Transform) (a : Axis) (i : Int) (k : Nat) (w : Route) :
    Below (.transform (.ofInt a i) :: w) (.transform f :: .transform (.power a k) :: w) := by
  have hf := f.weight_pos
  have hpos := (Transform.power a k).weight_pos
  have hweight := Transform.weight_ofInt a i
  have hinv : inversions (.ofInt a i) w = inversions (.power a k) w := inversions_power a _ k w
  constructor
  · rw [potential_transform, potential_transform, potential_transform]
    omega
  · intro g
    rw [inversions_cons, inversions_cons, inversions_cons, Transform.ofInt,
      Node.precedes_power g a _ k]
    omega

/-- An exponent is reduced. -/
theorem below_reduce {a : Axis} {k : Nat} (hk : (Transform.power a k).isReduced = false)
    (w : Route) : Below (.transform (.ofInt a k) :: w) (.transform (.power a k) :: w) := by
  have hweight : (Transform.power a k).weight = 2 := if_neg (Bool.eq_false_iff.mp hk)
  have hweight' := Transform.weight_ofInt a k
  have hinv : inversions (.ofInt a k) w = inversions (.power a k) w := inversions_power a _ k w
  constructor
  · rw [potential_transform, potential_transform]
    omega
  · intro g
    rw [inversions_cons, inversions_cons, Transform.ofInt, Node.precedes_power g a _ k]

/-- Two neighbours are exchanged, of which the lower one belongs above the other, but not the other
way round. -/
theorem below_exchange {f : Transform} {n : Node} (hn : n.precedes f = true)
    (hf : ∀ g, n = .transform g → (Node.transform f).precedes g = false) (w : Route) :
    Below (n :: .transform f :: w) (.transform f :: n :: w) := by
  constructor
  · cases n with
    | composition =>
        rw [potential_transform, potential_composition, potential_composition, potential_transform,
          inversions_cons, if_pos hn]
        omega
    | transform g =>
        have hg : ¬ (Node.transform f).precedes g = true := Bool.eq_false_iff.mp (hf g rfl)
        rw [potential_transform, potential_transform, potential_transform, potential_transform,
          inversions_cons, inversions_cons, if_pos hn, if_neg hg]
        omega
  · intro g
    simp only [inversions_cons]
    omega

end Route

namespace Rule

/-- **A rule that replaces the head of a route brings the route further.** -/
theorem Replaces.below {r : Rule} {fs gs : List Transform} (h : r.Replaces fs gs) (w : Route) :
    Route.Below (gs.map .transform ++ w) (fs.map .transform ++ w) := by
  cases h with
  | @drop f => exact Route.below_drop f w
  | @reduce f _ hred =>
      cases f with
      | mirror => cases hred
      | power a k =>
          rw [Transform.reduced_power_eq_ofInt]
          exact Route.below_reduce hred w
  | fold a j k => exact Route.below_join _ a _ k w
  | cancel => exact (Route.below_drop .mirror w).trans (Route.below_drop .mirror _)
  | @conjugate a k => exact Route.below_join .mirror a _ k w
  | @swap a b j k hrank =>
      have hprecedes : Node.precedes (.power a j) (.transform (.power b k)) = true :=
        decide_eq_true hrank
      refine Route.below_exchange hprecedes ?_ w
      rintro g ⟨⟩
      exact decide_eq_false (Nat.not_lt.mpr hrank.le)

/-- The routes after a rule was fired at the root come from routes before. -/
theorem exists_below_of_reduct? {r : Rule} {t u : Term} (h : r.reduct? t = some u) {w' : Route}
    (hw' : w' ∈ u.routes) : ∃ w ∈ t.routes, Route.Below w' w := by
  obtain ⟨fs, gs, b, hchain, rfl, rfl⟩ | ⟨-, f, x, y, hxy⟩ := reduct?_cases h
  · rw [Term.routes_chained] at hw' ⊢
    obtain ⟨w, hw, rfl⟩ := List.mem_map.mp hw'
    exact ⟨_, List.mem_map_of_mem hw, hchain.below w⟩
  · -- distribution copies the transform, but each route keeps one, now below the composition
    have hroutes : t.routes = (x.routes ++ y.routes).map (.transform f :: .composition :: ·) ∧
        u.routes = (x.routes ++ y.routes).map (.composition :: .transform f :: ·) := by
      obtain ⟨rfl, rfl⟩ | ⟨rfl, rfl⟩ := hxy
      · simp [Term.routes, Function.comp_def]
      · simp [Term.routes, Function.comp_def]
    rw [hroutes.1]
    rw [hroutes.2] at hw'
    obtain ⟨w, hw, rfl⟩ := List.mem_map.mp hw'
    exact ⟨_, List.mem_map_of_mem hw, Route.below_exchange rfl (by rintro g ⟨⟩) w⟩

/-! ## Quiet routes -/

/-- A rule looks at one transform or at two. -/
theorem Replaces.eq_one_or_two {r : Rule} {fs gs : List Transform} (h : r.Replaces fs gs) :
    ∃ f, fs = [f] ∨ ∃ g, fs = [f, g] := by
  cases h <;> simp

/-- Whether a rule applies at a transform depends on the node below it only. -/
theorem isSome_reduct?_congr {r : Rule} {f : Transform} {t u : Term} (h : t.root? = u.root?)
    (hu : (r.reduct? (.transform f u)).isSome) : (r.reduct? (.transform f t)).isSome := by
  obtain ⟨v, hv⟩ := Option.isSome_iff_exists.mp hu
  obtain ⟨fs, gs, b, hchain, hfs, -⟩ | ⟨rfl, g, x, y, hxy⟩ := reduct?_cases hv
  · -- the other term begins with the same one or two transforms
    obtain ⟨b', hb'⟩ : ∃ b' : Term, .transform f t = b'.chained fs := by
      obtain ⟨f', rfl | ⟨g, rfl⟩⟩ := hchain.eq_one_or_two
      · cases hfs
        exact ⟨t, rfl⟩
      · cases hfs
        obtain ⟨b', rfl⟩ := Term.eq_transform_of_root? h
        exact ⟨b', rfl⟩
    rw [hb', hchain.reduct?_eq]
    rfl
  · have hroot : u.root? = some .composition := by
      obtain ⟨heq, -⟩ | ⟨heq, -⟩ := hxy
      · cases heq
        rfl
      · cases heq
        rfl
    obtain ⟨x', y', rfl | rfl⟩ := Term.eq_composition_of_root? (h.trans hroot)
    · rfl
    · rfl

theorem fire?_eq_none_congr {rules : List Rule} {f : Transform} {t u : Term}
    (h : t.root? = u.root?) :
    fire? rules (.transform f t) = none ↔ fire? rules (.transform f u) = none := by
  rw [fire?_eq_none_iff, fire?_eq_none_iff]
  simp only [← Option.not_isSome_iff_eq_none]
  exact ⟨fun ht r hr hu => ht r hr (isSome_reduct?_congr h hu),
    fun hu r hr ht => hu r hr (isSome_reduct?_congr h.symm ht)⟩

end Rule

namespace Route

/-- A term with the route in it, and nothing beside the route. -/
def spine : Route → Term
  | [] => .atom .toClass
  | .composition :: w => .seq (spine w) (.atom .toClass)
  | .transform f :: w => .transform f (spine w)

theorem root?_spine (w : Route) : w.spine.root? = w.head? := by
  cases w with
  | nil => rfl
  | cons n w => cases n <;> rfl

/-- No rule applies anywhere on the route. -/
def Quiet (rules : List Rule) (w : Route) : Prop := Rule.isNormal rules w.spine = true

variable {rules : List Rule}

theorem quiet_nil : Quiet rules [] := Rule.isNormal_atom rules _

theorem quiet_composition {w : Route} : Quiet rules (.composition :: w) ↔ Quiet rules w := by
  rw [Quiet, spine, Rule.isNormal_seq, Rule.isNormal_atom, Bool.and_true, Quiet]

/-- A route is quiet below a transform if no rule applies at the transform, in any term with the
route. -/
theorem quiet_transform {t : Term} {w : Route} (hw : w ∈ t.routes) (f : Transform) :
    Quiet rules (.transform f :: w) ↔
      Rule.fire? rules (.transform f t) = none ∧ Quiet rules w := by
  -- the rules see of the term no more than its root, and that is on the route
  have hroot : w.spine.root? = t.root? := (root?_spine w).trans (Term.head?_of_mem_routes hw)
  rw [← Rule.fire?_eq_none_congr hroot]
  simp [Quiet, spine, Rule.isNormal]

theorem Quiet.of_transform {f : Transform} {w : Route} (h : Quiet rules (.transform f :: w)) :
    Quiet rules w := (Bool.and_eq_true_iff.mp h).2

/-- Where nothing can be done, nothing is. -/
theorem quiet_of_potential {w : Route} (h : w.potential = 0) : Quiet rules w := by
  induction w with
  | nil => exact quiet_nil
  | cons n w ih =>
      cases n with
      | composition => exact quiet_composition.mpr (ih h)
      | transform f =>
          have hpos := f.weight_pos
          rw [potential_transform] at h
          omega

end Route

namespace Rule

variable {rules : List Rule}

/-- A term whose routes are all quiet is normal. -/
theorem isNormal_of_quiet {t : Term} (h : ∀ w ∈ t.routes, w.Quiet rules) :
    isNormal rules t = true := by
  induction t with
  | atom a => exact isNormal_atom rules a
  | seq l r ihl ihr =>
      have hparts : ∀ w ∈ l.routes ++ r.routes, w.Quiet rules := fun w hw =>
        Route.quiet_composition.mp (h _ (List.mem_map_of_mem hw))
      rw [isNormal_seq, ihl fun w hw => hparts w (List.mem_append_left _ hw),
        ihr fun w hw => hparts w (List.mem_append_right _ hw)]
      rfl
  | par l r ihl ihr =>
      have hparts : ∀ w ∈ l.routes ++ r.routes, w.Quiet rules := fun w hw =>
        Route.quiet_composition.mp (h _ (List.mem_map_of_mem hw))
      rw [isNormal_par, ihl fun w hw => hparts w (List.mem_append_left _ hw),
        ihr fun w hw => hparts w (List.mem_append_right _ hw)]
      rfl
  | transform f t ih =>
      have hparts : ∀ w ∈ t.routes, fire? rules (.transform f t) = none ∧ w.Quiet rules :=
        fun w hw => (Route.quiet_transform hw f).mp (h _ (List.mem_map_of_mem hw))
      obtain ⟨w, hw⟩ := t.exists_mem_routes
      rw [isNormal, (hparts w hw).1, ih fun w hw => (hparts w hw).2]
      rfl

/-! ## Sweeps, route by route -/

/-- What a sweep makes of a route: it leaves a quiet one alone, and brings any other further. -/
inductive Advances (rules : List Rule) : Route → Route → Prop where
  | quiet {w : Route} (h : w.Quiet rules) : Advances rules w w
  | further {w w' : Route} (h : ¬ w.Quiet rules) (h' : Route.Below w' w) : Advances rules w w'

theorem Advances.composition {w w' : Route} (h : Advances rules w w') :
    Advances rules (.composition :: w) (.composition :: w') := by
  cases h with
  | quiet h => exact .quiet (Route.quiet_composition.mpr h)
  | further h h' => exact .further (mt Route.quiet_composition.mp h) (h'.cons _)

/-- The routes of the second term come from routes of the first, by a sweep. -/
def Swept (rules : List Rule) (t u : Term) : Prop :=
  ∀ w' ∈ u.routes, ∃ w ∈ t.routes, Advances rules w w'

/-- A transform is treated after its part was swept: either a rule is fired there, or the routes
below it go on as they did. -/
theorem Swept.settle {t u : Term} (h : Swept rules t u) (f : Transform) (trace : List Rule) :
    Swept rules (.transform f t) (settle rules (.transform f u) trace).term := by
  intro w'' hw''
  unfold Rule.settle at hw''
  split at hw''
  · next r v hfire =>
    obtain ⟨_, hmem, hbelow⟩ := exists_below_of_reduct? (reduct?_of_fire? hfire) hw''
    obtain ⟨w', hw', rfl⟩ := List.mem_map.mp hmem
    obtain ⟨w, hw, hadvances⟩ := h w' hw'
    refine ⟨_, List.mem_map_of_mem hw, ?_⟩
    cases hadvances with
    | quiet hquiet =>
        -- the part of the route below was at rest, but the transform above it was not
        refine .further (fun hq => ?_) hbelow
        rw [((Route.quiet_transform hw' f).mp hq).1] at hfire
        cases hfire
    | further hquiet hbelow' =>
        exact .further (fun hq => hquiet hq.of_transform) (hbelow.trans (hbelow'.cons _))
  · next hfire =>
    obtain ⟨w', hw', rfl⟩ := List.mem_map.mp hw''
    obtain ⟨w, hw, hadvances⟩ := h w' hw'
    refine ⟨_, List.mem_map_of_mem hw, ?_⟩
    cases hadvances with
    | quiet hquiet => exact .quiet ((Route.quiet_transform hw' f).mpr ⟨hfire, hquiet⟩)
    | further hquiet hbelow =>
        exact .further (fun hq => hquiet hq.of_transform) (hbelow.cons _)

theorem Swept.append {t t' u u' : Term} (h : Swept rules t u) (h' : Swept rules t' u') {w' : Route}
    (hw' : w' ∈ (u.routes ++ u'.routes).map (.composition :: ·)) :
    ∃ w ∈ (t.routes ++ t'.routes).map (.composition :: ·), Advances rules w w' := by
  obtain ⟨v', hv', rfl⟩ := List.mem_map.mp hw'
  obtain ⟨v, hv, hadvances⟩ : ∃ v ∈ t.routes ++ t'.routes, Advances rules v v' := by
    rcases List.mem_append.mp hv' with hl | hr
    · obtain ⟨v, hv, hadvances⟩ := h v' hl
      exact ⟨v, List.mem_append_left _ hv, hadvances⟩
    · obtain ⟨v, hv, hadvances⟩ := h' v' hr
      exact ⟨v, List.mem_append_right _ hv, hadvances⟩
  exact ⟨_, List.mem_map_of_mem hv, hadvances.composition⟩

/-- **A sweep brings every route further that is not quiet**, and no other. -/
theorem swept_pass (rules : List Rule) (t : Term) : Swept rules t (pass rules t) := by
  induction t with
  | atom a =>
      rw [pass, sweep, settle, fire?_eq_none_of_ne rules (by rintro f b ⟨⟩)]
      intro w' hw'
      rw [List.mem_singleton.mp hw']
      exact ⟨[], List.mem_singleton_self [], .quiet Route.quiet_nil⟩
  | seq l r ihl ihr =>
      rw [pass, sweep, settle, fire?_eq_none_of_ne rules (by rintro f b ⟨⟩)]
      exact fun w' hw' => ihl.append ihr hw'
  | par l r ihl ihr =>
      rw [pass, sweep, settle, fire?_eq_none_of_ne rules (by rintro f b ⟨⟩)]
      exact fun w' hw' => ihl.append ihr hw'
  | transform f t ih =>
      cases f with
      | power a k => exact ih.settle (.power a k) _
      | mirror =>
          rw [pass, sweep]
          cases hfire : fire? rules (.transform .mirror t) with
          | none => exact ih.settle .mirror _
          | some p =>
              -- a mirror that fires as written brings all routes through it further
              obtain ⟨r, u⟩ := p
              intro w' hw'
              obtain ⟨w, hw, hbelow⟩ := exists_below_of_reduct? (reduct?_of_fire? hfire) hw'
              refine ⟨w, hw, .further (fun hquiet => ?_) hbelow⟩
              obtain ⟨v, hv, rfl⟩ := List.mem_map.mp hw
              rw [((Route.quiet_transform hv .mirror).mp hquiet).1] at hfire
              cases hfire

/-! ## The number of sweeps -/

/-- Every route is quiet or has at most the given potential. -/
def RestsWithin (rules : List Rule) (n : Nat) (t : Term) : Prop :=
  ∀ w ∈ t.routes, w.Quiet rules ∨ w.potential ≤ n

theorem RestsWithin.pass {n : Nat} {t : Term} (h : RestsWithin rules (n + 1) t) :
    RestsWithin rules n (pass rules t) := by
  intro w' hw'
  obtain ⟨w, hw, hadvances⟩ := swept_pass rules t w' hw'
  cases hadvances with
  | quiet hquiet => exact .inl hquiet
  | further hquiet hbelow =>
      have hle := (h w hw).resolve_left hquiet
      have hlt := hbelow.potential
      exact .inr (by omega)

theorem RestsWithin.isNormal {t : Term} (h : RestsWithin rules 0 t) :
    isNormal rules t = true :=
  isNormal_of_quiet fun w hw =>
    (h w hw).elim id fun hzero => Route.quiet_of_potential (Nat.le_zero.mp hzero)

/-- A term is at rest within a number of sweeps that is quadratic in its depth. -/
theorem restsWithin_depth (rules : List Rule) (t : Term) :
    RestsWithin rules (t.depth * (t.depth - 1) / 2 + 2 * t.depth) t := by
  intro w hw
  have hlength := t.length_le_depth hw
  have hsquare : w.length * (w.length - 1) / 2 ≤ t.depth * (t.depth - 1) / 2 := by gcongr
  have hpotential := w.potential_le
  exact .inr (by omega)

/-- The sweeps come to rest if they are more than that number. -/
theorem RestsWithin.iterate {n : Nat} {t : Term} (h : RestsWithin rules n t) {limit : Nat}
    (hlimit : n < limit) : (iterate rules limit t).2 = true := by
  -- each sweep lowers the bound by one; at zero the term is normal and the next sweep is the last
  induction limit generalizing n t with
  | zero => exact absurd hlimit (Nat.not_lt_zero n)
  | succ limit ih =>
      rw [Rule.iterate]
      dsimp only
      split
      · rfl
      · next htrace =>
        cases n with
        | zero =>
            have hnil := (isNormal_iff_trace rules t).mp h.isNormal
            exact absurd (List.isEmpty_iff.mpr hnil) htrace
        | succ n => exact ih h.pass (Nat.succ_lt_succ_iff.mp hlimit)

/-! ## Derivations -/

variable {t : Term} {limit : Nat} {d : Derivation}

theorem derive_of_iterate (h : iterate rules limit t = (d, true)) :
    derive rules limit t = .ok d := by
  unfold derive
  rw [h]

/-- One more sweep is never made after the sweeps came to rest. -/
theorem iterate_succ_of_rested (h : iterate rules limit t = (d, true)) :
    iterate rules (limit + 1) t = (d, true) := by
  induction limit generalizing t d with
  | zero => cases h
  | succ limit ih =>
      rw [iterate] at h ⊢
      dsimp only at h ⊢
      split at h
      · next hnil =>
        rw [if_pos hnil]
        exact h
      · next hnil =>
        obtain ⟨rfl, hrested⟩ := Prod.mk.inj h
        rw [if_neg hnil, ih (Prod.ext rfl hrested)]

/-- A derivation is the same within any greater number of sweeps. -/
theorem derive_of_le (h : derive rules limit t = .ok d) {limit' : Nat} (hle : limit ≤ limit') :
    derive rules limit' t = .ok d := by
  induction hle with
  | refl => exact h
  | step _ ih => exact derive_of_iterate (iterate_succ_of_rested (iterate_of_derive ih))

/-- A derivation from a term of a given depth, within a number of sweeps that is quadratic in it. -/
theorem exists_derive (rules : List Rule) (t : Term)
    (hlimit : t.depth * (t.depth - 1) / 2 + 2 * t.depth + 1 ≤ limit) :
    ∃ d, derive rules limit t = .ok d :=
  ⟨_, derive_of_iterate (Prod.ext rfl ((restsWithin_depth rules t).iterate hlimit))⟩

/-- A normal term has a derivation that fires nothing. -/
theorem derive_of_isNormal (h : isNormal rules t = true) (hlimit : 1 ≤ limit) :
    derive rules limit t = .ok ⟨t, []⟩ := by
  have htrace := (isNormal_iff_trace rules t).mp h
  obtain ⟨n, rfl⟩ := Nat.exists_eq_add_of_le' hlimit
  refine derive_of_iterate ?_
  rw [iterate]
  dsimp only
  rw [if_pos (List.isEmpty_iff.mpr htrace)]
  show ((⟨(sweep rules t).term, (sweep rules t).trace⟩ : Derivation), true) = _
  rw [sweep_term_of_trace htrace, htrace]

/-- **A derivation fires nothing exactly when it ends where it began.** If it ends there, that term
is normal, so already the first sweep fires nothing. -/
theorem trace_eq_nil_iff (h : derive rules limit t = .ok d) : d.trace = [] ↔ d.term = t := by
  constructor
  · intro htrace
    have hderives := derive_derives h
    rw [htrace] at hderives
    exact hderives.eq_of_nil.symm
  · intro hterm
    have hnormal : isNormal rules t = true := hterm ▸ (derive_eq_ok h).1
    have hlimit : 1 ≤ limit := by
      by_contra hzero
      obtain rfl : limit = 0 := by omega
      cases h
    rw [derive_of_isNormal hnormal hlimit] at h
    cases h
    rfl

end Rule

theorem Derivation.changed_eq_false_iff (d : Derivation) : d.changed = false ↔ d.trace = [] := by
  simp [changed]

/-- **Normalisation converges.** With any rules, sweeps over a term of depth `d` come to rest within
`d * (d - 1) / 2 + 2 * d + 1` of them, the last of which fires nothing, and a greater number leads
to the same derivation. So `Term.normalize` gives a normal term up to the depth 139. -/
theorem derive_converges (rules : List Rule) (t : Term) :
    (∀ limit, t.depth * (t.depth - 1) / 2 + 2 * t.depth + 1 ≤ limit →
      ∃ d, Rule.derive rules limit t = .ok d) ∧
    (∀ limit d, Rule.derive rules limit t = .ok d →
      ∀ limit', limit ≤ limit' → Rule.derive rules limit' t = .ok d) ∧
    (t.depth ≤ 139 → ∃ d, Rule.derive Rule.standard defaultSweeps t = .ok d ∧
      t.normalize = d.term ∧ Rule.isNormal Rule.standard t.normalize = true) := by
  refine ⟨fun limit => Rule.exists_derive rules t, fun limit d h limit' => Rule.derive_of_le h, ?_⟩
  intro hdepth
  have hsquare : t.depth * (t.depth - 1) / 2 ≤ 139 * (139 - 1) / 2 := by gcongr
  have hlimit : t.depth * (t.depth - 1) / 2 + 2 * t.depth + 1 ≤ defaultSweeps := by
    unfold defaultSweeps
    omega
  obtain ⟨d, hd⟩ := Rule.exists_derive Rule.standard t hlimit
  have hterm : t.normalize = d.term := by
    rw [Term.normalize, Rule.iterate_of_derive hd]
  exact ⟨d, hd, hterm, hterm ▸ (Rule.derive_eq_ok hd).1⟩

/-- Turns in the wrong order above a composition, one of whose parts has a mirror. -/
def crossedTurns : Term :=
  .transform (.power .twist 9) (.transform (.power .rotate 1)
    (.seq (.transform .mirror (.transform (.power .triality 4) (.atom (.param "x"))))
      (.atom (.literal 5))))

/-- Rules out of their standard order, one of them twice, and without folding. -/
def shuffledRules : List Rule :=
  [.distribution, .ordering, .conjugation, .ordering, .identity]

/-- Three sweeps over `crossedTurns` are not enough, but the 21 that belong to its depth are. -/
theorem derive_converges_crossedTurns :
    crossedTurns.depth = 5 ∧
    Rule.derive shuffledRules 3 crossedTurns = .error ⟨3⟩ ∧
    (∃ d, Rule.derive shuffledRules 21 crossedTurns = .ok d ∧
      Rule.derive shuffledRules 1000000 crossedTurns = .ok d) ∧
    Rule.isNormal Rule.standard crossedTurns.normalize = true := by
  obtain ⟨hok, hle, -⟩ := derive_converges shuffledRules crossedTurns
  obtain ⟨-, -, hnormal⟩ := derive_converges Rule.standard crossedTurns
  obtain ⟨d, hd⟩ := hok 21 (by decide)
  obtain ⟨e, -, -, he⟩ := hnormal (by decide)
  exact ⟨rfl, rfl, ⟨d, hd, hle 21 d hd 1000000 (by decide)⟩, he⟩

/-- **Derivations end exactly at the normal terms, and say truly whether they changed anything.**
What a derivation ends with is normal, and a derivation from there fires nothing; the terms from
which a derivation fires nothing are the normal ones; and a derivation that fires rules never ends
with the term that it began with. -/
theorem derive_rests_at_normal (rules : List Rule) (t : Term) (limit : Nat) (hlimit : 1 ≤ limit) :
    (∀ d, Rule.derive rules limit t = .ok d →
      Rule.isNormal rules d.term = true ∧
      ∃ e, Rule.derive rules limit d.term = .ok e ∧
        e.term = d.term ∧ e.changed = false ∧ e.count = 0 ∧ e.trace = []) ∧
    (Rule.isNormal rules t = true ↔
      ∃ d, Rule.derive rules limit t = .ok d ∧ d.changed = false) ∧
    (∀ d, Rule.derive rules limit t = .ok d → (d.changed = true ↔ d.term ≠ t)) := by
  refine ⟨?_, ?_, ?_⟩
  · intro d hd
    have hnormal := (Rule.derive_eq_ok hd).1
    exact ⟨hnormal, _, Rule.derive_of_isNormal hnormal hlimit, rfl, rfl, rfl, rfl⟩
  · constructor
    · intro hnormal
      exact ⟨_, Rule.derive_of_isNormal hnormal hlimit, rfl⟩
    · rintro ⟨d, hd, hchanged⟩
      have hterm := (Rule.trace_eq_nil_iff hd).mp (d.changed_eq_false_iff.mp hchanged)
      rw [← hterm]
      exact (Rule.derive_eq_ok hd).1
  · intro d hd
    rw [ne_eq, ← Rule.trace_eq_nil_iff hd, ← d.changed_eq_false_iff, Bool.not_eq_false]

/-- The derivation from `crossedTurns`, which is not normal, moves on; the one from its end does
not. -/
theorem derive_rests_at_normal_crossedTurns :
    ∃ d e, Rule.derive shuffledRules 21 crossedTurns = .ok d ∧
      d.changed = true ∧ d.term ≠ crossedTurns ∧
      Rule.isNormal shuffledRules crossedTurns = false ∧
      Rule.isNormal shuffledRules d.term = true ∧
      Rule.derive shuffledRules 21 d.term = .ok e ∧ e.term = d.term ∧ e.changed = false := by
  have hd : Rule.derive shuffledRules 21 crossedTurns = .ok _ := rfl
  obtain ⟨hrest, -, hchanged⟩ :=
    derive_rests_at_normal shuffledRules crossedTurns 21 (by decide)
  obtain ⟨hnormal, e, he, hterm, hsame, -, -⟩ := hrest _ hd
  exact ⟨_, e, hd, rfl, (hchanged _ hd).mp rfl, rfl, hnormal, he, hterm, hsame⟩

end NinetySix
