import NinetySix.Proofs.Caching

set_option autoImplicit false

/-! # What a cache counts and keeps

Over a whole history of calls on an empty cache three things are followed, each of them from what a
single call can do (`Cache.Effect`).

* The counters. A call that looks a key up adds one to the hits or to the misses, and only a
  clearing sets them back. So they count the look-ups since the last clearing, each by whether its
  key was held at the time (`Cache.counters_history`).
* The number of entries. No key is held twice, so it is the number of keys (`Cache.size_history`).
* The entry under a key. A key is held exactly if a model was put under it since it was last dropped
  (`Cache.find?_history_eq_none_iff`). An entry stays until its key is dropped
  (`Cache.find?_history_of_some`), and it answers every call on its key
  (`Cache.first_insert_wins`).
-/

namespace NinetySix

namespace Cache

/-! ## Counters -/

namespace Call

/-- The call looks up a key that the cache holds. -/
def hits (c : Cache) (call : Call) : Bool := call.lookup?.any fun k => c.contains k

/-- The call looks up a key that the cache does not hold. -/
def misses (c : Cache) (call : Call) : Bool := call.lookup?.any fun k => !c.contains k

def isClear : Call → Bool
  | .clear => true
  | _ => false

end Call

/-- Calls, each with the cache that it is performed on. -/
def trace (c : Cache) : List Call → List (Cache × Call)
  | [] => []
  | call :: calls => (c, call) :: trace (c.after call) calls

/-- The calls of a history since its last clearing. -/
def sinceClear (calls : List Call) : List (Cache × Call) :=
  (trace {} calls).rtakeWhile fun p => !p.2.isClear

theorem trace_concat (c : Cache) (calls : List Call) (call : Call) :
    trace c (calls ++ [call]) = trace c calls ++ [(calls.foldl after c, call)] := by
  induction calls generalizing c with
  | nil => rfl
  | cons first calls ih => simp [trace, ih]

theorem sinceClear_concat_clear (calls : List Call) : sinceClear (calls ++ [.clear]) = [] := by
  rw [sinceClear, trace_concat]
  exact List.rtakeWhile_concat_neg _ _ _ (by simp [Call.isClear])

variable {c c' : Cache} {k : Key} {e : Entry} {m : Model} {r : Request} {call : Call}

theorem sinceClear_concat (calls : List Call) (h : call.isClear = false) :
    sinceClear (calls ++ [call]) = sinceClear calls ++ [(history calls, call)] := by
  rw [sinceClear, trace_concat]
  exact List.rtakeWhile_concat_pos _ _ _ (by simp [h])

/-- A look-up is counted as a hit or as a miss, and nothing else is counted. -/
theorem Effect.counters_eq {returned : Option Entry} (h : Effect c call returned c')
    (hclear : call.isClear = false) : c'.hits = c.hits + (if call.hits c then 1 else 0) ∧
      c'.misses = c.misses + (if call.misses c then 1 else 0) := by
  cases h with
  | unchanged uncounted keeps held => simp [Call.hits, Call.misses, uncounted]
  | hit looks held => simp [Call.hits, Call.misses, looks, contains, held]
  | miss looks free puts => simp [Call.hits, Call.misses, looks, contains, free]
  | compiled looks free puts => simp [Call.hits, Call.misses, looks, contains, free, put]
  | inserted uncounted free puts => simp [Call.hits, Call.misses, uncounted, put]
  | removed k => simp [Call.hits, Call.misses, Call.lookup?]
  | cleared => simp [Call.isClear] at hclear

theorem isClear_eq_false (h : call ≠ .clear) : call.isClear = false := by
  unfold Call.isClear
  split
  · exact absurd rfl h
  · rfl

/-- One more call adds to a count by itself. -/
theorem ofNat_countP_concat (p : Cache × Call → Bool) (l : List (Cache × Call))
    (q : Cache × Call) : UInt64.ofNat ((l ++ [q]).countP p)
      = .ofNat (l.countP p) + (if p q then 1 else 0) := by
  rw [List.countP_append, List.countP_singleton, UInt64.ofNat_add]
  split
  · rfl
  · rfl

/-- **The counters count the look-ups since the last clearing.** -/
theorem counters_history (calls : List Call) :
    (history calls).hits = .ofNat ((sinceClear calls).countP fun p => p.2.hits p.1) ∧
    (history calls).misses = .ofNat ((sinceClear calls).countP fun p => p.2.misses p.1) := by
  induction calls using List.reverseRecOn with
  | nil => exact ⟨rfl, rfl⟩
  | append_singleton calls call ih =>
      rw [history_concat]
      by_cases hcall : call = .clear
      · rw [hcall, sinceClear_concat_clear]
        exact ⟨rfl, rfl⟩
      · have hclear := isClear_eq_false hcall
        rw [sinceClear_concat calls hclear, ofNat_countP_concat, ofNat_countP_concat, ← ih.1,
          ← ih.2]
        exact (effect_perform (history calls) call).counters_eq hclear

/-- Every look-up is a hit or a miss. -/
theorem countP_lookup (l : List (Cache × Call)) :
    (l.countP fun p => p.2.lookup?.isSome)
      = (l.countP fun p => p.2.hits p.1) + l.countP fun p => p.2.misses p.1 := by
  induction l with
  | nil => rfl
  | cons p l ih =>
      have hone : (if p.2.lookup?.isSome then 1 else 0)
          = (if p.2.hits p.1 then 1 else 0) + (if p.2.misses p.1 then 1 else 0) := by
        unfold Call.hits Call.misses
        cases p.2.lookup? with
        | none => rfl
        | some k => cases hheld : p.1.contains k <;> simp [hheld]
      simp only [List.countP_cons, ih, hone]
      omega

/-! ## Entries -/

/-- The entries are as many as the keys that are held. -/
theorem size_history (calls : List Call) :
    (history calls).size = Set.ncard {k | (history calls).contains k = true} := by
  have hset : {k | (history calls).contains k = true}
      = ((Table.keys (history calls).entries).toFinset : Set Key) := by
    ext k
    rw [Set.mem_ofPred_eq, List.coe_toFinset, Set.mem_ofPred_eq, ← Table.isSome_find?_iff]
    rfl
  rw [hset, Set.ncard_coe_finset, List.toFinset_card_of_nodup (nodup_keys_history calls)]
  exact (List.length_map _).symm

theorem contains_eq_false_iff : c.contains k = false ↔ c.find? k = none := by
  simp [contains]

/-- **Nothing is held under a key exactly if nothing was put there since it was last dropped.** -/
theorem find?_history_eq_none_iff {calls : List Call} :
    (history calls).find? k = none ↔ ∀ call ∈ sinceDropped k calls, call.puts? k = none := by
  rw [← List.findSome?_eq_none_iff, ← find?_history, Option.map_eq_none_iff]

theorem find?_after_of_some {calls : List Call} (hfind : (history calls).find? k = some e)
    (hkeeps : call.drops k = false) : ((history calls).after call).find? k = some e := by
  rw [find?_after, if_neg (by simp [hkeeps]), hfind]
  rfl

/-- **An entry stays until its key is dropped.** -/
theorem find?_history_of_some {before rest : List Call}
    (hfind : (history before).find? k = some e) (hkeeps : ∀ call ∈ rest, call.drops k = false) :
    (history (before ++ rest)).find? k = some e := by
  induction rest using List.reverseRecOn with
  | nil => rwa [List.append_nil]
  | append_singleton rest call ih =>
      rw [List.forall_mem_append, List.forall_mem_singleton] at hkeeps
      rw [← List.append_assoc, history_concat]
      exact find?_after_of_some (ih hkeeps.1) hkeeps.2

/-- **The first entry under a key answers until the key is dropped.** -/
theorem first_insert_wins {before rest : List Call}
    (hfree : ∀ call ∈ sinceDropped k before, call.puts? k = none) (hputs : call.puts? k = some m)
    (hkeeps : ∀ call ∈ rest, call.drops k = false) :
    ∃ e, e.model = m ∧ ((history before).perform call).1.returned? = some e ∧
      (history (before ++ call :: rest)).find? k = some e ∧
      ∀ later, later.asks? = some k →
        ((history (before ++ call :: rest)).perform later).1.returned? = some e := by
  have hasks := Call.asks?_of_puts? hputs
  -- nothing is held before the call, so its model is held after it
  have hnone := find?_history_eq_none_iff.mpr hfree
  have hfind : (history (before ++ [call])).find? k = some ⟨(history before).serials, m⟩ := by
    rw [history_concat, find?_after, if_neg (by simp [Call.drops_of_asks? hasks]), hnone, hputs]
    rfl
  have hstays := find?_history_of_some hfind hkeeps
  rw [← List.append_cons] at hstays
  refine ⟨_, rfl, ?_, hstays, ?_⟩
  · rw [(effect_perform _ call).returned_eq hasks, ← history_concat, hfind]
  · intro later hlater
    rw [(effect_perform _ later).returned_eq hlater]
    exact find?_after_of_some hstays (Call.drops_of_asks? hlater k)

/-! ## Failures -/

theorem serve_eq_error_iff {cause : CompileError} :
    (c.serve r).1 = .error cause ↔ c.contains r.key = false ∧ r.compile = .error cause := by
  cases hfind : c.find? r.key with
  | some e => simp [serve_of_some hfind, contains, hfind]
  | none =>
      cases hr : r.compile with
      | error cause' => simp [serve_of_error hfind hr, contains, hfind]
      | ok m => simp [serve_of_ok hfind hr, contains, hfind]

end Cache

open Cache

/-- **A cache keeps its accounts, and the first insertion wins.** After any calls on an empty cache,
the hits are the look-ups since the last clearing whose key was held at the time, and hits and
misses together are all look-ups since then, in words of 64 bits. The entries are counted by the
keys that are held. A key is held exactly if a call has put a model under it since its last removal
or the last clearing. The first such call is answered by an entry with its model, and until the next
removal or clearing this entry is held and answers every request, look-up and insertion under the
key. And a request is answered by an error exactly if its key is not held and it cannot be compiled,
and then nothing is left of it but a miss. -/
theorem cache_accounts (calls : List Call) :
    (history calls).hits = .ofNat ((sinceClear calls).countP fun p => p.2.hits p.1) ∧
    (history calls).hits + (history calls).misses
      = .ofNat ((sinceClear calls).countP fun p => p.2.lookup?.isSome) ∧
    ((history calls).perform .stats).1 = .stats ⟨(history calls).hits, (history calls).misses,
      Set.ncard {k | (history calls).contains k = true}⟩ ∧
    ((history calls).perform .size).1 = .size (Set.ncard {k | (history calls).contains k = true}) ∧
    (∀ k, ((history calls).perform (.contains k)).1 = .held false ↔
      ∀ call ∈ sinceDropped k calls, call.puts? k = none) ∧
    (∀ before call rest k m, calls = before ++ call :: rest →
      (∀ earlier ∈ sinceDropped k before, earlier.puts? k = none) → call.puts? k = some m →
      .remove k ∉ rest → .clear ∉ rest →
      ∃ e, e.model = m ∧ ((history before).perform call).1.returned? = some e ∧
        ((history calls).perform (.contains k)).1 = .held true ∧
        ∀ later, later.asks? = some k →
          ((history calls).perform later).1.returned? = some e) ∧
    ∀ r cause,
      (((history calls).perform (.serve r)).1 = .served (.error cause) ↔
        (history calls).contains r.key = false ∧ r.compile = .error cause) ∧
      (((history calls).perform (.serve r)).1 = .served (.error cause) →
        ((history calls).perform (.serve r)).2
          = { history calls with misses := (history calls).misses + 1 }) := by
  obtain ⟨hhits, hmisses⟩ := counters_history calls
  refine ⟨hhits, ?_, ?_, ?_, ?_, ?_, ?_⟩
  · rw [hhits, hmisses, countP_lookup, UInt64.ofNat_add]
  · rw [← size_history]
    rfl
  · rw [← size_history]
    rfl
  · intro k
    rw [← find?_history_eq_none_iff, ← contains_eq_false_iff, perform, Answer.held.injEq]
  · rintro before call rest k m rfl hfree hputs hremove hclear
    have hkeeps : ∀ later ∈ rest, later.drops k = false := by
      intro later hlater
      rw [← Bool.not_eq_true, Call.drops_eq_true_iff]
      rintro (rfl | rfl)
      · exact hremove hlater
      · exact hclear hlater
    obtain ⟨e, hmodel, hreturned, hheld, hanswers⟩ := first_insert_wins hfree hputs hkeeps
    refine ⟨e, hmodel, hreturned, ?_, hanswers⟩
    rw [perform, contains, hheld]
    rfl
  · intro r cause
    have hanswer : ((history calls).perform (.serve r)).1 = .served (.error cause) ↔
        ((history calls).serve r).1 = .error cause := by
      simp [perform]
    rw [hanswer, serve_eq_error_iff]
    refine ⟨Iff.rfl, ?_⟩
    rintro ⟨hfree, hr⟩
    rw [perform, serve_of_error (contains_eq_false_iff.mp hfree) hr]

/-- A key that no request has, for it has no digest. -/
def foreignKey (name : String) : Key where
  name := name
  version := "1"
  paramsHash := ""
  schemaHash := none
  preference := .auto
  complexityHint := none
  runtimeParams := []
  compiled := true

/-- After a clearing, a request that fails, a look-up that misses, the insertion of two models under
two keys, and a look-up that hits. -/
def twoInsertions (m m' : Model) : List Call :=
  [.get (foreignKey "left"), .clear, .serve (rotationIn "north" 3 { maxSweeps := 0 }),
   .get (foreignKey "left"), .insert (foreignKey "left") m, .insert (foreignKey "right") m',
   .get (foreignKey "left")]

/-- A second model that is inserted under the left key is answered by the first one. Once the left
key is removed it is not held, while the right one is. After a clearing neither is held, and the
left key is open to the second model. -/
theorem cache_accounts_secondInsertion :
    ∃ m m' cause, (rotationIn "north" 3 {}).compile = .ok m ∧
      (rotationIn "south" 4 {}).compile = .ok m' ∧ m ≠ m' ∧
      (let c := history (twoInsertions m m')
       c.hits = 1 ∧ c.hits + c.misses = 3 ∧ Set.ncard {k | c.contains k = true} = 2 ∧
       ∃ e, e.model = m ∧ (c.perform (.insert (foreignKey "left") m')).1.returned? = some e) ∧
      (let c := history (twoInsertions m m' ++ [.remove (foreignKey "left")])
       (c.perform (.contains (foreignKey "left"))).1 = .held false ∧
       ∃ e, e.model = m' ∧ (c.perform (.get (foreignKey "right"))).1.returned? = some e) ∧
      (let c := history (twoInsertions m m' ++ [.clear])
       c.hits + c.misses = 0 ∧ (c.perform (.contains (foreignKey "left"))).1 = .held false ∧
       (c.perform (.contains (foreignKey "right"))).1 = .held false) ∧
      (let c := history (twoInsertions m m' ++ [.clear, .insert (foreignKey "left") m'])
       ∃ e, e.model = m' ∧ (c.perform (.get (foreignKey "left"))).1.returned? = some e) ∧
      ((history []).perform (.serve (rotationIn "north" 3 { maxSweeps := 0 })))
        = (.served (.error cause), { misses := 1 }) := by
  obtain ⟨m, hm⟩ : ∃ m, (rotationIn "north" 3 {}).compile = .ok m := ⟨_, rfl⟩
  obtain ⟨m', hm'⟩ : ∃ m', (rotationIn "south" 4 {}).compile = .ok m' := ⟨_, rfl⟩
  obtain ⟨cause, hcause⟩ :
      ∃ cause, (rotationIn "north" 3 { maxSweeps := 0 }).compile = .error cause := ⟨_, rfl⟩
  have hne : m ≠ m' := by
    rintro rfl
    have hspace := (Model.compile_eq_ok hm).namespaceName.symm.trans
      (Model.compile_eq_ok hm').namespaceName
    exact absurd hspace (by decide)
  refine ⟨m, m', cause, hm, hm', hne, ?_, ?_, ?_, ?_, ?_⟩
  · obtain ⟨hhits, hlookups, -, hsize, -, hfirst, -⟩ := cache_accounts (twoInsertions m m')
    obtain ⟨e, hmodel, -, -, hanswers⟩ := hfirst ((twoInsertions m m').take 4) _ _
      (foreignKey "left") m rfl (List.findSome?_eq_none_iff.mp rfl) rfl (by simp) (by simp)
    exact ⟨hhits, hlookups, (Answer.size.inj hsize).symm, e, hmodel, hanswers _ rfl⟩
  · obtain ⟨-, -, -, -, habsent, hfirst, -⟩ :=
      cache_accounts (twoInsertions m m' ++ [.remove (foreignKey "left")])
    obtain ⟨e, hmodel, -, -, hanswers⟩ := hfirst ((twoInsertions m m').take 5) _ _
      (foreignKey "right") m' rfl (List.findSome?_eq_none_iff.mp rfl) rfl (by simp [foreignKey])
      (by simp)
    exact ⟨(habsent _).mpr (List.findSome?_eq_none_iff.mp rfl), e, hmodel, hanswers _ rfl⟩
  · obtain ⟨-, hlookups, -, -, habsent, -, -⟩ := cache_accounts (twoInsertions m m' ++ [.clear])
    exact ⟨hlookups, (habsent _).mpr (List.findSome?_eq_none_iff.mp rfl),
      (habsent _).mpr (List.findSome?_eq_none_iff.mp rfl)⟩
  · obtain ⟨-, -, -, -, -, hfirst, -⟩ :=
      cache_accounts (twoInsertions m m' ++ [.clear, .insert (foreignKey "left") m'])
    obtain ⟨e, hmodel, -, -, hanswers⟩ := hfirst (twoInsertions m m' ++ [.clear]) _ _
      (foreignKey "left") m' rfl (List.findSome?_eq_none_iff.mp rfl) rfl (by simp) (by simp)
    exact ⟨e, hmodel, hanswers _ rfl⟩
  · obtain ⟨-, -, -, -, -, -, hserve⟩ := cache_accounts []
    obtain ⟨hfails, hleaves⟩ := hserve (rotationIn "north" 3 { maxSweeps := 0 }) cause
    have hanswer := hfails.mpr ⟨rfl, hcause⟩
    exact Prod.ext hanswer (hleaves hanswer)

end NinetySix
