import NinetySix.Model.Cache
import NinetySix.Proofs.Convergence
import NinetySix.Proofs.Folding

set_option autoImplicit false

/-! # What a cache serves

A cache is a machine: a call on it (`Cache.Call`) has an answer and leaves a cache behind
(`Cache.perform`), and `Cache.history` is what a list of calls makes of an empty cache. What a call
can do is said once (`Cache.Effect`), and all else about calls comes from there.

What a cache holds can be read off the calls alone. Under a key it has the model that was put there
first since the key was last removed or the cache cleared (`Cache.find?_history`). So every model
that it serves was compiled for a request with the same key, unless it was inserted from outside.

A key stands for all that compilation depends on but the bound on sweeps and the namespace. The
bound decides only whether normalisation succeeds and not what it gives, so two models that were
compiled under one key agree in everything but their namespace (`Request.compile_agrees`). This
takes for granted that the digests in the keys tell the parameters apart.

The namespace of a model that is served is the one of the request that was first to succeed under
the key (`Cache.find?_requests`), whatever the namespace of the request that is answered.
-/

namespace NinetySix

/-! ## Requests and calls -/

/-- What a cache has to know to compile a model that it does not hold. -/
structure Request where
  descriptor : Descriptor
  schema : Option String
  options : Options

namespace Request

def key (r : Request) : Key := .of r.descriptor r.schema r.options

def compile (r : Request) : Except CompileError Model := Model.compile r.descriptor r.options

theorem paramsHash_key (r : Request) :
    r.key.paramsHash = Blake3.hexDigest (Key.paramsText r.descriptor) := by
  rw [key, Key.of]

end Request

namespace Cache

/-- The answer to a request, and the cache after it. -/
def serve (c : Cache) (r : Request) : Except CompileError Entry × Cache :=
  c.getOrCompile r.descriptor r.schema r.options

/-- A call on a cache. A request without options is one with the default options. -/
inductive Call where
  | serve (r : Request)
  | get (k : Key)
  | insert (k : Key) (m : Model)
  | contains (k : Key)
  | remove (k : Key)
  | clear
  | size
  | stats

/-- The answer to a call. -/
inductive Answer where
  | served (answer : Except CompileError Entry)
  | found (entry : Option Entry)
  | kept (entry : Entry)
  | held (held : Bool)
  | removed (entry : Option Entry)
  | cleared
  | size (n : Nat)
  | stats (stats : Stats)

/-- The entry that is answered to a request, a look-up or an insertion. -/
def Answer.returned? : Answer → Option Entry
  | .served answer => answer.toOption
  | .found entry => entry
  | .kept entry => some entry
  | _ => none

/-- The answer to a call, and the cache after it. -/
def perform (c : Cache) : Call → Answer × Cache
  | .serve r => (.served (c.serve r).1, (c.serve r).2)
  | .get k => (.found (c.get k).1, (c.get k).2)
  | .insert k m => (.kept (c.insert k m).1, (c.insert k m).2)
  | .contains k => (.held (c.contains k), c)
  | .remove k => (.removed (c.remove k).1, (c.remove k).2)
  | .clear => (.cleared, c.clear)
  | .size => (.size c.size, c)
  | .stats => (.stats c.stats, c)

/-- The cache after a call. -/
def after (c : Cache) (call : Call) : Cache := (c.perform call).2

/-- The cache after a list of calls, the first of them on an empty one. -/
def history (calls : List Call) : Cache := calls.foldl after {}

theorem history_concat (calls : List Call) (call : Call) :
    history (calls ++ [call]) = (history calls).after call := by
  simp [history]

namespace Call

/-- The request that a call makes. -/
def request? : Call → Option Request
  | .serve r => some r
  | _ => none

/-- The key that is looked up, with the result being counted. -/
def lookup? : Call → Option Key
  | .serve r => some r.key
  | .get k => some k
  | _ => none

/-- The key whose entry is answered. -/
def asks? : Call → Option Key
  | .serve r => some r.key
  | .get k => some k
  | .insert k _ => some k
  | _ => none

/-- The model that a call puts under a key, if there is none under it. -/
def puts? (k : Key) : Call → Option Model
  | .serve r => if r.key = k then r.compile.toOption else none
  | .insert k' m => if k' = k then some m else none
  | _ => none

/-- The call takes away what is held under a key. -/
def drops (k : Key) : Call → Bool
  | .remove k' => k' = k
  | .clear => true
  | _ => false

variable {call : Call} {k : Key} {m : Model} {r : Request}

theorem puts?_serve_eq_some :
    (serve r).puts? k = some m ↔ r.key = k ∧ r.compile = .ok m := by
  unfold puts?
  cases hr : r.compile with
  | error cause => simp [hr, Except.toOption]
  | ok m' => simp [hr, Except.toOption]

theorem puts?_serve_eq_none :
    (serve r).puts? k = none ↔ (r.key = k → ∃ cause, r.compile = .error cause) := by
  unfold puts?
  cases hr : r.compile with
  | error cause => simp [hr, Except.toOption]
  | ok m => simp [hr, Except.toOption]

theorem asks?_of_lookup? (h : call.lookup? = some k) : call.asks? = some k := by
  unfold lookup? at h
  split at h
  · exact h
  · exact h
  · cases h

theorem asks?_of_puts? (h : call.puts? k = some m) : call.asks? = some k := by
  cases call with
  | serve r => rw [asks?, (puts?_serve_eq_some.mp h).1]
  | insert j m' =>
      simp only [puts?] at h
      split at h
      · next heq => rw [asks?, heq]
      · cases h
  | _ => cases h

/-- A call that is answered by an entry takes none away. -/
theorem drops_of_asks? (h : call.asks? = some k) (j : Key) : call.drops j = false := by
  cases call with
  | remove k' => cases h
  | clear => cases h
  | _ => rfl

theorem drops_eq_true_iff : call.drops k = true ↔ call = .remove k ∨ call = .clear := by
  cases call <;> simp [drops]

end Call

/-- The requests among calls. -/
def requests (calls : List Call) : List Request := calls.filterMap Call.request?

/-- The calls since the key was last removed or the cache cleared. -/
def sinceDropped (k : Key) (calls : List Call) : List Call :=
  calls.rtakeWhile fun call => !call.drops k

/-! ## One call -/

variable {c c' : Cache} {k : Key} {e : Entry} {m : Model} {r : Request} {call : Call}

/-- The cache with one more entry. -/
def put (c : Cache) (k : Key) (m : Model) : Cache :=
  { c with entries := c.entries ++ [(k, ⟨c.serials, m⟩)], serials := c.serials + 1 }

/-- A request whose key is held is answered by the entry. -/
theorem serve_of_some (h : c.find? r.key = some e) :
    c.serve r = (.ok e, { c with hits := c.hits + 1 }) := by
  rw [Request.key] at h
  simp only [serve, getOrCompile, get, h]

/-- A request that cannot be compiled leaves nothing but a miss. -/
theorem serve_of_error (h : c.find? r.key = none) {cause : CompileError}
    (hr : r.compile = .error cause) :
    c.serve r = (.error cause, { c with misses := c.misses + 1 }) := by
  rw [Request.key] at h
  rw [Request.compile] at hr
  simp only [serve, getOrCompile, get, h, hr]

/-- A request whose key is not held is answered by its own model, which is kept. -/
theorem serve_of_ok (h : c.find? r.key = none) (hr : r.compile = .ok m) :
    c.serve r = (.ok ⟨c.serials, m⟩, { c.put r.key m with misses := c.misses + 1 }) := by
  have hmissed : ({ c with misses := c.misses + 1 } : Cache).find? r.key = none := h
  rw [Request.key] at h hmissed
  rw [Request.compile] at hr
  simp only [serve, getOrCompile, get, insert, h, hr, hmissed, Request.key, put]

/-- What a call can return and do to a cache. -/
inductive Effect (c : Cache) : Call → Option Entry → Cache → Prop
  | unchanged {call : Call} (uncounted : call.lookup? = none) (keeps : ∀ k, call.drops k = false)
      (held : ∀ k, call.asks? = some k → ∃ e, c.find? k = some e) :
      Effect c call (call.asks?.bind c.find?) c
  | hit {call : Call} {k : Key} {e : Entry} (looks : call.lookup? = some k)
      (held : c.find? k = some e) : Effect c call (some e) { c with hits := c.hits + 1 }
  | miss {call : Call} {k : Key} (looks : call.lookup? = some k) (free : c.find? k = none)
      (puts : call.puts? k = none) : Effect c call none { c with misses := c.misses + 1 }
  | compiled {call : Call} {k : Key} {m : Model} (looks : call.lookup? = some k)
      (free : c.find? k = none) (puts : call.puts? k = some m) :
      Effect c call (some ⟨c.serials, m⟩) { c.put k m with misses := c.misses + 1 }
  | inserted {call : Call} {k : Key} {m : Model} (uncounted : call.lookup? = none)
      (free : c.find? k = none) (puts : call.puts? k = some m) :
      Effect c call (some ⟨c.serials, m⟩) (c.put k m)
  | removed (k : Key) : Effect c (.remove k) none { c with entries := Table.erase k c.entries }
  | cleared : Effect c .clear none c.clear

/-- **Every call has one of these effects.** -/
theorem effect_perform (c : Cache) (call : Call) :
    Effect c call (c.perform call).1.returned? (c.after call) := by
  have hquiet {call : Call} (hlookup : call.lookup? = none) (hasks : call.asks? = none)
      (hdrops : ∀ k, call.drops k = false) : Effect c call none c := by
    have h := Effect.unchanged (c := c) hlookup hdrops (by simp [hasks])
    rwa [hasks] at h
  cases call with
  | serve r =>
      rw [after, perform]
      cases hfind : c.find? r.key with
      | some e =>
          rw [serve_of_some hfind]
          exact .hit rfl hfind
      | none =>
          cases hr : r.compile with
          | error cause =>
              rw [serve_of_error hfind hr]
              exact .miss rfl hfind (Call.puts?_serve_eq_none.mpr fun _ => ⟨cause, hr⟩)
          | ok m =>
              rw [serve_of_ok hfind hr]
              exact .compiled rfl hfind (Call.puts?_serve_eq_some.mpr ⟨rfl, hr⟩)
  | get k =>
      rw [after, perform, get]
      cases hfind : c.find? k with
      | some e => exact .hit rfl hfind
      | none => exact .miss rfl hfind rfl
  | insert k m =>
      rw [after, perform, insert]
      cases hfind : c.find? k with
      | some e =>
          have hanswer : (Call.insert k m).asks?.bind c.find? = some e := hfind
          have h : Effect c (.insert k m) ((Call.insert k m).asks?.bind c.find?) c :=
            .unchanged rfl (fun _ => rfl) (by rintro _ ⟨⟩; exact ⟨e, hfind⟩)
          rwa [hanswer] at h
      | none => exact .inserted rfl hfind (if_pos rfl)
  | contains k => exact hquiet rfl rfl fun _ => rfl
  | size => exact hquiet rfl rfl fun _ => rfl
  | stats => exact hquiet rfl rfl fun _ => rfl
  | remove k => exact .removed k
  | clear => exact .cleared

variable {returned : Option Entry}

theorem find?_put (c : Cache) (j : Key) (m : Model) (k : Key) :
    (c.put j m).find? k = (c.find? k).or (if k = j then some ⟨c.serials, m⟩ else none) :=
  Table.find?_append ..

theorem notMem_keys_of_none (h : c.find? k = none) : k ∉ Table.keys c.entries := by
  rw [← Table.isSome_find?_iff]
  simpa [find?] using h

/-- No key is held twice. -/
theorem Effect.nodup_keys (h : Effect c call returned c') (hc : (Table.keys c.entries).Nodup) :
    (Table.keys c'.entries).Nodup := by
  have hput : ∀ k m, c.find? k = none → (Table.keys (c.put k m).entries).Nodup := by
    intro k m free
    have hfree := notMem_keys_of_none free
    show ((c.entries ++ [(k, _)]).map Prod.fst).Nodup
    rw [List.map_append]
    exact List.Nodup.append hc (List.nodup_singleton k) (by simpa [Table.keys] using hfree)
  cases h with
  | unchanged uncounted keeps held => exact hc
  | hit looks held => exact hc
  | miss looks free puts => exact hc
  | compiled looks free puts => exact hput _ _ free
  | inserted uncounted free puts => exact hput _ _ free
  | removed k => exact hc.sublist ((Table.erase_sublist k c.entries).map Prod.fst)
  | cleared => exact List.nodup_nil

/-- A key that is asked for is the only one under which a model can be put. -/
theorem puts?_eq_none (hasks : call.asks? = some k) {j : Key} (hne : j ≠ k) :
    call.puts? j = none := by
  cases hputs : call.puts? j with
  | none => rfl
  | some m =>
      have hkey := (Call.asks?_of_puts? hputs).symm.trans hasks
      exact absurd (Option.some.inj hkey) hne

/-- **The entry under a key after a call.** What is held stays, and a model can be put where none is
held; or the key is dropped. -/
theorem Effect.find?_eq (h : Effect c call returned c') (hc : (Table.keys c.entries).Nodup)
    (k : Key) : c'.find? k =
      if call.drops k then none else (c.find? k).or ((call.puts? k).map (Entry.mk c.serials)) := by
  -- what a call puts under a key that is held does not count
  have hheld : ∀ {j e}, call.asks? = some j → c.find? j = some e →
      c.find? k = (c.find? k).or ((call.puts? k).map (Entry.mk c.serials)) := by
    intro j e hasks hfind
    by_cases hk : k = j
    · rw [hk, hfind]
      rfl
    · rw [puts?_eq_none hasks hk, Option.map_none, Option.or_none]
  have hput : ∀ {j m}, call.puts? j = some m →
      (c.put j m).find? k = (c.find? k).or ((call.puts? k).map (Entry.mk c.serials)) := by
    intro j m hputs
    rw [find?_put]
    by_cases hk : k = j
    · rw [hk, if_pos rfl, hputs]
      rfl
    · rw [if_neg hk, puts?_eq_none (Call.asks?_of_puts? hputs) hk]
      rfl
  cases h with
  | unchanged uncounted keeps held =>
      rw [if_neg (by simp [keeps k])]
      cases hasks : call.asks? with
      | some j =>
          obtain ⟨e, hfind⟩ := held j hasks
          exact hheld hasks hfind
      | none =>
          have hputs : call.puts? k = none := by
            by_contra hne
            obtain ⟨m, hm⟩ := Option.ne_none_iff_exists'.mp hne
            cases hasks.symm.trans (Call.asks?_of_puts? hm)
          rw [hputs, Option.map_none, Option.or_none]
  | hit looks held =>
      have hasks := Call.asks?_of_lookup? looks
      rw [if_neg (by simp [Call.drops_of_asks? hasks])]
      exact hheld hasks held
  | @miss _ j looks free puts =>
      have hasks := Call.asks?_of_lookup? looks
      have hputs : call.puts? k = none := by
        by_cases hk : k = j
        · rw [hk, puts]
        · exact puts?_eq_none hasks hk
      rw [if_neg (by simp [Call.drops_of_asks? hasks]), hputs, Option.map_none, Option.or_none]
      rfl
  | compiled looks free puts =>
      rw [if_neg (by simp [Call.drops_of_asks? (Call.asks?_of_puts? puts)])]
      exact hput puts
  | inserted uncounted free puts =>
      rw [if_neg (by simp [Call.drops_of_asks? (Call.asks?_of_puts? puts)])]
      exact hput puts
  | removed j =>
      by_cases hk : j = k
      · rw [if_pos (by simp [Call.drops, hk]), hk]
        exact Table.find?_erase_of_nodup hc k
      · have hputs : (Call.remove j).puts? k = none := rfl
        rw [if_neg (by simp [Call.drops, hk]), hputs, Option.map_none, Option.or_none]
        exact Table.find?_erase_of_ne (Ne.symm hk) c.entries
  | cleared => rfl

/-- **The answer to a call on a key is the entry that is held afterwards.** -/
theorem Effect.returned_eq (h : Effect c call returned c') (hasks : call.asks? = some k) :
    returned = c'.find? k := by
  have hkey : ∀ {j}, call.asks? = some j → j = k := by
    intro j hj
    exact Option.some.inj (hj.symm.trans hasks)
  cases h with
  | unchanged uncounted keeps held => rw [hasks, Option.bind_some]
  | hit looks held =>
      rw [← hkey (Call.asks?_of_lookup? looks)]
      exact held.symm
  | miss looks free puts =>
      rw [← hkey (Call.asks?_of_lookup? looks)]
      exact free.symm
  | @compiled _ j m looks free puts =>
      rw [← hkey (Call.asks?_of_puts? puts)]
      show some _ = (c.put j m).find? j
      rw [find?_put, free, if_pos rfl]
      rfl
  | inserted uncounted free puts =>
      rw [← hkey (Call.asks?_of_puts? puts), find?_put, free, if_pos rfl]
      rfl
  | removed j => cases hasks
  | cleared => cases hasks

/-! ## Histories -/

theorem nodup_keys_history (calls : List Call) : (Table.keys (history calls).entries).Nodup := by
  induction calls using List.reverseRecOn with
  | nil => exact List.nodup_nil
  | append_singleton calls call ih =>
      rw [history_concat]
      exact (effect_perform (history calls) call).nodup_keys ih

/-- The entry under a key after one more call. -/
theorem find?_after (calls : List Call) (call : Call) (k : Key) :
    ((history calls).after call).find? k = if call.drops k then none
      else ((history calls).find? k).or ((call.puts? k).map (Entry.mk (history calls).serials)) :=
  (effect_perform (history calls) call).find?_eq (nodup_keys_history calls) k

theorem sinceDropped_concat (k : Key) (calls : List Call) (call : Call) :
    sinceDropped k (calls ++ [call])
      = if call.drops k then [] else sinceDropped k calls ++ [call] := by
  unfold sinceDropped
  split
  · next hdrops => exact List.rtakeWhile_concat_neg _ _ _ (by simp [hdrops])
  · next hdrops => exact List.rtakeWhile_concat_pos _ _ _ (by simpa using hdrops)

/-- **What a cache holds** under a key is the model that was put there first since the key was last
dropped. -/
theorem find?_history (calls : List Call) (k : Key) :
    ((history calls).find? k).map Entry.model =
      (sinceDropped k calls).findSome? (Call.puts? k) := by
  induction calls using List.reverseRecOn with
  | nil => rfl
  | append_singleton calls call ih =>
      rw [history_concat, find?_after, sinceDropped_concat]
      split
      · rfl
      · have hmodel : Entry.model ∘ Entry.mk (history calls).serials = id := rfl
        rw [Option.map_or, Option.map_map, hmodel, Option.map_id, id, ih, List.findSome?_append,
          List.findSome?_singleton]

/-- After requests alone, the model under a key is that of the first one with this key that could be
compiled. -/
theorem find?_requests (requests : List Request) (k : Key) :
    ((history (requests.map .serve)).find? k).map Entry.model =
      requests.findSome? fun r => (Call.serve r).puts? k := by
  have hall : sinceDropped k (requests.map .serve) = requests.map .serve :=
    List.rtakeWhile_eq_self_iff.mpr (by simp [Call.drops])
  rw [find?_history, hall, List.findSome?_map]
  rfl

/-- A request after others is answered with the first model that could be compiled under its key. -/
theorem exists_serve (requests : List Request) (r : Request)
    (h : (requests.findSome? fun r' => (Call.serve r').puts? r.key) = some m) :
    ∃ e, ((history (requests.map .serve)).serve r).1 = .ok e ∧ e.model = m := by
  rw [← find?_requests] at h
  obtain ⟨e, hfind, hmodel⟩ := Option.map_eq_some_iff.mp h
  exact ⟨e, congrArg Prod.fst (serve_of_some hfind), hmodel⟩

end Cache

/-! ## What a key determines -/

namespace Rule

/-- Two derivations from a term are the same, whatever their numbers of sweeps. -/
theorem derive_unique {rules : List Rule} {t : Term} {limit limit' : Nat} {d d' : Derivation}
    (h : derive rules limit t = .ok d) (h' : derive rules limit' t = .ok d') : d = d' := by
  rcases le_total limit limit' with hle | hle
  · exact Except.ok.inj ((derive_of_le h hle).symm.trans h')
  · exact Except.ok.inj (h.symm.trans (derive_of_le h' hle))

end Rule

/-- The term of a descriptor depends on its name and its parameters only. -/
theorem Descriptor.term_congr {d d' : Descriptor} (hname : d.name = d'.name)
    (hcompiled : d.compiledParams = d'.compiledParams)
    (hruntime : d.runtimeParams = d'.runtimeParams) : d.term = d'.term := by
  have hint : ∀ field, d.intParam field = d'.intParam field := by
    intro field
    rw [intParam, intParam, hcompiled]
  have hrequired : ∀ field, d.requiredInt field = d'.requiredInt field := by
    intro field
    rw [requiredInt, requiredInt, hint]
  have hmode : d.overflowMode = d'.overflowMode := by
    rw [overflowMode, overflowMode, hcompiled]
  have hoperand : ∀ lifted, Recipe.operand d lifted = Recipe.operand d' lifted := by
    intro lifted
    rw [Recipe.operand, Recipe.operand, hint, hruntime]
  have hrecipe : ∀ r : Recipe, r.term d = r.term d' := by
    intro r
    cases r with
    | literal => exact hoperand false
    | lift => rw [Recipe.term, Recipe.term, hrequired]
    | project => rw [Recipe.term, Recipe.term, hoperand]
    | projectGrade => rw [Recipe.term, Recipe.term, hoperand, hrequired]
    | ring op => rw [Recipe.term, Recipe.term, Recipe.ringTerm, Recipe.ringTerm, hmode, hint]
    | turn axis =>
        rw [Recipe.term, Recipe.term, hoperand, Recipe.exponent, Recipe.exponent, hint]
    | mirror => rw [Recipe.term, Recipe.term, hoperand]
  unfold term
  rw [hname]
  split
  · rw [hrecipe]
  · rfl

namespace Model

/-- The models differ at most in their namespace. -/
structure Agrees (m m' : Model) : Prop where
  name : m.name = m'.name
  version : m.version = m'.version
  term : m.term = m'.term
  tier : m.tier = m'.tier
  backend : m.backend = m'.backend
  plan : m.plan = m'.plan
  runtimeParams : m.runtimeParams = m'.runtimeParams
  folded : m.folded = m'.folded

theorem Agrees.refl (m : Model) : m.Agrees m := ⟨rfl, rfl, rfl, rfl, rfl, rfl, rfl, rfl⟩

/-- A run does not depend on the namespace. -/
theorem Agrees.run_eq {m m' : Model} (h : m.Agrees m') (p : Params) : m.run p = m'.run p := by
  rw [run, run, h.runtimeParams, h.folded, h.plan]

end Model

/-- **Two models that were compiled under one key from the same parameters agree.** The key has the
rest of what a model is made from; the bound on sweeps, which it has not, makes no difference to a
derivation that succeeds. -/
theorem Request.compile_agrees {r r' : Request} {m m' : Model} (hkey : r.key = r'.key)
    (hparams : r.descriptor.compiledParams = r'.descriptor.compiledParams)
    (hm : r.compile = .ok m) (hm' : r'.compile = .ok m') : m.Agrees m' := by
  have h := Model.compile_eq_ok hm
  have h' := Model.compile_eq_ok hm'
  have hname : r.descriptor.name = r'.descriptor.name := congrArg Key.name hkey
  have hversion : r.descriptor.version = r'.descriptor.version := congrArg Key.version hkey
  have hruntime : r.descriptor.runtimeParams = r'.descriptor.runtimeParams :=
    congrArg Key.runtimeParams hkey
  have hhint : r.descriptor.complexityHint = r'.descriptor.complexityHint :=
    congrArg Key.complexityHint hkey
  have hpreference : r.descriptor.preference r.options = r'.descriptor.preference r'.options :=
    congrArg Key.preference hkey
  have hcompiled : r.options.compiled = r'.options.compiled := congrArg Key.compiled hkey
  have hterm : m.term = m'.term := by
    obtain ⟨source, normal, hsource, hnormal, hterm⟩ := h.term
    obtain ⟨source', normal', hsource', hnormal', hterm'⟩ := h'.term
    rw [Descriptor.term_congr hname hparams hruntime] at hsource
    cases hsource.symm.trans hsource'
    rw [hterm, hterm', Rule.derive_unique hnormal hnormal']
  have htier : m.tier = m'.tier := by
    obtain ⟨hint, hhint', htier⟩ := h.tier
    obtain ⟨hint', hhint'', htier'⟩ := h'.tier
    rw [Descriptor.hint, hhint] at hhint'
    cases hhint'.symm.trans hhint''
    rw [htier, htier', hterm, hcompiled, hruntime]
  have hbackend : m.backend = m'.backend := by
    rw [h.backend, h'.backend, hpreference, htier]
  have hplan : m.plan = m'.plan := by
    have hlowered := h.plan
    rw [hterm, hbackend] at hlowered
    exact Except.ok.inj (hlowered.symm.trans h'.plan)
  exact {
    name := (h.name.trans hname).trans h'.name.symm
    version := (h.version.trans hversion).trans h'.version.symm
    term := hterm
    tier := htier
    backend := hbackend
    plan := hplan
    runtimeParams := (h.runtimeParams.trans hruntime).trans h'.runtimeParams.symm
    folded := by rw [h.folded, h'.folded, htier, hplan] }

/-! ## What is served -/

/-- **A cache never serves a model that was compiled from something else.** After any calls but
insertions from outside, a request that can be compiled is answered, and the answer agrees with the
model that compilation gives. This holds if no two texts of parameters that were hashed have the
same digest, and if the text of parameters determines them. -/
theorem cache_serves_compiled {calls : List Cache.Call} {r : Request} {m : Model}
    (hcalls : ∀ k m, Cache.Call.insert k m ∉ calls)
    (hdigest : Set.InjOn Blake3.hexDigest
      {text | ∃ r' ∈ r :: Cache.requests calls, Key.paramsText r'.descriptor = text})
    (htext : Set.InjOn (fun params => (Json.Value.object params).compact)
      {params | ∃ r' ∈ r :: Cache.requests calls, r'.descriptor.compiledParams = params})
    (hm : r.compile = .ok m) :
    ∃ e, ((Cache.history calls).serve r).1 = .ok e ∧ e.model.Agrees m ∧
      ∀ p, e.model.run p = m.run p := by
  cases hfind : (Cache.history calls).find? r.key with
  | none =>
      rw [Cache.serve_of_ok hfind hm]
      exact ⟨_, rfl, .refl m, fun p => rfl⟩
  | some e =>
      rw [Cache.serve_of_some hfind]
      have hheld := Cache.find?_history calls r.key
      rw [hfind] at hheld
      obtain ⟨call, hsince, hputs⟩ := List.exists_of_findSome?_eq_some hheld.symm
      have hcall : call ∈ calls := (List.rtakeWhile_suffix _ calls).subset hsince
      -- the entry was compiled for an earlier request with the same key
      obtain ⟨r', rfl, hkey, hcompile⟩ : ∃ r', call = .serve r' ∧ r'.key = r.key ∧
          r'.compile = .ok e.model := by
        cases call with
        | serve r' => exact ⟨r', rfl, Cache.Call.puts?_serve_eq_some.mp hputs⟩
        | insert k m => exact absurd hcall (hcalls k m)
        | _ => cases hputs
      have hmem : r' ∈ r :: Cache.requests calls :=
        List.mem_cons_of_mem _ (List.mem_filterMap.mpr ⟨_, hcall, rfl⟩)
      have hself : r ∈ r :: Cache.requests calls := List.mem_cons_self
      have hdigests : Blake3.hexDigest (Key.paramsText r'.descriptor)
          = Blake3.hexDigest (Key.paramsText r.descriptor) := by
        rw [← Request.paramsHash_key, ← Request.paramsHash_key, hkey]
      have htexts : Key.paramsText r'.descriptor = Key.paramsText r.descriptor :=
        hdigest ⟨r', hmem, rfl⟩ ⟨r, hself, rfl⟩ hdigests
      have hparams : r'.descriptor.compiledParams = r.descriptor.compiledParams :=
        htext ⟨r', hmem, rfl⟩ ⟨r, hself, rfl⟩ htexts
      have hagrees := Request.compile_agrees hkey hparams hcompile hm
      exact ⟨e, rfl, hagrees, hagrees.run_eq⟩

/-- A request for the rotation of a class by one step. -/
def rotationIn (space : String) (operand : Int) (o : Options) : Request where
  descriptor := {
    name := "rotate"
    version := "1"
    namespaceName := space
    compiledParams := [("class", .int operand)]
    runtimeParams := []
    complexityHint := none
    backend := none }
  schema := none
  options := o

/-- Calls that fill a cache with two rotations and take one of them out again. -/
def mixedCalls : List Cache.Call :=
  [.serve (rotationIn "north" 3 { maxSweeps := 0 }),
   .serve (rotationIn "north" 3 { maxSweeps := 2 }),
   .serve (rotationIn "north" 4 {}),
   .get (rotationIn "north" 4 {}).key,
   .contains (rotationIn "south" 3 {}).key,
   .remove (rotationIn "north" 4 {}).key]

/-- After these calls a request from another namespace gets the rotation of class 3, which is 27. -/
theorem cache_serves_compiled_mixedCalls :
    ∃ e m, (rotationIn "south" 3 {}).compile = .ok m ∧
      ((Cache.history mixedCalls).serve (rotationIn "south" 3 {})).1 = .ok e ∧
      e.model.Agrees m ∧ e.model.run [] = .ok (.number 27) := by
  have hm : (rotationIn "south" 3 {}).compile = .ok _ := rfl
  have hrequests : ∀ r' ∈ rotationIn "south" 3 {} :: Cache.requests mixedCalls,
      r'.descriptor.compiledParams = [("class", .int 3)] ∨
      r'.descriptor.compiledParams = [("class", .int 4)] := by
    intro r' hr'
    fin_cases hr'
    · exact .inl rfl
    · exact .inl rfl
    · exact .inl rfl
    · exact .inr rfl
  have htexts : Set.InjOn (fun params => (Json.Value.object params).compact)
      {[("class", .int 3)], [("class", .int 4)]} :=
    Set.injOn_pair.mpr fun h => absurd h (by decide)
  have hdigests : Set.InjOn Blake3.hexDigest
      {(Json.Value.object [("class", .int 3)]).compact,
        (Json.Value.object [("class", .int 4)]).compact} :=
    Set.injOn_pair.mpr fun h => absurd h (by decide +kernel)
  have hcalls : ∀ k m, Cache.Call.insert k m ∉ mixedCalls := by simp [mixedCalls]
  -- only two tables of parameters occur, so there are only two texts and two digests
  obtain ⟨e, he, hagrees, hrun⟩ := cache_serves_compiled hcalls
    (hdigests.mono (by
      rintro _ ⟨r', hr', rfl⟩
      exact (hrequests r' hr').imp (congrArg fun ps => (Json.Value.object ps).compact)
        (congrArg fun ps => (Json.Value.object ps).compact)))
    (htexts.mono (by
      rintro _ ⟨r', hr', rfl⟩
      exact hrequests r' hr'))
    hm
  exact ⟨e, _, hm, he, hagrees, (hrun []).trans rfl⟩

/-- **The identity of the model that is served.** After requests alone, the name and the version of
the answer are those that were asked for. Its namespace is that of the first request that could be
compiled under the key, so it is the one that was asked for exactly if these two are the same. -/
theorem served_identity {requests : List Request} {r : Request} {e : Entry}
    (h : ((Cache.history (requests.map .serve)).serve r).1 = .ok e) :
    ∃ before first rest, requests ++ [r] = before ++ first :: rest ∧
      first.key = r.key ∧ first.compile = .ok e.model ∧
      (∀ r' ∈ before, r'.key = r.key → ∃ cause, r'.compile = .error cause) ∧
      e.model.name = r.descriptor.name ∧ e.model.version = r.descriptor.version ∧
      (e.model.namespaceName = r.descriptor.namespaceName ↔
        first.descriptor.namespaceName = r.descriptor.namespaceName) := by
  -- the answer is what is held after the request
  have hheld : some e = ((Cache.history (requests.map .serve)).after (.serve r)).find? r.key := by
    have hreturned := (Cache.effect_perform (Cache.history (requests.map .serve))
      (.serve r)).returned_eq (k := r.key) rfl
    rw [← hreturned, Cache.perform, h]
    rfl
  rw [← Cache.history_concat, ← List.map_singleton, ← List.map_append] at hheld
  have hfirst := Cache.find?_requests (requests ++ [r]) r.key
  rw [← hheld] at hfirst
  obtain ⟨before, first, rest, hsplit, hputs, hbefore⟩ :=
    List.findSome?_eq_some_iff.mp hfirst.symm
  obtain ⟨hkey, hcompile⟩ := Cache.Call.puts?_serve_eq_some.mp hputs
  have hmodel := Model.compile_eq_ok hcompile
  refine ⟨before, first, rest, hsplit, hkey, hcompile, ?_, ?_, ?_, ?_⟩
  · intro r' hr'
    exact Cache.Call.puts?_serve_eq_none.mp (hbefore r' hr')
  · exact hmodel.name.trans (congrArg Key.name hkey)
  · exact hmodel.version.trans (congrArg Key.version hkey)
  · rw [hmodel.namespaceName]

/-- The request from the north that was made first could not be compiled, so the next one from there
is served the model of the south. -/
theorem served_identity_failedFirst :
    ∃ (e : Entry) (first : Request), ((Cache.history ([rotationIn "north" 3 { maxSweeps := 0 },
        rotationIn "south" 3 {}].map .serve)).serve (rotationIn "north" 3 {})).1 = .ok e ∧
      first.compile = .ok e.model ∧ e.model.name = "rotate" ∧ e.model.version = "1" ∧
      e.model.namespaceName = "south" ∧ first.descriptor.namespaceName ≠ "north" := by
  have hfailed : (Cache.Call.serve (rotationIn "north" 3 { maxSweeps := 0 })).puts?
      (rotationIn "north" 3 {}).key = none :=
    Cache.Call.puts?_serve_eq_none.mpr fun _ => ⟨_, rfl⟩
  have hput : (Cache.Call.serve (rotationIn "south" 3 {})).puts? (rotationIn "north" 3 {}).key
      = some _ := Cache.Call.puts?_serve_eq_some.mpr ⟨rfl, rfl⟩
  obtain ⟨e, he, hmodel⟩ := Cache.exists_serve
    [rotationIn "north" 3 { maxSweeps := 0 }, rotationIn "south" 3 {}] (rotationIn "north" 3 {})
    ((List.findSome?_cons_of_isNone (by rw [hfailed]; rfl)).trans
      (List.findSome?_singleton.trans hput))
  obtain ⟨before, first, rest, -, -, hcompile, -, hname, hversion, hspace⟩ := served_identity he
  have hsouth : e.model.namespaceName = "south" := congrArg Model.namespaceName hmodel
  refine ⟨e, first, he, hcompile, hname, hversion, hsouth, ?_⟩
  intro hnorth
  exact absurd (hsouth.symm.trans (hspace.mpr hnorth)) (by decide)

/-- A model that was compiled in one namespace is served to a request from another. -/
theorem served_from_other_namespace :
    ∃ e, ((Cache.history [.serve (rotationIn "north" 3 {})]).serve (rotationIn "south" 3 {})).1
        = .ok e ∧
      (rotationIn "south" 3 {}).descriptor.namespaceName = "south" ∧
      e.model.namespaceName = "north" := by
  have hput : (Cache.Call.serve (rotationIn "north" 3 {})).puts? (rotationIn "south" 3 {}).key
      = some _ := Cache.Call.puts?_serve_eq_some.mpr ⟨rfl, rfl⟩
  obtain ⟨e, he, hmodel⟩ := Cache.exists_serve [rotationIn "north" 3 {}] (rotationIn "south" 3 {})
    (by rw [List.findSome?_singleton, hput])
  exact ⟨e, he, rfl, congrArg Model.namespaceName hmodel⟩

end NinetySix
