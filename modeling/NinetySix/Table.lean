set_option autoImplicit false

/-! # Tables in ascending key order

A table is an association list whose keys ascend strictly. The multivectors of the algebra
(keyed by blades), the objects of the JSON reader and the runtime parameters of a plan
(keyed by strings) are all tables, so that their iteration order, which answers show, is the
order of the keys.

`Table.insert` and `Table.erase` keep the order (`Table.Ascending`); `Table.find?` is the view
through which the two are described.
-/

namespace NinetySix

/-- An association list; the operations below keep its keys strictly ascending. -/
abbrev Table (κ α : Type) := List (κ × α)

namespace Table

variable {κ α : Type}

/-- The keys of a table ascend strictly. -/
def Ascending [LT κ] (t : Table κ α) : Prop := t.Pairwise (fun x y => x.1 < y.1)

/-- The value stored under `k`. -/
def find? [DecidableEq κ] (k : κ) : Table κ α → Option α
  | [] => none
  | (k', v) :: rest => if k = k' then some v else find? k rest

/-- Stores `v` under `k`, in place of what was there. -/
def insert [LT κ] [DecidableLT κ] [DecidableEq κ] (k : κ) (v : α) : Table κ α → Table κ α
  | [] => [(k, v)]
  | (k', v') :: rest =>
    if k < k' then (k, v) :: (k', v') :: rest
    else if k = k' then (k, v) :: rest
    else (k', v') :: insert k v rest

/-- Forgets what is stored under `k`. -/
def erase [DecidableEq κ] (k : κ) : Table κ α → Table κ α
  | [] => []
  | (k', v') :: rest => if k = k' then rest else (k', v') :: erase k rest

/-- The table of a list of pairs; of two pairs with one key the later one stays. -/
def ofList [LT κ] [DecidableLT κ] [DecidableEq κ] (pairs : List (κ × α)) : Table κ α :=
  pairs.foldl (fun t p => insert p.1 p.2 t) []

/-- The keys, ascending. -/
def keys (t : Table κ α) : List κ := t.map Prod.fst

/-! ## What the operations do to the view -/

theorem find?_insert_self [LT κ] [DecidableLT κ] [DecidableEq κ] (k : κ) (v : α) (t : Table κ α) :
    find? k (insert k v t) = some v := by
  induction t with
  | nil => simp [insert, find?]
  | cons p rest ih =>
    obtain ⟨k', v'⟩ := p
    unfold insert
    split
    · simp [find?]
    · split
      · simp [find?]
      · next hne => simp [find?, hne, ih]

theorem find?_insert_of_ne [LT κ] [DecidableLT κ] [DecidableEq κ] {j k : κ} (h : j ≠ k) (v : α)
    (t : Table κ α) : find? j (insert k v t) = find? j t := by
  induction t with
  | nil => simp [insert, find?, h]
  | cons p rest ih =>
    obtain ⟨k', v'⟩ := p
    unfold insert
    split
    · simp [find?, h]
    · split
      · next heq => subst heq; simp [find?, h]
      · simp [find?, ih]

theorem find?_erase_of_ne [DecidableEq κ] {j k : κ} (h : j ≠ k) (t : Table κ α) :
    find? j (erase k t) = find? j t := by
  induction t with
  | nil => rfl
  | cons p rest ih =>
    obtain ⟨k', v'⟩ := p
    unfold erase
    split
    · next heq => subst heq; simp [find?, h]
    · simp [find?, ih]

/-! ## Ascending tables -/

theorem ascending_cons [LT κ] {p : κ × α} {t : Table κ α} :
    Ascending (p :: t) ↔ (∀ q ∈ t, p.1 < q.1) ∧ Ascending t := List.pairwise_cons

theorem mem_insert [LT κ] [DecidableLT κ] [DecidableEq κ] {k : κ} {v : α} {t : Table κ α}
    {q : κ × α} (h : q ∈ insert k v t) : q = (k, v) ∨ q ∈ t := by
  induction t with
  | nil => simpa [insert] using h
  | cons p rest ih =>
    obtain ⟨k', v'⟩ := p
    unfold insert at h
    split at h
    · simpa using h
    · split at h
      · rcases List.mem_cons.mp h with h | h
        · exact .inl h
        · exact .inr (List.mem_cons_of_mem _ h)
      · rcases List.mem_cons.mp h with h | h
        · exact .inr (h ▸ List.mem_cons_self)
        · rcases ih h with h | h
          · exact .inl h
          · exact .inr (List.mem_cons_of_mem _ h)

theorem mem_of_mem_erase [DecidableEq κ] {k : κ} {t : Table κ α} {q : κ × α}
    (h : q ∈ erase k t) : q ∈ t := by
  induction t with
  | nil => exact h
  | cons p rest ih =>
    obtain ⟨k', v'⟩ := p
    unfold erase at h
    split at h
    · exact List.mem_cons_of_mem _ h
    · rcases List.mem_cons.mp h with h | h
      · exact h ▸ List.mem_cons_self
      · exact List.mem_cons_of_mem _ (ih h)

theorem ascending_insert [LT κ] [DecidableLT κ] [DecidableEq κ]
    [Trans (α := κ) (β := κ) (γ := κ) (· < ·) (· < ·) (· < ·)]
    [Std.Trichotomous (α := κ) (· < ·)] (k : κ) (v : α) {t : Table κ α} (h : Ascending t) :
    Ascending (insert k v t) := by
  induction t with
  | nil => simp [insert, Ascending]
  | cons p rest ih =>
    obtain ⟨k', v'⟩ := p
    obtain ⟨hlt, hrest⟩ := ascending_cons.mp h
    unfold insert
    split
    · next hk =>
      refine ascending_cons.mpr ⟨fun q hq => ?_, h⟩
      rcases List.mem_cons.mp hq with rfl | hq
      · exact hk
      · exact Std.lt_trans hk (hlt q hq)
    · next hk =>
      split
      · next heq => subst heq; exact ascending_cons.mpr ⟨hlt, hrest⟩
      · next hne =>
        refine ascending_cons.mpr ⟨fun q hq => ?_, ih hrest⟩
        rcases mem_insert hq with rfl | hq
        · rcases Std.lt_trichotomy k k' with h' | h' | h'
          · exact absurd h' hk
          · exact absurd h' hne
          · exact h'
        · exact hlt q hq

theorem ascending_erase [LT κ] [DecidableEq κ] (k : κ) {t : Table κ α} (h : Ascending t) :
    Ascending (erase k t) := by
  induction t with
  | nil => exact h
  | cons p rest ih =>
    obtain ⟨k', v'⟩ := p
    obtain ⟨hlt, hrest⟩ := ascending_cons.mp h
    unfold erase
    split
    · exact hrest
    · exact ascending_cons.mpr ⟨fun q hq => hlt q (mem_of_mem_erase hq), ih hrest⟩

/-- A key below all keys of a table is not in it. -/
theorem find?_eq_none_of_lt [LT κ] [DecidableEq κ] [Std.Irrefl (α := κ) (· < ·)] {k : κ}
    {t : Table κ α} (h : ∀ q ∈ t, k < q.1) : find? k t = none := by
  induction t with
  | nil => rfl
  | cons p rest ih =>
    obtain ⟨k', v'⟩ := p
    have hne : k ≠ k' := fun heq => Std.lt_irrefl (heq ▸ h (k', v') List.mem_cons_self)
    simp [find?, hne, ih fun q hq => h q (List.mem_cons_of_mem _ hq)]

theorem find?_erase_self [LT κ] [DecidableEq κ] [Std.Irrefl (α := κ) (· < ·)] (k : κ)
    {t : Table κ α} (h : Ascending t) : find? k (erase k t) = none := by
  induction t with
  | nil => rfl
  | cons p rest ih =>
    obtain ⟨k', v'⟩ := p
    obtain ⟨hlt, hrest⟩ := ascending_cons.mp h
    unfold erase
    split
    · next heq => subst heq; exact find?_eq_none_of_lt hlt
    · next hne => simp [find?, hne, ih hrest]

theorem ascending_ofList [LT κ] [DecidableLT κ] [DecidableEq κ]
    [Trans (α := κ) (β := κ) (γ := κ) (· < ·) (· < ·) (· < ·)]
    [Std.Trichotomous (α := κ) (· < ·)] (pairs : List (κ × α)) :
    Ascending (ofList pairs) := by
  have step : ∀ (ps : List (κ × α)) (t : Table κ α), Ascending t →
      Ascending (ps.foldl (fun t p => insert p.1 p.2 t) t) := by
    intro ps
    induction ps with
    | nil => exact fun _ h => h
    | cons p rest ih => exact fun t h => ih _ (ascending_insert p.1 p.2 h)
  exact step pairs [] List.Pairwise.nil

end Table

end NinetySix
