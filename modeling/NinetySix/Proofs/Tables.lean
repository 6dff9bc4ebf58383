import Mathlib
import NinetySix.Table

set_option autoImplicit false

/-! # Tables as sets of entries

An ascending table is determined by the set of its entries (`Table.Ascending.eq_of_mem_iff`), so an
equation between tables is proved entry by entry. For that, the entries of the tables that
`Table.insert` and `Table.ofList` build are given here as sets: `Table.mem_insert_iff` and
`Table.mem_ofList`. A look-up finds an entry of the table (`Table.mem_of_find?`), and in a table
whose keys are all different it finds every one of them (`Table.find?_of_mem`).
-/

namespace NinetySix.Table

variable {κ α : Type}

/-! ## Look-ups -/

section

variable [DecidableEq κ] {k : κ} {v : α} {t : Table κ α}

theorem mem_of_find? (h : find? k t = some v) : (k, v) ∈ t := by
  induction t with
  | nil => cases h
  | cons p rest ih =>
      obtain ⟨k', v'⟩ := p
      unfold find? at h
      split at h
      · next heq =>
        cases h
        rw [heq]
        exact List.mem_cons_self
      · exact List.mem_cons_of_mem _ (ih h)

theorem find?_of_mem (hnd : (keys t).Nodup) (h : (k, v) ∈ t) : find? k t = some v := by
  induction t with
  | nil => cases h
  | cons p rest ih =>
      obtain ⟨k', v'⟩ := p
      obtain ⟨hk', hrest⟩ := List.nodup_cons.mp (show (k' :: keys rest).Nodup from hnd)
      rcases List.mem_cons.mp h with heq | hmem
      · cases heq
        simp [find?]
      · -- the key of a later entry is not the first one
        have hne : k ≠ k' := by
          rintro rfl
          exact hk' (List.mem_map_of_mem hmem)
        rw [find?, if_neg hne]
        exact ih hrest hmem

theorem isSome_find?_iff : (find? k t).isSome = true ↔ k ∈ keys t := by
  induction t with
  | nil => simp [find?, keys]
  | cons p rest ih =>
      obtain ⟨k', v'⟩ := p
      by_cases hk : k = k'
      · simp [find?, keys, hk]
      · have hkeys : k ∈ keys ((k', v') :: rest) ↔ k ∈ keys rest := by simp [keys, hk]
        rw [hkeys, find?, if_neg hk, ih]

theorem find?_map {β : Type} (g : α → β) (k : κ) (t : Table κ α) :
    find? k (t.map fun p => (p.1, g p.2)) = (find? k t).map g := by
  induction t with
  | nil => rfl
  | cons p rest ih =>
      obtain ⟨k', v'⟩ := p
      rw [List.map_cons, find?, find?, ih]
      split
      · rfl
      · rfl

theorem find?_erase_of_nodup (hnd : (keys t).Nodup) (k : κ) : find? k (erase k t) = none := by
  induction t with
  | nil => rfl
  | cons p rest ih =>
      obtain ⟨k', v'⟩ := p
      obtain ⟨hk', hrest⟩ := List.nodup_cons.mp (show (k' :: keys rest).Nodup from hnd)
      unfold erase
      split
      · next heq =>
        -- the key does not occur again
        rw [heq]
        by_contra hne
        exact hk' (isSome_find?_iff.mp (Option.isSome_iff_ne_none.mpr hne))
      · next hne =>
        rw [find?, if_neg hne]
        exact ih hrest

theorem erase_sublist (k : κ) (t : Table κ α) : (erase k t).Sublist t := by
  induction t with
  | nil => exact List.Sublist.refl _
  | cons p rest ih =>
      obtain ⟨k', v'⟩ := p
      unfold erase
      split
      · exact List.sublist_cons_self _ _
      · exact ih.cons_cons _

theorem find?_append (k : κ) (s t : Table κ α) :
    find? k (s ++ t) = (find? k s).or (find? k t) := by
  induction s with
  | nil => rfl
  | cons p rest ih =>
      obtain ⟨k', v'⟩ := p
      rw [List.cons_append, find?, find?, ih]
      split
      · rfl
      · rfl

end

/-! ## Ascending tables -/

/-- Every entry of the table of a list of pairs is one of the pairs. -/
theorem mem_of_mem_ofList [LT κ] [DecidableLT κ] [DecidableEq κ] {pairs : List (κ × α)} {q : κ × α}
    (h : q ∈ ofList pairs) : q ∈ pairs := by
  have hfold : ∀ (ps : List (κ × α)) (t : Table κ α),
      q ∈ ps.foldl (fun t p => insert p.1 p.2 t) t → q ∈ ps ∨ q ∈ t := by
    intro ps
    induction ps with
    | nil => exact fun t hq => .inr hq
    | cons p rest ih =>
        intro t hq
        rcases ih _ hq with hrest | hins
        · exact .inl (List.mem_cons_of_mem _ hrest)
        · rcases mem_insert hins with rfl | ht
          · exact .inl List.mem_cons_self
          · exact .inr ht
  rcases hfold pairs [] h with hq | hq
  · exact hq
  · cases hq

variable [LT κ] [Std.Irrefl (α := κ) (· < ·)]

/-- No key stands twice in an ascending table. -/
theorem Ascending.nodup_keys {t : Table κ α} (ht : Ascending t) : (keys t).Nodup := by
  refine List.pairwise_map.mpr (ht.imp ?_)
  intro p q hpq heq
  exact Std.lt_irrefl (heq ▸ hpq)

variable [Trans (α := κ) (β := κ) (γ := κ) (· < ·) (· < ·) (· < ·)]

/-- **Two ascending tables with the same entries are equal.** -/
theorem Ascending.eq_of_mem_iff {s t : Table κ α} (hs : Ascending s) (ht : Ascending t)
    (h : ∀ q, q ∈ s ↔ q ∈ t) : s = t := by
  have hirrefl : Std.Irrefl (fun x y : κ × α => x.1 < y.1) := ⟨fun x => Std.lt_irrefl⟩
  have hantisymm : Std.Antisymm (fun x y : κ × α => x.1 < y.1) :=
    ⟨fun x y hxy hyx => absurd (Std.lt_trans hxy hyx) Std.lt_irrefl⟩
  exact List.Pairwise.eq_of_mem_iff hs ht h

variable [DecidableLT κ] [DecidableEq κ]

/-- The entries after an insertion: the new one, and the old ones under other keys. -/
theorem mem_insert_iff {k : κ} {v : α} {t : Table κ α} (ht : Ascending t) {q : κ × α} :
    q ∈ insert k v t ↔ q = (k, v) ∨ (q.1 ≠ k ∧ q ∈ t) := by
  induction t with
  | nil => simp [insert]
  | cons p rest ih =>
      obtain ⟨k', v'⟩ := p
      obtain ⟨hlt, hrest⟩ := ascending_cons.mp ht
      unfold insert
      split
      · next hk =>
        -- `k` is below every key of the table, so no old entry is lost
        have hne : ∀ q ∈ (k', v') :: rest, q.1 ≠ k := by
          intro q hq heq
          rcases List.mem_cons.mp hq with rfl | hq
          · exact Std.lt_irrefl (heq ▸ hk)
          · exact Std.lt_irrefl (Std.lt_trans hk (heq ▸ hlt q hq))
        rw [List.mem_cons]
        constructor
        · rintro (rfl | hq)
          · exact .inl rfl
          · exact .inr ⟨hne q hq, hq⟩
        · rintro (rfl | ⟨-, hq⟩)
          · exact .inl rfl
          · exact .inr hq
      · split
        · next heq =>
          subst heq
          have hne : ∀ q ∈ rest, q.1 ≠ k := by
            intro q hq heq
            exact Std.lt_irrefl (heq ▸ hlt q hq)
          simp only [List.mem_cons]
          constructor
          · rintro (rfl | hq)
            · exact .inl rfl
            · exact .inr ⟨hne q hq, .inr hq⟩
          · rintro (rfl | ⟨hqk, rfl | hq⟩)
            · exact .inl rfl
            · exact absurd rfl hqk
            · exact .inr hq
        · next hne =>
          rw [List.mem_cons, ih hrest, List.mem_cons]
          constructor
          · rintro (rfl | rfl | ⟨hqk, hq⟩)
            · exact .inr ⟨fun h => hne h.symm, .inl rfl⟩
            · exact .inl rfl
            · exact .inr ⟨hqk, .inr hq⟩
          · rintro (rfl | ⟨hqk, rfl | hq⟩)
            · exact .inr (.inl rfl)
            · exact .inl rfl
            · exact .inr (.inr ⟨hqk, hq⟩)

variable [Std.Trichotomous (α := κ) (· < ·)]

/-- The entries after a list of insertions under different keys. -/
theorem mem_foldl_insert {pairs : List (κ × α)} (hnd : (keys pairs).Nodup) {t : Table κ α}
    (ht : Ascending t) {q : κ × α} :
    q ∈ pairs.foldl (fun t p => insert p.1 p.2 t) t ↔
      q ∈ pairs ∨ (q.1 ∉ keys pairs ∧ q ∈ t) := by
  induction pairs generalizing t with
  | nil => simp [keys]
  | cons p rest ih =>
      obtain ⟨hp, hrest⟩ := List.nodup_cons.mp (show (p.1 :: keys rest).Nodup from hnd)
      rw [List.foldl_cons, ih hrest (ascending_insert p.1 p.2 ht), mem_insert_iff ht,
        List.mem_cons, show keys (p :: rest) = p.1 :: keys rest from rfl, List.mem_cons]
      constructor
      · rintro (hq | ⟨hqk, rfl | ⟨hqp, hq⟩⟩)
        · exact .inl (.inr hq)
        · exact .inl (.inl rfl)
        · exact .inr ⟨not_or.mpr ⟨hqp, hqk⟩, hq⟩
      · rintro ((rfl | hq) | ⟨hqk, hq⟩)
        · exact .inr ⟨hp, .inl rfl⟩
        · exact .inl hq
        · exact .inr ⟨fun h => hqk (.inr h), .inr ⟨fun h => hqk (.inl h), hq⟩⟩

/-- The table of a list of pairs with different keys has exactly these entries. -/
theorem mem_ofList {pairs : List (κ × α)} (hnd : (keys pairs).Nodup) {q : κ × α} :
    q ∈ ofList pairs ↔ q ∈ pairs := by
  rw [ofList, mem_foldl_insert hnd List.Pairwise.nil]
  simp

/-- The table of a list of pairs with different keys is that list in another order. -/
theorem ofList_perm {pairs : List (κ × α)} (hnd : (keys pairs).Nodup) :
    (ofList pairs).Perm pairs := by
  have hofList : (keys (ofList pairs)).Nodup := (ascending_ofList pairs).nodup_keys
  exact (List.perm_ext_iff_of_nodup hofList.of_map hnd.of_map).mpr fun q => mem_ofList hnd

/-- An ascending table is the table of its own entries. -/
theorem Ascending.ofList_eq {t : Table κ α} (ht : Ascending t) : ofList t = t :=
  (ascending_ofList t).eq_of_mem_iff ht fun _ => mem_ofList ht.nodup_keys

end NinetySix.Table
