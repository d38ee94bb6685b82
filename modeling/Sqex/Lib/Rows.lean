import Sqex.Lib.Collections

/-! Rows under keys of their own: made into a table, picked out of one, and put in one by one. -/
namespace Sqex
open Std
variable {α β : Type*} [Ord α] [TransOrd α] [LawfulEqOrd α] [DecidableEq α]

theorem getElem?_ofList_iff {rows : List (α × β)} (hnodup : (rows.map Prod.fst).Nodup) {k : α}
    {v : β} : (ExtTreeMap.ofList rows)[k]? = some v ↔ (k, v) ∈ rows := by
  have hdistinct : rows.Pairwise fun a b => ¬ compare a.1 b.1 = .eq := by
    rw [List.nodup_iff_pairwise_ne, List.pairwise_map] at hnodup
    exact hnodup.imp fun hne heq => hne (LawfulEqCmp.eq_of_compare heq)
  constructor
  · intro hk
    by_cases hmem : k ∈ rows.map Prod.fst
    · obtain ⟨row, hrow, rfl⟩ := List.mem_map.mp hmem
      rw [ExtTreeMap.getElem?_ofList_of_mem ReflCmp.compare_self hdistinct hrow] at hk
      cases hk
      exact hrow
    · have hnone : (ExtTreeMap.ofList rows)[k]? = none :=
        ExtTreeMap.getElem?_ofList_of_contains_eq_false (by simpa using hmem)
      rw [hnone] at hk
      cases hk
  · exact fun hmem => ExtTreeMap.getElem?_ofList_of_mem ReflCmp.compare_self hdistinct hmem

omit [LawfulEqOrd α] [DecidableEq α] in
theorem nodup_keys_filterMap {γ : Type*} {t : ExtTreeMap α β} {f : α × β → Option (α × γ)}
    (hf : ∀ r q, f r = some q → q.1 = r.1) : ((t.toList.filterMap f).map Prod.fst).Nodup := by
  have hsub : ∀ l : List (α × β), ((l.filterMap f).map Prod.fst).Sublist (l.map Prod.fst) := by
    intro l
    induction l with
    | nil => simp
    | cons r l ih =>
      rw [List.filterMap_cons]
      cases hr : f r with
      | none => exact ih.cons _
      | some q => simpa [hf r q hr] using ih
  have hkeys : (t.toList.map Prod.fst).Nodup := by
    rw [ExtTreeMap.map_fst_toList_eq_keys]
    exact t.nodup_keys
  exact hkeys.sublist (hsub t.toList)

omit [DecidableEq α] in
theorem erase_of_not_mem {t : ExtTreeMap α β} {k : α} (h : k ∉ t) : t.erase k = t := by
  refine ExtTreeMap.ext_getElem? fun a => ?_
  rw [ExtTreeMap.getElem?_erase]
  split
  · rename_i heq
    rw [← LawfulEqCmp.eq_of_compare heq, ExtTreeMap.getElem?_eq_none h]
  · rfl

/-- A row written over the one of its key is kept by a filter, or takes that one away. -/
theorem filter_insert_of_pos {keep : α → β → Bool} {t : ExtTreeMap α β} {k : α} {v : β}
    (hkeep : keep k v = true) : (t.insert k v).filter keep = (t.filter keep).insert k v := by
  refine ExtTreeMap.ext_getElem? fun a => ?_
  rw [ExtTreeMap.getElem?_filter', lookup_insert, lookup_insert, ExtTreeMap.getElem?_filter']
  by_cases ha : k = a
  · subst ha
    simp [hkeep]
  · rw [if_neg ha, if_neg ha]

theorem filter_insert_of_neg {keep : α → β → Bool} {t : ExtTreeMap α β} {k : α} {v : β}
    (hkeep : keep k v = false) : (t.insert k v).filter keep = (t.filter keep).erase k := by
  refine ExtTreeMap.ext_getElem? fun a => ?_
  rw [ExtTreeMap.getElem?_filter', lookup_insert, lookup_erase, ExtTreeMap.getElem?_filter']
  by_cases ha : k = a
  · subst ha
    simp [hkeep]
  · rw [if_neg ha, if_neg ha]

omit [DecidableEq α] in
theorem size_eq_iff_of_subset {γ : Type*} {t : ExtTreeMap α β} {t' : ExtTreeMap α γ}
    (hsub : ∀ k ∈ t, k ∈ t') : t.size = t'.size ↔ ∀ k ∈ t', k ∈ t := by
  have hkeys : t.keys ⊆ t'.keys := fun k hk => by
    simpa using hsub k (by simpa using hk)
  have hsubperm := List.subperm_of_subset t.nodup_keys hkeys
  rw [← ExtTreeMap.length_keys, ← ExtTreeMap.length_keys]
  constructor
  · intro hsize k hk
    have hperm := hsubperm.perm_of_length_le (Nat.le_of_eq hsize.symm)
    simpa using hperm.mem_iff.mpr (by simpa using hk : k ∈ t'.keys)
  · intro hback
    have hkeys' : t'.keys ⊆ t.keys := fun k hk => by
      simpa using hback k (by simpa using hk)
    exact Nat.le_antisymm hsubperm.length_le
      (List.subperm_of_subset t'.nodup_keys hkeys').length_le

theorem getElem?_foldl_insert {γ : Type*} (key : γ → α) (make : γ → Option β → β)
    (t : ExtTreeMap α β) (rows : List γ) (hnodup : (rows.map key).Nodup) (k : α) :
    (rows.foldl (fun t r => t.insert (key r) (make r t[key r]?)) t)[k]? =
      ((rows.find? (key · = k)).map fun r => make r t[k]?).or t[k]? := by
  induction rows generalizing t with
  | nil => simp
  | cons r rows ih =>
    obtain ⟨hnew, hrest⟩ := List.nodup_cons.mp (by simpa using hnodup :
      (key r :: rows.map key).Nodup)
    rw [List.foldl_cons, ih _ hrest, List.find?_cons, lookup_insert]
    by_cases hkey : key r = k
    · have hnone : rows.find? (key · = k) = none := by
        refine List.find?_eq_none.mpr fun q hq => ?_
        have hne : key q ≠ key r := fun heq => hnew (heq ▸ List.mem_map_of_mem hq)
        simpa [← hkey] using hne
      simp [hkey, hnone]
    · simp [hkey]

end Sqex
