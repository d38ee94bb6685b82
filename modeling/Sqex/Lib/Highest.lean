import Sqex.Lib.Collections

/-! A table of at most so many rows: a row goes in where none is under its key, and of too many the
ones under the lowest keys go. -/
namespace Sqex
open Std
variable {α β : Type*} {cmp : α → α → Ordering} [TransCmp cmp] [LawfulEqCmp cmp]

theorem fit_of_forall_mem {γ : Type*} {t u : ExtTreeMap α β cmp} {rows : List (α × γ)}
    (hnodup : (rows.map Prod.fst).Nodup) (hkeep : ∀ k ∈ t, k ∈ u)
    (hrows : ∀ row ∈ rows, row.1 ∈ u) :
    t.size + (rows.filter fun row => row.1 ∉ t).length ≤ u.size := by
  let new := (rows.filter fun row => row.1 ∉ t).map Prod.fst
  have hnew : new.Nodup := hnodup.sublist (List.filter_sublist.map _)
  have hapart : (t.keys ++ new).Nodup := by
    refine List.nodup_append'.mpr ⟨t.nodup_keys, hnew, fun k hk hknew => ?_⟩
    obtain ⟨row, hrow, rfl⟩ := List.mem_map.mp hknew
    have hnot : row.1 ∉ t := by simpa using (List.mem_filter.mp hrow).2
    exact hnot (ExtTreeMap.mem_keys.mp hk)
  have hsub : t.keys ++ new ⊆ u.keys := by
    intro k hk
    rw [ExtTreeMap.mem_keys]
    cases List.mem_append.mp hk with
    | inl hold => exact hkeep k (ExtTreeMap.mem_keys.mp hold)
    | inr hadded =>
      obtain ⟨row, hrow, rfl⟩ := List.mem_map.mp hadded
      exact hrows row (List.mem_of_mem_filter hrow)
  have hlength := (List.subperm_of_subset hapart hsub).length_le
  simpa [new] using hlength

theorem getElem?_foldl_insertIfNew [DecidableEq α] {t : ExtTreeMap α β cmp} (rows : List (α × β))
    (k : α) : (rows.foldl (fun t row => t.insertIfNew row.1 row.2) t)[k]? =
      (t[k]?).or ((rows.find? (·.1 == k)).map Prod.snd) := by
  induction rows generalizing t with
  | nil => simp
  | cons row rows ih =>
    rw [List.foldl_cons, ih, ExtTreeMap.getElem?_insertIfNew, List.find?_cons]
    by_cases hkey : row.1 = k
    · subst hkey
      cases hold : t[row.1]? with
      | none =>
        have habsent : row.1 ∉ t := by simpa using hold
        simp [habsent]
      | some v =>
        have hmem : row.1 ∈ t := ExtTreeMap.mem_iff_isSome_getElem?.mpr (by simp [hold])
        simp [hmem]
    · have hother : (row.1 == k) = false := by simpa using hkey
      simp [hkey, hother]

variable [LT α] [DecidableLT α]

/-- The rows fewer than `n` others are above. -/
def keepHighest (n : Nat) (t : ExtTreeMap α β cmp) : ExtTreeMap α β cmp :=
  t.filter fun k _ => decide ((t.keys.filter (k < ·)).length < n)

def putHighest (n : Nat) (t : ExtTreeMap α β cmp) (row : α × β) : ExtTreeMap α β cmp :=
  keepHighest n (t.insertIfNew row.1 row.2)

section
variable {n : Nat} {t : ExtTreeMap α β cmp} (hlt : ∀ a b : α, cmp a b = .lt ↔ a < b)
include hlt

theorem keepHighest_of_size_le (hsize : t.size ≤ n) : keepHighest n t = t := by
  refine ExtTreeMap.ext_getElem? fun k => ?_
  rw [keepHighest, ExtTreeMap.getElem?_filter']
  cases hk : t[k]? with
  | none => rfl
  | some v =>
    have hmem : k ∈ t.keys := by
      rw [ExtTreeMap.mem_keys, ExtTreeMap.mem_iff_isSome_getElem?, hk]
      rfl
    have hself : ¬ k < k := by
      rw [← hlt, (ReflCmp.compare_self : cmp k k = .eq)]
      simp
    have hfewer : (t.keys.filter (k < ·)).length < t.keys.length :=
      List.length_filter_lt_length_iff_exists.mpr ⟨k, hmem, by simpa using hself⟩
    rw [ExtTreeMap.length_keys] at hfewer
    have hbelow : (t.keys.filter (k < ·)).length < n := by omega
    simp [hbelow]

theorem size_keepHighest_le (t : ExtTreeMap α β cmp) : (keepHighest n t).size ≤ n := by
  rw [← ExtTreeMap.length_keys]
  have hordered := (keepHighest n t).ordered_keys
  have hnodup := (keepHighest n t).nodup_keys
  have hkept : ∀ a ∈ (keepHighest n t).keys, a ∈ t.keys ∧ (t.keys.filter (a < ·)).length < n := by
    intro a ha
    rw [ExtTreeMap.mem_keys, keepHighest, ExtTreeMap.mem_filter] at ha
    simpa using ha
  cases hkeys : (keepHighest n t).keys with
  | nil => simp
  | cons k rest =>
    rw [hkeys] at hordered hnodup hkept
    have habove : rest ⊆ t.keys.filter (k < ·) := by
      intro a ha
      have hka : k < a := (hlt k a).mp (List.rel_of_pairwise_cons hordered ha)
      simpa [hka] using (hkept a (by simp [ha])).1
    have hrest := (List.subperm_of_subset (List.nodup_cons.mp hnodup).2 habove).length_le
    have hfirst := (hkept k (by simp)).2
    simp only [List.length_cons]
    omega

theorem size_foldl_putHighest_le (rows : List (α × β)) (hsize : t.size ≤ n) :
    (rows.foldl (putHighest n) t).size ≤ n := by
  induction rows generalizing t with
  | nil => exact hsize
  | cons row rows ih => exact ih (size_keepHighest_le hlt _)

theorem foldl_putHighest_of_fit [DecidableEq α] {rows : List (α × β)}
    (hnodup : (rows.map Prod.fst).Nodup)
    (hfit : t.size + (rows.filter fun row => row.1 ∉ t).length ≤ n) :
    rows.foldl (putHighest n) t = rows.foldl (fun t row => t.insertIfNew row.1 row.2) t := by
  induction rows generalizing t with
  | nil => rfl
  | cons row rows ih =>
    rw [List.map_cons, List.nodup_cons] at hnodup
    obtain ⟨hother, hnodup⟩ := hnodup
    rw [List.foldl_cons, List.foldl_cons]
    by_cases hmem : row.1 ∈ t
    · have hput : putHighest n t row = t := by
        rw [putHighest, insertIfNew_of_mem hmem, keepHighest_of_size_le hlt (by omega)]
      rw [hput, insertIfNew_of_mem hmem]
      exact ih hnodup (by simpa [hmem] using hfit)
    · have hgrown : (t.insertIfNew row.1 row.2).size = t.size + 1 := by
        rw [ExtTreeMap.size_insertIfNew, if_neg hmem]
      have hrest : (rows.filter fun r => r.1 ∉ t.insertIfNew row.1 row.2) =
          rows.filter fun r => r.1 ∉ t := by
        refine List.filter_congr fun r hr => ?_
        have hne : row.1 ≠ r.1 := fun h => hother (h ▸ List.mem_map_of_mem hr)
        simp [ExtTreeMap.mem_insertIfNew, hne]
      simp only [List.filter_cons, hmem, not_false_eq_true, decide_true, if_true,
        List.length_cons] at hfit
      have hput : putHighest n t row = t.insertIfNew row.1 row.2 :=
        keepHighest_of_size_le hlt (by omega)
      rw [hput]
      exact ih hnodup (by rw [hgrown, hrest]; omega)

end

end Sqex
