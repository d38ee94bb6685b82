import Std.Data.ExtTreeMap.Lemmas
import Mathlib.Data.Option.Basic

/-! A table that takes in another's rows where their place is free, and when none of them says
less than it did. -/
namespace Sqex.Joins
open Std
variable {α β : Type*} {cmp : α → α → Ordering} [TransCmp cmp] [LawfulEqCmp cmp]

def joined (dst src : ExtTreeMap α β cmp) : ExtTreeMap α β cmp :=
  src.toList.foldl (fun t row => t.insertIfNew row.1 row.2) dst

theorem getElem?_foldl_insertIfNew (rows : List (α × β)) (dst : ExtTreeMap α β cmp) (k : α) :
    (rows.foldl (fun t row => t.insertIfNew row.1 row.2) dst)[k]? =
      dst[k]?.or ((rows.find? fun row => cmp row.1 k == .eq).map Prod.snd) := by
  induction rows generalizing dst with
  | nil => simp
  | cons row rows ih =>
    rw [List.foldl_cons, ih, ExtTreeMap.getElem?_insertIfNew]
    by_cases hkey : cmp row.1 k = .eq
    · obtain rfl := LawfulEqCmp.eq_of_compare hkey
      rw [List.find?_cons_of_pos (by simp)]
      by_cases hmem : row.1 ∈ dst <;> simp [hmem]
    · rw [List.find?_cons_of_neg (by simpa using hkey)]
      simp [hkey]

theorem getElem?_joined (dst src : ExtTreeMap α β cmp) (k : α) :
    (joined dst src)[k]? = dst[k]?.or src[k]? := by
  have hfind : (src.toList.find? fun row => cmp row.1 k == .eq).map Prod.snd = src[k]? := by
    cases hrow : src[k]? with
    | none =>
      rw [ExtTreeMap.find?_toList_eq_none_iff_not_mem.mpr (by simpa using hrow), Option.map_none]
    | some v =>
      have hfound : src.toList.find? (fun row => cmp row.1 k == .eq) = some (k, v) := by
        rw [ExtTreeMap.find?_toList_eq_some_iff_getKey?_eq_some_and_getElem?_eq_some]
        have hmem : k ∈ src := ExtTreeMap.mem_iff_isSome_getElem?.mpr (by simp [hrow])
        exact ⟨ExtTreeMap.getKey?_eq_some hmem, hrow⟩
      rw [hfound, Option.map_some]
  rw [joined, getElem?_foldl_insertIfNew, hfind]

def Within (R : β → β → Prop) (t t' : ExtTreeMap α β cmp) : Prop :=
  ∀ (k : α) (v : β), t[k]? = some v → ∃ w, t'[k]? = some w ∧ R v w

def Agree (R : β → β → Prop) (dst src : ExtTreeMap α β cmp) : Prop :=
  ∀ (k : α) (v w : β), src[k]? = some v → dst[k]? = some w → R v w

variable {R : β → β → Prop} {dst src : ExtTreeMap α β cmp}

omit [LawfulEqCmp cmp] in
theorem Within.refl (hrefl : ∀ v, R v v) (t : ExtTreeMap α β cmp) : Within R t t :=
  fun _ v hv => ⟨v, hv, hrefl v⟩

theorem within_joined (hrefl : ∀ v, R v v) : Within R dst (joined dst src) := by
  intro k v hv
  exact ⟨v, by simp [getElem?_joined, hv], hrefl v⟩

theorem within_joined_iff (hrefl : ∀ v, R v v) :
    Within R src (joined dst src) ↔ Agree R dst src := by
  constructor
  · intro h k v w hv hw
    obtain ⟨x, hx, hsays⟩ := h k v hv
    rw [getElem?_joined, hw, Option.some_or, Option.some.injEq] at hx
    exact hx ▸ hsays
  · intro h k v hv
    cases hw : dst[k]? with
    | none => exact ⟨v, by simp [getElem?_joined, hw, hv], hrefl v⟩
    | some w => exact ⟨w, by simp [getElem?_joined, hw], h k v w hv hw⟩

theorem within_empty_iff : Within R src (∅ : ExtTreeMap α β cmp) ↔ src = ∅ := by
  constructor
  · intro h
    apply ExtTreeMap.ext_getElem?
    intro k
    cases hv : src[k]? with
    | none => simp
    | some v =>
      obtain ⟨w, hw, -⟩ := h k v hv
      simp at hw
  · rintro rfl k v hv
    simp at hv

end Sqex.Joins
