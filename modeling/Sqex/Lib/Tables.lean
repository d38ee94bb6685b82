import Mathlib.Data.List.Basic

/-! A table as the list of its rows, and the two ways a row is written where one may be
there already: the rows in its way are changed, or the new one is not written. -/
namespace Sqex.Tables
variable {α : Type*}

def upsert (same : α → Bool) (change : α → α) (row : α) (t : List α) : List α :=
  if t.any same then t.map fun x => if same x then change x else x else row :: t

def insertOrIgnore (same : α → Bool) (row : α) (t : List α) : List α :=
  if t.any same then t else row :: t

/-- What holds of a row by its key holds of some row afterwards exactly when it holds of the
one written or of one before. -/
theorem exists_mem_upsert {p : α → Prop} {same : α → Bool} {change : α → α} {row : α}
    {t : List α} (hkey : ∀ x, same x = true → (p x ↔ p row))
    (hchange : ∀ x, same x = true → (p (change x) ↔ p row)) :
    (∃ x ∈ upsert same change row t, p x) ↔ p row ∨ ∃ x ∈ t, p x := by
  unfold upsert
  by_cases hany : t.any same = true
  · rw [if_pos hany]
    obtain ⟨y, hy, hsame⟩ := List.any_eq_true.mp hany
    constructor
    · rintro ⟨x, hx, hp⟩
      obtain ⟨z, hz, rfl⟩ := List.mem_map.mp hx
      by_cases hz' : same z = true
      · rw [if_pos hz'] at hp
        exact .inl ((hchange z hz').mp hp)
      · rw [if_neg hz'] at hp
        exact .inr ⟨z, hz, hp⟩
    · rintro (hrow | ⟨z, hz, hp⟩)
      · refine ⟨change y, List.mem_map.mpr ⟨y, hy, if_pos hsame⟩, ?_⟩
        exact (hchange y hsame).mpr hrow
      · by_cases hz' : same z = true
        · refine ⟨change z, List.mem_map.mpr ⟨z, hz, if_pos hz'⟩, ?_⟩
          exact (hchange z hz').mpr ((hkey z hz').mp hp)
        · exact ⟨z, List.mem_map.mpr ⟨z, hz, if_neg hz'⟩, hp⟩
  · rw [if_neg hany]
    simp

theorem exists_mem_insertOrIgnore {p : α → Prop} {same : α → Bool} {row : α} {t : List α}
    (hkey : ∀ x, same x = true → (p x ↔ p row)) :
    (∃ x ∈ insertOrIgnore same row t, p x) ↔ p row ∨ ∃ x ∈ t, p x := by
  unfold insertOrIgnore
  by_cases hany : t.any same = true
  · rw [if_pos hany]
    obtain ⟨y, hy, hsame⟩ := List.any_eq_true.mp hany
    constructor
    · exact Or.inr
    · rintro (hrow | hold)
      · exact ⟨y, hy, (hkey y hsame).mpr hrow⟩
      · exact hold
  · rw [if_neg hany]
    simp

theorem mem_insertOrIgnore_of_mem {same : α → Bool} {row x : α} {t : List α} (hx : x ∈ t) :
    x ∈ insertOrIgnore same row t := by
  unfold insertOrIgnore
  split
  · exact hx
  · exact List.mem_cons_of_mem _ hx

theorem mem_of_insertOrIgnore {same : α → Bool} {row x : α} {t : List α}
    (hx : x ∈ insertOrIgnore same row t) : x = row ∨ x ∈ t := by
  unfold insertOrIgnore at hx
  split at hx
  · exact .inr hx
  · exact List.mem_cons.mp hx

section
variable {β : Type*} {same keep : α → Bool} {change : α → α} {key : α → β}

theorem map_filter_change (hkeep : ∀ a, keep (change a) = keep a)
    (hkey : ∀ a, key (change a) = key a) (t : List α) :
    ((t.map fun a => if same a then change a else a).filter keep).map key =
      (t.filter keep).map key := by
  induction t with
  | nil => rfl
  | cons a t ih =>
    by_cases hsame : same a = true <;> by_cases hkept : keep a = true <;>
      simp [hsame, hkept, hkeep, hkey, ih]

theorem map_filter_upsert_of_not {row : α} {t : List α} (hkeep : ∀ a, keep (change a) = keep a)
    (hkey : ∀ a, key (change a) = key a) (hrow : keep row = false) :
    ((upsert same change row t).filter keep).map key = (t.filter keep).map key := by
  unfold upsert
  split
  · exact map_filter_change hkeep hkey t
  · simp [hrow]

theorem map_filter_upsert [BEq β] [LawfulBEq β] {row : α} {t : List α}
    (hkeep : ∀ a, keep (change a) = keep a) (hkey : ∀ a, key (change a) = key a)
    (hsame : ∀ a, same a = (keep a && key a == key row)) (hrow : keep row = true) :
    ((upsert same change row t).filter keep).map key =
      ((t.filter keep).map key).insert (key row) := by
  have hany : t.any same = true ↔ key row ∈ (t.filter keep).map key := by
    simp only [List.any_eq_true, hsame, List.mem_map, List.mem_filter, Bool.and_eq_true,
      beq_iff_eq, and_assoc]
  unfold upsert
  by_cases hthere : t.any same = true
  · rw [if_pos hthere, List.insert_of_mem (hany.mp hthere), map_filter_change hkeep hkey]
  · rw [if_neg hthere, List.insert_of_not_mem (fun h => hthere (hany.mpr h))]
    simp [hrow]

end

/-- To drop what comes first in some order is to drop as many rows. -/
theorem length_filter_not_mem_take [DecidableEq α] {t t' : List α} (ht : t.Nodup)
    (hp : t'.Perm t) (n : Nat) : (t.filter (· ∉ t'.take n)).length = t.length - n := by
  have hdisjoint : ∀ x ∈ t'.drop n, x ∉ t'.take n := fun x hdrop htake =>
    List.disjoint_take_drop (hp.nodup_iff.mpr ht) (Nat.le_refl n) htake hdrop
  have hkept : t'.filter (· ∉ t'.take n) = t'.drop n := by
    conv_lhs => arg 2; rw [← List.take_append_drop n t']
    rw [List.filter_append, List.filter_eq_nil_iff.mpr (by simp), List.nil_append]
    exact List.filter_eq_self.mpr (by simpa using hdisjoint)
  rw [← (hp.filter _).length_eq, hkept, List.length_drop, hp.length_eq]

end Sqex.Tables
