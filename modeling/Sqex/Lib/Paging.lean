import Mathlib.Data.List.Induction
import Mathlib.Data.List.Sort

/-! Reading a list by pages: each page is the first of what lies above a cursor, and the next
one starts from the last key of the one before. -/
namespace Sqex.Paging
variable {α κ : Type*} {key : α → κ} {rows page rest : List α} {c : κ} {x : α}

def next (key : α → κ) (c : κ) (page : List α) : κ := (page.getLast?.map key).getD c

@[simp] theorem next_nil : next key c [] = c := rfl

@[simp] theorem next_concat : next key c (page ++ [x]) = key x := by
  simp [next]

variable [LinearOrder κ]

def above (key : α → κ) (rows : List α) (c : κ) : List α := rows.filter fun x => c < key x

@[simp] theorem mem_above : x ∈ above key rows c ↔ x ∈ rows ∧ c < key x := by
  simp [above]

/-- What lies above a higher cursor lies there of what lies above a lower one. -/
theorem above_above {c' : κ} (h : c ≤ c') :
    above key (above key rows c) c' = above key rows c' := by
  rw [above, above, above, List.filter_filter]
  refine List.filter_congr fun x _ => ?_
  have hlt : c' < key x → c < key x := h.trans_lt
  simpa using hlt

theorem le_next (h : ∀ x ∈ page, c < key x) : c ≤ next key c page := by
  induction page using List.reverseRecOn with
  | nil => exact le_refl c
  | append_singleton page x _ =>
    rw [next_concat]
    exact (h x (by simp)).le

theorem le_next_of_mem (hsorted : (page ++ rest).Pairwise fun x y => key x ≤ key y)
    (hx : x ∈ page) : key x ≤ next key c page := by
  induction page using List.reverseRecOn with
  | nil => simp at hx
  | append_singleton page y _ =>
    rw [next_concat]
    cases List.mem_append.mp hx with
    | inl hbefore =>
      have hpage := (List.pairwise_append.mp hsorted).1
      exact (List.pairwise_append.mp hpage).2.2 x hbefore y (by simp)
    | inr hlast => rw [List.mem_singleton.mp hlast]

theorem next_le_of_mem (hsorted : (page ++ rest).Pairwise fun x y => key x ≤ key y)
    (hpage : page ≠ []) (hx : x ∈ rest) : next key c page ≤ key x := by
  induction page using List.reverseRecOn with
  | nil => exact absurd rfl hpage
  | append_singleton page y _ =>
    rw [next_concat]
    exact (List.pairwise_append.mp hsorted).2.2 y (by simp) x hx

theorem above_next (hsorted : rows.Pairwise fun x y => key x ≤ key y)
    (hsplit : above key rows c = page ++ rest) (hcut : ∀ x ∈ rest, next key c page ≠ key x) :
    above key rows (next key c page) = rest := by
  have hfrom : ∀ x ∈ page ++ rest, c < key x := fun x hx => (mem_above.mp (hsplit ▸ hx)).2
  have hle : c ≤ next key c page := le_next fun x hx => hfrom x (by simp [hx])
  have hboth : (page ++ rest).Pairwise fun x y => key x ≤ key y :=
    hsplit ▸ hsorted.sublist List.filter_sublist
  rw [← above_above hle, hsplit, above, List.filter_append]
  have hnone : page.filter (fun x => next key c page < key x) = [] :=
    List.filter_eq_nil_iff.mpr fun x hx => by simpa using le_next_of_mem hboth hx
  have hall : rest.filter (fun x => next key c page < key x) = rest := by
    refine List.filter_eq_self.mpr fun x hx => ?_
    by_cases hpage : page = []
    · simpa [hpage] using hfrom x (by simp [hx])
    · simpa using lt_of_le_of_ne (next_le_of_mem hboth hpage hx) (hcut x hx)
  rw [hnone, hall, List.nil_append]

theorem above_next_of_lt (hsorted : rows.Pairwise fun x y => key x < key y)
    (hsplit : above key rows c = page ++ rest) : above key rows (next key c page) = rest := by
  refine above_next (hsorted.imp le_of_lt) hsplit fun x hx heq => ?_
  have hboth : (page ++ rest).Pairwise fun x y => key x < key y :=
    hsplit ▸ hsorted.sublist List.filter_sublist
  have hfrom : c < key x := (mem_above.mp (hsplit ▸ List.mem_append_right page hx)).2
  cases page using List.reverseRecOn with
  | nil => exact hfrom.ne heq
  | append_singleton page y =>
    rw [next_concat] at heq
    exact ((List.pairwise_append.mp hboth).2.2 y (by simp) x hx).ne heq

end Sqex.Paging
