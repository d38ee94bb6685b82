import Mathlib.Data.List.Basic

/-! So many at most in any stretch of time, kept to by a log that lets go of what is past. -/
namespace Sqex.Windows
variable {width most now later : Nat} {ts : List Nat}

/-- The times that still count. -/
def recent (width now : Nat) (ts : List Nat) : List Nat := ts.filter fun x => now - x < width

/-- No stretch holds more of the times than it may. -/
def Few (width most : Nat) (ts : List Nat) : Prop :=
  ∀ t, ts.countP (fun x => t ≤ x ∧ x < t + width) ≤ most

theorem few_nil : Few width most [] := fun _ => by simp

/-- What counts later counts now. -/
theorem recent_recent (h : now ≤ later) (ts : List Nat) :
    recent width later (recent width now ts) = recent width later ts := by
  rw [recent, recent, List.filter_filter, recent]
  refine List.filter_congr fun x _ => ?_
  simp only [Bool.and_eq_left_iff_imp, decide_eq_true_eq]
  omega

/-- One more, while fewer than the most still count. -/
theorem Few.concat (h : Few width most ts) (hpast : ∀ x ∈ ts, x ≤ now)
    (hroom : (recent width now ts).length < most) : Few width most (ts ++ [now]) := by
  intro t
  rw [List.countP_append, List.countP_singleton]
  split_ifs with hin
  · simp only [decide_eq_true_eq] at hin
    have hle : ts.countP (fun x => t ≤ x ∧ x < t + width) ≤ (recent width now ts).length := by
      rw [recent, ← List.countP_eq_length_filter]
      refine List.countP_mono_left fun x hx hxin => ?_
      simp only [decide_eq_true_eq] at hxin ⊢
      have hnow := hpast x hx
      omega
    omega
  · exact h t

end Sqex.Windows
