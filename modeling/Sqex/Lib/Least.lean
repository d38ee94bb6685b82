import Mathlib.Order.Bounds.Basic
import Mathlib.Order.MinMax
import Sqex.Lib.Runs

/-! Keeping the least of what is offered, one offer at a time. What is kept depends on
what was offered, and neither on the order nor on how often. -/
namespace Sqex.Least
open Runs
variable {α : Type*} [LinearOrder α]

def keep (held : Option α) (a : α) : Option α := some (held.elim a (min · a))

theorem keep_of_le {x a : α} (h : x ≤ a) : keep (some x) a = some x :=
  congrArg some (min_eq_left h)

theorem keep_of_lt {x a : α} (h : a < x) : keep (some x) a = some a :=
  congrArg some (min_eq_right h.le)

theorem run_keep_some (offers : List α) (x : α) :
    ∃ y, run keep (some x) offers = some y ∧ IsLeast {a | a = x ∨ a ∈ offers} y := by
  induction offers generalizing x with
  | nil => exact ⟨x, rfl, by simp [IsLeast, lowerBounds]⟩
  | cons a offers ih =>
    obtain ⟨y, hrun, hmem, hlow⟩ := ih (min x a)
    refine ⟨y, hrun, ?_, ?_⟩
    · cases hmem with
      | inl hfirst =>
        cases min_choice x a with
        | inl hx => exact .inl (hfirst.trans hx)
        | inr ha => exact .inr (by simp [hfirst, ha])
      | inr hlater => exact .inr (List.mem_cons_of_mem a hlater)
    · have hmin : y ≤ min x a := hlow (.inl rfl)
      intro b hb
      cases hb with
      | inl hx => exact hx ▸ hmin.trans (min_le_left x a)
      | inr hb =>
        cases List.mem_cons.mp hb with
        | inl ha => exact ha ▸ hmin.trans (min_le_right x a)
        | inr hlater => exact hlow (.inr hlater)

theorem run_keep {offers : List α} (h : offers ≠ []) :
    ∃ y, run keep none offers = some y ∧ IsLeast {a | a ∈ offers} y := by
  cases offers with
  | nil => exact absurd rfl h
  | cons a offers =>
    obtain ⟨y, hrun, hleast⟩ := run_keep_some offers a
    refine ⟨y, hrun, ?_⟩
    simpa using hleast

end Sqex.Least
