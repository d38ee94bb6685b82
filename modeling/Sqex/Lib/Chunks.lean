import Mathlib.Data.List.Basic

/-! A list cut into runs of one length, the last one short. -/
namespace Sqex.Chunks
variable {α : Type*} {n : Nat} {l c : List α}

def chunkAt (n : Nat) (l : List α) (i : Nat) : List α := (l.drop (i * n)).take n

def chunks (n : Nat) (l : List α) : List (List α) :=
  (List.range ((l.length + n - 1) / n)).map (chunkAt n l)

theorem length_chunks : (chunks n l).length = (l.length + n - 1) / n := by
  simp [chunks]

theorem take_mul (n k : Nat) (l : List α) :
    ((List.range k).map (chunkAt n l)).flatten = l.take (k * n) := by
  induction k with
  | zero => simp
  | succ k ih =>
    rw [List.range_succ, List.map_append, List.flatten_append, ih, Nat.succ_mul, List.take_add]
    simp [chunkAt]

theorem flatten_chunks (hn : 0 < n) : (chunks n l).flatten = l := by
  rw [chunks, take_mul]
  refine List.take_of_length_le ?_
  have hlt := Nat.lt_div_mul_add hn (a := l.length + n - 1)
  omega

theorem length_chunks_le (hn : 0 < n) {m : Nat} :
    (chunks n l).length ≤ m ↔ l.length ≤ m * n := by
  rw [length_chunks, Nat.div_le_iff_le_mul_add_pred hn, Nat.mul_comm]
  omega

theorem length_chunks_pos (hn : 0 < n) (hl : l ≠ []) : 0 < (chunks n l).length := by
  have hlength := List.length_pos_iff.mpr hl
  rw [length_chunks]
  exact Nat.div_pos (by omega) hn

theorem length_le (hc : c ∈ chunks n l) : c.length ≤ n ∧ c.length ≤ l.length := by
  obtain ⟨i, -, rfl⟩ := List.mem_map.mp hc
  simp only [chunkAt, List.length_take, List.length_drop]
  omega

theorem forall_length_le (hn : 0 < n) (hl : l ≠ []) {m : Nat} :
    (∀ c ∈ chunks n l, c.length ≤ m) ↔ n ≤ m ∨ l.length ≤ m := by
  constructor
  · intro hall
    have hpos := length_chunks_pos hn hl
    rw [length_chunks] at hpos
    have hfirst := hall _ (List.mem_map.mpr ⟨0, List.mem_range.mpr hpos, rfl⟩)
    simp only [chunkAt, Nat.zero_mul, List.drop_zero, List.length_take] at hfirst
    omega
  · intro hm c hc
    have hle := length_le hc
    omega

end Sqex.Chunks
