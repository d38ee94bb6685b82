import Mathlib.Data.BitVec

/-! What an unsigned 64-bit number is in a database's signed integer column, and what is read
back; and arithmetic on such numbers that stops at the ends of their range. -/
namespace Sqex

theorem column_toInt {n : UInt64} (h : n.toNat < 2 ^ 63) : n.toInt64.toInt = n.toNat := by
  have hcond : n.toInt64.toInt = n.toBitVec.toInt := rfl
  have hnat : n.toBitVec.toNat = n.toNat := rfl
  rw [hcond, BitVec.toInt_eq_toNat_cond, hnat]
  omega

theorem column_neg {n : UInt64} (h : 2 ^ 63 ≤ n.toNat) : n.toInt64.toInt < 0 := by
  have hcond : n.toInt64.toInt = n.toBitVec.toInt := rfl
  have hnat : n.toBitVec.toNat = n.toNat := rfl
  have hlt := n.toNat_lt
  rw [hcond, BitVec.toInt_eq_toNat_cond, hnat]
  omega

theorem column_toNat {c : Int64} (h : 0 ≤ c.toInt) : (c.toUInt64.toNat : Int) = c.toInt := by
  have hcond : c.toInt = c.toUInt64.toBitVec.toInt := rfl
  have hnat : c.toUInt64.toBitVec.toNat = c.toUInt64.toNat := rfl
  have hlt := c.toUInt64.toNat_lt
  rw [hcond, BitVec.toInt_eq_toNat_cond, hnat] at h ⊢
  omega

theorem toUInt64_toInt64 (n : UInt64) : n.toInt64.toUInt64 = n := rfl

theorem toInt64_inj {n m : UInt64} : n.toInt64 = m.toInt64 ↔ n = m := by
  constructor
  · intro h
    rw [← toUInt64_toInt64 n, h, toUInt64_toInt64]
  · intro h
    rw [h]

/-- A number above a column's is above what is read back of it, on one side of 2^63. -/
theorem toUInt64_le_of_lt {c : Int64} {n : UInt64} (h : c < n.toInt64)
    (hside : 2 ^ 63 ≤ c.toUInt64.toNat → 2 ^ 63 ≤ n.toNat) : c.toUInt64 ≤ n := by
  have hlt := Int64.lt_iff_toInt_lt.mp h
  have hcolumn : c.toInt = c.toUInt64.toBitVec.toInt := rfl
  have hnumber : n.toInt64.toInt = n.toBitVec.toInt := rfl
  have hc : c.toUInt64.toBitVec.toNat = c.toUInt64.toNat := rfl
  have hn : n.toBitVec.toNat = n.toNat := rfl
  have hc_lt := c.toUInt64.toNat_lt
  have hn_lt := n.toNat_lt
  rw [hcolumn, hnumber, BitVec.toInt_eq_toNat_cond, BitVec.toInt_eq_toNat_cond, hc, hn] at hlt
  rw [UInt64.le_iff_toNat_le]
  split_ifs at hlt <;> omega

theorem column_lt (c : Int64) : c.toInt < 2 ^ 63 := c.toInt_lt

theorem lt_column_succ {n : UInt64} {c : Int64} (hn : n.toNat < 2 ^ 63) (h : n.toInt64 ≤ c) :
    n < c.toUInt64 + 1 := by
  have hle := Int64.le_iff_toInt_le.mp h
  rw [column_toInt hn] at hle
  have hnat := column_toNat (c := c) (by omega)
  have hc := column_lt c
  rw [UInt64.lt_iff_toNat_lt, UInt64.toNat_add]
  have hone : (1 : UInt64).toNat = 1 := rfl
  omega

theorem max_uint64 (a b : UInt64) : max a b = if a ≤ b then b else a := rfl

theorem le_max_uint64 (a b : UInt64) : a ≤ max a b ∧ b ≤ max a b := by
  rw [max_uint64]
  split
  · rename_i hle
    exact ⟨hle, UInt64.le_refl _⟩
  · rename_i hgt
    exact ⟨UInt64.le_refl _, UInt64.le_of_lt (UInt64.not_le.mp hgt)⟩

theorem le_max_uint64_iff {a b c : UInt64} : c ≤ max a b ↔ c ≤ a ∨ c ≤ b := by
  rw [max_uint64]
  split <;> grind

end Sqex

namespace Sqex.Saturating

def add (a b : UInt64) : UInt64 := if a.toNat + b.toNat < 2 ^ 64 then a + b else 0 - 1

def sub (a b : UInt64) : UInt64 := if a < b then 0 else a - b

def mul (a b : UInt64) : UInt64 := if a.toNat * b.toNat < 2 ^ 64 then a * b else 0 - 1

theorem toNat_add (a b : UInt64) : (add a b).toNat = min (a.toNat + b.toNat) (2 ^ 64 - 1) := by
  unfold add
  split
  · rw [UInt64.toNat_add]
    omega
  · have hmax : (0 - 1 : UInt64).toNat = 2 ^ 64 - 1 := rfl
    omega

theorem toNat_sub (a b : UInt64) : (sub a b).toNat = a.toNat - b.toNat := by
  unfold sub
  split
  · have hlt := UInt64.lt_iff_toNat_lt.mp ‹_›
    have hzero : (0 : UInt64).toNat = 0 := rfl
    omega
  · have hle := UInt64.le_iff_toNat_le.mp (UInt64.not_lt.mp ‹_›)
    exact UInt64.toNat_sub_of_le _ _ (UInt64.le_iff_toNat_le.mpr hle)

theorem toNat_mul (a b : UInt64) : (mul a b).toNat = min (a.toNat * b.toNat) (2 ^ 64 - 1) := by
  unfold mul
  split
  · rw [UInt64.toNat_mul]
    omega
  · have hmax : (0 - 1 : UInt64).toNat = 2 ^ 64 - 1 := rfl
    omega

end Sqex.Saturating
