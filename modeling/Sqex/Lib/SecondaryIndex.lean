import Mathlib.Logic.Function.Basic
import Mathlib.Tactic.SplitIfs

/-! A table of records and an index over it: under each key the records carry, the place of
the one record that carries it. Tables and indexes are read as functions, so that any map
can be one. -/
namespace Sqex

structure Indexes {κ ρ ι : Type*} (table : κ → Option ρ) (key : ρ → Option ι)
    (index : ι → Option κ) : Prop where
  named : ∀ k r i, table k = some r → key r = some i → index i = some k
  live : ∀ i k, index i = some k → ∃ r, table k = some r ∧ key r = some i

def fileUnder {κ ι : Type*} [DecidableEq ι] (index : ι → Option κ) (i : Option ι) (k : κ) :
    ι → Option κ :=
  match i with
  | some i => Function.update index i (some k)
  | none => index

def strikeOut {κ ι : Type*} [DecidableEq ι] (index : ι → Option κ) (i : Option ι) :
    ι → Option κ :=
  match i with
  | some i => Function.update index i none
  | none => index

namespace Indexes
variable {κ ρ ι : Type*} [DecidableEq κ] [DecidableEq ι] {table : κ → Option ρ}
  {key : ρ → Option ι} {index : ι → Option κ}

omit [DecidableEq κ] [DecidableEq ι] in
theorem empty : Indexes (fun _ : κ => (none : Option ρ)) key (fun _ => none) :=
  ⟨fun _ _ _ h => by simp at h, fun _ _ h => by simp at h⟩

omit [DecidableEq κ] [DecidableEq ι] in
theorem unique (hindexes : Indexes table key index) {k k' : κ} {r r' : ρ} {i : ι}
    (hr : table k = some r) (hr' : table k' = some r') (hi : key r = some i)
    (hi' : key r' = some i) : k = k' := by
  have hk := hindexes.named k r i hr hi
  have hk' := hindexes.named k' r' i hr' hi'
  exact Option.some.inj (hk.symm.trans hk')

omit [DecidableEq κ] in
theorem fileUnder_apply (i : Option ι) (k : κ) (j : ι) :
    fileUnder index i k j = if i = some j then some k else index j := by
  cases i with
  | none => simp [fileUnder]
  | some i => simp [fileUnder, Function.update_apply, eq_comm]

omit [DecidableEq κ] in
theorem strikeOut_apply (i : Option ι) (j : ι) :
    strikeOut index i j = if i = some j then none else index j := by
  cases i with
  | none => simp [strikeOut]
  | some i => simp [strikeOut, Function.update_apply, eq_comm]

/-- A record put at a place and filed under its key keeps the index exactly when it takes
from no record its key, and from no key its record. -/
theorem put_iff (hindexes : Indexes table key index) (k : κ) (r : ρ) :
    Indexes (Function.update table k (some r)) key (fileUnder index (key r) k) ↔
      (∀ old, table k = some old → key old = none ∨ key old = key r) ∧
        ∀ i k', key r = some i → index i = some k' → k' = k := by
  constructor
  · intro hafter
    refine ⟨fun old hold => ?_, fun i k' hi hk' => ?_⟩
    · cases hj : key old with
      | none => exact .inl rfl
      | some j =>
        refine .inr (by_contra fun hne => ?_)
        have hfiled := hindexes.named k old j hold hj
        have hstill : fileUnder index (key r) k j = some k := by
          rw [fileUnder_apply, hfiled, ite_self]
        obtain ⟨r', hr', hkey⟩ := hafter.live j k hstill
        rw [Function.update_self] at hr'
        obtain rfl := Option.some.inj hr'
        exact hne hkey.symm
    · by_contra hne
      obtain ⟨r', hr', hkey⟩ := hindexes.live i k' hk'
      have hold : Function.update table k (some r) k' = some r' := by
        rw [Function.update_of_ne hne, hr']
      have hfiled := hafter.named k' r' i hold hkey
      rw [fileUnder_apply, if_pos hi] at hfiled
      exact hne (Option.some.inj hfiled).symm
  · rintro ⟨hfree, hmine⟩
    refine ⟨fun k' r' i hr' hi => ?_, fun i k' hk' => ?_⟩
    · rw [fileUnder_apply]
      by_cases hk : k' = k
      · obtain rfl := hk
        rw [Function.update_self] at hr'
        obtain rfl := Option.some.inj hr'
        rw [if_pos hi]
      · rw [Function.update_of_ne hk] at hr'
        have hfiled := hindexes.named k' r' i hr' hi
        rw [if_neg fun hkey => hk (hmine i k' hkey hfiled)]
        exact hfiled
    · rw [fileUnder_apply] at hk'
      by_cases hkey : key r = some i
      · rw [if_pos hkey] at hk'
        obtain rfl := Option.some.inj hk'
        exact ⟨r, Function.update_self .., hkey⟩
      · rw [if_neg hkey] at hk'
        obtain ⟨r', hr', hi⟩ := hindexes.live i k' hk'
        by_cases hk : k' = k
        · obtain rfl := hk
          rcases hfree r' hr' with hnone | hsame
          · rw [hnone] at hi
            cases hi
          · exact absurd (hsame.symm.trans hi) hkey
        · exact ⟨r', by rw [Function.update_of_ne hk, hr'], hi⟩

theorem change (hindexes : Indexes table key index) {k : κ} {old r : ρ}
    (hold : table k = some old) (hkey : key r = key old) :
    Indexes (Function.update table k (some r)) key index := by
  have hsame : fileUnder index (key r) k = index := by
    funext i
    rw [fileUnder_apply]
    split_ifs with hi
    · exact (hindexes.named k old i hold (hkey.symm.trans hi)).symm
    · rfl
  have hput := (hindexes.put_iff k r).mpr ⟨fun old' hold' => ?_, fun i k' hi hk' => ?_⟩
  · rwa [hsame] at hput
  · obtain rfl := Option.some.inj (hold.symm.trans hold')
    exact .inr hkey.symm
  · exact Option.some.inj (hk'.symm.trans (hindexes.named k old i hold (hkey.symm.trans hi)))

theorem drop (hindexes : Indexes table key index) {k : κ} {r : ρ} (hr : table k = some r) :
    Indexes (Function.update table k none) key (strikeOut index (key r)) := by
  refine ⟨fun k' r' i hr' hi => ?_, fun i k' hk' => ?_⟩
  · by_cases hk : k' = k
    · rw [hk, Function.update_self] at hr'
      cases hr'
    · rw [Function.update_of_ne hk] at hr'
      rw [strikeOut_apply, if_neg fun hkey => hk (hindexes.unique hr' hr hi hkey)]
      exact hindexes.named k' r' i hr' hi
  · rw [strikeOut_apply] at hk'
    split_ifs at hk' with hkey
    obtain ⟨r', hr', hi⟩ := hindexes.live i k' hk'
    have hk : k' ≠ k := by
      rintro rfl
      obtain rfl := Option.some.inj (hr.symm.trans hr')
      exact hkey hi
    exact ⟨r', by rw [Function.update_of_ne hk, hr'], hi⟩

end Indexes
end Sqex
