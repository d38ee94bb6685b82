import Mathlib.Data.List.Perm.Subperm
import Mathlib.Data.List.Induction
import Mathlib.Data.List.Nodup
import Std.Data.ExtTreeMap
import Std.Data.ExtTreeSet

/-! Maps and sets, and the order an unordered one is walked in. A hash map's or
a hash set's order is not fixed by its contents, so a function that walks one
takes the order as an argument and may rely only on its being a permutation. -/
namespace Sqex
open Std

structure IterOrder (α : Type*) where
  walk : List α → List α
  perm : ∀ xs, (walk xs).Perm xs

namespace IterOrder
variable {α β : Type*}

def asListed : IterOrder α := ⟨id, fun _ => List.Perm.rfl⟩

instance : Inhabited (IterOrder α) := ⟨asListed⟩

@[simp] theorem mem_walk (o : IterOrder α) {a : α} {xs : List α} :
    a ∈ o.walk xs ↔ a ∈ xs := (o.perm xs).mem_iff

variable {cmp : α → α → Ordering} [TransCmp cmp] [LawfulEqCmp cmp] [BEq α] [LawfulBEq α]

omit [LawfulEqCmp cmp] [BEq α] [LawfulBEq α] in
theorem distinct_walk_toList (o : IterOrder (α × β)) (m : ExtTreeMap α β cmp) :
    (o.walk m.toList).Pairwise fun a b => ¬ cmp a.1 b.1 = .eq := by
  refine (o.perm m.toList).symm.pairwise m.distinct_keys_toList ?_
  intro a b h heq
  exact h (OrientedCmp.eq_symm heq)

@[simp] theorem ofList_walk_toList (o : IterOrder (α × β)) (m : ExtTreeMap α β cmp) :
    ExtTreeMap.ofList (o.walk m.toList) cmp = m := by
  have distinct := o.distinct_walk_toList m
  refine ExtTreeMap.ext_getElem? fun k => ?_
  cases hk : m[k]? with
  | some v =>
    have hmem : (k, v) ∈ o.walk m.toList := by
      simpa [ExtTreeMap.mem_toList_iff_getElem?_eq_some] using hk
    exact ExtTreeMap.getElem?_ofList_of_mem ReflCmp.compare_self distinct hmem
  | none =>
    refine ExtTreeMap.getElem?_ofList_of_contains_eq_false ?_
    simp [ExtTreeMap.mem_toList_iff_getElem?_eq_some, hk]

@[simp] theorem ofList_walk_set (o : IterOrder α) (s : ExtTreeSet α cmp) :
    ExtTreeSet.ofList (o.walk s.toList) cmp = s := by
  refine ExtTreeSet.ext_mem fun a => ?_
  simp [ExtTreeSet.mem_ofList]

end IterOrder

section Lookup
variable {α β : Type*} {cmp : α → α → Ordering} [TransCmp cmp] [LawfulEqCmp cmp]

theorem lookup_insert [DecidableEq α] (m : ExtTreeMap α β cmp) (k a : α) (v : β) :
    (m.insert k v)[a]? = if k = a then some v else m[a]? := by
  simp [ExtTreeMap.getElem?_insert, LawfulEqCmp.compare_eq_iff_eq]

theorem lookup_erase [DecidableEq α] (m : ExtTreeMap α β cmp) (k a : α) :
    (m.erase k)[a]? = if k = a then none else m[a]? := by
  simp [ExtTreeMap.getElem?_erase, LawfulEqCmp.compare_eq_iff_eq]

theorem lookup_filter_key (m : ExtTreeMap α β cmp) (p : α → Bool) (k : α) :
    (m.filter fun a _ => p a)[k]? = if p k then m[k]? else none := by
  rw [ExtTreeMap.getElem?_filter']
  cases m[k]? <;> cases p k <;> simp

theorem insert_of_lookup {m : ExtTreeMap α β cmp} {k : α} {v : β} (h : m[k]? = some v) :
    m.insert k v = m := by
  refine ExtTreeMap.ext_getElem? fun a => ?_
  rw [ExtTreeMap.getElem?_insert]
  by_cases ha : cmp k a = .eq
  · obtain rfl := LawfulEqCmp.eq_of_compare ha
    rw [if_pos ha, h]
  · rw [if_neg ha]

theorem insertIfNew_of_mem {m : ExtTreeMap α β cmp} {k : α} (h : k ∈ m) (v : β) :
    m.insertIfNew k v = m := by
  refine ExtTreeMap.ext_getElem? fun a => ?_
  rw [ExtTreeMap.getElem?_insertIfNew, if_neg fun hnew => hnew.2 h]

end Lookup

theorem size_le_of_forall_mem {α β : Type*} {cmp : α → α → Ordering} [TransCmp cmp]
    [LawfulEqCmp cmp] {s : ExtTreeSet α cmp} {m : ExtTreeMap α β cmp}
    (h : ∀ a ∈ s, a ∈ m) : s.size ≤ m.size := by
  have hnodup : s.toList.Nodup := by
    refine s.distinct_toList.imp fun {a b} hab heq => hab ?_
    rw [heq]
    exact ReflCmp.compare_self
  have hsub : s.toList ⊆ m.keys := by
    intro a ha
    simpa using h a (by simpa using ha)
  calc s.size = s.toList.length := ExtTreeSet.length_toList.symm
    _ ≤ m.keys.length := (List.subperm_of_subset hnodup hsub).length_le
    _ = m.size := ExtTreeMap.length_keys

theorem size_le_of_forall_lt {β : Type*} {m : ExtTreeMap Nat β} {n : Nat}
    (h : ∀ t ∈ m, t < n) : m.size ≤ n := by
  have hsub : m.keys ⊆ List.range n := by
    intro t ht
    simpa using h t (by simpa using ht)
  calc m.size = m.keys.length := ExtTreeMap.length_keys.symm
    _ ≤ (List.range n).length := (List.subperm_of_subset m.nodup_keys hsub).length_le
    _ = n := List.length_range

/-- Of a strictly descending list, the element at `i` lies above `p` exactly when more than
`i` of the elements do. -/
theorem lt_getElem?_iff_of_descending {xs : List Nat} (hxs : xs.Pairwise (· > ·))
    {i x p : Nat} (hx : xs[i]? = some x) :
    p < x ↔ i < (xs.filter (p < ·)).length := by
  induction xs generalizing i with
  | nil => simp at hx
  | cons y ys ih =>
    obtain ⟨hy, hys⟩ := List.pairwise_cons.mp hxs
    by_cases hp : p < y
    · cases i with
      | zero =>
        obtain rfl : y = x := by simpa using hx
        simp [hp]
      | succ i =>
        have hrest := ih hys (by simpa using hx)
        simp [hp, hrest]
    · have hnone : (y :: ys).filter (p < ·) = [] := by
        refine List.filter_eq_nil_iff.mpr fun z hz => ?_
        rcases List.mem_cons.mp hz with rfl | hz
        · simpa using hp
        · have := hy z hz
          simp
          omega
      have hle : x ≤ y := by
        rcases List.mem_cons.mp (List.mem_of_getElem? hx) with rfl | hmem
        · exact Nat.le_refl _
        · exact Nat.le_of_lt (hy x hmem)
      simp [hnone]
      omega

theorem lt_reverse_keys_iff {β : Type*} {m : ExtTreeMap Nat β} {i t p : Nat}
    (ht : m.keys.reverse[i]? = some t) :
    p < t ↔ i < (m.filter fun k _ => p < k).size := by
  have hordered : m.keys.Pairwise (· < ·) := by
    simpa [Nat.compare_eq_lt] using m.ordered_keys
  have hkeys : (m.filter fun k _ => p < k).size = (m.keys.reverse.filter (p < ·)).length := by
    rw [← ExtTreeMap.length_keys, ExtTreeMap.keys_filter_key, List.filter_reverse,
      List.length_reverse]
  rw [hkeys]
  exact lt_getElem?_iff_of_descending (List.pairwise_reverse.mpr hordered) ht

/-- What holds at every place of a list with one element more: at every place of the list,
and at its end. -/
theorem forall_split_concat {α : Type*} {P : List α → α → Prop} {xs : List α} {x : α} :
    (∀ before y rest, xs ++ [x] = before ++ y :: rest → P before y) ↔
      (∀ before y rest, xs = before ++ y :: rest → P before y) ∧ P xs x := by
  constructor
  · intro h
    refine ⟨fun before y rest hsplit => ?_, h xs x [] rfl⟩
    exact h before y (rest ++ [x]) (by simp [hsplit])
  · rintro ⟨hxs, hx⟩ before y rest hsplit
    cases rest using List.reverseRec with
    | nil =>
      obtain ⟨rfl, htail⟩ := List.append_inj' hsplit rfl
      obtain rfl : x = y := by simpa using htail
      exact hx
    | append_singleton rest last _ =>
      have hsplit' : xs ++ [x] = (before ++ y :: rest) ++ [last] := by simpa using hsplit
      exact hxs before y rest (List.append_inj_left' hsplit' rfl)

end Sqex
