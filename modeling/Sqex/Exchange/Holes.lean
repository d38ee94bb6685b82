import Sqex.Exchange.ReplicaCommit
import Sqex.Exchange.Cursors

/-! Holes: what a copy refused is asked for again, from below what it holds, for so many
pulls. -/
namespace Sqex.Exchange
open Std Runs

def maxPull : Nat := 256
def maxPullBytes : Nat := 1024 * 1024
def holeTries : Nat := 30

/-- The position a channel is pulled from, and how many pulls refused something there. -/
structure Hole where
  since : UInt64
  tries : Nat
  deriving DecidableEq

abbrev Holes := ExtTreeMap Bytes32 Hole

def positionBefore (seq : UInt64) : UInt64 := if seq = 0 then 0 else seq - 1

/-- The hole a pull of its channel leaves: one it filled goes, and one that will not fill is
given up on. -/
def noteHole (hole : Option Hole) (t : Took) : Option Hole :=
  match (t.refused.map (·.1)).min? with
  | some lowest =>
    let e := hole.getD ⟨positionBefore lowest, 0⟩
    if e.tries + 1 ≥ holeTries then none else some ⟨min e.since (positionBefore lowest), e.tries + 1⟩
  | none => if 0 < t.stored then none else hole

def noteHoles (holes : Holes) (took : ExtTreeMap Bytes32 Took) : Holes :=
  took.toList.foldl (fun holes p => holes.alter p.1 fun hole => noteHole hole p.2) holes

/-- The position before the first entry missing between two held. -/
def Rows.lowestGap (r : Rows) : Option UInt64 :=
  let seqs := r.entry.toList.map Prod.fst
  (seqs.find? fun seq => decide (seq < seqs.getLast?.getD 0) && !seqs.contains (seq + 1)).map
    (·.toUInt64)

def seedHoles (store : Channels) (holes : Holes) (channels : List Bytes32) : Holes :=
  channels.foldl (fun holes c =>
    match (store.rows c).lowestGap with
    | some seq => holes.insert c ⟨seq, 0⟩
    | none => holes) holes

/-- The holes a replica finds in what it already holds, when it starts. -/
def holesIn (store : Channels) (channels : List Bytes32) : Holes := seedHoles store ∅ channels

def sinceOf (store : Channels) (holes : Holes) (channel : Bytes32) : UInt64 :=
  match holes[channel]? with
  | some hole => min (store.rows channel).highest hole.since
  | none => (store.rows channel).highest

/-- How a map of holes comes to be: found in what is held, more of it found later, and pulls
noted in it. -/
inductive Seeded : Holes → Prop where
  | found (store : Channels) (channels : List Bytes32) : Seeded (holesIn store channels)
  | none : Seeded ∅
  | more (holes : Holes) (store : Channels) (channels : List Bytes32) : Seeded holes →
    Seeded (seedHoles store holes channels)
  | noted (holes : Holes) (took : ExtTreeMap Bytes32 Took) : Seeded holes →
    Seeded (noteHoles holes took)

def resultsOf (channel : Bytes32) (pulls : List (ExtTreeMap Bytes32 Took)) : List Took :=
  pulls.filterMap (·[channel]?)

def Took.refuses (t : Took) : Bool := !t.refused.isEmpty

def Took.fills (t : Took) : Bool := t.refused.isEmpty && decide (0 < t.stored)

/-! One channel of the map is one hole. -/

theorem foldl_alter {β γ : Type} (f : Option β → γ → Option β) (l : List (Bytes32 × γ))
    (hdistinct : l.Pairwise fun a b => ¬ compare a.1 b.1 = .eq) (m : ExtTreeMap Bytes32 β)
    (k : Bytes32) : (l.foldl (fun m p => m.alter p.1 fun v => f v p.2) m)[k]? =
      match l.find? (compare ·.1 k == .eq) with
      | some p => f m[k]? p.2
      | none => m[k]? := by
  induction l generalizing m with
  | nil => rfl
  | cons p l ih =>
    have hp := List.pairwise_cons.mp hdistinct
    rw [List.foldl_cons, ih hp.2, ExtTreeMap.getElem?_alter]
    by_cases hk : compare p.1 k = .eq
    · have hnone : l.find? (compare ·.1 k == .eq) = none := by
        refine List.find?_eq_none.mpr fun q hq heq => hp.1 q hq ?_
        exact TransCmp.eq_trans hk (OrientedCmp.eq_symm (eq_of_beq heq))
      rw [List.find?_cons_of_pos (by simp [hk]), hnone, if_pos hk,
        LawfulEqCmp.eq_of_compare hk]
    · rw [List.find?_cons_of_neg (by simp [hk]), if_neg hk]

theorem noteHoles_lookup (holes : Holes) (took : ExtTreeMap Bytes32 Took) (channel : Bytes32) :
    (noteHoles holes took)[channel]? = match took[channel]? with
      | some t => noteHole holes[channel]? t
      | none => holes[channel]? := by
  rw [noteHoles, foldl_alter noteHole took.toList took.distinct_keys_toList]
  cases ht : took[channel]? with
  | some t =>
    have hkey : took.getKey? channel = some channel :=
      ExtTreeMap.getKey?_eq_some (ExtTreeMap.mem_iff_isSome_getElem?.mpr (by simp [ht]))
    rw [ExtTreeMap.find?_toList_eq_some_iff_getKey?_eq_some_and_getElem?_eq_some.mpr ⟨hkey, ht⟩]
  | none =>
    rw [ExtTreeMap.find?_toList_eq_none_iff_not_mem.mpr fun hmem => by
      simp [ExtTreeMap.mem_iff_isSome_getElem?, ht] at hmem]

theorem run_noteHoles (holes : Holes) (pulls : List (ExtTreeMap Bytes32 Took))
    (channel : Bytes32) : (run noteHoles holes pulls)[channel]? =
      run noteHole holes[channel]? (resultsOf channel pulls) := by
  induction pulls generalizing holes with
  | nil => rfl
  | cons took pulls ih =>
    rw [run_cons, ih, noteHoles_lookup]
    cases ht : took[channel]? with
    | some t | none => simp [resultsOf, ht]

def Closes (hole : Hole) (results : List Took) : Prop :=
  ∃ j, run noteHole (some hole) (results.take j) = none

theorem min?_refused_eq_none {t : Took} :
    (t.refused.map (·.1)).min? = none ↔ t.refuses = false := by
  simp [Took.refuses]

theorem noteHole_idle {t : Took} (hrefuses : t.refuses = false) (hfills : t.fills = false)
    (hole : Option Hole) : noteHole hole t = hole := by
  have hstored : ¬ 0 < t.stored := by
    intro hpos
    have hempty : t.refused.isEmpty = true := by simpa [Took.refuses] using hrefuses
    simp [Took.fills, hempty, hpos] at hfills
  rw [noteHole, min?_refused_eq_none.mpr hrefuses]
  simp [hstored]

theorem noteHole_fills {t : Took} (hfills : t.fills = true) (hole : Option Hole) :
    noteHole hole t = none := by
  simp only [Took.fills, Bool.and_eq_true, decide_eq_true_eq] at hfills
  rw [noteHole, min?_refused_eq_none.mpr (by simp [Took.refuses, hfills.1])]
  simp [hfills.2]

theorem noteHole_refuses {t : Took} (hrefuses : t.refuses = true) (hole : Hole) :
    noteHole (some hole) t = none ∧ holeTries ≤ hole.tries + 1 ∨
      ∃ since, noteHole (some hole) t = some ⟨since, hole.tries + 1⟩ ∧
        hole.tries + 1 < holeTries := by
  cases hmin : (t.refused.map (·.1)).min? with
  | none => simp [min?_refused_eq_none.mp hmin] at hrefuses
  | some lowest =>
    by_cases htries : hole.tries + 1 ≥ holeTries
    · exact .inl ⟨by simp [noteHole, hmin, htries], htries⟩
    · exact .inr ⟨_, by simp [noteHole, hmin, htries]; rfl, by omega⟩

theorem closes_cons {hole : Hole} {t : Took} {results : List Took} :
    Closes hole (t :: results) ↔ match noteHole (some hole) t with
      | some hole' => Closes hole' results
      | none => True := by
  constructor
  · rintro ⟨j, hj⟩
    cases j with
    | zero => simp at hj
    | succ j =>
      rw [List.take_succ_cons, run_cons] at hj
      cases hnote : noteHole (some hole) t with
      | none => trivial
      | some hole' => exact ⟨j, hnote ▸ hj⟩
  · intro h
    cases hnote : noteHole (some hole) t with
    | none => exact ⟨1, by simp [hnote]⟩
    | some hole' =>
      rw [hnote] at h
      obtain ⟨j, hj⟩ := h
      exact ⟨j + 1, by rw [List.take_succ_cons, run_cons, hnote, hj]⟩

theorem closes_iff {hole : Hole} (htries : hole.tries < holeTries) (results : List Took) :
    Closes hole results ↔
      (∃ t ∈ results, t.fills = true) ∨
        holeTries ≤ hole.tries + results.countP Took.refuses := by
  induction results generalizing hole with
  | nil =>
    simp [Closes]
    omega
  | cons t results ih =>
    rw [closes_cons]
    cases hfills : t.fills with
    | true => simp [noteHole_fills hfills, hfills]
    | false =>
      cases hrefuses : t.refuses with
      | false =>
        simp only [noteHole_idle hrefuses hfills, ih htries, List.mem_cons, exists_eq_or_imp,
          hfills, Bool.false_eq_true, false_or, List.countP_cons, hrefuses, if_false, add_zero]
      | true =>
        have hcount : hole.tries + (t :: results).countP Took.refuses =
            hole.tries + 1 + results.countP Took.refuses := by
          simp [hrefuses]
          omega
        have hhead : (∃ t' ∈ t :: results, t'.fills = true) ↔ ∃ t' ∈ results, t'.fills = true := by
          simp [hfills]
        rw [hcount, hhead]
        cases noteHole_refuses hrefuses hole with
        | inl hgone =>
          rw [hgone.1]
          exact ⟨fun _ => .inr (by omega), fun _ => trivial⟩
        | inr hopen =>
          obtain ⟨since, hnote, hlt⟩ := hopen
          rw [hnote]
          exact ih hlt

end Sqex.Exchange
