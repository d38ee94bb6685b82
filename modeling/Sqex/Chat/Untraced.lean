import Sqex.Chat.ForgedTrace
import Sqex.Lib.Columns

/-! Whether a batch leaves a client as it would be without the forged entries of it. -/
namespace Sqex.Chat
open Std

/-- What a poll does with the store beside the fold: it collects keys before it, told whether the
log was read to its end, and again after it; it deals with the forks of the rehomes read; and it
asks where the channel lives, which may cut off a former origin's. -/
structure Polling where
  /-- The newest entry the exchange holds. -/
  newest : UInt64
  collect : Bool → Shelf → Shelf
  later : Shelf → Shelf
  forks : List (UInt64 × PubKey) → Shelf → Shelf
  home : List (UInt64 × PubKey) → Shelf → Shelf

/-- How a batch comes to be folded. -/
inductive Intake where
  | absorb (p : Polling)
  | readFolded
  | importFrom

/-- A batch taken in: the store as its commits were noted, as it was folded, and at the end,
and whether the home is to be asked again. -/
structure Taken where
  noted : Shelf
  folding : Folding
  reask : Bool
  shelf : Shelf

def settled (newest since : UInt64) (entries : List Served) : Bool :=
  newest == 0 || newest ≤ since || entries.any fun i => newest ≤ i.entry.seq

namespace Intake

def noted (C : Crypto) (s : Shelf) (entries : List Served) : Intake → Shelf
  | absorb _ => noteCommits C s entries
  | readFolded | importFrom => s

def readied (C : Crypto) (s : Shelf) (since : UInt64) (entries : List Served) : Intake → Shelf
  | absorb p => p.collect (settled p.newest since entries) (noteCommits C s entries)
  | readFolded | importFrom => s

/-- Whether the cursor is moved to where the batch went. -/
def polls : Intake → Bool
  | absorb _ => true
  | readFolded | importFrom => false

def finish (since : UInt64) (reask : Bool) (f : Folding) : Intake → Shelf
  | absorb p =>
    let s := if f.last > since then f.shelf.setSince f.last else f.shelf
    let s := p.forks f.moved ((p.later s).rememberMeta f.timeline)
    if reask then p.home f.moved s else s
  | readFolded => f.shelf
  | importFrom => f.shelf.rememberMeta f.timeline

end Intake

section
variable (R : Reader) (t : Terms) (way : Intake)

/-- Take in a batch, `asking` where the home is to be asked again already. -/
def takeIn (asking : Bool) (s : Shelf) (timeline : Timeline) (since : UInt64)
    (entries : List Served) : Taken :=
  let f := foldEntries R t (way.readied R.crypto s since entries) timeline since entries
  let reask := asking || f.reask
  ⟨way.noted R.crypto s entries, f, reask, way.finish since reask f⟩

/-- Two batches leave the same store and the same timeline but for the forged marks, and
what is not forged was judged alike. -/
structure Alike (a b : Taken) : Prop where
  noted : a.noted = b.noted
  folded : a.folding.shelf = b.folding.shelf
  shelf : a.shelf = b.shelf
  timeline : a.folding.timeline.unmarked = b.folding.timeline.unmarked
  moved : a.folding.moved = b.folding.moved
  reask : a.reask = b.reask
  judged : (a.folding.judged.filter fun p => !isForged R t p.1) =
    b.folding.judged.filter fun p => !isForged R t p.1
  last : way.polls → a.folding.last = b.folding.last

def firstCommit (C : Crypto) (entries : List Served) (seq : Int64) : Option Commit :=
  entries.findSome? fun i => if i.entry.seq.toInt64 = seq then commitOf C i.entry else none

def Unspent (C : Crypto) (forged : Entry → Bool) (seen spent : Finset Counter) :
    List Served → Prop
  | [] => True
  | i :: is =>
    if countered C i.entry then
      if forged i.entry then Unspent C forged seen (insert (counterOf i.entry) spent) is
      else (counterOf i.entry ∈ spent → counterOf i.entry ∈ seen) ∧
        Unspent C forged (insert (counterOf i.entry) seen) spent is
    else Unspent C forged seen spent is

/-- Whether the receipt of an entry verifies under no key there is. -/
def repudiated (e : Entry) : Bool := standingUnder R.crypto t.sight e none == .repudiated

/-- No forged entry of a batch brings a commit, spends a counter, opens under one of its own,
takes the cursor where nothing else would, or has the home asked again by its receipt. -/
structure Harmless (asking : Bool) (s : Shelf) (since : UInt64) (entries : List Served) : Prop where
  commits : way.polls → ∀ seq, s.commitment[seq]? = none →
    firstCommit R.crypto entries seq = firstCommit R.crypto (honest R t entries) seq
  counters : Unspent R.crypto (isForged R t) (way.readied R.crypto s since entries).seen ∅ entries
  opened :
    let s := way.readied R.crypto s since entries
    ∀ i ∈ passing R.crypto s.seen entries, isForged R t i.entry → spends R t s i.entry →
      counterOf i.entry ∈ s.seen ∨ ∃ h ∈ passing R.crypto s.seen (honest R t entries),
        spends R t s h.entry ∧ counterOf h.entry = counterOf i.entry
  asked :
    let s := way.readied R.crypto s since entries
    ∀ i ∈ passing R.crypto s.seen entries, isForged R t i.entry → repudiated R t i.entry →
      asking = true ∨ ∃ h ∈ passing R.crypto s.seen (honest R t entries), repudiated R t h.entry
  reached : way.polls → ∀ i ∈ entries, isForged R t i.entry →
    i.entry.seq ≤ since ∨ ∃ h ∈ honest R t entries, i.entry.seq ≤ h.entry.seq

end

section
variable {C : Crypto}

theorem noteCommits_commitment (s : Shelf) (entries : List Served) (seq : Int64) :
    (noteCommits C s entries).commitment[seq]? =
      (s.commitment[seq]?).or (firstCommit C entries seq) := by
  induction entries generalizing s with
  | nil => simp [noteCommits, firstCommit]
  | cons i is ih =>
    have hnote : noteCommits C s (i :: is) = noteCommits C (s.noteCommit C i.entry) is := rfl
    rw [hnote, ih, firstCommit, firstCommit, List.findSome?_cons, Shelf.noteCommit]
    cases hcommit : commitOf C i.entry with
    | none => simp
    | some c =>
      simp only [Shelf.putCommit, ExtTreeMap.getElem?_insertIfNew]
      by_cases hseq : i.entry.seq.toInt64 = seq
      · subst hseq
        have hmem := ExtTreeMap.mem_iff_isSome_getElem? (t := s.commitment)
          (a := i.entry.seq.toInt64)
        cases hheld : s.commitment[i.entry.seq.toInt64]? <;> simp_all
      · simp [hseq]

theorem noteCommits_rest (s : Shelf) (entries : List Served) :
    noteCommits C s entries =
      { s with commitment := (noteCommits C s entries).commitment } := by
  induction entries generalizing s with
  | nil => rfl
  | cons i is ih =>
    have hnote : noteCommits C s (i :: is) = noteCommits C (s.noteCommit C i.entry) is := rfl
    rw [hnote, ih, Shelf.noteCommit]
    split <;> rfl

theorem le_foldRun_last {R : Reader} {t : Terms} {f : Folding} (entries : List Served)
    (seq : UInt64) : seq ≤ (foldRun R t f entries).last ↔
      seq ≤ f.last ∨ ∃ i ∈ entries, seq ≤ i.entry.seq := by
  induction entries generalizing f with
  | nil => simp [foldRun]
  | cons i is ih =>
    have hlast : (f.take R t i).last = max f.last i.entry.seq := by
      simp only [Folding.take]
      split
      · rfl
      · rw [Folding.judge_last]
    rw [foldRun_cons, ih, hlast, le_max_uint64_iff, List.exists_mem_cons_iff, or_assoc]

/-- Whether a receipt verifies does not hang on the head it is linked to. -/
theorem standingUnder_repudiated {R : Reader} {t : Terms} {e : Entry} (held : Option Bytes32) :
    (standingUnder R.crypto t.sight e held == .repudiated) = repudiated R t e := by
  have hone : ∀ key, standingFor R.crypto t.sight key e held = .repudiated ↔
      standingFor R.crypto t.sight key e none = .repudiated := by
    intro key
    cases hstamp : e.stamp with
    | none => simp [standingFor, hstamp]
    | some stamp =>
      simp only [standingFor, hstamp]
      cases held with
      | none => rfl
      | some prev =>
        split_ifs with hverified hhash
        · rfl
        · rfl
        · dsimp only
          split <;> simp
  have hall : ∀ (keys : List PubKey) (last last' : Sqex.Standing),
      (last = .repudiated ↔ last' = .repudiated) →
      (standingFrom R.crypto t.sight e held keys last = .repudiated ↔
        standingFrom R.crypto t.sight e none keys last' = .repudiated) := by
    intro keys
    induction keys with
    | nil => exact fun _ _ h => h
    | cons key keys ih =>
      intro last last' _
      simp only [standingFrom, hone key]
      by_cases hfirst : standingFor R.crypto t.sight key e none = .repudiated
      · rw [if_pos hfirst, if_pos hfirst]
        exact ih _ _ (hone key)
      · rw [if_neg hfirst, if_neg hfirst]
        exact hone key
  simp only [repudiated, beq_eq_beq]
  exact hall t.sight.keys .unclaimed .unclaimed Iff.rfl

theorem foldRun_reask {R : Reader} {t : Terms} {f : Folding} (entries : List Served) :
    (foldRun R t f entries).reask = true ↔ f.reask = true ∨
      ∃ i ∈ passing R.crypto f.replay entries, repudiated R t i.entry = true := by
  refine foldRun_rule (P := fun f passed after => after.reask = true ↔ f.reask = true ∨
    ∃ i ∈ passed, repudiated R t i.entry = true) (fun _ => by simp) (fun _ _ _ _ h => h)
    (fun f i is after hskip ih => ?_) f entries
  rw [ih, List.exists_mem_cons_iff, ← or_assoc, Folding.take_through hskip,
    Folding.judge_reask, Bool.or_eq_true, standingUnder_repudiated]
  rfl

theorem settled_iff {R : Reader} {t : Terms} {f : Folding} (newest : UInt64)
    (entries : List Served) : settled newest f.last entries = true ↔
      newest = 0 ∨ newest ≤ (foldRun R t f entries).last := by
  simp [settled, le_foldRun_last, or_assoc]

/-- Whether or not it is let through, a counter that was asked for is one that was seen. -/
theorem passing_cons (replay : Finset Counter) (i : Served) (is : List Served) :
    passing C replay (i :: is) =
      (if countered C i.entry ∧ counterOf i.entry ∈ replay then [] else [i]) ++
        passing C (if countered C i.entry then insert (counterOf i.entry) replay else replay)
          is := by
  rw [passing]
  by_cases hskip : countered C i.entry = true ∧ counterOf i.entry ∈ replay
  · rw [if_pos hskip, if_pos hskip, if_pos hskip.1, Finset.insert_eq_of_mem hskip.2,
      List.nil_append]
  · rw [if_neg hskip, if_neg hskip, List.singleton_append]

theorem not_mem_of_passing {replay : Finset Counter} {entries : List Served} {i : Served}
    (h : i ∈ passing C replay entries) (hcountered : countered C i.entry = true) :
    counterOf i.entry ∉ replay := by
  induction entries generalizing replay with
  | nil => simp [passing] at h
  | cons j is ih =>
    rw [passing_cons] at h
    rcases List.mem_append.mp h with hhere | hlater
    · split at hhere
      · simp at hhere
      · rename_i hthrough
        rw [List.mem_singleton.mp hhere] at hcountered ⊢
        exact fun hmem => hthrough ⟨hcountered, hmem⟩
    · intro hmem
      refine ih hlater ?_
      split
      · exact Finset.mem_insert_of_mem hmem
      · exact hmem

variable {forged : Entry → Bool}

theorem passing_unspent {seen spent : Finset Counter} {entries : List Served}
    (h : Unspent C forged seen spent entries) :
    (passing C (seen ∪ spent) entries).filter (fun i => !forged i.entry) =
      passing C seen (entries.filter fun i => !forged i.entry) := by
  induction entries generalizing seen spent with
  | nil => rfl
  | cons i is ih =>
    rw [Unspent] at h
    rw [passing_cons, List.filter_append]
    by_cases hcountered : countered C i.entry = true
    · simp only [hcountered, if_true, true_and] at h ⊢
      by_cases hforged : forged i.entry = true
      · rw [if_pos hforged] at h
        rw [← Finset.union_insert, ih h, List.filter_cons_of_neg (by simp [hforged])]
        split <;> simp [hforged]
      · rw [if_neg hforged] at h
        rw [← Finset.insert_union, ih h.2, List.filter_cons_of_pos (by simp [hforged]),
          passing_cons]
        simp only [hcountered, if_true, true_and, Finset.mem_union]
        by_cases hseen : counterOf i.entry ∈ seen
        · simp [hseen]
        · have hspent : counterOf i.entry ∉ spent := fun hmem => hseen (h.1 hmem)
          simp [hseen, hspent, hforged]
    · simp only [hcountered, if_false, false_and, Bool.false_eq_true] at h ⊢
      rw [ih h]
      by_cases hforged : forged i.entry = true
      · simp [hforged]
      · have hthrough := passing_cons (C := C) seen i (is.filter fun i => !forged i.entry)
        simp only [hcountered, if_false, false_and, Bool.false_eq_true] at hthrough
        simp [hforged, hthrough]

theorem unspent_of_passing {seen spent : Finset Counter} {entries : List Served}
    (h : ((passing C (seen ∪ spent) entries).filter fun i => !forged i.entry).map Served.entry =
      (passing C seen (entries.filter fun i => !forged i.entry)).map Served.entry) :
    Unspent C forged seen spent entries := by
  induction entries generalizing seen spent with
  | nil => trivial
  | cons i is ih =>
    rw [Unspent]
    rw [passing_cons, List.filter_append] at h
    by_cases hcountered : countered C i.entry = true
    · simp only [hcountered, if_true, true_and] at h ⊢
      by_cases hforged : forged i.entry = true
      · rw [if_pos hforged]
        rw [← Finset.union_insert, List.filter_cons_of_neg (by simp [hforged])] at h
        refine ih ?_
        rw [← h]
        split <;> simp [hforged]
      · rw [if_neg hforged]
        rw [← Finset.insert_union, List.filter_cons_of_pos (by simp [hforged]), passing_cons] at h
        simp only [hcountered, if_true, true_and, Finset.mem_union] at h
        by_cases hseen : counterOf i.entry ∈ seen
        · simp only [hseen, true_or, if_true, List.filter_nil, List.nil_append] at h
          exact ⟨fun _ => hseen, ih h⟩
        · by_cases hspent : counterOf i.entry ∈ spent
          · exfalso
            simp only [hseen, hspent, or_true, if_true, if_false, List.filter_nil, List.nil_append,
              List.singleton_append, List.map_cons] at h
            obtain ⟨j, hj, hsame⟩ := List.mem_map.mp (h ▸ List.mem_cons_self)
            have hout := not_mem_of_passing (List.mem_of_mem_filter hj) (hsame ▸ hcountered)
            rw [hsame] at hout
            exact hout (by simp)
          · simp only [hseen, hspent, or_self, if_false, List.singleton_append] at h
            rw [List.filter_cons_of_pos (by simp [hforged]), List.filter_nil] at h
            simp only [List.singleton_append, List.map_cons, List.cons.injEq, true_and] at h
            exact ⟨fun hmem => absurd hmem hspent, ih h⟩
    · simp only [hcountered, if_false, false_and, Bool.false_eq_true] at h ⊢
      refine ih ?_
      by_cases hforged : forged i.entry = true
      · simpa [hforged] using h
      · have hthrough := passing_cons (C := C) seen i (is.filter fun i => !forged i.entry)
        simp only [hcountered, if_false, false_and, Bool.false_eq_true] at hthrough
        simpa [hforged, hthrough] using h

theorem mem_of_passing {replay : Finset Counter} {entries : List Served} {i : Served}
    (h : i ∈ passing C replay entries) : i ∈ entries := by
  induction entries generalizing replay with
  | nil => simp [passing] at h
  | cons j is ih =>
    rw [passing_cons] at h
    rcases List.mem_append.mp h with hhere | hlater
    · split at hhere
      · simp at hhere
      · rw [List.mem_singleton.mp hhere]
        exact List.mem_cons_self
    · exact List.mem_cons_of_mem _ (ih hlater)

theorem advanceTo_seen (ceiling : UInt32) (fuel : Nat) (chain : Agreement.Chain) (s : Shelf) :
    (advanceTo C ceiling fuel chain s).2.seen = s.seen := by
  induction fuel generalizing chain s with
  | zero => rfl
  | succ fuel ih =>
    rw [advanceTo]
    split
    · split
      · rfl
      · split
        · rfl
        · rw [ih]
          rfl
    · rfl

theorem advanceAgreement_seen (s : Shelf) : (advanceAgreement C s).seen = s.seen := by
  rw [advanceAgreement]
  split
  · rfl
  · exact advanceTo_seen ..

end

section
variable {R : Reader} {t : Terms} {way : Intake} {asking : Bool} {s : Shelf} {timeline : Timeline}
  {since : UInt64} {entries : List Served} {f g : Folding}

theorem noteCommits_honest (h : ∀ seq, s.commitment[seq]? = none →
    firstCommit R.crypto entries seq = firstCommit R.crypto (honest R t entries) seq) :
    noteCommits R.crypto s entries = noteCommits R.crypto s (honest R t entries) := by
  have hcommitment : (noteCommits R.crypto s entries).commitment =
      (noteCommits R.crypto s (honest R t entries)).commitment := by
    apply ExtTreeMap.ext_getElem?
    intro seq
    rw [noteCommits_commitment, noteCommits_commitment]
    cases hheld : s.commitment[seq]? with
    | none => rw [h seq hheld]
    | some c => rfl
  rw [noteCommits_rest, hcommitment, ← noteCommits_rest]

def starting (t : Terms) (s : Shelf) (timeline : Timeline) (since : UInt64) : Folding :=
  .start (if t.sight.inst ≠ 0 ∧ s.incarnation = none then
    { s with incarnation := some ⟨t.sight.inst, false⟩ } else s) timeline since

/-- What is done once a run of entries has ended. -/
def ended (C : Crypto) (f : Folding) : Folding :=
  if f.committed then { f with shelf := advanceAgreement C f.shelf } else f

theorem foldEntries_eq : foldEntries R t s timeline since entries =
    ended R.crypto (foldRun R t (starting t s timeline since) entries) := rfl

theorem ended_judged : (ended R.crypto f).judged = f.judged := by
  rw [ended]
  split <;> rfl

theorem ended_last : (ended R.crypto f).last = f.last := by
  rw [ended]
  split <;> rfl

theorem ended_reask : (ended R.crypto f).reask = f.reask := by
  rw [ended]
  split <;> rfl

theorem ended_seen : (ended R.crypto f).shelf.seen = f.shelf.seen := by
  rw [ended]
  split
  · exact advanceAgreement_seen ..
  · rfl

theorem ended_alike (hbare : f.bare R t = g.bare R t) (hseen : f.shelf.seen = g.shelf.seen) :
    (ended R.crypto f).shelf = (ended R.crypto g).shelf ∧
      (ended R.crypto f).timeline.unmarked = (ended R.crypto g).timeline.unmarked ∧
      (ended R.crypto f).moved = (ended R.crypto g).moved := by
  have hunseen : f.shelf.unseen = g.shelf.unseen := congrArg Folding.shelf hbare
  have hshelf : f.shelf = g.shelf := by
    have hfilled : { f.shelf.unseen with seen := f.shelf.seen } =
        { g.shelf.unseen with seen := g.shelf.seen } := by rw [hunseen, hseen]
    exact hfilled
  have hcommitted : f.committed = g.committed := (congrArg Folding.committed hbare :)
  have htimeline : f.timeline.unmarked = g.timeline.unmarked := congrArg Folding.timeline hbare
  have hmoved : f.moved = g.moved := (congrArg Folding.moved hbare :)
  simp only [ended, hcommitted, hshelf]
  split
  · exact ⟨rfl, htimeline, hmoved⟩
  · exact ⟨hshelf, htimeline, hmoved⟩

theorem honest_passing_honest (seen : Finset Counter) :
    honest R t (passing R.crypto seen (honest R t entries)) =
      passing R.crypto seen (honest R t entries) := by
  refine List.filter_eq_self.mpr fun i hi => ?_
  exact (List.mem_filter.mp (mem_of_passing hi)).2

theorem passing_honest (h : Unspent R.crypto (isForged R t) f.replay ∅ entries) :
    honest R t (passing R.crypto f.replay entries) =
      passing R.crypto f.replay (honest R t entries) := by
  have hpassing := passing_unspent h
  rwa [Finset.union_empty] at hpassing

theorem foldRun_reask_honest (hcounters : Unspent R.crypto (isForged R t) f.replay ∅ entries)
    (asking : Bool) (hasked : ∀ i ∈ passing R.crypto f.replay entries, isForged R t i.entry = true →
      repudiated R t i.entry = true → asking = true ∨
        ∃ h ∈ passing R.crypto f.replay (honest R t entries), repudiated R t h.entry = true) :
    (asking || (foldRun R t f entries).reask) =
      (asking || (foldRun R t f (honest R t entries)).reask) := by
  have hpassing := passing_honest hcounters
  rw [Bool.eq_iff_iff, Bool.or_eq_true, Bool.or_eq_true, foldRun_reask, foldRun_reask]
  constructor
  · rintro (hasking | hbefore | ⟨i, hi, hrepudiated⟩)
    · exact Or.inl hasking
    · exact Or.inr (Or.inl hbefore)
    · by_cases hforged : isForged R t i.entry = true
      · exact (hasked i hi hforged hrepudiated).imp id Or.inr
      · refine Or.inr (Or.inr ⟨i, ?_, hrepudiated⟩)
        rw [← hpassing]
        exact List.mem_filter.mpr ⟨hi, by simpa using hforged⟩
  · rintro (hasking | hbefore | ⟨i, hi, hrepudiated⟩)
    · exact Or.inl hasking
    · exact Or.inr (Or.inl hbefore)
    · rw [← hpassing] at hi
      exact Or.inr (Or.inr ⟨i, List.mem_of_mem_filter hi, hrepudiated⟩)

theorem foldRun_honest
    (hcounters : Unspent R.crypto (isForged R t) f.replay ∅ entries)
    (hopened : ∀ i ∈ passing R.crypto f.replay entries, isForged R t i.entry = true →
      spends R t f.shelf i.entry = true → counterOf i.entry ∈ f.shelf.seen ∨
        ∃ h ∈ passing R.crypto f.replay (honest R t entries),
          spends R t f.shelf h.entry = true ∧ counterOf h.entry = counterOf i.entry) :
    (foldRun R t f entries).bare R t = (foldRun R t f (honest R t entries)).bare R t ∧
      (foldRun R t f entries).shelf.seen = (foldRun R t f (honest R t entries)).shelf.seen := by
  have hpassing := passing_honest hcounters
  constructor
  · rw [foldRun_bare, foldRun_bare, hpassing, honest_passing_honest]
  · ext c
    rw [mem_foldRun_seen, mem_foldRun_seen, ← hpassing]
    refine or_congr_right' fun hc => ⟨fun ⟨i, hi, hspends, hcounter⟩ => ?_,
      fun ⟨i, hi, hspent⟩ => ⟨i, List.mem_of_mem_filter hi, hspent⟩⟩
    by_cases hforged : isForged R t i.entry = true
    · rcases hopened i hi hforged hspends with hseen | ⟨h, hh, hspends', hcounter'⟩
      · exact absurd (hcounter ▸ hseen) hc
      · exact ⟨h, hpassing ▸ hh, hspends', hcounter'.trans hcounter⟩
    · exact ⟨i, List.mem_filter.mpr ⟨hi, by simpa using hforged⟩, hspends, hcounter⟩

theorem starting_same : (starting t s timeline since).replay = s.seen ∧
    (starting t s timeline since).shelf.seen = s.seen ∧
      ∀ e, spends R t (starting t s timeline since).shelf e = spends R t s e := by
  simp only [starting]
  split <;> exact ⟨rfl, rfl, fun _ => rfl⟩

/-- Where two batches go as far, a poll was told alike whether the log was read to its end. -/
theorem readied_of_noted {entries' : List Served} (hf : f.last = since) (hg : g.last = since)
    (h : way.noted R.crypto s entries = way.noted R.crypto s entries')
    (hlast : way.polls → (foldRun R t f entries).last = (foldRun R t g entries').last) :
    way.readied R.crypto s since entries = way.readied R.crypto s since entries' := by
  cases way with
  | absorb p =>
    have hsettled : settled p.newest since entries = settled p.newest since entries' := by
      have hfar := settled_iff (R := R) (t := t) (f := f) p.newest entries
      have hfar' := settled_iff (R := R) (t := t) (f := g) p.newest entries'
      rw [hf] at hfar
      rw [hg] at hfar'
      rw [Bool.eq_iff_iff, hfar, hfar', hlast rfl]
    rw [Intake.readied, Intake.readied, hsettled]
    exact congrArg (p.collect _) h
  | readFolded => rfl
  | importFrom => rfl

theorem finish_alike {reask : Bool} (hshelf : f.shelf = g.shelf)
    (htimeline : f.timeline.unmarked = g.timeline.unmarked) (hmoved : f.moved = g.moved)
    (hlast : way.polls → f.last = g.last) :
    way.finish since reask f = way.finish since reask g := by
  have hremember : ∀ (s : Shelf) (t : Timeline), s.rememberMeta t = s.rememberMeta t.unmarked :=
    fun _ _ => rfl
  cases way with
  | absorb p =>
    simp only [Intake.finish, hlast rfl, hshelf, hmoved]
    rw [hremember, htimeline, ← hremember]
  | readFolded => exact hshelf
  | importFrom => rw [Intake.finish, Intake.finish, hshelf, hremember, htimeline, ← hremember]

theorem foldRun_last_honest (hreached : ∀ i ∈ entries, isForged R t i.entry = true →
    i.entry.seq ≤ f.last ∨ ∃ h ∈ honest R t entries, i.entry.seq ≤ h.entry.seq) :
    (foldRun R t f entries).last = (foldRun R t f (honest R t entries)).last := by
  apply UInt64.le_antisymm
  · rw [le_foldRun_last]
    rcases (le_foldRun_last entries _).mp (UInt64.le_refl (foldRun R t f entries).last) with
      hbefore | ⟨i, hi, hle⟩
    · exact Or.inl hbefore
    · by_cases hforged : isForged R t i.entry = true
      · rcases hreached i hi hforged with hbefore | ⟨h, hh, hle'⟩
        · exact Or.inl (UInt64.le_trans hle hbefore)
        · exact Or.inr ⟨h, hh, UInt64.le_trans hle hle'⟩
      · exact Or.inr ⟨i, List.mem_filter.mpr ⟨hi, by simpa using hforged⟩, hle⟩
  · rw [le_foldRun_last]
    rcases (le_foldRun_last (honest R t entries) _).mp
      (UInt64.le_refl (foldRun R t f (honest R t entries)).last) with hbefore | ⟨i, hi, hle⟩
    · exact Or.inl hbefore
    · exact Or.inr ⟨i, List.mem_of_mem_filter hi, hle⟩

theorem Harmless.alike (h : Harmless R t way asking s since entries) :
    Alike R t way (takeIn R t way asking s timeline since entries)
      (takeIn R t way asking s timeline since (honest R t entries)) := by
  have hnoted : way.noted R.crypto s entries = way.noted R.crypto s (honest R t entries) := by
    cases way with
    | absorb p => exact noteCommits_honest (h.commits rfl)
    | readFolded => rfl
    | importFrom => rfl
  let f := starting t (way.readied R.crypto s since entries) timeline since
  obtain ⟨hreplay, hseen, hspends⟩ := @starting_same R t
    (way.readied R.crypto s since entries) timeline since
  have hcounters : Unspent R.crypto (isForged R t) f.replay ∅ entries := by
    rw [hreplay]
    exact h.counters
  obtain ⟨hbare, hcounted⟩ := foldRun_honest hcounters
    (by simp only [f, hreplay, hseen, hspends]; exact h.opened)
  obtain ⟨hshelf, htimeline, hmoved⟩ := ended_alike hbare hcounted
  have hreask := foldRun_reask_honest hcounters asking
    (by simp only [f, hreplay]; exact h.asked)
  have hlast : way.polls → (foldRun R t f entries).last =
      (foldRun R t f (honest R t entries)).last :=
    fun hpolls => foldRun_last_honest (h.reached hpolls)
  have hreadied : way.readied R.crypto s since entries =
      way.readied R.crypto s since (honest R t entries) :=
    readied_of_noted (f := f) (g := f) rfl rfl hnoted hlast
  have hjudged := congrArg Folding.judged hbare
  simp only [takeIn, foldEntries_eq, ended_reask, ← hreadied]
  exact {
    noted := hnoted
    folded := hshelf
    reask := hreask
    shelf := by
      rw [hreask]
      refine finish_alike hshelf htimeline hmoved fun hpolls => ?_
      rw [ended_last, ended_last, hlast hpolls]
    timeline := htimeline
    moved := hmoved
    judged := by rw [ended_judged, ended_judged]; exact hjudged
    last := fun hpolls => by rw [ended_last, ended_last, hlast hpolls] }

theorem foldRun_taken (entries : List Served) :
    (foldRun R t f entries).judged.map Prod.fst =
      f.judged.map Prod.fst ++ (passing R.crypto f.replay entries).map Served.entry := by
  refine foldRun_rule (P := fun f passed after => after.judged.map Prod.fst =
    f.judged.map Prod.fst ++ passed.map Served.entry) (fun _ => by simp) (fun _ _ _ _ h => h)
    (fun f i is after hskip ih => ?_) f entries
  rw [ih]
  simp only [Folding.take, if_neg hskip, Folding.judge_judged, List.map_append, List.map_cons,
    List.map_nil, List.append_assoc, List.singleton_append]

theorem foldEntries_taken : (foldEntries R t s timeline since entries).judged.map Prod.fst =
    (passing R.crypto s.seen entries).map Served.entry := by
  have hnone : (starting t s timeline since).judged = [] := rfl
  rw [foldEntries_eq, ended_judged, foldRun_taken, hnone, starting_same (R := R).1]
  rfl

theorem mem_foldEntries_seen (c : Counter) :
    c ∈ (foldEntries R t s timeline since entries).shelf.seen ↔ c ∈ s.seen ∨
      ∃ i ∈ passing R.crypto s.seen entries,
        spends R t s i.entry = true ∧ counterOf i.entry = c := by
  obtain ⟨hreplay, hseen, hspends⟩ := @starting_same R t s timeline since
  rw [foldEntries_eq, ended_seen, mem_foldRun_seen, hreplay, hseen]
  simp only [hspends]

theorem taken_honest (j : List (Entry × Verdict)) (is : List Served)
    (h : j.map Prod.fst = is.map Served.entry) :
    (j.filter fun p => !isForged R t p.1).map Prod.fst = (honest R t is).map Served.entry := by
  have hj : (j.filter fun p => !isForged R t p.1).map Prod.fst =
      (j.map Prod.fst).filter fun e => !isForged R t e := by rw [List.filter_map]; rfl
  have hi : (honest R t is).map Served.entry =
      (is.map Served.entry).filter fun e => !isForged R t e := by rw [List.filter_map]; rfl
  rw [hj, hi, h]

theorem Alike.harmless (h : Alike R t way (takeIn R t way asking s timeline since entries)
    (takeIn R t way asking s timeline since (honest R t entries))) :
    Harmless R t way asking s since entries := by
  have hnoted : way.noted R.crypto s entries = way.noted R.crypto s (honest R t entries) := h.noted
  have hlast := h.last
  have hreask := h.reask
  simp only [takeIn, foldEntries_eq, ended_last, ended_reask] at hlast hreask
  have hreadied : way.readied R.crypto s since entries =
      way.readied R.crypto s since (honest R t entries) := readied_of_noted
    (f := starting t (way.readied R.crypto s since entries) timeline since)
    (g := starting t (way.readied R.crypto s since (honest R t entries)) timeline since)
    rfl rfl hnoted hlast
  have hfolded := h.folded
  have hjudged := congrArg (List.map Prod.fst) h.judged
  simp only [takeIn, ← hreadied] at hfolded hjudged
  simp only [← hreadied] at hlast hreask
  rw [taken_honest _ _ foldEntries_taken, taken_honest _ _ foldEntries_taken,
    honest_passing_honest] at hjudged
  obtain ⟨hreplay, -, -⟩ := @starting_same R t (way.readied R.crypto s since entries) timeline since
  exact {
    commits := fun hpolls seq hnone => by
      cases way with
      | absorb p =>
        have hrow := congrArg (fun s : Shelf => s.commitment[seq]?) hnoted
        simp only [Intake.noted, noteCommits_commitment, hnone, Option.none_or] at hrow
        exact hrow
      | readFolded | importFrom => cases hpolls
    counters := unspent_of_passing (by rwa [Finset.union_empty])
    opened := fun i hi _ hspends => by
      have hcounter := (@mem_foldEntries_seen R t (way.readied R.crypto s since entries) timeline
        since entries (counterOf i.entry)).mpr (Or.inr ⟨i, hi, hspends, rfl⟩)
      rw [hfolded, mem_foldEntries_seen] at hcounter
      exact hcounter
    asked := fun i hi _ hrepudiated => by
      have hreasked := foldRun_reask entries (R := R) (t := t)
        (f := starting t (way.readied R.crypto s since entries) timeline since)
      rw [hreplay] at hreasked
      have hthere := hreasked.mpr (Or.inr ⟨i, hi, hrepudiated⟩)
      rw [hthere, Bool.or_true, eq_comm, Bool.or_eq_true, foldRun_reask, hreplay] at hreask
      exact hreask.imp id fun h => h.resolve_left Bool.false_ne_true
    reached := fun hpolls i hi _ => by
      have hle := (le_foldRun_last (R := R) (t := t)
        (f := starting t (way.readied R.crypto s since entries) timeline since) entries
        i.entry.seq).mpr (Or.inr ⟨i, hi, UInt64.le_refl _⟩)
      rw [hlast hpolls, le_foldRun_last] at hle
      exact hle }

end

/-- However a batch comes to be folded, it is taken in as it would be without its forged entries
exactly when those are harmless. -/
theorem forged_untraced (R : Reader) (t : Terms) (way : Intake) (asking : Bool) (s : Shelf)
    (timeline : Timeline) (since : UInt64) (entries : List Served) :
    Alike R t way (takeIn R t way asking s timeline since entries)
        (takeIn R t way asking s timeline since (honest R t entries)) ↔
      Harmless R t way asking s since entries :=
  ⟨Alike.harmless, Harmless.alike⟩

/-- A copy of an entry without its signature, served before it: the entry is passed over. -/
theorem forged_traced : ¬∀ (R : Reader) (t : Terms) (way : Intake) (asking : Bool) (s : Shelf)
    (timeline : Timeline) (since : UInt64) (entries : List Served),
    Alike R t way (takeIn R t way asking s timeline since entries)
      (takeIn R t way asking s timeline since (honest R t entries)) := by
  intro h
  let post : Entry := {
    seq := 2, kind := kindMember, account := 4, device := 4, posted := 9, expiresAfter := 0,
    epoch := 0, msgSeq := 1, chainSeq := 0, prev := genesis, bodyHash := 0, sig := 0,
    stamp := none, body := [5] }
  let real : Entry :=
    { post with sig := Crypto.toy.sign 3 ((post.terms ⟨9, 1, 2⟩).input Crypto.toy) }
  let copy : Entry := { post with seq := 1 }
  let poll : Polling := ⟨2, fun _ => id, id, fun _ => id, fun _ => id⟩
  have halike := (h ⟨Crypto.toy, fun _ => none⟩ ⟨⟨[9], 2, 1⟩, fun _ => none, [], false⟩
    (.absorb poll) false .empty .new 0 [⟨10, copy⟩, ⟨10, real⟩]).judged
  revert halike
  decide +kernel

end Sqex.Chat
