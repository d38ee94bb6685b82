import Sqex.Chat.Fold

/-! What a forged entry leaves behind, in a batch taken in by a poll, from a folded log or from
a sibling. -/
namespace Sqex

def Timeline.unmarked (t : Timeline) : Timeline := { t with forged := [] }

namespace Timeline
variable (t : Timeline) (e : Received) (admins : List PubKey)

theorem applyBody_unmarked (body : Body) :
    t.unmarked.applyBody e admins body = (t.applyBody e admins body).unmarked := by
  cases body with
  | post post => rfl
  | edit target post =>
    simp only [applyBody, applyEdit, unmarked]
    grind
  | redact target =>
    simp only [applyBody, applyRedact, unmarked]
    grind
  | reaction target add emoji =>
    simp only [applyBody, applyReaction, unmarked]
    grind
  | metadata name topic avatar =>
    simp only [applyBody, applyMetadata, unmarked]
    grind
  | call media ringSecs secret => rfl
  | callEnd target outcome duration =>
    simp only [applyBody, applyCallEnd, unmarked]
    grind

theorem applyHeld_unmarked :
    t.unmarked.applyHeld e admins = (t.applyHeld e admins).unmarked := by
  simp only [applyHeld]
  split
  · split <;> rfl
  · split
    · rfl
    · split
      · exact applyBody_unmarked ..
      · split <;> rfl

/-- An entry is folded alike whatever marks there are, and a forged one leaves only its mark. -/
theorem apply_unmarked (h : e.verdict ≠ .forged) :
    t.unmarked.apply e admins = (t.apply e admins).unmarked := by
  have hmarked : t.unmarked.marked e = (t.marked e).unmarked := by
    simp only [marked]
    split <;> rfl
  rw [apply, if_neg h, apply, if_neg h, hmarked, applyHeld_unmarked]

theorem apply_forged (h : e.verdict = .forged) : (t.apply e admins).unmarked = t.unmarked := by
  rw [apply, if_pos h]
  rfl

end Timeline

namespace Chat
open Std

/-! Keeping an entry records no counter and no key. -/

@[simp] theorem Shelf.redactMessage_seen (s : Shelf) (seq : UInt64) :
    (s.redactMessage seq).seen = s.seen := by
  simp only [redactMessage]
  split <;> rfl

@[simp] theorem Shelf.redactMessage_channelKey (s : Shelf) (seq : UInt64) :
    (s.redactMessage seq).channelKey = s.channelKey := by
  simp only [redactMessage]
  split <;> rfl

theorem Shelf.keep_same (C : Crypto) (s : Shelf) (keepSigned : Bool) (e : Entry)
    (plain : Option Bytes) :
    (s.keep C keepSigned e plain).seen = s.seen ∧
      (s.keep C keepSigned e plain).channelKey = s.channelKey := by
  simp only [keep]
  cases commitOf C e <;> split_ifs <;>
    simp [putEntry, putMessage, noteTimer, putCommit]

theorem Shelf.honour_same (s : Shelf) (t : Timeline) (body : Option Body) :
    (s.honour t body).seen = s.seen ∧ (s.honour t body).channelKey = s.channelKey := by
  simp only [honour]
  split
  · split_ifs <;> simp
  · simp

def Shelf.unseen (s : Shelf) : Shelf := { s with seen := ∅ }

namespace Shelf
variable (C : Crypto) (s : Shelf)

theorem redactMessage_unseen (seq : UInt64) :
    s.unseen.redactMessage seq = (s.redactMessage seq).unseen := by
  simp only [redactMessage, unseen]
  split <;> rfl

theorem keep_unseen (keepSigned : Bool) (e : Entry) (plain : Option Bytes) :
    s.unseen.keep C keepSigned e plain = (s.keep C keepSigned e plain).unseen := by
  have hentry : s.unseen.putEntry e = (s.putEntry e).unseen := rfl
  have hmessage : ∀ (s : Shelf) seq row,
      s.unseen.putMessage seq row = (s.putMessage seq row).unseen := fun _ _ _ => rfl
  have htimer : ∀ (s : Shelf) seq until_,
      s.unseen.noteTimer seq until_ = (s.noteTimer seq until_).unseen := fun _ _ _ => rfl
  have hcommit : ∀ (s : Shelf) seq c,
      s.unseen.putCommit seq c = (s.putCommit seq c).unseen := fun _ _ _ => rfl
  simp only [keep, hentry, ← apply_ite unseen, hmessage, htimer, redactMessage_unseen]
  cases commitOf C e with
  | none => rfl
  | some c => exact hcommit _ _ _

theorem honour_unseen (t : Timeline) (body : Option Body) :
    s.unseen.honour t.unmarked body = (s.honour t body).unseen := by
  have hmessages : t.unmarked.messages = t.messages := rfl
  simp only [honour, hmessages]
  split
  · rw [redactMessage_unseen, ← apply_ite unseen]
  · rfl

end Shelf

section
variable (R : Reader) (t : Terms)

/-- Whether an entry is one nobody signed for, or another account's device did. -/
def isForged (e : Entry) : Bool :=
  (verdictFor R.crypto t.sight t.bound e fun _ => none).1 == .forged

def honest (entries : List Served) : List Served :=
  entries.filter fun i => !isForged R t i.entry

/-- Whether taking an entry up opens it, and records its counter as seen. -/
def spends (s : Shelf) (e : Entry) : Bool :=
  (plainOf R.crypto t.sight.channel s e).isSome && e.kind == kindMember

/-- A batch half taken in, but for the counters, what is said of forged entries, how far it
went and what the receipts linked. -/
def Folding.bare (f : Folding) : Folding :=
  { f with
    shelf := f.shelf.unseen, timeline := f.timeline.unmarked, replay := ∅, lastHead := none,
    last := 0, reask := false, judged := f.judged.filter fun p => !isForged R t p.1 }

variable {R t} {f : Folding} {i : Served} {e : Entry} {ch : Chains}

/-- Whether an entry is forged does not hang on where the chains stand, and moves none. -/
theorem verdictFor_forged : (verdictFor R.crypto t.sight t.bound e ch).1 = .forged ↔
    isForged R t e = true := by
  simp only [isForged, beq_iff_eq, verdictFor]
  split
  · rfl
  · split
    · rfl
    · split
      · rfl
      · exact iff_of_false (chained_ne_forged _) (chained_ne_forged _)

theorem chains_forged (h : isForged R t e = true) :
    (verdictFor R.crypto t.sight t.bound e ch).2 = ch := by
  have hforged : (verdictFor R.crypto t.sight t.bound e ch).1 = .forged := verdictFor_forged.mpr h
  simp only [verdictFor] at hforged ⊢
  split
  · rfl
  · rename_i hkind
    rw [if_neg hkind] at hforged
    split
    · rfl
    · rename_i place hplace
      split
      · rfl
      · rename_i hown
        simp only [hplace, hown] at hforged
        exact absurd hforged (chained_ne_forged place)

/-! What taking an entry up does but for the counters. -/

theorem Folding.keep_bare {g : Folding} (h : f.bare R t = g.bare R t) (plain : Option Bytes)
    (verdict : Verdict) (hverdict : verdict ≠ .forged) (standing standing' : Sqex.Standing) :
    (f.keep R t e plain verdict standing).bare R t =
      (g.keep R t e plain verdict standing').bare R t := by
  have hkept : ∀ (f : Folding) standing,
      (f.keep R t e plain verdict standing).bare R t =
        ((f.bare R t).keep R t e plain verdict .unclaimed).bare R t := by
    intro f standing
    have htimeline : f.timeline.unmarked.apply (receivedOf R e plain verdict .unclaimed) t.admins =
        (f.timeline.apply (receivedOf R e plain verdict standing) t.admins).unmarked :=
      Timeline.apply_unmarked f.timeline (receivedOf R e plain verdict .unclaimed) t.admins hverdict
    simp only [keep, bare, Shelf.keep_unseen, htimeline, Shelf.honour_unseen, List.filter_filter,
      Bool.and_self]
    rfl
  rw [hkept, h, ← hkept]

theorem recordSeen_unseen (s : Shelf) (p : Prop) [Decidable p] (c : Counter) :
    (if p then s.recordSeen c else s).unseen = s.unseen := by
  split <;> rfl

theorem Folding.judge_forged (h : isForged R t e = true) (now : UInt64) (plain : Option Bytes) :
    (f.judge R t now e plain).bare R t = f.bare R t := by
  have hverdict : (verdictFor R.crypto t.sight t.bound e f.chains).1 = .forged :=
    verdictFor_forged.mpr h
  simp only [judge, if_pos hverdict, bare, recordSeen_unseen, chains_forged h]
  rw [Timeline.apply_forged _ _ _ rfl]
  simp [h]

theorem Folding.judge_bare {g : Folding} (h : ¬isForged R t e = true)
    (hbare : f.bare R t = g.bare R t) (now : UInt64) (plain : Option Bytes) :
    (f.judge R t now e plain).bare R t = (g.judge R t now e plain).bare R t := by
  have hchains : g.chains = f.chains := (congrArg Folding.chains hbare).symm
  have hverdict : (verdictFor R.crypto t.sight t.bound e f.chains).1 ≠ .forged :=
    fun hforged => h (verdictFor_forged.mp hforged)
  simp only [judge, hchains, if_neg hverdict]
  simp only [bare] at hbare
  split
  · simp only [bare, recordSeen_unseen]
    simp_all
  · refine keep_bare ?_ plain _ hverdict _ _
    simp only [bare, recordSeen_unseen]
    simp_all

theorem Folding.judge_seen (now : UInt64) (plain : Option Bytes) :
    (f.judge R t now e plain).shelf.seen =
      if plain.isSome ∧ e.kind = kindMember then insert (counterOf e) f.shelf.seen
      else f.shelf.seen := by
  simp only [judge]
  split_ifs <;>
    simp_all [keep, (Shelf.honour_same _ _ _).1, (Shelf.keep_same _ _ _ _ _).1, Shelf.recordSeen]

theorem Folding.judge_channelKey (now : UInt64) (plain : Option Bytes) :
    (f.judge R t now e plain).shelf.channelKey = f.shelf.channelKey := by
  simp only [judge]
  split_ifs <;>
    simp [keep, (Shelf.honour_same _ _ _).2, (Shelf.keep_same _ _ _ _ _).2, Shelf.recordSeen]

end

/-! What a run does but for the counters, and the counters it records. -/

section
variable (R : Reader) (t : Terms)

def bareRun (f : Folding) (entries : List Served) : Folding :=
  entries.foldl (fun f i => (f.take R t i).bare R t) f

/-- An entry let through, as it comes to be judged. -/
def Folding.counted (C : Crypto) (f : Folding) (i : Served) : Folding :=
  { f with
    last := max f.last i.entry.seq
    replay := if countered C i.entry then insert (counterOf i.entry) f.replay else f.replay }

variable {R t} {f : Folding} {i : Served}

theorem Folding.take_through
    (h : ¬(countered R.crypto i.entry = true ∧ counterOf i.entry ∈ f.replay)) :
    f.take R t i = (f.counted R.crypto i).judge R t i.now i.entry
      (plainOf R.crypto t.sight.channel f.shelf i.entry) := by
  simp only [take, if_neg h]
  rfl

theorem Folding.take_bare (hforged : ¬isForged R t i.entry = true)
    (h : ¬(countered R.crypto i.entry = true ∧ counterOf i.entry ∈ f.replay)) :
    (f.take R t i).bare R t = ((f.bare R t).take R t i).bare R t := by
  have hthrough : ¬(countered R.crypto i.entry = true ∧
      counterOf i.entry ∈ (f.bare R t).replay) := by
    simp [bare]
  have hbare : (f.counted R.crypto i).bare R t = ((f.bare R t).counted R.crypto i).bare R t := by
    simp only [bare, counted, List.filter_filter, Bool.and_self]
    rfl
  rw [take_through h, take_through hthrough]
  exact judge_bare hforged hbare _ _

theorem foldRun_bare (entries : List Served) :
    (foldRun R t f entries).bare R t =
      bareRun R t (f.bare R t) (honest R t (passing R.crypto f.replay entries)) := by
  refine foldRun_rule (P := fun f passed after =>
    after.bare R t = bareRun R t (f.bare R t) (honest R t passed)) (fun _ => rfl)
    (fun _ _ _ _ h => h) (fun f i is after hskip ih => ?_) f entries
  rw [ih]
  by_cases hforged : isForged R t i.entry = true
  · rw [honest, honest, List.filter_cons_of_neg (by simp [hforged]),
      Folding.take_through hskip, Folding.judge_forged hforged]
    rfl
  · rw [honest, honest, List.filter_cons_of_pos (by simp [hforged]),
      Folding.take_bare hforged hskip]
    rfl

theorem mem_foldRun_seen (entries : List Served) (c : Counter) :
    c ∈ (foldRun R t f entries).shelf.seen ↔ c ∈ f.shelf.seen ∨
      ∃ i ∈ passing R.crypto f.replay entries,
        spends R t f.shelf i.entry = true ∧ counterOf i.entry = c := by
  refine foldRun_rule (P := fun f passed after => c ∈ after.shelf.seen ↔ c ∈ f.shelf.seen ∨
    ∃ i ∈ passed, spends R t f.shelf i.entry = true ∧ counterOf i.entry = c) (fun _ => by simp)
    (fun _ _ _ _ h => h) (fun f i is after hskip ih => ?_) f entries
  have hspends : ∀ e, spends R t (f.take R t i).shelf e = spends R t f.shelf e := by
    intro e
    rw [Folding.take_through hskip]
    simp only [spends, plainOf, Folding.judge_channelKey]
    rfl
  have hseen : c ∈ (f.take R t i).shelf.seen ↔
      c ∈ f.shelf.seen ∨ (spends R t f.shelf i.entry = true ∧ counterOf i.entry = c) := by
    rw [Folding.take_through hskip, Folding.judge_seen]
    simp only [spends, Bool.and_eq_true, beq_iff_eq]
    split_ifs with hopened
    · rw [Finset.mem_insert, eq_comm, or_comm]
      simp [hopened, Folding.counted]
    · simp [hopened, Folding.counted]
  rw [ih, hseen, List.exists_mem_cons_iff, or_assoc]
  simp only [hspends]

end

end Chat
end Sqex
