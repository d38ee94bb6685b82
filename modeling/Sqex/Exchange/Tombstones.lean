import Sqex.Exchange.OriginOps
import Sqex.Lib.Columns
import Sqex.Lib.Runs

/-! Redactions, from an origin to a copy. The copy asks for what was redacted since a mark, is told
at most 256 positions, newest first, and moves its mark to the origin's clock whatever it was told.
-/
namespace Sqex.Exchange
open Std Runs
variable {now target : UInt64} {caller : PubKey} {targets : List UInt64}

def maxTombstones : Nat := 256

/-- When each position was redacted, as the columns hold it. -/
abbrev Stones := ExtTreeMap Int64 Int64

/-- What is redacted later comes first, and of one time the higher position. -/
def newer (a b : Int64 × Int64) : Prop := b.2 < a.2 ∨ b.2 = a.2 ∧ b.1 ≤ a.1

instance : DecidableRel newer := fun a b =>
  inferInstanceAs (Decidable (b.2 < a.2 ∨ b.2 = a.2 ∧ b.1 ≤ a.1))

def Stones.since (t : Stones) (time : UInt64) : List (Int64 × Int64) :=
  (t.toList.filter fun s => decide (time.toInt64 ≤ s.2)).insertionSort newer

/-- The positions redacted at or after a time, as many as fit an answer. -/
def tombstonesSince (t : Stones) (time : UInt64) : List (UInt64 × UInt64) :=
  ((t.since time).take maxTombstones).map fun s => (s.1.toUInt64, s.2.toUInt64)

structure Tombstones where
  now : UInt64
  redacted : List (UInt64 × UInt64)

def Tombstones.Names (t : Tombstones) (seq : Int64) : Prop :=
  ∃ s ∈ t.redacted, s.1.toInt64 = seq

def askedFrom (mark : UInt64) : UInt64 := mark - min mark 5

theorem askedFrom_zero : (askedFrom 0).toInt64 = 0 := rfl

namespace Rows

/-- A redaction pulled from the origin: the body goes, where one is held. -/
def applyTombstone (r : Rows) (seq : UInt64) : Rows :=
  match r.entry[seq.toInt64]? with
  | some row =>
    if row.body.length > 0 then { r with entry := r.entry.insert seq.toInt64 row.redacted } else r
  | none => r

def applyTombstones (r : Rows) (t : Tombstones) : Rows :=
  t.redacted.foldl (fun r s => r.applyTombstone s.1) r

end Rows

structure Copying where
  origin : Rows
  tombstone : Stones
  copy : Rows
  /-- The origin's clock at the copy's last look. -/
  mark : UInt64
  served : List (Entry × Receipted)
  asked : List UInt64
  answers : List (Tombstones × Nat)
  redactions : Nat
  /-- How many of them the answers applied so far could know of; nothing reads it. -/
  pulled : Nat

namespace Copying

inductive Act where
  | redact (caller : PubKey) (target now : UInt64)
  /-- Anything else the origin does to the channel. -/
  | other (rows : Rows)
  | serve (seq : UInt64)
  | arrive (n : Nat)
  | expire (now : UInt64)
  | look
  | answer (n : Nat) (now : UInt64)
  | apply (n : Nat)
  | loseRequest (n : Nat)
  | loseAnswer (n : Nat)
  /-- The copy starts again: its mark was in memory. -/
  | restart

def start (origin copy : Rows) : Copying :=
  ⟨origin, ∅, copy, 0, [], [], [], 0, 0⟩

def redact (s : Copying) (caller : PubKey) (target now : UInt64) : Copying :=
  match s.origin.redact caller target with
  | .ok origin => { s with
      origin
      tombstone := s.tombstone.insert target.toInt64 now.toInt64
      redactions := s.redactions + 1 }
  | .error _ => s

def serve (s : Copying) (seq : UInt64) : Copying :=
  match s.origin.entry[seq.toInt64]? with
  | some row => { s with served := (row.entry seq, row.stamp) :: s.served }
  | none => s

def arrive (C : Crypto) (here : Host) (s : Copying) (n : Nat) : Copying :=
  match s.served[n]? with
  | some (e, stamp) => { s with copy := (s.copy.storePulled C here.exchange e stamp).1 }
  | none => s

def answer (s : Copying) (n : Nat) (now : UInt64) : Copying :=
  match s.asked[n]? with
  | some since => { s with
      asked := s.asked.eraseIdx n
      answers := (⟨now, tombstonesSince s.tombstone since⟩, s.redactions) :: s.answers }
  | none => s

/-- The copy applies an answer, and moves its mark to the clock in it. -/
def apply (s : Copying) (n : Nat) : Copying :=
  match s.answers[n]? with
  | some (t, count) => { s with
      copy := s.copy.applyTombstones t
      mark := t.now
      answers := s.answers.eraseIdx n
      pulled := max s.pulled count }
  | none => s

def step (C : Crypto) (here : Host) (s : Copying) : Act → Copying
  | .redact caller target now => s.redact caller target now
  | .other rows => { s with origin := rows }
  | .serve seq => s.serve seq
  | .arrive n => s.arrive C here n
  | .expire now => { s with copy := s.copy.prune here now }
  | .look => { s with asked := askedFrom s.mark :: s.asked }
  | .answer n now => s.answer n now
  | .apply n => s.apply n
  | .loseRequest n => { s with asked := s.asked.eraseIdx n }
  | .loseAnswer n => { s with answers := s.answers.eraseIdx n }
  | .restart => { s with mark := 0, served := [], asked := [], answers := [] }

variable {C : Crypto} {here : Host} {s : Copying} {seq time : Int64}

/-- A position the origin redacted of which the copy still holds the body. -/
def Uncleared (s : Copying) (seq time : Int64) : Prop :=
  s.tombstone[seq]? = some time ∧ ∃ row, s.copy.entry[seq]? = some row ∧ row.body ≠ []

/-- Once a pull has completed after the last redaction, no such position is left. -/
def Cleared (s : Copying) : Prop :=
  s.pulled = s.redactions → ∀ seq time, ¬ s.Uncleared seq time

def SameButBodies (log log' : ExtTreeMap Int64 EntryRow) : Prop :=
  ∀ seq : Int64, log'[seq]?.map EntryRow.redacted = log[seq]?.map EntryRow.redacted

def BodiesOnly (s : Copying) : Act → Prop
  | .redact caller target now =>
    SameButBodies s.origin.entry (s.redact caller target now).origin.entry ∧
      (s.redact caller target now).copy = s.copy
  | .apply n =>
    SameButBodies s.copy.entry (s.apply n).copy.entry ∧ (s.apply n).origin = s.origin
  | _ => True

/-- A redaction still to be told: its time is not before any a look asks from, and every
answer on its way names it or knows nothing of it. -/
structure Due (s : Copying) (seq time : Int64) : Prop where
  marked : (askedFrom s.mark).toInt64 ≤ time
  asked : ∀ since ∈ s.asked, since.toInt64 ≤ time
  answered : ∀ a ∈ s.answers, a.1.Names seq ∨
    (askedFrom a.1.now).toInt64 ≤ time ∧ a.2 < s.redactions
  unseen : s.pulled < s.redactions
  afterStart : 0 ≤ time

structure Current (s : Copying) (time : Int64) : Prop where
  marked : (askedFrom s.mark).toInt64 ≤ time
  asked : ∀ since ∈ s.asked, since.toInt64 ≤ time
  answered : ∀ a ∈ s.answers, (askedFrom a.1.now).toInt64 ≤ time
  afterStart : 0 ≤ time

/-- Where nothing goes wrong: the clock redactions are stamped by is not set back past what
it gave out, the cap cuts off nothing the copy holds a body of, and a body that arrives
late is of a redaction still to be told. -/
def InTime (s : Copying) : Act → Prop
  | .redact _ _ now => s.Current now.toInt64
  | .answer n _ => ∀ since, s.asked[n]? = some since →
    ∀ cut ∈ (s.tombstone.since since).drop maxTombstones,
      ∀ row, s.copy.entry[cut.1]? = some row → row.body = []
  | .arrive n => ∀ e stamp, s.served[n]? = some (e, stamp) → e.body ≠ [] →
    e.seq.toInt64 ∉ s.copy.entry →
    ∀ time, s.tombstone[e.seq.toInt64]? = some time → s.Due e.seq.toInt64 time
  | _ => True

/-- What a run keeps: nobody counts more redactions than there were, and what is left
uncleared is due. -/
structure Telling (s : Copying) : Prop where
  pulled : s.pulled ≤ s.redactions
  answers : ∀ a ∈ s.answers, a.2 ≤ s.redactions
  due : ∀ seq time, s.Uncleared seq time → s.Due seq time

end Copying

namespace Rows

theorem applyTombstone_eq (r : Rows) (seq : UInt64) : r.applyTombstone seq = r.blank seq := by
  unfold applyTombstone blank
  cases hrow : r.entry[seq.toInt64]? with
  | none => rfl
  | some row =>
    by_cases hbody : row.body.length > 0
    · simp [hbody]
    · have hempty : row.body = [] := by simpa using hbody
      have hsame : row.redacted = row := by
        rw [EntryRow.redacted, ← hempty]
      simp [hbody, hsame, insert_of_lookup hrow]

/-- A whole answer applied: the bodies of what it names are gone, and nothing else is. -/
theorem applyTombstones_entry (t : Tombstones) (r : Rows) (seq : Int64) :
    (t.Names seq → (r.applyTombstones t).entry[seq]? = r.entry[seq]?.map EntryRow.redacted) ∧
      (¬ t.Names seq → (r.applyTombstones t).entry[seq]? = r.entry[seq]?) := by
  unfold Tombstones.Names applyTombstones
  induction t.redacted generalizing r with
  | nil => simp
  | cons named rest ih =>
    rw [List.foldl_cons, applyTombstone_eq]
    obtain ⟨hnamed, hother⟩ := ih (r.blank named.1)
    have hhere := r.blank_entry named.1 seq
    have hagain : ∀ row : Option EntryRow,
        (row.map EntryRow.redacted).map EntryRow.redacted = row.map EntryRow.redacted := by
      intro row
      cases row <;> rfl
    by_cases hseq : named.1.toInt64 = seq
    · rw [if_pos hseq] at hhere
      refine ⟨fun _ => ?_, fun hnone => absurd ⟨named, by simp, hseq⟩ hnone⟩
      by_cases hrest : ∃ s ∈ rest, s.1.toInt64 = seq
      · rw [hnamed hrest, hhere, hagain]
      · rw [hother hrest, hhere]
    · rw [if_neg hseq] at hhere
      rw [hhere] at hnamed hother
      constructor
      · rintro ⟨s, hs, rfl⟩
        have hrest : s ∈ rest := by
          cases List.mem_cons.mp hs with
          | inl heq => exact absurd (by rw [heq]) hseq
          | inr hrest => exact hrest
        exact hnamed ⟨s, hrest, rfl⟩
      · intro hnone
        exact hother fun ⟨s, hs, heq⟩ => hnone ⟨s, List.mem_cons_of_mem _ hs, heq⟩

end Rows

namespace Copying
variable {C : Crypto} {here : Host} {s : Copying} {seq time : Int64}

theorem names_of_mem {p : Int64 × Int64} {since : UInt64}
    (h : p ∈ (s.tombstone.since since).take maxTombstones) :
    Tombstones.Names ⟨now, tombstonesSince s.tombstone since⟩ p.1 :=
  ⟨_, List.mem_map_of_mem h, by simp⟩

/-- What an answer leaves out is older than was asked for, or was cut off by the cap. -/
theorem answer_names {since : UInt64} (htime : s.tombstone[seq]? = some time)
    (hsince : since.toInt64 ≤ time) :
    Tombstones.Names ⟨now, tombstonesSince s.tombstone since⟩ seq ∨
      (seq, time) ∈ (s.tombstone.since since).drop maxTombstones := by
  have hmem : (seq, time) ∈ s.tombstone.since since := by
    simp [Stones.since, List.mem_insertionSort, ExtTreeMap.mem_toList_iff_getElem?_eq_some,
      htime, hsince]
  rw [← List.take_append_drop maxTombstones (s.tombstone.since since)] at hmem
  exact (List.mem_append.mp hmem).imp names_of_mem id

theorem Due.fewer {s' : Copying} (h : s.Due seq time) (hmark : s'.mark = s.mark)
    (hasked : s'.asked ⊆ s.asked) (hanswers : s'.answers ⊆ s.answers)
    (hpulled : s'.pulled = s.pulled) (hredactions : s'.redactions = s.redactions) :
    s'.Due seq time where
  marked := by rw [hmark]; exact h.marked
  asked since hsince := h.asked since (hasked hsince)
  answered a ha := by rw [hredactions]; exact h.answered a (hanswers ha)
  unseen := by rw [hpulled, hredactions]; exact h.unseen
  afterStart := h.afterStart

/-- A step that leaves the tombstones and the counts, sends nothing, and gives the copy no
body it did not have. -/
theorem Telling.fewer {s' : Copying} (h : s.Telling) (htomb : s'.tombstone = s.tombstone)
    (hcopy : ∀ (seq : Int64) (row : EntryRow), s'.copy.entry[seq]? = some row →
      s.copy.entry[seq]? = some row)
    (hmark : s'.mark = s.mark) (hasked : s'.asked ⊆ s.asked)
    (hanswers : s'.answers ⊆ s.answers) (hpulled : s'.pulled = s.pulled)
    (hredactions : s'.redactions = s.redactions) : s'.Telling where
  pulled := by rw [hpulled, hredactions]; exact h.pulled
  answers a ha := by rw [hredactions]; exact h.answers a (hanswers ha)
  due seq time hleft := by
    obtain ⟨htime, row, hrow, hbody⟩ := hleft
    have hbefore : s.Uncleared seq time := ⟨htomb ▸ htime, row, hcopy seq row hrow, hbody⟩
    exact (h.due seq time hbefore).fewer hmark hasked hanswers hpulled hredactions

theorem telling_redact (h : s.Telling) (hok : s.InTime (.redact caller target now)) :
    (s.redact caller target now).Telling := by
  unfold redact
  cases hredact : s.origin.redact caller target with
  | error e => exact h
  | ok origin =>
    have hpulled := h.pulled
    refine ⟨Nat.le_succ_of_le h.pulled, fun a ha => Nat.le_succ_of_le (h.answers a ha), ?_⟩
    rintro seq time ⟨htime, row, hrow, hbody⟩
    dsimp only at htime
    rw [lookup_insert] at htime
    by_cases hseq : target.toInt64 = seq
    · rw [if_pos hseq] at htime
      obtain rfl := Option.some.inj htime
      exact ⟨hok.marked, hok.asked,
        fun a ha => .inr ⟨hok.answered a ha, Nat.lt_succ_of_le (h.answers a ha)⟩,
        Nat.lt_succ_of_le h.pulled, hok.afterStart⟩
    · rw [if_neg hseq] at htime
      have hdue := h.due seq time ⟨htime, row, hrow, hbody⟩
      refine ⟨hdue.marked, hdue.asked, fun a ha => ?_, Nat.lt_succ_of_lt hdue.unseen,
        hdue.afterStart⟩
      exact (hdue.answered a ha).imp_right fun hlate => ⟨hlate.1, Nat.lt_succ_of_lt hlate.2⟩

theorem telling_arrive (h : s.Telling) {n : Nat} (hok : s.InTime (.arrive n)) :
    (s.arrive C here n).Telling := by
  unfold arrive
  cases hserved : s.served[n]? with
  | none => exact h
  | some p =>
    obtain ⟨e, stamp⟩ := p
    by_cases hheld : e.seq.toInt64 ∈ s.copy.entry
    · dsimp only
      rw [Rows.storePulled_held hheld]
      exact h
    · refine ⟨h.pulled, h.answers, ?_⟩
      rintro seq time ⟨htime, row, hrow, hbody⟩
      have hstored := (Rows.storePulled_free hheld C here.exchange stamp).entry
      dsimp only at htime hrow
      rw [hstored, lookup_insert] at hrow
      by_cases hseq : e.seq.toInt64 = seq
      · rw [if_pos hseq] at hrow
        obtain rfl := Option.some.inj hrow
        have hdue := hok e stamp hserved hbody hheld time (hseq ▸ htime)
        rw [hseq] at hdue
        exact ⟨hdue.marked, hdue.asked, hdue.answered, hdue.unseen, hdue.afterStart⟩
      · rw [if_neg hseq] at hrow
        have hdue := h.due seq time ⟨htime, row, hrow, hbody⟩
        exact ⟨hdue.marked, hdue.asked, hdue.answered, hdue.unseen, hdue.afterStart⟩

theorem inTime_answer_of_few (h : s.tombstone.size ≤ maxTombstones) {n : Nat} :
    s.InTime (.answer n now) := by
  intro since _ cut hcut
  have hlen : (s.tombstone.since since).length ≤ maxTombstones := by
    calc (s.tombstone.since since).length ≤ s.tombstone.toList.length := by
          rw [Stones.since, List.length_insertionSort]
          exact List.length_filter_le _ _
      _ ≤ maxTombstones := by rwa [ExtTreeMap.length_toList]
  rw [List.drop_eq_nil_of_le hlen] at hcut
  simp at hcut

theorem telling_answer (h : s.Telling) {n : Nat} (hok : s.InTime (.answer n now)) :
    (s.answer n now).Telling := by
  unfold answer
  cases hasked : s.asked[n]? with
  | none => exact h
  | some since =>
    refine ⟨h.pulled, fun a ha => ?_, ?_⟩
    · cases List.mem_cons.mp ha with
      | inl hnew => rw [hnew]
      | inr hold => exact h.answers a hold
    rintro seq time ⟨htime, row, hrow, hbody⟩
    have hdue := h.due seq time ⟨htime, row, hrow, hbody⟩
    have hsince := hdue.asked since (List.mem_of_getElem? hasked)
    have hnamed : Tombstones.Names ⟨now, tombstonesSince s.tombstone since⟩ seq := by
      cases answer_names htime hsince with
      | inl hnamed => exact hnamed
      | inr hcut => exact absurd (hok since hasked _ hcut row hrow) hbody
    refine ⟨hdue.marked, fun m hm => hdue.asked m (List.mem_of_mem_eraseIdx hm), fun a ha => ?_,
      hdue.unseen, hdue.afterStart⟩
    cases List.mem_cons.mp ha with
    | inl hnew => exact .inl (by rw [hnew]; exact hnamed)
    | inr hold => exact hdue.answered a hold

theorem telling_apply (h : s.Telling) (n : Nat) : (s.apply n).Telling := by
  unfold apply
  cases hanswer : s.answers[n]? with
  | none => exact h
  | some p =>
    obtain ⟨t, count⟩ := p
    have hmem := List.mem_of_getElem? hanswer
    have hcount := h.answers _ hmem
    refine ⟨Nat.max_le.mpr ⟨h.pulled, hcount⟩,
      fun a ha => h.answers a (List.mem_of_mem_eraseIdx ha), ?_⟩
    rintro seq time ⟨htime, row, hrow, hbody⟩
    obtain ⟨hnamed, hother⟩ := s.copy.applyTombstones_entry t seq
    dsimp only at hrow
    by_cases hnames : t.Names seq
    · rw [hnamed hnames] at hrow
      obtain ⟨before, -, hempty⟩ := Option.map_eq_some_iff.mp hrow
      exact absurd (by rw [← hempty, EntryRow.redacted]) hbody
    · rw [hother hnames] at hrow
      have hdue := h.due seq time ⟨htime, row, hrow, hbody⟩
      obtain ⟨hlate, hunaware⟩ := (hdue.answered _ hmem).resolve_left hnames
      have hunseen := hdue.unseen
      exact ⟨hlate, hdue.asked, fun a ha => hdue.answered a (List.mem_of_mem_eraseIdx ha),
        Nat.max_lt.mpr ⟨hdue.unseen, hunaware⟩, hdue.afterStart⟩

theorem telling_step (h : s.Telling) (act : Act) (hok : s.InTime act) :
    (s.step C here act).Telling := by
  cases act with
  | redact caller target now => exact telling_redact h hok
  | other rows => exact h.fewer rfl (fun _ _ hrow => hrow) rfl (fun _ h => h) (fun _ h => h) rfl rfl
  | serve seq =>
    dsimp only [step, serve]
    split
    · exact h.fewer rfl (fun _ _ hrow => hrow) rfl (fun _ h => h) (fun _ h => h) rfl rfl
    · exact h
  | arrive n => exact telling_arrive h hok
  | expire now =>
    exact h.fewer rfl (fun _ _ hrow => Rows.prune_entry hrow) rfl (fun _ h => h) (fun _ h => h)
      rfl rfl
  | look =>
    refine ⟨h.pulled, h.answers, fun seq time hleft => ?_⟩
    have hdue := h.due seq time hleft
    refine ⟨hdue.marked, fun since hsince => ?_, hdue.answered, hdue.unseen, hdue.afterStart⟩
    cases List.mem_cons.mp hsince with
    | inl hnew => rw [hnew]; exact hdue.marked
    | inr hold => exact hdue.asked since hold
  | answer n now => exact telling_answer h hok
  | apply n => exact telling_apply h n
  | loseRequest n =>
    exact h.fewer rfl (fun _ _ hrow => hrow) rfl (fun _ => List.mem_of_mem_eraseIdx)
      (fun _ h => h) rfl rfl
  | loseAnswer n =>
    exact h.fewer rfl (fun _ _ hrow => hrow) rfl (fun _ h => h)
      (fun _ => List.mem_of_mem_eraseIdx) rfl rfl
  | restart =>
    refine ⟨h.pulled, by simp [step], fun seq time hleft => ?_⟩
    have hdue := h.due seq time hleft
    have hmarked : (askedFrom 0).toInt64 ≤ time := by
      rw [askedFrom_zero]
      exact hdue.afterStart
    exact ⟨hmarked, by simp [step], by simp [step], hdue.unseen, hdue.afterStart⟩

theorem Telling.cleared (h : s.Telling) : s.Cleared := by
  intro hall seq time hleft
  have hunseen := (h.due seq time hleft).unseen
  omega

theorem telling_start (origin copy : Rows) : (start origin copy).Telling := by
  refine ⟨Nat.le_refl 0, by simp [start], ?_⟩
  rintro seq time ⟨htime, -⟩
  simp [start] at htime

theorem sameButBodies_blank (r : Rows) (target : UInt64) :
    SameButBodies r.entry (r.blank target).entry := by
  intro seq
  rw [r.blank_entry]
  split
  · cases r.entry[seq]? <;> rfl
  · rfl

theorem redact_bodies (s : Copying) (caller : PubKey) (target now : UInt64) :
    SameButBodies s.origin.entry (s.redact caller target now).origin.entry ∧
      (s.redact caller target now).copy = s.copy := by
  unfold redact
  cases hredact : s.origin.redact caller target with
  | error e => exact ⟨fun _ => rfl, rfl⟩
  | ok origin =>
    rw [Rows.redact_ok hredact]
    exact ⟨sameButBodies_blank s.origin target, rfl⟩

theorem apply_bodies (s : Copying) (n : Nat) :
    SameButBodies s.copy.entry (s.apply n).copy.entry ∧ (s.apply n).origin = s.origin := by
  unfold apply
  cases s.answers[n]? with
  | none => exact ⟨fun _ => rfl, rfl⟩
  | some p =>
    refine ⟨fun seq => ?_, rfl⟩
    obtain ⟨hnamed, hother⟩ := s.copy.applyTombstones_entry p.1 seq
    dsimp only
    by_cases hnames : p.1.Names seq
    · rw [hnamed hnames]
      cases s.copy.entry[seq]? <;> rfl
    · rw [hother hnames]

theorem bodiesOnly (s : Copying) (act : Act) : s.BodiesOnly act := by
  cases act with
  | redact caller target now => exact s.redact_bodies caller target now
  | apply n => exact s.apply_bodies n
  | _ => trivial

/-- In a run whose every step is in time, a completed pull leaves no body the origin
redacted; and no redaction, at either side, touches anything but a body. -/
theorem redactions_reach (C : Crypto) (here : Host) (origin copy : Rows) (acts : List Act)
    (hok : Each InTime (step C here) (start origin copy) acts) :
    Always Cleared (step C here) (start origin copy) acts ∧
      Each BodiesOnly (step C here) (start origin copy) acts := by
  have htelling : Always Telling (step C here) (start origin copy) acts :=
    Each.always (fun _ act hs hact => telling_step hs act hact) (telling_start origin copy) hok
  exact ⟨htelling.imp fun _ hs => hs.cleared,
    each_of_mem (fun act _ s => bodiesOnly s act) (start origin copy)⟩

structure Redactable (r : Rows) (caller : PubKey) (target : UInt64) : Prop where
  ours : r.originRow = none
  held : r.channel.isSome = true
  mine : ∃ row, r.entry[target.toInt64]? = some row ∧ row.kind ≠ kindSystem ∧
    row.account = caller

theorem Redactable.redact {r : Rows} (h : Redactable r caller target) :
    r.redact caller target = .ok (r.blank target) := by
  obtain ⟨row, hrow, hkind, haccount⟩ := h.mine
  obtain ⟨c, hc⟩ := Option.isSome_iff_exists.mp h.held
  simp [Rows.redact, Rows.readOnly, Rows.channelRow, h.ours, hc, hrow, hkind, haccount, refuseIf,
    bind, Except.bind, pure, Except.pure]

theorem Redactable.blank {r : Rows} (h : Redactable r caller target) (other : UInt64) :
    Redactable (r.blank other) caller target := by
  have hsame : (r.blank other).originRow = r.originRow ∧
      (r.blank other).channel = r.channel := by
    unfold Rows.blank
    split <;> exact ⟨rfl, rfl⟩
  obtain ⟨row, hrow, hmine⟩ := h.mine
  refine ⟨by rw [hsame.1, h.ours], by rw [hsame.2, h.held], ?_⟩
  rw [r.blank_entry, hrow]
  split
  · exact ⟨row.redacted, rfl, hmine⟩
  · exact ⟨row, rfl, hmine⟩

def redactEach (caller : PubKey) (targets : List UInt64) (now : UInt64) : List Act :=
  targets.map fun target => .redact caller target now

/-- All of them done: every position has its tombstone, and the copy has seen nothing. -/
structure Told (s s' : Copying) (targets : List UInt64) : Prop where
  tombstone : ∀ target ∈ targets, target.toInt64 ∈ s'.tombstone
  redactions : s'.redactions = s.redactions + targets.length
  copy : s'.copy = s.copy
  asked : s'.asked = s.asked
  answers : s'.answers = s.answers
  pulled : s'.pulled = s.pulled

theorem told_redactEach (C : Crypto) (here : Host) {s : Copying}
    (h : ∀ target ∈ targets, Redactable s.origin caller target) (now : UInt64) :
    Told s (run (step C here) s (redactEach caller targets now)) targets := by
  have hstep : ∀ (s : Copying) (target : UInt64), Redactable s.origin caller target →
      s.step C here (.redact caller target now) = { s with
        origin := s.origin.blank target
        tombstone := s.tombstone.insert target.toInt64 now.toInt64
        redactions := s.redactions + 1 } := by
    intro s target hready
    simp [step, Copying.redact, hready.redact]
  have hkept : ∀ (targets : List UInt64) (s : Copying),
      (∀ target ∈ targets, Redactable s.origin caller target) → ∀ seq ∈ s.tombstone,
      seq ∈ (run (step C here) s (redactEach caller targets now)).tombstone := by
    intro targets
    induction targets with
    | nil => exact fun s _ seq hseq => hseq
    | cons target targets ih =>
      intro s hready seq hseq
      rw [redactEach, List.map_cons, run_cons, hstep s target (hready target (by simp))]
      refine ih _ (fun t ht => (hready t (by simp [ht])).blank target) seq ?_
      simp [hseq]
  induction targets generalizing s with
  | nil => exact ⟨by simp, rfl, rfl, rfl, rfl, rfl⟩
  | cons target targets ih =>
    have hhead := h target (by simp)
    have hrest : ∀ t ∈ targets, Redactable (s.origin.blank target) caller t :=
      fun t ht => (h t (by simp [ht])).blank target
    rw [redactEach, List.map_cons, run_cons, hstep s target hhead]
    have htold := ih (s := { s with
      origin := s.origin.blank target
      tombstone := s.tombstone.insert target.toInt64 now.toInt64
      redactions := s.redactions + 1 }) hrest
    refine ⟨fun t ht => ?_, ?_, htold.copy, htold.asked, htold.answers, htold.pulled⟩
    · cases List.mem_cons.mp ht with
      | inl heq =>
        rw [heq]
        exact hkept targets _ hrest _ (by simp)
      | inr hmem => exact htold.tombstone t hmem
    · rw [redactEach] at htold
      rw [htold.redactions, List.length_cons]
      dsimp only
      omega

theorem exists_unnamed (t : Stones) (since now : UInt64) (hnodup : targets.Nodup)
    (hmany : maxTombstones < targets.length) :
    ∃ target ∈ targets, ¬ Tombstones.Names ⟨now, tombstonesSince t since⟩ target.toInt64 := by
  by_contra hall
  push Not at hall
  have hsub : targets ⊆ (tombstonesSince t since).map Prod.fst := by
    intro target htarget
    obtain ⟨p, hp, hseq⟩ := hall target htarget
    exact List.mem_map.mpr ⟨p, hp, toInt64_inj.mp hseq⟩
  have hle : targets.length ≤ maxTombstones := by
    calc targets.length ≤ ((tombstonesSince t since).map Prod.fst).length :=
          (List.subperm_of_subset hnodup hsub).length_le
      _ ≤ maxTombstones := by simp [tombstonesSince]
  omega

theorem cap_leaves_one (C : Crypto) (here : Host) {origin copy : Rows} (hnodup : targets.Nodup)
    (hmany : maxTombstones < targets.length)
    (hready : ∀ target ∈ targets, Redactable origin caller target)
    (hcopy : ∀ target ∈ targets, ∃ row, copy.entry[target.toInt64]? = some row ∧ row.body ≠ [])
    (now later : UInt64) :
    ¬ (run (step C here) (start origin copy)
      (redactEach caller targets now ++ [.look, .answer 0 later, .apply 0])).Cleared := by
  intro hcleared
  have htold := told_redactEach C here (s := start origin copy) hready now
  rw [run_append] at hcleared
  generalize run (step C here) (start origin copy) (redactEach caller targets now) = s at *
  obtain ⟨target, htarget, hunnamed⟩ :=
    exists_unnamed s.tombstone (askedFrom s.mark) later hnodup hmany
  obtain ⟨row, hrow, hbody⟩ := hcopy target htarget
  have hpulled : max s.pulled s.redactions = s.redactions := by
    rw [htold.pulled]
    simp [start]
  obtain ⟨time, htime⟩ := ExtTreeMap.isSome_getElem?_iff_mem.mpr (htold.tombstone target htarget)
    |> Option.isSome_iff_exists.mp
  have hheld : (s.copy.applyTombstones
      ⟨later, tombstonesSince s.tombstone (askedFrom s.mark)⟩).entry[target.toInt64]? =
        some row := by
    rw [(s.copy.applyTombstones_entry _ _).2 hunnamed, htold.copy]
    exact hrow
  simp [step, answer, apply, Cleared, hpulled] at hcleared
  exact hcleared target.toInt64 time ⟨htime, row, hheld, hbody⟩

section Example

def positions : List UInt64 := (List.range 257).map UInt64.ofNat

def message : EntryRow where
  kind := kindMember
  account := 7
  device := 7
  posted := 0
  expiresAfter := 0
  epoch := 0
  msgSeq := 0
  chainSeq := 0
  prev := 0
  bodyHash := 0
  sig := 0
  body := [1]
  entryHash := 0
  head := 0
  receipt := 0

def chatter : Rows :=
  { Rows.empty with
    channel := some { visibility := .pub, retentionSecs := 3600, maxEntries := 0, name := "",
                      topic := "", epoch := 0, nextSeq := 257, creator := 7, created := 0,
                      epochAt := 0, incarnation := 0, head := 0 }
    entry := ExtTreeMap.ofList (positions.map fun n => (n.toInt64, message)) }

theorem positions_nodup : positions.Nodup := by
  refine List.Nodup.map_on ?_ List.nodup_range
  intro a ha b hb heq
  have hnat := congrArg UInt64.toNat heq
  simp only [List.mem_range] at ha hb
  simp only [UInt64.toNat_ofNat'] at hnat
  omega

theorem chatter_entry {n : UInt64} (h : n ∈ positions) :
    chatter.entry[n.toInt64]? = some message := by
  refine ExtTreeMap.getElem?_ofList_of_mem ReflCmp.compare_self ?_ (List.mem_map_of_mem h)
  rw [List.pairwise_map]
  refine positions_nodup.imp fun hne heq => hne ?_
  exact toInt64_inj.mp (LawfulEqCmp.eq_of_compare heq)

/-- 257 redactions at 1000, and one pull at 2000. -/
theorem body_left_behind : ¬ ∀ (origin copy : Rows) (acts : List Act),
    Always Cleared (step .toy ⟨1, none, 0⟩) (start origin copy) acts := by
  intro hall
  have hready : ∀ target ∈ positions, Redactable chatter 7 target := by
    intro target htarget
    exact ⟨rfl, rfl, message, chatter_entry htarget, by decide, rfl⟩
  have hcopy : ∀ target ∈ positions, ∃ row, chatter.entry[target.toInt64]? = some row ∧
      row.body ≠ [] := by
    intro target htarget
    exact ⟨message, chatter_entry htarget, by decide⟩
  have hlen : positions.length = 257 := by simp [positions]
  refine cap_leaves_one .toy ⟨1, none, 0⟩ positions_nodup
    (by rw [hlen]; decide) hready hcopy 1000 2000 ?_
  exact always_iff_prefixes.mp (hall _ _ _) _ List.prefix_rfl

/-- A channel with one message, and the pull that tells of its redaction. -/
def note : Rows := { chatter with entry := (∅ : ExtTreeMap Int64 EntryRow).insert 1 message }

def noteRedacted : List Act := [.redact 7 1 1000, .look, .answer 0 1001, .apply 0]

theorem note_reaches : Always Cleared (step .toy ⟨1, none, 0⟩) (start note note) noteRedacted := by
  have hready : Redactable note 7 1 :=
    ⟨rfl, rfl, message, ExtTreeMap.getElem?_insert_self, by decide, rfl⟩
  have hredact : (start note note).redact 7 1 1000 =
      { start note note with
        origin := note.blank 1
        tombstone := (∅ : Stones).insert 1 1000
        redactions := 1 } := by
    have hok : (start note note).origin.redact 7 1 = .ok (note.blank 1) := hready.redact
    simp only [redact, hok]
    rfl
  refine (redactions_reach .toy ⟨1, none, 0⟩ note note noteRedacted ?_).1
  refine ⟨⟨by decide, by simp [start], by simp [start], by decide⟩, trivial, ?_, trivial, trivial⟩
  refine inTime_answer_of_few ?_
  simp only [step, hredact]
  rw [ExtTreeMap.size_insert]
  decide

end Example

end Copying
end Sqex.Exchange
