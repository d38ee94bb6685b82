import Sqex.Exchange.Replica

/-! Whether what a copy stores is what the receipt commits to. Receipt and
signature are each checked against their own input; nothing relates the two. -/
namespace Sqex.Exchange
open Std Runs
variable {C : Crypto} {src : Source} {t : Taking} {e : Entry} {adopted : Rows}

/-- The stored row is one thing: the first place its receipt verifies under is
where its device signed, the hash the receipt covers is the hash of the entry the
signature covers, and that covers the body held. -/
def Committed (C : Crypto) (places : List Place) (seq : Int64) (row : EntryRow) : Prop :=
  ∃ place, placeOf C places (row.entry seq.toUInt64) row.stamp = some place ∧
    (receiptTerms place (row.entry seq.toUInt64) row.stamp).verify C row.receipt = true ∧
    signedAt C place (row.entry seq.toUInt64) = true ∧
    row.entryHash = entryHashOf C place (row.entry seq.toUInt64) ∧
    (row.body ≠ [] → row.bodyHash = C.sha256 row.body)

def NewMember (before after : Rows) (seq : Int64) (row : EntryRow) : Prop :=
  after.entry[seq]? = some row ∧ seq ∉ before.entry ∧ row.kind = kindMember

def Commits (C : Crypto) (place : Place) (e : Entry) (stamp : Receipted) : Prop :=
  stamp.entryHash = entryHashOf C place e ∧ (e.body ≠ [] → e.bodyHash = C.sha256 e.body)

def Honest (C : Crypto) (src : Source) (t : Taking) (e : Entry) : Prop :=
  ∀ stamp place, Accepts C src t e stamp place → e.seq.toInt64 ∉ t.rows.entry →
    e.kind = kindMember → Commits C place e stamp

theorem committed_of_accepts {stamp : Receipted} {place : Place} (h : Accepts C src t e stamp place)
    (hkind : e.kind = kindMember) :
    Committed C src.places e.seq.toInt64 (.of e stamp) ↔ Commits C place e stamp := by
  have hplace : placeOf C src.places ((EntryRow.of e stamp).entry e.seq) stamp = some place :=
    h.receipted
  have hverify : (receiptTerms place e stamp).verify C stamp.receipt = true := by
    simpa using List.find?_some h.receipted
  have hsigned : signedAt C place e = true := by
    have hnone := h.attributed
    rw [entryRefused, if_neg (not_not.mpr hkind)] at hnone
    by_contra hforged
    rw [if_pos (by simpa using hforged)] at hnone
    cases hnone
  constructor
  · intro hrow
    obtain ⟨place', hplace', _, _, hhash, hbody⟩ := hrow
    obtain rfl : place = place' := Option.some.inj (hplace.symm.trans hplace')
    exact ⟨hhash, hbody⟩
  · intro hcommits
    exact ⟨place, hplace, hverify, hsigned, hcommits.1, hcommits.2⟩

theorem takeNext_entry (C : Crypto) (src : Source) (t : Taking) (e : Entry) :
    (takeNext C src t e).rows.entry = t.rows.entry ∨
      ∃ stamp place, Accepts C src t e stamp place ∧ e.seq.toInt64 ∉ t.rows.entry ∧
        (takeNext C src t e).rows.entry = t.rows.entry.insert e.seq.toInt64 (.of e stamp) := by
  by_cases hacc : ∃ stamp place, Accepts C src t e stamp place
  · obtain ⟨stamp, place, hacc⟩ := hacc
    rw [takeNext_accepts hacc]
    by_cases hfree : e.seq.toInt64 ∈ t.rows.entry
    · exact Or.inl (by rw [Rows.storePulled_held hfree])
    · have hput := Rows.storePulled_free hfree C src.self stamp
      exact Or.inr ⟨stamp, place, hacc, hfree, hput.entry⟩
  · have hnone : ∀ stamp place, ¬ Accepts C src t e stamp place := by
      intro stamp place h
      exact hacc ⟨stamp, place, h⟩
    exact Or.inl (takeNext_refuses hnone).1

def AllCommitted (C : Crypto) (src : Source) (adopted : Rows) (t : Taking) : Prop :=
  ∀ seq row, NewMember adopted t.rows seq row → Committed C src.places seq row

/-- What was held when the batch began is held still. -/
def Keeps (adopted : Rows) (t : Taking) : Prop := ∀ seq ∈ adopted.entry, seq ∈ t.rows.entry

theorem keeps_takeNext (h : Keeps adopted t) (e : Entry) : Keeps adopted (takeNext C src t e) := by
  intro seq hseq
  cases takeNext_entry C src t e with
  | inl hsame => rw [hsame]; exact h seq hseq
  | inr hnew =>
    obtain ⟨stamp, place, _, _, hput⟩ := hnew
    rw [hput, ExtTreeMap.mem_insert]
    exact Or.inr (h seq hseq)

theorem allCommitted_back (h : AllCommitted C src adopted (takeNext C src t e)) :
    AllCommitted C src adopted t := by
  intro seq row hrow
  obtain ⟨hget, hnew, hkind⟩ := hrow
  refine h seq row ⟨?_, hnew, hkind⟩
  cases takeNext_entry C src t e with
  | inl hsame => rw [hsame]; exact hget
  | inr hput =>
    obtain ⟨stamp, place, _, hfree, hput⟩ := hput
    have hne : e.seq.toInt64 ≠ seq := by
      intro heq
      exact hfree (heq ▸ ExtTreeMap.mem_iff_isSome_getElem?.mpr (by simp [hget]))
    rw [hput, lookup_insert, if_neg hne]
    exact hget

theorem allCommitted_step (hkeeps : Keeps adopted t) (h : AllCommitted C src adopted t) :
    AllCommitted C src adopted (takeNext C src t e) ↔ Honest C src t e := by
  constructor
  · intro hafter stamp place hacc hfree hkind
    have hput : (takeNext C src t e).rows.entry =
        t.rows.entry.insert e.seq.toInt64 (.of e stamp) := by
      rw [takeNext_accepts hacc]
      exact (Rows.storePulled_free hfree C src.self stamp).entry
    have hrow : NewMember adopted (takeNext C src t e).rows e.seq.toInt64 (.of e stamp) := by
      refine ⟨?_, fun hmem => hfree (hkeeps _ hmem), hkind⟩
      rw [hput, lookup_insert, if_pos rfl]
    exact (committed_of_accepts hacc hkind).mp (hafter _ _ hrow)
  · intro hhonest seq row hrow
    obtain ⟨hget, hnew, hkind⟩ := hrow
    cases takeNext_entry C src t e with
    | inl hsame => exact h seq row ⟨hsame ▸ hget, hnew, hkind⟩
    | inr hput =>
      obtain ⟨stamp, place, hacc, hfree, hput⟩ := hput
      rw [hput, lookup_insert] at hget
      by_cases hseq : e.seq.toInt64 = seq
      · rw [if_pos hseq] at hget
        obtain rfl := Option.some.inj hget
        subst hseq
        exact (committed_of_accepts hacc hkind).mpr (hhonest stamp place hacc hfree hkind)
      · rw [if_neg hseq] at hget
        exact h seq row ⟨hget, hnew, hkind⟩

/-- A batch over adopted rows stores only committed rows exactly when each entry
it accepts at a free position commits to itself. -/
theorem takeBatch_committed_iff (C : Crypto) (src : Source) (adopted : Rows)
    (entries : List Entry) :
    AllCommitted C src adopted (takeBatch C src adopted entries) ↔
      Each (Honest C src) (takeNext C src) ⟨adopted, lastHead adopted, ⟨0, [], false⟩⟩
        entries := by
  have hkeeps : Keeps adopted ⟨adopted, lastHead adopted, ⟨0, [], false⟩⟩ := fun _ h => h
  have hstart : AllCommitted C src adopted ⟨adopted, lastHead adopted, ⟨0, [], false⟩⟩ := by
    intro seq row hrow
    exact absurd (ExtTreeMap.mem_iff_isSome_getElem?.mpr (by simp [hrow.1])) hrow.2.1
  have hend : Always (fun t => Keeps adopted t ∧ AllCommitted C src adopted t)
      (takeNext C src) ⟨adopted, lastHead adopted, ⟨0, [], false⟩⟩ entries ↔
      AllCommitted C src adopted (run (takeNext C src)
        ⟨adopted, lastHead adopted, ⟨0, [], false⟩⟩ entries) :=
    always_iff_end (fun t e h => keeps_takeNext h e) (fun t e _ h => allCommitted_back h) hkeeps
  rw [takeBatch, ← hend]
  refine always_iff_each (fun t e h => ?_) ⟨hkeeps, hstart⟩
  rw [← allCommitted_step h.1 h.2]
  exact and_iff_right (keeps_takeNext h.1 e)

def adoptedRows (store : Channels) (origin : PubKey) (channel : Bytes32) (pulled : Pulled)
    (now : UInt64) : Rows :=
  match (store.rows channel).adopt pulled.incarnation origin pulled.windowSecs now with
  | .error _ => store.rows channel
  | .ok adopted => adopted

def StoresCommitted (C : Crypto) (store : Channels) (origin : PubKey)
    (predecessors : List PubKey) (channel : Bytes32) (pulled : Pulled)
    (credentials : PubKey → Option PubKey) (now : UInt64) : Prop :=
  ∀ seq row, NewMember (adoptedRows store origin channel pulled now)
      ((takeUnder C store origin predecessors channel pulled credentials now).1.rows channel)
      seq row →
    Committed C (placesOf origin predecessors pulled.incarnation channel) seq row

/-- For every store, origin, batch and credentials, what is newly stored is committed exactly when
every member entry the loop accepts at a free position carries its own hash in its stamp and its
body's hash beside its body. -/
theorem take_under_committed_iff (C : Crypto) (store : Channels) (origin : PubKey)
    (predecessors : List PubKey) (channel : Bytes32) (pulled : Pulled)
    (credentials : PubKey → Option PubKey) (now : UInt64) :
    StoresCommitted C store origin predecessors channel pulled credentials now ↔
      ∀ adopted, (store.rows channel).adopt pulled.incarnation origin pulled.windowSecs now =
          .ok adopted →
        Each (Honest C ⟨store.exchange,
            placesOf origin predecessors pulled.incarnation channel, credentials⟩)
          (takeNext C ⟨store.exchange,
            placesOf origin predecessors pulled.incarnation channel, credentials⟩)
          ⟨adopted, lastHead adopted, ⟨0, [], false⟩⟩ pulled.entries := by
  cases hadopt : (store.rows channel).adopt pulled.incarnation origin pulled.windowSecs now with
  | error err =>
    refine iff_of_true ?_ (fun adopted h => by cases h)
    intro seq row hrow
    simp only [adoptedRows, takeUnder, hadopt] at hrow
    exact absurd (ExtTreeMap.mem_iff_isSome_getElem?.mpr (by simp [hrow.1])) hrow.2.1
  | ok adopted =>
    have hbatch := takeBatch_committed_iff C ⟨store.exchange,
      placesOf origin predecessors pulled.incarnation channel, credentials⟩ adopted
      pulled.entries
    have hleft : StoresCommitted C store origin predecessors channel pulled credentials now ↔
        AllCommitted C ⟨store.exchange,
          placesOf origin predecessors pulled.incarnation channel, credentials⟩ adopted
          (takeBatch C ⟨store.exchange,
            placesOf origin predecessors pulled.incarnation channel, credentials⟩ adopted
            pulled.entries) := by
      simp [StoresCommitted, AllCommitted, adoptedRows, takeUnder, hadopt]
    rw [hleft, hbatch]
    constructor
    · intro h adopted' heq
      obtain rfl := Except.ok.inj heq
      exact h
    · exact fun h => h adopted rfl

section Example

def originSeed : Bytes32 := 40
def originKey : PubKey := Crypto.toy.publicKey originSeed
def authorSeed : Bytes32 := 50
def authorKey : PubKey := Crypto.toy.publicKey authorSeed

def mislabelled : Entry :=
  let place : Place := ⟨originKey, 8, 9⟩
  let bare : Entry :=
    { seq := 1, kind := kindMember, account := authorKey, device := authorKey, posted := 100,
      expiresAfter := 0, epoch := 1, msgSeq := 1, chainSeq := 0, prev := genesis,
      bodyHash := Crypto.toy.sha256 [104, 105], sig := 0, stamp := none, body := [104, 105] }
  let stamp : Receipted := ⟨99, 98, 0⟩
  { bare with
    sig := Crypto.toy.sign authorSeed ((bare.terms place).input Crypto.toy)
    stamp := some { stamp with
      receipt := Crypto.toy.sign originSeed ((receiptTerms place bare stamp).input Crypto.toy) } }

/-- An empty exchange takes that entry and stores it. -/
theorem stored_uncommitted :
    ¬ ∀ store origin predecessors channel pulled credentials now,
      StoresCommitted Crypto.toy store origin predecessors channel pulled credentials now := by
  intro hall
  have hrow := hall ⟨7, fun _ => .empty⟩ originKey [] 9 ⟨8, 0, [mislabelled]⟩ (fun _ => none) 5
    1 (.of mislabelled ⟨99, 98, (mislabelled.stamp.map (·.receipt)).getD 0⟩)
    ⟨by decide +kernel, by decide +kernel, rfl⟩
  obtain ⟨place, hplace, _, _, hhash, _⟩ := hrow
  have hmem : place ∈ placesOf originKey [] 8 9 := List.mem_of_find?_eq_some hplace
  have hplace : place = ⟨originKey, 8, 9⟩ := by simpa [placesOf] using hmem
  subst hplace
  exact absurd hhash (by decide +kernel)

end Example
end Sqex.Exchange
