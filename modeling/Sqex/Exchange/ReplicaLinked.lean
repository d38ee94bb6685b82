import Sqex.Exchange.Rehome
import Sqex.Exchange.ReplicaCommit
import Sqex.Lib.Columns

/-! Whether a copy is one linked history. The loop remembers one entry, the last it saw held, and
checks the next against that alone. Two receipts about one position are caught where the key that
the new one is read under is one the held one verifies under too. -/
namespace Sqex.Exchange
open Std Runs
variable {C : Crypto} {e : Entry} {stamp : Receipted} {src : Source} {t : Taking} {place : Place}

abbrev Log := ExtTreeMap Int64 EntryRow

/-- Every two entries held at consecutive positions are linked. -/
def Linked (C : Crypto) (log : Log) : Prop :=
  ∀ s s' : UInt64, s.toNat + 1 = s'.toNat → ∀ below above,
    log[s.toInt64]? = some below → log[s'.toInt64]? = some above →
    above.head = advance C below.head above.entryHash

def LinksBelow (C : Crypto) (log : Log) (seq : UInt64) (row : EntryRow) : Prop :=
  ∀ (s : UInt64) (below : EntryRow), s.toNat + 1 = seq.toNat → log[s.toInt64]? = some below →
    row.head = advance C below.head row.entryHash

def LinksAbove (C : Crypto) (log : Log) (seq : UInt64) (row : EntryRow) : Prop :=
  ∀ (s : UInt64) (above : EntryRow), seq.toNat + 1 = s.toNat → log[s.toInt64]? = some above →
    above.head = advance C row.head above.entryHash

theorem lookup_insert_seq (log : Log) (seq s : UInt64) (row : EntryRow) :
    (log.insert seq.toInt64 row)[s.toInt64]? =
      if seq = s then some row else log[s.toInt64]? := by
  rw [lookup_insert]
  simp only [toInt64_inj]

theorem linked_insert {log : Log} {seq : UInt64} {row : EntryRow} (hfree : seq.toInt64 ∉ log) :
    Linked C (log.insert seq.toInt64 row) ↔
      Linked C log ∧ LinksBelow C log seq row ∧ LinksAbove C log seq row := by
  have hnew : (log.insert seq.toInt64 row)[seq.toInt64]? = some row := by
    rw [lookup_insert_seq, if_pos rfl]
  have hold : ∀ (s : UInt64) (held : EntryRow), log[s.toInt64]? = some held →
      (log.insert seq.toInt64 row)[s.toInt64]? = some held := by
    intro s held hheld
    have hne : seq ≠ s := by
      intro heq
      rw [heq] at hfree
      exact hfree (ExtTreeMap.mem_iff_isSome_getElem?.mpr (by simp [hheld]))
    rw [lookup_insert_seq, if_neg hne, hheld]
  constructor
  · intro h
    refine ⟨fun s s' hs below above hbelow habove => ?_, fun s below hs hbelow => ?_,
      fun s above hs habove => ?_⟩
    · exact h s s' hs below above (hold s below hbelow) (hold s' above habove)
    · exact h s seq hs below row (hold s below hbelow) hnew
    · exact h seq s hs row above hnew (hold s above habove)
  · intro hjoined s s' hs below above hbelow habove
    obtain ⟨h, hunder, hover⟩ := hjoined
    rw [lookup_insert_seq] at hbelow habove
    by_cases hlow : seq = s
    · have hne : seq ≠ s' := by
        intro heq
        rw [← heq, ← hlow] at hs
        omega
      rw [if_pos hlow] at hbelow
      rw [if_neg hne] at habove
      obtain rfl := Option.some.inj hbelow
      exact hover s' above (by rw [hlow]; exact hs) habove
    · rw [if_neg hlow] at hbelow
      by_cases hhigh : seq = s'
      · rw [if_pos hhigh] at habove
        obtain rfl := Option.some.inj habove
        exact hunder s below (by rw [hhigh]; exact hs) hbelow
      · rw [if_neg hhigh] at habove
        exact h s s' hs below above hbelow habove

/-- An entry the loop accepts at a free position joins what it is put between: the entry
held below it, where that is not the one remembered, and the one held above it. -/
def Joins (C : Crypto) (src : Source) (t : Taking) (e : Entry) : Prop :=
  ∀ stamp place, Accepts C src t e stamp place → e.seq.toInt64 ∉ t.rows.entry →
    (∀ (s : UInt64) (below : EntryRow), s.toNat + 1 = e.seq.toNat →
      t.rows.entry[s.toInt64]? = some below → t.held ≠ some (s, below.head) →
      stamp.head = advance C below.head stamp.entryHash) ∧
    LinksAbove C t.rows.entry e.seq (.of e stamp)

theorem follows_held {s : UInt64} {prev : Bytes32} (h : diverges C (some (s, prev)) e stamp = false)
    (hs : s.toNat + 1 = e.seq.toNat) : stamp.head = advance C prev stamp.entryHash := by
  have hlt := e.seq.toNat_lt
  have hseq : s + 1 = e.seq := by
    apply UInt64.toNat.inj
    rw [UInt64.toNat_add, UInt64.toNat_one]
    omega
  have hsame : advance C prev stamp.entryHash = stamp.head := by
    simpa [diverges, hseq] using h
  exact hsame.symm

/-- What the loop checks of an entry and what it leaves unchecked, together. -/
theorem linksBelow_iff (hacc : Accepts C src t e stamp place) :
    LinksBelow C t.rows.entry e.seq (.of e stamp) ↔
      ∀ (s : UInt64) (below : EntryRow), s.toNat + 1 = e.seq.toNat →
        t.rows.entry[s.toInt64]? = some below → t.held ≠ some (s, below.head) →
        stamp.head = advance C below.head stamp.entryHash := by
  constructor
  · intro h s below hs hbelow _
    exact h s below hs hbelow
  · intro h s below hs hbelow
    by_cases hheld : t.held = some (s, below.head)
    · have hfollows := hacc.follows
      rw [hheld] at hfollows
      exact follows_held hfollows hs
    · exact h s below hs hbelow hheld

section
variable (C : Crypto) (src : Source) (t : Taking) (e : Entry)

theorem linked_step :
    Linked C (takeNext C src t e).rows.entry ↔ Linked C t.rows.entry ∧ Joins C src t e := by
  cases takeNext_entry C src t e with
  | inl hsame =>
    rw [hsame]
    have hjoins : Joins C src t e := by
      intro stamp place hacc hfree
      have hput := (Rows.storePulled_free hfree C src.self stamp).entry
      rw [takeNext_accepts hacc, hput] at hsame
      have hmem : e.seq.toInt64 ∈ t.rows.entry := by
        rw [← hsame]
        simp
      exact absurd hmem hfree
    exact (and_iff_left hjoins).symm
  | inr hput =>
    obtain ⟨stamp, place, hacc, hfree, hput⟩ := hput
    rw [hput, linked_insert hfree]
    have hjoins : LinksBelow C t.rows.entry e.seq (.of e stamp) ∧
        LinksAbove C t.rows.entry e.seq (.of e stamp) ↔ Joins C src t e := by
      rw [linksBelow_iff hacc]
      constructor
      · intro h stamp' place' hacc' _
        obtain rfl := Option.some.inj (hacc.stamped.symm.trans hacc'.stamped)
        exact h
      · intro h
        exact h stamp place hacc hfree
    rw [hjoins]

theorem linked_run (entries : List Entry) :
    Linked C (run (takeNext C src) t entries).rows.entry ↔
      Linked C t.rows.entry ∧ Each (Joins C src) (takeNext C src) t entries := by
  induction entries generalizing t with
  | nil => simp [Each]
  | cons e entries ih => rw [run_cons, ih, linked_step, Each, and_assoc]

/-- Two receipts about a position held that contradict one another under one key of the
origin's: the one held, and the entry's. -/
structure Contradicts (places : List Place) (r : Rows) (e : Entry) (stamp : Receipted)
    (held : Branch) (place : Place) : Prop where
  known : place ∈ places
  stamped : e.stamp = some stamp
  kept : r.stampAt e.seq = some held
  differs : held.agrees ⟨e.posted, stamp.entryHash, stamp.head, stamp.receipt⟩ = false
  mine : (receiptTerms place e stamp).verify C stamp.receipt = true
  theirs : (held.terms place e.seq).verify C held.receipt = true

def Recorded (r : Rows) : Prop :=
  ∃ row proof, r.replicated = some row ∧ row.equivocation = some proof

/-- A contradiction ends the call there: it is recorded, and neither that entry nor any
after it is stored. -/
def Ends : Prop :=
  t.took.equivocated = false →
    ∀ stamp held place, Contradicts C src.places t.rows e stamp held place →
      (takeNext C src t e).took.equivocated = true ∧
      (takeNext C src t e).rows.entry = t.rows.entry ∧ Recorded (takeNext C src t e).rows ∧
      ∀ rest, run (takeNext C src) (takeNext C src t e) rest = takeNext C src t e

/-- Where a contradiction can be seen and kept: the first key the entry's receipt verifies
under is one the receipt held does too, and the channel is still a copy. -/
def Seen : Prop :=
  t.took.equivocated = false →
    ∀ stamp held place, Contradicts C src.places t.rows e stamp held place →
      t.rows.replicated.isSome = true ∧
      ∃ first, placeOf C src.places e stamp = some first ∧
        (held.terms first e.seq).verify C held.receipt = true

end

theorem run_stopped (h : t.took.equivocated = true) (rest : List Entry) :
    run (takeNext C src) t rest = t := by
  induction rest with
  | nil => rfl
  | cons e rest ih =>
    have hstep : takeNext C src t e = t := by simp [takeNext, h]
    rw [run_cons, hstep, ih]

theorem conflicting_eq_some {r : Rows} {held : Branch} (hheld : r.stampAt e.seq = some held)
    (hmine : (receiptTerms place e stamp).verify C stamp.receipt = true) :
    (conflicting C r place e stamp).isSome = true ↔
      held.agrees ⟨e.posted, stamp.entryHash, stamp.head, stamp.receipt⟩ = false ∧
        (held.terms place e.seq).verify C held.receipt = true := by
  have hbranch : (Branch.terms ⟨e.posted, stamp.entryHash, stamp.head, stamp.receipt⟩ place
      e.seq).verify C stamp.receipt = true := hmine
  unfold conflicting
  rw [hheld]
  cases hagrees : held.agrees ⟨e.posted, stamp.entryHash, stamp.head, stamp.receipt⟩ with
  | true => simp [hagrees]
  | false =>
    cases htheirs : (held.terms place e.seq).verify C held.receipt <;>
      simp [Equivocation.new, hagrees, htheirs, hbranch, Except.toOption]

theorem takeNext_conflicts {proof : Equivocation} (hgoing : t.took.equivocated = false)
    (hstamp : e.stamp = some stamp) (hplace : placeOf C src.places e stamp = some place)
    (hconflict : conflicting C t.rows place e stamp = some proof) :
    takeNext C src t e = { t with
      rows := t.rows.recordEquivocation proof.encode
      took := { t.took with equivocated := true } } := by
  simp [takeNext, hgoing, hstamp, hplace, hconflict]

/-- What sets the flag: a contradiction under the first key the entry's receipt verifies
under. -/
theorem of_takeNext_equivocated (hgoing : t.took.equivocated = false)
    (h : (takeNext C src t e).took.equivocated = true) :
    ∃ stamp place proof, e.stamp = some stamp ∧ placeOf C src.places e stamp = some place ∧
      conflicting C t.rows place e stamp = some proof := by
  unfold takeNext at h
  rw [hgoing] at h
  cases hstamp : e.stamp with
  | none => simp [hstamp, Taking.refuse, hgoing] at h
  | some stamp =>
    cases hplace : placeOf C src.places e stamp with
    | none => simp [hstamp, hplace, Taking.refuse, hgoing] at h
    | some place =>
      cases hconflict : conflicting C t.rows place e stamp with
      | some proof => exact ⟨stamp, place, proof, rfl, hplace, hconflict⟩
      | none =>
        cases hrefused : entryRefused C place e src.credentials with
        | some why => simp [hstamp, hplace, hconflict, hrefused, Taking.refuse, hgoing] at h
        | none =>
          cases hfollows : diverges C t.held e stamp with
          | true => simp [hstamp, hplace, hconflict, hrefused, hfollows, Taking.refuse, hgoing] at h
          | false =>
            cases hput : t.rows.storePulled C src.self e stamp with
            | mk rows new =>
              cases new <;>
                simp [hstamp, hplace, hconflict, hrefused, hfollows, hput, hgoing] at h

theorem ends_iff_seen (C : Crypto) (src : Source) (t : Taking) (e : Entry) :
    Ends C src t e ↔ Seen C src t e := by
  constructor
  · intro hends hgoing stamp held place hcontra
    obtain ⟨hflag, -, hrecorded, -⟩ := hends hgoing stamp held place hcontra
    obtain ⟨stamp', first, proof, hstamp, hfirst, hconflict⟩ :=
      of_takeNext_equivocated hgoing hflag
    obtain rfl := Option.some.inj (hcontra.stamped.symm.trans hstamp)
    rw [takeNext_conflicts hgoing hstamp hfirst hconflict] at hrecorded
    obtain ⟨row, kept, hrow, -⟩ := hrecorded
    obtain ⟨row', hrow', -⟩ := Option.map_eq_some_iff.mp hrow
    have hmine : (receiptTerms first e stamp).verify C stamp.receipt = true := by
      simpa using List.find?_some hfirst
    have hfound := (conflicting_eq_some hcontra.kept hmine).mp (by simp [hconflict])
    exact ⟨by simp [hrow'], first, hfirst, hfound.2⟩
  · intro hseen hgoing stamp held place hcontra
    obtain ⟨hcopy, first, hfirst, htheirs⟩ := hseen hgoing stamp held place hcontra
    have hmine : (receiptTerms first e stamp).verify C stamp.receipt = true := by
      simpa using List.find?_some hfirst
    obtain ⟨proof, hconflict⟩ := Option.isSome_iff_exists.mp
      ((conflicting_eq_some hcontra.kept hmine).mpr ⟨hcontra.differs, htheirs⟩)
    obtain ⟨row, hrow⟩ := Option.isSome_iff_exists.mp hcopy
    rw [takeNext_conflicts hgoing hcontra.stamped hfirst hconflict]
    refine ⟨rfl, rfl, ⟨_, row.equivocation.getD proof.encode, by
      simp [Rows.recordEquivocation, hrow]; rfl, rfl⟩, run_stopped rfl⟩

namespace Rows

def incarnation (r : Rows) : Option Bytes32 := r.channel.map (·.incarnation)

section
variable (C : Crypto) (self : PubKey) (r : Rows) (s : System)

theorem alter_channel (who : PubKey) (f : MemberRow → MemberRow) :
    (r.alter who f).channel = r.channel := by
  unfold alter
  split <;> rfl

theorem deriveMembership_incarnation (posted : UInt64) :
    (r.deriveMembership C s posted).incarnation = r.incarnation := by
  unfold deriveMembership
  split_ifs <;> simp [incarnation, alter_channel, seat, moveMember, Function.comp_def]

theorem deriveRehome_channel (seq posted : UInt64) :
    (r.deriveRehome self s seq posted).channel = r.channel := by
  obtain ⟨chain, marks, hframe⟩ := rebuildStanding_frame { r with replicated := none }
  unfold deriveRehome
  split_ifs <;> simp [recordOrigin, hframe]

theorem deriveSystem_incarnation (seq posted : UInt64) :
    (r.deriveSystem C self s seq posted).incarnation = r.incarnation := by
  have hmark : ∀ r : Rows, (r.markDerivable s).channel = r.channel := by
    intro r
    unfold markDerivable
    split <;> rfl
  have hreplica : ∀ r : Rows, (r.deriveReplica s).channel = r.channel := by
    intro r
    unfold deriveReplica
    split_ifs <;> rfl
  have hmember := deriveMembership_incarnation C r s posted
  unfold incarnation at hmember ⊢
  rw [deriveSystem, deriveRehome_channel, hreplica, hmark, hmember]

theorem storePulled_incarnation (e : Entry) (stamp : Receipted) :
    (r.storePulled C self e stamp).1.incarnation = r.incarnation := by
  have hadvance : ∀ (r : Rows) (head : Bytes32) (next : UInt64),
      (r.advanceHead head next).incarnation = r.incarnation := by
    intro r head next
    simp [incarnation, advanceHead, Function.comp_def]
  unfold storePulled
  split
  · rfl
  · rw [hadvance]
    split
    · rw [deriveSystem_incarnation]
      rfl
    · rfl

end

theorem adopt_entry {r adopted : Rows} {inc : Bytes32} {origin : PubKey} {window : UInt32}
    {now : UInt64} (hone : ∀ held ∈ r.incarnation, held = inc)
    (h : r.adopt inc origin window now = .ok adopted) :
    adopted.entry = r.entry ∧ ∀ held ∈ adopted.incarnation, held = inc := by
  unfold adopt at h
  cases hchannel : r.channel with
  | none =>
    simp only [hchannel] at h
    obtain rfl := Except.ok.inj h
    simp [incarnation]
  | some c =>
    have hc : c.incarnation = inc := hone _ (by simp [incarnation, hchannel])
    cases hcopy : r.replicated with
    | none => simp [hchannel, hcopy] at h
    | some row =>
      have hsame : ¬ c.incarnation ≠ inc := not_not.mpr hc
      simp only [hchannel, hcopy, if_neg hsame] at h
      obtain rfl := Except.ok.inj h
      simp [incarnation, hc]

end Rows

theorem takeNext_incarnation (C : Crypto) (src : Source) (t : Taking) (e : Entry) :
    (takeNext C src t e).rows.incarnation = t.rows.incarnation := by
  by_cases hacc : ∃ stamp place, Accepts C src t e stamp place
  · obtain ⟨stamp, place, hacc⟩ := hacc
    rw [takeNext_accepts hacc, Rows.storePulled_incarnation]
  · have hnone : ∀ stamp place, ¬ Accepts C src t e stamp place := by
      intro stamp place h
      exact hacc ⟨stamp, place, h⟩
    unfold Rows.incarnation
    rw [(takeNext_refuses hnone).2.1]

/-- One call of `takeUnder`, on a channel and an incarnation given elsewhere. -/
structure PullCall where
  origin : PubKey
  predecessors : List PubKey
  windowSecs : UInt32
  entries : List Entry
  credentials : PubKey → Option PubKey
  now : UInt64

namespace PullCall

def source (call : PullCall) (here : PubKey) (inc channel : Bytes32) : Source :=
  ⟨here, placesOf call.origin call.predecessors inc channel, call.credentials⟩

def EachTurn (P : Crypto → Source → Taking → Entry → Prop) (C : Crypto)
    (inc channel : Bytes32) (st : Channels) (call : PullCall) : Prop :=
  ∀ adopted, (st.rows channel).adopt inc call.origin call.windowSecs call.now = .ok adopted →
    Each (P C (call.source st.exchange inc channel))
      (takeNext C (call.source st.exchange inc channel))
      ⟨adopted, lastHead adopted, ⟨0, [], false⟩⟩ call.entries

end PullCall

def takeCall (C : Crypto) (inc channel : Bytes32) (st : Channels) (call : PullCall) : Channels :=
  (takeUnder C st call.origin call.predecessors channel ⟨inc, call.windowSecs, call.entries⟩
    call.credentials call.now).1

def OfIncarnation (inc channel : Bytes32) (st : Channels) : Prop :=
  ∀ held ∈ (st.rows channel).incarnation, held = inc

theorem takeCall_linked {inc channel : Bytes32} {st : Channels}
    (hone : OfIncarnation inc channel st) (call : PullCall) :
    OfIncarnation inc channel (takeCall C inc channel st call) ∧
      (Linked C ((takeCall C inc channel st call).rows channel).entry ↔
        Linked C (st.rows channel).entry ∧ call.EachTurn Joins C inc channel st) := by
  unfold takeCall takeUnder
  cases hadopt : (st.rows channel).adopt inc call.origin call.windowSecs call.now with
  | error err =>
    have hnone : call.EachTurn Joins C inc channel st := by
      intro adopted h
      rw [hadopt] at h
      cases h
    exact ⟨hone, (and_iff_left hnone).symm⟩
  | ok adopted =>
    obtain ⟨hentry, hinc⟩ := Rows.adopt_entry hone hadopt
    let src := call.source st.exchange inc channel
    let start : Taking := ⟨adopted, lastHead adopted, ⟨0, [], false⟩⟩
    have hkept : ∀ held ∈ (run (takeNext C src) start call.entries).rows.incarnation,
        held = inc :=
      run_invariant (P := fun t : Taking => ∀ held ∈ t.rows.incarnation, held = inc)
        (fun t e h => by rwa [takeNext_incarnation]) hinc call.entries
    have hlinked := linked_run C src start call.entries
    have hturns : call.EachTurn Joins C inc channel st ↔
        Each (Joins C src) (takeNext C src) start call.entries := by
      constructor
      · exact fun h => h adopted hadopt
      · intro h adopted' heq
        obtain rfl := Except.ok.inj (hadopt.symm.trans heq)
        exact h
    simp only [OfIncarnation, Channels.put_rows, ← hentry]
    exact ⟨hkept, by rw [hturns]; exact hlinked⟩

/-- Over every run of calls on one incarnation, the copy ends one linked history and every
contradiction ended its call, exactly where every entry put into the log joins it and every
contradiction could be seen. -/
theorem linked_history_iff (C : Crypto) (inc channel : Bytes32) (st : Channels)
    (calls : List PullCall) (hone : OfIncarnation inc channel st)
    (hlinked : Linked C (st.rows channel).entry) :
    (Linked C ((run (takeCall C inc channel) st calls).rows channel).entry ∧
      Each (fun st call => call.EachTurn Ends C inc channel st) (takeCall C inc channel) st
        calls) ↔
    Each (fun st call => call.EachTurn Joins C inc channel st ∧
      call.EachTurn Seen C inc channel st) (takeCall C inc channel) st calls := by
  have hends : ∀ (st : Channels) (call : PullCall),
      call.EachTurn Ends C inc channel st ↔ call.EachTurn Seen C inc channel st := by
    intro st call
    unfold PullCall.EachTurn
    simp only [funext fun src => funext fun t => funext fun e => propext (ends_iff_seen C src t e)]
  have hrun : ∀ (calls : List PullCall) (st : Channels), OfIncarnation inc channel st →
      (Linked C ((run (takeCall C inc channel) st calls).rows channel).entry ∧
        Each (fun st call => call.EachTurn Ends C inc channel st) (takeCall C inc channel) st
          calls ↔
      Linked C (st.rows channel).entry ∧
        Each (fun st call => call.EachTurn Joins C inc channel st ∧
          call.EachTurn Seen C inc channel st) (takeCall C inc channel) st calls) := by
    intro calls
    induction calls with
    | nil => simp [Each]
    | cons call calls ih =>
      intro st hone
      obtain ⟨hone', hcall⟩ := takeCall_linked (C := C) hone call
      have hrest := ih _ hone'
      rw [hcall] at hrest
      rw [run_cons, Each, Each, hends]
      tauto
  rw [hrun calls st hone]
  exact and_iff_right hlinked

section Example

def noted (seq : UInt64) (entryHash prevHead : Bytes32) : Entry :=
  receiptedBy 40 seq entryHash prevHead ⟨Event.muted, 60, 60, 60, 0, 0, 0⟩

/-- Channel 9's first entry and its third, and then a second that follows from neither. -/
def holeFilled : List PullCall :=
  let head := advance Crypto.toy headGenesis 11
  let pull := fun entries => PullCall.mk (Crypto.toy.publicKey 40) [] 0 entries (fun _ => none) 5
  [pull [noted 1 11 headGenesis, noted 3 13 (advance Crypto.toy head 12)], pull [noted 2 12 77]]

def holeLog : Log :=
  ((run (takeCall Crypto.toy 8 9) ⟨7, fun _ => .empty⟩ holeFilled).rows 9).entry

theorem ofIncarnation_empty (self : PubKey) (inc channel : Bytes32) :
    OfIncarnation inc channel ⟨self, fun _ => .empty⟩ := by
  intro held h
  simp [Rows.incarnation, Rows.empty] at h

theorem linked_empty (C : Crypto) : Linked C Rows.empty.entry := by
  intro s s' _ below above hbelow
  simp [Rows.empty] at hbelow

theorem holeLog_unlinked : ¬ Linked Crypto.toy holeLog := by
  intro hlinked
  have hfirst : holeLog[(1 : UInt64).toInt64]?.map (·.head) =
      some (advance Crypto.toy headGenesis 11) := by decide +kernel
  have hsecond : holeLog[(2 : UInt64).toInt64]?.map (fun row => (row.head, row.entryHash)) =
      some (advance Crypto.toy 77 12, 12) := by decide +kernel
  obtain ⟨below, hbelow, hhead⟩ := Option.map_eq_some_iff.mp hfirst
  obtain ⟨above, habove, hstamp⟩ := Option.map_eq_some_iff.mp hsecond
  obtain ⟨habovehead, hhash⟩ := Prod.mk.inj hstamp
  have hfollows := hlinked 1 2 rfl below above hbelow habove
  rw [hhead, habovehead, hhash] at hfollows
  exact absurd hfollows (by decide +kernel)

theorem unlinked_copy : ¬ ∀ st calls, OfIncarnation 8 9 st →
    Linked Crypto.toy (st.rows 9).entry →
    Linked Crypto.toy ((run (takeCall Crypto.toy 8 9) st calls).rows 9).entry := by
  intro hall
  exact holeLog_unlinked
    (hall _ holeFilled (ofIncarnation_empty 7 8 9) (linked_empty Crypto.toy))

/-- In that run some entry does not join. -/
theorem hole_not_joined :
    ¬ Each (fun st call => call.EachTurn Joins Crypto.toy 8 9 st ∧
      call.EachTurn Seen Crypto.toy 8 9 st) (takeCall Crypto.toy 8 9) ⟨7, fun _ => .empty⟩
      holeFilled := by
  intro hjoined
  have hiff := linked_history_iff Crypto.toy 8 9 ⟨7, fun _ => .empty⟩ holeFilled
    (ofIncarnation_empty 7 8 9) (linked_empty Crypto.toy)
  exact holeLog_unlinked (hiff.mpr hjoined).1

end Example
end Sqex.Exchange
