import Sqex.Chat.Shelves
import Sqex.Lib.Runs

/-! What a reset of a channel's sequence space leaves: every later run of statements is answered
as on a store nothing of the old incarnation was filed in, or not. -/
namespace Sqex.Chat
open Std

/-- A statement on what the connection's exchange filed of a channel. -/
inductive Write
  | putKey (epoch : UInt32) (key : Bytes32)
  | putEntry (e : Entry)
  | recordSeen (c : Counter)
  | putMessage (seq : UInt64) (row : MessageRow)
  | redactMessage (seq : UInt64)
  | noteTimer (seq until_ : UInt64)
  | putCommit (seq : UInt64) (c : Commit)
  | putContribution (epoch : UInt32) (secret : Bytes32)
  | setAgreement (chain : Agreement.Chain)
  /-- Derive the epochs whose halves are held. -/
  | advanceAgreement
  | rememberMeta (t : Timeline)
  | forgetChannel

def Write.on (C : Crypto) (s : Shelf) : Write → Shelf
  | putKey epoch key => s.putKey epoch key
  | putEntry e => s.putEntry e
  | recordSeen c => s.recordSeen c
  | putMessage seq row => s.putMessage seq row
  | redactMessage seq => s.redactMessage seq
  | noteTimer seq until_ => s.noteTimer seq until_
  | putCommit seq c => s.putCommit seq c
  | putContribution epoch secret => s.putContribution epoch secret
  | setAgreement chain => s.setAgreement chain
  | advanceAgreement => Chat.advanceAgreement C s
  | rememberMeta t => s.rememberMeta t
  | forgetChannel => { s with channelMeta := none }

inductive Act
  | write (channel : Bytes32) (w : Write)
  | setHome (channel : Bytes32) (origin : PubKey)
  | setIncarnation (channel inst : Bytes32) (announce : Bool)
  | setMsgSeq (channel : Bytes32) (epoch : UInt32) (msgSeq : UInt64)
  | setChain (channel : Bytes32) (chainSeq : UInt64) (head : Bytes32)
  | resetChain (channel : Bytes32) (next : UInt64) (head : Bytes32)
  | rewind (channel : Bytes32)
  | setSince (channel : Bytes32) (since : UInt64)
  | truncateAbove (channel : Bytes32) (fork : UInt64)
  | expireTimed (now : UInt64)
  | reset (channel : Bytes32)

namespace Shelves

def act (C : Crypto) (s : Shelves) : Act → Shelves
  | .write channel w => s.edit channel (w.on C ·)
  | .setHome channel origin => s.stored (s.store.setHome channel origin)
  | .setIncarnation channel inst announce => s.stored (s.store.setIncarnation channel inst announce)
  | .setMsgSeq channel epoch msgSeq => s.stored (s.store.setMsgSeq channel epoch msgSeq)
  | .setChain channel chainSeq head => s.stored (s.store.setChain channel chainSeq head)
  | .resetChain channel next head => s.stored (s.store.resetChain channel next head)
  | .rewind channel => s.stored (s.store.rewind channel)
  | .setSince channel since => s.stored (s.store.setSince channel since)
  | .truncateAbove channel fork => s.truncateAbove channel fork
  | .expireTimed now => s.expireTimed now
  | .reset channel => s.resetSequenceSpace channel

end Shelves

/-- Without timers, commits, secrets and agreement, and under a name of no number. -/
def Shelf.unkeyed (s : Shelf) : Shelf :=
  { s with
    timed := ∅
    agreement := none
    commitment := ∅
    contribution := ∅
    channelMeta := s.channelMeta.map fun row => { row with metaSeq := 0 } }

def Shelf.unsigned (s : Shelf) : Shelf :=
  { s with
    chain := none
    chainLog := ∅
    cursor := s.cursor.map fun row => { row with msgSeq := 0, epoch := 0 } }

namespace Shelves

def startedOver (s : Shelves) (channel : Bytes32) : Shelves :=
  ((s.resetSequenceSpace channel).edit channel Shelf.unkeyed).editAt (s.signingScope channel)
    channel Shelf.unsigned

def LeavesNothing (s : Shelves) (C : Crypto) (channel : Bytes32) : Prop :=
  ∀ later : List Act,
    (Runs.run (act C) (s.resetSequenceSpace channel) later).answers channel =
      (Runs.run (act C) (s.startedOver channel) later).answers channel

end Shelves

/-- How many of the generations kept of an incarnation hold a row. -/
def generationsWith (history : List Archived) (inst : Bytes32) (holds : Archived → Bool) : Nat :=
  history.countP fun a => a.inst = inst && holds a

def Shelf.Kept (s : Shelf) (history : List Archived) (n : Nat) : Prop :=
  (∀ (seq : Int64) (row : MessageRow), s.message[seq]? = some row →
    generationsWith history s.known (fun a => a.messages[seq]? == some row) = n) ∧
  (∀ (seq : Int64) (e : Entry), s.entry[seq]? = some e →
    generationsWith history s.known (fun a => a.entries[seq]? == some e) = n) ∧
  ∀ (epoch : UInt32) (key : Bytes32), s.channelKey[epoch]? = some key →
    generationsWith history s.known (fun a => a.keys[epoch]? == some key) = n

structure Shelves.Bare (s : Shelves) (channel : Bytes32) : Prop where
  timed : (s.shelf s.scope channel).timed = ∅
  agreement : (s.shelf s.scope channel).agreement = none
  commitment : (s.shelf s.scope channel).commitment = ∅
  contribution : (s.shelf s.scope channel).contribution = ∅
  metaSeq : ∀ row, (s.shelf s.scope channel).channelMeta = some row → row.metaSeq = 0
  chainLog : (s.shelf (s.signingScope channel) channel).chainLog = ∅
  /-- The chain and the counter of a channel that lives elsewhere are not under this key. -/
  away : s.signingScope channel ≠ s.scope →
    (s.shelf (s.signingScope channel) channel).chain = none ∧
      ∀ row, (s.shelf (s.signingScope channel) channel).cursor = some row →
        row.msgSeq = 0 ∧ row.epoch = 0

section
variable {C : Crypto} (s : Shelves) (channel : Bytes32)

theorem Shelf.archived_eq (s : Shelf) (origin : PubKey) :
    s.archived origin = { s with history := (s.archived origin).history } := by
  rw [archived]
  split_ifs <;> rfl

theorem MetaRow.unnumbered_iff {row : MetaRow} :
    row = { row with metaSeq := 0 } ↔ row.metaSeq = 0 := by
  cases row
  simp

theorem CursorRow.uncounted_iff {row : CursorRow} :
    row = { row with msgSeq := 0, epoch := 0 } ↔ row.msgSeq = 0 ∧ row.epoch = 0 := by
  cases row
  simp

theorem Shelf.unkeyed_eq_self {s : Shelf} (htimed : s.timed = ∅) (hagreement : s.agreement = none)
    (hcommit : s.commitment = ∅) (hcontribution : s.contribution = ∅)
    (hmeta : ∀ row, s.channelMeta = some row → row.metaSeq = 0) : s.unkeyed = s := by
  have hnamed : s.channelMeta.map (fun row => { row with metaSeq := 0 }) = s.channelMeta := by
    cases hrow : s.channelMeta with
    | none => rfl
    | some row => exact congrArg some (MetaRow.unnumbered_iff.mpr (hmeta row hrow)).symm
  rw [unkeyed, hnamed, ← htimed, ← hagreement, ← hcommit, ← hcontribution]

theorem Shelf.unsigned_eq_self {s : Shelf} (hchain : s.chain = none) (hlog : s.chainLog = ∅)
    (hcount : ∀ row, s.cursor = some row → row.msgSeq = 0 ∧ row.epoch = 0) : s.unsigned = s := by
  have hcursor : s.cursor.map (fun row => { row with msgSeq := 0, epoch := 0 }) = s.cursor := by
    cases hrow : s.cursor with
    | none => rfl
    | some row => exact congrArg some (CursorRow.uncounted_iff.mpr (hcount row hrow)).symm
  rw [unsigned, hcursor, ← hchain, ← hlog]

theorem Shelf.commitment_eq_empty {s : Shelf} (h : ∀ epoch, s.commitsAt epoch = []) :
    s.commitment = ∅ := by
  apply ExtTreeMap.ext_getElem?
  intro seq
  cases hrow : s.commitment[seq]? with
  | none => simp
  | some c =>
    have hmem : c ∈ s.commitsAt c.epoch := by
      simp only [commitsAt, List.mem_filter, List.mem_map, decide_true, and_true]
      exact ⟨(seq, c), ExtTreeMap.mem_toList_iff_getElem?_eq_some.mpr hrow, rfl⟩
    simp [h] at hmem

namespace Shelves

theorem startedOver_here : (s.startedOver channel).shelf s.scope channel =
    if s.scope = s.signingScope channel then
      ((s.resetSequenceSpace channel).shelf s.scope channel).unkeyed.unsigned
    else ((s.resetSequenceSpace channel).shelf s.scope channel).unkeyed := by
  by_cases haway : s.scope = s.signingScope channel
  · simp [startedOver, edit, editAt_shelf, ← haway, scope]
  · have hne : s.exchange ≠ s.signingScope channel := haway
    simp [startedOver, edit, editAt_shelf, scope, hne]

theorem startedOver_signing : (s.startedOver channel).shelf (s.signingScope channel) channel =
    (((s.resetSequenceSpace channel).edit channel Shelf.unkeyed).shelf (s.signingScope channel)
      channel).unsigned := by
  simp [startedOver, editAt_shelf]

theorem answers_startedOver : ((s.startedOver channel).answers channel).timers = ∅ ∧
    ((s.startedOver channel).answers channel).agreement = none ∧
    (∀ epoch, ((s.startedOver channel).answers channel).commitsAt epoch = []) ∧
    (∀ epoch, ((s.startedOver channel).answers channel).contribution epoch = none) ∧
    ∀ row, ((s.startedOver channel).answers channel).channelMeta = some row →
      row.metaSeq = 0 := by
  have hscope : (s.startedOver channel).scope = s.scope := rfl
  have hnamed : ∀ (held : Shelf) row, held.unkeyed.channelMeta = some row → row.metaSeq = 0 := by
    intro held row hrow
    simp only [Shelf.unkeyed, Option.map_eq_some_iff] at hrow
    obtain ⟨held, -, rfl⟩ := hrow
    rfl
  simp only [answers, hscope, startedOver_here]
  split_ifs
  · exact ⟨rfl, rfl, fun epoch => rfl, fun epoch => rfl, fun row hrow => hnamed _ row hrow⟩
  · exact ⟨rfl, rfl, fun epoch => rfl, fun epoch => rfl, fun row hrow => hnamed _ row hrow⟩

theorem signed_startedOver : (s.startedOver channel).store.chain channel = (0, genesis) ∧
    ((s.startedOver channel).store.cursor channel).2 = (0, 0) ∧
    (∀ chainSeq, (s.startedOver channel).store.headAfter channel chainSeq = none) := by
  have hscope : (s.startedOver channel).store.signingScope channel = s.signingScope channel := rfl
  have hfiled : (s.startedOver channel).store.filed (s.signingScope channel) channel =
      ((s.startedOver channel).shelf (s.signingScope channel) channel).toFiled := rfl
  simp only [Store.chain, Store.cursor, Store.headAfter, hscope, hfiled, startedOver_signing,
    Shelf.unsigned]
  refine ⟨trivial, ?_, fun chainSeq => rfl⟩
  cases (((s.resetSequenceSpace channel).edit channel Shelf.unkeyed).shelf (s.signingScope channel)
    channel).cursor <;> rfl

theorem reset_signing :
    ((s.resetSequenceSpace channel).shelf (s.signingScope channel) channel).chainLog =
      (s.shelf (s.signingScope channel) channel).chainLog ∧
    (s.signingScope channel = s.scope →
      ((s.resetSequenceSpace channel).shelf (s.signingScope channel) channel).chain = none ∧
      ((s.resetSequenceSpace channel).shelf (s.signingScope channel) channel).cursor = none) ∧
    (s.signingScope channel ≠ s.scope →
      (s.resetSequenceSpace channel).shelf (s.signingScope channel) channel =
        s.shelf (s.signingScope channel) channel) := by
  by_cases hhere : s.signingScope channel = s.scope
  · rw [hhere, reset_shelf, Shelf.archived_eq]
    simp
  · simp [reset_shelf_of_ne _ _ _ hhere, hhere]

theorem Bare.startedOver {s : Shelves} {channel : Bytes32} (h : s.Bare channel) :
    s.startedOver channel = s.resetSequenceSpace channel := by
  have hunkeyed : (s.resetSequenceSpace channel).edit channel Shelf.unkeyed =
      s.resetSequenceSpace channel := by
    apply editAt_eq_self
    rw [show (s.resetSequenceSpace channel).scope = s.scope from rfl, reset_shelf,
      Shelf.archived_eq]
    exact Shelf.unkeyed_eq_self h.timed h.agreement h.commitment h.contribution h.metaSeq
  obtain ⟨hlog, hhere, haway⟩ := reset_signing s channel
  rw [Shelves.startedOver, hunkeyed]
  apply editAt_eq_self
  by_cases hsigning : s.signingScope channel = s.scope
  · obtain ⟨hchain, hcursor⟩ := hhere hsigning
    exact Shelf.unsigned_eq_self hchain (hlog.trans h.chainLog) (by simp [hcursor])
  · obtain ⟨hchain, hcount⟩ := h.away hsigning
    rw [haway hsigning]
    exact Shelf.unsigned_eq_self hchain h.chainLog hcount

theorem answers_reset :
    ((s.resetSequenceSpace channel).answers channel).timers = (s.shelf s.scope channel).timed ∧
    ((s.resetSequenceSpace channel).answers channel).agreement =
      (s.shelf s.scope channel).agreement ∧
    ((s.resetSequenceSpace channel).answers channel).commitsAt =
      (s.shelf s.scope channel).commitsAt ∧
    (∀ epoch, ((s.resetSequenceSpace channel).answers channel).contribution epoch =
      (s.shelf s.scope channel).contribution[epoch]?) ∧
    ((s.resetSequenceSpace channel).answers channel).channelMeta =
      (s.shelf s.scope channel).channelMeta := by
  have hscope : (s.resetSequenceSpace channel).scope = s.scope := rfl
  simp only [answers, hscope, reset_shelf]
  rw [Shelf.archived_eq]
  exact ⟨rfl, rfl, rfl, fun epoch => rfl, rfl⟩

theorem chain_setChain (chainSeq : UInt64) (head : Bytes32) :
    (s.act C (.setChain channel chainSeq head)).store.chain channel =
      ((ChainRow.stepped (s.shelf (s.signingScope channel) channel).chain chainSeq.toInt64
        head).chainSeq.toUInt64 + 1,
      (ChainRow.stepped (s.shelf (s.signingScope channel) channel).chain chainSeq.toInt64
        head).head) := by
  have hstore : (s.act C (.setChain channel chainSeq head)).store =
    s.store.setChain channel chainSeq head := rfl
  rw [hstore]
  simp only [Store.chain, Store.setChain, Store.put_signingScope, Store.put_filed, and_self,
    if_true]
  rfl

section
variable {s channel}

theorem chain_of_row {row : ChainRow}
    (h : (s.shelf (s.signingScope channel) channel).chain = some row) :
    s.store.chain channel = (row.chainSeq.toUInt64 + 1, row.head) := by
  have hfiled : s.store.filed (s.store.signingScope channel) channel =
    (s.shelf (s.signingScope channel) channel).toFiled := rfl
  simp only [Store.chain, hfiled, h]

theorem cursor_of_row {row : CursorRow}
    (h : (s.shelf (s.signingScope channel) channel).cursor = some row) :
    (s.store.cursor channel).2 = (row.msgSeq.toUInt64, row.epoch) := by
  have hfiled : s.store.filed (s.store.signingScope channel) channel =
    (s.shelf (s.signingScope channel) channel).toFiled := rfl
  simp only [Store.cursor, hfiled, h]
  rfl

end

theorem chain_none_of_leavesNothing (h : s.LeavesNothing C channel) :
    ((s.resetSequenceSpace channel).shelf (s.signingScope channel) channel).chain = none := by
  cases hchain : ((s.resetSequenceSpace channel).shelf (s.signingScope channel) channel).chain with
  | none => rfl
  | some row =>
    have hread : (s.resetSequenceSpace channel).store.chain channel = (0, genesis) :=
      (congrArg Answers.chain (h [])).trans (signed_startedOver s channel).1
    obtain ⟨hlast, hhead⟩ := Prod.mk.inj ((chain_of_row hchain).symm.trans hread)
    have hseq : row.chainSeq = -1 := by
      have hlast : row.chainSeq.toUInt64 = -1 := by grind
      exact congrArg UInt64.toInt64 hlast
    -- The row that reads as no chain at all is the one no lower step gets past.
    have hsigned := congrArg Answers.chain (h [.setChain channel 9223372036854775808 genesis])
    have hreset := chain_setChain (s.resetSequenceSpace channel) channel (C := C)
      9223372036854775808 genesis
    have hfresh := chain_setChain (s.startedOver channel) channel (C := C)
      9223372036854775808 genesis
    have hnone : ((s.startedOver channel).shelf (s.signingScope channel) channel).chain = none := by
      rw [startedOver_signing]
      rfl
    have hbelow : ¬ UInt64.toInt64 9223372036854775808 ≥ -1 := by decide
    have hsame := hreset.symm.trans (hsigned.trans hfresh)
    simp only [show (s.resetSequenceSpace channel).signingScope channel = s.signingScope channel
      from rfl, show (s.startedOver channel).signingScope channel = s.signingScope channel from rfl,
      hchain, hnone, ChainRow.stepped, hseq, if_neg hbelow] at hsame
    have hnext : (-1 : Int64).toUInt64 + 1 = (UInt64.toInt64 9223372036854775808).toUInt64 + 1 :=
      congrArg Prod.fst hsame
    exact absurd hnext (by decide)

theorem leavesNothing_iff : s.LeavesNothing C channel ↔ s.Bare channel := by
  constructor
  · intro h
    have hnow : (s.resetSequenceSpace channel).answers channel =
      (s.startedOver channel).answers channel := h []
    obtain ⟨htimers, hagreement, hcommits, hsecrets, hmeta⟩ := answers_startedOver s channel
    obtain ⟨-, hcounted, hheads⟩ := signed_startedOver s channel
    obtain ⟨htimed, hagreed, hcommitted, hsecret, hnamed⟩ := answers_reset s channel
    obtain ⟨hlog, -, haway⟩ := reset_signing s channel
    refine ⟨?_, ?_, ?_, ?_, ?_, ?_, ?_⟩
    · rw [← htimed, hnow, htimers]
    · rw [← hagreed, hnow, hagreement]
    · apply Shelf.commitment_eq_empty
      intro epoch
      rw [← hcommitted, hnow, hcommits]
    · apply ExtTreeMap.ext_getElem?
      intro epoch
      rw [← hsecret, hnow, hsecrets, ExtTreeMap.getElem?_empty]
    · rw [← hnamed, hnow]
      exact hmeta
    · rw [← hlog]
      apply ExtTreeMap.ext_getElem?
      intro chainSeq
      have hhead := congrFun (congrArg Answers.headAfter hnow) chainSeq.toUInt64
      exact hhead.trans (hheads chainSeq.toUInt64)
    · intro hsigning
      have hchain := chain_none_of_leavesNothing s channel h
      have hcursor : ((s.resetSequenceSpace channel).store.cursor channel).2 = (0, 0) :=
        (congrArg (fun a => a.cursor.2) hnow).trans hcounted
      rw [haway hsigning] at hchain
      refine ⟨hchain, fun row hrow => ?_⟩
      rw [← haway hsigning] at hrow
      obtain ⟨hmsg, hepoch⟩ := Prod.mk.inj ((cursor_of_row hrow).symm.trans hcursor)
      exact ⟨congrArg UInt64.toInt64 hmsg, hepoch⟩
  · intro h later
    rw [h.startedOver]

end Shelves

theorem Shelf.generationsWith_archived {s : Shelf} (origin : PubKey)
    (hheld : ¬ (s.message.isEmpty ∧ s.entry.isEmpty ∧ s.channelKey.isEmpty))
    {holds : Archived → Bool} (hnew : holds
      ⟨s.nextGeneration, s.known, origin, s.message, s.entry, s.channelKey⟩ = true) :
    generationsWith (s.archived origin).history s.known holds =
      generationsWith s.history s.known holds + 1 := by
  rw [archived, if_neg hheld]
  simp [generationsWith, List.countP_append, hnew]

theorem Shelf.kept_archived {s : Shelf} (origin : PubKey) :
    s.Kept (s.archived origin).history 1 ↔ s.Kept s.history 0 := by
  have hmore : ∀ {holds : Archived → Bool},
      ¬ (s.message.isEmpty ∧ s.entry.isEmpty ∧ s.channelKey.isEmpty) →
      holds ⟨s.nextGeneration, s.known, origin, s.message, s.entry, s.channelKey⟩ = true →
      (generationsWith (s.archived origin).history s.known holds = 1 ↔
        generationsWith s.history s.known holds = 0) := by
    intro holds hheld hnew
    rw [generationsWith_archived origin hheld hnew]
    omega
  refine and_congr (forall₃_congr fun seq row hrow => ?_)
    (and_congr (forall₃_congr fun seq e he => ?_) (forall₃_congr fun epoch key hkey => ?_))
  · apply hmore
    · intro hempty
      simp [ExtTreeMap.isEmpty_iff.mp hempty.1] at hrow
    · simpa using hrow
  · apply hmore
    · intro hempty
      simp [ExtTreeMap.isEmpty_iff.mp hempty.2.1] at he
    · simpa using he
  · apply hmore
    · intro hempty
      simp [ExtTreeMap.isEmpty_iff.mp hempty.2.2] at hkey
    · simpa using hkey

end

/-- What a reset is for: nothing of the old incarnation is left, and what was read of it is kept
once. -/
def Shelves.StartsOver (s : Shelves) (C : Crypto) (channel : Bytes32) : Prop :=
  s.LeavesNothing C channel ∧
    (s.shelf s.scope channel).Kept ((s.resetSequenceSpace channel).shelf s.scope channel).history 1

theorem reset_starts_over (C : Crypto) (s : Shelves) (channel : Bytes32) :
    s.StartsOver C channel ↔ s.Bare channel ∧
      (s.shelf s.scope channel).Kept (s.shelf s.scope channel).history 0 := by
  rw [Shelves.StartsOver, Shelves.leavesNothing_iff, Shelves.reset_shelf]
  exact and_congr_right fun _ => Shelf.kept_archived _

/-- Message 3 of the old incarnation was to go at 100, and message 3 of the new one goes then. -/
theorem reset_goes_early : ¬ Shelves.StartsOver
    ⟨1, fun _ => none, fun _ _ => Shelf.empty.noteTimer 3 100⟩ Crypto.toy 9 := by
  rintro ⟨h, -⟩
  have hread := congrArg (fun a : Answers => a.messages[(3 : Int64)]?)
    (h [.write 9 (.putMessage 3 ⟨2, 50, kindMember, some [7]⟩), .expireTimed 100])
  exact absurd hread (by decide +kernel)

end Sqex.Chat
