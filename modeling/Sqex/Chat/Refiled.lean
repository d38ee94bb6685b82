import Sqex.Chat.Shelves
import Sqex.Lib.Joins

/-! The rows of one exchange filed under another: a handover of its key takes every scoped table
along, and a move of the account home all but chains. -/
namespace Sqex.Chat
open Std Joins

structure PoolRow where
  kind : UInt8
  secret : Option Bytes32
  spent : Bool
  published : Bool
  deriving DecidableEq

/-- Rows of a generation beside those of another of its number. -/
def Archived.joined (b a : Archived) : Archived :=
  { b with
    messages := Joins.joined b.messages a.messages
    entries := Joins.joined b.entries a.entries
    keys := Joins.joined b.keys a.keys }

/-- A generation with the rows that others hold under its number. -/
def Archived.taking (src : List Archived) (b : Archived) : Archived :=
  ((src.find? (·.generation = b.generation)).map b.joined).getD b

def joinedHistory (dst src : List Archived) : List Archived :=
  dst.map (.taking src) ++ src.filter fun a => a.generation ∉ dst.map (·.generation)

namespace Shelf

/-- The rows moved in beside those held. Agreements, commits and contributions are in no list of
tables to move. -/
def joined (dst src : Shelf) (chains : Bool) : Shelf where
  toFiled := dst.toFiled.joined src.toFiled chains
  message := Joins.joined dst.message src.message
  entry := Joins.joined dst.entry src.entry
  timed := Joins.joined dst.timed src.timed
  seen := dst.seen ∪ src.seen
  agreement := dst.agreement
  commitment := dst.commitment
  contribution := dst.contribution
  channelMeta := dst.channelMeta <|> src.channelMeta
  history := joinedHistory dst.history src.history

/-- Without the rows of the tables where a newer copy is as good. -/
def dropped (s : Shelf) : Shelf :=
  { s with
    cursor := none
    message := ∅
    entry := ∅
    timed := ∅
    seen := ∅
    channelMeta := none
    history := [] }

/-- What stays of `src` once its rows moved in with `dst`. -/
def leftBehind (src dst : Shelf) (chains : Bool) : Shelf :=
  { src.dropped with toFiled := src.toFiled.leftBehind dst.toFiled chains }

end Shelf

structure Database where
  shelf : PubKey → Bytes32 → Shelf
  prekey : PubKey → ExtTreeMap UInt32 PoolRow
  claim : Option PubKey
  keyed : ∀ ex channel, ((shelf ex channel).history.map (·.generation)).Nodup

@[simp] theorem Archived.taking_generation (src : List Archived) (b : Archived) :
    (taking src b).generation = b.generation := by
  rw [taking]
  cases src.find? (·.generation = b.generation) <;> rfl

theorem generation_joinedHistory (dst src : List Archived) :
    (joinedHistory dst src).map (·.generation) =
      dst.map (·.generation) ++
        (src.map (·.generation)).filter (· ∉ dst.map (·.generation)) := by
  rw [joinedHistory, List.map_append, List.map_map, List.filter_map]
  congr 1
  exact List.map_congr_left fun b _ => Archived.taking_generation src b

theorem joinedHistory_nodup {dst src : List Archived} (hdst : (dst.map (·.generation)).Nodup)
    (hsrc : (src.map (·.generation)).Nodup) :
    ((joinedHistory dst src).map (·.generation)).Nodup := by
  rw [generation_joinedHistory]
  refine hdst.append (hsrc.filter _) ?_
  intro generation hmem hfree
  exact absurd hmem (by simpa using (List.mem_filter.mp hfree).2)

namespace Database

def refile (db : Database) (src dst : PubKey) (chains : Bool) : Database where
  shelf := fun ex channel =>
    if ex = src then
      if src = dst then (db.shelf src channel).dropped
      else (db.shelf src channel).leftBehind (db.shelf dst channel) chains
    else if ex = dst then (db.shelf dst channel).joined (db.shelf src channel) chains
    else db.shelf ex channel
  prekey := fun ex =>
    if src = dst then db.prekey ex
    else if ex = src then (db.prekey src).filter fun id _ => decide (id ∈ db.prekey dst)
    else if ex = dst then Joins.joined (db.prekey dst) (db.prekey src)
    else db.prekey ex
  claim := db.claim.map fun ex => if ex = src then dst else ex
  keyed := by
    intro ex channel
    split_ifs
    · exact List.nodup_nil
    · exact List.nodup_nil
    · exact joinedHistory_nodup (db.keyed dst channel) (db.keyed src channel)
    · exact db.keyed ex channel

/-- The exchange's key followed another: every scoped table moves with it. -/
def followHandover (db : Database) (src dst : PubKey) : Database := db.refile src dst true

/-- The account moved home: chains stay with the exchanges that order them. -/
def moveHome (db : Database) (src dst : PubKey) : Database := db.refile src dst false

/-- The store as it is opened against an exchange, to ask of channels that another orders. -/
def openedAt (db : Database) (scope origin : PubKey) : Shelves where
  exchange := scope
  homes := fun _ => if origin = scope then none else some origin
  shelf := db.shelf

end Database

structure MessageRow.SaysAs (a b : MessageRow) : Prop where
  account : b.account = a.account
  posted : b.posted = a.posted
  kind : b.kind = a.kind
  plain : ∀ p, a.plain = some p → b.plain = some p

structure Archived.KeptBy (a b : Archived) : Prop where
  generation : b.generation = a.generation
  inst : b.inst = a.inst
  origin : b.origin = a.origin
  messages : Within MessageRow.SaysAs a.messages b.messages
  entries : Within Eq a.entries b.entries
  keys : Within Eq a.keys b.keys

def CountedTo (a b : UInt64 × UInt32) : Prop := a.2 < b.2 ∨ a.2 = b.2 ∧ a.1 ≤ b.1

structure Answers.AsFull (a b : Answers) : Prop where
  messages : Within MessageRow.SaysAs a.messages b.messages
  entries : Within Eq a.entries b.entries
  timers : Within Eq a.timers b.timers
  replay : a.replay ⊆ b.replay
  key : ∀ epoch key, a.key epoch = some key → b.key epoch = some key
  agreement : ∀ chain, a.agreement = some chain → b.agreement = some chain
  commitsAt : ∀ epoch, a.commitsAt epoch ⊆ b.commitsAt epoch
  contribution : ∀ epoch secret, a.contribution epoch = some secret →
    b.contribution epoch = some secret
  since : a.cursor.1 ≤ b.cursor.1
  counter : CountedTo a.cursor.2 b.cursor.2
  chain : a.chain.1 ≤ b.chain.1
  headAfter : ∀ chainSeq head, a.headAfter chainSeq = some head → b.headAfter chainSeq = some head
  history : ∀ a' ∈ a.history, ∃ b' ∈ b.history, a'.KeptBy b'

def followed (src dst ex : PubKey) : PubKey := if ex = src then dst else ex

/-- Whatever was asked under a key is answered as fully under the one it is asked under
afterwards, and so are the keys channels are ordered under. -/
def Database.LosesNothing (db after : Database) (scopeAfter originAfter : PubKey → PubKey) : Prop :=
  (∀ scope origin channel, ((db.openedAt scope origin).answers channel).AsFull
    ((after.openedAt (scopeAfter scope) (originAfter origin)).answers channel)) ∧
  ∀ ex, Within Eq (db.prekey ex) (after.prekey (scopeAfter ex))

namespace Shelf

def counter (s : Shelf) : UInt64 × UInt32 :=
  ((s.cursor.map (·.msgSeq.toUInt64)).getD 0, (s.cursor.map (·.epoch)).getD 0)

def next (s : Shelf) : UInt64 := (s.chain.map (·.chainSeq.toUInt64 + 1)).getD 0

/-- What the connection's exchange filed, no less of it. -/
structure HeldAsFull (a b : Shelf) : Prop where
  messages : Within MessageRow.SaysAs a.message b.message
  entries : Within Eq a.entry b.entry
  timers : Within Eq a.timed b.timed
  replay : a.seen ⊆ b.seen
  key : Within Eq a.channelKey b.channelKey
  agreement : ∀ chain, a.agreement = some chain → b.agreement = some chain
  commitsAt : ∀ epoch, a.commitsAt epoch ⊆ b.commitsAt epoch
  contribution : Within Eq a.contribution b.contribution
  since : a.since ≤ b.since
  history : ∀ a' ∈ a.history, ∃ b' ∈ b.history, a'.KeptBy b'

/-- What is filed under the key that orders the channel, no less of it. -/
structure SignedAsFull (a b : Shelf) : Prop where
  counter : CountedTo a.counter b.counter
  next : a.next ≤ b.next
  heads : Within Eq a.chainLog b.chainLog

end Shelf

theorem within_eq_iff {α β : Type*} {cmp : α → α → Ordering} [TransCmp cmp]
    {t t' : ExtTreeMap α β cmp} :
    Within Eq t t' ↔ ∀ (k : α) (v : β), t[k]? = some v → t'[k]? = some v := by
  simp [Within]

theorem answers_openedAt (db : Database) (scope origin : PubKey) (channel : Bytes32) :
    (db.openedAt scope origin).answers channel =
      { messages := (db.shelf scope channel).message
        entries := (db.shelf scope channel).entry
        timers := (db.shelf scope channel).timed
        replay := (db.shelf scope channel).seen
        key := fun epoch => (db.shelf scope channel).channelKey[epoch]?
        agreement := (db.shelf scope channel).agreement
        commitsAt := (db.shelf scope channel).commitsAt
        highestCommit := (db.shelf scope channel).highestCommit
        contribution := fun epoch => (db.shelf scope channel).contribution[epoch]?
        cursor := ((db.shelf scope channel).since, (db.shelf origin channel).counter)
        chain := ((db.shelf origin channel).next,
          ((db.shelf origin channel).chain.map (·.head)).getD genesis)
        headAfter := fun chainSeq => (db.shelf origin channel).chainLog[chainSeq.toInt64]?
        channelMeta := (db.shelf scope channel).channelMeta
        history := (db.shelf scope channel).history } := by
  have hsigning : (db.openedAt scope origin).store.signingScope channel = origin := by
    by_cases h : origin = scope
    · simp [Store.signingScope, Database.openedAt, Shelves.store, Store.scope, h]
    · simp [Store.signingScope, Database.openedAt, Shelves.store, h]
  have hchain : (db.openedAt scope origin).store.chain channel =
      ((db.shelf origin channel).next,
        ((db.shelf origin channel).chain.map (·.head)).getD genesis) := by
    have hfiled : ((db.openedAt scope origin).store.filed origin channel).chain =
      (db.shelf origin channel).chain := rfl
    rw [Store.chain, hsigning, hfiled, Shelf.next]
    cases (db.shelf origin channel).chain <;> rfl
  have hcursor : (db.openedAt scope origin).store.cursor channel =
      ((db.shelf scope channel).since, (db.shelf origin channel).counter) := by
    rw [Store.cursor, hsigning]
    rfl
  have hheads : (db.openedAt scope origin).store.headAfter channel =
      fun chainSeq => (db.shelf origin channel).chainLog[chainSeq.toInt64]? := by
    funext chainSeq
    rw [Store.headAfter, hsigning]
    rfl
  simp only [Shelves.answers, hchain, hcursor, hheads]
  rfl

theorem openedAt_asFull_iff {db after : Database} {scope origin scope' origin' : PubKey}
    {channel : Bytes32} :
    ((db.openedAt scope origin).answers channel).AsFull
      ((after.openedAt scope' origin').answers channel) ↔
    (db.shelf scope channel).HeldAsFull (after.shelf scope' channel) ∧
      (db.shelf origin channel).SignedAsFull (after.shelf origin' channel) := by
  simp only [answers_openedAt]
  constructor
  · intro h
    refine ⟨⟨h.messages, h.entries, h.timers, h.replay, within_eq_iff.mpr h.key, h.agreement,
      h.commitsAt, within_eq_iff.mpr h.contribution, h.since, h.history⟩, h.counter, h.chain, ?_⟩
    exact within_eq_iff.mpr fun chainSeq head => h.headAfter chainSeq.toUInt64 head
  · rintro ⟨hheld, hsigned⟩
    exact ⟨hheld.messages, hheld.entries, hheld.timers, hheld.replay, within_eq_iff.mp hheld.key,
      hheld.agreement, hheld.commitsAt, within_eq_iff.mp hheld.contribution, hheld.since,
      hsigned.counter, hsigned.next,
      fun chainSeq => within_eq_iff.mp hsigned.heads chainSeq.toInt64, hheld.history⟩

structure Archived.Mergeable (a b : Archived) : Prop where
  inst : b.inst = a.inst
  origin : b.origin = a.origin
  messages : Agree MessageRow.SaysAs b.messages a.messages
  entries : Agree Eq b.entries a.entries
  keys : Agree Eq b.keys a.keys

namespace Shelf

/-- What is filed under one key can move in with what is filed under another. No agreement, commit
or contribution moves: those are there already. -/
structure Mergeable (src dst : Shelf) : Prop where
  messages : Agree MessageRow.SaysAs dst.message src.message
  entries : Agree Eq dst.entry src.entry
  timers : Agree Eq dst.timed src.timed
  key : Agree Eq dst.channelKey src.channelKey
  agreement : ∀ chain, src.agreement = some chain → dst.agreement = some chain
  commitsAt : ∀ epoch, src.commitsAt epoch ⊆ dst.commitsAt epoch
  contribution : Within Eq src.contribution dst.contribution
  since : dst.cursor = none ∨ src.since ≤ dst.since
  history : ∀ a ∈ src.history, ∀ b ∈ dst.history, b.generation = a.generation → a.Mergeable b

/-- What was signed under one key can move in with what was signed under another. -/
structure Continues (src dst : Shelf) : Prop where
  counter : dst.cursor = none ∨ CountedTo src.counter dst.counter
  next : dst.chain = none ∨ src.next ≤ dst.next
  heads : Agree Eq dst.chainLog src.chainLog

/-- Nothing is filed in the tables whose rows may be dropped. -/
structure Disposable (s : Shelf) : Prop where
  messages : s.message = ∅
  entries : s.entry = ∅
  timers : s.timed = ∅
  replay : s.seen = ∅
  since : s.since = 0
  history : s.history = []

end Shelf

theorem MessageRow.SaysAs.refl (row : MessageRow) : row.SaysAs row := ⟨rfl, rfl, rfl, fun _ h => h⟩

theorem Archived.KeptBy.refl (a : Archived) : a.KeptBy a :=
  ⟨rfl, rfl, rfl, .refl MessageRow.SaysAs.refl _, .refl (fun _ => rfl) _, .refl (fun _ => rfl) _⟩

theorem CountedTo.refl (a : UInt64 × UInt32) : CountedTo a a := .inr ⟨rfl, UInt64.le_refl _⟩

theorem CountedTo.zero (a : UInt64 × UInt32) : CountedTo (0, 0) a := by
  unfold CountedTo
  grind

theorem countedTo_zero_iff {a : UInt64 × UInt32} : CountedTo a (0, 0) ↔ a = (0, 0) := by
  unfold CountedTo
  grind

namespace Archived

theorem keptBy_taking {src : List Archived} (b : Archived) : b.KeptBy (taking src b) := by
  rw [taking]
  cases src.find? (·.generation = b.generation) with
  | none => exact .refl b
  | some a =>
    exact ⟨rfl, rfl, rfl, within_joined MessageRow.SaysAs.refl, within_joined fun _ => rfl,
      within_joined fun _ => rfl⟩

theorem taking_of_mem {src : List Archived} (hsrc : (src.map (·.generation)).Nodup) {a b : Archived}
    (ha : a ∈ src) (hnumber : b.generation = a.generation) : taking src b = b.joined a := by
  cases hfound : src.find? (·.generation = b.generation) with
  | none =>
    have hnone := List.find?_eq_none.mp hfound a ha
    simp [hnumber] at hnone
  | some a' =>
    have hsame : a'.generation = a.generation := by
      simpa [hnumber] using List.find?_some hfound
    obtain rfl := List.inj_on_of_nodup_map hsrc (List.mem_of_find?_eq_some hfound) ha hsame
    rw [taking, hfound]
    rfl

theorem keptBy_joined_iff {a b : Archived} (hnumber : b.generation = a.generation) :
    a.KeptBy (b.joined a) ↔ a.Mergeable b := by
  constructor
  · intro h
    exact ⟨h.inst, h.origin, (within_joined_iff MessageRow.SaysAs.refl).mp h.messages,
      (within_joined_iff fun _ => rfl).mp h.entries, (within_joined_iff fun _ => rfl).mp h.keys⟩
  · intro h
    exact ⟨hnumber, h.inst, h.origin, (within_joined_iff MessageRow.SaysAs.refl).mpr h.messages,
      (within_joined_iff fun _ => rfl).mpr h.entries, (within_joined_iff fun _ => rfl).mpr h.keys⟩

end Archived

theorem keptBy_joinedHistory {dst src : List Archived} {b : Archived} (hb : b ∈ dst) :
    ∃ b' ∈ joinedHistory dst src, b.KeptBy b' :=
  ⟨b.taking src, List.mem_append_left _ (List.mem_map_of_mem hb), b.keptBy_taking⟩

theorem keptBy_joinedHistory_iff {dst src : List Archived}
    (hdst : (dst.map (·.generation)).Nodup) (hsrc : (src.map (·.generation)).Nodup) :
    (∀ a ∈ src, ∃ b ∈ joinedHistory dst src, a.KeptBy b) ↔
      ∀ a ∈ src, ∀ b ∈ dst, b.generation = a.generation → a.Mergeable b := by
  refine forall₂_congr fun a ha => ?_
  constructor
  · intro h b hb hnumber
    obtain ⟨b', hb', hkept⟩ := h
    rcases List.mem_append.mp hb' with hheld | hfree
    · obtain ⟨held, hmem, rfl⟩ := List.mem_map.mp hheld
      have hsame : held.generation = b.generation := by
        rw [hnumber, ← hkept.generation, Archived.taking_generation]
      obtain rfl := List.inj_on_of_nodup_map hdst hmem hb hsame
      rw [Archived.taking_of_mem hsrc ha hnumber] at hkept
      exact (Archived.keptBy_joined_iff hnumber).mp hkept
    · -- What is kept beside them has a number of its own.
      have hnumbers : b'.generation ∈ dst.map (·.generation) := by
        rw [hkept.generation, ← hnumber]
        exact List.mem_map_of_mem hb
      exact absurd hnumbers (by simpa using (List.mem_filter.mp hfree).2)
  · intro h
    by_cases hfree : a.generation ∈ dst.map (·.generation)
    · obtain ⟨b, hb, hnumber⟩ := List.mem_map.mp hfree
      refine ⟨_, List.mem_append_left _ (List.mem_map_of_mem hb), ?_⟩
      rw [Archived.taking_of_mem hsrc ha hnumber]
      exact (Archived.keptBy_joined_iff hnumber).mpr (h b hb hnumber)
    · exact ⟨a, List.mem_append_right _ (List.mem_filter.mpr ⟨ha, by simpa using hfree⟩), .refl a⟩

namespace Shelf

theorem HeldAsFull.refl (s : Shelf) : s.HeldAsFull s where
  messages := .refl MessageRow.SaysAs.refl _
  entries := .refl (fun _ => rfl) _
  timers := .refl (fun _ => rfl) _
  replay := subset_rfl
  key := .refl (fun _ => rfl) _
  agreement := fun _ h => h
  commitsAt := fun _ => List.Subset.refl _
  contribution := .refl (fun _ => rfl) _
  since := UInt64.le_refl _
  history := fun a ha => ⟨a, ha, .refl a⟩

theorem SignedAsFull.refl (s : Shelf) : s.SignedAsFull s :=
  ⟨.refl _, UInt64.le_refl _, .refl (fun _ => rfl) _⟩

section
variable (dst src : Shelf) (chains : Bool)

/-- How far a channel was read once rows moved in. -/
theorem since_joined : (dst.joined src chains).since =
    if dst.cursor = none then src.since else dst.since := by
  cases hcursor : dst.cursor <;> simp [since, joined, Filed.joined, hcursor]

theorem counter_joined : (dst.joined src chains).counter =
    if dst.cursor = none then src.counter else dst.counter := by
  cases hcursor : dst.cursor <;> simp [counter, joined, Filed.joined, hcursor]

theorem next_joined : (dst.joined src true).next =
    if dst.chain = none then src.next else dst.next := by
  cases hchain : dst.chain <;> simp [next, joined, Filed.joined, hchain]

theorem heldAsFull_joined : dst.HeldAsFull (dst.joined src chains) where
  messages := within_joined MessageRow.SaysAs.refl
  entries := within_joined fun _ => rfl
  timers := within_joined fun _ => rfl
  replay := Finset.subset_union_left
  key := within_joined fun _ => rfl
  agreement := fun _ h => h
  commitsAt := fun _ => List.Subset.refl _
  contribution := .refl (fun _ => rfl) _
  since := by
    rw [since_joined]
    split_ifs with hnone
    · have hzero : dst.since = 0 := by
        rw [since, hnone]
        rfl
      rw [hzero]
      exact UInt64.le_iff_toNat_le.mpr (Nat.zero_le _)
    · exact UInt64.le_refl _
  history := fun _ hb => keptBy_joinedHistory hb

theorem signedAsFull_joined : dst.SignedAsFull (dst.joined src chains) where
  counter := by
    rw [counter_joined]
    cases hcursor : dst.cursor with
    | none => simpa [counter, hcursor] using CountedTo.zero src.counter
    | some row => exact CountedTo.refl _
  next := by
    cases chains with
    | false => exact UInt64.le_refl _
    | true =>
      rw [next_joined]
      cases hchain : dst.chain <;> simp [next, hchain]
  heads := by
    cases chains with
    | false => exact .refl (fun _ => rfl) _
    | true => exact within_joined fun _ => rfl

end

theorem heldAsFull_joined_iff {dst src : Shelf} (chains : Bool)
    (hdst : (dst.history.map (·.generation)).Nodup)
    (hsrc : (src.history.map (·.generation)).Nodup) :
    src.HeldAsFull (dst.joined src chains) ↔ src.Mergeable dst := by
  have hsince : src.since ≤ (dst.joined src chains).since ↔
      (dst.cursor = none ∨ src.since ≤ dst.since) := by
    rw [since_joined]
    split_ifs with hnone <;> simp [hnone]
  constructor
  · intro h
    exact ⟨(within_joined_iff MessageRow.SaysAs.refl).mp h.messages,
      (within_joined_iff fun _ => rfl).mp h.entries, (within_joined_iff fun _ => rfl).mp h.timers,
      (within_joined_iff fun _ => rfl).mp h.key, h.agreement, h.commitsAt, h.contribution,
      hsince.mp h.since, (keptBy_joinedHistory_iff hdst hsrc).mp h.history⟩
  · intro h
    exact ⟨(within_joined_iff MessageRow.SaysAs.refl).mpr h.messages,
      (within_joined_iff fun _ => rfl).mpr h.entries, (within_joined_iff fun _ => rfl).mpr h.timers,
      Finset.subset_union_right, (within_joined_iff fun _ => rfl).mpr h.key, h.agreement,
      h.commitsAt, h.contribution, hsince.mpr h.since,
      (keptBy_joinedHistory_iff hdst hsrc).mpr h.history⟩

theorem signedAsFull_joined_iff {dst src : Shelf} :
    src.SignedAsFull (dst.joined src true) ↔ src.Continues dst := by
  have hcounter : CountedTo src.counter (dst.joined src true).counter ↔
      (dst.cursor = none ∨ CountedTo src.counter dst.counter) := by
    rw [counter_joined]
    split_ifs with hnone <;> simp [hnone, CountedTo.refl]
  have hnext : src.next ≤ (dst.joined src true).next ↔
      (dst.chain = none ∨ src.next ≤ dst.next) := by
    rw [next_joined]
    split_ifs with hnone <;> simp [hnone]
  constructor
  · intro h
    exact ⟨hcounter.mp h.counter, hnext.mp h.next, (within_joined_iff fun _ => rfl).mp h.heads⟩
  · intro h
    exact ⟨hcounter.mpr h.counter, hnext.mpr h.next, (within_joined_iff fun _ => rfl).mpr h.heads⟩

/-- The rows a move leaves are chains: the counter went with the cursor. -/
theorem signedAsFull_leftBehind_iff {src dst : Shelf} :
    src.SignedAsFull (src.leftBehind dst false) ↔ src.counter = (0, 0) :=
  ⟨fun h => countedTo_zero_iff.mp h.counter,
    fun h => ⟨h ▸ .zero _, UInt64.le_refl _, .refl (fun _ => rfl) _⟩⟩

theorem signedAsFull_dropped_iff {s : Shelf} : s.SignedAsFull s.dropped ↔ s.counter = (0, 0) :=
  ⟨fun h => countedTo_zero_iff.mp h.counter,
    fun h => ⟨h ▸ .zero _, UInt64.le_refl _, .refl (fun _ => rfl) _⟩⟩

theorem heldAsFull_dropped_iff {s : Shelf} : s.HeldAsFull s.dropped ↔ s.Disposable := by
  constructor
  · intro h
    refine ⟨within_empty_iff.mp h.messages, within_empty_iff.mp h.entries,
      within_empty_iff.mp h.timers, Finset.subset_empty.mp h.replay, ?_, ?_⟩
    · exact UInt64.le_antisymm h.since (UInt64.le_iff_toNat_le.mpr (Nat.zero_le _))
    · refine List.eq_nil_iff_forall_not_mem.mpr fun a ha => ?_
      obtain ⟨b, hb, -⟩ := h.history a ha
      exact List.not_mem_nil hb
  · intro h
    exact ⟨within_empty_iff.mpr h.messages, within_empty_iff.mpr h.entries,
      within_empty_iff.mpr h.timers, Finset.subset_empty.mpr h.replay, .refl (fun _ => rfl) _,
      fun _ hchain => hchain, fun _ => List.Subset.refl _, .refl (fun _ => rfl) _,
      h.since ▸ UInt64.le_refl 0, by simp [h.history]⟩

end Shelf

namespace Database
variable (db : Database) (src dst : PubKey)

/-- The questions of two tables are asked of two shelves. -/
theorem losesNothing_iff (after : Database) (scopeAfter originAfter : PubKey → PubKey) :
    db.LosesNothing after scopeAfter originAfter ↔
      (∀ ex channel, (db.shelf ex channel).HeldAsFull (after.shelf (scopeAfter ex) channel)) ∧
      (∀ ex channel, (db.shelf ex channel).SignedAsFull (after.shelf (originAfter ex) channel)) ∧
      ∀ ex, Within Eq (db.prekey ex) (after.prekey (scopeAfter ex)) := by
  simp only [LosesNothing, openedAt_asFull_iff]
  constructor
  · rintro ⟨hshelf, hprekey⟩
    exact ⟨fun ex channel => (hshelf ex ex channel).1, fun ex channel => (hshelf ex ex channel).2,
      hprekey⟩
  · rintro ⟨hheld, hsigned, hprekey⟩
    exact ⟨fun scope origin channel => ⟨hheld scope channel, hsigned origin channel⟩, hprekey⟩

theorem forall_followed_iff {P : PubKey → PubKey → Prop} (hdst : src ≠ dst → P dst dst)
    (hother : ∀ ex, ex ≠ src → ex ≠ dst → P ex ex) :
    (∀ ex, P ex (followed src dst ex)) ↔ P src dst := by
  constructor
  · intro h
    simpa [followed] using h src
  · intro h ex
    by_cases hsrc : ex = src
    · simpa [followed, hsrc] using h
    · rw [followed, if_neg hsrc]
      by_cases hex : ex = dst
      · subst hex
        exact hdst fun heq => hsrc heq.symm
      · exact hother ex hsrc hex

theorem refile_shelf_src (chains : Bool) (channel : Bytes32) :
    (db.refile src dst chains).shelf src channel = if src = dst then (db.shelf src channel).dropped
      else (db.shelf src channel).leftBehind (db.shelf dst channel) chains := by
  simp [refile]

theorem refile_shelf_dst (chains : Bool) (channel : Bytes32) (h : src ≠ dst) :
    (db.refile src dst chains).shelf dst channel =
      (db.shelf dst channel).joined (db.shelf src channel) chains := by
  simp [refile, h.symm]

theorem refile_shelf_other (chains : Bool) {ex : PubKey} (hsrc : ex ≠ src) (hdst : ex ≠ dst) :
    (db.refile src dst chains).shelf ex = db.shelf ex := by
  funext channel
  simp [refile, hsrc, hdst]

theorem held_refile_iff (chains : Bool) :
    (∀ ex channel, (db.shelf ex channel).HeldAsFull
      ((db.refile src dst chains).shelf (followed src dst ex) channel)) ↔
    (src = dst → ∀ channel, (db.shelf src channel).Disposable) ∧
      (src ≠ dst → ∀ channel, (db.shelf src channel).Mergeable (db.shelf dst channel)) := by
  rw [forall_followed_iff src dst (P := fun ex ex' => ∀ channel, (db.shelf ex channel).HeldAsFull
    ((db.refile src dst chains).shelf ex' channel))]
  · by_cases hsame : src = dst
    · subst hsame
      simp only [refile_shelf_src, if_true, Shelf.heldAsFull_dropped_iff]
      simp
    · simp only [refile_shelf_dst db src dst chains _ hsame,
        Shelf.heldAsFull_joined_iff chains (db.keyed dst _) (db.keyed src _)]
      simp [hsame]
  · intro hne channel
    rw [refile_shelf_dst db src dst chains channel hne]
    exact Shelf.heldAsFull_joined _ _ chains
  · intro ex hsrc hdst channel
    rw [refile_shelf_other db src dst chains hsrc hdst]
    exact .refl _

theorem prekey_refile_iff (chains : Bool) :
    (∀ ex, Within Eq (db.prekey ex) ((db.refile src dst chains).prekey (followed src dst ex))) ↔
      (src ≠ dst → Agree Eq (db.prekey dst) (db.prekey src)) := by
  rw [forall_followed_iff src dst (P := fun ex ex' => Within Eq (db.prekey ex)
    ((db.refile src dst chains).prekey ex'))]
  · by_cases hsame : src = dst
    · simpa [refile, hsame] using Within.refl (fun _ => rfl) (db.prekey dst)
    · simp [refile, hsame, Ne.symm hsame, within_joined_iff fun v : PoolRow => (rfl : v = v)]
  · intro hne
    simpa [refile, hne, hne.symm] using within_joined fun v : PoolRow => (rfl : v = v)
  · intro ex hsrc hdst
    simpa [refile, hsrc, hdst] using Within.refl (fun _ => rfl) (db.prekey ex)

theorem signed_followHandover_iff :
    (∀ ex channel, (db.shelf ex channel).SignedAsFull
      ((db.followHandover src dst).shelf (followed src dst ex) channel)) ↔
    (src = dst → ∀ channel, (db.shelf src channel).counter = (0, 0)) ∧
      (src ≠ dst → ∀ channel, (db.shelf src channel).Continues (db.shelf dst channel)) := by
  rw [followHandover, forall_followed_iff src dst (P := fun ex ex' => ∀ channel,
    (db.shelf ex channel).SignedAsFull ((db.refile src dst true).shelf ex' channel))]
  · by_cases hsame : src = dst
    · subst hsame
      simp only [refile_shelf_src, if_true, Shelf.signedAsFull_dropped_iff]
      simp
    · simp only [refile_shelf_dst db src dst true _ hsame, Shelf.signedAsFull_joined_iff]
      simp [hsame]
  · intro hne channel
    rw [refile_shelf_dst db src dst true channel hne]
    exact Shelf.signedAsFull_joined _ _ true
  · intro ex hsrc hdst channel
    rw [refile_shelf_other db src dst true hsrc hdst]
    exact .refl _

theorem signed_moveHome_iff :
    (∀ ex channel, (db.shelf ex channel).SignedAsFull ((db.moveHome src dst).shelf ex channel)) ↔
      ∀ channel, (db.shelf src channel).counter = (0, 0) := by
  have hsrc : ∀ channel, (db.shelf src channel).SignedAsFull
      ((db.moveHome src dst).shelf src channel) ↔ (db.shelf src channel).counter = (0, 0) := by
    intro channel
    rw [moveHome, refile_shelf_src]
    split_ifs
    · exact Shelf.signedAsFull_dropped_iff
    · exact Shelf.signedAsFull_leftBehind_iff
  constructor
  · exact fun h channel => (hsrc channel).mp (h src channel)
  · intro h ex channel
    by_cases hex : ex = src
    · subst hex
      exact (hsrc channel).mpr (h channel)
    · by_cases hdst : ex = dst
      · subst hdst
        rw [moveHome, refile_shelf_dst db src ex false channel (Ne.symm hex)]
        exact Shelf.signedAsFull_joined _ _ false
      · rw [moveHome, refile_shelf_other db src dst false hex hdst]
        exact .refl _

structure Mergeable : Prop where
  held : src ≠ dst → ∀ channel, (db.shelf src channel).Mergeable (db.shelf dst channel)
  prekeys : src ≠ dst → Agree Eq (db.prekey dst) (db.prekey src)
  /-- Rows filed under the key they are filed under already are dropped. -/
  same : src = dst → ∀ channel, (db.shelf src channel).Disposable

end Database

theorem following_loses_nothing (db : Database) (src dst : PubKey) :
    (db.LosesNothing (db.followHandover src dst) (followed src dst) (followed src dst) ↔
      db.Mergeable src dst ∧
        (src ≠ dst → ∀ channel, (db.shelf src channel).Continues (db.shelf dst channel)) ∧
        (src = dst → ∀ channel, (db.shelf src channel).counter = (0, 0))) ∧
    (db.LosesNothing (db.moveHome src dst) (followed src dst) id ↔
      db.Mergeable src dst ∧ ∀ channel, (db.shelf src channel).counter = (0, 0)) := by
  constructor
  · rw [Database.losesNothing_iff, Database.signed_followHandover_iff]
    rw [Database.followHandover, Database.held_refile_iff, Database.prekey_refile_iff]
    constructor
    · rintro ⟨⟨hsame, hheld⟩, ⟨hcounter, hsigned⟩, hprekeys⟩
      exact ⟨⟨hheld, hprekeys, hsame⟩, hsigned, hcounter⟩
    · rintro ⟨⟨hheld, hprekeys, hsame⟩, hsigned, hcounter⟩
      exact ⟨⟨hsame, hheld⟩, ⟨hcounter, hsigned⟩, hprekeys⟩
  · rw [Database.losesNothing_iff]
    simp only [id_eq]
    rw [Database.signed_moveHome_iff]
    rw [Database.moveHome, Database.held_refile_iff, Database.prekey_refile_iff]
    constructor
    · rintro ⟨⟨hsame, hheld⟩, hcounter, hprekeys⟩
      exact ⟨⟨hheld, hprekeys, hsame⟩, hcounter⟩
    · rintro ⟨⟨hheld, hprekeys, hsame⟩, hcounter⟩
      exact ⟨⟨hsame, hheld⟩, hcounter, hprekeys⟩

def agreedStore : Database where
  shelf := fun ex channel =>
    if ex = 1 ∧ channel = 9 then Shelf.empty.setAgreement (Agreement.Chain.create 5) else .empty
  prekey := fun _ => ∅
  claim := none
  keyed := by
    intro ex channel
    split_ifs <;> exact List.nodup_nil

/-- The agreement is under no key the channel is asked for under. -/
theorem following_loses_agreements :
    ¬ agreedStore.LosesNothing (agreedStore.followHandover 1 2) (followed 1 2) (followed 1 2) ∧
    ¬ agreedStore.LosesNothing (agreedStore.moveHome 1 2) (followed 1 2) id := by
  constructor
  · rintro ⟨h, -⟩
    exact absurd ((h 1 1 9).agreement (Agreement.Chain.create 5) rfl) (by decide)
  · rintro ⟨h, -⟩
    exact absurd ((h 1 1 9).agreement (Agreement.Chain.create 5) rfl) (by decide)

end Sqex.Chat
