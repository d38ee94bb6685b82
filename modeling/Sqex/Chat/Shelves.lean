import Sqex.Chat.Fold

/-! A client's store with every table of its channels, under the exchange of this connection and
under those that order the channels that live elsewhere. -/
namespace Sqex.Chat
open Std

namespace Shelf

def known (s : Shelf) : Bytes32 := (s.incarnation.map (·.inst)).getD 0

def nextGeneration (s : Shelf) : UInt64 := (s.history.map (·.generation)).foldl max 0 + 1

/-- Keep the incarnation that ended as the next generation. Nothing held, nothing kept. -/
def archived (s : Shelf) (origin : PubKey) : Shelf :=
  if s.message.isEmpty ∧ s.entry.isEmpty ∧ s.channelKey.isEmpty then s
  else { s with history := s.history ++
    [⟨s.nextGeneration, s.known, origin, s.message, s.entry, s.channelKey⟩] }

def expired (s : Shelf) (now : UInt64) : Shelf :=
  let out := fun seq => s.timed[seq]?.any fun until_ => until_.toInt64 ≤ now.toInt64
  { s with
    message := s.message.filter fun seq _ => !out seq
    entry := s.entry.filter fun seq _ => !out seq
    timed := s.timed.filter fun seq _ => !out seq }

def truncated (s : Shelf) (fork : UInt64) : Shelf :=
  { s with
    message := s.message.filter fun seq _ => decide (seq ≤ fork.toInt64)
    entry := s.entry.filter fun seq _ => decide (seq ≤ fork.toInt64)
    timed := s.timed.filter fun seq _ => decide (seq ≤ fork.toInt64) }

end Shelf

structure Answers where
  messages : ExtTreeMap Int64 MessageRow
  entries : ExtTreeMap Int64 Entry
  timers : ExtTreeMap Int64 UInt64
  replay : Finset Counter
  key : UInt32 → Option Bytes32
  agreement : Option Agreement.Chain
  commitsAt : UInt32 → List Commit
  highestCommit : UInt32
  contribution : UInt32 → Option Bytes32
  cursor : UInt64 × UInt64 × UInt32
  chain : UInt64 × Bytes32
  headAfter : UInt64 → Option Bytes32
  channelMeta : Option MetaRow
  history : List Archived

structure Shelves where
  exchange : PubKey
  /-- The origins of the channels known to live elsewhere. -/
  homes : Bytes32 → Option PubKey
  shelf : PubKey → Bytes32 → Shelf

namespace Shelves

section
variable (s : Shelves) (channel : Bytes32)

/-- The tables counters, chains and keys are read from. -/
def store : Store where
  exchange := s.exchange
  homes := s.homes
  filed := fun ex channel => (s.shelf ex channel).toFiled

def stored (after : Store) : Shelves where
  exchange := after.exchange
  homes := after.homes
  shelf := fun ex channel => { s.shelf ex channel with toFiled := after.filed ex channel }

def scope : PubKey := s.exchange

def signingScope : PubKey := (s.homes channel).getD s.scope

def editAt (ex : PubKey) (channel : Bytes32) (f : Shelf → Shelf) : Shelves :=
  let filed := Function.update (s.shelf ex) channel (f (s.shelf ex channel))
  { s with shelf := Function.update s.shelf ex filed }

/-- A statement on what the connection's exchange filed of a channel. -/
def edit (f : Shelf → Shelf) : Shelves :=
  s.editAt s.scope channel f

def archiveIncarnation : Shelves :=
  s.edit channel (·.archived (s.signingScope channel))

def resetSequenceSpace (s : Shelves) (channel : Bytes32) : Shelves :=
  let s := (s.archiveIncarnation channel).edit channel fun held =>
    { held with message := ∅, entry := ∅, seen := ∅ }
  s.stored (s.store.resetSequenceSpace channel)

/-- Forget what is held above a fork, and put the cursor back to it. -/
def truncateAbove (s : Shelves) (channel : Bytes32) (fork : UInt64) : Shelves :=
  let s := s.edit channel (·.truncated fork)
  s.stored (s.store.truncateAbove channel fork)

/-- Every channel of the connection's exchange is gone through. -/
def expireTimed (now : UInt64) : Shelves :=
  let left := fun channel => (s.shelf s.scope channel).expired now
  { s with shelf := Function.update s.shelf s.scope left }

def answers : Answers :=
  let held := s.shelf s.scope channel
  { messages := held.message
    entries := held.entry
    timers := held.timed
    replay := held.seen
    key := s.store.key channel
    agreement := held.agreement
    commitsAt := held.commitsAt
    highestCommit := held.highestCommit
    contribution := fun epoch => held.contribution[epoch]?
    cursor := s.store.cursor channel
    chain := s.store.chain channel
    headAfter := s.store.headAfter channel
    channelMeta := held.channelMeta
    history := held.history }

end

section
variable (s : Shelves) (ex : PubKey) (channel : Bytes32) (f : Shelf → Shelf)

theorem editAt_shelf (ex' : PubKey) (channel' : Bytes32) :
    (s.editAt ex channel f).shelf ex' channel' =
    if ex' = ex ∧ channel' = channel then f (s.shelf ex channel) else s.shelf ex' channel' := by
  by_cases hex : ex' = ex
  · subst hex
    by_cases hchannel : channel' = channel
    · subst hchannel
      simp [editAt]
    · simp [editAt, hchannel]
  · simp [editAt, hex]

theorem editAt_eq_self (h : f (s.shelf ex channel) = s.shelf ex channel) :
    s.editAt ex channel f = s := by
  simp [editAt, h]

@[simp] theorem editAt_exchange : (s.editAt ex channel f).exchange = s.exchange := rfl

@[simp] theorem editAt_homes : (s.editAt ex channel f).homes = s.homes := rfl

@[simp] theorem reset_exchange : (s.resetSequenceSpace channel).exchange = s.exchange := rfl

@[simp] theorem reset_homes : (s.resetSequenceSpace channel).homes = s.homes := rfl

theorem reset_shelf : (s.resetSequenceSpace channel).shelf s.scope channel =
    { (s.shelf s.scope channel).archived (s.signingScope channel) with
      message := ∅, entry := ∅, seen := ∅, channelKey := ∅, cursor := none, chain := none } := by
  simp [resetSequenceSpace, archiveIncarnation, stored, Store.resetSequenceSpace, Store.put_filed,
    store, edit, editAt_shelf, scope, Store.scope]

theorem reset_shelf_of_ne (h : ex ≠ s.scope) :
    (s.resetSequenceSpace channel).shelf ex channel = s.shelf ex channel := by
  have hex : ex ≠ s.exchange := h
  simp [resetSequenceSpace, archiveIncarnation, stored, Store.resetSequenceSpace, Store.put_filed,
    store, edit, editAt_shelf, scope, Store.scope, hex]

end

end Shelves
end Sqex.Chat
