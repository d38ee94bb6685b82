import Sqex.Lib.Collections
import Sqex.Proto.EntrySig

/-! A client's store: what one device keeps of its channels, filed by exchange.
Most rows are filed under the connection's exchange; counters and chains under
the one that orders the channel. -/
namespace Sqex.Chat
open Std

/-- How far a channel was read, and the last counter recorded, under its epoch. -/
structure CursorRow where
  since : Int64
  msgSeq : Int64
  epoch : UInt32
  deriving DecidableEq

structure ChainRow where
  chainSeq : Int64
  head : Bytes32
  deriving DecidableEq

structure IncarnationRow where
  inst : Bytes32
  announce : Bool
  deriving DecidableEq

/-- A counter row after recording a counter: monotonic within an epoch, and
started again by a higher one. -/
def CursorRow.counted (row : Option CursorRow) (epoch : UInt32) (msgSeq : Int64) : CursorRow :=
  match row with
  | none => ⟨0, msgSeq, epoch⟩
  | some row =>
    let top := if row.msgSeq ≤ msgSeq then msgSeq else row.msgSeq
    { row with
      msgSeq := if epoch > row.epoch then msgSeq else top
      epoch := if row.epoch ≤ epoch then epoch else row.epoch }

/-- A chain row after recording a step: the higher position, with its head. -/
def ChainRow.stepped (row : Option ChainRow) (chainSeq : Int64) (head : Bytes32) : ChainRow :=
  match row with
  | none => ⟨chainSeq, head⟩
  | some row => if chainSeq ≥ row.chainSeq then ⟨chainSeq, head⟩ else row

structure Filed where
  channelKey : ExtTreeMap UInt32 Bytes32
  cursor : Option CursorRow
  chain : Option ChainRow
  chainLog : ExtTreeMap Int64 Bytes32
  incarnation : Option IncarnationRow

def Filed.empty : Filed := ⟨∅, none, none, ∅, none⟩

def Filed.joined (dst src : Filed) (chains : Bool) : Filed where
  channelKey := src.channelKey.toList.foldl (fun t row => t.insertIfNew row.1 row.2)
    dst.channelKey
  cursor := dst.cursor <|> src.cursor
  chain := if chains then dst.chain <|> src.chain else dst.chain
  chainLog := if chains then
      src.chainLog.toList.foldl (fun t row => t.insertIfNew row.1 row.2) dst.chainLog
    else dst.chainLog
  incarnation := if chains then dst.incarnation <|> src.incarnation else dst.incarnation

/-- What stays of `src` once its rows moved into `dst`: of the tables that are not
a newer copy of the same thing, what collided. -/
def Filed.leftBehind (src dst : Filed) (chains : Bool) : Filed where
  channelKey := src.channelKey.filter fun epoch _ => decide (epoch ∈ dst.channelKey)
  cursor := none
  chain := if chains then (if dst.chain.isSome then src.chain else none) else src.chain
  chainLog := if chains then
      src.chainLog.filter fun seq _ => decide (seq ∈ dst.chainLog)
    else src.chainLog
  incarnation := if chains then (if dst.incarnation.isSome then src.incarnation else none)
    else src.incarnation

structure Store where
  exchange : PubKey
  /-- The origins of the channels known to live elsewhere. -/
  homes : Bytes32 → Option PubKey
  filed : PubKey → Bytes32 → Filed

namespace Store

section
variable (s : Store) (src dst ex : PubKey) (channel : Bytes32) (epoch : UInt32) (f : Filed)

def scope : PubKey := s.exchange

def setHome (origin : PubKey) : Store :=
  let note := if s.exchange = origin then none else some origin
  { s with homes := Function.update s.homes channel note }

def signingScope : PubKey :=
  (s.homes channel).getD s.scope

def put : Store :=
  { s with filed := Function.update s.filed ex (Function.update (s.filed ex) channel f) }

theorem put_filed (ex' : PubKey) (channel' : Bytes32) : (s.put ex channel f).filed ex' channel' =
      if ex' = ex ∧ channel' = channel then f else s.filed ex' channel' := by
  by_cases hex : ex' = ex
  · subst hex
    by_cases hchannel : channel' = channel
    · subst hchannel
      simp [put]
    · simp [put, hchannel]
  · simp [put, hex]

@[simp] theorem put_signingScope (channel' : Bytes32) : (s.put ex channel f).signingScope channel' =
      s.signingScope channel' := rfl

def putKey (key : Bytes32) : Store :=
  let f := s.filed s.scope channel
  s.put s.scope channel { f with channelKey := f.channelKey.insertIfNew epoch key }

def key : Option Bytes32 :=
  (s.filed s.scope channel).channelKey[epoch]?

def highestEpoch : UInt32 :=
  ((s.filed s.scope channel).channelKey.toList.getLast?.map Prod.fst).getD 0

def resetSequenceSpace : Store :=
  let f := s.filed s.scope channel
  s.put s.scope channel { f with channelKey := ∅, cursor := none, chain := none }

def cursor (s : Store) (channel : Bytes32) : UInt64 × UInt64 × UInt32 :=
  let since := ((s.filed s.scope channel).cursor.map (·.since)).getD 0
  let counted := (s.filed (s.signingScope channel) channel).cursor
  (since.toUInt64, (counted.map (·.msgSeq.toUInt64)).getD 0, (counted.map (·.epoch)).getD 0)

def rewind : Store :=
  let f := s.filed s.scope channel
  s.put s.scope channel { f with cursor := f.cursor.map fun row => { row with since := 0 } }

def setSince (since : UInt64) : Store :=
  let f := s.filed s.scope channel
  let row : CursorRow := match f.cursor with
    | some row =>
      { row with since := if row.since ≤ since.toInt64 then since.toInt64 else row.since }
    | none => ⟨since.toInt64, 0, 0⟩
  s.put s.scope channel { f with cursor := some row }

def truncateAbove (fork : UInt64) : Store :=
  let f := s.filed s.scope channel
  s.put s.scope channel { f with cursor := f.cursor.map fun row =>
    { row with since := if row.since ≤ fork.toInt64 then row.since else fork.toInt64 } }

def setMsgSeq (msgSeq : UInt64) : Store :=
  let f := s.filed (s.signingScope channel) channel
  s.put (s.signingScope channel) channel
    { f with cursor := some (CursorRow.counted f.cursor epoch msgSeq.toInt64) }

def chain (s : Store) (channel : Bytes32) : UInt64 × Bytes32 :=
  match (s.filed (s.signingScope channel) channel).chain with
  | none => (0, genesis)
  | some row => (row.chainSeq.toUInt64 + 1, row.head)

/-- The head this device computed after taking a position, where it logged one. -/
def headAfter (chainSeq : UInt64) : Option Bytes32 :=
  (s.filed (s.signingScope channel) channel).chainLog[chainSeq.toInt64]?

def resetChain (next : UInt64) (head : Bytes32) : Store :=
  let f := s.filed (s.signingScope channel) channel
  let row := if next = 0 then none else some ⟨(next - 1).toInt64, head⟩
  s.put (s.signingScope channel) channel { f with chain := row }

/-- Record a chain step the exchange accepted. -/
def setChain (chainSeq : UInt64) (head : Bytes32) : Store :=
  let f := s.filed (s.signingScope channel) channel
  s.put (s.signingScope channel) channel
    { f with
      chainLog := f.chainLog.insert chainSeq.toInt64 head
      chain := some (ChainRow.stepped f.chain chainSeq.toInt64 head) }

def incarnation (s : Store) (channel : Bytes32) : Option Bytes32 :=
  (s.filed s.scope channel).incarnation.map (·.inst)

def setIncarnation (inst : Bytes32) (announce : Bool) : Store :=
  let f := s.filed s.scope channel
  s.put s.scope channel { f with incarnation := some ⟨inst, announce⟩ }

/-- File what is held under one key under another. A counter row whose place is
taken is dropped. -/
def refile (chains : Bool) : Store :=
  let filed := fun ex channel =>
    if ex = src then
      if src = dst then { s.filed src channel with cursor := none }
      else (s.filed src channel).leftBehind (s.filed dst channel) chains
    else if ex = dst then (s.filed dst channel).joined (s.filed src channel) chains
    else s.filed ex channel
  { s with filed }

def followHandover : Store := s.refile src dst true

/-- The account moved home: what the connection's exchange filed moves, chains
stay with their origin. -/
def moveHome : Store :=
  { s.refile src dst false with exchange := dst }

/-- Opened again against an exchange, knowing no homes yet. -/
def reopen (exchange : PubKey) : Store := { s with exchange, homes := fun _ => none }

end

end Store
end Sqex.Chat
