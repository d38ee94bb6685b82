import Sqex.Chat.Store
import Sqex.Proto.Agreement
import Sqex.Proto.Timeline

/-! Everything a store files of one channel under one exchange: the conversation, the signed
entries, timers, counters seen, keys and agreements, and the incarnations that ended. -/
namespace Sqex.Chat
open Std

/-- A message as it is kept: no body where it was never opened, and an empty one where it is
gone. -/
structure MessageRow where
  account : PubKey
  posted : UInt64
  kind : UInt8
  plain : Option Bytes
  deriving DecidableEq

/-- A message kept already, read again. What was opened once is not blanked by it. -/
def MessageRow.again (held row : MessageRow) : MessageRow :=
  { held with plain := held.plain <|> row.plain }

abbrev Counter := PubKey × UInt32 × UInt64

/-- What a fold last read of the channel itself. -/
structure MetaRow where
  label : String
  topic : String
  avatar : Option Attachment
  metaSeq : UInt64
  deriving DecidableEq

/-- An incarnation that ended: which it was, the exchange that ordered it, and what was kept. -/
structure Archived where
  generation : UInt64
  inst : Bytes32
  origin : PubKey
  messages : ExtTreeMap Int64 MessageRow
  entries : ExtTreeMap Int64 Entry
  keys : ExtTreeMap UInt32 Bytes32

structure Shelf extends Filed where
  message : ExtTreeMap Int64 MessageRow
  entry : ExtTreeMap Int64 Entry
  timed : ExtTreeMap Int64 UInt64
  seen : Finset Counter
  agreement : Option Agreement.Chain
  commitment : ExtTreeMap Int64 Commit
  contribution : ExtTreeMap UInt32 Bytes32
  channelMeta : Option MetaRow
  history : List Archived

namespace Shelf

def empty : Shelf where
  toFiled := .empty
  message := ∅
  entry := ∅
  timed := ∅
  seen := ∅
  agreement := none
  commitment := ∅
  contribution := ∅
  channelMeta := none
  history := []

section
variable (s : Shelf) (seq : UInt64) (epoch : UInt32)

def putKey (key : Bytes32) : Shelf :=
  { s with channelKey := s.channelKey.insertIfNew epoch key }

/-- Keep an entry as it was served, where none is kept for its number. -/
def putEntry (e : Entry) : Shelf :=
  { s with entry := s.entry.insertIfNew e.seq.toInt64 e }

def recordSeen (c : Counter) : Shelf := { s with seen := insert c s.seen }

def putMessage (row : MessageRow) : Shelf :=
  let kept := (s.message[seq.toInt64]?.map (·.again row)).getD row
  { s with message := s.message.insert seq.toInt64 kept }

def redactMessage : Shelf :=
  match s.message[seq.toInt64]? with
  | none => s
  | some held => { s with message := s.message.insert seq.toInt64 { held with plain := some [] } }

def noteTimer (until_ : UInt64) : Shelf :=
  { s with timed := s.timed.insert seq.toInt64 until_ }

def putCommit (c : Commit) : Shelf :=
  { s with commitment := s.commitment.insertIfNew seq.toInt64 c }

def putContribution (secret : Bytes32) : Shelf :=
  { s with contribution := s.contribution.insertIfNew epoch secret }

def setAgreement (chain : Agreement.Chain) : Shelf := { s with agreement := some chain }

def dropContribution : Shelf :=
  { s with contribution := s.contribution.erase epoch }

def forgetContributionsTo : Shelf :=
  { s with contribution := s.contribution.filter fun e _ => decide (epoch < e) }

/-- Read the channel again from the beginning. -/
def rewind : Shelf :=
  { s with cursor := s.cursor.map fun row => { row with since := 0 } }

def setSince (since : UInt64) : Shelf :=
  let row : CursorRow := match s.cursor with
    | none => ⟨since.toInt64, 0, 0⟩
    | some row =>
      { row with since := if row.since ≤ since.toInt64 then since.toInt64 else row.since }
  { s with cursor := some row }

/-- Keep what a fold read of the channel itself. A fold that read no name keeps the label. -/
def rememberMeta (t : Timeline) : Shelf :=
  if t.metadataSeq = 0 then s
  else match s.channelMeta with
    | none => { s with channelMeta := some ⟨t.name, t.topic, t.avatar, t.metadataSeq⟩ }
    | some row =>
      -- An older fold never overwrites a newer one.
      if row.metaSeq.toInt64 ≤ t.metadataSeq.toInt64 then
        let label := if t.name = "" then row.label else t.name
        { s with channelMeta := some ⟨label, t.topic, t.avatar, t.metadataSeq⟩ }
      else s

/-- What is read from: how far this connection read. -/
def since (s : Shelf) : UInt64 := ((s.cursor.map fun row : CursorRow => row.since).getD 0).toUInt64

/-- Every commit held that names an epoch, in the order the exchange put them in. -/
def commitsAt : List Commit :=
  (s.commitment.toList.map Prod.snd).filter fun c => c.epoch = epoch

def highestCommit : UInt32 :=
  (s.commitment.toList.map fun row => row.2.epoch).foldl max 0

/-- Whether an entry was fetched that could not be opened. -/
def hasUnread : Bool :=
  s.message.toList.any fun row => row.2.plain.isNone

end

end Shelf
end Sqex.Chat
