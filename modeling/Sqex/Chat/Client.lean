import Sqex.Chat.Device
import Sqex.Proto.Credential

/-! The client as its other devices meet it: the signed entries, the ended
incarnations and the attachments it keeps, beside the rows of its store. All of it
is filed under the connection's exchange. -/
namespace Sqex.Chat
open Std

/-- A kept entry's bytes: how many they are, and the entry they read back as. -/
structure KeptEntry where
  wireLen : Nat
  entry : Option Entry
  deriving DecidableEq

/-- An ended incarnation: the exchange that ordered it, its entries and its keys. -/
structure GenerationRow where
  generation : UInt64
  inst : Bytes32
  origin : PubKey
  entryHistory : ExtTreeMap Int64 KeptEntry
  channelKeyHistory : ExtTreeMap UInt32 Bytes32

structure Generation where
  channel : Bytes32
  inst : Bytes32
  origin : PubKey
  first : UInt64
  last : UInt64
  epochs : UInt16
  generation : UInt64
  deriving DecidableEq

structure Held where
  channel : Bytes32
  inst : Bytes32
  first : UInt64
  last : UInt64
  epochs : UInt16
  deriving DecidableEq

structure Client where
  me : PubKey
  device : PubKey
  seed : Bytes32
  store : Store
  entries : ExtTreeMap Bytes32 (ExtTreeMap Int64 KeptEntry)
  generations : ExtTreeMap Bytes32 (List GenerationRow)
  /-- How many messages of a channel are kept unread. -/
  unread : Bytes32 → Nat
  blobs : Bytes32 → Option (List Bytes)
  credential : Option Credential
  /-- An account seed kept from a handover, or entrusted by a sibling. -/
  keptSeed : Option Bytes32
  /-- The exchanges its channels live or lived at, and the earlier keys of those
  and of its own. -/
  elsewhere : List PubKey
  /-- The channels whose home it has been told. -/
  homes : List Bytes32

def spanOf {α : Type} (rows : ExtTreeMap Int64 α) : Option (UInt64 × UInt64) :=
  match rows.toList.head?, rows.toList.getLast? with
  | some first, some last => some (first.1.toUInt64, last.1.toUInt64)
  | _, _ => none

def rowsAfter {α : Type} (rows : ExtTreeMap Int64 α) (since : UInt64) : List (UInt64 × α) :=
  (rows.toList.filter fun row => row.1 > since.toInt64).map fun row => (row.1.toUInt64, row.2)

namespace Client

section
variable (c : Client) (channel : Bytes32) (generation : UInt64)

def entriesOf : ExtTreeMap Int64 KeptEntry :=
  c.entries[channel]?.getD ∅

def entriesAfter (since : UInt64) (max : Nat) :
    List (UInt64 × KeptEntry) := (rowsAfter (c.entriesOf channel) since).take max

def highestEntry : UInt64 :=
  ((spanOf (c.entriesOf channel)).map Prod.snd).getD 0

def entryCount : Nat := (c.entriesOf channel).size

def entryRanges : List (Bytes32 × UInt64 × UInt64) :=
  c.entries.toList.filterMap fun row => (spanOf row.2).map fun span => (row.1, span)

/-- Whether a signed copy of the entry at `seq` is held. -/
def hasEntry (seq : UInt64) : Bool :=
  let before := if seq = 0 then 0 else seq - 1
  ((c.entriesAfter channel before 1).head?.map Prod.fst) == some seq

def incarnation (c : Client) (channel : Bytes32) : Option Bytes32 := c.store.incarnation channel

def keysOf : List (UInt32 × Bytes32) :=
  (c.store.filed c.store.scope channel).channelKey.toList

def generationRows : List GenerationRow :=
  c.generations[channel]?.getD []

def generationRow : Option GenerationRow :=
  (c.generationRows channel).find? fun g => g.generation == generation

def generationOf (inst : Bytes32) : Option UInt64 :=
  ((c.generationRows channel).find? fun g => g.inst == inst).map (·.generation)

def historyEntriesAfter (since : UInt64) : List (UInt64 × KeptEntry) :=
  ((c.generationRow channel generation).map fun g => rowsAfter g.entryHistory since).getD []

def historyKeys : List (UInt32 × Bytes32) :=
  ((c.generationRow channel generation).map (·.channelKeyHistory.toList)).getD []

def hasHistoryEntry (seq : UInt64) : Bool :=
  ((c.generationRow channel generation).map
    fun g => decide (seq.toInt64 ∈ g.entryHistory)).getD false

def newGeneration (inst : Bytes32) (origin : PubKey) : Client × UInt64 :=
  let rows := c.generationRows channel
  let generation := (rows.map (·.generation)).foldl max 0 + 1
  let row : GenerationRow := ⟨generation, inst, origin, ∅, ∅⟩
  ({ c with generations := c.generations.insert channel (rows ++ [row]) }, generation)

def putHistoryKey (epoch : UInt32) (key : Bytes32) : Client :=
  match c.generations[channel]? with
  | none => c
  | some rows =>
    let kept := rows.map fun g =>
      if g.generation = generation then
        { g with channelKeyHistory := g.channelKeyHistory.insertIfNew epoch key }
      else g
    { c with generations := c.generations.insert channel kept }

def putKey (c : Client) (channel : Bytes32) (epoch : UInt32) (key : Bytes32) : Client :=
  { c with store := c.store.putKey channel epoch key }

def rewind (c : Client) (channel : Bytes32) : Client :=
  { c with store := c.store.rewind channel }

def hasUnread : Bool := decide (c.unread channel > 0)

def hasBlob (id : Bytes32) : Bool := (c.blobs id).isSome

/-- What a sibling could be handed: every channel with signed entries held. -/
def heldForSiblings : List Held :=
  c.entryRanges.map fun range =>
    { channel := range.1
      inst := (c.incarnation range.1).getD 0
      first := range.2.1
      last := range.2.2
      epochs := UInt16.ofNat (c.keysOf range.1).length }

/-- The ended incarnations kept. One with no signed entry has nothing a sibling
can verify, and is not offered. -/
def heldGenerations : List Generation :=
  let all := c.generations.toList.flatMap fun row => row.2.map fun g =>
    let span := (spanOf g.entryHistory).getD (0, 0)
    { channel := row.1
      inst := g.inst
      origin := g.origin
      first := span.1
      last := span.2
      epochs := UInt16.ofNat g.channelKeyHistory.size
      generation := g.generation : Generation }
  all.filter fun g => g.last > 0

def knowsExchange (key : PubKey) : Bool :=
  key == c.store.exchange || c.elsewhere.contains key

def accountSeed (C : Crypto) (c : Client) : Option Bytes32 :=
  if c.me = c.device then some c.seed
  else c.keptSeed.filter fun seed => C.publicKey seed == c.me

/-- Keep an account seed a sibling entrusted to this device. -/
def takeAccountSeed (seed : Bytes32) : Client := { c with keptSeed := some seed }

end

end Client

structure ListedDevice where
  device : PubKey
  notAfter : UInt64
  deriving DecidableEq

structure Devices where
  now : UInt64
  devices : List ListedDevice
  deriving DecidableEq

/-- Whether a list names `device` today, and the clock it was read by. An account
with no linked device is its own device. -/
def siblingListed (me device : PubKey) (listed : Devices) : Bool × UInt64 :=
  let found :=
    if listed.devices.isEmpty then device == me
    else listed.devices.any fun d => d.device == device && decide (d.notAfter ≥ listed.now)
  (found, listed.now)

end Sqex.Chat
