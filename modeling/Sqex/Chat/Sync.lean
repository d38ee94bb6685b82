import Mathlib.Data.Finset.Union
import Sqex.Chat.Client
import Sqex.Lib.Runs
import Sqex.Proto.Timeline

/-! History between one's own devices: two devices of one account hand each other what each holds,
over a session the exchange carries and cannot read. The stream of frames is taken a message at a
time: a message stays in the outbox until the link has taken its last frame, and the inbox holds
what the bytes that arrived come to. -/
namespace Sqex.Chat
open Std
namespace Sync

def pageSize : Nat := 256
def pageBytes : Nat := 1024 * 1024

inductive Message where
  | hello (account : PubKey) (credential : Option Credential)
  | have' (held : List Held)
  /-- Everything wanted, in one message: `since` is the highest seq held. -/
  | want (wants : List (Bytes32 × UInt64))
  | entries (channel inst : Bytes32) (entries : List Entry)
  | keys (channel : Bytes32) (keys : List (UInt32 × Bytes32))
  | blob (id : Bytes32) (chunk of : UInt32) (bytes : Bytes)
  | done
  /-- The account's seed, given to a sibling the person named. -/
  | key (seed : Bytes32)
  | earlier (rows : List Generation)
  | wantEarlier (wants : List (Bytes32 × Bytes32 × UInt64))
  | keysOf (channel inst : Bytes32) (keys : List (UInt32 × Bytes32))

structure Answers where
  devices : Except String Devices
  info : Except String ChannelInfo
  /-- The members' credentials, where the exchange told them. -/
  bindings : Option (List Credential)

/-- What the bytes of the stream come to, a length at a time. -/
inductive Arrival where
  | message (m : Message) (a : Answers)
  | malformed (text : String)
  | tooLong (len : Nat)

inductive Phase where
  | greeting | listing | trading | finished | failed
  deriving DecidableEq

/-- What a sync did, for the person: counted, not narrated. -/
structure Progress where
  entriesIn : Nat
  messagesIn : Nat
  entriesOut : Nat
  keysIn : Nat
  blobsIn : Nat
  channelsIn : Finset Bytes32

structure Owed where
  channel : Bytes32
  since : UInt64
  generation : Option (UInt64 × Bytes32)
  deriving DecidableEq

end Sync
open Sync

structure Sync where
  /-- The key the session was opened to: who the credential must name. -/
  peer : PubKey
  phase : Phase
  why : Option String
  progress : Progress
  outbox : List Sync.Message
  inbox : List Arrival
  owed : List Owed
  keyed : Finset (Bytes32 × Option UInt64)
  offered : List Generation
  asked : Bytes32 × Bytes32 → Option PubKey
  gotHave : Bool
  gotWant : Bool
  sentDone : Bool
  /-- The account key to give this sibling, because the person said so here. -/
  entrust : Option Bytes32
  entrusted : Bool
  gaveKey : Bool
  gotDone : Bool
  timelines : Bytes32 → Timeline
  /-- Blobs named by imported entries and not held. -/
  blobsWanted : Finset Bytes32
  blobParts : Bytes32 → Option (List (Option Bytes))

namespace Sync

/-- Begin, with the session agreed for the sibling at `peer`. -/
def new (peer : PubKey) : Sync where
  peer := peer
  phase := .greeting
  why := none
  progress := ⟨0, 0, 0, 0, 0, ∅⟩
  outbox := []
  inbox := []
  owed := []
  keyed := ∅
  offered := []
  asked := fun _ => none
  gotHave := false
  gotWant := false
  sentDone := false
  entrust := none
  entrusted := false
  gaveKey := false
  gotDone := false
  timelines := fun _ => .new
  blobsWanted := ∅
  blobParts := fun _ => none

section
variable (s : Sync) (c : Client) (o : Owed) (C : Crypto) (W : World) (m : Message)
  (id channel inst : Bytes32) (origin : PubKey) (entries : List Entry) (a : Answers)

def fail (why : String) : Sync :=
  { s with phase := .failed, why := some why, outbox := [] }

def offer (g : Generation) : Sync :=
  let others := s.offered.filter fun o => o.channel != g.channel || o.inst != g.inst
  { s with offered := others ++ [g] }

def ask (g : Generation) : Sync :=
  { s with asked := Function.update s.asked (g.channel, g.inst) (some g.origin) }

inductive Event where
  | took (sync : Sync) (client : Client) (m : Message) (a : Answers)
  | served (now : UInt64) (sync : Sync) (client : Client) (owed : Owed)
  | queued (m : Message)
  | wrote (before after : Client)

structure Syncing where
  sync : Sync
  client : Client
  /-- The history, the newest first. Nothing the sync does reads it. -/
  history : List Event

abbrev SyncM := Call String Syncing

/-- What a sync rests on and is not read here: the cryptography, the order a hash
map is walked in, and what the client makes of entries and attachments. -/
structure World where
  crypto : Crypto
  order : IterOrder Generation
  /-- Where a channel lives, with what follows from it for what is held: the home is
  filed, and what a former origin ordered past its regime is dropped. -/
  home : Bytes32 → Answers → Call String Client Unit
  /-- Entries of the live incarnation, verified, folded into the timeline and kept. -/
  foldEntries : Timeline → Bytes32 → ChannelInfo → List Entry → Answers →
    Call String Client Timeline
  /-- Entries of a generation, verified and kept: how many were new. -/
  keepEarlier : Bytes32 → UInt64 → Bytes32 → PubKey → List Entry → Answers →
    Call String Client Nat
  /-- The attachments an entry names, read through the live keys or a generation's. -/
  blobsNamed : Client → Bytes32 → Option UInt64 → Entry → List Bytes32
  keepBlob : Client → Bytes32 → List Bytes → Client

def blobContext : Bytes := "sqex-blob-v1".toUTF8.toList

def blobId (sealedChunks : List Bytes) : Bytes32 :=
  C.sha256 (blobContext ++ sealedChunks.flatten)

def answered {α : Type} : Except String α → SyncM α
  | .ok a => pure a
  | .error e => Call.fail e

def update (f : Sync → Sync) : SyncM Unit := Call.modify fun s => { s with sync := f s.sync }

def failed (why : String) : SyncM Unit := update fun y => y.fail why

def note (e : Syncing → Event) : SyncM Unit :=
  Call.modify fun s => { s with history := e s :: s.history }

def queue : SyncM Unit := do
  update fun y => { y with outbox := y.outbox ++ [m] }
  note fun _ => .queued m

def calling {α : Type} (m : Call String Client α) : SyncM α := fun s =>
  (m.result s.client,
    { s with
      client := m.after s.client
      history := .wrote s.client (m.after s.client) :: s.history })

def writing (f : Client → Client) : SyncM Unit := calling (Call.modify f)

def count (f : Progress → Progress) : SyncM Unit :=
  update fun y => { y with progress := f y.progress }

def refusal (me peer : PubKey) (listed : Bool) (now : UInt64) : Option Credential → Option String
  | some c =>
    if c.delegate ≠ peer then some "the credential names another device"
    else match c.verify C me scopeChat now with
      | .error e => some s!"the credential does not verify: {e.debug}"
      | .ok () => if listed then none else some "the exchange no longer lists that device"
  | none =>
    if peer ≠ me ∨ listed = false then some "no credential, and not the account itself"
    else none

def giveKey : SyncM Unit := do
  let s ← Call.get
  match s.sync.entrust with
  | none => pure ()
  | some seed => do
    update fun y => { y with entrust := none }
    queue (.key seed)
    update fun y => { y with gaveKey := true }

def welcome : SyncM Unit := do
  giveKey
  let s ← Call.get
  Call.doIf (s.client.heldGenerations ≠ []) (queue (.earlier s.client.heldGenerations))
  queue (.have' s.client.heldForSiblings)

/-- The door. Our own account; a credential from it for the key this session was
opened to, current by the exchange's clock and on its device list today; or the
account itself, which needs none. -/
def takeHello (account : PubKey) (credential : Option Credential) (a : Answers) : SyncM Unit := do
  let s ← Call.get
  if account ≠ s.client.me then failed "the other side is not this account"
  else do
    let devices ← answered a.devices
    let found := siblingListed s.client.me s.sync.peer devices
    match refusal W.crypto s.client.me s.sync.peer found.1 found.2 credential with
    | some why => failed why
    | none => welcome

def wantOf (h : Held) : Option (Bytes32 × UInt64) :=
  if (c.incarnation h.channel).any (· != h.inst) then none
  else
    let mine := (c.entryRanges.find? fun range => range.1 == h.channel).map Prod.snd
    -- From where this side lacks nothing of theirs: its own top when its copy
    -- starts at or before theirs, and from under their first otherwise.
    let since := match mine with
      | none => 0
      | some (first, last) =>
        if first ≤ h.first then last else Timeline.saturatingSub h.first 1
    if h.last > since ∨ h.epochs.toNat > (c.keysOf h.channel).length then some (h.channel, since)
    else none

/-- From where to want a generation that is offered, if this side lacks any of it:
not one it holds live, not one under an origin it does not know. -/
def wantEarlierOf (g : Generation) : Option UInt64 :=
  if c.incarnation g.channel = some g.inst then none
  else if c.knowsExchange g.origin = false then none
  else match c.generationOf g.channel g.inst with
    | none => some 0
    | some mine =>
      let last := ((c.historyEntriesAfter g.channel mine 0).getLast?.map Prod.fst).getD 0
      if g.last ≤ last ∧ g.epochs.toNat ≤ (c.historyKeys g.channel mine).length then none
      else some last

def takeHave (theirs : List Held) : SyncM Unit := do
  let s ← Call.get
  let wants := theirs.filterMap (wantOf s.client)
  let earlier := (W.order.walk s.sync.offered).filterMap fun g =>
    (wantEarlierOf s.client g).map fun since => (g, since)
  update fun y => earlier.foldl (fun y w => y.ask w.1) y
  Call.doIf (earlier ≠ [])
    (queue (.wantEarlier (earlier.map fun w => (w.1.channel, w.1.inst, w.2))))
  queue (.want wants)
  update fun y => { y with
    gotHave := true
    phase := if y.gotWant then .trading else y.phase }

def takeWantEarlier (wants : List (Bytes32 × Bytes32 × UInt64)) : SyncM Unit := do
  let s ← Call.get
  let owed := wants.filterMap fun w =>
    (s.client.generationOf w.1 w.2.1).map fun g => (⟨w.1, w.2.2, some (g, w.2.1)⟩ : Owed)
  update fun y => { y with owed := y.owed ++ owed }

def takeWant (wants : List (Bytes32 × UInt64)) : SyncM Unit :=
  update fun y => { y with
    owed := y.owed ++ wants.map fun w => ⟨w.1, w.2, none⟩
    gotWant := true
    phase := if y.gotHave then .trading else y.phase }

def takeEachKey (channel : Bytes32) : Bool → List (UInt32 × Bytes32) → SyncM Bool
  | fresh, [] => pure fresh
  | fresh, k :: keys => do
    let s ← Call.get
    let lacking := (s.client.store.key channel k.1).isNone
    writing fun c => c.putKey channel k.1 k.2
    count fun p => { p with keysIn := p.keysIn + 1 }
    takeEachKey channel (fresh || lacking) keys

/-- A key this device lacked may open entries it fetched and could not read, so it
goes back over them. -/
def takeKeys (keys : List (UInt32 × Bytes32)) : SyncM Unit := do
  let fresh ← takeEachKey channel false keys
  let s ← Call.get
  Call.doIf (fresh ∧ s.client.hasUnread channel) (writing fun c => c.rewind channel)
  count fun p => { p with channelsIn := insert channel p.channelsIn }

def generationFor : SyncM UInt64 := do
  let s ← Call.get
  match s.client.generationOf channel inst with
  | some g => pure g
  | none => calling fun c =>
    (.ok (c.newGeneration channel inst origin).2, (c.newGeneration channel inst origin).1)

/-- Only for a generation this side asked for; anything else is ignored. -/
def takeKeysOf (keys : List (UInt32 × Bytes32)) : SyncM Unit := do
  let s ← Call.get
  match s.sync.asked (channel, inst) with
  | none => pure ()
  | some origin => do
    let generation ← generationFor channel inst origin
    Call.forEach (fun k => do
      writing fun c => c.putHistoryKey channel generation k.1 k.2
      count fun p => { p with keysIn := p.keysIn + 1 }) keys

def importEarlier : SyncM Nat :=
  if entries = [] then pure 0
  else do
    let generation ← generationFor channel inst origin
    calling (W.keepEarlier channel generation inst origin entries a)

/-- What the exchange answers of a channel; where the channel lives is asked with the
first look at it, before anything is made of the answer. -/
def lookAt : SyncM ChannelInfo := do
  let info ← answered a.info
  let s ← Call.get
  Call.doIf (channel ∉ s.client.homes) (calling (W.home channel a))
  pure info

/-- Take entries a sibling handed over: of the incarnation held and served, verified
as a fetch is, folded and kept. Returns how many were new. -/
def importLive : SyncM Nat :=
  if entries = [] then pure 0
  else do
    let s ← Call.get
    Call.failIf ((s.client.incarnation channel).any (· != inst))
      "the sibling holds another incarnation of this channel"
    let info ← lookAt W channel a
    Call.failIf (info.inst ≠ inst)
      "the sibling's entries are from an incarnation the exchange does not serve"
    let timeline ← calling (W.foldEntries (s.sync.timelines channel) channel info entries a)
    update fun y => { y with timelines := Function.update y.timelines channel timeline }
    let after ← Call.get
    pure (after.client.entryCount channel - s.client.entryCount channel)

/-- The positions of the entries somebody wrote that are not held yet. -/
def newPosts (held : UInt64 → Bool) : List UInt64 :=
  (entries.filter fun e => e.kind == kindMember && !held e.seq).map (·.seq)

def imported (generation : Option UInt64) (entries : List Entry) (n messages : Nat) :
    SyncM Unit := do
  count fun p => { p with
    entriesIn := p.entriesIn + n
    messagesIn := p.messagesIn + messages
    channelsIn := if n > 0 then insert channel p.channelsIn else p.channelsIn }
  let s ← Call.get
  let named := entries.flatMap (W.blobsNamed s.client channel generation)
  let lacking := named.filter fun id => !s.client.hasBlob id
  update fun y => { y with blobsWanted := y.blobsWanted ∪ lacking.toFinset }

def takeEntriesOf : SyncM Unit := do
  let s ← Call.get
  let held := fun seq => (s.client.generationOf channel inst).any
    fun g => s.client.hasHistoryEntry channel g seq
  let posts := newPosts entries held
  let n ← importEarlier W channel inst origin entries a
  let s ← Call.get
  let generation := s.client.generationOf channel inst
  let kept := posts.filter fun seq => generation.any
    fun g => s.client.hasHistoryEntry channel g seq
  imported W channel generation entries n kept.length

def takeEntriesLive : SyncM Unit := do
  let s ← Call.get
  let posts := newPosts entries (s.client.hasEntry channel)
  let n ← importLive W channel inst entries a
  let s ← Call.get
  imported W channel none entries n (posts.filter (s.client.hasEntry channel)).length

/-- Of a generation this side asked for, under the origin it verifies under; of the
live incarnation otherwise. -/
def takeEntries : SyncM Unit := do
  let s ← Call.get
  match s.sync.asked (channel, inst) with
  | some origin => takeEntriesOf W channel inst origin entries a
  | none => takeEntriesLive W channel inst entries a

def takeWhole (chunks : List Bytes) : SyncM Unit := do
  update fun y => { y with blobParts := Function.update y.blobParts id none }
  Call.doIf (blobId W.crypto chunks = id) do
    writing fun c => W.keepBlob c id chunks
    update fun y => { y with blobsWanted := y.blobsWanted.erase id }
    count fun p => { p with blobsIn := p.blobsIn + 1 }

def takePart (parts : List (Option Bytes)) : SyncM Unit :=
  match parts.mapM (fun part => part) with
  | none => update fun y => { y with blobParts := Function.update y.blobParts id (some parts) }
  | some chunks => takeWhole W id chunks

/-- A blob nobody asked for is dropped on the floor. -/
def takeBlob (chunk of : UInt32) (bytes : Bytes) : SyncM Unit := do
  let s ← Call.get
  if id ∉ s.sync.blobsWanted ∨ of = 0 ∨ chunk ≥ of then pure ()
  else
    let parts := (s.sync.blobParts id).getD (List.replicate of.toNat none)
    if parts.length ≠ of.toNat then pure ()
    else takePart W id (parts.set chunk.toNat (some bytes))

def takeKey (seed : Bytes32) : SyncM Unit := do
  let s ← Call.get
  if C.publicKey seed ≠ s.client.me then failed "the key given is not this account's"
  else do
    Call.doIf (s.client.accountSeed C ≠ some seed) (writing fun c => c.takeAccountSeed seed)
    update fun y => { y with entrusted := true }

def takeUp : SyncM Unit :=
  match m with
  | .hello account credential => takeHello W account credential a
  | .earlier rows => update fun y => rows.foldl Sync.offer y
  | .have' theirs => takeHave W theirs
  | .wantEarlier wants => takeWantEarlier wants
  | .want wants => takeWant wants
  | .keys channel keys => takeKeys channel keys
  | .keysOf channel inst keys => takeKeysOf channel inst keys
  | .entries channel inst entries => takeEntries W channel inst entries a
  | .blob id chunk of bytes => takeBlob W id chunk of bytes
  | .done => update fun y => { y with gotDone := true }
  | .key seed => takeKey W.crypto seed

def take : SyncM Unit := do
  note fun s => .took s.sync s.client m a
  takeUp W m a

def keysOwed : List (UInt32 × Bytes32) :=
  match o.generation with
  | none => c.keysOf o.channel
  | some (g, _) => c.historyKeys o.channel g

def rowsOwed : List (UInt64 × KeptEntry) :=
  match o.generation with
  | none => c.entriesAfter o.channel o.since pageSize
  | some (g, _) => (c.historyEntriesAfter o.channel g o.since).take pageSize

/-- The entries of a page, up to its bytes, and the position reached. A timed
message past its time is not handed over. -/
def pageOf (now : UInt64) : List (UInt64 × KeptEntry) → Nat → UInt64 → List Entry →
    UInt64 × List Entry
  | [], _, last, entries => (last, entries)
  | (seq, row) :: rows, bytes, last, entries =>
    if bytes + row.wireLen > pageBytes ∧ entries ≠ [] then (last, entries)
    else match row.entry with
      | none => pageOf now rows bytes last entries
      | some e =>
        if e.expiresAfter > 0 ∧ now ≥ e.posted + e.expiresAfter.toUInt64 then
          pageOf now rows bytes seq entries
        else pageOf now rows (bytes + row.wireLen) seq (entries ++ [e])

def nextPage (now : UInt64) (c : Client) (o : Owed) : UInt64 × List Entry :=
  pageOf now (rowsOwed c o) 0 o.since []

def lacksKeys (y : Sync) (o : Owed) : Prop := (o.channel, o.generation.map Prod.fst) ∉ y.keyed

instance (y : Sync) (o : Owed) : Decidable (lacksKeys y o) := inferInstanceAs (Decidable (¬ _))

def serveKeys : SyncM Unit := do
  let s ← Call.get
  let keys := keysOwed s.client o
  let message := match o.generation with
    | none => .keys o.channel keys
    | some (_, inst) => .keysOf o.channel inst keys
  Call.doIf (lacksKeys s.sync o) do
    update fun y => { y with keyed := insert (o.channel, o.generation.map Prod.fst) y.keyed }
    Call.doIf (keys ≠ []) (queue message)

def serveEntries : SyncM Unit :=
  Call.doIf (entries ≠ []) do
    queue (.entries channel inst entries)
    count fun p => { p with entriesOut := p.entriesOut + entries.length }

def serveBlob : SyncM Unit := do
  let s ← Call.get
  let chunks := (s.client.blobs id).getD []
  let of := UInt32.ofNat chunks.length
  Call.forEach (fun c => queue (.blob id (UInt32.ofNat c.2) of c.1)) chunks.zipIdx

def highestOwed : UInt64 :=
  match o.generation with
  | none => c.highestEntry o.channel
  | some (g, _) => ((c.historyEntriesAfter o.channel g 0).getLast?.map Prod.fst).getD 0

def owedAfter (highest last : UInt64) (entries : List Entry) : List Owed → List Owed
  | [] => []
  | front :: rest =>
    if entries ≠ [] ∧ last < highest then { front with since := last } :: rest else rest

/-- Serve the next page of one owed channel: keys once, then entries, then the
blobs the page names. A generation is served the same way from what is kept of it,
its keys named for its incarnation. -/
def servePage (now : UInt64) (o : Owed) : SyncM Unit := do
  serveKeys o
  let s ← Call.get
  let inst := match o.generation with
    | none => (s.client.incarnation o.channel).getD 0
    | some (_, inst) => inst
  let page := nextPage now s.client o
  let named := page.2.flatMap (W.blobsNamed s.client o.channel (o.generation.map Prod.fst))
  serveEntries o.channel inst page.2
  Call.forEach serveBlob named
  update fun y => { y with owed := owedAfter (highestOwed s.client o) page.1 page.2 y.owed }

def serve (now : UInt64) (o : Owed) : SyncM Unit := do
  note fun s => .served now s.sync s.client o
  servePage W now o

end

/-- What the link does in a step: what arrived, or that it is gone; a frame after
that which did not open; how many messages it then takes whole, and whether it goes
at the next; and the time. -/
structure Turn where
  arrived : Except String (List Arrival)
  unopened : Option String
  taken : Nat
  gone : Option String
  now : UInt64

def greet : SyncM Unit := do
  let s ← Call.get
  queue (.hello s.client.me s.client.credential)
  update fun y => { y with phase := .listing }

/-- Take the messages in the inbox, in turn: whether the step goes on. -/
def takeAll (W : World) : List Arrival → SyncM Bool
  | [] => pure true
  | .tooLong len :: _ => Call.fail s!"the sibling sent a {len}-byte message"
  | .malformed text :: rest => do
    update fun y => { y with inbox := rest }
    Call.fail text
  | .message m a :: rest => do
    update fun y => { y with inbox := rest }
    let went ← Call.attempt (take W m a)
    let s ← Call.get
    match went with
    | .error e => do
      failed e
      pure false
    | .ok () => if s.sync.phase = .failed then pure false else takeAll W rest

/-- Serve one page of what is owed, once the last has gone. -/
def serveNext (W : World) (now : UInt64) : SyncM Unit := do
  let s ← Call.get
  match s.sync.owed with
  | [] => pure ()
  | o :: _ => Call.doIf (s.sync.phase = .trading ∧ s.sync.outbox = []) (serve W now o)

def sayDone : SyncM Unit := do
  let s ← Call.get
  Call.doIf (s.sync.phase = .trading ∧ s.sync.gotWant ∧ s.sync.owed = [] ∧ ¬ s.sync.sentDone) do
    queue .done
    update fun y => { y with sentDone := true }

def sendOut (t : Turn) : SyncM Unit := do
  let s ← Call.get
  let left := s.sync.outbox.drop t.taken
  update fun y => { y with outbox := left }
  match t.gone with
  | some e => Call.doIf (left ≠ []) do
    failed s!"the link ended: {e}"
    Call.fail e
  | none => pure ()

def finish : SyncM Bool := do
  let s ← Call.get
  if s.sync.sentDone ∧ s.sync.gotDone ∧ s.sync.outbox = [] then do
    update fun y => { y with phase := .finished }
    pure false
  else pure true

def trade (W : World) (t : Turn) : SyncM Bool := do
  serveNext W t.now
  sayDone
  sendOut t
  finish

def receive (W : World) (t : Turn) : SyncM Bool :=
  match t.arrived with
  | .error e => do
    failed s!"the link ended: {e}"
    Call.fail e
  | .ok arrived => do
    update fun y => { y with inbox := y.inbox ++ arrived }
    match t.unopened with
    | some e => do
      failed s!"a frame from the sibling did not open: {e}"
      pure false
    | none => do
      let s ← Call.get
      let more ← takeAll W s.sync.inbox
      if more then trade W t else pure false

/-- One step: take what arrived, serve a page of what is owed, send what the link
will take. Returns whether there is more to do. -/
def step (W : World) (t : Turn) : SyncM Bool := do
  let s ← Call.get
  match s.sync.phase with
  | .finished => pure false
  | .failed => pure false
  | .greeting => do
    greet
    receive W t
  | .listing => receive W t
  | .trading => receive W t

/-- The state a step leaves, however it went. -/
def stepped (W : World) (s : Syncing) (t : Turn) : Syncing := (step W t).after s

/-- A client about to meet the sibling at `peer`, with the key to entrust if the
person said so. -/
def begin (client : Client) (peer : PubKey) (entrust : Option Bytes32) : Syncing where
  sync := { Sync.new peer with entrust }
  client := client
  history := []

end Sync
end Sqex.Chat
