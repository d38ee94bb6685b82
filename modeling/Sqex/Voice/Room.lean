import Sqex.Lib.Collections
import Sqex.Lib.Runs
import Sqex.Proto.Room
import Sqex.Proto.Session

/-! Being in a room: who is here, a session with each of them, and talking to everyone. What the
exchange answers, the order its maps are walked in, the secrets drawn and the time are arguments.
Sound is left out: of a peer's buffer and decoder only that the decoder may fail to be made. -/
namespace Sqex.Voice

section Polling
open Std Room

structure Peer where
  identity : PubKey
  session : Session
  sessionId : UInt64
  /-- The next outgoing sequence number to this peer. -/
  outSeq : UInt64
  lastHeard : Nat
  derivedWith : PubKey
  deriving DecidableEq

inductive RoomEvent where
  | joined (id : PubKey)
  | left (id : PubKey)
  /-- Listed in the roster but could not prove they hold the room secret. -/
  | rejected (id : PubKey)
  | restarted (id : PubKey)
  /-- In the room at another exchange ours will not bridge to. -/
  | unreachable (id : PubKey)
  deriving DecidableEq

inductive Bridged where
  | peer (p : Peer)
  | waiting
  | refused

structure Membership where
  room : RoomId
  me : PubKey
  seed : Bytes32
  peers : ExtTreeMap UInt64 Peer
  byIdentity : ExtTreeMap PubKey UInt64
  /-- Identities still to be reached, and the ephemeral offered them. -/
  pending : ExtTreeMap PubKey Bytes32
  rebuilding : Finset PubKey
  /-- Names already complained about. -/
  rejected : Finset PubKey
  share : List (PubKey × String)
  /-- Where each remote member is. A member not here is local. -/
  homes : ExtTreeMap PubKey PubKey
  unshared : Bool
  unworded : Bool
  unreachable : Finset PubKey
  roster : List Member

inductive PollError where
  | words (text : String)
  | protocol (e : Error)
  deriving DecidableEq

abbrev RoomM := Call PollError Membership

/-- How long a peer may send nothing before its session is taken for broken, in
milliseconds. -/
def stale : Nat := 10 * 1000

/-- What the exchange answers about one member in a poll: to an open and to a call,
`none` where it does not answer 200; why a decoder could not be made; and the time
a session was up. -/
structure Reached where
  openAck : Except PollError (Option OpenAck)
  callAck : Except PollError (Option CallAck)
  playback : Option PollError
  heard : Nat

/-- What a poll is answered and draws. A join is `none` where it is refused as
malformed. -/
structure Polled where
  worded : Except PollError (Option Homed)
  shared : Except PollError (Option Homed)
  plain : Except PollError Roster
  /-- The ephemeral drawn for a member first offered one. -/
  fresh : PubKey → Bytes32
  reached : PubKey → Reached
  now : Nat
  homesOrder : IterOrder (PubKey × PubKey)
  identityOrder : IterOrder (PubKey × UInt64)
  peersOrder : IterOrder (UInt64 × Peer)
  pendingOrder : IterOrder (PubKey × Bytes32)

namespace Membership

section
variable (m : Membership) (id : PubKey)

def new (room : RoomId) (me : PubKey) (seed : Bytes32) (share : List (PubKey × String)) :
    Membership where
  room := room
  me := me
  seed := seed
  peers := ∅
  byIdentity := ∅
  pending := ∅
  rebuilding := ∅
  rejected := ∅
  share := share
  homes := ∅
  unshared := false
  unworded := false
  unreachable := ∅
  roster := []

def present : List Peer :=
  (m.peers.toList.map Prod.snd).mergeSort fun a b => a.identity ≤ b.identity

/-- Note where the members are. One homed at an exchange not named yet is named from
now on. -/
def noteHomes (homed : Homed) (order : IterOrder (PubKey × PubKey)) : Membership :=
  let remote := homed.members.filter fun h => !h.isLocal
  let homes := ExtTreeMap.ofList (remote.map fun h => (h.identity, h.home))
  let name := fun (share : List (PubKey × String)) (row : PubKey × PubKey) =>
    if share.any (fun s => s.1 == row.2) = false ∧ share.length < maxShare then
      share ++ [(row.2, "")]
    else share
  { m with homes, share := (order.walk homes.toList).foldl name m.share }

def verified (C : Crypto) (m : Membership) (roster : List Member) : List PubKey :=
  (roster.filter fun r => RoomId.verify C m.room r.identity r.proof).map (·.identity)

def reject (C : Crypto) (m : Membership) : List Member → Membership × List RoomEvent
  | [] => (m, [])
  | r :: roster =>
    if RoomId.verify C m.room r.identity r.proof ∨ r.identity ∈ m.rejected then
      reject C m roster
    else
      let rest := reject C { m with rejected := insert r.identity m.rejected } roster
      (rest.1, .rejected r.identity :: rest.2)

def remove : Membership :=
  { m with
    peers := match m.byIdentity[id]? with
      | some sid => m.peers.erase sid
      | none => m.peers
    byIdentity := m.byIdentity.erase id }

def depart (here : List PubKey) (roster : List Member) (order : IterOrder (PubKey × UInt64)) :
    Membership × List RoomEvent :=
  let departed := ((order.walk m.byIdentity.toList).map Prod.fst).filter fun id => id ∉ here
  let m := departed.foldl remove m
  ({ m with
      pending := m.pending.filter fun id _ => decide (id ∈ here)
      rebuilding := m.rebuilding.filter fun id => id ∈ here
      rejected := m.rejected.filter fun id => id ∈ roster.map (·.identity) },
    departed.map .left)

/-- Take a session that went quiet out, to be built again. -/
def restart (p : Peer) : Membership :=
  { m with
    peers := m.peers.erase p.sessionId
    byIdentity := m.byIdentity.erase p.identity
    rebuilding := insert p.identity m.rebuilding }

def sweep (now : Nat) (order : IterOrder (UInt64 × Peer)) : Membership × List RoomEvent :=
  let quiet := ((order.walk m.peers.toList).map Prod.snd).filter fun p =>
    now - p.lastHeard > stale
  (quiet.foldl restart m, quiet.map fun p => .restarted p.identity)

/-- Offer a session to anyone new, with the ephemeral drawn for them. -/
def offer (fresh : PubKey → Bytes32) (m : Membership) (id : PubKey) : Membership :=
  if id ∈ m.byIdentity then m
  else { m with pending := m.pending.insertIfNew id (fresh id) }

/-- Where a bridge toward a member is placed, if it is ours to place: the lower of the
two places it. -/
def bridgeTo : Option PubKey :=
  m.homes[id]?.filter fun _ => decide (m.me < id)

def settle (p : Peer) : Membership :=
  { m with
    unreachable := m.unreachable.erase id
    rebuilding := m.rebuilding.erase id
    byIdentity := m.byIdentity.insert p.identity p.sessionId
    peers := m.peers.insert p.sessionId p
    pending := m.pending.erase id }

end

end Membership

def derivePeer (C : Crypto) (seed eph : Bytes32) (id peer peerEphemeral : Bytes32)
    (sessionId : UInt64) (r : Reached) : Except PollError Peer :=
  match Session.derive C seed eph peer peerEphemeral with
  | .error e => .error (.protocol e)
  | .ok session =>
    match r.playback with
    | some e => .error e
    | none => .ok ⟨id, session, sessionId, 0, r.heard, peer⟩

def tryBridge (C : Crypto) (seed eph : Bytes32) (id : PubKey) (r : Reached) :
    Except PollError Bridged := do
  match ← r.callAck with
  | none => pure .refused
  | some ack =>
    match ack.state with
    | .ringing => pure .waiting
    | .rejected => pure .refused
    | .established => do
      let p ← derivePeer C seed eph id ack.peer ack.peerEphemeral ack.sessionId r
      pure (.peer p)

def tryEstablish (C : Crypto) (seed eph : Bytes32) (id : PubKey) (r : Reached) :
    Except PollError (Option Peer) := do
  match ← r.openAck with
  | none => pure none
  | some ack =>
    match ack.state with
    | .waiting => pure none
    | .established => do
      let p ← derivePeer C seed eph id id ack.peerEphemeral ack.sessionId r
      pure (some p)

section
variable {C : Crypto} {seed eph : Bytes32} {id : PubKey} {r : Reached} {p : Peer}

theorem tryBridge_ok (h : tryBridge C seed eph id r = .ok (.peer p)) :
    ∃ ack, r.callAck = .ok (some ack) ∧ ack.state = .established ∧
      derivePeer C seed eph id ack.peer ack.peerEphemeral ack.sessionId r = .ok p := by
  unfold tryBridge at h
  cases hack : r.callAck with
  | error e => simp [hack, bind, Except.bind] at h
  | ok answer =>
    cases answer with
    | none => simp [hack, bind, Except.bind, pure, Except.pure] at h
    | some ack =>
      cases hstate : ack.state with
      | ringing | rejected => simp [hack, hstate, bind, Except.bind, pure, Except.pure] at h
      | established =>
        simp only [hack, hstate, bind, Except.bind, pure, Except.pure] at h
        cases hmade : derivePeer C seed eph id ack.peer ack.peerEphemeral ack.sessionId r with
        | error e => simp [hmade] at h
        | ok q =>
          simp only [hmade, Except.ok.injEq, Bridged.peer.injEq] at h
          exact ⟨ack, rfl, hstate, h ▸ hmade⟩

theorem tryEstablish_ok (h : tryEstablish C seed eph id r = .ok (some p)) :
    ∃ ack : OpenAck,
      derivePeer C seed eph id id ack.peerEphemeral ack.sessionId r = .ok p := by
  unfold tryEstablish at h
  cases hack : r.openAck with
  | error e => simp [hack, bind, Except.bind] at h
  | ok answer =>
    cases answer with
    | none => simp [hack, bind, Except.bind, pure, Except.pure] at h
    | some ack =>
      cases hstate : ack.state with
      | waiting => simp [hack, hstate, bind, Except.bind, pure, Except.pure] at h
      | established =>
        simp only [hack, hstate, bind, Except.bind, pure, Except.pure] at h
        cases hmade : derivePeer C seed eph id id ack.peerEphemeral ack.sessionId r with
        | error e => simp [hmade] at h
        | ok q =>
          simp only [hmade, Except.ok.injEq, Option.some.injEq] at h
          exact ⟨ack, h ▸ hmade⟩

end

def answered {α : Type} : Except PollError α → RoomM α
  | .ok a => pure a
  | .error e => Call.fail e

section
variable (C : Crypto) (a : Polled)

def change (f : Membership → Membership) : RoomM Unit := Call.modify f

def saying (f : Membership → Membership × List RoomEvent) : RoomM (List RoomEvent) :=
  fun m => (.ok (f m).2, (f m).1)

def settled (id : PubKey) (p : Peer) : RoomM (List RoomEvent) :=
  saying fun m => (m.settle id p, [.joined p.identity])

def unbridged (id : PubKey) : RoomM (List RoomEvent) := saying fun m =>
  ({ m with unreachable := insert id m.unreachable },
    if id ∈ m.unreachable then [] else [.unreachable id])

/-- Try once to reach a member, under the ephemeral it was offered. -/
def reach (w : PubKey × Bytes32) : RoomM (List RoomEvent) := do
  let m ← Call.get
  match m.bridgeTo w.1 with
  | some _ => do
    match ← answered (tryBridge C m.seed w.2 w.1 (a.reached w.1)) with
    | .peer p => settled w.1 p
    | .waiting => pure []
    | .refused => unbridged w.1
  | none => do
    match ← answered (tryEstablish C m.seed w.2 w.1 (a.reached w.1)) with
    | some p => settled w.1 p
    | none => pure []

/-- Try each in turn, until a request fails. -/
def reachAll (C : Crypto) (a : Polled) : List (PubKey × Bytes32) → RoomM (List RoomEvent)
  | [] => pure []
  | w :: waiting => do
    let events ← reach C a w
    let rest ← reachAll C a waiting
    pure (events ++ rest)

def homedMembers (homed : Homed) : List Member := homed.members.map fun h => ⟨h.identity, h.proof⟩

/-- What a join that may be shared came to: the roster with the homes noted, or the
plain one from an exchange that does not know the shared join. -/
def fetchHomed : Option Homed → RoomM (List Member)
  | some homed => do
    change fun m => m.noteHomes homed a.homesOrder
    pure (homedMembers homed)
  | none => do
    change fun m => { m with unshared := true }
    let roster ← answered a.plain
    pure roster.members

/-- The join with words, or without from an exchange that does not know it. -/
def fetchWorded : Option Homed → RoomM (List Member)
  | some homed => fetchHomed a (some homed)
  | none => do
    change fun m => { m with unworded := true }
    let homed ← answered a.shared
    fetchHomed a homed

def fetch : RoomM (List Member) := do
  let m ← Call.get
  if m.unshared then do
    let roster ← answered a.plain
    pure roster.members
  else if m.unworded then do
    let homed ← answered a.shared
    fetchHomed a homed
  else do
    let homed ← answered a.worded
    fetchWorded a homed

def keepProven (roster : List Member) (m : Membership) : Membership × List RoomEvent :=
  let refused := Membership.reject C { m with roster } roster
  let gone := refused.1.depart (m.verified C roster) roster a.identityOrder
  (gone.1, refused.2 ++ gone.2)

/-- Throw away any session that has gone quiet, offer one to everybody not reached,
and try to reach whoever was offered one. -/
def reconnect (here : List PubKey) : RoomM (List RoomEvent) := do
  let quiet ← saying fun m => m.sweep a.now a.peersOrder
  change fun m => here.foldl (Membership.offer a.fresh) m
  let m ← Call.get
  let came ← reachAll C a (a.pendingOrder.walk m.pending.toList)
  change fun m => { m with unreachable := m.unreachable.filter fun id => id ∈ here }
  pure (quiet ++ came)

def reconcile (roster : List Member) : RoomM (List RoomEvent) := do
  let changed ← saying (keepProven C a roster)
  let m ← Call.get
  let came ← reconnect C a (m.verified C roster)
  pure (changed ++ came)

def poll : RoomM (List RoomEvent) := do
  let roster ← fetch a
  reconcile C a roster

end

end Polling

section Talking
open Runs Room

structure Use where
  roster : List Member
  peer : Peer

structure RoomCall where
  members : Membership
  /-- Whom frames were sealed to and opened from, and who was shown, the newest
  first. Nothing the call does reads it. -/
  uses : List Use

/-- What happens in a call: a poll; a frame to send; a datagram for a session, whether
what it opens to is a media frame of a type in use, and the time; and showing who is
here. -/
inductive Op where
  | poll (a : Polled)
  | speak (body : Bytes)
  | hear (frame : DatagramFrame) (isMedia : Bytes → Bool) (now : Nat)
  | tick

def sealedFor (C : Crypto) (body : Bytes) (p : Peer) : Option DatagramFrame :=
  match p.session.sealDatagram C p.outSeq body with
  | .ok ciphertext => some ⟨p.sessionId, p.outSeq, ciphertext⟩
  | .error _ => none

def Membership.speak (C : Crypto) (m : Membership) (body : Bytes) :
    Membership × List DatagramFrame :=
  let count := fun (p : Peer) =>
    if (sealedFor C body p).isSome then { p with outSeq := p.outSeq + 1 } else p
  ({ m with peers := m.peers.map fun _ p => count p },
    m.peers.toList.filterMap fun row => sealedFor C body row.2)

def Membership.opens (C : Crypto) (m : Membership) (frame : DatagramFrame) :
    Option (Peer × Bytes) :=
  match m.peers[frame.sessionId]? with
  | none => none
  | some p =>
    match p.session.openFrame C frame.seq frame.ciphertext with
    | .ok plaintext => some (p, plaintext)
    | .error _ => none

/-- Note that something from a peer arrived and could be opened. -/
def Membership.heard (m : Membership) (sid : UInt64) (p : Peer) (now : Nat) : Membership :=
  { m with peers := m.peers.insert sid { p with lastHeard := now } }

namespace RoomCall

def begin (m : Membership) : RoomCall := ⟨m, []⟩

def noting (s : RoomCall) (m : Membership) (peers : List Peer) : RoomCall :=
  ⟨m, peers.map (fun p => ⟨m.roster, p⟩) ++ s.uses⟩

def step (C : Crypto) (s : RoomCall) : Op → RoomCall
  | .poll a => { s with members := (poll C a).after s.members }
  | .speak body =>
    let sealedTo := (s.members.peers.toList.map Prod.snd).filter fun p =>
      (sealedFor C body p).isSome
    s.noting (s.members.speak C body).1 sealedTo
  | .hear frame isMedia now =>
    match s.members.opens C frame with
    | none => s
    | some (p, plaintext) =>
      let m := if isMedia plaintext then s.members.heard frame.sessionId p now else s.members
      s.noting m [p]
  | .tick => s.noting s.members s.members.present

end RoomCall

end Talking

end Sqex.Voice
