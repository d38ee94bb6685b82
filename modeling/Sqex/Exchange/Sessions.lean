import Sqex.Lib.Collections
import Sqex.Lib.Runs
import Sqex.Proto.Session

/-! Relayed sessions: two identities that have each asked for the other, an ephemeral key
relayed each way, and opaque frames in two queues. -/
namespace Sqex.Sessions
open Std Session

/-- A frame as it is queued: its sequence number and its ciphertext. -/
abbrev Frame := UInt64 × Bytes

inductive SendError where
  | noSession
  | backpressure
  deriving DecidableEq

/-- An unmatched request to open a session. -/
structure Pending where
  ephemeral : Bytes32
  since : Nat
  deriving DecidableEq

/-- A live session, its ends held in the order of their keys. -/
structure Live where
  first : PubKey
  second : PubKey
  ephFirst : Bytes32
  ephSecond : Bytes32
  /-- Frames from `first`, waiting for `second`, and the other way. -/
  toSecond : List Frame
  toFirst : List Frame
  created : Nat
  isOpen : Bool
  deriving DecidableEq

namespace Live

def roleOf (l : Live) (who : PubKey) : Option Session.Role :=
  if who = l.first then some .first
  else if who = l.second then some .second
  else none

def outbound (l : Live) : Session.Role → List Frame
  | .first => l.toSecond
  | .second => l.toFirst

def inbound (l : Live) : Session.Role → List Frame
  | .first => l.toFirst
  | .second => l.toSecond

def setOutbound (l : Live) (role : Session.Role) (queue : List Frame) : Live :=
  match role with
  | .first => { l with toSecond := queue }
  | .second => { l with toFirst := queue }

def setInbound (l : Live) (role : Session.Role) (queue : List Frame) : Live :=
  match role with
  | .first => { l with toFirst := queue }
  | .second => { l with toSecond := queue }

def peerEphemeralFor (l : Live) : Session.Role → Bytes32
  | .first => l.ephSecond
  | .second => l.ephFirst

def ownEphemeralFor (l : Live) : Session.Role → Bytes32
  | .first => l.ephFirst
  | .second => l.ephSecond

def expired (l : Live) (now : Nat) : Bool := now - l.created > sessionTtl

def made (me peer : PubKey) (ephemeral theirs : Bytes32) (now : Nat) : Live :=
  match Session.Role.of me peer with
  | .first => ⟨me, peer, ephemeral, theirs, [], [], now, true⟩
  | .second => ⟨peer, me, theirs, ephemeral, [], [], now, true⟩

end Live

/-- The exchange's answer to an open, its id and time as the numbers they are. -/
structure Ack where
  state : OpenState
  sessionId : Nat
  peerEphemeral : Bytes32
  now : Nat
  deriving DecidableEq

def Ack.waiting (now : Nat) : Ack := ⟨.waiting, 0, 0, now⟩

/-- What an open did: its answer, and whether it recorded a new pending open. -/
structure Opened where
  ack : Ack
  fresh : Bool
  deriving DecidableEq

def Opened.nothing (ack : Ack) : Opened := ⟨ack, false⟩

/-- What was waiting for the one who asked, and whether the session is open. -/
structure Frames where
  isOpen : Bool
  frames : List Frame
  deriving DecidableEq

structure Inner where
  nextId : Nat
  /-- By requester and target, the ephemeral offered. -/
  pending : PubKey × PubKey → Option Pending
  sessions : ExtTreeMap Nat Live

def queuedBytes (queue : List Frame) : Nat := (queue.map (·.2.length)).sum

namespace Inner

def new : Inner := ⟨0, fun _ => none, ∅⟩

section
variable (s : Inner) (now : Nat) (me : PubKey) (id : Nat)

def expire : Inner :=
  { s with
    pending := fun k => (s.pending k).filter (now - ·.since ≤ sessionTtl)
    sessions := s.sessions.filter fun _ l => !l.expired now }

def setPending (k : PubKey × PubKey) (p : Option Pending) : Inner :=
  { s with pending := fun k' => if k' = k then p else s.pending k' }

def setSession (l : Live) : Inner :=
  { s with sessions := s.sessions.insert id l }

def standing (order : IterOrder (Nat × Live)) (me peer : PubKey) :
    Option (Nat × Live × Session.Role) :=
  ((order.walk s.sessions.toList).find? fun e =>
      e.2.isOpen && (e.2.roleOf me).isSome && (e.2.roleOf peer).isSome).bind fun e =>
    (e.2.roleOf me).map fun role => (e.1, e.2, role)

/-- Match the peer's request if there is one; otherwise record this one and disclose
nothing. An open that offers the ephemeral already standing is a renewal. -/
def meet (peer : PubKey) (ephemeral : Bytes32) : Opened × Inner :=
  match s.pending (peer, me) with
  | some theirs =>
    let id := s.nextId + 1
    let s := (s.setPending (peer, me) none).setPending (me, peer) none
    (.nothing ⟨.established, id, theirs.ephemeral, now⟩,
      { s with nextId := id }.setSession id (Live.made me peer ephemeral theirs.ephemeral now))
  | none =>
    let renewal := (s.pending (me, peer)).any (·.ephemeral = ephemeral)
    (⟨.waiting now, !renewal⟩, s.setPending (me, peer) (some ⟨ephemeral, now⟩))

/-- Ask to open a session with `peer`. A retry offers the ephemeral it offered before and
resumes; a different one is somebody starting again, and ends the old session. -/
def openTo (order : IterOrder (Nat × Live)) (now : Nat) (me peer : PubKey) (ephemeral : Bytes32) :
    Opened × Inner :=
  let s := s.expire now
  if me = peer then (.nothing (.waiting now), s)
  else
    match s.standing order me peer with
    | some (id, live, role) =>
      if live.ownEphemeralFor role = ephemeral then
        (.nothing ⟨.established, id, live.peerEphemeralFor role, now⟩, s)
      else { s with sessions := s.sessions.erase id }.meet now me peer ephemeral
    | none => s.meet now me peer ephemeral

def pendingFrom (peer : PubKey) : Option Bytes32 × Inner :=
  let s := s.expire now
  ((s.pending (me, peer)).map (·.ephemeral), s)

def send (frame : Frame) : Except SendError Unit × Inner :=
  let s := s.expire now
  match s.sessions[id]? with
  | none => (.error .noSession, s)
  | some live =>
    if live.isOpen then
      match live.roleOf me with
      | none => (.error .noSession, s)
      | some role =>
        let queue := live.outbound role
        if queue.length ≥ maxQueuedFrames ∨ queuedBytes queue + frame.2.length > maxQueuedBytes
        then (.error .backpressure, s)
        else (.ok (), s.setSession id (live.setOutbound role (queue ++ [frame])))
    else (.error .noSession, s)

/-- Collect whatever is waiting for `me`, draining it. -/
def recv : Frames × Inner :=
  let s := s.expire now
  match s.sessions[id]? with
  | none => (⟨false, []⟩, s)
  | some live =>
    match live.roleOf me with
    -- Indistinguishable from a session that is not there.
    | none => (⟨false, []⟩, s)
    | some role => (⟨live.isOpen, live.inbound role⟩, s.setSession id (live.setInbound role []))

/-- End a session. Either peer may; the other learns when it next collects. -/
def close : Bool × Inner :=
  let s := s.expire now
  match s.sessions[id]? with
  | none => (false, s)
  | some live =>
    if (live.roleOf me).isSome ∧ live.isOpen then
      (true, s.setSession id { live with isOpen := false })
    else (false, s)

end

end Inner

inductive Act where
  | openTo (order : IterOrder (Nat × Live)) (me peer : PubKey) (ephemeral : Bytes32)
  | pendingFrom (me peer : PubKey)
  | send (me : PubKey) (id : Nat) (frame : Frame)
  | recv (me : PubKey) (id : Nat)
  | close (me : PubKey) (id : Nat)

inductive Reply where
  | opened (o : Opened)
  | pending (ephemeral : Option Bytes32)
  | sent (result : Except SendError Unit)
  | frames (f : Frames)
  | closed (done : Bool)

def perform (s : Inner) (now : Nat) : Act → Reply × Inner
  | .openTo order me peer ephemeral =>
    let done := s.openTo order now me peer ephemeral
    (.opened done.1, done.2)
  | .pendingFrom me peer =>
    let done := s.pendingFrom now me peer
    (.pending done.1, done.2)
  | .send me id frame =>
    let done := s.send now me id frame
    (.sent done.1, done.2)
  | .recv me id =>
    let done := s.recv now me id
    (.frames done.1, done.2)
  | .close me id =>
    let done := s.close now me id
    (.closed done.1, done.2)

structure Entry where
  now : Nat
  act : Act
  reply : Reply

/-- The sessions, and everything that was asked of them and answered. -/
structure World where
  inner : Inner
  log : List Entry

namespace World

def new : World := ⟨.new, []⟩

def step (w : World) (a : Nat × Act) : World :=
  let done := perform w.inner a.1 a.2
  ⟨done.2, w.log ++ [⟨a.1, a.2, done.1⟩]⟩

def run (acts : List (Nat × Act)) : World := Runs.run step new acts

end World
end Sqex.Sessions
