import Sqex.Lib.Collections
import Sqex.Lib.Runs
import Sqex.Proto.Primitives

/-! Event streams: who is subscribed, a bounded queue for each stream, and the pump that drains it
into a sink. A pump holds no lock, so each thing it does stands between any two things a publisher
does. -/
namespace Sqex.Events
open Std Runs

/-- Events held for one subscriber before the backlog is replaced by a resync. -/
def queueMax : Nat := 256
/-- Streams one identity may hold open at once. -/
def maxPerIdentity : Nat := 4

/-- An event and its place among those published to a stream. -/
structure Posted (ε : Type) where
  number : Nat
  event : ε
  deriving DecidableEq

/-- What a sink is given. A resync is kept with the event that found the queue full, and with
how many had been published when it was written. -/
inductive Written (ε : Type) where
  | event (p : Posted ε)
  | heartbeat
  | resync (mark seen : Nat)
  deriving DecidableEq

inductive Stage (ε : Type) where
  | top
  | draining (mark : Nat)
  | resyncing (mark : Nat)
  | waiting
  | writing (hand : Option (Posted ε))
  | ended
  deriving DecidableEq

structure Stream (ε : Type) where
  who : PubKey
  device : PubKey
  queue : List (Posted ε)
  /-- Set by a publisher that found the queue full, here to the number of its event. -/
  behind : Option Nat
  subscribed : Bool
  stage : Stage ε
  sent : List ε
  written : List (Written ε)
  deriving DecidableEq

variable {ε : Type}

namespace Stream

def fresh (who device : PubKey) : Stream ε where
  who := who
  device := device
  queue := []
  behind := none
  subscribed := true
  stage := .top
  sent := []
  written := []

/-! What a publisher does to one stream. -/

def visit (x : Stream ε) (event : ε) : Stream ε := { x with sent := x.sent ++ [event] }

def push (x : Stream ε) (event : ε) : Stream ε :=
  { x with queue := x.queue ++ [⟨x.sent.length - 1, event⟩] }

def fallBehind (x : Stream ε) : Stream ε := { x with behind := some (x.sent.length - 1) }

/-- What meets a pump: the sink takes what it writes, a beat is due, the sink gives out. -/
inductive Act where
  | go
  | beat
  | fail
  deriving DecidableEq

def pump (x : Stream ε) (act : Act) : Stream ε :=
  match x.stage with
  | .top => match x.behind with
    | some mark => { x with behind := none, stage := .draining mark }
    | none => { x with stage := .waiting }
  | .draining mark => match x.queue with
    | _ :: queue => { x with queue }
    | [] => { x with stage := .resyncing mark }
  | .resyncing mark =>
    if act = .fail then { x with stage := .ended }
    else { x with written := x.written ++ [.resync mark x.sent.length], stage := .top }
  | .waiting =>
    if act = .beat then { x with stage := .writing none }
    else match x.queue with
      | p :: queue => { x with queue, stage := .writing (some p) }
      -- nothing there: it waits on, unless no publisher is left
      | [] => if x.subscribed then x else { x with stage := .ended }
  | .writing hand =>
    if act = .fail then { x with stage := .ended }
    else
      let w := match hand with
        | some p => .event p
        | none => .heartbeat
      { x with written := x.written ++ [w], stage := .top }
  | .ended => x

end Stream

/-- One stream as its identity's list has it; its number finds the rest. -/
structure Sub where
  id : Nat
  device : PubKey
  deriving DecidableEq

inductive Hop where
  | visit
  | send
  | mark
  deriving DecidableEq

/-- A publication under way, with the streams it still has to reach. -/
structure Walk (ε : Type) where
  event : ε
  todo : List Nat
  hop : Hop
  count : Nat
  deriving DecidableEq

def Walk.next (w : Walk ε) (rest : List Nat) (count : Nat) : Walk ε :=
  { w with todo := rest, hop := .visit, count }

structure Subscribers (ε : Type) where
  byIdentity : ExtTreeMap PubKey (List Sub)
  byDevice : ExtTreeMap PubKey Nat
  streams : List (Stream ε)
  walk : Option (Walk ε)

namespace Subscribers

def new : Subscribers ε := ⟨∅, ∅, [], none⟩

section
variable (s : Subscribers ε) (who device : PubKey)

def subs : List Sub := s.byIdentity[who]?.getD []

def listening : Bool :=
  s.byDevice[device]?.any fun n => 0 < n

def subscribe : Subscribers ε :=
  let subs := s.subs who
  if maxPerIdentity ≤ subs.length then { s with byIdentity := s.byIdentity.insert who subs }
  else { s with
    byDevice := s.byDevice.insert device (s.byDevice[device]?.getD 0 + 1)
    byIdentity := s.byIdentity.insert who (subs ++ [⟨s.streams.length, device⟩])
    streams := s.streams ++ [.fresh who device] }

def leave (byDevice : ExtTreeMap PubKey Nat) (device : PubKey) : ExtTreeMap PubKey Nat :=
  match byDevice[device]? with
  | none => byDevice
  | some n => if n - 1 = 0 then byDevice.erase device else byDevice.insert device (n - 1)

def unsubscribe (id : Nat) (x : Stream ε) : Subscribers ε :=
  match s.byIdentity[x.who]? with
  | none => s
  | some subs =>
    let left := subs.filter (·.id ≠ id)
    { s with
      byDevice := if left.length < subs.length then leave s.byDevice x.device else s.byDevice
      byIdentity := if left.isEmpty then s.byIdentity.erase x.who
        else s.byIdentity.insert x.who left
      streams := s.streams.set id { x with subscribed := false } }

def publish (recipients : List PubKey) (event : ε) : Subscribers ε :=
  { s with walk := some ⟨event, recipients.flatMap fun who => (s.subs who).map Sub.id, .visit, 0⟩ }

def publishToDevice (event : ε) : Subscribers ε :=
  { s with
    walk := some ⟨event, ((s.subs who).filter (·.device = device)).map Sub.id, .visit, 0⟩ }

end

/-- The next thing a publisher does: with no stream left it lets the lock go. -/
def hop (s : Subscribers ε) (w : Walk ε) : Subscribers ε :=
  match w.todo with
  | [] => { s with walk := none }
  | id :: rest => match s.streams[id]? with
    | none => { s with walk := some (w.next rest w.count) }
    | some x => match w.hop with
      | .visit => { s with
          streams := s.streams.set id (x.visit w.event)
          walk := some (if x.behind.isSome then w.next rest w.count
            else { w with hop := .send }) }
      | .send =>
        if x.queue.length < queueMax then { s with
          streams := s.streams.set id (x.push w.event)
          walk := some (w.next rest (w.count + 1)) }
        else { s with walk := some { w with hop := .mark } }
      | .mark => { s with
          streams := s.streams.set id x.fallBehind
          walk := some (w.next rest w.count) }

end Subscribers

inductive Input (ε : Type) where
  | subscribe (who device : PubKey)
  | unsubscribe (id : Nat)
  | publish (recipients : List PubKey) (event : ε)
  | publishToDevice (who device : PubKey) (event : ε)
  | hop
  | pump (id : Nat) (act : Stream.Act)
  deriving DecidableEq

def step (s : Subscribers ε) (input : Input ε) : Subscribers ε :=
  match input with
  | .hop => match s.walk with
    | none => s
    | some w => s.hop w
  | .pump id act => match s.streams[id]? with
    | none => s
    | some x => { s with streams := s.streams.set id (x.pump act) }
  -- the rest wait for the lock
  | .subscribe who device => if s.walk.isSome then s else s.subscribe who device
  | .unsubscribe id => if s.walk.isSome then s else match s.streams[id]? with
    | none => s
    | some x => s.unsubscribe id x
  | .publish recipients event => if s.walk.isSome then s else s.publish recipients event
  | .publishToDevice who device event =>
    if s.walk.isSome then s else s.publishToDevice who device event

end Sqex.Events
