import Sqex.Lib.Collections
import Sqex.Lib.Columns
import Sqex.Proto.Primitives

/-! What the exchange has been told about where identities are: published sets, each for a time,
and the successors that identities name. -/
namespace Sqex.Resolution
open Std

def maxCapabilities : Nat := 8

def maxEndpoints : Nat := 8

structure Endpoint where
  kind : UInt8
  host : Bytes
  port : UInt16
  priority : UInt16
  weight : UInt16
  deriving DecidableEq

structure Successor where
  successor : PubKey
  reason : String
  deriving DecidableEq

structure Resolved where
  found : Bool
  endpoints : List Endpoint
  publishedAt : UInt64
  expiresAt : UInt64
  lastSeen : UInt64
  now : UInt64
  capabilities : List String
  deriving DecidableEq

def Resolved.none (now : UInt64) : Resolved := ⟨false, [], 0, 0, 0, now, []⟩

structure Published where
  endpoints : List Endpoint
  capabilities : List String
  publishedAt : UInt64
  expiresAt : UInt64
  successor : Option Successor
  deriving DecidableEq

namespace Published

def live (now : UInt64) (p : Published) : Bool := now < p.expiresAt && ! p.endpoints.isEmpty

def kept (now : UInt64) (p : Published) : Bool := now < p.expiresAt || p.successor.isSome

end Published

/-- Why a publication was refused: more than an identity may claim. -/
inductive PublishError where
  | tooMany
  deriving DecidableEq

structure Endpoints where
  published : ExtTreeMap PubKey Published

namespace Endpoints

def opened : Endpoints := ⟨∅⟩

section
variable (now : UInt64) (identity : PubKey)

/-- Whether a set is one an identity may claim. -/
def claimable (endpoints : List Endpoint) (capabilities : List String) : Bool :=
  endpoints.length ≤ maxEndpoints && capabilities.length ≤ maxCapabilities

/-- Replace an identity's set. The successor it named stays. -/
def publish (ttlSecs : UInt32) (endpoints : List Endpoint) (capabilities : List String)
    (s : Endpoints) : Endpoints × Except PublishError UInt64 :=
  if claimable endpoints capabilities then
    let successor := s.published[identity]?.bind Published.successor
    let expiresAt := Saturating.add now ttlSecs.toUInt64
    (⟨s.published.insert identity ⟨endpoints, capabilities, now, expiresAt, successor⟩⟩, .ok now)
  else (s, .error .tooMany)

/-- An identity was seen alive: its window is extended, and is no new claim. -/
def refresh (ttlSecs : UInt32) (s : Endpoints) : Endpoints :=
  match s.published[identity]? with
  | none => s
  | some p =>
    let expiresAt := max p.expiresAt (Saturating.add now ttlSecs.toUInt64)
    ⟨s.published.insert identity { p with expiresAt }⟩

def setSuccessor (successor : Successor) (s : Endpoints) : Endpoints :=
  match s.published[identity]? with
  | some p => ⟨s.published.insert identity { p with successor := some successor }⟩
  | none => ⟨s.published.insert identity ⟨[], [], now, now, some successor⟩⟩

def resolve (key : PubKey) (lastSeen : UInt64) (s : Endpoints) : Resolved :=
  match s.published[key]? with
  | none => .none now
  | some p =>
    if p.live now then
      ⟨true, p.endpoints, p.publishedAt, p.expiresAt, lastSeen, now, p.capabilities⟩
    else .none now

def successor (key : PubKey) (s : Endpoints) : Option Successor :=
  s.published[key]?.bind Published.successor

/-- Drop what has expired, but for what names a successor. -/
def sweep (s : Endpoints) : Endpoints :=
  ⟨s.published.filter fun _ p => p.kept now⟩

def len (s : Endpoints) : Nat := (s.published.filter fun _ p => p.live now).size

end

end Endpoints

inductive Act where
  | publish (identity : PubKey) (ttlSecs : UInt32) (endpoints : List Endpoint)
      (capabilities : List String)
  | refresh (identity : PubKey) (ttlSecs : UInt32)
  | setSuccessor (identity : PubKey) (successor : Successor)
  | resolve (key : PubKey) (lastSeen : UInt64)
  | successor (key : PubKey)
  | len
  | sweep
  deriving DecidableEq

inductive Answer where
  | published (result : Except PublishError UInt64)
  | done
  | resolved (r : Resolved)
  | successor (s : Option Successor)
  | len (n : Nat)

namespace Endpoints

def step (s : Endpoints) : UInt64 × Act → Endpoints
  | (now, .publish identity ttlSecs endpoints capabilities) =>
    (s.publish now identity ttlSecs endpoints capabilities).1
  | (now, .refresh identity ttlSecs) => s.refresh now identity ttlSecs
  | (now, .setSuccessor identity successor) => s.setSuccessor now identity successor
  | (_, .resolve _ _) => s
  | (_, .successor _) => s
  | (_, .len) => s
  | (now, .sweep) => s.sweep now

def answers (s : Endpoints) : UInt64 × Act → List Answer
  | (now, .publish identity ttlSecs endpoints capabilities) =>
    [.published (s.publish now identity ttlSecs endpoints capabilities).2]
  | (_, .refresh _ _) => [.done]
  | (_, .setSuccessor _ _) => [.done]
  | (now, .resolve key lastSeen) => [.resolved (s.resolve now key lastSeen)]
  | (_, .successor key) => [.successor (s.successor key)]
  | (now, .len) => [.len (s.len now)]
  | (_, .sweep) => []

end Endpoints

def asked (turn : UInt64 × Act) : Bool := turn.2 != .sweep

/-- The store as it would stand unswept, and whose publications a sweep found expired, with no
successor named, that were not published again since. -/
structure World where
  clock : UInt64
  store : Endpoints
  forgotten : PubKey → Bool

namespace World

def opened (clock : UInt64) (store : Endpoints) : World := ⟨clock, store, fun _ => false⟩

def publishes (identity : PubKey) : Act → Bool
  | .publish other _ endpoints capabilities =>
    other == identity && Endpoints.claimable endpoints capabilities
  | _ => false

def step (w : World) : UInt64 × Act → World
  | (now, .sweep) =>
    { w with
      clock := now
      forgotten := fun k => w.forgotten k || w.store.published[k]?.any fun p => ! p.kept now }
  | (now, act) =>
    ⟨now, w.store.step (now, act), fun k => w.forgotten k && ! publishes k act⟩

def Revived (w : World) (now : UInt64) (identity : PubKey) : Prop :=
  w.forgotten identity = true ∧ w.store.published[identity]?.any (Published.live now) = true

/-- An act does not come upon a publication that a sweep forgot and that is live again. -/
def Unrevived (w : World) : UInt64 × Act → Prop
  | (now, .resolve key _) => ¬ w.Revived now key
  | (now, .len) => ∀ identity, ¬ w.Revived now identity
  | _ => True

end World

end Sqex.Resolution
