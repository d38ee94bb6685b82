import Sqex.Lib.Collections
import Sqex.Lib.Runs
import Sqex.Proto.Primitives

/-! Tunnels an exchange carries for its members: one stream of a tunnel connection each, from
the message that opens it to the end of the stream, beside the registry that counts them. -/
namespace Sqex.Tunnels
open Std Runs

structure Open where
  id : UInt64
  target : PubKey
  domain : String
  /-- The socket the target sees this member arrive from. -/
  localAddr : SocketAddr
  deriving DecidableEq

/-- What opens a tunnel: the key the member will pin, and the name it was found by. -/
structure Wanted where
  key : PubKey
  domain : String
  deriving DecidableEq

structure Opened where
  status : UInt8
  family : UInt8
  deriving DecidableEq

def statusOpen : UInt8 := 0
def statusRefused : UInt8 := 1
def statusNoAddress : UInt8 := 2
def statusWrongKey : UInt8 := 3
def statusOverLimit : UInt8 := 5

/-- How far a stream's task has come. -/
inductive Stage where
  | reading
  /-- What is wanted is read; membership is next. -/
  | asked
  | admitted
  /-- Within its rate; a slot is next. -/
  | allowed
  | held
  | found
  | bound
  /-- The registry knows the socket; the member is being told. -/
  | noted
  | carrying
  | over
  deriving DecidableEq

def Stage.holds : Stage → Bool
  | .held | .found | .bound | .noted | .carrying => true
  | .reading | .asked | .admitted | .allowed | .over => false

/-- One stream of a tunnel connection, with what its task has at hand. -/
structure Stream where
  who : PubKey
  conn : Nat
  id : UInt64
  target : PubKey
  domain : String
  addr : SocketAddr
  localAddr : SocketAddr
  stage : Stage
  answered : Option Opened
  deriving DecidableEq

def Stream.entry (t : Stream) : Open := ⟨t.id, t.target, t.domain, t.localAddr⟩

structure Limits where
  perMember : Nat
  pos : 0 < perMember

abbrev Registry := ExtTreeMap PubKey (List Open)

/-- What can come of the next thing a stream's task does. -/
inductive Event where
  | read (wanted : Option Wanted)
  | membership (member : Bool)
  | rate (within : Bool)
  | slot
  | resolved (peer : Option (PubKey × SocketAddr))
  | bind (ok : Bool)
  | connect (localAddr : Option SocketAddr)
  | told (ok : Bool)
  /-- The stream, the socket or its idle clock ended it. -/
  | ended
  deriving DecidableEq

/-- The exchange: its own key, and how many tunnels it carries for each member. -/
structure Home where
  publicKey : PubKey
  limits : Limits

namespace Home
variable (h : Home)

section
variable (tunnels : Registry) (t : Stream)

def entries (who : PubKey) : List Open := tunnels[who]?.getD []

/-- Take a slot, or find that there is none. The member's list is made where there is none. -/
def takeSlot : Registry × Bool :=
  let mine := entries tunnels t.who
  if h.limits.perMember ≤ mine.length then (tunnels.insert t.who mine, false)
  else (tunnels.insert t.who (mine ++ [t.entry]), true)

def giveBack : Registry :=
  match tunnels[t.who]? with
  | none => tunnels
  | some mine =>
    let mine := mine.filter (·.id ≠ t.id)
    if mine.isEmpty then tunnels.erase t.who else tunnels.insert t.who mine

/-- Put a socket's address into the first entry under a number. -/
def noteLocal (id : UInt64) (localAddr : SocketAddr) : List Open → List Open
  | [] => []
  | e :: es => if e.id = id then { e with localAddr } :: es else e :: noteLocal id localAddr es

def note : Registry :=
  match tunnels[t.who]? with
  | none => tunnels
  | some mine => tunnels.insert t.who (noteLocal t.id t.localAddr mine)

def answer (status family : UInt8) : Stream :=
  { t with stage := .over, answered := some ⟨status, family⟩ }

/-- A refusal once a slot is held. -/
def refuse (status : UInt8) : Registry × Stream :=
  (giveBack tunnels t, answer t status 0)

def slot : Registry × Stream :=
  match h.takeSlot tunnels t with
  | (tunnels, true) => (tunnels, { t with stage := .held })
  | (tunnels, false) => (tunnels, answer t statusOverLimit 0)

def carry (e : Event) : Registry × Stream :=
  match t.stage, e with
  | .reading, .read none => (tunnels, { t with stage := .over })
  | .reading, .read (some wanted) =>
    (tunnels, { t with target := wanted.key, domain := wanted.domain, stage := .asked })
  | .asked, .membership member =>
    if member then (tunnels, { t with stage := .admitted })
    else (tunnels, answer t statusRefused 0)
  | .admitted, .rate within =>
    if within then (tunnels, { t with stage := .allowed })
    else (tunnels, answer t statusOverLimit 0)
  | .allowed, .slot =>
    -- a placeholder until the socket is bound
    h.slot tunnels { t with localAddr := .unspecified true }
  | .held, .resolved (some (found, addr)) =>
    if found = t.target ∧ t.target = h.publicKey then refuse tunnels t statusRefused
    else if found = t.target then (tunnels, { t with addr, stage := .found })
    else refuse tunnels t statusWrongKey
  | .held, .resolved none => refuse tunnels t statusNoAddress
  | .found, .bind ok =>
    if ok then (tunnels, { t with stage := .bound }) else refuse tunnels t statusNoAddress
  | .bound, .connect (some localAddr) =>
    (note tunnels { t with localAddr }, { t with localAddr, stage := .noted })
  | .bound, .connect none => refuse tunnels t statusNoAddress
  | .noted, .told ok =>
    if ok then
      let family := if t.addr.ip.isV4 then 4 else 6
      (tunnels, { t with stage := .carrying, answered := some ⟨statusOpen, family⟩ })
    else (giveBack tunnels t, { t with stage := .over })
  | .carrying, .ended => (giveBack tunnels t, { t with stage := .over })
  | _, _ => (tunnels, t)

end

end Home

/-! The exchange and every stream of every tunnel connection, in any order. -/

structure Carriers where
  tunnels : Registry
  streams : List Stream

inductive Input where
  /-- A stream opened by a member, under a number its connection has not used. -/
  | accept (who : PubKey) (conn : Nat) (id : UInt64)
  | run (i : Nat) (e : Event)

def Carriers.none : Carriers := ⟨∅, []⟩

def Stream.fresh (who : PubKey) (conn : Nat) (id : UInt64) : Stream where
  who := who
  conn := conn
  id := id
  target := 0
  domain := ""
  addr := .unspecified true
  localAddr := .unspecified true
  stage := .reading
  answered := .none

def step (h : Home) (s : Carriers) (input : Input) : Carriers :=
  match input with
  | .accept who conn id =>
    if s.streams.any fun t => t.conn = conn ∧ t.id = id then s
    else { s with streams := s.streams ++ [.fresh who conn id] }
  | .run i e =>
    match s.streams[i]? with
    | .none => s
    | some t =>
      let after := h.carry s.tunnels t e
      ⟨after.1, s.streams.set i after.2⟩

def Carriers.carried (s : Carriers) (who : PubKey) : List Stream :=
  s.streams.filter fun t => t.who = who ∧ t.stage.holds

structure Kept (h : Home) (s : Carriers) : Prop where
  ceiling : ∀ who, (s.carried who).length ≤ h.limits.perMember
  listed : ∀ who, (Home.entries s.tunnels who).Perm ((s.carried who).map Stream.entry)
  gone : ∀ who, s.carried who = [] → s.tunnels[who]? = .none

def Input.asks : Input → Option Nat
  | .run i .slot => some i
  | _ => .none

def Proper (h : Home) (s : Carriers) (input : Input) : Prop :=
  ∀ i ∈ input.asks, ∀ t ∈ s.streams[i]?, t.stage = .allowed →
    (Home.entries s.tunnels t.who).length < h.limits.perMember → ∀ u ∈ s.carried t.who, u.id ≠ t.id

instance (h : Home) (s : Carriers) (input : Input) : Decidable (Proper h s input) :=
  inferInstanceAs (Decidable (∀ i ∈ input.asks, ∀ t ∈ s.streams[i]?, _))

end Sqex.Tunnels
