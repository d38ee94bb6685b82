import Sqex.Lib.Collections
import Sqex.Lib.SecondaryIndex
import Sqex.Proto.Credential

/-! Calls between exchanges: the bridges one exchange keeps, and what the caller, the callee, the
exchange at the other end of a link and the clock do to them. What is read outside the relay is an
argument. -/
namespace Sqex.Relay
open Std

abbrev Bridge := BitVec 128

instance : Std.TransOrd Bridge := inferInstance

def bridgeBit : UInt64 := (1 : UInt64) <<< (63 : UInt64)

def ringingTtlSecs : UInt64 := 120
def ttlSecs : UInt64 := 60 * 60

def reasonUnreachable : UInt8 := 1
def reasonRefused : UInt8 := 4
def reasonEnded : UInt8 := 5

/-- The word a caller's device signs over an ephemeral and a target. -/
structure CallWord where
  issued : UInt64
  credential : Option Credential
  sig : Bytes64
  deriving DecidableEq

inductive Outcome where
  | ringing | established
  | rejected (reason : UInt8)
  deriving DecidableEq

inductive Index where
  | caller (caller : PubKey) (target : String)
  | callee (caller account : PubKey)
  deriving DecidableEq

structure BridgeRec where
  peer : PubKey
  account : PubKey
  caller : PubKey
  callerEph : Bytes32
  deviceOnly : Option PubKey
  /-- The answering device, once known. -/
  callee : Option PubKey
  calleeEph : Bytes32
  sessionId : UInt64
  localParty : PubKey
  outcome : Outcome
  created : UInt64
  index : Index
  word : Option (String × CallWord)
  signedSent : Bool
  deriving DecidableEq

namespace BridgeRec

def callerKey (b : BridgeRec) : Option (PubKey × String) :=
  match b.index with
  | .caller caller target => some (caller, target)
  | .callee .. => none

def calleeKey (b : BridgeRec) : Option (PubKey × PubKey) :=
  match b.index with
  | .caller .. => none
  | .callee caller account => some (caller, account)

def sessionKey (b : BridgeRec) : Option UInt64 :=
  if b.sessionId = 0 then none else some b.sessionId

end BridgeRec

inductive Control where
  | invite (bridge : Bridge) (caller : PubKey) (callerEph : Bytes32) (account : PubKey)
      (callerDomain : String) (word : Option (String × CallWord))
  | ringing (bridge : Bridge)
  | reject (bridge : Bridge) (reason : UInt8)
  | accept (bridge : Bridge) (callee : PubKey) (calleeEph : Bytes32)
  | close (bridge : Bridge) (reason : UInt8)
  | inviteDevice (bridge : Bridge) (caller : PubKey) (callerEph : Bytes32) (device : PubKey)
  deriving DecidableEq

inductive CallState where
  | ringing | established | rejected
  deriving DecidableEq

structure CallAck where
  state : CallState
  reason : UInt8
  sessionId : UInt64
  peer : PubKey
  peerEphemeral : Bytes32
  now : UInt64
  deriving DecidableEq

def CallAck.ringing (now : UInt64) : CallAck := ⟨.ringing, 0, 0, 0, 0, now⟩
def CallAck.rejected (reason : UInt8) (now : UInt64) : CallAck := ⟨.rejected, reason, 0, 0, 0, now⟩

inductive OpenState where
  | waiting | established
  deriving DecidableEq

structure OpenAck where
  state : OpenState
  sessionId : UInt64
  peerEphemeral : Bytes32
  now : UInt64
  deriving DecidableEq

/-- One exchange's bridges, the three indexes over them, and the peers it has a link to. -/
structure RelayInner where
  links : PubKey → Bool
  bridges : ExtTreeMap Bridge BridgeRec
  bySession : UInt64 → Option Bridge
  callerIndex : PubKey × String → Option Bridge
  calleeIndex : PubKey × PubKey → Option Bridge

/-- The frames an operation sent, each with the peer it went to. -/
abbrev Sent := List (PubKey × Control)

namespace RelayInner

section
variable (b : BridgeRec) (r : RelayInner) (caller : PubKey) (target : String) (eph : Bytes32)
  (now : UInt64) (bridge : Bridge)

def empty (links : PubKey → Bool) : RelayInner where
  links := links
  bridges := ∅
  bySession _ := none
  callerIndex _ := none
  calleeIndex _ := none

def sendControl (peer : PubKey) (c : Control) : Sent :=
  if r.links peer then [(peer, c)] else []

def nextSession (draws : List UInt64) : Option UInt64 :=
  let numbers := (draws.map (· &&& ~~~bridgeBit)).filter (· != 0)
  (numbers.map (bridgeBit ||| ·)).find? fun id => (r.bySession id).isNone

def insertBridge (b : BridgeRec) : RelayInner :=
  { r with
    bridges := r.bridges.insert bridge b
    bySession := fileUnder r.bySession b.sessionKey bridge
    callerIndex := fileUnder r.callerIndex b.callerKey bridge
    calleeIndex := fileUnder r.calleeIndex b.calleeKey bridge }

def dropBridge : RelayInner :=
  match r.bridges[bridge]? with
  | none => r
  | some b =>
    { r with
      bridges := r.bridges.erase bridge
      bySession := strikeOut r.bySession b.sessionKey
      callerIndex := strikeOut r.callerIndex b.callerKey
      calleeIndex := strikeOut r.calleeIndex b.calleeKey }

def outlived (b : BridgeRec) : Bool :=
  let age := now - min b.created now
  match b.outcome with
  | .established => age > ttlSecs
  | _ => age > ringingTtlSecs

def endBridge (peer : PubKey) : RelayInner × Sent :=
  (r.dropBridge bridge, r.sendControl peer (.close bridge reasonEnded))

def expire (o : IterOrder (Bridge × BridgeRec)) (r : RelayInner) (now : UInt64) :
    RelayInner × Sent :=
  let dead := (o.walk r.bridges.toList).filter fun p => outlived now p.2
  dead.foldl (fun (r, sent) (bridge, b) =>
    let (r, more) := r.endBridge bridge b.peer
    (r, sent ++ more)) (r, [])

def callerAck : CallAck :=
  match b.outcome with
  | .ringing => CallAck.ringing now
  | .rejected reason => CallAck.rejected reason now
  | .established => ⟨.established, 0, b.sessionId, b.callee.getD 0, b.calleeEph, now⟩

def indexed (bridge : Option Bridge) : Option (Bridge × BridgeRec) :=
  bridge.bind fun bridge => r.bridges[bridge]?.map fun b => (bridge, b)

/-- `place_call` once it has cleared what outlived itself: a poll of a call in flight is told
where it stands, and a refusal is told once; a new call to the same target ends the one
before it, and goes on. -/
def pollCall : RelayInner × Sent × Option CallAck :=
  match r.indexed (r.callerIndex (caller, target)) with
  | none => (r, [], none)
  | some (bridge, b) =>
    if b.callerEph = eph then
      let ack := callerAck b now
      (if ack.state = .rejected then r.dropBridge bridge else r, [], some ack)
    else
      let (r, sent) := r.endBridge bridge b.peer
      (r, sent, none)

structure Route where
  peer : PubKey
  account : PubKey
  /-- The target named an exchange by its key, and one device there. -/
  byKey : Bool
  listed : Bool
  word : Option CallWord

def placed (route : Route) : BridgeRec where
  peer := route.peer
  account := route.account
  caller := caller
  callerEph := eph
  deviceOnly := none
  callee := none
  calleeEph := 0
  sessionId := 0
  localParty := caller
  outcome := .ringing
  created := now
  index := .caller caller target
  word := route.word.map fun w => (target, w)
  signedSent := !route.listed && route.word.isSome

def inviteOf (caller : PubKey) (target : String) (eph : Bytes32) (route : Route) : Control :=
  if route.byKey then .inviteDevice bridge caller eph route.account
  else .invite bridge caller eph route.account ""
    (if route.listed then none else route.word.map fun w => (target, w))

/-- `place_call` once it knows where the call goes: another poll may have placed it
meanwhile. -/
def insertCall (route : Route) (bridge : Bridge) : RelayInner × Sent × CallAck :=
  let insert (r : RelayInner) (sent : Sent) : RelayInner × Sent × CallAck :=
    let r := r.insertBridge bridge (placed caller target eph now route)
    (r, sent ++ r.sendControl route.peer (inviteOf bridge caller target eph route),
      CallAck.ringing now)
  match r.indexed (r.callerIndex (caller, target)) with
  | none => insert r []
  | some (held, b) =>
    if b.callerEph = eph then (r, [], callerAck b now)
    else
      let (r, sent) := r.endBridge held b.peer
      insert r sent

def answeredBy (device : PubKey) (eph : Bytes32) (sid : UInt64) : BridgeRec :=
  { b with callee := some device, calleeEph := eph, sessionId := sid, localParty := device }

def tryAnswer (device caller : PubKey) (eph : Bytes32) (account : PubKey) (now : UInt64)
    (draws : List UInt64) : RelayInner × Sent × Option OpenAck :=
  match r.indexed (r.calleeIndex (caller, account)) with
  | none => (r, [], none)
  | some (bridge, b) =>
    if b.deviceOnly.any (· != device) then (r, [], none)
    else
      match b.callee with
      | some answered =>
        -- The same device opens again, or it was answered elsewhere.
        if answered = device then
          (r, [], some ⟨.established, b.sessionId, b.callerEph, now⟩)
        else (r, [], none)
      | none =>
        match r.nextSession draws with
        | none => (r, [], none)
        | some sid =>
          ({ r with
              bridges := r.bridges.insert bridge (answeredBy b device eph sid)
              bySession := Function.update r.bySession sid (some bridge) },
            r.sendControl b.peer (.accept bridge device eph),
            some ⟨.established, sid, b.callerEph, now⟩)

def decline (account : PubKey) (bridge : Bridge) (reason : UInt8) : RelayInner × Sent × Bool :=
  match r.bridges[bridge]? with
  | none => (r, [], false)
  | some b =>
    if b.account = account then
      (r.dropBridge bridge, r.sendControl b.peer (.reject bridge reason), true)
    else (r, [], false)

def closeBridge (me : PubKey) (sid : UInt64) : RelayInner × Sent × Bool :=
  if sid &&& bridgeBit = 0 then (r, [], false)
  else
    match r.indexed (r.bySession sid) with
    | none => (r, [], true)
    | some (bridge, b) =>
      if b.localParty = me then
        let (r, sent) := r.endBridge bridge b.peer
        (r, sent, true)
      else (r, [], true)

def maybeDivert (sender : PubKey) (sid : UInt64) : Option (PubKey × Bridge) :=
  if sid &&& bridgeBit = 0 then none
  else
    match r.indexed (r.bySession sid) with
    | none => none
    | some (bridge, b) =>
      if b.localParty = sender ∧ r.links b.peer then some (b.peer, bridge) else none

/-- What taking a control frame reads outside the relay. -/
structure Heard where
  now : UInt64
  listed : Bool
  /-- The caller's word rings the account it names. -/
  rings : Bool
  full : Bool
  /-- A device of the account has a stream open. -/
  reachable : Bool
  /-- Calls are open, and a share of the peer's vouches for the caller and the device. -/
  vouched : Bool
  owner : PubKey
  /-- The ephemeral of an open by that device that waits for the caller. -/
  waiting : Option Bytes32
  draws : List UInt64

def rung (peer caller : PubKey) (callerEph : Bytes32) (account : PubKey) (now : UInt64) :
    BridgeRec where
  peer := peer
  account := account
  caller := caller
  callerEph := callerEph
  deviceOnly := none
  callee := none
  calleeEph := 0
  sessionId := 0
  localParty := 0
  outcome := .ringing
  created := now
  index := .callee caller account
  word := none
  signedSent := false

def refusal (x : Heard) (word : Option (String × CallWord)) : Option UInt8 :=
  if word.isSome ∧ x.rings = false then some reasonRefused
  else if word.isNone ∧ x.listed = false then some reasonRefused
  else if x.full then some reasonRefused
  else if x.reachable = false then some reasonUnreachable
  else none

def acceptedBy (callee : PubKey) (calleeEph : Bytes32) (sid : UInt64) : BridgeRec :=
  { b with
    callee := some callee, calleeEph := calleeEph, sessionId := sid, localParty := b.caller,
    outcome := .established }

def signedAgain (b : BridgeRec) (reason : UInt8) : Option Control :=
  if reason = reasonRefused ∧ b.signedSent = false then
    b.word.map fun w => .invite bridge b.caller b.callerEph b.account "" (some w)
  else none

def onControl (x : Heard) (r : RelayInner) (peer : PubKey) : Control → RelayInner × Sent
  | .invite bridge caller callerEph account _ word =>
    match refusal x word with
    | some reason => (r, r.sendControl peer (.reject bridge reason))
    | none =>
      let r := r.insertBridge bridge (rung peer caller callerEph account x.now)
      (r, r.sendControl peer (.ringing bridge))
  | .inviteDevice bridge caller callerEph device =>
    if x.full ∨ (x.listed = false ∧ x.vouched = false) then
      (r, r.sendControl peer (.reject bridge reasonRefused))
    else
      let b := { rung peer caller callerEph x.owner x.now with deviceOnly := some device }
      match x.waiting with
      | none =>
        let r := r.insertBridge bridge b
        (r, r.sendControl peer (.ringing bridge))
      | some eph =>
        match r.nextSession x.draws with
        | none => (r, [])
        | some sid =>
          let r := r.insertBridge bridge (answeredBy b device eph sid)
          (r, r.sendControl peer (.accept bridge device eph))
  | .ringing _ => (r, [])
  | .accept bridge callee calleeEph =>
    match r.bridges[bridge]?, r.nextSession x.draws with
    | some b, some sid =>
      ({ r with
          bridges := r.bridges.insert bridge (acceptedBy b callee calleeEph sid)
          bySession := Function.update r.bySession sid (some bridge) }, [])
    | _, _ => (r, [])
  | .reject bridge reason =>
    match r.bridges[bridge]? with
    | none => (r, [])
    | some b =>
      match signedAgain bridge b reason with
      | some again =>
        ({ r with bridges := r.bridges.insert bridge { b with signedSent := true } },
          r.sendControl peer again)
      | none =>
        ({ r with bridges := r.bridges.insert bridge { b with outcome := .rejected reason } }, [])
  | .close bridge _ => (r.dropBridge bridge, [])

/-- One hold of the relay's lock, by an operation or a part of one. -/
inductive Held where
  | poll (caller : PubKey) (target : String) (eph : Bytes32) (now : UInt64)
  | insert (caller : PubKey) (target : String) (eph : Bytes32) (now : UInt64) (route : Route)
      (bridge : Bridge)
  | answer (device caller : PubKey) (eph : Bytes32) (account : PubKey) (now : UInt64)
      (draws : List UInt64)
  | decline (account : PubKey) (bridge : Bridge) (reason : UInt8)
  | close (me : PubKey) (sid : UInt64)
  | control (x : Heard) (peer : PubKey) (c : Control)
  | expire (o : IterOrder (Bridge × BridgeRec)) (now : UInt64)

def perform : Held → RelayInner × Sent
  | .poll caller target eph now =>
    let (r, sent, _) := r.pollCall caller target eph now
    (r, sent)
  | .insert caller target eph now route bridge =>
    let (r, sent, _) := r.insertCall caller target eph now route bridge
    (r, sent)
  | .answer device caller eph account now draws =>
    let (r, sent, _) := r.tryAnswer device caller eph account now draws
    (r, sent)
  | .decline account bridge reason =>
    let (r, sent, _) := r.decline account bridge reason
    (r, sent)
  | .close me sid =>
    let (r, sent, _) := r.closeBridge me sid
    (r, sent)
  | .control x peer c => r.onControl x peer c
  | .expire o now => r.expire o now

def step (held : Held) : RelayInner := (r.perform held).1

end

end RelayInner
end Sqex.Relay
