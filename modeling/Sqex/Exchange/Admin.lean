import Sqex.Exchange.Devices

/-! An administrator's transaction: the stores its ops write, and the batch as it is applied,
recorded and saved. -/
namespace Sqex.Admin
open Std Devices

def maxPeers : Nat := 16
def maxAudit : Nat := 1000

inductive Op where
  | whitelistEnable | whitelistDisable
  | whitelistAdd (key : PubKey) (label : Option String)
  | whitelistRemove (key : PubKey)
  | whitelistList | status | reloadAdmins
  | auditTail (n : UInt32)
  | admissionList
  | admissionApprove (device : PubKey) (label : Option String)
  | admissionDeny (device : PubKey)
  | nameAssign (name : String) (account : PubKey)
  | nameRelease (name : String)
  | nameList
  | peerAdd (key : PubKey) (label : Option String)
  | peerRemove (key : PubKey)
  | peerList
  | deviceRegister (credential : Credential)
  | deviceRevoke (revocation : Revocation)
  | channelForget (channel : Bytes32)
  | channelAllow (channel : Bytes32)
  | channelRefused
  | tailOpen (version : UInt8) (kinds : UInt16)

namespace Op

def name : Op → String
  | whitelistEnable => "whitelist-enable"
  | whitelistDisable => "whitelist-disable"
  | whitelistAdd _ _ => "whitelist-add"
  | whitelistRemove _ => "whitelist-remove"
  | whitelistList => "whitelist-list"
  | status => "status"
  | reloadAdmins => "reload-admins"
  | auditTail _ => "audit-tail"
  | admissionList => "admission-list"
  | admissionApprove _ _ => "admission-approve"
  | admissionDeny _ => "admission-deny"
  | nameAssign _ _ => "name-assign"
  | nameRelease _ => "name-release"
  | nameList => "name-list"
  | peerAdd _ _ => "peer-add"
  | peerRemove _ => "peer-remove"
  | peerList => "peer-list"
  | deviceRegister _ => "device-register"
  | deviceRevoke _ => "device-revoke"
  | channelForget _ => "channel-forget"
  | channelAllow _ => "channel-allow"
  | channelRefused => "channel-refused"
  | tailOpen _ _ => "tail-open"

/-- Whether the op changes server state: only these are audited and saved. -/
def isMutation : Op → Bool
  | whitelistEnable | whitelistDisable | whitelistAdd _ _ | whitelistRemove _ | reloadAdmins
  | nameAssign _ _ | nameRelease _ | peerAdd _ _ | peerRemove _ | deviceRegister _
  | deviceRevoke _ | channelForget _ | channelAllow _ => true
  | _ => false

end Op

structure AuditEntry where
  time : UInt64
  admin : String
  action : String
  target : Option String
  outcome : String
  deriving DecidableEq

structure WhitelistEntry where
  addedBy : Option String
  label : Option String
  addedAt : UInt64
  deriving DecidableEq

/-- The managed whitelist, the relay peers, the copies refused, and the audit trail. -/
structure State where
  enabled : Bool
  keys : ExtTreeMap PubKey WhitelistEntry
  peers : ExtTreeMap PubKey WhitelistEntry
  refused : ExtTreeSet Bytes32
  audit : List AuditEntry

structure Persisted where
  enabled : Bool
  keys : List (PubKey × WhitelistEntry)
  audit : List AuditEntry
  peers : List (PubKey × WhitelistEntry)
  refused : List Bytes32
  deriving DecidableEq

namespace State

section
variable (s : State) (key : PubKey)

def persisted : Persisted :=
  ⟨s.enabled, s.keys.toList, s.audit, s.peers.toList, s.refused.toList⟩

/-- The oldest entries go past `maxAudit`. -/
def record (entry : AuditEntry) : State :=
  let audit := s.audit ++ [entry]
  { s with audit := audit.drop (audit.length - maxAudit) }

def add (entry : WhitelistEntry) : State × Bool :=
  if key ∈ s.keys then (s, false) else ({ s with keys := s.keys.insert key entry }, true)

def remove : State × Bool :=
  ({ s with keys := s.keys.erase key }, decide (key ∈ s.keys))

def addPeer (entry : WhitelistEntry) : State × Bool :=
  if key ∈ s.peers then (s, false) else ({ s with peers := s.peers.insert key entry }, true)

def removePeer : State × Bool :=
  ({ s with peers := s.peers.erase key }, decide (key ∈ s.peers))

def refuseCopy (channel : Bytes32) : State × Bool :=
  ({ s with refused := s.refused.insert channel }, decide (channel ∉ s.refused))

def allowCopy (channel : Bytes32) : State × Bool :=
  ({ s with refused := s.refused.erase channel }, decide (channel ∈ s.refused))

def auditTail (n : Nat) : List AuditEntry := s.audit.drop (s.audit.length - n)

end

end State

structure Pending where
  account : PubKey
  notAfter : UInt64
  label : String
  firstSeen : UInt64
  siblings : Nat
  deriving DecidableEq

structure Admissions where
  pending : ExtTreeMap PubKey Pending
  denied : ExtTreeMap PubKey UInt64

namespace Admissions

/-- Drop the requests whose credential ran out. -/
def lapse (a : Admissions) (now : UInt64) : Admissions :=
  { a with pending := a.pending.filter fun _ p => p.notAfter > now }

def list (a : Admissions) : List (PubKey × Pending) :=
  a.pending.toList.mergeSort fun p q =>
    p.2.firstSeen < q.2.firstSeen || (p.2.firstSeen == q.2.firstSeen && p.1 ≤ q.1)

def take (a : Admissions) (device : PubKey) : Admissions :=
  { a with pending := a.pending.erase device }

def deny (a : Admissions) (device : PubKey) (now : UInt64) : Admissions :=
  let held := (a.pending[device]?.map (·.notAfter)).getD (now + 3600)
  { a.take device with denied := a.denied.insert device held }

end Admissions

structure NameRow where
  account : PubKey
  registeredAt : UInt64
  lastActive : UInt64
  adminSet : Bool
  deriving DecidableEq

/-- The channels here, with how many entries and present members each has, and those of them that
are copies. -/
structure ChannelRows where
  channel : ExtTreeMap Bytes32 (Nat × Nat)
  replicated : ExtTreeSet Bytes32

namespace ChannelRows

def orders (c : ChannelRows) (channel : Bytes32) : Bool :=
  decide (channel ∈ c.channel) && decide (channel ∉ c.replicated)

def forgetCopy (c : ChannelRows) (channel : Bytes32) : Option (ChannelRows × Nat × Nat) :=
  if channel ∈ c.replicated then
    some (⟨c.channel.erase channel, c.replicated.erase channel⟩, c.channel[channel]?.getD (0, 0))
  else none

end ChannelRows

structure Site where
  crypto : Crypto
  me : PubKey
  /-- Whether the state is kept in a file. -/
  path : Bool
  replicationPeers : List PubKey
  /-- How long a self-claimed name lasts. -/
  lease : UInt64
  base58 : PubKey → String

structure Server where
  state : State
  /-- The state files that were written, newest first. -/
  written : List Persisted
  transport : Option (List Bytes32)
  devices : Registry
  homes : ExtTreeMap PubKey PubKey
  channels : ChannelRows
  names : ExtTreeMap String NameRow
  admissions : Admissions
  admins : List PubKey
  /-- All that was ever recorded, with what the trail has dropped. Nothing reads it. -/
  recorded : List AuditEntry

structure Moment where
  now : UInt64
  works : Bool
  config : Except String (List PubKey)

inductive Answer where
  | enabled (on : Bool)
  | changed (changed : Bool)
  | whitelist (enabled : Bool) (keys : List (PubKey × WhitelistEntry))
  | peerAdded (added : Bool) (peers : Nat)
  | peerRemoved (removed : Bool) (peers : Nat) (note : String)
  | peers (peering : Bool) (peers : List (PubKey × WhitelistEntry))
  | registered (device account : PubKey) (notAfter : UInt64)
  | revoked (device account : PubKey)
  | forgotten (entries members : Nat) (refused : Bool) (note : String)
  | allowed (changed : Bool) (note : String)
  | channels (channels : List Bytes32)
  | status
  | admins (n : Nat)
  | entries (entries : List AuditEntry)
  | pending (pending : List (PubKey × Pending))
  | done
  | assigned (ok : Bool) (name : String) (account : PubKey)
  | names (names : List (String × NameRow × UInt64))
  | error (text : String)

def Answer.ok : Answer → Bool
  | error _ => false
  | assigned ok _ _ => ok
  | _ => true

def Invalid.text : Invalid → String
  | .wrongAccount => "wrong_account"
  | .expired => "expired"
  | .notYetValid => "not_yet_valid"
  | .wrongScope => "wrong_scope"
  | .badSignature => "bad_signature"

def DeviceError.text : DeviceError → String
  | .invalid reason => Invalid.text reason
  | .notAuthorised => "not_authorised"
  | .claimed => "already_claimed"
  | .revoked => "revoked"
  | .senior => "senior_device"
  | .noSuchDevice => "no_such_device"
  | .tooManyDevices => "too_many_devices"
  | .rateLimited => "rate_limited"

def Op.target (site : Site) : Op → Option String
  | whitelistAdd key _ | whitelistRemove key | admissionApprove key _ | admissionDeny key
  | peerAdd key _ | peerRemove key | channelForget key | channelAllow key =>
    some (site.base58 key)
  | nameAssign name _ | nameRelease name => some name
  | deviceRegister c => some (site.base58 c.delegate)
  | deviceRevoke r => some (site.base58 r.device)
  | _ => none

namespace Server

section
variable (site : Site) (admin : PubKey) (s : Server)

def expires (r : NameRow) : UInt64 :=
  if r.adminSet then 0
  else if r.lastActive.toNat + site.lease.toNat < 2 ^ 64 then r.lastActive + site.lease
  else 0xffffffffffffffff

def homesOf (accounts : List PubKey) : List PubKey :=
  (accounts.filterMap fun account => s.homes[account]?.filter (· != site.me)).dedup

/-- What the transport is told: whoever is listed, administers or replicates, and the devices and
homes of those listed. -/
def allowed (now : UInt64) : Option (List Bytes32) :=
  if s.state.enabled then
    let keys := s.state.keys.keys
    some ((keys ++ s.admins ++ site.replicationPeers ++ keys.flatMap (s.devices.list · now) ++
      s.homesOf site keys).filterMap fun k => (site.crypto.identityToX25519 k).toOption)
  else none

def syncTransport (now : UInt64) : Server :=
  { s with transport := s.allowed site now }

def assign (name : String) (account : PubKey) (now : UInt64) : Server :=
  let row : NameRow := ⟨account, (s.names[name]?.map (·.registeredAt)).getD now, now, true⟩
  { s with names := s.names.insert name row }

def entryFor (label : Option String) (now : UInt64) : WhitelistEntry :=
  ⟨some (site.base58 admin), label, now⟩

def apply (m : Moment) : Op → Server × Answer
  | .whitelistEnable => ({ s with state := { s.state with enabled := true } }, .enabled true)
  | .whitelistDisable => ({ s with state := { s.state with enabled := false } }, .enabled false)
  | .whitelistAdd key label =>
    let (state, changed) := s.state.add key (entryFor site admin label m.now)
    ({ s with state := state }, .changed changed)
  | .whitelistRemove key =>
    let (state, changed) := s.state.remove key
    ({ s with state := state }, .changed changed)
  | .whitelistList => (s, .whitelist s.state.enabled s.state.keys.toList)
  | .peerAdd key label =>
    if key ∉ s.state.peers ∧ s.state.peers.size ≥ maxPeers then
      (s, .error s!"already peering with {s.state.peers.size}, limit is {maxPeers}")
    else if key = site.me then (s, .error "an exchange cannot be its own relay peer")
    else
      let (state, added) := s.state.addPeer key (entryFor site admin label m.now)
      ({ s with state := state }, .peerAdded added state.peers.size)
  | .peerRemove key =>
    let (state, removed) := s.state.removePeer key
    ({ s with state := state },
      .peerRemoved removed state.peers.size "bridges already open are not torn down")
  | .peerList => (s, .peers (!s.state.peers.isEmpty) s.state.peers.toList)
  | .deviceRegister c =>
    if m.works then
      match s.devices.register site.crypto c.delegate c m.now with
      | .ok devices => ({ s with devices := devices }, .registered c.delegate c.account c.notAfter)
      | .error e => (s, .error (DeviceError.text e))
    else (s, .error "storage")
  | .deviceRevoke r =>
    if m.works then
      match s.devices.revoke site.crypto r.account r.device (some r) m.now with
      | .ok devices => ({ s with devices := devices }, .revoked r.device r.account)
      | .error e => (s, .error (DeviceError.text e))
    else (s, .error "storage")
  | .channelForget channel =>
    -- a store that cannot be asked orders nothing, and drops nothing
    if m.works && s.channels.orders channel then
      (s, .error ("this exchange orders that channel; `close`, signed by one of its admins, " ++
        "is how it is taken apart"))
    else
      let dropped := if m.works then s.channels.forgetCopy channel else none
      let (state, refused) := s.state.refuseCopy channel
      match dropped with
      | some (channels, entries, members) =>
        ({ s with state := state, channels := channels }, .forgotten entries members refused
          "no copy of this channel will be taken again until `channel allow`")
      | none =>
        ({ s with state := state },
          .forgotten 0 0 refused "no copy was held; none will be taken")
  | .channelAllow channel =>
    let (state, changed) := s.state.allowCopy channel
    ({ s with state := state },
      .allowed changed "a pull may take a copy again; nothing is fetched by this")
  | .channelRefused => (s, .channels s.state.refused.toList)
  | .status => (s, .status)
  | .reloadAdmins =>
    match m.config with
    | .ok admins => ({ s with admins := admins }, .admins admins.length)
    | .error e => (s, .error e)
  | .auditTail n => (s, .entries (s.state.auditTail n.toNat))
  | .admissionList =>
    let admissions := s.admissions.lapse m.now
    ({ s with admissions := admissions }, .pending admissions.list)
  | .admissionApprove device label =>
    let claimed := s.admissions.pending[device]?
    let label := label.or (claimed.map fun p => s!"device of {site.base58 p.account}")
    let (state, changed) := s.state.add device (entryFor site admin label m.now)
    ({ s with state := state, admissions := s.admissions.take device }, .changed changed)
  | .admissionDeny device => ({ s with admissions := s.admissions.deny device m.now }, .done)
  | .nameAssign name account =>
    if m.works then (s.assign name account m.now, .assigned true name account)
    else (s, .assigned false name account)
  | .nameRelease name =>
    if m.works then
      ({ s with names := s.names.erase name }, .changed (decide (name ∈ s.names)))
    else (s, .changed false)
  | .nameList =>
    (s, .names (s.names.toList.map fun r => (r.1, r.2, expires site r.2)))
  | .tailOpen _ _ =>
    (s, .error "tail-open authorises a stream; POST the same transaction to /admin/tail")

def auditEntry (m : Moment) (op : Op) : AuditEntry :=
  ⟨m.now, site.base58 admin, op.name, op.target site, "ok"⟩

def record (s : Server) (entry : AuditEntry) : Server :=
  { s with state := s.state.record entry, recorded := s.recorded ++ [entry] }

def turn (i : Moment × Op) : Server :=
  let t := (s.apply site admin i.1 i.2).1
  if i.2.isMutation then t.record (auditEntry site admin i.1 i.2) else t

def answers (site : Site) (admin : PubKey) : Server → List (Moment × Op) → List Answer
  | _, [] => []
  | s, i :: batch =>
    (s.apply site admin i.1 i.2).2 :: answers site admin (s.turn site admin i) batch

/-- Write the state to its file, where it has one: `saved` is whether that works. -/
def save (saved : Bool) : Option Server :=
  if site.path then
    if saved then some { s with written := s.state.persisted :: s.written } else none
  else some s

def execute (batch : List (Moment × Op)) (saved : Bool) (now : UInt64) :
    Server × Option (List Answer) :=
  let t := batch.foldl (turn site admin) s
  let results := s.answers site admin batch
  if batch.any (·.2.isMutation) then
    match t.save site saved with
    | some t => (t.syncTransport site now, some results)
    | none => (t, none)
  else (t, some results)

end

end Server
end Sqex.Admin
