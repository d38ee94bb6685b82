import Sqex.Exchange.Origin

/-! The operations on a channel, as the routes reach them: what each checks, what it does to the
roster and the directory, and the entries it orders; and a run of them. Attachments, envelopes
beyond what a rotation checks of them, cursors and wake-ups are left out. -/
namespace Sqex.Exchange

section Operations
open Std

/-- What an operation reads outside the channel's own tables. -/
structure Around where
  now : UInt64
  blocked : PubKey → PubKey → Bool
  /-- In as many channels they have never spoken in as an account may be. -/
  unspokenFull : PubKey → Bool
  tooMany : PubKey → Bool
  /-- A fold record that stands for the identifier: into where, and its two parties. -/
  folded : Option (PubKey × PubKey × PubKey)
  retired : Bytes32 → Bool

structure Invitee where
  account : PubKey
  role : Role
  deriving DecidableEq

structure Create where
  visibility : Visibility
  retentionSecs : UInt32
  maxEntries : UInt32
  name : String
  topic : String
  incarnation : Bytes32
  invites : List Invitee
  actions : List Action

structure Post where
  epoch : UInt32
  msgSeq : UInt64
  expiresAfter : UInt32
  chainSeq : UInt64
  prev : Bytes32
  sig : Bytes64
  body : Bytes

/-- An envelope of an epoch's key, and whether its publisher's signature verifies. -/
structure Envelope where
  recipient : PubKey
  prekeyId : UInt32
  genuine : Bool

structure KeyPut where
  epoch : UInt32
  envelopes : List Envelope
  action : Option Action

/-- What a publish reads outside: the account of a device, whether it revoked one since the
epoch was minted, and whether a recipient has an envelope of an epoch. -/
structure KeyWorld where
  accountOf : PubKey → PubKey
  revokedSince : PubKey → UInt64 → Bool
  taken : PubKey → UInt32 → Bool

def maxEpoch : UInt32 := 65536
def maxReplicas : Nat := 4
def maxName : Nat := 64
def maxTopic : Nat := 256
def abandonSecs : UInt64 := 30 * 24 * 60 * 60
def rehomeMinSecs : UInt64 := 3600

def channelContext : Bytes := "sqex-channel-v1".toUTF8.toList

def directMessageId (C : Crypto) (a b : PubKey) : Bytes32 :=
  let (first, second) := if a ≤ b then (a, b) else (b, a)
  C.sha256 (channelContext ++ [0x01] ++ Bytes32.toBytes first ++ Bytes32.toBytes second)

/-- What a create by a non-member may claim about a direct message's identifier. -/
inductive DmClaim where
  | none | returning | squatted
  deriving DecidableEq

def validRetention (secs : UInt32) : Bool := minRetention ≤ secs && secs ≤ maxRetention

/-- The directory's two fields, as the channel has them: empty where it is private. -/
def Create.listed (req : Create) : String × String :=
  if req.visibility = .pub then (req.name, req.topic) else ("", "")

def Post.terms (req : Post) (place : Place) (account device : PubKey) : EntryTerms :=
  ⟨place, account, device, req.epoch, req.msgSeq, req.expiresAfter, req.chainSeq, req.prev,
    req.body⟩

def Post.row (C : Crypto) (req : Post) (account device : PubKey) (posted : UInt64)
    (stamp : Receipted) : EntryRow where
  kind := kindMember
  account := account
  device := device
  posted := posted
  expiresAfter := req.expiresAfter
  epoch := req.epoch
  msgSeq := req.msgSeq
  chainSeq := req.chainSeq
  prev := req.prev
  bodyHash := C.sha256 req.body
  sig := req.sig
  body := req.body
  entryHash := stamp.entryHash
  head := stamp.head
  receipt := stamp.receipt

def MemberRow.new (role : Role) (joined : UInt64) : MemberRow :=
  { role, joined, present := true, posted := false, muted := false }

def EntryRow.redacted (row : EntryRow) : EntryRow := { row with body := [] }

namespace Rows

section
variable (C : Crypto) (h : Host) (channel : Bytes32) (w : Around) (r : Rows) (who caller : PubKey)
  (target : UInt64) (device account : PubKey) (now : UInt64) (role : Role) (subject : PubKey)
  (action : Action)

def dmClaim (invites : List Invitee) : DmClaim :=
  match invites with
  | [i] =>
    if directMessageId C caller i.account ≠ channel then .none
    else if r.member.keys.all fun m => m == caller || m == i.account then .returning
    else .squatted
  | _ => .none

def isDirectMessage : Bool :=
  match r.member.keys with
  | [a, b] => directMessageId C a b == channel
  | _ => false

def enroll (joined : UInt64) : Rows :=
  { r with member := r.member.insert who (match r.member[who]? with
    | some m => { m with present := true, role := role }
    | none => .new role joined) }

def seatNew (joined : UInt64) : Rows :=
  { r with member := r.member.insertIfNew who (.new role joined) }

def unseat : Rows := { r with member := r.member.erase who }

def addInvitees (C : Crypto) (h : Host) (channel : Bytes32) (w : Around)
    (caller device : PubKey) :
    List (Invitee × Action) → Rows → Except ChannelError (Rows × List Ordered)
  | [], r => .ok (r, [])
  | (i, action) :: rest, r => do
    if w.blocked i.account caller then addInvitees C h channel w caller device rest r
    else
      let s := recordOf Event.added i.account caller device action
      let (r, es) ← (r.seatNew i.account i.role w.now).writeSystem C h channel s
        [i.role.toByte] w.now
      let (r, more) ← addInvitees C h channel w caller device rest r
      pure (r, es ++ more)

/-- While a fold record stands, its two parties are sent where it points. -/
def notFolded : Except ChannelError Unit :=
  match w.folded with
  | some (into, first, second) =>
    refuseIf (caller = first ∨ caller = second) (.replicated into)
  | none => .ok ()

def found (req : Create) : Except ChannelError (Rows × List Ordered) := do
  notFolded w caller
  refuseIf (w.tooMany caller = true) .tooManyChannels
  refuseIf (req.invites.length + 1 > maxMembers) .full
  refuseIf (req.invites.any (fun i => !w.blocked i.account caller && w.unspokenFull i.account)
    = true) .inviteQuota
  refuseIf (w.retired req.incarnation = true) .usedInstance
  let (name, topic) := req.listed
  let c : ChannelRow :=
    { visibility := req.visibility, retentionSecs := req.retentionSecs,
      maxEntries := req.maxEntries, name, topic, epoch := 0, nextSeq := 1, creator := caller,
      created := w.now, epochAt := 0, incarnation := req.incarnation, head := headGenesis }
  let r := { r with channel := some c }
  refuseIf (caller ∈ r.member) .storage
  let r := r.seatNew caller .admin w.now
  match req.actions with
  | [] => .error .badSignature
  | opening :: actions =>
    refuseIf (actions.length ≠ req.invites.length) .badSignature
    let arg := constitution C req.visibility req.retentionSecs req.maxEntries name topic
    let s := recordOf Event.created caller caller device opening
    let (r, es) ← r.writeSystem C h channel s arg w.now
    let (r, more) ← r.addInvitees C h channel w caller device (req.invites.zip actions)
    pure (r, es ++ more)

/-- A party to a direct message returns to it, and keeps its history. -/
def comeBack (c : ChannelRow) (caller device : PubKey) (req : Create) :
    Except ChannelError (Rows × List Ordered) :=
  if req.incarnation ≠ c.incarnation then .ok (r, [])
  else
    match req.actions with
    | [action] =>
      (r.seat caller .admin w.now).writeSystem C h channel
        (recordOf Event.joined caller caller device action) [] w.now
    | _ => .error .badSignature

def create (req : Create) : Except ChannelError (Rows × List Ordered) := do
  refuseIf (validRetention req.retentionSecs = false) .badRetention
  match r.channel with
  | none => r.found C h channel w caller device req
  | some c =>
    if (r.roleOf caller).isSome then .ok (r, [])
    else
      match r.dmClaim C channel caller req.invites with
      | .none => .ok (r, [])
      | .returning => r.comeBack C h channel w c caller device req
      -- What goes is only what somebody with no claim put there.
      | .squatted => r.destroy.found C h channel w caller device req

def frontRoom (name : String) (founder : Option PubKey) (now : UInt64) : Rows where
  channel := some
    { visibility := .pub, retentionSecs := 30 * 24 * 60 * 60, maxEntries := 0, name, topic := "",
      epoch := 0, nextSeq := 1, creator := founder.getD 0, created := now, epochAt := 0,
      incarnation := channel, head := headGenesis }
  member := match founder with
    | some founder => (∅ : ExtTreeMap PubKey MemberRow).insert founder (.new .admin now)
    | none => ∅
  entry := ∅
  chain := ∅
  replica := ∅
  replicated := none
  originHistory := ∅
  stranded := ∅
  highWater := ∅

/-- The exchange seats a newcomer in its own front room, and nobody signs for it. -/
def welcome : Except ChannelError Rows := do
  let c ← r.channelRow
  refuseIf (c.visibility ≠ .pub) .notPublic
  refuseIf (r.counts.1 ≥ maxMembers) .full
  let r := r.seat account .member now
  pure { r with channel := some { c with emptySince := none } }

def join : Except ChannelError (Rows × List Ordered) := do
  r.readOnly
  let c ← r.channelRow
  refuseIf (c.visibility ≠ .pub) r.unreadable
  refuseIf ((r.roleOf caller).isNone ∧ r.counts.1 ≥ maxMembers) .full
  (r.seat caller .member w.now).writeSystem C h channel
    (recordOf Event.joined caller caller device action) [] w.now

/-- Leaving a public channel gives up presence and not authority. -/
def standDown (c : ChannelRow) (r : Rows) (who : PubKey) (role : Role) : Rows :=
  if c.visibility = .pub ∧ role = .admin then r.alter who fun m => { m with present := false }
  else r.unseat who

def lastOut : Rows :=
  match r.channel with
  | none => r
  | some c =>
    if c.visibility = .pub then { r with channel := some { c with emptySince := some now } }
    else r.destroy

def leave : Except ChannelError (Rows × List Ordered) := do
  r.readOnly
  let c ← r.channelRow
  match r.roleOf caller with
  | none => .error r.unreadable
  | some role =>
    refuseIf (c.visibility = .priv ∧ role = .admin ∧ r.counts.2 = 1 ∧ r.counts.1 > 1)
      .lastAdmin
    let alone := r.counts.1 = 1
    let (r, es) ← (standDown c r caller role).writeSystem C h channel
      (recordOf Event.left caller caller device action) [] w.now
    pure (if alone then r.lastOut w.now else r, es)

/-- The highest counter of a device in an epoch, kept apart from the entries. -/
def bump (epoch : UInt32) (msgSeq : UInt64) : Rows :=
  let marks := r.highWater[device]?.getD ∅
  let held := marks[epoch]?.getD msgSeq.toInt64
  let top := if msgSeq.toInt64 ≤ held then held else msgSeq.toInt64
  { r with highWater := r.highWater.insert device (marks.insert epoch top) }

def post (device : PubKey) (req : Post) : Except ChannelError (Rows × List Ordered) := do
  r.readOnly
  let c ← r.channelRow
  refuseIf ((r.roleOf account).isNone = true) r.unreadable
  refuseIf (r.isMuted account = true) .muted
  let wanted := if c.visibility = .pub then 0 else c.epoch
  refuseIf (req.epoch ≠ wanted ∨ c.visibility = .priv ∧ wanted = 0) .wrongEpoch
  refuseIf (req.expiresAfter > c.retentionSecs) .badRetention
  let terms := req.terms (place h channel c) account device
  refuseIf (verifyEntry C terms req.sig = false) .badSignature
  let r ← r.advanceChain C device req.chainSeq req.prev (terms.input C)
  let (r, e) ← r.order C h.seed (place h channel c) w.now (link C (terms.input C))
    (req.row C account device w.now)
  let r := (r.bump device req.epoch req.msgSeq).alter account fun m => { m with posted := true }
  pure (r.prune h w.now, [e])

def setDirectory (name topic : String) (action : Action) :
    Except ChannelError (Rows × List Ordered) := do
  let c ← r.channelRow
  refuseIf (c.visibility ≠ .pub) r.unreadable
  refuseIf (r.isAdmin caller = false) .notAnAdmin
  let name := (name.take maxName).toString
  let topic := (topic.take maxTopic).toString
  let arg := constitution C .pub c.retentionSecs c.maxEntries name topic
  Rows.writeSystem C h channel { r with channel := some { c with name, topic } }
    (recordOf Event.renamed caller caller device action) arg w.now

def retain (retentionSecs maxEntries : UInt32) (action : Action) :
    Except ChannelError (Rows × List Ordered) := do
  refuseIf (validRetention retentionSecs = false) .badRetention
  r.readOnly
  let c ← r.channelRow
  refuseIf (r.isAdmin caller = false) .notAnAdmin
  let arg := beBytes 4 retentionSecs.toNat ++ beBytes 4 maxEntries.toNat
  let c := { c with retentionSecs, maxEntries }
  let (r, es) ← Rows.writeSystem C h channel { r with channel := some c }
    (recordOf Event.retention caller caller device action) arg w.now
  pure (r.prune h w.now, es)

def close : Except ChannelError Rows := do
  let _ ← r.channelRow
  refuseIf (r.isAdmin caller = false) .notAnAdmin
  pure r.destroy

def sweep : Rows :=
  let r := r.prune h now
  match r.channel with
  | none => r
  | some c =>
    if r.counts.1 = 0 ∧ r.window = (0, 0) ∧ c.visibility = .pub then
      match c.emptySince with
      | none => { r with channel := some { c with emptySince := some now } }
      | some since => if now - min since now ≥ abandonSecs then r.destroy else r
    else { r with channel := some { c with emptySince := none } }

def invite : Except ChannelError (Rows × List Ordered) := do
  if w.blocked account caller then pure (r, [])
  else
    r.readOnly
    let _ ← r.channelRow
    refuseIf (r.isAdmin caller = false) .notAnAdmin
    refuseIf (r.isDirectMessage C channel = true) .directMessage
    let was := r.roleOf account
    refuseIf (was.isNone ∧ r.counts.1 ≥ maxMembers) .full
    refuseIf (was.isNone ∧ w.unspokenFull account) .inviteQuota
    let event :=
      if was = none ∨ was = some role then Event.added
      else if role = .admin then Event.promoted
      else Event.demoted
    (r.enroll account role w.now).writeSystem C h channel
      (recordOf event account caller device action) [role.toByte] w.now

def mute (on : Bool) : Except ChannelError (Rows × List Ordered) := do
  r.readOnly
  let _ ← r.channelRow
  refuseIf (r.isAdmin caller = false) .notAnAdmin
  refuseIf ((r.roleOf account).isNone = true) .notAMember
  refuseIf (r.roleOf account = some .admin ∧ on = true) .lastAdmin
  let event := if on then Event.muted else Event.unmuted
  let (r, es) ← r.writeSystem C h channel (recordOf event account caller device action) [] w.now
  pure (r.alter account fun m => { m with muted := on }, es)

def replicate (C : Crypto) (h : Host) (channel : Bytes32) (w : Around) (r : Rows)
    (caller device peer : PubKey) (action : Action) (authorise : Bool) :
    Except ChannelError (Rows × List Ordered) := do
  let _ ← r.channelRow
  refuseIf (r.isAdmin caller = false) .notAnAdmin
  refuseIf (authorise = true ∧ peer ∉ r.replica ∧ r.replica.size ≥ maxReplicas) .tooManyReplicas
  let event := if authorise then Event.replicate else Event.unreplicate
  let (r, es) ← r.writeSystem C h channel (recordOf event peer caller device action) [] w.now
  pure ({ r with
    replica := if authorise then r.replica.insert peer else r.replica.erase peer }, es)

def moveAway (domain : String) (action : Action) (c : ChannelRow) :
    Except ChannelError (Rows × List Ordered) := do
  refuseIf (subject = h.exchange) .notAReplica
  refuseIf (subject ∉ r.replica) .notAReplica
  let (r, e) ← r.writeSystemBetween C h (place h channel c) (place h channel c)
    (recordOf Event.rehomed subject caller device action) [] w.now
  let followed : ReplicatedRow :=
    { origin := subject, windowSecs := c.epoch, derivable := true, equivocation := none,
      shaped := true, originDomain := domain }
  pure (Rows.recordOrigin { r with replicated := some followed } (e.seq + 1) subject h.exchange
    w.now, [e])

/-- A replica takes the channel over from an origin that has been away for long enough. The
admin signed at the origin's place; the receipt is from here. -/
def takeOver (away : Option UInt64) (minAway : UInt64) (c : ChannelRow) (copied : ReplicatedRow) :
    Except ChannelError (Rows × List Ordered) := do
  refuseIf (subject ≠ h.exchange) .notAReplica
  refuseIf (away.all (· < minAway) = true) (.originReachable (away.getD 0))
  refuseIf (copied.derivable = false) (.underived copied.origin)
  let here := place h channel c
  let (r, e) ← r.rebuildStanding.writeSystemBetween C h { here with exchange := copied.origin }
    here (recordOf Event.rehomed subject caller device action) [] w.now
  pure (Rows.recordOrigin { r with replicated := none } (e.seq + 1) subject copied.origin w.now,
    [e])

def rehome (domain : String) (action : Action) (away : Option UInt64) (minAway : UInt64) :
    Except ChannelError (Rows × List Ordered) := do
  let c ← r.channelRow
  refuseIf (r.isAdmin caller = false) .notAnAdmin
  refuseIf (r.lastRehome.any (fun last => w.now - min last.2 w.now < rehomeMinSecs) = true)
    (.originReachable 0)
  match r.replicated with
  | none => r.moveAway C h channel w caller device subject domain action c
  | some copied => r.takeOver C h channel w caller device subject action away minAway c copied

def remove : Except ChannelError (Rows × List Ordered) := do
  r.readOnly
  let _ ← r.channelRow
  refuseIf (r.isAdmin caller = false) .notAnAdmin
  refuseIf (r.isDirectMessage C channel = true) .directMessage
  refuseIf ((r.roleOf account).isNone = true) .notAMember
  refuseIf (r.roleOf account = some .admin ∧ r.counts.2 = 1 ∧ r.counts.1 > 1) .lastAdmin
  (r.unseat account).writeSystem C h channel
    (recordOf Event.removed account caller device action) [] w.now

/-- Whether a publish may be made at all, and whether it is the first of its envelopes. -/
def checkKeys (k : KeyWorld) (r : Rows) (c : ChannelRow) (caller : PubKey) (req : KeyPut) :
    Except ChannelError Bool := do
  let admin := r.isAdmin caller
  let rekeying := !admin && req.epoch != c.epoch && k.revokedSince caller c.epochAt
  refuseIf ((!admin && !rekeying &&
    req.envelopes.any fun e => k.accountOf e.recipient != caller) = true) .notAnAdmin
  refuseIf ((!admin && req.epoch != c.epoch && !rekeying) = true) .notAnAdmin
  refuseIf (req.envelopes.any (fun e => !e.genuine) = true) .badSignature
  let rec each : List Envelope → Except ChannelError Bool
    | [] => .ok true
    | e :: rest =>
      if e.prekeyId = 0 then .error .noPrekey
      else if (r.roleOf (k.accountOf e.recipient)).isNone then .error .notAMember
      else if k.taken e.recipient req.epoch then .ok false
      else each rest
  each req.envelopes

def putKeys (k : KeyWorld) (r : Rows) (caller device : PubKey) (req : KeyPut) :
    Except ChannelError (Rows × List Ordered) := do
  let c ← r.channelRow
  refuseIf (c.visibility ≠ .priv) .notPrivate
  refuseIf ((r.roleOf caller).isNone = true) r.unreadable
  refuseIf (req.epoch ≠ c.epoch ∧ req.epoch ≠ c.epoch + 1) .wrongEpoch
  refuseIf (req.epoch > maxEpoch) .wrongEpoch
  let accepted ← r.checkKeys k c caller req
  if accepted ∧ req.epoch = c.epoch + 1 then
    match req.action with
    | none => .error .badSignature
    | some action =>
      let c := { c with epoch := req.epoch, epochAt := w.now }
      Rows.writeSystem C h channel { r with channel := some c }
        (recordOf Event.rotated caller caller device action) (beBytes 4 req.epoch.toNat) w.now
  else pure (r, [])

def signal : Except ChannelError Unit := do
  let _ ← r.channelRow
  refuseIf ((r.roleOf caller).isNone = true) r.unreadable
  refuseIf (r.isMuted caller = true) .muted

def succeedAccount (successor : PubKey) (issued : UInt64) (sig : Bytes64) (now : UInt64) :
    Except ChannelError (Rows × List Ordered) :=
  match r.roleOf account, r.originRow with
  | some role, none =>
    (r.moveMember account successor role now).writeSuccession C h channel account successor
      issued sig now
  | _, _ => .ok (r, [])

def blank : Rows :=
  match r.entry[target.toInt64]? with
  | some row => { r with entry := r.entry.insert target.toInt64 row.redacted }
  | none => r

def redact : Except ChannelError Rows := do
  r.readOnly
  let _ ← r.channelRow
  match r.entry[target.toInt64]? with
  | none => .error .noSuchEntry
  | some row =>
    refuseIf (row.kind = kindSystem) .systemEntry
    refuseIf (row.account ≠ caller ∧ r.isAdmin caller = false) .notAnAdmin
    pure (r.blank target)

theorem blank_entry (seq : Int64) :
    (r.blank target).entry[seq]? =
      if target.toInt64 = seq then r.entry[seq]?.map EntryRow.redacted else r.entry[seq]? := by
  unfold blank
  cases hrow : r.entry[target.toInt64]? with
  | none =>
    by_cases hseq : target.toInt64 = seq
    · simp [← hseq, hrow]
    · simp [hseq]
  | some row =>
    rw [lookup_insert]
    by_cases hseq : target.toInt64 = seq
    · simp [← hseq, hrow]
    · simp [hseq]

end

theorem redact_ok {r r' : Rows} {caller : PubKey} {target : UInt64}
    (h : r.redact caller target = .ok r') : r' = r.blank target := by
  unfold redact at h
  obtain ⟨-, -, h⟩ := bind_eq_ok.mp h
  obtain ⟨-, -, h⟩ := bind_eq_ok.mp h
  cases hrow : r.entry[target.toInt64]? with
  | none => simp [hrow] at h
  | some row =>
    rw [hrow] at h
    obtain ⟨-, -, h⟩ := bind_eq_ok.mp h
    obtain ⟨-, -, h⟩ := bind_eq_ok.mp h
    exact (pure_eq_ok.mp h).symm

end Rows

end Operations

section Requests
open Std

/-- A time at which nothing outside the channel stands in the way of a request. -/
def Around.clear (now : UInt64) : Around where
  now := now
  blocked _ _ := false
  unspokenFull _ := false
  tooMany _ := false
  folded := none
  retired _ := false

def actedAt (C : Crypto) (channel : Bytes32) (event : UInt8) (subject actor : PubKey)
    (arg : Bytes) (chainSeq : UInt64) (prev : Bytes32) : Action × Bytes32 :=
  let terms : ActionTerms :=
    ⟨⟨1, 0, channel⟩, actor, C.publicKey 8, event, subject, arg, chainSeq, prev⟩
  match terms.input C with
  | .ok input => (⟨chainSeq, prev, C.sign 8 input⟩, link C input)
  | .error _ => (⟨chainSeq, prev, 0⟩, genesis)

def signedAction (event : UInt8) (subject actor : PubKey) (arg : Bytes) (chainSeq : UInt64)
    (prev : Bytes32) : Action × Bytes32 :=
  actedAt .toy 0 event subject actor arg chainSeq prev

def firstAction (event : UInt8) (subject actor : PubKey) : Action :=
  (signedAction event subject actor [] 0 genesis).1

inductive Request where
  | create (caller device : PubKey) (req : Create)
  | welcome (account : PubKey)
  | join (caller device : PubKey) (action : Action)
  | leave (caller device : PubKey) (action : Action)
  | post (account device : PubKey) (req : Post)
  | setDirectory (caller device : PubKey) (name topic : String) (action : Action)
  | retain (caller device : PubKey) (retentionSecs maxEntries : UInt32) (action : Action)
  | close (caller : PubKey)
  | sweep
  | invite (caller device account : PubKey) (role : Role) (action : Action)
  | mute (caller device account : PubKey) (action : Action) (on : Bool)
  | replicate (caller device peer : PubKey) (action : Action) (authorise : Bool)
  | rehome (caller device subject : PubKey) (domain : String) (action : Action)
      (away : Option UInt64) (minAway : UInt64)
  | remove (caller device account : PubKey) (action : Action)
  | putKeys (k : KeyWorld) (caller device : PubKey) (req : KeyPut)
  | signal (caller : PubKey)
  | succeed (account successor : PubKey) (issued : UInt64) (sig : Bytes64)
  | redact (caller : PubKey) (target : UInt64)

def quiet (r : Except ChannelError Rows) : Except ChannelError (Rows × List Ordered) :=
  r.map fun r => (r, [])

theorem quiet_eq_ok {x : Except ChannelError Rows} {r : Rows} {es : List Ordered} :
    quiet x = .ok (r, es) ↔ x = .ok r ∧ es = [] := by
  cases x with
  | error e => simp [quiet, Except.map]
  | ok r' => simp [quiet, Except.map, eq_comm]

namespace Rows

def perform (C : Crypto) (h : Host) (channel : Bytes32) (w : Around) (r : Rows) :
    Request → Except ChannelError (Rows × List Ordered)
  | .create caller device req => r.create C h channel w caller device req
  | .welcome account => quiet (r.welcome account w.now)
  | .join caller device action => r.join C h channel w caller device action
  | .leave caller device action => r.leave C h channel w caller device action
  | .post account device req => r.post C h channel w account device req
  | .setDirectory caller device name topic action =>
    r.setDirectory C h channel w caller device name topic action
  | .retain caller device retentionSecs maxEntries action =>
    r.retain C h channel w caller device retentionSecs maxEntries action
  | .close caller => quiet (r.close caller)
  | .sweep => .ok (r.sweep h w.now, [])
  | .invite caller device account role action =>
    r.invite C h channel w caller device account role action
  | .mute caller device account action on => r.mute C h channel w caller device account action on
  | .replicate caller device peer action authorise =>
    r.replicate C h channel w caller device peer action authorise
  | .rehome caller device subject domain action away minAway =>
    r.rehome C h channel w caller device subject domain action away minAway
  | .remove caller device account action => r.remove C h channel w caller device account action
  | .putKeys k caller device req => r.putKeys C h channel w k caller device req
  | .signal caller => quiet ((r.signal caller).map fun _ => r)
  | .succeed account successor issued sig =>
    r.succeedAccount C h channel account successor issued sig w.now
  | .redact caller target => quiet (r.redact caller target)

def performed (C : Crypto) (h : Host) (channel : Bytes32) (w : Around) (r : Rows) (req : Request) :
    Rows × List Ordered :=
  match r.perform C h channel w req with
  | .ok p => p
  | .error _ => (r, [])

theorem perform_of_isOk {C : Crypto} {h : Host} {channel : Bytes32} {w : Around} {r : Rows}
    {req : Request} (hok : (r.perform C h channel w req).isOk = true) :
    r.perform C h channel w req = .ok (r.performed C h channel w req) := by
  unfold performed
  cases hperform : r.perform C h channel w req with
  | error e =>
    rw [hperform] at hok
    cases hok
  | ok p => rfl

end Rows

end Requests

end Sqex.Exchange
