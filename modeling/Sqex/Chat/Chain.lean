import Sqex.Chat.Device

/-! A device's chain: the position each act is signed at, and when it counts as
taken. -/
namespace Sqex.Chat

section
variable (C : Crypto) (channel : Bytes32) (info : ChannelInfo)

/-- An incarnation the exchange stated, against the one held: another one ends
what is held of the channel. -/
def noteIncarnation (inst : Bytes32) : ChatM Unit := do
  let known ← reading (·.incarnation channel)
  match known with
  | some known =>
    if known = inst then pure ()
    else do
      resetSequenceSpace channel
      -- Noted for the next poll to report.
      writing (·.setIncarnation channel inst true)
  | none => writing (·.setIncarnation channel inst false)

/-- The next chain position and link: the greater of what is remembered and what
is reported. -/
def chainAt : ChatM (UInt64 × Bytes32) := do
  Call.doIf (info.inst ≠ 0) (noteIncarnation channel info.inst)
  let mine ← reading (·.chain channel)
  if mine.1 ≥ info.myChainSeq then pure mine else pure (info.myChainSeq, info.myChainHead)

structure Action where
  chainSeq : UInt64
  head : Bytes32

def sign (place : Place) (chainSeq reported : UInt64) (input : Bytes) : ChatM Action := do
  noting id fun _ => .signed place chainSeq reported input
  pure ⟨chainSeq, link C input⟩

def signAction (t : ActionTerms) (reported : UInt64) : ChatM Action :=
  match t.input C with
  | .error _ => Call.fail .protocol
  | .ok input => sign C t.place t.chainSeq reported input

def signActionAt (event : UInt8) (subject : PubKey) (arg : Bytes) : ChatM Action := do
  let next ← chainAt channel info
  let place ← place channel info.inst
  let d ← Call.get
  signAction C ⟨place, d.me, d.device, event, subject, arg, next.1, next.2⟩ info.myChainSeq

def postEntry (epoch : UInt32) (msgSeq : UInt64) (sealed_ : Bytes) (expiresAfter : UInt32)
    (posted : Option Unit) : ChatM Unit := do
  let next ← chainAt channel info
  let place ← place channel info.inst
  let d ← Call.get
  let terms : EntryTerms :=
    ⟨place, d.me, d.device, epoch, msgSeq, expiresAfter, next.1, next.2, sealed_⟩
  let action ← sign C place next.1 info.myChainSeq (terms.input C)
  answered posted
  setChain channel info.inst action.chainSeq action.head

end

/-- The acts on a channel that are one signed action and one request. -/
inductive MemberAct where
  | grant (who : PubKey) (role : Role)
  | mute (who : PubKey) (on : Bool)
  | setDirectory (retentionSecs maxEntries : UInt32) (name topic : String)
  | invite (who : PubKey)
  | remove (who : PubKey)
  | replicate (replica : PubKey) (authorise : Bool)
  | leave
  | setRetention (retentionSecs maxEntries : UInt32)

namespace MemberAct

def event : MemberAct → UInt8
  | grant _ role => if role = .admin then Event.promoted else Event.demoted
  | mute _ on => if on then Event.muted else Event.unmuted
  | setDirectory .. => Event.renamed
  | invite _ => Event.added
  | remove _ => Event.removed
  | replicate _ authorise => if authorise then Event.replicate else Event.unreplicate
  | leave => Event.left
  | setRetention .. => Event.retention

/-- Whom or what an act is about: the actor itself where it names nobody else. -/
def subject (me : PubKey) : MemberAct → PubKey
  | grant who _ | mute who _ | invite who | remove who => who
  | replicate replica _ => replica
  | setDirectory .. | leave | setRetention .. => me

def arg (C : Crypto) : MemberAct → Bytes
  | grant _ role => [role.toByte]
  | invite _ => [Role.member.toByte]
  | setDirectory retentionSecs maxEntries name topic =>
    constitution C .pub retentionSecs maxEntries name topic
  | setRetention retentionSecs maxEntries =>
    beBytes 4 retentionSecs.toNat ++ beBytes 4 maxEntries.toNat
  | mute .. | remove _ | replicate .. | leave => []

def allowed : MemberAct → Bool
  | setRetention retentionSecs _ => minRetention ≤ retentionSecs && retentionSecs ≤ maxRetention
  | _ => true

end MemberAct

section
variable (C : Crypto) (channel : Bytes32)

def memberAct (act : MemberAct) (info : Option ChannelInfo) (done : Option Unit) : ChatM Unit := do
  Call.failIf (act.allowed = false) .protocol
  let info ← answered info
  let d ← Call.get
  let action ← signActionAt C channel info act.event (act.subject d.me) (act.arg C)
  answered done
  setChain channel info.inst action.chainSeq action.head

def joinAt : Option ChannelInfo → ChatM (UInt64 × Bytes32)
  | some info => chainAt channel info
  | none => reading (·.chain channel)

/-- Join a public channel, in the incarnation its directory record names. -/
def join (inst : Bytes32) (info : Option ChannelInfo) (done : Option Unit) : ChatM Unit := do
  let next ← joinAt channel info
  let place ← place channel inst
  let d ← Call.get
  let action ← signAction C
    ⟨place, d.me, d.device, Event.joined, d.me, [], next.1, next.2⟩
    ((info.map (·.myChainSeq)).getD 0)
  answered done
  setChain channel inst action.chainSeq action.head

structure Create where
  channel : Bytes32
  visibility : Visibility
  retentionSecs : UInt32
  maxEntries : UInt32
  name : String
  topic : String
  invites : List Member

def signInvites (C : Crypto) (place : Place) : List Member → UInt64 → Bytes32 → ChatM Unit
  | [], _, _ => pure ()
  | i :: invites, chainSeq, prev => do
    let d ← Call.get
    let action ← signAction C
      ⟨place, d.me, d.device, Event.added, i.account, [i.role.toByte], chainSeq, prev⟩ 0
    signInvites C place invites (chainSeq + 1) action.head

/-- The actions of a create: from position 0, against the incarnation proposed. -/
def actionsForCreate (req : Create) (inst : Bytes32) : ChatM Unit := do
  let isPublic := req.visibility = .pub
  let founding := constitution C req.visibility req.retentionSecs req.maxEntries
    (if isPublic then req.name else "") (if isPublic then req.topic else "")
  let place ← place req.channel inst
  let d ← Call.get
  let opening ← signAction C
    ⟨place, d.me, d.device, Event.created, d.me, founding, 0, genesis⟩ 0
  signInvites C place req.invites 1 opening.head

structure Created where
  created : Bool
  inst : Bytes32

/-- Create a channel under an incarnation drawn for it, or come back to one that
stands under another. None of its steps is recorded. -/
def createSigned (req : Create) (inst : Bytes32) (ack : Option Created) (again : Option Created) :
    ChatM Unit := do
  actionsForCreate C req inst
  let ack ← answered ack
  if ack.created ∨ ack.inst = inst ∨ ack.inst = 0 then pure ()
  else do
    let info : ChannelInfo :=
      { visibility := .priv, epoch := 0, inst := ack.inst, last := 0, myMsgSeq := 0,
        myChainSeq := 0, myChainHead := genesis, members := [] }
    let d ← Call.get
    let _ ← signActionAt C req.channel info Event.joined d.me []
    let _ ← answered again

/-- What the exchange a chain is put back at answers, and what the entries held
here show of it. -/
structure ChainAnswers where
  info : Option ChannelInfo
  heads : Option (List (UInt64 × Bytes32))
  held : Option (UInt64 × Bytes32)

/-- The chain continues from the last entry the winning origin holds. -/
def chainBackToOrigin (a : ChainAnswers) : ChatM Unit :=
  match a.info with
  | none => pure ()
  | some info => do
    let target := if info.myChainSeq > 0 then (info.myChainSeq, info.myChainHead)
      else match a.heads.bind List.getLast? with
        | some (seq, head) => (seq + 1, head)
        | none => a.held.getD (0, genesis)
    let mine ← reading (·.chain channel)
    Call.doIf (mine.1 > target.1) (resetChain channel target.1 target.2)

/-- What a fork is found to strand: whether it was dealt with or nothing is held
above it, and whether an entry above it is the losing side's. -/
structure ForkAnswers where
  settled : Bool
  losing : Bool
  chain : ChainAnswers

/-- Deal with a fork a former origin lost, or with one this device makes itself. -/
def forkFound (fork : UInt64) (ownAct : Bool) (a : ForkAnswers) : ChatM Unit := do
  if a.settled ∧ ownAct = false then pure ()
  else if a.settled then chainBackToOrigin channel a.chain
  else do
    writing (·.truncateAbove channel fork)
    Call.doIf (a.losing ∨ ownAct) (chainBackToOrigin channel a.chain)

def rehome (subject : PubKey) (info : Option ChannelInfo) (fork : ForkAnswers) (done : Option Unit) :
    ChatM Unit := do
  let info ← answered info
  let d ← Call.get
  Call.doIf (subject = d.store.exchange ∧ d.store.signingScope channel ≠ subject)
    (forkFound channel info.last true fork)
  let action ← signActionAt C channel info Event.rehomed subject []
  answered done
  setChain channel info.inst action.chainSeq action.head
  writing (·.setHome channel subject)

end

end Sqex.Chat
