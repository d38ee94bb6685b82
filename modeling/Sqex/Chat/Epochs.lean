import Sqex.Chat.Chain
import Sqex.Lib.Runs

/-! Epoch keys and counters: which key a message is sealed under, which counter
with, and everything else a device does between two messages. -/
namespace Sqex.Chat
open Runs

/-- How a collection of keys went: whether the exchange answered, the keys that
opened in order, whether the rest of it went through, and the prekeys after it. -/
structure Collected where
  got : Option Unit
  keys : List (UInt32 × Bytes32)
  finished : Option Unit
  toppedUp : Option Unit

def putKey (channel : Bytes32) (epoch : UInt32) (key : Bytes32) : ChatM Unit :=
  writing (·.putKey channel epoch key)

section
variable (C : Crypto) (channel : Bytes32) (epoch : UInt32)

/-- Collect the epoch keys waiting for this device and store them. -/
def collectKeys (a : Collected) : ChatM Unit := do
  answered a.got
  Call.forEach (fun k => putKey channel k.1 k.2) a.keys
  answered a.finished
  if a.keys = [] then pure ()
  else do
    writing (·.rewind channel)
    answered a.toppedUp

/-- How minting an epoch goes: the key drawn, the envelopes sealed, what the
exchange reports, and whether it took the epoch. -/
structure Minted where
  key : Bytes32
  envelopes : Option Unit
  info : Option ChannelInfo
  accepted : Option Bool
  collected : Collected
  toppedUp : Option Unit

def signRotation (info : ChannelInfo) : ChatM (Option Action) := do
  let d ← Call.get
  if epoch > info.epoch then do
    let action ← signActionAt C channel info Event.rotated d.me (beBytes 4 epoch.toNat)
    pure (some action)
  else pure none

/-- The put was answered: the key is the epoch's, or somebody minted it first and
theirs is collected. -/
def minted (info : ChannelInfo) (signed : Option Action) (a : Minted) : Bool → ChatM Unit
  | true => do
    signed.elim (pure ()) fun action =>
      setChain channel info.inst action.chainSeq action.head
    putKey channel epoch a.key
  | false => collectKeys channel a.collected

def mintEpoch (a : Minted) : ChatM Unit := do
  answered a.envelopes
  let info ← answered a.info
  let signed ← signRotation C channel epoch info
  let accepted ← answered a.accepted
  minted channel epoch info signed a accepted
  answered a.toppedUp

/-- The epoch as a copy comes to report it: the reports after the first, in
order. -/
def settle (atLeast : UInt32) : UInt32 → List (Option UInt32) → ChatM UInt32
  | epoch, [] => pure epoch
  | _, a :: reports => do
    let epoch ← answered a
    if epoch ≥ atLeast then pure epoch else settle atLeast epoch reports

def epochSettled (atLeast : UInt32) (first : Option UInt32) (reports : List (Option UInt32)) :
    ChatM UInt32 := do
  let epoch ← answered first
  let d ← Call.get
  if epoch ≥ atLeast ∨ d.store.signingScope channel = d.store.exchange then pure epoch
  else settle atLeast epoch (reports.take 50)

structure EpochAnswers where
  info : Option ChannelInfo
  collected : Collected
  devices : Option Unit
  minted : Minted
  settled : Option UInt32
  reports : List (Option UInt32)

def ensureEpoch (a : EpochAnswers) : ChatM UInt32 := do
  let info ← answered a.info
  if info.visibility = .pub then pure 0
  else do
    let highest ← reading (·.highestEpoch channel)
    -- The epoch went backwards: another channel under the same name.
    Call.doIf (info.epoch < highest) (resetSequenceSpace channel)
    if info.epoch = 0 then do
      answered a.devices
      mintEpoch C channel 1 a.minted
      epochSettled channel 1 a.settled a.reports
    else do
      let held ← reading (·.key channel info.epoch)
      if held.isSome then pure info.epoch
      else do
        collectKeys channel a.collected
        let held ← reading (·.key channel info.epoch)
        if held.isSome then pure info.epoch
        else do
          let d ← Call.get
          Call.failIf (isAdmin info d.me = false) (.noKey info.epoch)
          answered a.devices
          mintEpoch C channel (info.epoch + 1) a.minted
          let after ← epochSettled channel (info.epoch + 1) a.settled a.reports
          let held ← reading (·.key channel after)
          if held.isSome then pure after else Call.fail (.noKey after)

def Store.counter (s : Store) (channel : Bytes32) (epoch : UInt32) : UInt64 :=
  let counted := s.cursor channel
  if counted.2.2 = epoch then counted.2.1 else 0

def Store.nextMsgSeq (s : Store) (channel : Bytes32) (epoch : UInt32) (reported : UInt64) :
    UInt64 := max (s.counter channel epoch) reported + 1

/-- Seal a body under the epoch's key with the next counter, and record the
counter. `written` is whether the record was reached and held. -/
def sealBody (reported : UInt64) (plain : Bytes) (written : Option Unit) :
    ChatM (UInt64 × Bytes) := do
  let msgSeq ← reading (·.nextMsgSeq channel epoch reported)
  if epoch = 0 then do
    answered written
    setMsgSeq channel epoch msgSeq none
    pure (msgSeq, plain)
  else do
    let key ← reading (·.key channel epoch)
    match key with
    | none => Call.fail (.noKey epoch)
    | some key => do
      let d ← Call.get
      noting id fun _ => .sealed channel key epoch msgSeq plain
      answered written
      setMsgSeq channel epoch msgSeq (some (key, epoch))
      pure (msgSeq, ChannelKey.seal C key channel epoch d.device msgSeq plain)

structure SendAnswers where
  epoch : EpochAnswers
  info : Option ChannelInfo
  written : Option Unit
  expiresAfter : UInt32
  posted : Option Unit

def beforeSealing (a : SendAnswers) : ChatM (UInt32 × ChannelInfo) := do
  let epoch ← ensureEpoch C channel a.epoch
  let info ← answered a.info
  pure (epoch, info)

def sendBody (plain : Bytes) (a : SendAnswers) : ChatM Unit := do
  let ready ← beforeSealing C channel a
  let out ← sealBody C channel ready.1 ready.2.myMsgSeq plain a.written
  postEntry C channel ready.2 ready.1 out.1 out.2 a.expiresAfter a.posted

def maxAdds : Nat := 64
def maxRemoves : Nat := 64

def sorted (keys : List PubKey) : List PubKey := (keys.mergeSort (· ≤ ·)).dedup

/-- What is answered while a commit is made: to each admission and removal, then
to the rotation, then to the entry. `key` is what the commit derives. -/
structure CommitAnswers where
  acts : PubKey → Option ChannelInfo × Option Unit
  info : Option ChannelInfo
  key : Option Bytes32
  plain : Bytes
  envelopes : Option Unit
  accepted : Option Bool
  toppedUp : Option Unit
  collected : Collected
  after : Option ChannelInfo
  posted : Option Unit

/-- Change the epoch by a commit. Its entry is in the clear: a counter is taken
for it, and nothing is sealed. -/
def commit (agreed : Bool) (adds removes : List PubKey) (a : CommitAnswers) : ChatM Unit := do
  Call.failIf (agreed = false) .notAgreed
  let d ← Call.get
  let adds := sorted adds
  let removes := sorted removes
  Call.failIf (adds.length > maxAdds ∨ removes.length > maxRemoves) .protocol
  Call.failIf (adds.any (removes.contains ·)) .protocol
  Call.failIf (adds.contains d.me) .protocol
  Call.forEach (fun who => memberAct C channel (.invite who) (a.acts who).1 (a.acts who).2) adds
  Call.forEach (fun who => memberAct C channel (.remove who) (a.acts who).1 (a.acts who).2)
    removes
  let info ← answered a.info
  let epoch := info.epoch + 1
  let key ← answered a.key
  answered a.envelopes
  let action ← signActionAt C channel info Event.rotated d.me (beBytes 4 epoch.toNat)
  let accepted ← answered a.accepted
  answered a.toppedUp
  if accepted then do
    setChain channel info.inst action.chainSeq action.head
    putKey channel epoch key
    let info ← answered a.after
    let msgSeq ← reading (·.nextMsgSeq channel epoch info.myMsgSeq)
    setMsgSeq channel epoch msgSeq none
    postEntry C channel info epoch msgSeq a.plain 0 a.posted
  else collectKeys channel a.collected

end

/-- Everything a device does to its store and its chains, one call at a time. -/
inductive Op where
  | sendBody (channel : Bytes32) (plain : Bytes) (a : SendAnswers)
  | commit (channel : Bytes32) (agreed : Bool) (adds removes : List PubKey) (a : CommitAnswers)
  | memberAct (channel : Bytes32) (act : MemberAct) (info : Option ChannelInfo)
      (done : Option Unit)
  | mintEpoch (channel : Bytes32) (epoch : UInt32) (a : Minted)
  | join (channel inst : Bytes32) (info : Option ChannelInfo) (done : Option Unit)
  | create (req : Create) (inst : Bytes32) (ack again : Option Created)
  | rehome (channel : Bytes32) (subject : PubKey) (info : Option ChannelInfo)
      (fork : ForkAnswers) (done : Option Unit)
  | home (channel : Bytes32) (origin : PubKey)
  | forkFound (channel : Bytes32) (fork : UInt64) (a : ForkAnswers)
  /-- Keys came in: an envelope collected, a sibling's, a backup's. -/
  | arrive (channel : Bytes32) (epoch : UInt32) (key : Bytes32)
  | poll (channel : Bytes32) (since : UInt64)
  /-- A poll found another incarnation, or a log that starts again. -/
  | reset (channel : Bytes32)
  | restart (exchange : PubKey)
  | followHandover (src dst : PubKey)
  | moveHome (dst : PubKey)

namespace Op

def call (C : Crypto) : Op → ChatM Unit
  | sendBody channel plain a => Chat.sendBody C channel plain a
  | commit channel agreed adds removes a => Chat.commit C channel agreed adds removes a
  | memberAct channel act info done => Chat.memberAct C channel act info done
  | mintEpoch channel epoch a => Chat.mintEpoch C channel epoch a
  | join channel inst info done => Chat.join C channel inst info done
  | create req inst ack again => createSigned C req inst ack again
  | rehome channel subject info fork done => Chat.rehome C channel subject info fork done
  | home channel origin => writing (·.setHome channel origin)
  | forkFound channel fork a => Chat.forkFound channel fork false a
  | arrive channel epoch key => putKey channel epoch key
  | poll channel since => writing (·.setSince channel since)
  | reset channel => resetSequenceSpace channel
  | restart exchange => writing (·.reopen exchange)
  | followHandover src dst => refile src dst true (·.followHandover src dst)
  | moveHome dst => do
    let src ← reading (·.exchange)
    Call.failIf (src = dst) .protocol
    refile src dst false (·.moveHome src dst)
    writing (·.reopen dst)

end Op

def Device.step (C : Crypto) (d : Device) (op : Op) : Device := (op.call C).after d

end Sqex.Chat
