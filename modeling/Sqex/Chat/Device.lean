import Sqex.Chat.Store
import Sqex.Lib.Calls

/-! A device of an account: its store, and the history of what it sealed, signed and recorded. Each
request's answer is an argument: `none` where it was refused, failed or never came. A device that
stops part way is a call whose request has no answer, and then `restart`. -/
namespace Sqex.Chat

inductive ChatError where
  | unanswered
  | protocol
  | notAgreed
  | noKey (epoch : UInt32)
  deriving DecidableEq

inductive Event where
  | sealed (channel key : Bytes32) (epoch : UInt32) (msgSeq : UInt64) (plain : Bytes)
  /-- A counter was recorded in a row, which holds `held` as its epoch from then;
  `under` is what was sealed with it. -/
  | counted (scope : PubKey) (channel : Bytes32) (held : UInt32)
      (under : Option (Bytes32 × UInt32))
  | signed (place : Place) (chainSeq reported : UInt64) (input : Bytes)
  /-- The act signed there was answered as accepted, and recorded. -/
  | chained (place : Place) (chainSeq : UInt64)
  | putBack (scope : PubKey) (channel : Bytes32) (next : UInt64)
  | cleared (scope : PubKey) (channel : Bytes32)
  /-- Rows were filed under another key, which held counter rows of its own for
  the channels `taken`. -/
  | refiled (src dst : PubKey) (chains : Bool) (taken : Bytes32 → Bool)

structure Device where
  me : PubKey
  device : PubKey
  store : Store
  /-- The history, the newest first. Nothing the device does reads it. -/
  history : List Event

def Device.fresh (me device exchange : PubKey) : Device where
  me := me
  device := device
  store := { exchange, homes := fun _ => none, filed := fun _ _ => .empty }
  history := []

abbrev ChatM := Call ChatError Device

structure Member where
  account : PubKey
  role : Role
  deriving DecidableEq

structure ChannelInfo where
  visibility : Visibility
  epoch : UInt32
  inst : Bytes32
  last : UInt64
  myMsgSeq : UInt64
  myChainSeq : UInt64
  myChainHead : Bytes32
  members : List Member
  deriving DecidableEq

def isAdmin (info : ChannelInfo) (who : PubKey) : Bool :=
  info.members.any fun m => m.account == who && m.role == .admin

def answered {α : Type} (a : Option α) : ChatM α := Call.expect .unanswered a

def writing (f : Store → Store) : ChatM Unit :=
  Call.modify fun d => { d with store := f d.store }

def noting (f : Store → Store) (event : Device → Event) : ChatM Unit :=
  Call.modify fun d => { d with store := f d.store, history := event d :: d.history }

def reading {α : Type} (f : Store → α) : ChatM α := do
  let d ← Call.get
  pure (f d.store)

def exchangeOf (channel : Bytes32) : ChatM PubKey := reading (·.signingScope channel)

def place (channel inst : Bytes32) : ChatM Place := do
  let exchange ← exchangeOf channel
  pure ⟨exchange, inst, channel⟩

def resetSequenceSpace (channel : Bytes32) : ChatM Unit :=
  noting (·.resetSequenceSpace channel) fun d => .cleared d.store.scope channel

def resetChain (channel : Bytes32) (next : UInt64) (head : Bytes32) : ChatM Unit :=
  noting (·.resetChain channel next head)
    fun d => .putBack (d.store.signingScope channel) channel next

/-- Record an accepted step of the chain, at the place the channel is ordered. -/
def setChain (channel inst : Bytes32) (chainSeq : UInt64) (head : Bytes32) : ChatM Unit :=
  noting (·.setChain channel chainSeq head)
    fun d => .chained ⟨d.store.signingScope channel, inst, channel⟩ chainSeq

/-- Record the counter just used; `under` is what it was used with. -/
def setMsgSeq (channel : Bytes32) (epoch : UInt32) (msgSeq : UInt64)
    (under : Option (Bytes32 × UInt32)) : ChatM Unit :=
  noting (·.setMsgSeq channel epoch msgSeq) fun d =>
    let scope := d.store.signingScope channel
    let row := CursorRow.counted (d.store.filed scope channel).cursor epoch msgSeq.toInt64
    .counted scope channel row.epoch under

def refile (src dst : PubKey) (chains : Bool) (f : Store → Store) : ChatM Unit :=
  noting f fun d => .refiled src dst chains fun channel =>
    (d.store.filed dst channel).cursor.isSome

end Sqex.Chat
