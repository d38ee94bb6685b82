import Sqex.Proto.Primitives

/-! A channel's log on the wire: its entries, the exchange's own records among them, the receipt
that says where an entry was put, and the key its entries are sealed with. -/
namespace Sqex

def kindSystem : UInt8 := 0x00
def kindMember : UInt8 := 0x01

/-- Whether a channel is listed and readable by anyone who joins. -/
inductive Visibility where
  | priv | pub
  deriving DecidableEq

def Visibility.toByte : Visibility → UInt8
  | .priv => 0
  | .pub => 1

inductive Role where
  | member | admin
  deriving DecidableEq

def Role.toByte : Role → UInt8
  | .member => 0
  | .admin => 1

/-- The greater of two roles, an admin above a member. -/
def Role.max : Role → Role → Role
  | .admin, _ => .admin
  | _, .admin => .admin
  | _, _ => .member

def minRetention : UInt32 := 60 * 60
def maxRetention : UInt32 := 365 * 24 * 60 * 60

namespace Event
def added : UInt8 := 0x01
def removed : UInt8 := 0x02
def left : UInt8 := 0x03
def joined : UInt8 := 0x04
def promoted : UInt8 := 0x05
def demoted : UInt8 := 0x06
def rotated : UInt8 := 0x07
def retention : UInt8 := 0x08
def created : UInt8 := 0x09
/-- The actor changed a public channel's name or topic. -/
def renamed : UInt8 := 0x0a
def replicate : UInt8 := 0x0b
def unreplicate : UInt8 := 0x0c
def succeeded : UInt8 := 0x0d
/-- The actor moved the channel's origin to the subject, an exchange. -/
def rehomed : UInt8 := 0x0e
def muted : UInt8 := 0x0f
def unmuted : UInt8 := 0x10
end Event

structure Place where
  exchange : PubKey
  /-- 32 random bytes minted per channel incarnation. -/
  incarnation : Bytes32
  channel : Bytes32
  deriving DecidableEq

def Place.toBytes (p : Place) : Bytes :=
  Bytes32.toBytes p.exchange ++ Bytes32.toBytes p.incarnation ++ Bytes32.toBytes p.channel

/-- The body of an entry the exchange wrote itself. -/
structure System where
  event : UInt8
  subject : PubKey
  actor : PubKey
  actorDevice : PubKey
  chainSeq : UInt64
  prev : Bytes32
  sig : Bytes64
  deriving DecidableEq

section
variable (C : Crypto) (key channel : Bytes32) (epoch : UInt32) (device : PubKey) (msgSeq : UInt64)

/-- What a `created` or `renamed` action commits to: a digest of whether the
channel is public, what it is called and how long it keeps things. -/
def constitution (visibility : Visibility) (retentionSecs maxEntries : UInt32) (name topic : String) :
    Bytes :=
  let name := name.toUTF8.toList
  let topic := topic.toUTF8.toList
  Bytes32.toBytes (C.sha256
    (visibility.toByte :: beBytes 4 retentionSecs.toNat ++ beBytes 4 maxEntries.toNat ++
      [UInt8.ofNat name.length] ++ name ++ beBytes 2 topic.length ++ topic))

def systemLen : Nat := 1 + 32 + 32 + 32 + 8 + 32 + 64

def System.encode (s : System) : Bytes :=
  s.event :: Bytes32.toBytes s.subject ++ Bytes32.toBytes s.actor ++
    Bytes32.toBytes s.actorDevice ++ beBytes 8 s.chainSeq.toNat ++ Bytes32.toBytes s.prev ++
    Bytes64.toBytes s.sig

def natAt (b : Bytes) (start n : Nat) : Nat := beNat ((b.drop start).take n)

/-- `none` for an event this version does not know, which a reader ignores. -/
def System.decode (b : Bytes) : Except Error (Option System) :=
  if b.length ≠ systemLen then
    .error (.malformed s!"system entry is {b.length} bytes, want {systemLen}")
  else
    let event := b.headD 0
    if event = 0 ∨ event > Event.unmuted then .ok none
    else .ok (some {
      event
      subject := BitVec.ofNat 256 (natAt b 1 32)
      actor := BitVec.ofNat 256 (natAt b 33 32)
      actorDevice := BitVec.ofNat 256 (natAt b 65 32)
      chainSeq := UInt64.ofNat (natAt b 97 8)
      prev := BitVec.ofNat 256 (natAt b 105 32)
      sig := BitVec.ofNat 512 (natAt b 137 64) })

structure Receipted where
  entryHash : Bytes32
  head : Bytes32
  receipt : Bytes64
  deriving DecidableEq

structure Entry where
  seq : UInt64
  kind : UInt8
  account : PubKey
  device : PubKey
  posted : UInt64
  expiresAfter : UInt32
  epoch : UInt32
  msgSeq : UInt64
  chainSeq : UInt64
  prev : Bytes32
  bodyHash : Bytes32
  sig : Bytes64
  stamp : Option Receipted
  body : Bytes
  deriving DecidableEq

def keyContext : Bytes := "sqex-channel-key-v1".toUTF8.toList

/-- The subkey a device seals with: the first 32 bytes of a hash of the entry's
header and the channel's key. -/
def ChannelKey.senderKey : Bytes32 :=
  (C.sha512 (keyContext ++ Bytes32.toBytes channel ++ beBytes 4 epoch.toNat ++
    Bytes32.toBytes key ++ Bytes32.toBytes device)).extractLsb' 256 256

def nonce : Bytes := beBytes 8 msgSeq.toNat ++ List.replicate 4 0

/-- Seal one entry body. `msgSeq` is the device's own counter and must not repeat
within an epoch. -/
def ChannelKey.seal (plain : Bytes) : Bytes :=
  C.encrypt (ChannelKey.senderKey C key channel epoch device) (nonce msgSeq) plain

def ChannelKey.open' (ciphertext : Bytes) : Option Bytes :=
  C.decrypt (ChannelKey.senderKey C key channel epoch device) (nonce msgSeq) ciphertext

end

end Sqex
