import Sqex.Proto.Primitives

/-! An end-to-end session between two identities: its key, and the answers by which
an exchange sets one up without learning it. -/
namespace Sqex

def sessionContext : Bytes := "sqex-session-v1".toUTF8.toList

def maxFrame : Nat := 32 * 1024
def maxDatagramFrame : Nat := 1024
def maxQueuedBytes : Nat := 1024 * 1024
def maxQueuedFrames : Nat := 256
/-- Seconds a session, or an unmatched request to open one, is kept. -/
def sessionTtl : Nat := 60 * 60

namespace Session

/-- Which end of the session a peer is, by the order of the two identities. -/
inductive Role where
  | first | second
  deriving DecidableEq

def Role.of (me peer : PubKey) : Role := if me ≤ peer then .first else .second

def Role.direction : Role → UInt8
  | .first => 0
  | .second => 1

def Role.other : Role → Role
  | .first => .second
  | .second => .first

end Session

structure Session where
  key : Bytes32
  role : Session.Role
  deriving DecidableEq

namespace Session

def keyed {α : Type} (what : String) : Except String α → Except Error α
  | .ok a => .ok a
  | .error e => .error (.key s!"{what}: {e}")

/-- Derive the shared key: three agreements between the statics and the ephemerals
of the two, bound to both identities and both ephemerals. -/
def derive (C : Crypto) (mySeed myEphemeralSecret : Bytes32) (peer : PubKey)
    (peerEphemeral : Bytes32) : Except Error Session := do
  let me := C.publicKey mySeed
  let myStatic := C.privateToX25519 mySeed
  let peerStatic ← keyed "peer identity" (C.identityToX25519 peer)
  let myEphPub := C.x25519Public myEphemeralSecret
  let role := Role.of me peer
  let mine := C.x25519 myEphemeralSecret peerStatic
  let theirs := C.x25519 myStatic peerEphemeral
  let dh1 ← keyed "session DH1" (match role with | .first => mine | .second => theirs)
  let dh2 ← keyed "session DH2" (match role with | .first => theirs | .second => mine)
  let dh3 ← keyed "session DH3" (C.x25519 myEphemeralSecret peerEphemeral)
  let (first, second) := match role with | .first => (me, peer) | .second => (peer, me)
  let (ephFirst, ephSecond) := match role with
    | .first => (myEphPub, peerEphemeral)
    | .second => (peerEphemeral, myEphPub)
  let okm := C.sha512 (sessionContext ++ Bytes32.toBytes first ++ Bytes32.toBytes second ++
    Bytes32.toBytes ephFirst ++ Bytes32.toBytes ephSecond ++ Bytes32.toBytes dh1 ++
    Bytes32.toBytes dh2 ++ Bytes32.toBytes dh3)
  pure ⟨okm.extractLsb' 256 256, role⟩

/-- Nonce for a frame: the sender's direction, then the frame's sequence number. -/
def nonce (direction : UInt8) (seq : UInt64) : Bytes :=
  direction :: beBytes 8 seq.toNat ++ List.replicate 3 0

def sealFrame (C : Crypto) (s : Session) (seq : UInt64) (plaintext : Bytes) :
    Except Error Bytes :=
  if plaintext.length > maxFrame then
    .error (.malformed s!"frame is {plaintext.length} bytes, limit is {maxFrame}")
  else .ok (C.encrypt s.key (nonce s.role.direction seq) plaintext)

def openFrame (C : Crypto) (s : Session) (seq : UInt64) (ciphertext : Bytes) :
    Except Error Bytes :=
  match C.decrypt s.key (nonce s.role.other.direction seq) ciphertext with
  | some plaintext => .ok plaintext
  | none => .error (.key "cannot open frame: wrong key, or altered")

def sealDatagram (C : Crypto) (s : Session) (seq : UInt64) (plaintext : Bytes) :
    Except Error Bytes :=
  if plaintext.length > maxDatagramFrame then
    .error (.malformed
      s!"datagram frame is {plaintext.length} bytes, limit is {maxDatagramFrame}")
  else s.sealFrame C seq plaintext

end Session

/-- Whether the other side has asked too. -/
inductive OpenState where
  | waiting | established
  deriving DecidableEq

structure OpenAck where
  state : OpenState
  sessionId : UInt64
  peerEphemeral : Bytes32
  now : UInt64
  deriving DecidableEq

inductive CallState where
  | ringing | established | rejected
  deriving DecidableEq

/-- The exchange's answer to a call: with the identity of the device that answered. -/
structure CallAck where
  state : CallState
  reason : UInt8
  sessionId : UInt64
  peer : PubKey
  peerEphemeral : Bytes32
  now : UInt64
  deriving DecidableEq

structure DatagramFrame where
  sessionId : UInt64
  seq : UInt64
  ciphertext : Bytes
  deriving DecidableEq

end Sqex
