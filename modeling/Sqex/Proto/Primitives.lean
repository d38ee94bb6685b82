import Mathlib.Data.BitVec
import Std.Data.ExtTreeMap
import Std.Data.ExtTreeSet

/-! Fixed-width byte strings, the error type the crates share, the cryptographic functions the
code calls, taken as parameters, and where something is reached. -/
namespace Sqex

abbrev Bytes := List UInt8
abbrev Bytes32 := BitVec 256
abbrev Bytes64 := BitVec 512

abbrev PubKey := Bytes32

-- named once, so that no table or membership test carries a proof of its own
instance : Std.TransOrd Bytes32 := inferInstance
instance : LawfulBEq Bytes32 := inferInstance

def beBytes (n b : Nat) : Bytes :=
  match n with
  | 0 => []
  | n + 1 => UInt8.ofNat (b >>> (8 * n)) :: beBytes n b

def Bytes32.toBytes (b : Bytes32) : Bytes := beBytes 32 b.toNat
def Bytes64.toBytes (b : Bytes64) : Bytes := beBytes 64 b.toNat

theorem beBytes_length (n b : Nat) : (beBytes n b).length = n := by
  induction n with
  | zero => rfl
  | succ n ih => simp [beBytes, ih]

/-- The value of a string of bytes, most significant first. -/
def beNat (bs : Bytes) : Nat := bs.foldl (fun n b => n * 256 + b.toNat) 0

/-- The failures the protocol crate reports, with their texts. -/
inductive Error where
  | malformed (text : String)
  | key (text : String)
  | badSignature
  deriving DecidableEq, Repr

/-- Hashes, signatures and key agreement as the code calls them. Nothing is
assumed of them unless a result says so. -/
structure Crypto where
  sha256 : Bytes → Bytes32
  sha512 : Bytes → Bytes64
  hmacSha256 : Bytes → Bytes → Bytes32
  /-- Authenticated encryption under a key and a nonce. -/
  encrypt : Bytes32 → Bytes → Bytes → Bytes
  decrypt : Bytes32 → Bytes → Bytes → Option Bytes
  keyError : PubKey → Option String
  /-- Whether a key that parsed verifies a signature over a message. -/
  verifies : PubKey → Bytes → Bytes64 → Bool
  publicKey : Bytes32 → PubKey
  sign : Bytes32 → Bytes → Bytes64
  x25519Public : Bytes32 → Bytes32
  x25519 : Bytes32 → Bytes32 → Except String Bytes32
  /-- The agreement secret of a signing seed. -/
  privateToX25519 : Bytes32 → Bytes32
  identityToX25519 : PubKey → Except String Bytes32

def Crypto.checks (C : Crypto) (key : PubKey) (message : Bytes) (sig : Bytes64) : Bool :=
  (C.keyError key).isNone && C.verifies key message sig

/-- A small stand-in to evaluate on: a rolling digest, and a signature that is a
digest of the key and the message. -/
def Crypto.toy : Crypto where
  sha256 m := m.foldl (fun d b => d * 257#256 + BitVec.ofNat 256 (b.toNat + 1)) 7#256
  sha512 m := m.foldl (fun d b => d * 257#512 + BitVec.ofNat 512 (b.toNat + 1)) 9#512
  hmacSha256 key m :=
    (key ++ m).foldl (fun d b => d * 257#256 + BitVec.ofNat 256 (b.toNat + 1)) 11#256
  encrypt key nonce plain := Bytes32.toBytes key ++ nonce ++ plain
  decrypt key nonce c :=
    let header := Bytes32.toBytes key ++ nonce
    if header <+: c then some (c.drop header.length) else none
  keyError _ := none
  verifies key m sig :=
    sig == m.foldl (fun d b => d * 257#512 + BitVec.ofNat 512 (b.toNat + 1))
      (key.setWidth 512 + 1#512)
  publicKey seed := seed + 1#256
  sign seed m :=
    m.foldl (fun d b => d * 257#512 + BitVec.ofNat 512 (b.toNat + 1))
      ((seed + 1#256).setWidth 512 + 1#512)
  x25519Public secret := secret + 2#256
  x25519 secret key := .ok (secret + key)
  privateToX25519 seed := seed
  identityToX25519 key := .ok (key + 1#256)

inductive IpAddr where
  | v4 (ip : BitVec 32)
  | v6 (ip : BitVec 128)
  deriving DecidableEq

structure SocketAddr where
  ip : IpAddr
  port : UInt16
  deriving DecidableEq

def IpAddr.isV4 : IpAddr → Bool
  | .v4 _ => true
  | .v6 _ => false

/-- An IPv4 address that is written as an IPv6 one, `::ffff:a.b.c.d`, is an IPv4 address. -/
def IpAddr.toCanonical : IpAddr → IpAddr
  | .v4 ip => .v4 ip
  | .v6 ip => if ip >>> 32 = 0xffff then .v4 (ip.setWidth 32) else .v6 ip

def SocketAddr.unspecified (v4 : Bool) : SocketAddr := ⟨if v4 then .v4 0 else .v6 0, 0⟩

end Sqex
