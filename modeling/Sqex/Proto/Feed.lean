import Sqex.Proto.EntrySig
import Sqex.Proto.SystemBody

/-! Posts in a feed: an account's log, numbered and linked by its author, and what is left
of a post whose body is gone. -/
namespace Sqex.Feed

def feedContext : Bytes := "sqex-feed-v1".toUTF8.toList

def maxBody : Nat := 32 * 1024
/-- Posts kept per feed before the oldest are evicted. -/
def maxPosts : Nat := 10000
def maxFeedBytes : Nat := 16 * 1024 * 1024
def minRetention : Nat := 3600
def defaultRetention : Nat := 365 * 24 * 3600
def maxRetention : Nat := 365 * 24 * 3600
def postHeader : Nat := 32 + 32 + 8 + 32 + 8 + 4 + 1 + 32 + 4

structure Post where
  account : PubKey
  device : PubKey
  serial : UInt64
  prev : Bytes32
  issuedAt : UInt64
  /-- Seconds after which the body goes, 0 for never. -/
  expiresAfter : UInt32
  flags : UInt8
  bodyHash : Bytes32
  body : Bytes
  signature : Bytes64
  deriving DecidableEq

namespace Post

section
variable (C : Crypto) (p : Post)

def inputHashed (bodyHash : Bytes32) : Bytes :=
  feedContext ++ Bytes32.toBytes (C.sha256
    (Bytes32.toBytes p.account ++ Bytes32.toBytes p.device ++ beBytes 8 p.serial.toNat ++
      Bytes32.toBytes p.prev ++ beBytes 8 p.issuedAt.toNat ++ beBytes 4 p.expiresAfter.toNat ++
      [p.flags] ++ Bytes32.toBytes bodyHash))

/-- Whether the signature holds, against the body hash the post carries. -/
def verify : Bool :=
  C.checks p.device (p.inputHashed C p.bodyHash) p.signature

def bodyMatches : Bool := p.body.isEmpty || C.sha256 p.body == p.bodyHash

def link (C : Crypto) (p : Post) : Bytes32 := Sqex.link C (p.inputHashed C p.bodyHash)

def tombstone : Post := { p with body := [] }

def withdrawn : Bool := p.body.isEmpty

def header : Bytes :=
  Bytes32.toBytes p.account ++ (Bytes32.toBytes p.device ++ (beBytes 8 p.serial.toNat ++
    (Bytes32.toBytes p.prev ++ (beBytes 8 p.issuedAt.toNat ++ (beBytes 4 p.expiresAfter.toNat ++
      ([p.flags] ++ (Bytes32.toBytes p.bodyHash ++ beBytes 4 p.body.length)))))))

def encode : Bytes := p.header ++ (p.body ++ Bytes64.toBytes p.signature)

def stored : Nat := postHeader + p.body.length + 64

theorem length_header : p.header.length = postHeader := by
  simp [header, postHeader, beBytes_length]

theorem length_encode : p.encode.length = p.stored := by
  simp [encode, stored, length_header]
  omega

theorem stored_tombstone : p.tombstone.stored + p.body.length = p.stored := by
  simp [stored, tombstone, postHeader]
  omega

end

end Post
end Sqex.Feed
