import Sqex.Proto.Channel

/-! Signed and chained entries: what an entry signature and an action signature
cover, and how they are checked. -/
namespace Sqex

def entryContext : Bytes := "sqex-entry-v1".toUTF8.toList
def actionContext : Bytes := "sqex-action-v1".toUTF8.toList

/-- Bytes an action's own parameters may occupy. -/
def maxArg : Nat := 32

/-- A device's first link in a channel. -/
def genesis : Bytes32 := 0

structure EntryTerms where
  place : Place
  account : PubKey
  device : PubKey
  epoch : UInt32
  msgSeq : UInt64
  expiresAfter : UInt32
  chainSeq : UInt64
  prev : Bytes32
  body : Bytes
  deriving DecidableEq

/-- Everything a membership-action signature commits to. -/
structure ActionTerms where
  place : Place
  actor : PubKey
  actorDevice : PubKey
  event : UInt8
  subject : PubKey
  arg : Bytes
  chainSeq : UInt64
  prev : Bytes32
  deriving DecidableEq

section
variable (C : Crypto) (t : EntryTerms)

def EntryTerms.inputHashed (bodyHash : Bytes32) : Bytes :=
  entryContext ++ Bytes32.toBytes (C.sha256
    (t.place.toBytes ++ Bytes32.toBytes t.account ++ Bytes32.toBytes t.device ++
      beBytes 4 t.epoch.toNat ++ beBytes 8 t.msgSeq.toNat ++ beBytes 4 t.expiresAfter.toNat ++
      beBytes 8 t.chainSeq.toNat ++ Bytes32.toBytes t.prev ++ Bytes32.toBytes bodyHash))

def EntryTerms.input : Bytes := t.inputHashed C (C.sha256 t.body)

def ActionTerms.input (t : ActionTerms) : Except Error Bytes :=
  if t.arg.length > maxArg then
    .error (.malformed s!"action arg is {t.arg.length} bytes, limit is {maxArg}")
  else .ok (actionContext ++ Bytes32.toBytes (C.sha256
    (t.place.toBytes ++ Bytes32.toBytes t.actor ++ Bytes32.toBytes t.actorDevice ++ [t.event] ++
      Bytes32.toBytes t.subject ++ [UInt8.ofNat t.arg.length] ++ t.arg ++
      beBytes 8 t.chainSeq.toNat ++ Bytes32.toBytes t.prev)))

/-- The next `prev` in a device's chain: the hash of the input it just signed. -/
def link (input : Bytes) : Bytes32 := C.sha256 input

def verifyEntry (sig : Bytes64) : Bool :=
  C.checks t.device (t.input C) sig

def verifyEntryHashed (bodyHash : Bytes32) (sig : Bytes64) :
    Bool := C.checks t.device (t.inputHashed C bodyHash) sig

def verifyAction (t : ActionTerms) (sig : Bytes64) : Bool :=
  match t.input C with
  | .ok input => C.checks t.actorDevice input sig
  | .error _ => false

end

def Entry.terms (e : Entry) (place : Place) : EntryTerms where
  place := place
  account := e.account
  device := e.device
  epoch := e.epoch
  msgSeq := e.msgSeq
  expiresAfter := e.expiresAfter
  chainSeq := e.chainSeq
  prev := e.prev
  body := e.body

end Sqex
