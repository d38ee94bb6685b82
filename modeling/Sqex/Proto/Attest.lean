import Sqex.Proto.EntryWire

/-! A signed statement by one identity about another, and the bytes it is handed over as. -/
namespace Sqex
open Wire

def attestContext : Bytes := "sqex-attestation-v1".toUTF8.toList

def claimOperates : UInt8 := 0x01
/-- Withdraws an earlier attestation by the same issuer, named by its digest. -/
def claimRevokes : UInt8 := 0x04

def maxClaim : Nat := 256
/-- Attestations one subject may accumulate before the oldest are dropped. -/
def maxPerSubject : Nat := 64
def maxValidity : UInt64 := 365 * 24 * 3600

structure Attestation where
  subject : PubKey
  issuer : PubKey
  claim : UInt8
  body : Bytes
  issuedAt : UInt64
  expiresAt : UInt64
  signature : Bytes64
  deriving DecidableEq

namespace Attestation

inductive Invalid where
  | badSignature
  /-- Not open at all, or open for longer than an attestation may be. -/
  | badWindow
  | notYetValid
  | expired
  | selfIssued
  deriving DecidableEq

variable (C : Crypto)

section
variable (a : Attestation) (subject issuer : PubKey) (claim : UInt8)

def signingInput (body : Bytes) (issuedAt expiresAt : UInt64) : Bytes :=
  attestContext ++ Bytes32.toBytes (C.sha256 (Bytes32.toBytes subject ++ Bytes32.toBytes issuer ++
    [claim] ++ beBytes 2 body.length ++ body ++ beBytes 8 issuedAt.toNat ++
    beBytes 8 expiresAt.toNat))

def input : Bytes :=
  signingInput C a.subject a.issuer a.claim a.body a.issuedAt a.expiresAt

def sign (seed : Bytes32) (subject : PubKey) (claim : UInt8) (body : Bytes)
    (issuedAt expiresAt : UInt64) : Attestation where
  subject := subject
  issuer := C.publicKey seed
  claim := claim
  body := body
  issuedAt := issuedAt
  expiresAt := expiresAt
  signature := C.sign seed
    (signingInput C subject (C.publicKey seed) claim body issuedAt expiresAt)

def verify (now : UInt64) : Except Invalid Unit :=
  if a.issuer = a.subject then .error .selfIssued
  else if a.expiresAt ≤ a.issuedAt ∨ a.expiresAt - a.issuedAt > maxValidity then .error .badWindow
  else if now < a.issuedAt then .error .notYetValid
  else if now > a.expiresAt then .error .expired
  else if C.checks a.issuer (a.input C) a.signature then .ok ()
  else .error .badSignature

def digest : Bytes32 := C.sha256 (a.input C)

def named : Option Bytes32 :=
  if a.body.length = 32 then some (BitVec.ofNat 256 (beNat a.body)) else none

def write : Bytes :=
  Bytes32.toBytes a.subject ++ (Bytes32.toBytes a.issuer ++ ([a.claim] ++
    (beBytes 2 a.body.length ++ (a.body ++ (beBytes 8 a.issuedAt.toNat ++
    (beBytes 8 a.expiresAt.toNat ++ Bytes64.toBytes a.signature))))))

def readRest (len : Nat) : Reading Attestation := do
  let body ← take len
  let issuedAt ← readU64
  let expiresAt ← readU64
  let signature ← readBytes64
  pure { subject, issuer, claim, body, issuedAt, expiresAt, signature }

def read : Reading Attestation := do
  let subject ← readBytes32
  let issuer ← readBytes32
  let claim ← readByte
  let len ← readNat 2
  if len > maxClaim then failure
  readRest subject issuer claim len

def typeLodge : UInt8 := 0x01

def encode : Bytes := typeLodge :: a.write

def decode (b : Bytes) : Option Attestation :=
  match b with
  | kind :: rest => if kind = typeLodge then whole read rest else none
  | [] => none

theorem reads_rest :
    Reads (readRest a.subject a.issuer a.claim a.body.length)
      (a.body ++ (beBytes 8 a.issuedAt.toNat ++ (beBytes 8 a.expiresAt.toNat ++
        Bytes64.toBytes a.signature))) a :=
  (reads_take rfl).bind <| (reads_u64 a.issuedAt).bind <| (reads_u64 a.expiresAt).bind <|
    (reads_bytes64 a.signature).last rfl

theorem spans_rest (len : Nat) :
    Spans (readRest subject issuer claim len) (len + (8 + (8 + (64 + 0)))) :=
  (spans_take len).bind fun _ => spans_u64.bind fun _ => spans_u64.bind fun _ =>
    spans_bytes64.bind fun _ => spans_pure _

theorem read_write :
    read a.write = (if a.body.length % 256 ^ 2 > maxClaim then none else
      readRest a.subject a.issuer a.claim (a.body.length % 256 ^ 2)
        (a.body ++ (beBytes 8 a.issuedAt.toNat ++ (beBytes 8 a.expiresAt.toNat ++
          Bytes64.toBytes a.signature)))) := by
  have hlen : Reads (readNat 2) (beBytes 2 a.body.length) (a.body.length % 256 ^ 2) := by
    rw [← beNat_beBytes]
    exact reads_nat 2 a.body.length
  rw [read, write, (reads_bytes32 a.subject).run_bind, (reads_bytes32 a.issuer).run_bind,
    (reads_byte a.claim).run_bind, hlen.run_bind]
  split
  · rfl
  · rfl

end

theorem decode_encode {a : Attestation} (h : a.body.length ≤ maxClaim) :
    decode a.encode = some a := by
  have hlen : a.body.length % 256 ^ 2 = a.body.length := by
    refine Nat.mod_eq_of_lt ?_
    unfold maxClaim at h
    omega
  have hread : read a.write = some (a, []) := by
    have hrest := reads_rest a []
    rw [List.append_nil] at hrest
    rw [read_write, hlen, if_neg (Nat.not_lt.mpr h), hrest]
  simp [decode, encode, whole, hread]

theorem eq_of_decode_encode {a b : Attestation} (h : decode a.encode = some b) : b = a := by
  by_cases hbody : a.body.length ≤ maxClaim
  · rw [decode_encode hbody] at h
    exact (Option.some.inj h).symm
  -- too long a body is refused by its length, or leaves bytes over
  exfalso
  have hread : read a.write = some (b, []) := by
    simp only [decode, encode, if_true, whole] at h
    split at h
    · next hsome =>
      rw [hsome]
      simpa using h
    · simp at h
  rw [read_write] at hread
  split at hread
  · simp at hread
  · next hshort =>
    have hspan := spans_rest _ _ _ _ _ _ _ hread
    simp only [List.length_append, beBytes_length, Bytes64.toBytes, List.length_nil] at hspan
    omega

end Attestation
end Sqex
