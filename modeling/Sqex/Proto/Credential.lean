import Sqex.Proto.Fields

/-! Delegation credentials, an account's grant to a key, for one service, until a time; and as they
are written and read back. -/
namespace Sqex

section Delegation
def delegationContext : Bytes := "sqnr-delegate-v1".toUTF8.toList

def scopeChat : String := "sqex-chat"

structure Credential where
  account : PubKey
  delegate : PubKey
  scope : String
  issued : UInt64
  notAfter : UInt64
  signature : Bytes64
  deriving DecidableEq

inductive Invalid where
  | wrongAccount | expired | notYetValid | wrongScope | badSignature
  deriving DecidableEq

def Invalid.debug : Invalid → String
  | .wrongAccount => "WrongAccount"
  | .expired => "Expired"
  | .notYetValid => "NotYetValid"
  | .wrongScope => "WrongScope"
  | .badSignature => "BadSignature"

namespace Credential

/-- Everything but the signature, which is what the signature covers. -/
def body (account delegate : PubKey) (scope : String) (issued notAfter : UInt64) : Bytes :=
  let scope := scope.toUTF8.toList
  Bytes32.toBytes account ++ Bytes32.toBytes delegate ++ [UInt8.ofNat scope.length] ++ scope ++
    beBytes 8 issued.toNat ++ beBytes 8 notAfter.toNat

def signingInput (C : Crypto) (body : Bytes) : Bytes :=
  delegationContext ++ Bytes32.toBytes (C.sha256 body)

/-- Check it, stopping at the first failure. The delegate is a name the account
bound itself to; that its holder is present is for the transport to say. -/
def verify (C : Crypto) (c : Credential) (expectAccount : PubKey) (expectScope : String)
    (now : UInt64) : Except Invalid Unit :=
  if c.account ≠ expectAccount then .error .wrongAccount
  else if now < c.issued then .error .notYetValid
  else if now > c.notAfter then .error .expired
  else if c.scope ≠ expectScope then .error .wrongScope
  else if C.checks c.account
      (signingInput C (body c.account c.delegate c.scope c.issued c.notAfter)) c.signature then
    .ok ()
  else .error .badSignature

end Credential

def revocationContext : Bytes := "sqnr-revoke-v1".toUTF8.toList

/-- How far ahead of the verifier an account's clock may be on a revocation. -/
def revocationSkew : UInt64 := 5 * 60

structure Revocation where
  account : PubKey
  device : PubKey
  issued : UInt64
  signature : Bytes64
  deriving DecidableEq

namespace Revocation

def signingInput (C : Crypto) (r : Revocation) : Bytes :=
  revocationContext ++ Bytes32.toBytes (C.sha256
    (Bytes32.toBytes r.account ++ Bytes32.toBytes r.device ++ beBytes 8 r.issued.toNat))

/-- Check it, stopping at the first failure. It does not expire. -/
def verify (C : Crypto) (r : Revocation) (expectAccount : PubKey) (now skew : UInt64) :
    Except Invalid Unit :=
  if r.account ≠ expectAccount then .error .wrongAccount
  else if r.issued.toNat > min (2 ^ 64 - 1) (now.toNat + skew.toNat) then .error .notYetValid
  else if C.checks r.account (r.signingInput C) r.signature then .ok ()
  else .error .badSignature

end Revocation

end Delegation

section Written
open Offsets

theorem toList_eq_data (bs : ByteArray) : bs.toList = bs.data.toList := by
  have hloop : ∀ n i r, n = bs.size - i →
      ByteArray.toList.loop bs i r = r.reverse ++ bs.data.toList.drop i := by
    intro n
    induction n with
    | zero =>
      intro i r hn
      have hi : ¬ i < bs.size := by omega
      have hlen : bs.data.toList.length = bs.size := rfl
      rw [ByteArray.toList.loop, if_neg hi, List.drop_of_length_le (by omega), List.append_nil]
    | succ n ih =>
      intro i r hn
      have hi : i < bs.size := by omega
      have hlen : i < bs.data.toList.length := hi
      have hget : bs.get! i = bs.data.toList[i] := by
        cases bs
        exact getElem!_pos _ i hi
      rw [ByteArray.toList.loop, if_pos hi, ih _ _ (by omega), List.drop_eq_getElem_cons hlen,
        List.reverse_cons, List.append_assoc, hget]
      rfl
  exact hloop _ 0 [] rfl

theorem toUTF8_toList (s : String) : s.toUTF8.toList = textBytes s := toList_eq_data _

def maxScope : Nat := 32

namespace Credential

def credentialLen : Nat := 32 + 32 + 1 + 8 + 8 + 64

def encode (c : Credential) : Bytes :=
  body c.account c.delegate c.scope c.issued c.notAfter ++ Bytes64.toBytes c.signature

def decode (b : Bytes) : Except Error Credential := do
  malformedIf (b.length < 65) s!"credential is {b.length} bytes, want at least 65"
  let scopeLen := (byteAt b 64).toNat
  malformedIf (scopeLen > maxScope) s!"scope is {scopeLen} bytes, limit is {maxScope}"
  malformedIf (b.length ≠ credentialLen + scopeLen)
    s!"credential is {b.length} bytes, want {credentialLen + scopeLen}"
  let o := 65 + scopeLen
  let scope ← utf8 (slice b 65 scopeLen) "scope"
  pure { account := keyAt b 0
         delegate := keyAt b 32
         scope
         issued := u64At b o
         notAfter := u64At b (o + 8)
         signature := sigAt b (o + 16) }

def optionBytes : Option Credential → Bytes
  | some c => c.encode
  | none => []

def decodeOption (b : Bytes) : Except Error (Option Credential) :=
  if b.length = 0 then pure none
  else do
    let c ← decode b
    pure (some c)

def OptionFits (credential : Option Credential) : Prop :=
  ∀ c ∈ credential, (textBytes c.scope).length ≤ maxScope

instance (credential : Option Credential) : Decidable (OptionFits credential) :=
  inferInstanceAs (Decidable (∀ c ∈ credential, _))

variable {b : Bytes} {c : Credential} {credential : Option Credential}

theorem encode_eq (c : Credential) : c.encode =
    Bytes32.toBytes c.account ++ (Bytes32.toBytes c.delegate ++
      ([UInt8.ofNat (textBytes c.scope).length] ++ (textBytes c.scope ++
        (beBytes 8 c.issued.toNat ++ (beBytes 8 c.notAfter.toNat ++
          Bytes64.toBytes c.signature))))) := by
  simp only [encode, body, toUTF8_toList, List.append_assoc]

theorem length_encode (c : Credential) :
    c.encode.length = credentialLen + (textBytes c.scope).length := by
  simp only [encode_eq, List.length_append, Bytes32.length_toBytes, beBytes_length,
    Bytes64.length_toBytes, List.length_singleton, credentialLen]
  omega

theorem decode_eq_ok : decode b = .ok c ↔ b = c.encode ∧ (textBytes c.scope).length ≤ maxScope := by
  have hcap : maxScope = 32 := rfl
  have hlen : credentialLen = 145 := rfl
  simp only [decode, bind_eq_ok, malformedIf_eq_ok, pure_eq_ok, Nat.not_lt, ne_eq,
    Decidable.not_not, gt_iff_lt, utf8_eq_ok]
  constructor
  · rintro ⟨-, hroom, -, hscope, -, hwhole, scope, htext, rfl⟩
    have hn : (textBytes scope).length = (byteAt b 64).toNat := by
      rw [← htext, length_slice (by omega)]
    refine ⟨?_, hn ▸ hscope⟩
    rw [← stands_whole, length_encode, encode_eq, stands_key_append, stands_key_append,
      stands_len8_append (by rw [hn]; omega), stands_part_append, stands_u64_append,
      stands_u64_append, stands_sig, hn]
    exact ⟨⟨rfl, rfl, rfl, htext, rfl, rfl, by omega, rfl⟩, by omega⟩
  · rintro ⟨hb, hscope⟩
    rw [← stands_whole, length_encode, encode_eq, stands_key_append, stands_key_append,
      stands_len8_append (by omega), stands_part_append, stands_u64_append, stands_u64_append,
      stands_sig] at hb
    simp only [Nat.zero_add, Nat.reduceAdd] at hb
    obtain ⟨⟨haccount, hdelegate, hn, htext, hissued, hafter, -, hsig⟩, hwhole⟩ := hb
    rw [← hn] at htext hissued hafter hsig hwhole hscope
    refine ⟨(), by omega, (), hscope, (), hwhole.symm, c.scope, htext, ?_⟩
    rw [haccount, hdelegate, hissued, hafter, hsig]

theorem length_optionBytes_le (h : OptionFits credential) :
    (optionBytes credential).length ≤ 177 := by
  cases credential with
  | none => simp [optionBytes]
  | some c =>
    have hscope := h c rfl
    unfold maxScope at hscope
    rw [optionBytes, length_encode, credentialLen]
    omega

theorem decodeOption_eq_ok :
    decodeOption b = .ok credential ↔ b = optionBytes credential ∧ OptionFits credential := by
  unfold decodeOption
  split
  · rename_i hempty
    rw [List.length_eq_zero_iff] at hempty
    cases credential with
    | none => simp [hempty, optionBytes, OptionFits, pure_eq_ok]
    | some c =>
      refine iff_of_false (by simp [pure_eq_ok]) fun h => ?_
      have hlen := congrArg List.length h.1
      rw [hempty, optionBytes, length_encode, credentialLen, List.length_nil] at hlen
      omega
  · rename_i hfull
    simp only [bind_eq_ok, pure_eq_ok, decode_eq_ok]
    cases credential with
    | none =>
      refine iff_of_false (by simp) fun h => hfull ?_
      rw [h.1, optionBytes, List.length_nil]
    | some c => simp [optionBytes, OptionFits]

end Credential

end Written

end Sqex
