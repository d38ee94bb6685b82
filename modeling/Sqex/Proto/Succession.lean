import Sqex.Proto.Fields

/-! Succession: an account's will naming its heir, or a policy naming guardians a quorum of whom
may; and what a successor presents. A policy is met by as many of its guardians as it asks for,
however often each vouches. -/
namespace Sqex

section Wills
def successionContext : Bytes := "sqex-succession-v1".toUTF8.toList

def typeWill : UInt8 := 0x01
def typePolicy : UInt8 := 0x02
def typeVouch : UInt8 := 0x03

def maxGuardians : Nat := 8

def successionInput (C : Crypto) (kind : UInt8) (fields : Bytes) : Bytes :=
  successionContext ++ Bytes32.toBytes (C.sha256 (successionContext ++ kind :: fields))

/-- An account's statement, signed in advance, of the key that succeeds it. -/
structure Will where
  account : PubKey
  successor : PubKey
  issued : UInt64
  sig : Bytes64
  deriving DecidableEq

namespace Will

def input (C : Crypto) (account successor : PubKey) (issued : UInt64) : Bytes :=
  successionInput C typeWill
    (Bytes32.toBytes account ++ Bytes32.toBytes successor ++ beBytes 8 issued.toNat)

def verify (C : Crypto) (w : Will) : Bool :=
  w.account != w.successor && C.checks w.account (input C w.account w.successor w.issued) w.sig

end Will

/-- An account's statement of who may name its successor, and how many of them it takes. -/
structure Policy where
  account : PubKey
  threshold : UInt8
  guardians : List PubKey
  issued : UInt64
  sig : Bytes64
  deriving DecidableEq

namespace Policy

def input (C : Crypto) (p : Policy) : Bytes :=
  successionInput C typePolicy
    (Bytes32.toBytes p.account ++ [p.threshold] ++ [UInt8.ofNat p.guardians.length] ++
      p.guardians.flatMap Bytes32.toBytes ++ beBytes 8 p.issued.toNat)

/-- It could be met: guardians, each named once and not the account, and no fewer of them than
it asks for. -/
def wellFormed (p : Policy) : Bool :=
  p.guardians.length != 0 && p.guardians.length ≤ maxGuardians &&
    (p.threshold != 0 && p.threshold.toNat ≤ p.guardians.length) &&
    (! p.guardians.contains p.account && p.guardians.Nodup)

def verify (C : Crypto) (p : Policy) : Bool :=
  p.wellFormed && C.checks p.account (p.input C) p.sig

end Policy

structure Vouch where
  account : PubKey
  successor : PubKey
  guardian : PubKey
  issued : UInt64
  sig : Bytes64
  deriving DecidableEq

namespace Vouch

def input (C : Crypto) (v : Vouch) : Bytes :=
  successionInput C typeVouch
    (Bytes32.toBytes v.account ++ Bytes32.toBytes v.successor ++ Bytes32.toBytes v.guardian ++
      beBytes 8 v.issued.toNat)

def verify (C : Crypto) (v : Vouch) : Bool := C.checks v.guardian (v.input C) v.sig

end Vouch

inductive Proof where
  | will (will : Will)
  | guardians (policy : Policy) (vouches : List Vouch)
  deriving DecidableEq

namespace Proof

def account : Proof → PubKey
  | .will w => w.account
  | .guardians policy _ => policy.account

def successor : Proof → Option PubKey
  | .will w => some w.successor
  | .guardians _ [] => none
  | .guardians _ (v :: vouches) =>
    if vouches.all (·.successor == v.successor) then some v.successor else none

def vouching (C : Crypto) (policy : Policy) (successor : PubKey) (vouches : List Vouch) :
    List PubKey :=
  vouches.foldl (fun seen v =>
    if v.account = policy.account ∧ v.successor = successor ∧ v.guardian ∈ policy.guardians ∧
        v.guardian ∉ seen ∧ v.verify C then seen ++ [v.guardian]
    else seen) []

def proves (C : Crypto) (p : Proof) (successor : PubKey) : Bool :=
  match p with
  | .will w => w.successor == successor && w.verify C
  | .guardians policy vouches =>
    if ! policy.verify C || policy.account == successor then false
    else policy.threshold.toNat ≤ (vouching C policy successor vouches).length

end Proof

/-- What the exchange recorded of a succession, as it answers who asks. -/
structure Succeeded where
  successor : PubKey
  now : UInt64
  proof : Proof
  deriving DecidableEq

/-- The check a reader of a `succeeded` entry makes: the entry carries the will's signature. -/
def entryVerifies (C : Crypto) (actor subject : PubKey) (issued : UInt64) (sig : Bytes64) : Bool :=
  actor != subject && C.checks actor (Will.input C actor subject issued) sig

end Wills

section Written
open Offsets

def willLen : Nat := 137
def vouchLen : Nat := 169

def maxProof : Nat := 4096

namespace Will

def encode (w : Will) : Bytes :=
  typeWill :: (Bytes32.toBytes w.account ++ (Bytes32.toBytes w.successor ++
    (beBytes 8 w.issued.toNat ++ Bytes64.toBytes w.sig)))

def decode (b : Bytes) : Except Error Will := do
  malformedIf (b.length ≠ willLen) s!"will is {b.length} bytes, want {willLen}"
  malformedIf (byteAt b 0 ≠ typeWill) s!"not a will (type {hex (byteAt b 0)})"
  pure { account := keyAt b 1
         successor := keyAt b 33
         issued := u64At b 65
         sig := sigAt b 73 }

end Will

namespace Policy

def guardsOnce (account : PubKey) (seen : List PubKey) : List PubKey → Except Error Unit
  | [] => .ok ()
  | g :: guardians => do
    malformedIf (g = account) "an account cannot guard itself"
    malformedIf (g ∈ seen) "a guardian is named twice"
    guardsOnce account (seen ++ [g]) guardians

def mustBeFormed (p : Policy) : Except Error Unit := do
  let n := p.guardians.length
  malformedIf (n = 0 ∨ n > maxGuardians)
    s!"a policy names between 1 and {maxGuardians} guardians, not {n}"
  malformedIf (p.threshold = 0 ∨ p.threshold.toNat > n)
    s!"a threshold of {p.threshold.toNat} cannot be met by {n} guardians"
  guardsOnce p.account [] p.guardians

def encode (p : Policy) : Bytes :=
  typePolicy :: (Bytes32.toBytes p.account ++ (p.threshold :: (UInt8.ofNat p.guardians.length ::
    (p.guardians.flatMap Bytes32.toBytes ++
      (beBytes 8 p.issued.toNat ++ Bytes64.toBytes p.sig)))))

def readGuardian : ReaderAt Error PubKey := fun b o => do
  notShort b o 32 "policy"
  pure (keyAt b o, o + 32)

def read (b : Bytes) : Except Error (Policy × Nat) := do
  malformedIf (b.head? ≠ some typePolicy) "not a policy"
  notShort b 1 32 "policy"
  notShort b 33 1 "policy"
  notShort b 34 1 "policy"
  let count := (byteAt b 34).toNat
  malformedIf (count > maxGuardians) s!"{count} guardians is too many"
  let (guardians, o) ← readMany readGuardian count b 35
  notShort b o 8 "policy"
  notShort b (o + 8) 64 "policy"
  let policy : Policy :=
    { account := keyAt b 1
      threshold := byteAt b 33
      guardians
      issued := u64At b o
      sig := sigAt b (o + 8) }
  policy.mustBeFormed
  pure (policy, o + 8 + 64)

def decode (b : Bytes) : Except Error Policy := do
  let (p, n) ← read b
  malformedIf (n ≠ b.length) "policy has trailing bytes"
  pure p

end Policy

namespace Vouch

def encode (v : Vouch) : Bytes :=
  typeVouch :: (Bytes32.toBytes v.account ++ (Bytes32.toBytes v.successor ++
    (Bytes32.toBytes v.guardian ++ (beBytes 8 v.issued.toNat ++ Bytes64.toBytes v.sig))))

def decode (b : Bytes) : Except Error Vouch := do
  malformedIf (b.length ≠ vouchLen) s!"vouch is {b.length} bytes, want {vouchLen}"
  malformedIf (byteAt b 0 ≠ typeVouch) s!"not a vouch (type {hex (byteAt b 0)})"
  pure { account := keyAt b 1
         successor := keyAt b 33
         guardian := keyAt b 65
         issued := u64At b 97
         sig := sigAt b 105 }

def read : ReaderAt Error Vouch := fun b o => do
  notShort b o vouchLen "claim"
  let v ← decode (slice b o vouchLen)
  pure (v, o + vouchLen)

end Vouch

namespace Proof

def encode : Proof → Bytes
  | .will w => w.encode
  | .guardians policy vouches =>
    policy.encode ++ (UInt8.ofNat vouches.length :: vouches.flatMap Vouch.encode)

def decode (b : Bytes) : Except Error Proof := do
  malformedIf (b.length > maxProof) s!"proof is {b.length} bytes, limit is {maxProof}"
  if b.head? = some typeWill then
    let w ← Will.decode b
    pure (.will w)
  else if b.head? = some typePolicy then
    let (policy, o) ← Policy.read b
    notShort b o 1 "claim"
    let count := (byteAt b o).toNat
    malformedIf (count > maxGuardians) s!"{count} vouches is too many"
    let (vouches, o) ← readMany Vouch.read count b (o + 1)
    malformedIf (o ≠ b.length) "claim has trailing bytes"
    pure (.guardians policy vouches)
  else
    .error (.malformed "not a will or a policy")

def WithinCaps : Proof → Prop
  | .will _ => True
  | .guardians policy vouches => policy.wellFormed ∧ vouches.length ≤ maxGuardians

end Proof

section
variable {b : Bytes} {o : Nat}

namespace Will

theorem length_encode (w : Will) : w.encode.length = willLen := by
  simp [encode, willLen, Bytes32.length_toBytes, Bytes64.length_toBytes, beBytes_length]

theorem decode_eq_ok {w : Will} : decode b = .ok w ↔ b = w.encode := by
  rw [← stands_whole, length_encode, encode, stands_byte_cons, stands_key_append,
    stands_key_append, stands_u64_append, stands_sig]
  simp only [decode, bind_eq_ok, malformedIf_eq_ok, pure_eq_ok, ne_eq, Decidable.not_not,
    Nat.zero_add, Nat.reduceAdd]
  constructor
  · rintro ⟨-, hlen, -, hkind, rfl⟩
    rw [hlen]
    exact ⟨⟨hkind, rfl, rfl, rfl, by decide, rfl⟩, rfl⟩
  · rintro ⟨⟨hkind, haccount, hsuccessor, hissued, -, hsig⟩, hlen⟩
    exact ⟨(), hlen.symm, (), hkind, by rw [haccount, hsuccessor, hissued, hsig]⟩

end Will

namespace Vouch

theorem length_encode (v : Vouch) : v.encode.length = vouchLen := by
  simp [encode, vouchLen, Bytes32.length_toBytes, Bytes64.length_toBytes, beBytes_length]

theorem decode_eq_ok {v : Vouch} : decode b = .ok v ↔ b = v.encode := by
  rw [← stands_whole, length_encode, encode, stands_byte_cons, stands_key_append,
    stands_key_append, stands_key_append, stands_u64_append, stands_sig]
  simp only [decode, bind_eq_ok, malformedIf_eq_ok, pure_eq_ok, ne_eq, Decidable.not_not,
    Nat.zero_add, Nat.reduceAdd]
  constructor
  · rintro ⟨-, hlen, -, hkind, rfl⟩
    rw [hlen]
    exact ⟨⟨hkind, rfl, rfl, rfl, rfl, by decide, rfl⟩, rfl⟩
  · rintro ⟨⟨hkind, haccount, hsuccessor, hguardian, hissued, -, hsig⟩, hlen⟩
    exact ⟨(), hlen.symm, (), hkind, by rw [haccount, hsuccessor, hguardian, hissued, hsig]⟩

theorem read_codec : Codec read encode fun _ => True := by
  intro b o v o' ho
  simp only [read, bind_eq_ok, notShort_eq_ok, pure_eq_ok, Prod.mk.injEq, decode_eq_ok,
    length_encode, and_true]
  constructor
  · rintro ⟨-, hroom, v, hslice, rfl, rfl⟩
    rw [← hslice]
    exact ⟨stands_slice hroom, rfl⟩
  · rintro ⟨hstands, rfl⟩
    have hlen := hstands.length
    have hslice := hstands.slice
    rw [length_encode] at hlen hslice
    exact ⟨(), hlen, v, hslice, rfl, rfl⟩

end Vouch

namespace Policy
variable {p : Policy} {account : PubKey} {seen guardians : List PubKey}

theorem readGuardian_codec : Codec readGuardian Bytes32.toBytes fun _ => True := by
  intro b o k o' ho
  simp only [readGuardian, bind_eq_ok, notShort_eq_ok, pure_eq_ok, Prod.mk.injEq, stands_key,
    Bytes32.length_toBytes, and_true]
  constructor
  · rintro ⟨-, hroom, rfl, rfl⟩
    exact ⟨⟨hroom, rfl⟩, rfl⟩
  · rintro ⟨⟨hroom, hk⟩, rfl⟩
    exact ⟨(), hroom, hk, rfl⟩

theorem guardsOnce_eq_ok {u : Unit} : guardsOnce account seen guardians = .ok u ↔
    account ∉ guardians ∧ guardians.Nodup ∧ ∀ g ∈ seen, g ∉ guardians := by
  induction guardians generalizing seen with
  | nil => simp [guardsOnce]
  | cons g guardians ih =>
    simp only [guardsOnce, bind_eq_ok, malformedIf_eq_ok, ih, List.mem_cons, List.nodup_cons,
      List.mem_append, List.not_mem_nil, or_false]
    constructor
    · rintro ⟨-, hself, -, hfresh, haccount, hnodup, hseen⟩
      have hg := hseen g (Or.inr rfl)
      refine ⟨?_, ⟨hg, hnodup⟩, fun k hk => ?_⟩
      · rintro (rfl | hmem)
        · exact hself rfl
        · exact haccount hmem
      · rintro (rfl | hmem)
        · exact hfresh hk
        · exact hseen k (Or.inl hk) hmem
    · rintro ⟨haccount, ⟨hg, hnodup⟩, hseen⟩
      refine ⟨(), fun h => haccount (Or.inl h.symm), (), fun h => hseen g h (Or.inl rfl),
        fun h => haccount (Or.inr h), hnodup, fun k hk hmem => ?_⟩
      cases hk with
      | inl hk => exact hseen k hk (Or.inr hmem)
      | inr hk => exact hg (hk ▸ hmem)

theorem mustBeFormed_eq_ok {u : Unit} : p.mustBeFormed = .ok u ↔ p.wellFormed = true := by
  simp only [mustBeFormed, bind_eq_ok, malformedIf_eq_ok, guardsOnce_eq_ok, wellFormed,
    Bool.and_eq_true, bne_iff_ne, decide_eq_true_eq, Bool.not_eq_true', List.contains_eq_mem,
    decide_eq_false_iff_not, not_or, gt_iff_lt, Nat.not_lt]
  constructor
  · rintro ⟨-, hcount, -, hthreshold, haccount, hnodup, -⟩
    exact ⟨⟨hcount, hthreshold⟩, haccount, hnodup⟩
  · rintro ⟨⟨hcount, hthreshold⟩, haccount, hnodup⟩
    exact ⟨(), hcount, (), hthreshold, haccount, hnodup, by simp⟩

theorem wellFormed_le (h : p.wellFormed = true) : p.guardians.length ≤ maxGuardians := by
  simp only [wellFormed, Bool.and_eq_true, decide_eq_true_eq] at h
  exact h.1.1.2

theorem length_named (guardians : List PubKey) :
    (guardians.flatMap Bytes32.toBytes).length = 32 * guardians.length := by
  rw [length_flatMap Bytes32.length_toBytes, Nat.mul_comm]

theorem length_encode (p : Policy) : p.encode.length = 107 + 32 * p.guardians.length := by
  simp only [encode, List.length_cons, List.length_append, Bytes32.length_toBytes, length_named,
    beBytes_length, Bytes64.length_toBytes]
  omega

theorem stands_encode (hcount : p.guardians.length ≤ maxGuardians) : Stands b 0 p.encode ↔
    b.head? = some typePolicy ∧ keyAt b 1 = p.account ∧ byteAt b 33 = p.threshold ∧
      (byteAt b 34).toNat = p.guardians.length ∧
      Stands b 35 (p.guardians.flatMap Bytes32.toBytes) ∧
      u64At b (35 + 32 * p.guardians.length) = p.issued ∧
      35 + 32 * p.guardians.length + 8 + 64 ≤ b.length ∧
      sigAt b (35 + 32 * p.guardians.length + 8) = p.sig := by
  have hfew : p.guardians.length < 256 := Nat.lt_of_le_of_lt hcount (by decide)
  have hhead : Stands b 0 [typePolicy] ↔ b.head? = some typePolicy := by
    cases b with
    | nil => simp [Stands]
    | cons x b => simp [Stands, eq_comm]
  rw [encode, stands_cons, hhead, stands_key_append, stands_byte_cons, ← List.singleton_append,
    stands_len8_append hfew, stands_append, length_named, stands_u64_append, stands_sig]

theorem read_eq_ok {n : Nat} :
    read b = .ok (p, n) ↔ Stands b 0 p.encode ∧ n = p.encode.length ∧ p.wellFormed = true := by
  simp only [read, bind_eq_ok, malformedIf_eq_ok, notShort_eq_ok, pure_eq_ok, Prod.exists,
    Prod.mk.injEq, mustBeFormed_eq_ok, ne_eq, Decidable.not_not, gt_iff_lt, Nat.not_lt]
  constructor
  · rintro ⟨-, hkind, -, -, -, -, -, hroom, -, hcap, guardians, o, hmany, -, -, -, hlen, -, hformed,
      rfl, rfl⟩
    obtain ⟨⟨hstands, rfl⟩, hcount, -⟩ := (readGuardian_codec.many_eq_ok (by omega)).mp hmany
    rw [length_named] at hlen hformed ⊢
    rw [length_encode, stands_encode (wellFormed_le hformed)]
    refine ⟨⟨hkind, rfl, rfl, hcount.symm, hstands, rfl, hlen, rfl⟩, ?_, hformed⟩
    change 35 + 32 * guardians.length + 8 + 64 = 107 + 32 * guardians.length
    omega
  · rintro ⟨hstands, rfl, hformed⟩
    have hcap := wellFormed_le hformed
    obtain ⟨hkind, haccount, hthreshold, hcount, hguardians, hissued, hlen, hsig⟩ :=
      (stands_encode hcap).mp hstands
    have hmany := (readGuardian_codec.many_eq_ok (n := (byteAt b 34).toNat) (by omega)).mpr
      ⟨⟨hguardians, rfl⟩, hcount.symm, fun _ _ => trivial⟩
    rw [length_named] at hmany
    have hp : (⟨keyAt b 1, byteAt b 33, p.guardians, u64At b (35 + 32 * p.guardians.length),
        sigAt b (35 + 32 * p.guardians.length + 8)⟩ : Policy) = p := by
      rw [haccount, hthreshold, hissued, hsig]
    refine ⟨(), hkind, (), by omega, (), by omega, (), by omega, (), by omega, p.guardians,
      _, hmany, (), by omega, (), hlen, (), ?_, hp, ?_⟩
    · rwa [hp]
    · rw [length_encode]
      omega

theorem decode_eq_ok : decode b = .ok p ↔ b = p.encode ∧ p.wellFormed = true := by
  simp only [decode, bind_eq_ok, Prod.exists, malformedIf_eq_ok, pure_eq_ok, read_eq_ok, ne_eq,
    Decidable.not_not]
  constructor
  · rintro ⟨p, n, ⟨hstands, rfl, hformed⟩, -, hlen, rfl⟩
    exact ⟨stands_whole.mp ⟨hstands, hlen⟩, hformed⟩
  · rintro ⟨rfl, hformed⟩
    exact ⟨p, _, ⟨stands_self, rfl, hformed⟩, (), rfl, rfl⟩

end Policy

namespace Proof
variable {p : Proof}

theorem length_encode_guardians (policy : Policy) (vouches : List Vouch) :
    (encode (.guardians policy vouches)).length =
      policy.encode.length + 1 + vouches.length * vouchLen := by
  rw [encode, List.length_append, List.length_cons, length_flatMap Vouch.length_encode]
  omega

theorem length_encode_le (h : p.WithinCaps) : p.encode.length ≤ maxProof := by
  cases p with
  | will w =>
    rw [encode, Will.length_encode]
    decide
  | guardians policy vouches =>
    obtain ⟨hformed, hcount⟩ := h
    have hguardians := Policy.wellFormed_le hformed
    rw [length_encode_guardians, Policy.length_encode]
    unfold maxGuardians at hguardians hcount
    unfold maxProof vouchLen
    omega

theorem head?_encode : p.encode.head? =
    some (match p with | .will _ => typeWill | .guardians _ _ => typePolicy) := by
  cases p with
  | will w => rfl
  | guardians policy vouches => rfl

theorem decode_eq_ok : decode b = .ok p ↔ b = p.encode ∧ p.WithinCaps := by
  simp only [decode, bind_eq_ok, malformedIf_eq_ok, gt_iff_lt, Nat.not_lt]
  constructor
  · rintro ⟨-, -, h⟩
    split at h
    · simp only [bind_eq_ok, pure_eq_ok, Will.decode_eq_ok] at h
      obtain ⟨w, rfl, rfl⟩ := h
      exact ⟨rfl, trivial⟩
    split at h
    · simp only [bind_eq_ok, pure_eq_ok, Prod.exists, malformedIf_eq_ok, notShort_eq_ok,
        Policy.read_eq_ok, ne_eq, Decidable.not_not, Nat.not_lt] at h
      obtain ⟨policy, o, ⟨hstands, rfl, hformed⟩, -, hroom, -, hcap, vouches, o, hmany, -, hend,
        rfl⟩ := h
      obtain ⟨⟨hvouches, rfl⟩, hcount, -⟩ := (Vouch.read_codec.many_eq_ok hroom).mp hmany
      rw [← hcount] at hcap
      have hfew : vouches.length < 256 := Nat.lt_of_le_of_lt hcap (by decide)
      refine ⟨stands_whole.mp ⟨?_, ?_⟩, hformed, hcap⟩
      · rw [encode, stands_append, stands_cons, Nat.zero_add, stands_len8 hfew]
        exact ⟨hstands, ⟨hroom, hcount.symm⟩, hvouches⟩
      · rw [length_encode_guardians, ← hend, length_flatMap Vouch.length_encode]
    · cases h
  · rintro ⟨rfl, hcaps⟩
    refine ⟨(), length_encode_le hcaps, ?_⟩
    cases p with
    | will w =>
      rw [if_pos head?_encode]
      simp only [bind_eq_ok, pure_eq_ok, Will.decode_eq_ok]
      exact ⟨w, rfl, rfl⟩
    | guardians policy vouches =>
      obtain ⟨hformed, hcap⟩ := hcaps
      have hfew : vouches.length < 256 := Nat.lt_of_le_of_lt hcap (by decide)
      have hkind : (encode (.guardians policy vouches)).head? = some typePolicy := head?_encode
      rw [if_neg (by rw [hkind]; decide), if_pos hkind]
      have hwhole := stands_self (w := encode (.guardians policy vouches))
      rw [encode, stands_append, stands_cons, Nat.zero_add, stands_len8 hfew, ← encode] at hwhole
      obtain ⟨hpolicy, ⟨hroom, hcount⟩, hvouches⟩ := hwhole
      simp only [bind_eq_ok, pure_eq_ok, Prod.exists, malformedIf_eq_ok, notShort_eq_ok,
        Policy.read_eq_ok, ne_eq, Decidable.not_not, Nat.not_lt]
      have hmany := (Vouch.read_codec.many_eq_ok hroom).mpr
        ⟨⟨hvouches, rfl⟩, hcount.symm, fun _ _ => trivial⟩
      refine ⟨policy, _, ⟨hpolicy, rfl, hformed⟩, (), hroom, (), hcount ▸ hcap, vouches, _, hmany,
        (), ?_, rfl⟩
      rw [length_encode_guardians, length_flatMap Vouch.length_encode]

def Vouched (C : Crypto) (account successor : PubKey) (vouches : List Vouch) (g : PubKey) : Prop :=
  ∃ v ∈ vouches, v.account = account ∧ v.successor = successor ∧ v.guardian = g ∧
    v.verify C = true

instance (C : Crypto) (account successor : PubKey) (vouches : List Vouch) (g : PubKey) :
    Decidable (Vouched C account successor vouches g) :=
  inferInstanceAs (Decidable (∃ v ∈ vouches, _))

def vouchers (C : Crypto) (policy : Policy) (successor : PubKey) (vouches : List Vouch) :
    Finset PubKey :=
  policy.guardians.toFinset.filter (Vouched C policy.account successor vouches)

section
variable {C : Crypto} {policy : Policy} {successor : PubKey}

theorem Vouched.cons_iff {v : Vouch} {vouches : List Vouch} {g : PubKey} :
    Vouched C policy.account successor (v :: vouches) g ↔
      (v.account = policy.account ∧ v.successor = successor ∧ v.guardian = g ∧
        v.verify C = true) ∨ Vouched C policy.account successor vouches g := by
  simp [Vouched]

theorem seen_spec (C : Crypto) (policy : Policy) (successor : PubKey) (vouches : List Vouch)
    {seen : List PubKey} (hseen : seen.Nodup) :
    let found := vouches.foldl (fun seen v =>
      if v.account = policy.account ∧ v.successor = successor ∧ v.guardian ∈ policy.guardians ∧
          v.guardian ∉ seen ∧ v.verify C then seen ++ [v.guardian]
      else seen) seen
    found.Nodup ∧ ∀ g, g ∈ found ↔
      g ∈ seen ∨ g ∈ policy.guardians ∧ Vouched C policy.account successor vouches g := by
  induction vouches generalizing seen with
  | nil => simpa [Vouched] using hseen
  | cons v vouches ih =>
    rw [List.foldl_cons]
    split
    · rename_i hv
      obtain ⟨haccount, hsuccessor, hguardian, hfresh, hverify⟩ := hv
      have hnext : (seen ++ [v.guardian]).Nodup :=
        hseen.append (List.nodup_singleton _) (by simpa using hfresh)
      obtain ⟨hnodup, hmem⟩ := ih hnext
      refine ⟨hnodup, fun g => ?_⟩
      rw [hmem, List.mem_append, List.mem_singleton, Vouched.cons_iff]
      constructor
      · rintro ((hg | rfl) | ⟨hg, hvouched⟩)
        · exact Or.inl hg
        · exact Or.inr ⟨hguardian, Or.inl ⟨haccount, hsuccessor, rfl, hverify⟩⟩
        · exact Or.inr ⟨hg, Or.inr hvouched⟩
      · rintro (hg | ⟨hg, ⟨-, -, rfl, -⟩ | hvouched⟩)
        · exact Or.inl (Or.inl hg)
        · exact Or.inl (Or.inr rfl)
        · exact Or.inr ⟨hg, hvouched⟩
    · rename_i hv
      obtain ⟨hnodup, hmem⟩ := ih hseen
      refine ⟨hnodup, fun g => ?_⟩
      rw [hmem, Vouched.cons_iff]
      constructor
      · exact Or.imp_right fun h => ⟨h.1, Or.inr h.2⟩
      · rintro (hg | ⟨hg, ⟨haccount, hsuccessor, rfl, hverify⟩ | hvouched⟩)
        · exact Or.inl hg
        -- a vouch that counts for nothing is of a guardian who was seen
        · by_cases hold : v.guardian ∈ seen
          · exact Or.inl hold
          · exact absurd ⟨haccount, hsuccessor, hg, hold, hverify⟩ hv
        · exact Or.inr ⟨hg, hvouched⟩

theorem length_vouching (vouches : List Vouch) :
    (vouching C policy successor vouches).length =
      (vouchers C policy successor vouches).card := by
  obtain ⟨hnodup, hmem⟩ := seen_spec C policy successor vouches List.nodup_nil
  rw [vouching, ← List.toFinset_card_of_nodup hnodup]
  congr 1
  ext g
  rw [List.mem_toFinset, hmem, vouchers, Finset.mem_filter, List.mem_toFinset]
  simp

theorem proves_guardians_iff {vouches : List Vouch} :
    proves C (.guardians policy vouches) successor = true ↔
      policy.verify C = true ∧ policy.account ≠ successor ∧
        policy.threshold.toNat ≤ (vouchers C policy successor vouches).card := by
  rw [proves, length_vouching]
  by_cases hverify : policy.verify C = true <;> by_cases hself : policy.account = successor <;>
    simp [hverify, hself]

end

/-- A policy that verifies is met by as many of its guardians as it asks for, each with a vouch
for the account and a successor other than it; and policies and proofs have one encoding. -/
theorem proves_quorum_one_encoding (C : Crypto) :
    (∀ (policy : Policy) (vouches : List Vouch) (successor : PubKey),
      proves C (.guardians policy vouches) successor = true ↔
        policy.verify C = true ∧ policy.account ≠ successor ∧
          policy.threshold.toNat ≤ (vouchers C policy successor vouches).card) ∧
      (∀ b p, Policy.decode b = .ok p ↔ b = p.encode ∧ p.wellFormed = true) ∧
      ∀ b p, decode b = .ok p ↔ b = p.encode ∧ p.WithinCaps :=
  ⟨fun _ _ _ => proves_guardians_iff, fun _ _ => Policy.decode_eq_ok, fun _ _ => decode_eq_ok⟩

section Unmet

def unmetAccount : PubKey := Crypto.toy.publicKey 1
def unmetGuardian : PubKey := Crypto.toy.publicKey 2

def unsignedPolicy : Policy := ⟨unmetAccount, 1, [unmetGuardian], 0, 0⟩

def signedPolicy : Policy :=
  { unsignedPolicy with sig := Crypto.toy.sign 1 (unsignedPolicy.input .toy) }

def vouchFor (successor : PubKey) : Vouch where
  account := unmetAccount
  successor
  guardian := unmetGuardian
  issued := 0
  sig := Crypto.toy.sign 2
    (Vouch.input .toy ⟨unmetAccount, successor, unmetGuardian, 0, 0⟩)

/-- Its guardian vouches, and it proves nothing: the policy is not signed, or the key that is to
succeed the account is its own. -/
theorem vouched_proves_nothing :
    ¬ (proves .toy (.guardians unsignedPolicy [vouchFor 5]) 5 = true ↔
      unsignedPolicy.threshold.toNat ≤
        (vouchers .toy unsignedPolicy 5 [vouchFor 5]).card) ∧
    signedPolicy.verify .toy = true ∧
    ¬ (proves .toy (.guardians signedPolicy [vouchFor unmetAccount]) unmetAccount = true ↔
      signedPolicy.threshold.toNat ≤
        (vouchers .toy signedPolicy unmetAccount [vouchFor unmetAccount]).card) := by
  decide +kernel

end Unmet
end Proof
end

end Written

end Sqex
