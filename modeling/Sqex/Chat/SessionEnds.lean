import Sqex.Chat.AgreedBinding
import Sqex.Chat.SyncStream

/-! The two ends of a session. Each derives it from its own secrets and what it is relayed of the
other, and nobody compares what they came to. -/
namespace Sqex.Session
open Agreed Chat.Sync

/-- What an end hashes into its key, in the order both ends go by. -/
structure Transcript where
  first : PubKey
  second : PubKey
  ephFirst : Bytes32
  ephSecond : Bytes32
  dh1 : Bytes32
  dh2 : Bytes32
  dh3 : Bytes32
  deriving DecidableEq

namespace Transcript

def bytes (t : Transcript) : Bytes :=
  sessionContext ++ Bytes32.toBytes t.first ++ Bytes32.toBytes t.second ++
    Bytes32.toBytes t.ephFirst ++ Bytes32.toBytes t.ephSecond ++ Bytes32.toBytes t.dh1 ++
    Bytes32.toBytes t.dh2 ++ Bytes32.toBytes t.dh3

def key (C : Crypto) (t : Transcript) : Bytes32 := (C.sha512 t.bytes).extractLsb' 256 256

theorem bytes_inj {t t' : Transcript} : t.bytes = t'.bytes ↔ t = t' := by
  refine ⟨fun h => ?_, congrArg bytes⟩
  simp only [bytes, List.append_assoc] at h
  obtain ⟨hfirst, h⟩ := toBytes_append_inj (List.append_cancel_left h)
  obtain ⟨hsecond, h⟩ := toBytes_append_inj h
  obtain ⟨hephFirst, h⟩ := toBytes_append_inj h
  obtain ⟨hephSecond, h⟩ := toBytes_append_inj h
  obtain ⟨hdh1, h⟩ := toBytes_append_inj h
  obtain ⟨hdh2, h⟩ := toBytes_append_inj h
  have hdh3 := toBytes_inj h
  cases t
  cases t'
  simp_all

end Transcript

variable {C : Crypto} {seed eph seed' eph' x y : Bytes32} {peer : PubKey} {s : Session}

/-- A derivation stopped short of hashing. -/
def transcript (C : Crypto) (seed eph : Bytes32) (peer : PubKey) (x : Bytes32) :
    Except Error Transcript := do
  let me := C.publicKey seed
  let peerStatic ← keyed "peer identity" (C.identityToX25519 peer)
  let mine := C.x25519 eph peerStatic
  let theirs := C.x25519 (C.privateToX25519 seed) x
  match Role.of me peer with
  | .first => do
    let dh1 ← keyed "session DH1" mine
    let dh2 ← keyed "session DH2" theirs
    let dh3 ← keyed "session DH3" (C.x25519 eph x)
    pure ⟨me, peer, C.x25519Public eph, x, dh1, dh2, dh3⟩
  | .second => do
    let dh1 ← keyed "session DH1" theirs
    let dh2 ← keyed "session DH2" mine
    let dh3 ← keyed "session DH3" (C.x25519 eph x)
    pure ⟨peer, me, x, C.x25519Public eph, dh1, dh2, dh3⟩

theorem derive_eq : derive C seed eph peer x =
    (transcript C seed eph peer x).map fun t => ⟨t.key C, Role.of (C.publicKey seed) peer⟩ := by
  unfold derive transcript
  cases keyed "peer identity" (C.identityToX25519 peer) with
  | error e => rfl
  | ok peerStatic =>
    simp only [bind, Except.bind]
    cases Role.of (C.publicKey seed) peer with
    | first =>
      cases keyed "session DH1" (C.x25519 eph peerStatic) with
      | error e => rfl
      | ok dh1 =>
        cases keyed "session DH2" (C.x25519 (C.privateToX25519 seed) x) with
        | error e => rfl
        | ok dh2 => cases keyed "session DH3" (C.x25519 eph x) <;> rfl
    | second =>
      cases keyed "session DH1" (C.x25519 (C.privateToX25519 seed) x) with
      | error e => rfl
      | ok dh1 =>
        cases keyed "session DH2" (C.x25519 eph peerStatic) with
        | error e => rfl
        | ok dh2 => cases keyed "session DH3" (C.x25519 eph x) <;> rfl

/-- What the agreement and the seal are relied on for. -/
structure Sound (C : Crypto) : Prop where
  agrees : ∀ a b, C.x25519 a (C.x25519Public b) = C.x25519 b (C.x25519Public a)
  identity : ∀ seed, C.identityToX25519 (C.publicKey seed) =
    .ok (C.x25519Public (C.privateToX25519 seed))
  opens : ∀ key nonce plain, C.decrypt key nonce (C.encrypt key nonce plain) = some plain

theorem role_other {a b : PubKey} (h : a ≠ b) : Role.of b a = (Role.of a b).other := by
  unfold Role.of
  by_cases hle : a ≤ b
  · have hnot : ¬ b ≤ a := fun hback => h (BitVec.le_antisymm hle hback)
    rw [if_pos hle, if_neg hnot]
    rfl
  · have hback : b ≤ a := BitVec.le_of_lt (BitVec.not_le.mp hle)
    rw [if_neg hle, if_pos hback]
    rfl

/-- Relayed each other's ephemerals, the ends hash the same, or fail alike. -/
theorem transcript_other (h : Sound C) (hne : C.publicKey seed ≠ C.publicKey seed') :
    transcript C seed' eph' (C.publicKey seed) (C.x25519Public eph) =
      transcript C seed eph (C.publicKey seed') (C.x25519Public eph') := by
  simp only [transcript, h.identity, keyed, bind, Except.bind, role_other hne,
    h.agrees eph' (C.privateToX25519 seed), h.agrees (C.privateToX25519 seed') eph,
    h.agrees eph' eph]
  cases Role.of (C.publicKey seed) (C.publicKey seed') <;> rfl

/-- An end hashes its own ephemeral and the one it was relayed, each in its place. -/
theorem transcript_ephemerals {t : Transcript} (h : transcript C seed eph peer x = .ok t) :
    match Role.of (C.publicKey seed) peer with
    | .first => t.ephFirst = C.x25519Public eph ∧ t.ephSecond = x
    | .second => t.ephFirst = x ∧ t.ephSecond = C.x25519Public eph := by
  unfold transcript at h
  cases hrole : Role.of (C.publicKey seed) peer with
  | first =>
    simp only [hrole, bind_eq_ok, pure_eq_ok] at h
    obtain ⟨_, -, _, -, _, -, _, -, rfl⟩ := h
    exact ⟨rfl, rfl⟩
  | second =>
    simp only [hrole, bind_eq_ok, pure_eq_ok] at h
    obtain ⟨_, -, _, -, _, -, _, -, rfl⟩ := h
    exact ⟨rfl, rfl⟩

theorem nonce_inj {d d' : UInt8} {seq seq' : UInt64} :
    nonce d seq = nonce d' seq' ↔ d = d' ∧ seq = seq' := by
  refine ⟨fun h => ?_, fun h => by rw [h.1, h.2]⟩
  simp only [nonce, List.cons_append, List.cons.injEq] at h
  obtain ⟨hseq, -⟩ := List.append_inj h.2 (by simp [beBytes_length])
  exact ⟨h.1, by rw [← UInt64.ofNat_beBytes seq, hseq, UInt64.ofNat_beBytes]⟩

theorem open_far (h : Sound C) (seq : UInt64) {p c : Bytes} (hseal : s.sealFrame C seq p = .ok c) :
    (farEnd s).openFrame C seq c = .ok p := by
  unfold sealFrame at hseal
  split_ifs at hseal
  obtain rfl := Except.ok.inj hseal
  have hrole : s.role.other.other = s.role := by cases s.role <;> rfl
  simp only [openFrame, farEnd, hrole, h.opens]

/-- Two identities that are relayed each other's ephemerals come to opposite ends of one session, or
fail alike. Either end opens what the other seals, and no two frames under the key, of one end or
both, have a nonce in common but for a number an end used again. -/
theorem ends_agree (h : Sound C) (hne : C.publicKey seed ≠ C.publicKey seed') :
    derive C seed' eph' (C.publicKey seed) (C.x25519Public eph) =
      (derive C seed eph (C.publicKey seed') (C.x25519Public eph')).map farEnd ∧
    (∀ x y t t', transcript C seed eph (C.publicKey seed') x = .ok t →
      transcript C seed' eph' (C.publicKey seed) y = .ok t' →
      (t.bytes = t'.bytes ↔ x = C.x25519Public eph' ∧ y = C.x25519Public eph)) ∧
    ∀ s seq seq',
      (∀ p c, s.sealFrame C seq p = .ok c → (farEnd s).openFrame C seq c = .ok p) ∧
      nonce s.role.direction seq ≠ nonce (farEnd s).role.direction seq' ∧
      (nonce s.role.direction seq = nonce s.role.direction seq' → seq = seq') := by
  refine ⟨?_, fun x y t t' ht ht' => ?_, fun s seq seq' => ⟨fun p c => open_far h seq, ?_, ?_⟩⟩
  · rw [derive_eq, derive_eq, transcript_other h hne, role_other hne]
    cases transcript C seed eph (C.publicKey seed') (C.x25519Public eph') <;> rfl
  · rw [Transcript.bytes_inj]
    constructor
    · rintro rfl
      have hhere := transcript_ephemerals ht
      have hthere := transcript_ephemerals ht'
      rw [role_other hne] at hthere
      cases hrole : Role.of (C.publicKey seed) (C.publicKey seed') with
      | first =>
        rw [hrole] at hhere hthere
        exact ⟨hhere.2.symm.trans hthere.2, hthere.1.symm.trans hhere.1⟩
      | second =>
        rw [hrole] at hhere hthere
        exact ⟨hhere.1.symm.trans hthere.1, hthere.2.symm.trans hhere.2⟩
    · rintro ⟨rfl, rfl⟩
      rw [transcript_other h hne, ht] at ht'
      exact Except.ok.inj ht'
  · intro heq
    have hdirection := (nonce_inj.mp heq).1
    cases hrole : s.role <;> simp [farEnd, hrole, Role.other, Role.direction] at hdirection
  · exact fun heq => (nonce_inj.mp heq).2

theorem sound_toy : Sound .toy where
  agrees a b := by
    change Except.ok (a + (b + 2#256)) = .ok (b + (a + 2#256))
    rw [← BitVec.add_assoc, BitVec.add_comm a b, BitVec.add_assoc]
  identity seed := congrArg Except.ok (BitVec.add_assoc seed 1#256 1#256)
  opens := toy_opens

theorem ends_agree_toy :
    derive .toy 2 4 (Crypto.toy.publicKey 1) (Crypto.toy.x25519Public 3) =
      (derive .toy 1 3 (Crypto.toy.publicKey 2) (Crypto.toy.x25519Public 4)).map farEnd :=
  (ends_agree sound_toy (by decide)).1

end Sqex.Session
