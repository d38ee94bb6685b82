import Sqex.Lib.Calls
import Sqex.Proto.Feed
import Sqex.Proto.Message

/-! A channel key every member contributes to: commits and their bodies, and the chain a
device derives each epoch's key from. -/
namespace Sqex

def chainContext : Bytes := "sqex-chain-v1".toUTF8.toList
def epochContext : Bytes := "sqex-epoch-v1".toUTF8.toList
def commitContext : Bytes := "sqex-commit-v1".toUTF8.toList

def maxAdds : Nat := 64
def maxRemoves : Nat := 64
def genesisTranscript : Bytes32 := 0
/-- Bytes of a commit body before the accounts it names and after them. -/
def commitFixed : Nat := 4 + 32 + 1 + 1 + 32 + 32 + 64

namespace Commit

section
variable (keys : List PubKey) (c : Commit)

def keyBytes : Bytes := keys.flatMap Bytes32.toBytes

/-- The bytes the transcript hashes and the signature covers: the body bar `sig`. -/
def signingInput : Bytes :=
  beBytes 4 c.epoch.toNat ++ Bytes32.toBytes c.committer ++
    [UInt8.ofNat c.adds.length, UInt8.ofNat c.removes.length] ++ keyBytes c.adds ++
    keyBytes c.removes ++ Bytes32.toBytes c.contribution ++ Bytes32.toBytes c.transcript

def encode : Bytes := c.signingInput ++ Bytes64.toBytes c.sig

def verify (C : Crypto) (c : Commit) (device : PubKey) : Bool :=
  C.checks device (commitContext ++ c.signingInput) c.sig

def readKeys (b : Bytes) : Nat → Nat → List PubKey
  | 0, _ => []
  | n + 1, o => BitVec.ofNat 256 (natAt b o 32) :: readKeys b n (o + 32)

def ascending (what : String) : List PubKey → Except Error Unit
  | [] => .ok ()
  | [_] => .ok ()
  | a :: b :: keys =>
    if a ≥ b then .error (.malformed s!"commit's {what} are not ascending, or repeat")
    else ascending what (b :: keys)

/-- Read a commit body. Strict about order and repeats, because the body is hashed into
the key: an unordered list is two encodings of one fact. -/
def decode (b : Bytes) : Except Error Commit :=
  if b.length < commitFixed then
    .error (.malformed s!"commit is {b.length} bytes, want at least {commitFixed}")
  else
    let adds := natAt b 36 1
    let removes := natAt b 37 1
    let want := commitFixed + 32 * (adds + removes)
    if adds > maxAdds ∨ removes > maxRemoves then
      .error (.malformed
        s!"commit names {adds} adds and {removes} removes, limits are {maxAdds} and {maxRemoves}")
    else if b.length ≠ want then
      .error (.malformed s!"commit is {b.length} bytes, want exactly {want}")
    else
      let o := 38 + 32 * (adds + removes)
      let c : Commit := {
        epoch := UInt32.ofNat (natAt b 0 4)
        committer := BitVec.ofNat 256 (natAt b 4 32)
        adds := readKeys b adds 38
        removes := readKeys b removes (38 + 32 * adds)
        contribution := BitVec.ofNat 256 (natAt b o 32)
        transcript := BitVec.ofNat 256 (natAt b (o + 32) 32)
        sig := BitVec.ofNat 512 (natAt b (o + 64) 64) }
      do
        ascending "adds" c.adds
        ascending "removes" c.removes
        if c.adds.any (c.removes.contains ·) then
          .error (.malformed "commit both adds and removes an account")
        else .ok c

/-- What `decode` asks of the accounts a body names. -/
structure WellFormed : Prop where
  adds : c.adds.length ≤ maxAdds
  removes : c.removes.length ≤ maxRemoves
  addsAscend : c.adds.IsChain (· < ·)
  removesAscend : c.removes.IsChain (· < ·)
  disjoint : ∀ a ∈ c.adds, a ∉ c.removes

instance (c : Commit) : Decidable c.WellFormed :=
  decidable_of_iff (c.adds.length ≤ maxAdds ∧ c.removes.length ≤ maxRemoves ∧
      c.adds.IsChain (· < ·) ∧ c.removes.IsChain (· < ·) ∧ c.adds.all (· ∉ c.removes) = true)
    ⟨fun ⟨ha, hr, haa, hra, hd⟩ => ⟨ha, hr, haa, hra, by simpa using hd⟩,
      fun h => ⟨h.adds, h.removes, h.addsAscend, h.removesAscend, by simpa using h.disjoint⟩⟩

theorem length_keyBytes : (keyBytes keys).length = 32 * keys.length := by
  induction keys with
  | nil => rfl
  | cons k keys ih =>
    simp only [keyBytes, List.flatMap_cons, List.length_append, Bytes32.length_toBytes,
      List.length_cons] at ih ⊢
    omega

theorem length_signingInput :
    c.signingInput.length = 102 + 32 * (c.adds.length + c.removes.length) := by
  simp only [signingInput, List.length_append, beBytes_length, Bytes32.length_toBytes,
    length_keyBytes, List.length_cons, List.length_nil]
  omega

theorem length_encode :
    c.encode.length = commitFixed + 32 * (c.adds.length + c.removes.length) := by
  simp only [encode, List.length_append, length_signingInput, Bytes64.length_toBytes, commitFixed]
  omega

theorem readKeys_keyBytes (a rest : Bytes) :
    readKeys (a ++ (keyBytes keys ++ rest)) keys.length a.length = keys := by
  induction keys generalizing a with
  | nil => rfl
  | cons k keys ih =>
    have hhead : natAt (a ++ (keyBytes (k :: keys) ++ rest)) a.length 32 =
        beNat (Bytes32.toBytes k) := by
      have h := natAt_append a (Bytes32.toBytes k) (keyBytes keys ++ rest)
      simpa [keyBytes] using h
    have htail := ih (a ++ Bytes32.toBytes k)
    simp only [List.length_append, Bytes32.length_toBytes, List.append_assoc] at htail
    simp only [List.length_cons, readKeys, hhead, Bytes32.ofNat_toBytes]
    simp only [keyBytes, List.flatMap_cons, List.append_assoc] at htail ⊢
    rw [htail]

theorem ascending_ok (what : String) {keys : List PubKey} (h : keys.IsChain (· < ·)) :
    ascending what keys = .ok () := by
  induction h with
  | nil => rfl
  | singleton a => rfl
  | cons_cons hlt _ ih => rw [ascending, if_neg (by simpa using hlt), ih]

def head : Bytes :=
  beBytes 4 c.epoch.toNat ++ Bytes32.toBytes c.committer ++
    [UInt8.ofNat c.adds.length, UInt8.ofNat c.removes.length]

def tail : Bytes :=
  Bytes32.toBytes c.contribution ++ (Bytes32.toBytes c.transcript ++ Bytes64.toBytes c.sig)

theorem length_head : c.head.length = 38 := by
  simp [head, beBytes_length]

theorem encode_eq : c.encode = c.head ++ (keyBytes c.adds ++ (keyBytes c.removes ++ c.tail)) := by
  simp [encode, signingInput, head, tail]

theorem readKeys_adds : readKeys c.encode c.adds.length 38 = c.adds := by
  have h := readKeys_keyBytes c.adds c.head (keyBytes c.removes ++ c.tail)
  rwa [← encode_eq, length_head] at h

theorem readKeys_removes :
    readKeys c.encode c.removes.length (38 + 32 * c.adds.length) = c.removes := by
  have h := readKeys_keyBytes c.removes (c.head ++ keyBytes c.adds) c.tail
  rwa [List.length_append, length_head, length_keyBytes, List.append_assoc, ← encode_eq] at h

theorem natAt_tail (i n : Nat) :
    natAt c.encode (38 + 32 * (c.adds.length + c.removes.length) + i) n = natAt c.tail i n := by
  rw [encode_eq, natAt_skip (by rw [length_head]; omega),
    natAt_skip (by rw [length_head, length_keyBytes]; omega),
    natAt_skip (by rw [length_head, length_keyBytes, length_keyBytes]; omega)]
  congr 1
  rw [length_head, length_keyBytes, length_keyBytes]
  omega

end

theorem beNat_count {n : Nat} (h : n ≤ 64) : beNat [UInt8.ofNat n] = n := by
  simp [beNat]
  omega

theorem natAt_adds {c : Commit} (h : c.adds.length ≤ 64) : natAt c.encode 36 1 = c.adds.length := by
  have hat := natAt_append (beBytes 4 c.epoch.toNat ++ Bytes32.toBytes c.committer)
    [UInt8.ofNat c.adds.length]
    (UInt8.ofNat c.removes.length :: (keyBytes c.adds ++ (keyBytes c.removes ++ c.tail)))
  simp only [List.length_append, beBytes_length, Bytes32.length_toBytes, beNat_count h] at hat
  simpa [encode_eq, head] using hat

theorem natAt_removes {c : Commit} (h : c.removes.length ≤ 64) :
    natAt c.encode 37 1 = c.removes.length := by
  have hat := natAt_append
    (beBytes 4 c.epoch.toNat ++ Bytes32.toBytes c.committer ++ [UInt8.ofNat c.adds.length])
    [UInt8.ofNat c.removes.length] (keyBytes c.adds ++ (keyBytes c.removes ++ c.tail))
  simp only [List.length_append, beBytes_length, Bytes32.length_toBytes, List.length_singleton,
    beNat_count h] at hat
  simpa [encode_eq, head] using hat

theorem decode_encode {c : Commit} (h : c.WellFormed) : decode c.encode = .ok c := by
  have hadds := natAt_adds h.adds
  have hremoves := natAt_removes h.removes
  have hepoch : natAt c.encode 0 4 = beNat (beBytes 4 c.epoch.toNat) := by
    simp [encode_eq, head, natAt_first, beBytes_length]
  have hcommitter : natAt c.encode 4 32 = beNat (Bytes32.toBytes c.committer) := by
    simp [encode_eq, head, natAt_skip, natAt_first, beBytes_length]
  have hcontribution := natAt_tail c 0 32
  have htranscript := natAt_tail c 32 32
  have hsig := natAt_tail c 64 64
  have hlast := natAt_append (Bytes32.toBytes c.contribution ++ Bytes32.toBytes c.transcript)
    (Bytes64.toBytes c.sig) []
  have hdisjoint : c.adds.any (c.removes.contains ·) = false := by
    simpa using h.disjoint
  have hlen := c.length_encode
  have hlimits : ¬ (c.adds.length > maxAdds ∨ c.removes.length > maxRemoves) := by
    have ha := h.adds
    have hr := h.removes
    omega
  have hfixed : ¬ c.encode.length < commitFixed := by omega
  simp [tail, natAt_skip, natAt_first] at hcontribution htranscript
  simp only [List.append_nil, List.append_assoc, List.length_append, Bytes32.length_toBytes,
    Bytes64.length_toBytes] at hlast
  rw [tail, hlast] at hsig
  rw [decode, if_neg hfixed]
  simp only [hadds, hremoves, if_neg hlimits, hlen, hepoch, hcommitter, hcontribution, htranscript,
    hsig, readKeys_adds, readKeys_removes, ascending_ok _ h.addsAscend,
    ascending_ok _ h.removesAscend, hdisjoint, Bytes32.ofNat_toBytes, Bytes64.ofNat_toBytes,
    UInt32.ofNat_beBytes, ne_eq, not_true_eq_false, if_false]
  rfl

end Commit

/-- The commit a member entry's body carries, where it carries one: a body of that shape
that the account names itself in and the device signed. -/
def commitSignedIn (C : Crypto) (body : Bytes) (account device : PubKey) : Option Commit :=
  match Commit.decode body with
  | .ok c => if c.committer = account ∧ c.verify C device = true then some c else none
  | .error _ => none

namespace Agreement

def take32 (okm : Bytes64) : Bytes32 := okm.extractLsb' 256 256

def contributionOf (C : Crypto) (commitSecret : Bytes32) : Bytes32 := C.x25519Public commitSecret

def transcript (C : Crypto) (previous : Bytes32) (commit : Commit) : Bytes32 :=
  take32 (C.sha512 (chainContext ++ Bytes32.toBytes previous ++ commit.signingInput))

def chain (C : Crypto) (previous commitSecret transcript : Bytes32) : Bytes32 :=
  take32 (C.sha512 (chainContext ++ Bytes32.toBytes previous ++ Bytes32.toBytes commitSecret ++
    Bytes32.toBytes transcript))

def epochKey (C : Crypto) (chain transcript : Bytes32) : Bytes32 :=
  take32 (C.sha512 (epochContext ++ Bytes32.toBytes chain ++ Bytes32.toBytes transcript))

/-- Why a device would not derive an epoch key from a commit it was handed. -/
inductive Refused where
  | wrongEpoch (held commit : UInt32)
  | transcript
  | contribution
  | welcome
  deriving DecidableEq

/-- What a member device holds for an agreed channel. The epoch is 0 before the first
commit. -/
@[ext] structure Chain where
  epoch : UInt32
  chain : Bytes32
  transcript : Bytes32
  deriving DecidableEq

namespace Chain

section
variable (C : Crypto) (s : Chain) (commit : Commit) (commitSecret : Bytes32)

/-- A new channel's chain, from the bytes its creator drew. -/
def create (drawn : Bytes32) : Chain := ⟨0, drawn, genesisTranscript⟩

/-- Where a `Welcome` puts a joining device: the chain as of the commit that admitted it,
and the transcript that commit produced. -/
def welcomed (chain : Bytes32) : Chain :=
  ⟨commit.epoch, chain, Agreement.transcript C commit.transcript commit⟩

def advance : Call Refused Chain Bytes32 := do
  let self ← Call.get
  Call.failIf (commit.epoch ≠ self.epoch + 1) (.wrongEpoch self.epoch commit.epoch)
  Call.failIf (commit.transcript ≠ self.transcript) .transcript
  Call.failIf (contributionOf C commitSecret ≠ commit.contribution) .contribution
  let next := Agreement.transcript C self.transcript commit
  let chainN := Agreement.chain C self.chain commitSecret next
  Call.modify fun _ => ⟨commit.epoch, chainN, next⟩
  pure (epochKey C chainN next)

def key : Bytes32 := epochKey C s.chain s.transcript

def Takes : Prop :=
  commit.epoch = s.epoch + 1 ∧ commit.transcript = s.transcript ∧
    contributionOf C commitSecret = commit.contribution

instance (C : Crypto) (s : Chain) (commit : Commit) (commitSecret : Bytes32) :
    Decidable (s.Takes C commit commitSecret) := inferInstanceAs (Decidable (_ ∧ _ ∧ _))

def next : Chain :=
  welcomed C commit (Agreement.chain C s.chain commitSecret
    (Agreement.transcript C commit.transcript commit))

/-- What `advance` does: on a commit that passes its checks it moves the chain and gives
the key it then stands at, and otherwise it leaves the chain where it was. -/
theorem advance_eq :
    s.Takes C commit commitSecret ∧ advance C commit commitSecret s =
        (.ok ((s.next C commit commitSecret).key C), s.next C commit commitSecret) ∨
      ¬ s.Takes C commit commitSecret ∧
        ∃ why, advance C commit commitSecret s = (.error why, s) := by
  have hget : advance C commit commitSecret s = (do
      Call.failIf (commit.epoch ≠ s.epoch + 1) (.wrongEpoch s.epoch commit.epoch)
      Call.failIf (commit.transcript ≠ s.transcript) .transcript
      Call.failIf (contributionOf C commitSecret ≠ commit.contribution) .contribution
      let next := Agreement.transcript C s.transcript commit
      let chainN := Agreement.chain C s.chain commitSecret next
      Call.modify fun _ => (⟨commit.epoch, chainN, next⟩ : Chain)
      pure (epochKey C chainN next) : Call Refused Chain Bytes32) s := rfl
  rw [hget]
  simp only [Call.failIf_bind]
  by_cases hepoch : commit.epoch = s.epoch + 1
  · by_cases htranscript : commit.transcript = s.transcript
    · by_cases hcontribution : contributionOf C commitSecret = commit.contribution
      · left
        refine ⟨⟨hepoch, htranscript, hcontribution⟩, ?_⟩
        simp only [hepoch, htranscript, hcontribution, ne_eq, not_true_eq_false, if_false]
        simp only [next, welcomed, htranscript, hepoch]
        rfl
      · right
        refine ⟨fun h => hcontribution h.2.2, .contribution, ?_⟩
        simp [hepoch, htranscript, hcontribution]
    · right
      refine ⟨fun h => htranscript h.2.1, .transcript, ?_⟩
      simp [hepoch, htranscript]
  · right
    refine ⟨fun h => hepoch h.1, .wrongEpoch s.epoch commit.epoch, ?_⟩
    simp [hepoch]

end

end Chain

/-- The slots a `Welcome` carries, and the epoch its range starts at: the chain first, then
whatever earlier keys the inviter chose, ending below the commit's epoch, then its key. -/
def welcome (commit : Commit) (chain current : Bytes32) (history : List Bytes32) :
    UInt32 × List Bytes32 :=
  (commit.epoch - UInt32.ofNat history.length - 1, chain :: (history ++ [current]))

/-- The keys of a range, each with its epoch: they begin one above the range's start. -/
def numbered (fromEpoch : UInt32) (keys : List Bytes32) : List (UInt32 × Bytes32) :=
  keys.mapIdx fun i k => (fromEpoch + 1 + UInt32.ofNat i, k)

def readWelcome (C : Crypto) (commit : Commit) (fromEpoch : UInt32) (slots : List Bytes32) :
    Except Refused (Chain × List (UInt32 × Bytes32)) :=
  let last := fromEpoch + UInt32.ofNat (slots.length - 1)
  if slots.length < 2 ∨ last ≠ commit.epoch then .error (.wrongEpoch last commit.epoch)
  else
    let chain := Chain.welcomed C commit (slots.headD 0)
    let keys := numbered fromEpoch slots.tail
    let derived := epochKey C chain.chain chain.transcript
    let carried := (keys.find? (·.1 = commit.epoch)).map Prod.snd
    if carried ≠ some derived then .error .welcome else .ok (chain, keys)

theorem readWelcome_ok {C : Crypto} {commit : Commit} {fromEpoch : UInt32} {slots : List Bytes32}
    {chain : Chain} {keys : List (UInt32 × Bytes32)}
    (h : readWelcome C commit fromEpoch slots = .ok (chain, keys)) :
    chain = Chain.welcomed C commit (slots.headD 0) ∧ keys = numbered fromEpoch slots.tail := by
  simp only [readWelcome] at h
  split at h
  · cases h
  · split at h
    · cases h
    · cases h
      exact ⟨rfl, rfl⟩

theorem numbered_concat (e : UInt32) (history : List Bytes32) (current : Bytes32) :
    numbered (e - UInt32.ofNat history.length - 1) (history ++ [current]) =
      numbered (e - UInt32.ofNat history.length - 1) history ++ [(e, current)] := by
  have hlast : e - UInt32.ofNat history.length - 1 + 1 + UInt32.ofNat history.length = e := by
    rw [UInt32.sub_add_cancel, UInt32.sub_add_cancel]
  rw [numbered, List.mapIdx_append, List.mapIdx_singleton, Nat.zero_add, hlast]
  rfl

/-- The key for the commit's epoch is the last of a welcome's range, and no other. -/
theorem find_numbered (e : UInt32) (history : List Bytes32) (current : Bytes32)
    (hlen : history.length < 2 ^ 32) :
    (numbered (e - UInt32.ofNat history.length - 1) (history ++ [current])).find? (·.1 = e) =
      some (e, current) := by
  have hlast : e - UInt32.ofNat history.length - 1 + 1 + UInt32.ofNat history.length = e := by
    rw [UInt32.sub_add_cancel, UInt32.sub_add_cancel]
  have hearlier : (numbered (e - UInt32.ofNat history.length - 1) history).find? (·.1 = e) =
      none := by
    simp only [List.find?_eq_none, decide_eq_true_eq]
    intro k hk hepoch
    obtain ⟨i, hi, rfl⟩ := List.mem_mapIdx.mp hk
    have hsame : UInt32.ofNat i = UInt32.ofNat history.length :=
      (UInt32.add_right_inj _).mp (hepoch.trans hlast.symm)
    have hnat := congrArg UInt32.toNat hsame
    simp only [UInt32.toNat_ofNat'] at hnat
    rw [Nat.mod_eq_of_lt (by omega), Nat.mod_eq_of_lt hlen] at hnat
    omega
  rw [numbered_concat, List.find?_append, hearlier]
  simp

theorem readWelcome_welcome (C : Crypto) (commit : Commit) (chain : Bytes32)
    (history : List Bytes32) (hlen : history.length < 2 ^ 32) :
    let current := (Chain.welcomed C commit chain).key C
    let w := welcome commit chain current history
    readWelcome C commit w.1 w.2 =
      .ok (Chain.welcomed C commit chain, numbered w.1 (history ++ [current])) := by
  intro current w
  have hlast : w.1 + UInt32.ofNat (w.2.length - 1) = commit.epoch := by
    have hcount : w.2.length - 1 = history.length + 1 := by simp [w, welcome]
    have hone : UInt32.ofNat (history.length + 1) = 1 + UInt32.ofNat history.length := by
      rw [UInt32.ofNat_add, UInt32.add_comm]
      rfl
    rw [hcount, hone, ← UInt32.add_assoc]
    simp only [w, welcome]
    rw [UInt32.sub_add_cancel, UInt32.sub_add_cancel]
  have hslots : ¬ (w.2.length < 2 ∨ w.1 + UInt32.ofNat (w.2.length - 1) ≠ commit.epoch) := by
    rw [not_or, not_not]
    exact ⟨by simp [w, welcome], hlast⟩
  have hfind := find_numbered commit.epoch history current hlen
  simp only [readWelcome, if_neg hslots]
  rw [show w.2.tail = history ++ [current] from rfl, show w.2.headD 0 = chain from rfl,
    show w.1 = commit.epoch - UInt32.ofNat history.length - 1 from rfl, hfind, if_neg]
  simp [current, Chain.key]

/-- The range a welcome names, where its history starts at epoch 1 or later: the epochs of
the history one after another, and the commit's. -/
theorem numbered_epochs (e : UInt32) (history : List Bytes32) (current : Bytes32)
    (hlen : history.length < e.toNat) :
    (numbered (e - UInt32.ofNat history.length - 1) (history ++ [current])).map (·.1.toNat) =
      List.range' (e.toNat - history.length) (history.length + 1) := by
  have hlt := e.toNat_lt
  have hepoch : ∀ i, i < history.length + 1 →
      (e - UInt32.ofNat history.length - 1 + 1 + UInt32.ofNat i).toNat =
        e.toNat - history.length + i := by
    intro i hi
    rw [UInt32.sub_add_cancel, UInt32.toNat_add, UInt32.toNat_sub, UInt32.toNat_ofNat',
      UInt32.toNat_ofNat', Nat.mod_eq_of_lt (show i < 2 ^ 32 by omega),
      Nat.mod_eq_of_lt (show history.length < 2 ^ 32 by omega)]
    omega
  apply List.ext_getElem
  · simp [numbered]
  · intro i hi _
    have hbound : i < history.length + 1 := by simpa [numbered] using hi
    simp only [numbered, List.getElem_map, List.getElem_mapIdx, List.getElem_range',
      hepoch i hbound]
    omega

end Agreement
end Sqex
