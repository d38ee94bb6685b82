import Sqex.Proto.Agreement
import Sqex.Proto.Fields

/-! One commit has one encoding: what reads as a commit is what the commit is written as, and its
lists go up and are apart. Its epoch, and the range of a welcome, are in 32 bits that wrap. -/
namespace Sqex
open Offsets

namespace Commit
variable {b : Bytes} {o : Nat} {c : Commit} {keys : List PubKey}

theorem stands_keyBytes : Stands b o (keyBytes keys) ↔
    o + 32 * keys.length ≤ b.length ∧ readKeys b keys.length o = keys := by
  induction keys generalizing o with
  | nil => simp [keyBytes, readKeys, stands_nil]
  | cons k keys ih =>
    have hcons : keyBytes (k :: keys) = Bytes32.toBytes k ++ keyBytes keys := rfl
    rw [hcons, stands_key_append, ih, List.length_cons, readKeys, List.cons.injEq, keyAt,
      show o + 32 * (keys.length + 1) = o + 32 + 32 * keys.length by omega]
    exact and_left_comm

theorem length_readKeys (b : Bytes) (n o : Nat) : (readKeys b n o).length = n := by
  induction n generalizing o with
  | zero => rfl
  | succ n ih => rw [readKeys, List.length_cons, ih]

theorem ascending_eq_ok {what : String} {u : Unit} :
    ascending what keys = .ok u ↔ keys.IsChain (· < ·) := by
  fun_induction ascending what keys with
  | case1 => simp
  | case2 => simp
  | case3 a k keys hle =>
    have hlt : ¬ a < k := by simpa using hle
    simp [hlt]
  | case4 a k keys hlt ih =>
    have hlt : a < k := by simpa using hlt
    rw [ih, List.isChain_cons_cons, and_iff_right hlt]

theorem natAt_one (h : o + 1 ≤ b.length) : natAt b o 1 = (byteAt b o).toNat := by
  have ho : o < b.length := h
  have hget : b.getD o 0 = b[o] := by simp [List.getD, ho]
  rw [natAt, byteAt, hget, List.drop_eq_getElem_cons ho, List.take_succ_cons, List.take_zero]
  simp [beNat]

theorem decode_eq_ok : decode b = .ok c ↔ b = c.encode ∧ c.WellFormed := by
  constructor
  · intro h
    unfold decode at h
    split at h
    · cases h
    rename_i hfixed
    dsimp only at h
    split at h
    · cases h
    rename_i hlimits
    split at h
    · cases h
    rename_i hwant
    rw [not_not] at hwant
    simp only [bind_eq_ok, ascending_eq_ok] at h
    obtain ⟨-, haddsAscend, -, hremovesAscend, hc⟩ := h
    split at hc
    · cases hc
    rename_i hdisjoint
    have hadds : c.adds = readKeys b (natAt b 36 1) 38 := by rw [← Except.ok.inj hc]
    have hremoves : c.removes = readKeys b (natAt b 37 1) (38 + 32 * natAt b 36 1) := by
      rw [← Except.ok.inj hc]
    have haddsCount : c.adds.length = natAt b 36 1 := by rw [hadds, length_readKeys]
    have hremovesCount : c.removes.length = natAt b 37 1 := by rw [hremoves, length_readKeys]
    rw [← haddsCount, ← hremovesCount] at hwant hlimits
    have hwell : c.WellFormed := by
      refine ⟨by omega, by omega, ?_, ?_, ?_⟩
      · rwa [hadds]
      · rwa [hremoves]
      · rw [← hadds, ← hremoves] at hdisjoint
        simpa using hdisjoint
    refine ⟨stands_whole.mp ⟨?_, by rw [length_encode, hwant]⟩, hwell⟩
    have haddsLimit := hwell.adds
    have hremovesLimit := hwell.removes
    unfold maxAdds at haddsLimit
    unfold maxRemoves at hremovesLimit
    unfold commitFixed at hwant
    have hepoch : u32At b 0 = c.epoch := by rw [← Except.ok.inj hc, u32At]
    have hcommitter : keyAt b 4 = c.committer := by rw [← Except.ok.inj hc, keyAt]
    have hend : 38 + 32 * (c.adds.length + c.removes.length) + 128 = b.length := by omega
    have hhead : Stands b 0 c.head := by
      have haddsAt : (byteAt b 36).toNat = c.adds.length := by
        rw [← natAt_one (by omega), haddsCount]
      have hremovesAt : (byteAt b 37).toNat = c.removes.length := by
        rw [← natAt_one (by omega), hremovesCount]
      have hcounts : Stands b 36 [UInt8.ofNat c.adds.length, UInt8.ofNat c.removes.length] := by
        rw [stands_cons, stands_len8 (by omega), stands_len8 (by omega)]
        exact ⟨⟨by omega, haddsAt⟩, by omega, hremovesAt⟩
      rw [head, List.append_assoc, stands_u32_append, stands_key_append]
      exact ⟨hepoch, hcommitter, hcounts⟩
    have hlists : Stands b 38 (keyBytes c.adds) ∧
        Stands b (38 + 32 * c.adds.length) (keyBytes c.removes) := by
      rw [stands_keyBytes, stands_keyBytes, haddsCount, hremovesCount]
      exact ⟨⟨by omega, hadds.symm⟩, by omega, hremoves.symm⟩
    have htail : Stands b (38 + 32 * (c.adds.length + c.removes.length)) c.tail := by
      rw [tail, stands_key_append, stands_key_append, stands_sig,
        ← Except.ok.inj hc, length_readKeys, length_readKeys, Nat.add_assoc _ 32 32]
      exact ⟨rfl, rfl, by omega, rfl⟩
    rw [encode_eq, stands_append, stands_append, stands_append, length_head, length_keyBytes,
      length_keyBytes, Nat.zero_add, Nat.add_assoc 38, ← Nat.mul_add]
    exact ⟨hhead, hlists.1, hlists.2, htail⟩
  · rintro ⟨rfl, hfits⟩
    exact decode_encode hfits

end Commit

namespace Agreement
variable {C : Crypto} {commit : Commit} {commitSecret : Bytes32} {s : Chain}
  {fromEpoch : UInt32} {slots : List Bytes32}

def Wraps (C : Crypto) (s : Chain) (commit : Commit) (commitSecret : Bytes32) : Prop :=
  s.epoch.toNat + 1 = 2 ^ 32 ∧ commit.epoch = 0 ∧ commit.transcript = s.transcript ∧
    contributionOf C commitSecret = commit.contribution

theorem advance_refuses_iff : (∃ why, (Chain.advance C commit commitSecret s).1 = .error why) ↔
    ¬ s.Takes C commit commitSecret := by
  rcases Chain.advance_eq C s commit commitSecret with ⟨htakes, hrun⟩ | ⟨hrefuses, why, hrun⟩
  · rw [hrun]
    exact iff_of_false (by simp) (not_not.mpr htakes)
  · rw [hrun]
    exact iff_of_true ⟨why, rfl⟩ hrefuses

theorem advance_last_iff : (2 ^ 32 ≤ s.epoch.toNat + 1 →
    ∃ why, (Chain.advance C commit commitSecret s).1 = .error why) ↔
      ¬ Wraps C s commit commitSecret := by
  rw [advance_refuses_iff, Wraps, Chain.Takes]
  have hlt := s.epoch.toNat_lt
  by_cases hlast : s.epoch.toNat + 1 = 2 ^ 32
  · have hzero : s.epoch + 1 = 0 := by
      apply UInt32.toNat.inj
      rw [UInt32.toNat_add, show (1 : UInt32).toNat = 1 from rfl, hlast]
      rfl
    rw [hzero, and_iff_right hlast]
    exact ⟨fun h => h (by omega), fun h _ => h⟩
  · have hbelow : ¬ 2 ^ 32 ≤ s.epoch.toNat + 1 := by omega
    exact iff_of_true (fun h => absurd h hbelow) fun h => hlast h.1

/-- Of a range's keys, which of them is for its last epoch: the last, or where the epochs went
round the first to come by it. -/
theorem find_numbered_last (fromEpoch : UInt32) {keys : List Bytes32} (hkeys : keys ≠ []) :
    (numbered fromEpoch keys).find? (·.1 = fromEpoch + UInt32.ofNat keys.length) =
      (keys[(keys.length - 1) % 2 ^ 32]?).map
        fun k => (fromEpoch + UInt32.ofNat keys.length, k) := by
  have hpos := List.length_pos_of_ne_nil hkeys
  have hmod : (keys.length - 1) % 2 ^ 32 < keys.length :=
    Nat.lt_of_le_of_lt (Nat.mod_le _ _) (by omega)
  -- the epochs of two places are one where the places are one apart from the turns
  have hepoch : ∀ i, fromEpoch + 1 + UInt32.ofNat i = fromEpoch + UInt32.ofNat keys.length ↔
      i % 2 ^ 32 = (keys.length - 1) % 2 ^ 32 := by
    intro i
    rw [← UInt32.toNat_inj, UInt32.toNat_add, UInt32.toNat_add, UInt32.toNat_add,
      UInt32.toNat_ofNat', UInt32.toNat_ofNat', show (1 : UInt32).toNat = 1 from rfl]
    omega
  rw [List.getElem?_eq_getElem hmod, Option.map_some, List.find?_eq_some_iff_getElem]
  refine ⟨by simp, (keys.length - 1) % 2 ^ 32, by simpa [numbered] using hmod, ?_, fun j hj => ?_⟩
  · have hsame := (hepoch ((keys.length - 1) % 2 ^ 32)).mpr (Nat.mod_mod _ _)
    simpa [numbered] using hsame
  · have hother : ¬ fromEpoch + 1 + UInt32.ofNat j = fromEpoch + UInt32.ofNat keys.length := by
      rw [hepoch]
      omega
    simpa [numbered] using hother

/-- What a welcome whose range runs past the last epoch is taken for: its range, gone round, ends
at the commit's epoch, and the key it carries for that epoch is the one its chain derives. -/
def RunsRound (C : Crypto) (commit : Commit) (fromEpoch : UInt32) (slots : List Bytes32) : Prop :=
  2 ^ 32 ≤ fromEpoch.toNat + (slots.length - 1) ∧ 2 ≤ slots.length ∧
    (fromEpoch.toNat + (slots.length - 1)) % 2 ^ 32 = commit.epoch.toNat ∧
    slots.tail[(slots.length - 2) % 2 ^ 32]? =
      some ((Chain.welcomed C commit (slots.headD 0)).key C)

theorem readWelcome_refuses_iff : (∃ why, readWelcome C commit fromEpoch slots = .error why) ↔
    ¬ (2 ≤ slots.length ∧
      (fromEpoch.toNat + (slots.length - 1)) % 2 ^ 32 = commit.epoch.toNat ∧
      slots.tail[(slots.length - 2) % 2 ^ 32]? =
        some ((Chain.welcomed C commit (slots.headD 0)).key C)) := by
  have hlast : fromEpoch + UInt32.ofNat (slots.length - 1) = commit.epoch ↔
      (fromEpoch.toNat + (slots.length - 1)) % 2 ^ 32 = commit.epoch.toNat := by
    rw [← UInt32.toNat_inj, UInt32.toNat_add, UInt32.toNat_ofNat', Nat.add_mod_mod]
  rw [← hlast]
  by_cases hrange : 2 ≤ slots.length ∧ fromEpoch + UInt32.ofNat (slots.length - 1) = commit.epoch
  · have htail : slots.tail ≠ [] := by
      intro hnil
      have hlength := congrArg List.length hnil
      rw [List.length_tail, List.length_nil] at hlength
      omega
    have hfind := find_numbered_last fromEpoch htail
    rw [List.length_tail, hrange.2, show slots.length - 1 - 1 = slots.length - 2 by omega] at hfind
    have hslots : ¬ (slots.length < 2 ∨
        fromEpoch + UInt32.ofNat (slots.length - 1) ≠ commit.epoch) := by
      rw [not_or, not_not]
      exact ⟨by omega, hrange.2⟩
    simp only [readWelcome, if_neg hslots, hfind, Option.map_map]
    rw [and_iff_right hrange.1, and_iff_right hrange.2]
    have hcarried : Option.map (Prod.snd ∘ fun k : Bytes32 => (commit.epoch, k))
        slots.tail[(slots.length - 2) % 2 ^ 32]? = slots.tail[(slots.length - 2) % 2 ^ 32]? :=
      Option.map_id'
    rw [hcarried, Chain.key]
    split
    · rename_i hother
      exact iff_of_true ⟨_, rfl⟩ hother
    · rename_i hsame
      exact iff_of_false (by simp) hsame
  · have hslots : slots.length < 2 ∨
        fromEpoch + UInt32.ofNat (slots.length - 1) ≠ commit.epoch := by
      rw [not_and_or] at hrange
      exact hrange.imp_left Nat.lt_of_not_le
    simp only [readWelcome, if_pos hslots]
    exact iff_of_true ⟨_, rfl⟩ fun h => hrange ⟨h.1, h.2.1⟩

/-- Commits have one encoding; a chain refuses a commit past the last epoch, and a welcome whose
range runs past it is refused, but for those that go round to the epoch the commit names. -/
theorem one_encoding_and_wraps_iff (C : Crypto) :
    (∀ b c, Commit.decode b = .ok c ↔ b = c.encode ∧ c.WellFormed) ∧
      (∀ (s : Chain) (commit : Commit) (commitSecret : Bytes32),
        (2 ^ 32 ≤ s.epoch.toNat + 1 →
          ∃ why, (Chain.advance C commit commitSecret s).1 = .error why) ↔
          ¬ Wraps C s commit commitSecret) ∧
      ∀ (commit : Commit) (fromEpoch : UInt32) (slots : List Bytes32),
        (2 ^ 32 ≤ fromEpoch.toNat + (slots.length - 1) →
          ∃ why, readWelcome C commit fromEpoch slots = .error why) ↔
          ¬ RunsRound C commit fromEpoch slots := by
  refine ⟨fun b c => Commit.decode_eq_ok, fun s commit commitSecret => advance_last_iff,
    fun commit fromEpoch slots => ?_⟩
  rw [readWelcome_refuses_iff, RunsRound]
  exact not_and.symm

section Edges

def lastChain : Chain := ⟨4294967295, 0, genesisTranscript⟩

def roundCommit : Commit where
  epoch := 0
  committer := Crypto.toy.publicKey 1
  adds := []
  removes := []
  contribution := contributionOf .toy 7
  transcript := genesisTranscript
  sig := 0

/-- The chain takes it, and so does one who is welcomed from the last epoch on. -/
theorem last_epoch_wraps :
    (¬ ∃ why, (Chain.advance .toy roundCommit 7 lastChain).1 = .error why) ∧
      ¬ ∃ why, readWelcome .toy roundCommit 4294967295
        [0, (Chain.welcomed .toy roundCommit 0).key .toy] = .error why := by
  rw [advance_refuses_iff, readWelcome_refuses_iff, not_not, not_not]
  decide +kernel

end Edges

end Agreement
end Sqex
