import Sqex.Proto.Fields

/-! Rooms as an exchange knows them: a handle, a roster of members each with a proof of the secret
that the exchange cannot check, and what is written of them. -/
namespace Sqex

def memberContext : Bytes := "sqex-room-member-v1".toUTF8.toList

def maxShare : Nat := 4

abbrev RoomId := Bytes32

def RoomId.proof (C : Crypto) (room : RoomId) (identity : PubKey) : Bytes32 :=
  C.hmacSha256 (Bytes32.toBytes room) (memberContext ++ Bytes32.toBytes identity)

def RoomId.verify (C : Crypto) (room : RoomId) (identity : PubKey) (proof : Bytes32) : Bool :=
  RoomId.proof C room identity == proof

namespace Room

structure Member where
  identity : PubKey
  proof : Bytes32
  deriving DecidableEq

structure Roster where
  now : UInt64
  members : List Member
  deriving DecidableEq

structure HomedMember where
  identity : PubKey
  proof : Bytes32
  home : PubKey
  deriving DecidableEq

def HomedMember.isLocal (m : HomedMember) : Bool := m.home == 0

structure Homed where
  now : UInt64
  members : List HomedMember
  deriving DecidableEq

end Room
end Sqex

namespace Sqex.Room
open Offsets

def maxMembers : Nat := 8

def HomedMember.write (m : HomedMember) : Bytes :=
  Bytes32.toBytes m.identity ++ (Bytes32.toBytes m.proof ++ Bytes32.toBytes m.home)

def HomedMember.readAt (b : Bytes) (o : Nat) : HomedMember where
  identity := keyAt b o
  proof := keyAt b (o + 32)
  home := keyAt b (o + 64)

namespace Homed

def encode (h : Homed) : Bytes :=
  beBytes 8 h.now.toNat ++ (beBytes 2 h.members.length ++ h.members.flatMap HomedMember.write)

/-- Every exchange admits at most `maxMembers`; a shared room spans several, so what is bounded
is what one exchange may relay, not the room. -/
def decode (b : Bytes) : Except Error Homed := do
  malformedIf (b.length < 10) "homed roster cut short"
  let count := (u16At b 8).toNat
  malformedIf (b.length ≠ 10 + count * 96)
    s!"homed roster claims {count} members but carries {b.length - 10} bytes"
  malformedIf (count > maxMembers * maxShare) "homed roster too large"
  pure { now := u64At b 0
         members := (List.range count).map fun i => HomedMember.readAt b (10 + i * 96) }

end Homed

section
variable {b : Bytes} {o : Nat}

theorem HomedMember.length_write (m : HomedMember) : m.write.length = 96 := by
  simp [write]

theorem HomedMember.stands {m : HomedMember} :
    Stands b o m.write ↔ o + 96 ≤ b.length ∧ readAt b o = m := by
  obtain ⟨identity, proof, home⟩ := m
  rw [write, stands_key_append, stands_key_append, stands_key, readAt, HomedMember.mk.injEq]
  simp only [Nat.add_assoc, Nat.reduceAdd, and_left_comm]

theorem HomedMember.stands_all {members : List HomedMember} :
    Stands b o (members.flatMap write) ↔ o + members.length * 96 ≤ b.length ∧
      (List.range members.length).map (fun i => readAt b (o + i * 96)) = members :=
  stands_map length_write fun _ _ _ => stands

namespace Homed

theorem length_encode (h : Homed) : h.encode.length = 10 + h.members.length * 96 := by
  simp only [encode, List.length_append, beBytes_length, length_flatMap HomedMember.length_write]
  omega

theorem decode_eq_ok {h : Homed} :
    decode b = .ok h ↔ b = h.encode ∧ h.members.length ≤ maxMembers * maxShare := by
  have hcap : maxMembers * maxShare = 32 := rfl
  simp only [decode, bind_eq_ok, malformedIf_eq_ok, pure_eq_ok, Nat.not_lt, ne_eq,
    Decidable.not_not, gt_iff_lt]
  constructor
  · rintro ⟨_, hroom, _, hlen, _, hcount, rfl⟩
    rw [← stands_whole, length_encode, encode, stands_u64_append,
      stands_len16_append (by simp only [List.length_map, List.length_range]; omega),
      HomedMember.stands_all, List.length_map, List.length_range]
    exact ⟨⟨⟨rfl, rfl, hlen.ge, rfl⟩, hlen.symm⟩, hcount⟩
  · rintro ⟨hb, hcount⟩
    rw [← stands_whole, length_encode, encode, stands_u64_append, stands_len16_append (by omega),
      HomedMember.stands_all] at hb
    obtain ⟨⟨hnow, hlen, _, hmembers⟩, hwhole⟩ := hb
    refine ⟨(), by omega, (), by rw [hlen, hwhole], (), hlen ▸ hcount, ?_⟩
    rw [hlen, hnow]
    exact congrArg (Homed.mk h.now) hmembers

/-- A roster is read back exactly if it is no longer than one may be. -/
theorem decode_encode_iff (h : Homed) :
    decode h.encode = .ok h ↔ h.members.length ≤ maxMembers * maxShare := by
  rw [decode_eq_ok, and_iff_right rfl]

end Homed
end
end Sqex.Room
