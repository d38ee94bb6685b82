import Sqex.Proto.Fields

/-! A profile as its subject signed it, as it is written and read. -/
namespace Sqex.Subject
open Offsets

/-- The one flag there is; the other bits are reserved. -/
def flagWithhold : UInt8 := 1

def maxName : Nat := 64
def maxTitle : Nat := 64
def maxAvatar : Nat := 8 * 1024
def maxBlocked : Nat := 1024
def maxUpdatesPerHour : Nat := 32

structure Profile where
  flags : UInt8
  name : String
  title : String
  avatar : Bytes
  deriving DecidableEq

/-- A byte as a message shows its bits. -/
def bits (b : UInt8) : String :=
  "0b" ++ String.ofList ((List.range 8).reverse.map fun i => if b.toNat.testBit i then '1' else '0')

namespace Profile

def withheld (p : Profile) : Bool := p.flags &&& flagWithhold != 0

def write (p : Profile) : Bytes :=
  [p.flags] ++ ([UInt8.ofNat (textBytes p.name).length] ++ (textBytes p.name ++
    ([UInt8.ofNat (textBytes p.title).length] ++ (textBytes p.title ++
    (beBytes 2 p.avatar.length ++ p.avatar)))))

/-- A profile at an offset, and where it ends. -/
def read (b : Bytes) (o : Nat) : Except Error (Profile × Nat) := do
  malformedIf (b.length < o + 3) "profile is truncated"
  let flags := byteAt b o
  malformedIf (flags &&& ~~~flagWithhold ≠ 0) s!"reserved profile flags set: {bits flags}"
  let nameLen := (byteAt b (o + 1)).toNat
  malformedIf (nameLen > maxName) s!"name is {nameLen} bytes, limit is {maxName}"
  let p := o + 2
  malformedIf (b.length < p + nameLen + 1) "profile is truncated"
  let name ← utf8 (slice b p nameLen) "name"
  let p := p + nameLen
  let titleLen := (byteAt b p).toNat
  let p := p + 1
  malformedIf (titleLen > maxTitle) s!"title is {titleLen} bytes, limit is {maxTitle}"
  malformedIf (b.length < p + titleLen + 2) "profile is truncated"
  let title ← utf8 (slice b p titleLen) "title"
  let p := p + titleLen
  let avatarLen := (u16At b p).toNat
  let p := p + 2
  malformedIf (avatarLen > maxAvatar) s!"avatar is {avatarLen} bytes, limit is {maxAvatar}"
  malformedIf (b.length < p + avatarLen) "avatar is truncated"
  pure (⟨flags, name, title, slice b p avatarLen⟩, p + avatarLen)

structure Fits (p : Profile) : Prop where
  flags : p.flags &&& ~~~flagWithhold = 0
  name : (textBytes p.name).length ≤ maxName
  title : (textBytes p.title).length ≤ maxTitle
  avatar : p.avatar.length ≤ maxAvatar

variable {b : Bytes} {o o' : Nat} {p : Profile}

theorem length_write (p : Profile) : p.write.length =
    2 + (textBytes p.name).length + 1 + (textBytes p.title).length + 2 + p.avatar.length := by
  simp only [write, List.length_append, List.length_singleton, beBytes_length]
  omega

theorem stands_write (h : p.Fits) : Stands b o p.write ↔
    o + p.write.length ≤ b.length ∧ byteAt b o = p.flags ∧
      (byteAt b (o + 1)).toNat = (textBytes p.name).length ∧
      slice b (o + 2) (textBytes p.name).length = textBytes p.name ∧
      (byteAt b (o + 2 + (textBytes p.name).length)).toNat = (textBytes p.title).length ∧
      slice b (o + 2 + (textBytes p.name).length + 1) (textBytes p.title).length =
        textBytes p.title ∧
      (u16At b (o + 2 + (textBytes p.name).length + 1 + (textBytes p.title).length)).toNat =
        p.avatar.length ∧
      slice b (o + 2 + (textBytes p.name).length + 1 + (textBytes p.title).length + 2)
        p.avatar.length = p.avatar := by
  have hname : (textBytes p.name).length < 256 := Nat.lt_of_le_of_lt h.name (by decide)
  have htitle : (textBytes p.title).length < 256 := Nat.lt_of_le_of_lt h.title (by decide)
  have havatar : p.avatar.length < 2 ^ 16 := Nat.lt_of_le_of_lt h.avatar (by decide)
  rw [length_write, write, stands_byte_append, stands_len8_append hname, stands_part_append,
    stands_len8_append htitle, stands_part_append, stands_len16_append havatar, stands_iff_slice]
  simp only [Nat.add_assoc, Nat.reduceAdd]
  constructor
  · rintro ⟨h₁, h₂, h₃, h₄, h₅, h₆, hlen, h₇⟩
    exact ⟨hlen, h₁, h₂, h₃, h₄, h₅, h₆, h₇⟩
  · rintro ⟨hlen, h₁, h₂, h₃, h₄, h₅, h₆, h₇⟩
    exact ⟨h₁, h₂, h₃, h₄, h₅, h₆, hlen, h₇⟩

/-- What is read is what stands there, written as one that fits. -/
theorem read_eq_ok : read b o = .ok (p, o') ↔
    (Stands b o p.write ∧ o' = o + p.write.length) ∧ p.Fits := by
  constructor
  · intro h
    simp only [read, bind_eq_ok, malformedIf_eq_ok, utf8_eq_ok, pure_eq_ok, Nat.not_lt, ne_eq,
      Decidable.not_not, gt_iff_lt, Prod.mk.injEq] at h
    obtain ⟨_, -, _, hflags, _, hname, _, hroom, name, hname', _, htitle, _, hroom', title, htitle',
      _, havatar, _, hroom'', rfl, rfl⟩ := h
    have hn : (textBytes name).length = (byteAt b (o + 1)).toNat := by
      rw [← hname', length_slice (by omega)]
    have ht : (textBytes title).length = (byteAt b (o + 2 + (byteAt b (o + 1)).toNat)).toNat := by
      rw [← htitle', length_slice (by omega)]
    have ha := length_slice hroom''
    have hfits : Fits ⟨byteAt b o, name, title, slice b _ _⟩ :=
      ⟨hflags, by simpa only [hn] using hname, by simpa only [ht] using htitle,
        ha.trans_le havatar⟩
    refine ⟨⟨(stands_write hfits).mpr ?_, ?_⟩, hfits⟩
    · simp only [length_write, hn, ht, ha, hname', htitle', and_true]
      omega
    · simp only [length_write, hn, ht, ha]
      omega
  · rintro ⟨⟨hstands, rfl⟩, hfits⟩
    obtain ⟨hlen, hflags, hn, hname, ht, htitle, ha, havatar⟩ := (stands_write hfits).mp hstands
    have hlength := length_write p
    simp only [read, bind_eq_ok, malformedIf_eq_ok, utf8_eq_ok, pure_eq_ok, Nat.not_lt, ne_eq,
      Decidable.not_not, gt_iff_lt, Prod.mk.injEq, hflags, hn, ht, ha]
    refine ⟨(), by omega, (), hfits.flags, (), hfits.name, (), by omega, p.name, hname, (),
      hfits.title, (), by omega, p.title, htitle, (), hfits.avatar, (), by omega, ?_, by omega⟩
    rw [havatar]

end Profile

/-- Highest serial wins: the serial is the subject's counter, and nothing orders by the time. -/
structure Record where
  account : PubKey
  device : PubKey
  serial : UInt64
  issuedAt : UInt64
  profile : Profile
  signature : Bytes64
  deriving DecidableEq

namespace Record

def context : Bytes := "sqex-profile-v1".toUTF8.toList

def body (r : Record) : Bytes :=
  Bytes32.toBytes r.account ++ (Bytes32.toBytes r.device ++ (beBytes 8 r.serial.toNat ++
    (beBytes 8 r.issuedAt.toNat ++ r.profile.write)))

def input (C : Crypto) (r : Record) : Bytes := context ++ Bytes32.toBytes (C.sha256 r.body)

/-- Step one of two: whose device it is, a credential says. -/
def verify (C : Crypto) (r : Record) : Bool := C.checks r.device (r.input C) r.signature

def encode (r : Record) : Bytes := r.body ++ Bytes64.toBytes r.signature

def decode (b : Bytes) : Except Error Record := do
  malformedIf (b.length < 80 + 64) "record is truncated"
  let (profile, o) ← Profile.read b 80
  malformedIf (b.length ≠ o + 64) s!"record is {b.length} bytes, want {o + 64}"
  pure ⟨keyAt b 0, keyAt b 32, u64At b 64, u64At b 72, profile, sigAt b o⟩

/-- What is read is what was written, and a record is read only where one that fits was. -/
theorem decode_eq_ok {b : Bytes} {r : Record} :
    decode b = .ok r ↔ b = r.encode ∧ r.profile.Fits := by
  rw [← stands_whole, encode, body, List.append_assoc, List.append_assoc, List.append_assoc,
    List.append_assoc, stands_key_append, stands_key_append, stands_u64_append, stands_u64_append,
    stands_append, stands_sig]
  simp only [decode, bind_eq_ok, malformedIf_eq_ok, pure_eq_ok, Profile.read_eq_ok, Prod.exists,
    Nat.not_lt, ne_eq, Decidable.not_not, List.length_append, Bytes32.length_toBytes,
    Bytes64.length_toBytes, beBytes_length, Nat.zero_add, Nat.reduceAdd, ← Nat.add_assoc]
  constructor
  · rintro ⟨_, hlen, profile, o, ⟨⟨hprofile, rfl⟩, hfits⟩, _, hwhole, rfl⟩
    exact ⟨⟨⟨rfl, rfl, rfl, rfl, hprofile, hwhole.ge, rfl⟩, hwhole.symm⟩, hfits⟩
  · rintro ⟨⟨⟨haccount, hdevice, hserial, hissued, hprofile, -, hsig⟩, hwhole⟩, hfits⟩
    refine ⟨(), by omega, r.profile, _, ⟨⟨hprofile, rfl⟩, hfits⟩, (), hwhole.symm, ?_⟩
    rw [haccount, hdevice, hserial, hissued, hsig]

end Record
end Sqex.Subject
