import Sqex.Proto.EntryWire
import Sqex.Proto.Fields

/-! An answer to a fetch, as it is written and read in its two shapes: with a receipt on
every entry and on the tip, or with none. -/
namespace Sqex
open Offsets

namespace Channel

/-- Bytes an entry occupies beside its body, without a receipt. -/
def entryHeader : Nat := 8 + 1 + 32 + 32 + 8 + 4 + 4 + 8 + 8 + 32 + 32 + 64 + 4

def receiptedLen : Nat := 32 + 32 + 64

def maxBatch : Nat := 64
def maxSignalBody : Nat := 256
def maxSignals : Nat := 32

end Channel
open Channel

def Receipted.readAt (b : Bytes) (o : Nat) : Receipted where
  entryHash := keyAt b o
  head := keyAt b (o + 32)
  receipt := sigAt b (o + 64)

/-- Read an entry in the shape the caller's request selected, never one guessed. -/
def Entry.read (receipted : Bool) : ReaderAt Error Entry := fun b o => do
  let extra := if receipted then receiptedLen else 0
  let header := entryHeader + extra
  want b (o + header) "entry"
  let len := (u32At b (o + 233 + extra)).toNat
  malformedIf (len > maxEntryBody) s!"entry body is {len} bytes, limit is {maxEntryBody}"
  want b (o + header + len) "entry"
  pure ({ seq := u64At b o
          kind := byteAt b (o + 8)
          account := keyAt b (o + 9)
          device := keyAt b (o + 41)
          posted := u64At b (o + 73)
          expiresAfter := u32At b (o + 81)
          epoch := u32At b (o + 85)
          msgSeq := u64At b (o + 89)
          chainSeq := u64At b (o + 97)
          prev := keyAt b (o + 105)
          bodyHash := keyAt b (o + 137)
          sig := sigAt b (o + 169)
          stamp := if receipted then some (Receipted.readAt b (o + 233)) else none
          body := slice b (o + header) len }, o + header + len)

namespace Channel

/-- The head and receipt of the last entry, whether or not it is in the batch. -/
structure Tip where
  seq : UInt64
  posted : UInt64
  stamp : Receipted
  deriving DecidableEq

def Tip.write (t : Tip) : Bytes :=
  beBytes 8 t.seq.toNat ++ (beBytes 8 t.posted.toNat ++ t.stamp.write)

def Tip.readAt (b : Bytes) (o : Nat) : Tip where
  seq := u64At b o
  posted := u64At b (o + 8)
  stamp := Receipted.readAt b (o + 16)

structure Signalled where
  account : PubKey
  kind : UInt8
  body : Bytes
  deriving DecidableEq

def Signalled.write (s : Signalled) : Bytes :=
  Bytes32.toBytes s.account ++ ([s.kind] ++ (beBytes 2 s.body.length ++ s.body))

def Signalled.read : ReaderAt Error Signalled := fun b o => do
  want b (o + 35) "signal"
  let len := (u16At b (o + 33)).toNat
  malformedIf (len > maxSignalBody) s!"signal body is {len} bytes, limit is {maxSignalBody}"
  want b (o + 35 + len) "signal"
  pure ({ account := keyAt b o, kind := byteAt b (o + 32), body := slice b (o + 35) len },
    o + 35 + len)

structure Entries where
  now : UInt64
  first : UInt64
  last : UInt64
  entries : List Entry
  signals : List Signalled
  tip : Option Tip
  deriving DecidableEq

namespace Entries

def writeTip (tip : Option Tip) : Bytes := (tip.map Tip.write).getD []

def encode (v : Entries) : Bytes :=
  beBytes 8 v.now.toNat ++ (beBytes 8 v.first.toNat ++ (beBytes 8 v.last.toNat ++
    (beBytes 2 v.entries.length ++ (v.entries.flatMap Entry.writeReceipted ++
    (beBytes 2 v.signals.length ++ (v.signals.flatMap Signalled.write ++
    writeTip v.tip))))))

def readTip (receipted : Bool) : ReaderAt Error (Option Tip) := fun b o =>
  if receipted then do
    want b (o + 16 + receiptedLen) "tip"
    pure (some (Tip.readAt b o), o + 16 + receiptedLen)
  else pure (none, o)

/-- Read one in the shape the caller's request selected. -/
def decode (b : Bytes) (receipted : Bool) : Except Error Entries := do
  want b 26 "entries"
  let count := (u16At b 24).toNat
  malformedIf (count > maxBatch) s!"entries holds {count}, limit is {maxBatch}"
  let (entries, o) ← readMany (Entry.read receipted) count b 26
  want b (o + 2) "entries"
  let count := (u16At b o).toNat
  let o := o + 2
  malformedIf (count > maxSignals) s!"entries carries {count} signals, limit is {maxSignals}"
  let (signals, o) ← readMany Signalled.read count b o
  let (tip, o) ← readTip receipted b o
  malformedIf (o ≠ b.length) s!"entries has {b.length - o} trailing bytes"
  pure { now := u64At b 0, first := u64At b 8, last := u64At b 16, entries, signals, tip }

end Entries

/-- An entry that has a wire form of the shape: its body short enough, and a receipt on it
where the shape has them. -/
def EntryFits (receipted : Bool) (e : Entry) : Prop :=
  e.body.length ≤ maxEntryBody ∧ e.stamp.isSome = receipted

structure Entries.Fits (receipted : Bool) (v : Entries) : Prop where
  batch : v.entries.length ≤ maxBatch
  entries : ∀ e ∈ v.entries, EntryFits receipted e
  count : v.signals.length ≤ maxSignals
  signals : ∀ s ∈ v.signals, s.body.length ≤ maxSignalBody
  tip : v.tip.isSome = receipted

section
variable {b : Bytes} {o : Nat}

theorem receipted_stands {r : Receipted} :
    Stands b o r.write ↔ o + receiptedLen ≤ b.length ∧ Receipted.readAt b o = r := by
  obtain ⟨hash, head, receipt⟩ := r
  rw [Receipted.write, stands_key_append, stands_key_append, stands_sig, receiptedLen,
    Receipted.readAt, Receipted.mk.injEq]
  simp only [Nat.add_assoc, Nat.reduceAdd, and_left_comm]

theorem length_receipted (r : Receipted) : r.write.length = receiptedLen := by
  simp [Receipted.write, receiptedLen]

theorem Tip.stands {t : Tip} :
    Stands b o t.write ↔ o + 16 + receiptedLen ≤ b.length ∧ Tip.readAt b o = t := by
  obtain ⟨seq, posted, stamp⟩ := t
  rw [Tip.write, stands_u64_append, stands_u64_append, receipted_stands, Tip.readAt, Tip.mk.injEq]
  simp only [Nat.add_assoc, Nat.reduceAdd, and_left_comm]

theorem signalled_stands {s : Signalled} (h : s.body.length ≤ maxSignalBody) :
    Stands b o s.write ↔ o + 35 + s.body.length ≤ b.length ∧ keyAt b o = s.account ∧
      byteAt b (o + 32) = s.kind ∧ (u16At b (o + 33)).toNat = s.body.length ∧
      slice b (o + 35) s.body.length = s.body := by
  have hlen : s.body.length < 2 ^ 16 := Nat.lt_of_le_of_lt h (by decide)
  rw [Signalled.write, stands_key_append, stands_byte_append, stands_len16_append hlen,
    stands_iff_slice]
  simp only [Nat.add_assoc, Nat.reduceAdd, and_left_comm]

theorem length_signalled (s : Signalled) : s.write.length = 35 + s.body.length := by
  simp only [Signalled.write, List.length_append, Bytes32.length_toBytes, List.length_singleton,
    beBytes_length]
  omega

theorem signalled_codec :
    Codec Signalled.read Signalled.write fun s => s.body.length ≤ maxSignalBody := by
  intro b o s o' ho
  simp only [Signalled.read, bind_eq_ok, want_eq_ok, malformedIf_eq_ok, pure_eq_ok, Prod.mk.injEq,
    Nat.not_lt, gt_iff_lt]
  constructor
  · rintro ⟨_, hroom, _, hbody, _, hroom', hs, ho'⟩
    have hlen : s.body.length = (u16At b (o + 33)).toNat := by
      rw [← hs, length_slice hroom']
    have hfits : s.body.length ≤ maxSignalBody := hlen ▸ hbody
    refine ⟨⟨(signalled_stands hfits).mpr ?_, ?_⟩, hfits⟩
    · rw [hlen, ← hs]
      exact ⟨hroom', rfl, rfl, rfl, rfl⟩
    · rw [length_signalled, hlen, ← ho']
      omega
  · rintro ⟨⟨hstands, ho'⟩, hfits⟩
    obtain ⟨hroom, haccount, hkind, hlen, hslice⟩ := (signalled_stands hfits).mp hstands
    rw [length_signalled] at ho'
    rw [hlen, hslice, haccount, hkind]
    exact ⟨(), by omega, (), hfits, (), hroom, rfl, by omega⟩

theorem stamp_stands {receipted : Bool} {stamp : Option Receipted} (h : stamp.isSome = receipted) :
    Stands b o ((stamp.map Receipted.write).getD []) ↔
      o + (if receipted then receiptedLen else 0) ≤ b.length ∧
        (if receipted then some (Receipted.readAt b o) else none) = stamp := by
  subst h
  cases stamp with
  | none => simp [stands_nil]
  | some r => simp [receipted_stands]

theorem length_stamp {receipted : Bool} {stamp : Option Receipted} (h : stamp.isSome = receipted) :
    ((stamp.map Receipted.write).getD []).length = if receipted then receiptedLen else 0 := by
  subst h
  cases stamp with
  | none => simp
  | some r => simp [length_receipted]

theorem length_entry {receipted : Bool} {e : Entry} (h : EntryFits receipted e) :
    e.writeReceipted.length =
      entryHeader + (if receipted then receiptedLen else 0) + e.body.length := by
  simp only [Entry.writeReceipted, List.length_append, Bytes32.length_toBytes,
    Bytes64.length_toBytes, List.length_singleton, beBytes_length, length_stamp h.2]
  rw [entryHeader]
  omega

theorem entry_stands {receipted : Bool} {e : Entry} (h : EntryFits receipted e) :
    Stands b o e.writeReceipted ↔ (
      let extra := if receipted then receiptedLen else 0
      o + (entryHeader + extra) + e.body.length ≤ b.length ∧ u64At b o = e.seq ∧
        byteAt b (o + 8) = e.kind ∧ keyAt b (o + 9) = e.account ∧ keyAt b (o + 41) = e.device ∧
        u64At b (o + 73) = e.posted ∧ u32At b (o + 81) = e.expiresAfter ∧
        u32At b (o + 85) = e.epoch ∧ u64At b (o + 89) = e.msgSeq ∧
        u64At b (o + 97) = e.chainSeq ∧ keyAt b (o + 105) = e.prev ∧
        keyAt b (o + 137) = e.bodyHash ∧ sigAt b (o + 169) = e.sig ∧
        (if receipted then some (Receipted.readAt b (o + 233)) else none) = e.stamp ∧
        (u32At b (o + 233 + extra)).toNat = e.body.length ∧
        slice b (o + (entryHeader + extra)) e.body.length = e.body) := by
  have hlen : e.body.length < 2 ^ 32 := Nat.lt_of_le_of_lt h.1 (by decide)
  have hstart : o + 233 + (if receipted then receiptedLen else 0) + 4 =
      o + (entryHeader + if receipted then receiptedLen else 0) := by
    rw [entryHeader]
    omega
  simp only [Entry.writeReceipted, stands_key_append, stands_byte_append, stands_u32_append,
    stands_u64_append, stands_sig_append, stands_field (length_stamp h.2) (stamp_stands h.2),
    stands_len32_append hlen, stands_iff_slice (w := e.body), Nat.add_assoc, Nat.reduceAdd]
  simp only [← Nat.add_assoc, hstart, and_left_comm]

theorem entry_codec (receipted : Bool) :
    Codec (Entry.read receipted) Entry.writeReceipted (EntryFits receipted) := by
  intro b o e o' ho
  simp only [Entry.read, bind_eq_ok, want_eq_ok, malformedIf_eq_ok, pure_eq_ok, Prod.mk.injEq,
    Nat.not_lt, gt_iff_lt]
  constructor
  · rintro ⟨_, hroom, _, hbody, _, hroom', he, ho'⟩
    have hlen := length_slice hroom'
    have hfits : EntryFits receipted e := by
      rw [← hlen] at hbody
      subst he
      exact ⟨hbody, by cases receipted <;> rfl⟩
    refine ⟨⟨(entry_stands hfits).mpr ?_, ?_⟩, hfits⟩
    · rw [← he]
      simp only [hlen, and_true]
      exact hroom'
    · rw [length_entry hfits, ← ho', ← he]
      simp only [hlen]
      omega
  · rintro ⟨⟨hstands, ho'⟩, hfits⟩
    obtain ⟨hroom, h₁, h₂, h₃, h₄, h₅, h₆, h₇, h₈, h₉, h₁₀, h₁₁, h₁₂, hstamp, hlen, hslice⟩ :=
      (entry_stands hfits).mp hstands
    rw [length_entry hfits] at ho'
    refine ⟨(), by omega, (), hlen ▸ hfits.1, (), hlen ▸ hroom, ?_, by omega⟩
    rw [hlen, hslice, h₁, h₂, h₃, h₄, h₅, h₆, h₇, h₈, h₉, h₁₀, h₁₁, h₁₂, hstamp]

theorem length_tip (t : Tip) : t.write.length = 16 + receiptedLen := by
  simp only [Tip.write, List.length_append, beBytes_length, length_receipted]
  omega

namespace Entries

theorem readTip_eq_ok {receipted : Bool} {tip : Option Tip} {o' : Nat} (ho : o ≤ b.length) :
    readTip receipted b o = .ok (tip, o') ↔
      (Stands b o (writeTip tip) ∧ o' = o + (writeTip tip).length) ∧ tip.isSome = receipted := by
  cases receipted with
  | false =>
    simp only [readTip, Bool.false_eq_true, if_false, pure_eq_ok, Prod.mk.injEq]
    cases tip with
    | none => simp [writeTip, stands_nil, ho, eq_comm]
    | some t => simp
  | true =>
    simp only [readTip, if_true, bind_eq_ok, want_eq_ok, pure_eq_ok, Prod.mk.injEq]
    cases tip with
    | none => simp
    | some t =>
      have hwrite : writeTip (some t) = t.write := rfl
      rw [hwrite, Tip.stands, length_tip]
      constructor
      · rintro ⟨_, hroom, ht, ho'⟩
        exact ⟨⟨⟨hroom, Option.some.inj ht⟩, by omega⟩, rfl⟩
      · rintro ⟨⟨⟨hroom, ht⟩, ho'⟩, _⟩
        exact ⟨(), hroom, congrArg some ht, by omega⟩

theorem stands_encode {receipted : Bool} {v : Entries} (h : v.Fits receipted) :
    Stands b 0 v.encode ↔ (
      let o := 26 + (v.entries.flatMap Entry.writeReceipted).length
      let o' := o + 2 + (v.signals.flatMap Signalled.write).length
      u64At b 0 = v.now ∧ u64At b 8 = v.first ∧ u64At b 16 = v.last ∧
        (u16At b 24).toNat = v.entries.length ∧
        Stands b 26 (v.entries.flatMap Entry.writeReceipted) ∧
        (u16At b o).toNat = v.signals.length ∧
        Stands b (o + 2) (v.signals.flatMap Signalled.write) ∧ Stands b o' (writeTip v.tip)) := by
  have hentries : v.entries.length < 2 ^ 16 := Nat.lt_of_le_of_lt h.batch (by decide)
  have hsignals : v.signals.length < 2 ^ 16 := Nat.lt_of_le_of_lt h.count (by decide)
  simp only [encode, stands_u64_append, stands_len16_append hentries, Nat.zero_add, Nat.reduceAdd]
  rw [stands_append, stands_len16_append hsignals, stands_append]

theorem length_encode (v : Entries) : v.encode.length =
    26 + (v.entries.flatMap Entry.writeReceipted).length + 2 +
      (v.signals.flatMap Signalled.write).length + (writeTip v.tip).length := by
  simp only [encode, List.length_append, beBytes_length]
  omega

theorem decode_eq_ok {receipted : Bool} {v : Entries} :
    decode b receipted = .ok v ↔ b = v.encode ∧ v.Fits receipted := by
  rw [← stands_whole, length_encode]
  simp only [decode, bind_eq_ok, want_eq_ok, malformedIf_eq_ok, pure_eq_ok, Prod.exists,
    Nat.not_lt, gt_iff_lt, ne_eq, Decidable.not_not]
  constructor
  · rintro ⟨_, hroom, _, hbatch, entries, o, hentries, _, hroom', _, hcount, signals, o', hsignals,
      tip, o'', htip, _, hend, hv⟩
    obtain ⟨⟨hstands, rfl⟩, hlen, hfits⟩ := ((entry_codec receipted).many_eq_ok hroom).mp hentries
    obtain ⟨⟨hstands', rfl⟩, hlen', hfits'⟩ := (signalled_codec.many_eq_ok hroom').mp hsignals
    obtain ⟨⟨hstands'', rfl⟩, hsome⟩ := (readTip_eq_ok hstands'.length).mp htip
    have hv' : v.Fits receipted := by
      subst hv
      exact ⟨hlen ▸ hbatch, hfits, hlen' ▸ hcount, hfits', hsome⟩
    subst hv
    exact ⟨⟨(stands_encode hv').mpr ⟨rfl, rfl, rfl, hlen.symm, hstands, hlen'.symm, hstands',
      hstands''⟩, hend⟩, hv'⟩
  · rintro ⟨⟨hstands, hlen⟩, hfits⟩
    obtain ⟨hnow, hfirst, hlast, hbatch, hentries, hcount, hsignals, htip⟩ :=
      (stands_encode hfits).mp hstands
    have hread := ((entry_codec receipted).many_eq_ok hentries.1).mpr
      ⟨⟨hentries, rfl⟩, hbatch.symm, hfits.entries⟩
    have hread' := (signalled_codec.many_eq_ok hsignals.1).mpr
      ⟨⟨hsignals, rfl⟩, hcount.symm, hfits.signals⟩
    have hread'' := (readTip_eq_ok hsignals.length).mpr ⟨⟨htip, rfl⟩, hfits.tip⟩
    refine ⟨(), hentries.1, (), hbatch ▸ hfits.batch, _, _, hread, (), hsignals.1, (),
      hcount ▸ hfits.count, _, _, hread', _, _, hread'', (), hlen, ?_⟩
    rw [hnow, hfirst, hlast]

/-- An answer of either shape is read back in that shape as it was written, and whatever
reads as one is written as the bytes it was read from. -/
theorem entries_round_trip :
    (∀ receipted, ∀ v : Entries, v.Fits receipted → decode v.encode receipted = .ok v) ∧
    ∀ b receipted v, decode b receipted = .ok v → v.encode = b ∧ v.Fits receipted := by
  refine ⟨fun receipted v h => decode_eq_ok.mpr ⟨rfl, h⟩, fun b receipted v h => ?_⟩
  obtain ⟨rfl, hfits⟩ := decode_eq_ok.mp h
  exact ⟨rfl, hfits⟩

def receipted : Entries where
  now := 9
  first := 3
  last := 3
  entries := [⟨3, kindMember, 1, 2, 8, 0, 1, 0, 0, 0, 5, 6, some ⟨7, 8, 9⟩, [104, 105]⟩]
  signals := [⟨1, 1, []⟩]
  tip := some ⟨3, 8, ⟨7, 8, 9⟩⟩

theorem entries_round_trip_receipted : decode receipted.encode true = .ok receipted :=
  entries_round_trip.1 true receipted
    { batch := by decide
      entries := fun e he => by
        rw [List.mem_singleton.mp he]
        exact ⟨by decide, rfl⟩
      count := by decide
      signals := fun s hs => by
        rw [List.mem_singleton.mp hs]
        decide
      tip := rfl }

end Entries

end
end Channel
end Sqex
