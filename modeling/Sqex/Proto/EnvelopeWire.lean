import Sqex.Proto.CreateWire

/-! Envelopes of a channel's key, as they are read from a put and from the answer to a get:
how many epochs one spans, how long that makes it, and where it ends. -/
namespace Sqex.ChannelKey
open Offsets Channel

def typePut : UInt8 := 0x01
def maxEnvelopes : Nat := 128
def maxRange : UInt32 := 1024
/-- Bytes an envelope occupies beside its ciphertext. -/
def envelopeHeader : Nat := 32 + 32 + 64 + 4 + 4 + 4 + 32 + 4

/-- Why a read came to nothing: the bytes are refused, or a sum ran past what its type
holds, where the build checks for that. -/
inductive Stop where
  | refused (error : Error)
  | overflow
  deriving DecidableEq

section
variable (checked withRecipient : Bool) (b : Bytes) (o : Nat)

def refusedIf (c : Prop) [Decidable c] (text : String) : Except Stop Unit :=
  if c then .error (.refused (.malformed text)) else .ok ()

/-- `n + 1` in 32 bits: past the last number a checked build stops, and one that is not
goes round to nothing. -/
def plusOne (n : UInt32) : Except Stop UInt32 :=
  if checked ∧ n = 0xffffffff then .error .overflow else .ok (n + 1)

structure Envelope where
  recipient : PubKey
  publisher : PubKey
  sig : Bytes64
  fromEpoch : UInt32
  toEpoch : UInt32
  prekeyId : UInt32
  ephemeral : Bytes32
  ciphertext : Bytes
  deriving DecidableEq

def headLen : Nat :=
  if withRecipient then envelopeHeader else envelopeHeader - 32

def readEnvelope : ReaderAt Stop Envelope := fun b o => do
  let head := headLen withRecipient
  refusedIf (b.length < o + head) "envelope is truncated"
  let recipient : PubKey := if withRecipient then keyAt b o else 0
  let start := if withRecipient then o + 32 else o
  let publisher := keyAt b start
  let sig := sigAt b (start + 32)
  let start := start + 96
  let fromEpoch := u32At b start
  let toEpoch := u32At b (start + 4)
  let prekeyId := u32At b (start + 8)
  let ephemeral := keyAt b (start + 12)
  let len := (u32At b (start + 44)).toNat
  refusedIf (toEpoch < fromEpoch) s!"envelope spans epochs {fromEpoch}..={toEpoch}"
  let epochs ← plusOne checked (toEpoch - fromEpoch)
  refusedIf (epochs > maxRange) s!"envelope spans epochs {fromEpoch}..={toEpoch}"
  let epochs ← plusOne checked (toEpoch - fromEpoch)
  let want := 16 + 32 * epochs.toNat
  refusedIf (len ≠ want) s!"envelope ciphertext is {len} bytes, want {want} for its range"
  refusedIf (b.length < start + 48 + len) "envelope ciphertext is truncated"
  pure ({ recipient, publisher, sig, fromEpoch, toEpoch, prekeyId, ephemeral,
          ciphertext := slice b (start + 48) len }, start + 48 + len)

/-- Publish envelopes of an epoch's key, and perhaps the rotation that makes the epoch. -/
structure Put where
  channel : Bytes32
  epoch : UInt32
  envelopes : List Envelope
  action : Option Action
  deriving DecidableEq

def readRotation : ReaderAt Stop (Option Action) := fun b o =>
  match byteAt b o with
  | 0 => .ok (none, o + 1)
  | 1 => do
    refusedIf (b.length < o + 1 + actionLen) "put claims a rotation and is short"
    pure (some (Action.read b (o + 1)), o + 1 + actionLen)
  | other => .error (.refused (.malformed s!"put rotation flag is {other}, want 0 or 1"))

def Put.decode : Except Stop Put := do
  refusedIf (b.length < 39) s!"put is {b.length} bytes, want at least 39"
  refusedIf (byteAt b 0 ≠ typePut) s!"not a put (type {hex (byteAt b 0)})"
  let count := (u16At b 37).toNat
  refusedIf (count > maxEnvelopes) s!"put carries {count} envelopes, limit is {maxEnvelopes}"
  let (envelopes, o) ← readMany (readEnvelope checked true) count b 39
  refusedIf (o ≥ b.length) "put carries no rotation flag"
  let (action, o) ← readRotation b o
  refusedIf (o ≠ b.length) s!"put has {b.length - o} trailing bytes"
  pure { channel := keyAt b 1, epoch := u32At b 33, envelopes, action }

structure Got where
  now : UInt64
  envelopes : List Envelope
  deriving DecidableEq

def Got.decode : Except Stop Got := do
  refusedIf (b.length < 10) s!"got is {b.length} bytes, want at least 10"
  let count := (u16At b 8).toNat
  refusedIf (count > maxEnvelopes) s!"got carries {count} envelopes, limit is {maxEnvelopes}"
  let (envelopes, o) ← readMany (readEnvelope checked false) count b 10
  refusedIf (o ≠ b.length) s!"got has {b.length - o} trailing bytes"
  pure { now := u64At b 0, envelopes }

/-! What is asked of an envelope that was read, and which headers it fails at. -/

/-- The epochs in order and no more than an envelope may span, and 32 bytes of ciphertext
for each beside a tag. -/
structure Envelope.Sized (e : Envelope) : Prop where
  ordered : e.fromEpoch ≤ e.toEpoch
  range : e.toEpoch.toNat - e.fromEpoch.toNat + 1 ≤ maxRange.toNat
  length : e.ciphertext.length = 16 + 32 * (e.toEpoch.toNat - e.fromEpoch.toNat + 1)

def Envelope.wireLen (e : Envelope) : Nat :=
  headLen withRecipient + e.ciphertext.length

/-- A read that runs past no number and takes only what is sized, to its end and no further. -/
def ReadsWell : Prop :=
  readEnvelope true withRecipient b o ≠ .error .overflow ∧
    ∀ checked e o', readEnvelope checked withRecipient b o = .ok (e, o') →
      e.Sized ∧ o' = o + e.wireLen withRecipient ∧ o' ≤ b.length

def fromAt : UInt32 :=
  u32At b (o + (headLen withRecipient - 48))

def toAt : UInt32 :=
  u32At b (o + (headLen withRecipient - 44))

def lenAt : Nat :=
  (u32At b (o + (headLen withRecipient - 4))).toNat

structure EveryEpoch : Prop where
  whole : o + headLen withRecipient ≤ b.length
  first : fromAt withRecipient b o = 0
  last : toAt withRecipient b o = 0xffffffff

/-- A whole envelope stands at an offset, sized as one has to be, with `n` bytes of ciphertext. -/
structure Framed (n : Nat) : Prop where
  ordered : ¬ toAt withRecipient b o < fromAt withRecipient b o
  range : (toAt withRecipient b o).toNat - (fromAt withRecipient b o).toNat + 1 ≤ maxRange.toNat
  length : n = 16 + 32 *
    ((toAt withRecipient b o).toNat - (fromAt withRecipient b o).toNat + 1)
  stated : lenAt withRecipient b o = n
  room : o + headLen withRecipient + n ≤ b.length

/-- Among so many envelopes, laid end to end from an offset, a header that names every epoch
comes before anything that is not an envelope. -/
def Reaches (withRecipient : Bool) (b : Bytes) : Nat → Nat → Prop
  | 0, _ => False
  | n + 1, o => EveryEpoch withRecipient b o ∨
    (Framed withRecipient b o (lenAt withRecipient b o) ∧
      Reaches withRecipient b n (o + headLen withRecipient + lenAt withRecipient b o))

structure Put.Reaches (b : Bytes) : Prop where
  head : 39 ≤ b.length
  type : byteAt b 0 = typePut
  count : (u16At b 37).toNat ≤ maxEnvelopes
  reaches : ChannelKey.Reaches true b (u16At b 37).toNat 39

structure Got.Reaches (b : Bytes) : Prop where
  head : 10 ≤ b.length
  count : (u16At b 8).toNat ≤ maxEnvelopes
  reaches : ChannelKey.Reaches false b (u16At b 8).toNat 10

def wireLens (es : List Envelope) : Nat :=
  (es.map (Envelope.wireLen withRecipient)).sum

/-- A put is read without running past a number, and one that is taken is sized envelopes and
a rotation or none, to its last byte. -/
def Put.DecodesWell : Prop :=
  Put.decode true b ≠ .error .overflow ∧
    ∀ checked p, Put.decode checked b = .ok p → (∀ e ∈ p.envelopes, e.Sized) ∧
      39 + wireLens true p.envelopes + (1 + if p.action.isSome then actionLen else 0) = b.length

def Got.DecodesWell : Prop :=
  Got.decode true b ≠ .error .overflow ∧
    ∀ checked g, Got.decode checked b = .ok g → (∀ e ∈ g.envelopes, e.Sized) ∧
      10 + wireLens false g.envelopes = b.length

end

section
variable {checked withRecipient : Bool} {b : Bytes} {o o' : Nat} {e : Envelope}

@[simp] theorem refusedIf_eq_ok {c : Prop} [Decidable c] {text : String} {u : Unit} :
    refusedIf c text = .ok u ↔ ¬ c := by
  unfold refusedIf
  split <;> simp [*]

@[simp] theorem refusedIf_ne_overflow {c : Prop} [Decidable c] {text : String} :
    refusedIf c text ≠ .error .overflow := by
  unfold refusedIf
  split <;> simp

@[simp] theorem pure_ne_overflow {α : Type} (a : α) :
    (pure a : Except Stop α) ≠ .error .overflow := by
  simp [pure, Except.pure]

theorem bind_eq_overflow {α β : Type} {x : Except Stop α} {f : α → Except Stop β} :
    (x >>= f) = .error .overflow ↔
      x = .error .overflow ∨ ∃ a, x = .ok a ∧ f a = .error .overflow := by
  cases x <;> simp [bind, Except.bind]

theorem plusOne_eq_ok {n m : UInt32} :
    plusOne checked n = .ok m ↔ ¬ (checked = true ∧ n = 0xffffffff) ∧ n + 1 = m := by
  unfold plusOne
  split <;> simp [*]

theorem plusOne_eq_overflow {n : UInt32} :
    plusOne checked n = .error .overflow ↔ checked = true ∧ n = 0xffffffff := by
  unfold plusOne
  split <;> simp [*]

/-- The range is as long as the type holds only from the first number to the last. -/
theorem sub_eq_last {first last : UInt32} (h : ¬ last < first) :
    last - first = 0xffffffff ↔ first = 0 ∧ last = 0xffffffff := by
  have hle : first ≤ last := UInt32.not_lt.mp h
  have hlast := last.toNat_lt
  rw [← UInt32.toNat_inj, ← UInt32.toNat_inj, ← UInt32.toNat_inj, UInt32.toNat_sub_of_le _ _ hle]
  have hmost : (0xffffffff : UInt32).toNat = 2 ^ 32 - 1 := rfl
  have hzero : (0 : UInt32).toNat = 0 := rfl
  rw [hmost, hzero]
  omega

theorem toNat_range {first last : UInt32} (h : ¬ last < first) (hlast : last - first ≠ 0xffffffff) :
    (last - first + 1).toNat = last.toNat - first.toNat + 1 := by
  have hle : first ≤ last := UInt32.not_lt.mp h
  have hlt := (last - first).toNat_lt
  have hne : (last - first).toNat ≠ 2 ^ 32 - 1 := fun heq => hlast (UInt32.toNat_inj.mp heq)
  have hone : (1 : UInt32).toNat = 1 := rfl
  rw [UInt32.toNat_add, hone, Nat.mod_eq_of_lt (by omega), UInt32.toNat_sub_of_le _ _ hle]

def envelopeAt (withRecipient : Bool) (b : Bytes) (o : Nat) : Envelope where
  recipient := if withRecipient then keyAt b o else 0
  publisher := keyAt b (o + (headLen withRecipient - 144))
  sig := sigAt b (o + (headLen withRecipient - 112))
  fromEpoch := fromAt withRecipient b o
  toEpoch := toAt withRecipient b o
  prekeyId := u32At b (o + (headLen withRecipient - 40))
  ephemeral := keyAt b (o + (headLen withRecipient - 36))
  ciphertext := slice b (o + headLen withRecipient) (lenAt withRecipient b o)

theorem readEnvelope_steps : readEnvelope checked withRecipient b o = (do
    let (first, last) := (fromAt withRecipient b o, toAt withRecipient b o)
    let len := lenAt withRecipient b o
    refusedIf (b.length < o + headLen withRecipient) "envelope is truncated"
    refusedIf (last < first) s!"envelope spans epochs {first}..={last}"
    let epochs ← plusOne checked (last - first)
    refusedIf (epochs > maxRange) s!"envelope spans epochs {first}..={last}"
    let epochs ← plusOne checked (last - first)
    let want := 16 + 32 * epochs.toNat
    refusedIf (len ≠ want) s!"envelope ciphertext is {len} bytes, want {want} for its range"
    refusedIf (b.length < o + headLen withRecipient + len) "envelope ciphertext is truncated"
    pure (envelopeAt withRecipient b o, o + headLen withRecipient + len)) := by
  cases withRecipient <;> rfl

theorem read_eq_overflow : readEnvelope checked withRecipient b o = .error .overflow ↔
    checked = true ∧ EveryEpoch withRecipient b o := by
  simp only [readEnvelope_steps, bind_eq_overflow, refusedIf_ne_overflow, false_or,
    refusedIf_eq_ok, plusOne_eq_overflow, plusOne_eq_ok]
  constructor
  · intro ⟨_, hwhole, _, hordered, hstop⟩
    have hlast : checked = true ∧
        toAt withRecipient b o - fromAt withRecipient b o = 0xffffffff := by
      obtain hlast | ⟨_, ⟨hgone, _⟩, _, _, hlast | ⟨_, _, _, _, _, _, hpure⟩⟩ := hstop
      · exact hlast
      · exact absurd hlast hgone
      · cases hpure
    obtain ⟨hfirst, hlast'⟩ := (sub_eq_last hordered).mp hlast.2
    exact ⟨hlast.1, Nat.not_lt.mp hwhole, hfirst, hlast'⟩
  · intro ⟨hchecked, hwhole, hfirst, hlast⟩
    have hordered : ¬ toAt withRecipient b o < fromAt withRecipient b o := by
      rw [hfirst, hlast]
      decide
    exact ⟨(), Nat.not_lt.mpr hwhole, (), hordered,
      .inl ⟨hchecked, (sub_eq_last hordered).mpr ⟨hfirst, hlast⟩⟩⟩

theorem read_eq_ok (h : ¬ EveryEpoch withRecipient b o) :
    readEnvelope checked withRecipient b o = .ok (e, o') ↔
      Framed withRecipient b o (lenAt withRecipient b o) ∧ envelopeAt withRecipient b o = e ∧
        o + headLen withRecipient + lenAt withRecipient b o = o' := by
  simp only [readEnvelope_steps, bind_eq_ok, refusedIf_eq_ok, plusOne_eq_ok, pure_eq_ok,
    Prod.mk.injEq]
  have hrange (hwhole : ¬ b.length < o + headLen withRecipient)
      (hordered : ¬ toAt withRecipient b o < fromAt withRecipient b o) :
      toAt withRecipient b o - fromAt withRecipient b o ≠ 0xffffffff := fun heq =>
    have hnames := (sub_eq_last hordered).mp heq
    h ⟨Nat.not_lt.mp hwhole, hnames.1, hnames.2⟩
  constructor
  · rintro ⟨_, hwhole, _, hordered, _, ⟨-, rfl⟩, _, hepochs, _, ⟨-, rfl⟩, _, hlen, _, hroom, he,
      ho'⟩
    have hnum := toNat_range hordered (hrange hwhole hordered)
    rw [gt_iff_lt, UInt32.not_lt, UInt32.le_iff_toNat_le, hnum] at hepochs
    rw [ne_eq, Decidable.not_not, hnum] at hlen
    exact ⟨⟨hordered, hepochs, hlen, rfl, Nat.not_lt.mp hroom⟩, he, ho'⟩
  · rintro ⟨hframed, he, ho'⟩
    have hwhole : ¬ b.length < o + headLen withRecipient := by
      have := hframed.room
      omega
    have hlast := hrange hwhole hframed.ordered
    have hnum := toNat_range hframed.ordered hlast
    refine ⟨(), hwhole, (), hframed.ordered, _, ⟨fun hstop => hlast hstop.2, rfl⟩, (), ?_, _,
      ⟨fun hstop => hlast hstop.2, rfl⟩, (), ?_, (), Nat.not_lt.mpr hframed.room, he, ho'⟩
    · rw [gt_iff_lt, UInt32.not_lt, UInt32.le_iff_toNat_le, hnum]
      exact hframed.range
    · rw [ne_eq, Decidable.not_not, hnum]
      exact hframed.length

theorem Framed.sized (h : Framed withRecipient b o (lenAt withRecipient b o)) :
    (envelopeAt withRecipient b o).Sized ∧
      (envelopeAt withRecipient b o).ciphertext.length = lenAt withRecipient b o := by
  have hlen : (envelopeAt withRecipient b o).ciphertext.length = lenAt withRecipient b o :=
    length_slice h.room
  exact ⟨⟨UInt32.not_lt.mp h.ordered, h.range, hlen.trans h.length⟩, hlen⟩

theorem read_sized (h : ¬ EveryEpoch withRecipient b o)
    (hread : readEnvelope checked withRecipient b o = .ok (e, o')) :
    e.Sized ∧ o' = o + e.wireLen withRecipient ∧ o' ≤ b.length := by
  obtain ⟨hframed, rfl, rfl⟩ := (read_eq_ok h).mp hread
  obtain ⟨hsized, hlen⟩ := hframed.sized
  refine ⟨hsized, ?_, hframed.room⟩
  rw [Envelope.wireLen, hlen]
  omega

theorem reads_well_iff : ReadsWell withRecipient b o ↔ ¬ EveryEpoch withRecipient b o := by
  constructor
  · intro hwell hevery
    exact hwell.1 (read_eq_overflow.mpr ⟨rfl, hevery⟩)
  · intro h
    exact ⟨fun hstop => h (read_eq_overflow.mp hstop).2, fun _ _ _ => read_sized h⟩

theorem readMany_eq_overflow {n : Nat} :
    readMany (readEnvelope checked withRecipient) n b o = .error .overflow ↔
      checked = true ∧ Reaches withRecipient b n o := by
  induction n generalizing o with
  | zero => simp [readMany, Reaches, pure, Except.pure]
  | succ n ih =>
    simp only [readMany, bind_eq_overflow, read_eq_overflow, Prod.exists, ih, pure_ne_overflow,
      and_false, exists_false, or_false, Reaches]
    by_cases hevery : EveryEpoch withRecipient b o
    · simp only [hevery, true_or, and_true]
      constructor
      · rintro (hchecked | ⟨_, _, _, hchecked, _⟩) <;> exact hchecked
      · exact .inl
    · simp only [hevery, read_eq_ok hevery, and_false, false_or]
      constructor
      · rintro ⟨_, _, ⟨hframed, rfl, rfl⟩, hchecked, hreaches⟩
        exact ⟨hchecked, hframed, hreaches⟩
      · rintro ⟨hchecked, hframed, hreaches⟩
        exact ⟨_, _, ⟨hframed, rfl, rfl⟩, hchecked, hreaches⟩

theorem readMany_sized {n : Nat} {es : List Envelope} (h : ¬ Reaches withRecipient b n o)
    (ho : o ≤ b.length)
    (hread : readMany (readEnvelope checked withRecipient) n b o = .ok (es, o')) :
    (∀ e ∈ es, e.Sized) ∧ o' = o + wireLens withRecipient es ∧ o' ≤ b.length := by
  induction n generalizing o es with
  | zero =>
    simp only [readMany, pure_eq_ok, Prod.mk.injEq] at hread
    obtain ⟨rfl, rfl⟩ := hread
    simpa [wireLens] using ho
  | succ n ih =>
    simp only [Reaches, not_or] at h
    simp only [readMany, bind_eq_ok, Prod.exists, pure_eq_ok, Prod.mk.injEq] at hread
    obtain ⟨e, mid, he, rest, last, hrest, rfl, rfl⟩ := hread
    obtain ⟨hsized, hmid, hle⟩ := read_sized h.1 he
    have hframed := (read_eq_ok h.1).mp he
    have hnot : ¬ Reaches withRecipient b n mid := by
      rw [← hframed.2.2]
      exact fun hreaches => h.2 ⟨hframed.1, hreaches⟩
    obtain ⟨hall, hend, hroom⟩ := ih hnot hle hrest
    refine ⟨List.forall_mem_cons.mpr ⟨hsized, hall⟩, ?_, hroom⟩
    rw [hend, hmid, wireLens, wireLens, List.map_cons, List.sum_cons]
    omega

theorem readRotation_ne_overflow : readRotation b o ≠ .error .overflow := by
  unfold readRotation
  split
  · simp
  · simp only [ne_eq, bind_eq_overflow, refusedIf_ne_overflow, pure_ne_overflow, and_false,
      exists_false, or_false, not_false_eq_true]
  · simp

theorem readRotation_length {action : Option Action} (h : readRotation b o = .ok (action, o')) :
    o' = o + (1 + if action.isSome then actionLen else 0) := by
  unfold readRotation at h
  split at h
  · simp only [Except.ok.injEq, Prod.mk.injEq] at h
    obtain ⟨rfl, rfl⟩ := h
    rfl
  · simp only [bind_eq_ok, pure_eq_ok, Prod.mk.injEq] at h
    obtain ⟨_, -, rfl, rfl⟩ := h
    simp only [Option.isSome_some, if_true]
    omega
  · simp at h

theorem Put.decode_eq_overflow :
    Put.decode checked b = .error .overflow ↔ checked = true ∧ Put.Reaches b := by
  simp only [Put.decode, bind_eq_overflow, refusedIf_ne_overflow, refusedIf_eq_ok, false_or,
    readMany_eq_overflow, readRotation_ne_overflow, pure_ne_overflow, and_false, exists_false,
    or_false]
  constructor
  · intro ⟨_, hhead, _, htype, _, hcount, hchecked, hreaches⟩
    exact ⟨hchecked, by omega, by simpa using htype, by omega, hreaches⟩
  · intro ⟨hchecked, h⟩
    have hhead := h.head
    have hcount := h.count
    exact ⟨(), by omega, (), by simpa using h.type, (), by omega, hchecked, h.reaches⟩

theorem Put.decode_sized {p : Put} (h : ¬ Put.Reaches b) (hread : Put.decode checked b = .ok p) :
    (∀ e ∈ p.envelopes, e.Sized) ∧
      39 + wireLens true p.envelopes + (1 + if p.action.isSome then actionLen else 0) =
        b.length := by
  simp only [Put.decode, bind_eq_ok, refusedIf_eq_ok, pure_eq_ok, Prod.exists] at hread
  obtain ⟨_, hhead, _, htype, _, hcount, es, o, hes, _, _, action, last, haction, _, hend, rfl⟩ :=
    hread
  have hnot : ¬ ChannelKey.Reaches true b (u16At b 37).toNat 39 := fun hreaches =>
    h ⟨by omega, by simpa using htype, by omega, hreaches⟩
  obtain ⟨hsized, ho, -⟩ := readMany_sized hnot (by omega) hes
  have hlast := readRotation_length haction
  exact ⟨hsized, by simp only; omega⟩

theorem Got.decode_eq_overflow :
    Got.decode checked b = .error .overflow ↔ checked = true ∧ Got.Reaches b := by
  simp only [Got.decode, bind_eq_overflow, refusedIf_ne_overflow, refusedIf_eq_ok, false_or,
    readMany_eq_overflow, pure_ne_overflow, and_false, exists_false, or_false]
  constructor
  · intro ⟨_, hhead, _, hcount, hchecked, hreaches⟩
    exact ⟨hchecked, by omega, by omega, hreaches⟩
  · intro ⟨hchecked, h⟩
    have hhead := h.head
    have hcount := h.count
    exact ⟨(), by omega, (), by omega, hchecked, h.reaches⟩

theorem Got.decode_sized {g : Got} (h : ¬ Got.Reaches b) (hread : Got.decode checked b = .ok g) :
    (∀ e ∈ g.envelopes, e.Sized) ∧ 10 + wireLens false g.envelopes = b.length := by
  simp only [Got.decode, bind_eq_ok, refusedIf_eq_ok, pure_eq_ok, Prod.exists] at hread
  obtain ⟨_, hhead, _, hcount, es, o, hes, _, hend, rfl⟩ := hread
  have hnot : ¬ ChannelKey.Reaches false b (u16At b 8).toNat 10 := fun hreaches =>
    h ⟨by omega, by omega, hreaches⟩
  obtain ⟨hsized, ho, -⟩ := readMany_sized hnot (by omega) hes
  exact ⟨hsized, by simp only; omega⟩

theorem Put.decodes_well_iff : Put.DecodesWell b ↔ ¬ Put.Reaches b := by
  constructor
  · intro hwell hreaches
    exact hwell.1 (Put.decode_eq_overflow.mpr ⟨rfl, hreaches⟩)
  · intro h
    exact ⟨fun hstop => h (Put.decode_eq_overflow.mp hstop).2, fun _ _ => Put.decode_sized h⟩

theorem Got.decodes_well_iff : Got.DecodesWell b ↔ ¬ Got.Reaches b := by
  constructor
  · intro hwell hreaches
    exact hwell.1 (Got.decode_eq_overflow.mpr ⟨rfl, hreaches⟩)
  · intro h
    exact ⟨fun hstop => h (Got.decode_eq_overflow.mp hstop).2, fun _ _ => Got.decode_sized h⟩

end

/-- An envelope is read without running past a number, and taken only where it is sized and
ends where its length says, in every read but one that comes to a header naming every epoch
there is. -/
theorem envelopes_sized (withRecipient : Bool) (b : Bytes) (o : Nat) :
    (ReadsWell withRecipient b o ↔ ¬ EveryEpoch withRecipient b o) ∧
    (Put.DecodesWell b ↔ ¬ Put.Reaches b) ∧ (Got.DecodesWell b ↔ ¬ Got.Reaches b) :=
  ⟨reads_well_iff, Put.decodes_well_iff, Got.decodes_well_iff⟩

/-- A put of one envelope for every epoch from the first to the last, with a tag for a
ciphertext. -/
def everyEpoch : Bytes :=
  typePut :: (List.replicate 36 0 ++ [0, 1] ++ List.replicate 128 0 ++ List.replicate 4 0 ++
    List.replicate 4 0xff ++ List.replicate 36 0 ++ [0, 0, 0, 16] ++ List.replicate 16 0 ++ [0])

/-- A build that checks its sums stops at it, and one that does not takes it. -/
theorem every_epoch_taken :
    Put.decode true everyEpoch = .error .overflow ∧
    (∃ p, Put.decode false everyEpoch = .ok p ∧ ∃ e ∈ p.envelopes, ¬ e.Sized) ∧
    ¬ Put.DecodesWell everyEpoch := by
  have hstop : Put.decode true everyEpoch = .error .overflow := by decide +kernel
  let e : Envelope := ⟨0, 0, 0, 0, 0xffffffff, 0, 0, List.replicate 16 0⟩
  have htaken : Put.decode false everyEpoch = .ok ⟨0, 0, [e], none⟩ := by decide +kernel
  refine ⟨hstop, ⟨_, htaken, e, by simp, fun hsized => ?_⟩, fun hwell => hwell.1 hstop⟩
  exact absurd hsized.range (by decide)

end Sqex.ChannelKey
