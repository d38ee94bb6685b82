import Sqex.Chat.Sync
import Sqex.Proto.EntriesWire

/-! What two devices of one account say to each other, as it is written: eleven kinds, the lists
behind a count of two bytes. -/
namespace Sqex.Chat.Sync
open Offsets

def typeHello : UInt8 := 0x01
def typeHave : UInt8 := 0x02
def typeWant : UInt8 := 0x03
def typeEntries : UInt8 := 0x04
def typeKeys : UInt8 := 0x05
def typeBlob : UInt8 := 0x06
def typeDone : UInt8 := 0x07
def typeKey : UInt8 := 0x08
def typeEarlier : UInt8 := 0x09
def typeWantEarlier : UInt8 := 0x0a
def typeKeysOf : UInt8 := 0x0b

def there (b : Bytes) (o n : Nat) : Except Error Unit := notShort b o n "sync message"

@[simp] theorem there_eq_ok {b : Bytes} {o n : Nat} {u : Unit} :
    there b o n = .ok u ↔ o + n ≤ b.length := notShort_eq_ok

/-! Rows of one width, behind their count. -/

section Rows
variable {α : Type}

def readRow (width : Nat) (readAt : Bytes → Nat → α) : ReaderAt Error α := fun b o => do
  there b o width
  pure (readAt b o, o + width)

def readRows (width : Nat) (readAt : Bytes → Nat → α) : ReaderAt Error (List α) := fun b o => do
  there b o 2
  readMany (readRow width readAt) (u16At b o).toNat b (o + 2)

def writeRows (write : α → Bytes) (xs : List α) : Bytes :=
  beBytes 2 xs.length ++ xs.flatMap write

variable {width : Nat} {readAt : Bytes → Nat → α} {write : α → Bytes} {Fits : α → Prop}

theorem readRow_codec (hwidth : ∀ x, (write x).length = width)
    (hread : ∀ b o x, o + width ≤ b.length ∧ readAt b o = x ↔ Stands b o (write x) ∧ Fits x) :
    Codec (readRow width readAt) write Fits := by
  intro b o x o' ho
  simp only [readRow, bind_eq_ok, there_eq_ok, pure_eq_ok, Prod.mk.injEq, hwidth]
  constructor
  · rintro ⟨-, hroom, hx, rfl⟩
    obtain ⟨hstands, hfits⟩ := (hread b o x).mp ⟨hroom, hx⟩
    exact ⟨⟨hstands, rfl⟩, hfits⟩
  · rintro ⟨⟨hstands, rfl⟩, hfits⟩
    obtain ⟨hroom, hx⟩ := (hread b o x).mpr ⟨hstands, hfits⟩
    exact ⟨(), hroom, hx, rfl⟩

theorem readRows_codec (hwidth : ∀ x, (write x).length = width)
    (hread : ∀ b o x, o + width ≤ b.length ∧ readAt b o = x ↔ Stands b o (write x) ∧ Fits x) :
    Codec (readRows width readAt) (writeRows write)
      fun xs => xs.length < 2 ^ 16 ∧ ∀ x ∈ xs, Fits x := by
  intro b o xs o' ho
  have hrow := readRow_codec hwidth hread
  have hlt := (u16At b o).toNat_lt
  simp only [readRows, bind_eq_ok, there_eq_ok]
  rw [writeRows, stands_append, List.length_append, beBytes_length]
  constructor
  · rintro ⟨-, hroom, hrows⟩
    obtain ⟨⟨hstands, rfl⟩, hcount, hfits⟩ := (hrow.many_eq_ok hroom).mp hrows
    have hfew : xs.length < 2 ^ 16 := by omega
    rw [stands_len16 hfew]
    exact ⟨⟨⟨⟨hroom, hcount.symm⟩, hstands⟩, by omega⟩, hfew, hfits⟩
  · rintro ⟨⟨⟨hcount, hstands⟩, rfl⟩, hfew, hfits⟩
    rw [stands_len16 hfew] at hcount
    exact ⟨(), hcount.1, (hrow.many_eq_ok hcount.1).mpr
      ⟨⟨hstands, by omega⟩, hcount.2.symm, hfits⟩⟩

theorem length_writeRows (hwidth : ∀ x, (write x).length = width) (xs : List α) :
    (writeRows write xs).length = 2 + xs.length * width := by
  rw [writeRows, List.length_append, beBytes_length, length_flatMap hwidth]

end Rows

def writeHeld (h : Held) : Bytes :=
  Bytes32.toBytes h.channel ++ (Bytes32.toBytes h.inst ++ (beBytes 8 h.first.toNat ++
    (beBytes 8 h.last.toNat ++ beBytes 2 h.epochs.toNat)))

def heldAt (b : Bytes) (o : Nat) : Held where
  channel := keyAt b o
  inst := keyAt b (o + 32)
  first := u64At b (o + 64)
  last := u64At b (o + 72)
  epochs := u16At b (o + 80)

def writeWant (w : Bytes32 × UInt64) : Bytes := Bytes32.toBytes w.1 ++ beBytes 8 w.2.toNat
def wantAt (b : Bytes) (o : Nat) : Bytes32 × UInt64 := (keyAt b o, u64At b (o + 32))

def writeKey (k : UInt32 × Bytes32) : Bytes := beBytes 4 k.1.toNat ++ Bytes32.toBytes k.2
def epochKeyAt (b : Bytes) (o : Nat) : UInt32 × Bytes32 := (u32At b o, keyAt b (o + 4))

def writeGeneration (g : Generation) : Bytes :=
  Bytes32.toBytes g.channel ++ (Bytes32.toBytes g.inst ++ (Bytes32.toBytes g.origin ++
    (beBytes 8 g.first.toNat ++ (beBytes 8 g.last.toNat ++ beBytes 2 g.epochs.toNat))))

/-- Its number is local to the side that keeps it, and never travels. -/
def generationAt (b : Bytes) (o : Nat) : Generation where
  channel := keyAt b o
  inst := keyAt b (o + 32)
  origin := keyAt b (o + 64)
  first := u64At b (o + 96)
  last := u64At b (o + 104)
  epochs := u16At b (o + 112)
  generation := 0

def writeWantEarlier (w : Bytes32 × Bytes32 × UInt64) : Bytes :=
  Bytes32.toBytes w.1 ++ (Bytes32.toBytes w.2.1 ++ beBytes 8 w.2.2.toNat)

def wantEarlierAt (b : Bytes) (o : Nat) : Bytes32 × Bytes32 × UInt64 :=
  (keyAt b o, keyAt b (o + 32), u64At b (o + 64))

section
variable {b : Bytes} {o : Nat}

theorem length_writeHeld (h : Held) : (writeHeld h).length = 82 := by
  simp [writeHeld, beBytes_length]

theorem stands_held (b : Bytes) (o : Nat) (h : Held) :
    o + 82 ≤ b.length ∧ heldAt b o = h ↔ Stands b o (writeHeld h) ∧ True := by
  obtain ⟨channel, inst, first, last, epochs⟩ := h
  rw [and_true, writeHeld, stands_key_append, stands_key_append, stands_u64_append,
    stands_u64_append, stands_u16, heldAt, Held.mk.injEq]
  simp only [Nat.add_assoc, Nat.reduceAdd, and_left_comm]

theorem length_writeWant (w : Bytes32 × UInt64) : (writeWant w).length = 40 := by
  simp [writeWant, beBytes_length]

theorem stands_want (b : Bytes) (o : Nat) (w : Bytes32 × UInt64) :
    o + 40 ≤ b.length ∧ wantAt b o = w ↔ Stands b o (writeWant w) ∧ True := by
  rw [and_true, writeWant, stands_key_append, stands_u64, wantAt, Prod.mk.injEq]
  exact and_left_comm

theorem length_writeKey (k : UInt32 × Bytes32) : (writeKey k).length = 36 := by
  simp [writeKey, beBytes_length]

theorem stands_epochKey (b : Bytes) (o : Nat) (k : UInt32 × Bytes32) :
    o + 36 ≤ b.length ∧ epochKeyAt b o = k ↔ Stands b o (writeKey k) ∧ True := by
  rw [and_true, writeKey, stands_u32_append, stands_key, Nat.add_assoc, epochKeyAt, Prod.mk.injEq]
  exact and_left_comm

theorem length_writeGeneration (g : Generation) : (writeGeneration g).length = 114 := by
  simp [writeGeneration, beBytes_length]

theorem stands_generation (b : Bytes) (o : Nat) (g : Generation) :
    o + 114 ≤ b.length ∧ generationAt b o = g ↔
      Stands b o (writeGeneration g) ∧ g.generation = 0 := by
  obtain ⟨channel, inst, origin, first, last, epochs, number⟩ := g
  rw [writeGeneration, stands_key_append, stands_key_append, stands_key_append, stands_u64_append,
    stands_u64_append, stands_u16, generationAt, Generation.mk.injEq]
  simp only [Nat.add_assoc, Nat.reduceAdd, and_left_comm, and_assoc, @eq_comm UInt64 0]

theorem length_writeWantEarlier (w : Bytes32 × Bytes32 × UInt64) :
    (writeWantEarlier w).length = 72 := by
  simp [writeWantEarlier, beBytes_length]

theorem stands_wantEarlier (b : Bytes) (o : Nat) (w : Bytes32 × Bytes32 × UInt64) :
    o + 72 ≤ b.length ∧ wantEarlierAt b o = w ↔ Stands b o (writeWantEarlier w) ∧ True := by
  obtain ⟨channel, inst, since⟩ := w
  rw [and_true, writeWantEarlier, stands_key_append, stands_key_append, stands_u64, wantEarlierAt,
    Prod.mk.injEq, Prod.mk.injEq]
  simp only [Nat.add_assoc, Nat.reduceAdd, and_left_comm]

end

namespace Message

def kind : Message → UInt8
  | .hello _ _ => typeHello
  | .have' _ => typeHave
  | .want _ => typeWant
  | .entries _ _ _ => typeEntries
  | .keys _ _ => typeKeys
  | .blob _ _ _ _ => typeBlob
  | .done => typeDone
  | .key _ => typeKey
  | .earlier _ => typeEarlier
  | .wantEarlier _ => typeWantEarlier
  | .keysOf _ _ _ => typeKeysOf

def payload : Message → Bytes
  | .hello account credential => Bytes32.toBytes account ++ Credential.optionBytes credential
  | .have' held => writeRows writeHeld held
  | .want wants => writeRows writeWant wants
  | .entries channel inst es =>
    Bytes32.toBytes channel ++ (Bytes32.toBytes inst ++ (beBytes 2 es.length ++
      es.flatMap Entry.writeReceipted))
  | .keys channel ks => Bytes32.toBytes channel ++ writeRows writeKey ks
  | .blob id chunk of bytes =>
    Bytes32.toBytes id ++ (beBytes 4 chunk.toNat ++ (beBytes 4 of.toNat ++ bytes))
  | .done => []
  | .key seed => Bytes32.toBytes seed
  | .earlier rows => writeRows writeGeneration rows
  | .wantEarlier wants => writeRows writeWantEarlier wants
  | .keysOf channel inst ks =>
    Bytes32.toBytes channel ++ (Bytes32.toBytes inst ++ writeRows writeKey ks)

section
variable (m : Message) (b : Bytes)

def encode : Bytes := [m.kind] ++ m.payload

def readHello : Except Error (Message × Nat) := do
  there b 1 32
  let credential ← Credential.decodeOption (b.drop 33)
  pure (.hello (keyAt b 1) credential, b.length)

def readHave : Except Error (Message × Nat) := do
  let (held, o) ← readRows 82 heldAt b 1
  pure (.have' held, o)

def readWant : Except Error (Message × Nat) := do
  let (wants, o) ← readRows 40 wantAt b 1
  pure (.want wants, o)

def readEntries : Except Error (Message × Nat) := do
  there b 1 32
  there b 33 32
  there b 65 2
  let count := (u16At b 65).toNat
  malformedIf (count > pageSize) s!"{count} entries in one page"
  let (es, o) ← readMany (Entry.read true) count b 67
  pure (.entries (keyAt b 1) (keyAt b 33) es, o)

def readKeys : Except Error (Message × Nat) := do
  there b 1 32
  let (ks, o) ← readRows 36 epochKeyAt b 33
  pure (.keys (keyAt b 1) ks, o)

def readBlob : Except Error (Message × Nat) := do
  there b 1 32
  there b 33 4
  there b 37 4
  pure (.blob (keyAt b 1) (u32At b 33) (u32At b 37) (b.drop 41), b.length)

def readKey : Except Error (Message × Nat) := do
  there b 1 32
  pure (.key (keyAt b 1), 33)

def readEarlier : Except Error (Message × Nat) := do
  let (rows, o) ← readRows 114 generationAt b 1
  pure (.earlier rows, o)

def readWantEarlier : Except Error (Message × Nat) := do
  let (wants, o) ← readRows 72 wantEarlierAt b 1
  pure (.wantEarlier wants, o)

def readKeysOf : Except Error (Message × Nat) := do
  there b 1 32
  there b 33 32
  let (ks, o) ← readRows 36 epochKeyAt b 65
  pure (.keysOf (keyAt b 1) (keyAt b 33) ks, o)

def readPayload (kind : UInt8) (b : Bytes) : Except Error (Message × Nat) :=
  if kind = typeHello then readHello b
  else if kind = typeHave then readHave b
  else if kind = typeWant then readWant b
  else if kind = typeEntries then readEntries b
  else if kind = typeKeys then readKeys b
  else if kind = typeBlob then readBlob b
  else if kind = typeDone then pure (.done, 1)
  else if kind = typeKey then readKey b
  else if kind = typeEarlier then readEarlier b
  else if kind = typeWantEarlier then readWantEarlier b
  else if kind = typeKeysOf then readKeysOf b
  else .error (.malformed s!"unknown sync message {hex kind}")

def decode : Except Error Message := do
  there b 0 1
  let (message, o) ← readPayload (byteAt b 0) b
  malformedIf (o ≠ b.length) s!"sync message has {b.length - o} trailing bytes"
  pure message

def counts : Message → List Nat
  | .have' held => [held.length]
  | .want wants => [wants.length]
  | .entries _ _ es => [es.length]
  | .keys _ ks | .keysOf _ _ ks => [ks.length]
  | .earlier rows => [rows.length]
  | .wantEarlier wants => [wants.length]
  | .hello _ _ | .blob _ _ _ _ | .done | .key _ => []

def PageFits : Message → Prop
  | .entries _ _ es => es.length ≤ pageSize
  | _ => True

/-- What the values inside a message are wherever they come from: a credential's scope is no
longer than one may be, and an entry has its receipt and a body no longer than one may be. -/
def PartsFit : Message → Prop
  | .hello _ credential => Credential.OptionFits credential
  | .entries _ _ es => ∀ e ∈ es, Channel.EntryFits true e
  | _ => True

/-- A message as it arrives: a generation's number is local to the side that keeps it. -/
def sent : Message → Message
  | .earlier rows => .earlier (rows.map fun g => { g with generation := 0 })
  | m => m

theorem encode_sent : m.sent.encode = m.encode := by
  cases m with
  | earlier rows =>
    have hrows : (rows.map fun g => ({ g with generation := 0 } : Generation)).flatMap
        writeGeneration = rows.flatMap writeGeneration := by
      rw [List.flatMap_map]
      rfl
    simp only [encode, sent, kind, payload, writeRows, List.length_map, hrows]
  | _ => rfl

theorem sent_sent : m.sent.sent = m.sent := by
  cases m with
  | earlier rows => simp [sent]
  | _ => rfl

theorem counts_sent : m.sent.counts = m.counts := by
  cases m with
  | earlier rows => simp [sent, counts]
  | _ => rfl

end

theorem pageFits_sent {m : Message} : m.sent.PageFits ↔ m.PageFits := by
  cases m <;> rfl

theorem partsFit_sent {m : Message} : m.sent.PartsFit ↔ m.PartsFit := by
  cases m <;> rfl

section
variable {b : Bytes} {m : Message} {α : Type} {read : ReaderAt Error (List α)}
  {write : List α → Bytes} {Fits : α → Prop}

/-- A message that stands in some bytes behind its kind, to their end, and can be read. -/
structure Behind (b : Bytes) (m : Message) : Prop where
  stands : Stands b 1 m.payload
  whole : b.length = 1 + m.payload.length
  counts : ∀ n ∈ m.counts, n < 2 ^ 16
  page : m.PageFits
  parts : m.PartsFit
  arrived : m.sent = m

theorem list_eq_ok {f : List α → Message}
    (hcodec : Codec read write fun xs => xs.length < 2 ^ 16 ∧ ∀ x ∈ xs, Fits x)
    (hpayload : ∀ xs, (f xs).payload = write xs) (hcounts : ∀ xs, (f xs).counts = [xs.length])
    (hfits : ∀ xs, (f xs).PageFits ∧ (f xs).PartsFit ∧ (f xs).sent = f xs ↔ ∀ x ∈ xs, Fits x)
    (hb : 1 ≤ b.length) :
    (do let (xs, o) ← read b 1; pure (f xs, o)) =
      (.ok (m, b.length) : Except Error (Message × Nat)) ↔
      ∃ xs, f xs = m ∧ Behind b (f xs) := by
  simp only [bind_eq_ok, pure_eq_ok, Prod.exists, Prod.mk.injEq]
  constructor
  · rintro ⟨xs, o, hread, hm, rfl⟩
    obtain ⟨⟨hstands, hwhole⟩, hfew, hrows⟩ := (hcodec b 1 xs _ hb).mp hread
    obtain ⟨hpage, hparts, harrived⟩ := (hfits xs).mpr hrows
    refine ⟨xs, hm, ?_, ?_, ?_, hpage, hparts, harrived⟩
    · rwa [hpayload]
    · rwa [hpayload]
    · rw [hcounts]
      simpa using hfew
  · rintro ⟨xs, hm, hbehind⟩
    have hstands := hbehind.stands
    have hwhole := hbehind.whole
    have hcount := hbehind.counts
    rw [hpayload] at hstands hwhole
    rw [hcounts] at hcount
    refine ⟨xs, b.length, (hcodec b 1 xs _ hb).mpr ⟨⟨hstands, hwhole⟩, hcount _ (.head _), ?_⟩,
      hm, rfl⟩
    exact (hfits xs).mp ⟨hbehind.page, hbehind.parts, hbehind.arrived⟩

theorem readHello_eq_ok :
    readHello b = .ok (m, b.length) ↔ ∃ account credential, .hello account credential = m ∧
      Behind b (.hello account credential) := by
  simp only [readHello, bind_eq_ok, there_eq_ok, pure_eq_ok, Prod.mk.injEq, and_true,
    Credential.decodeOption_eq_ok]
  have hstands : ∀ account credential, Stands b 1 (payload (.hello account credential)) ∧
      b.length = 1 + (payload (.hello account credential)).length ↔
      33 ≤ b.length ∧ keyAt b 1 = account ∧ b.drop 33 = Credential.optionBytes credential := by
    intro account credential
    rw [payload, stands_key_append, List.length_append, Bytes32.length_toBytes, ← Nat.add_assoc,
      and_assoc, stands_rest]
    exact and_left_comm
  constructor
  · rintro ⟨-, hlen, credential, ⟨hcredential, hfits⟩, rfl⟩
    obtain ⟨hfront, hwhole⟩ := (hstands _ _).mpr ⟨hlen, rfl, hcredential⟩
    exact ⟨_, credential, rfl, hfront, hwhole, by simp [Message.counts], trivial, hfits, rfl⟩
  · rintro ⟨account, credential, rfl, hbehind⟩
    obtain ⟨hlen, rfl, hcredential⟩ := (hstands _ _).mp ⟨hbehind.stands, hbehind.whole⟩
    exact ⟨(), hlen, credential, ⟨hcredential, hbehind.parts⟩, rfl⟩

theorem readHave_eq_ok (hb : 1 ≤ b.length) : readHave b = .ok (m, b.length) ↔
    ∃ held, .have' held = m ∧ Behind b (.have' held) :=
  list_eq_ok (readRows_codec length_writeHeld stands_held) (fun _ => rfl) (fun _ => rfl)
    (fun _ => iff_of_true ⟨trivial, trivial, rfl⟩ fun _ _ => trivial) hb

theorem readWant_eq_ok (hb : 1 ≤ b.length) : readWant b = .ok (m, b.length) ↔
    ∃ wants, .want wants = m ∧ Behind b (.want wants) :=
  list_eq_ok (readRows_codec length_writeWant stands_want) (fun _ => rfl) (fun _ => rfl)
    (fun _ => iff_of_true ⟨trivial, trivial, rfl⟩ fun _ _ => trivial) hb

theorem readWantEarlier_eq_ok (hb : 1 ≤ b.length) : readWantEarlier b = .ok (m, b.length) ↔
    ∃ wants, .wantEarlier wants = m ∧ Behind b (.wantEarlier wants) :=
  list_eq_ok (readRows_codec length_writeWantEarlier stands_wantEarlier) (fun _ => rfl)
    (fun _ => rfl) (fun _ => iff_of_true ⟨trivial, trivial, rfl⟩ fun _ _ => trivial) hb

theorem sent_earlier {rows : List Generation} :
    sent (.earlier rows) = .earlier rows ↔ ∀ g ∈ rows, g.generation = 0 := by
  rw [sent, Message.earlier.injEq]
  induction rows with
  | nil => simp
  | cons g rows ih =>
    have hg : ({ g with generation := 0 } : Generation) = g ↔ g.generation = 0 := by
      cases g
      simp [eq_comm]
    rw [List.map_cons, List.cons.injEq, List.forall_mem_cons, ih, hg]

theorem readEarlier_eq_ok (hb : 1 ≤ b.length) : readEarlier b = .ok (m, b.length) ↔
    ∃ rows, .earlier rows = m ∧ Behind b (.earlier rows) := by
  refine list_eq_ok (readRows_codec length_writeGeneration stands_generation) (fun _ => rfl)
    (fun _ => rfl) (fun rows => ?_) hb
  rw [← sent_earlier]
  exact ⟨fun h => h.2.2, fun h => ⟨trivial, trivial, h⟩⟩

theorem readKeys_eq_ok : readKeys b = .ok (m, b.length) ↔
    ∃ channel ks, .keys channel ks = m ∧ Behind b (.keys channel ks) := by
  have hcodec := readRows_codec length_writeKey stands_epochKey b 33
  have hpayload : ∀ channel ks, (payload (.keys channel ks)).length =
      32 + (writeRows writeKey ks).length := by
    simp [payload]
  simp only [readKeys, bind_eq_ok, there_eq_ok, pure_eq_ok, Prod.exists, Prod.mk.injEq]
  constructor
  · rintro ⟨-, hroom, ks, o, hread, hm, rfl⟩
    obtain ⟨⟨hstands, hwhole⟩, hfew, -⟩ := (hcodec ks _ hroom).mp hread
    exact ⟨_, ks, hm, stands_key_append.mpr ⟨rfl, hstands⟩, by rw [hpayload]; omega,
      by simpa [Message.counts] using hfew, trivial, trivial, rfl⟩
  · rintro ⟨channel, ks, rfl, hbehind⟩
    have hwhole := hbehind.whole
    rw [hpayload] at hwhole
    obtain ⟨rfl, hks⟩ := stands_key_append.mp hbehind.stands
    exact ⟨(), hks.1, ks, b.length, (hcodec ks _ hks.1).mpr ⟨⟨hks, by omega⟩,
      hbehind.counts _ (.head _), fun _ _ => trivial⟩, rfl, rfl⟩

theorem readKeysOf_eq_ok : readKeysOf b = .ok (m, b.length) ↔
    ∃ channel inst ks, .keysOf channel inst ks = m ∧ Behind b (.keysOf channel inst ks) := by
  have hcodec := readRows_codec length_writeKey stands_epochKey b 65
  have hpayload : ∀ channel inst ks, (payload (.keysOf channel inst ks)).length =
      64 + (writeRows writeKey ks).length := by
    simp [payload, ← Nat.add_assoc]
  simp only [readKeysOf, bind_eq_ok, there_eq_ok, pure_eq_ok, Prod.exists, Prod.mk.injEq]
  constructor
  · rintro ⟨-, -, -, hroom, ks, o, hread, hm, rfl⟩
    obtain ⟨⟨hstands, hwhole⟩, hfew, -⟩ := (hcodec ks _ hroom).mp hread
    exact ⟨_, _, ks, hm, stands_key_append.mpr ⟨rfl, stands_key_append.mpr ⟨rfl, hstands⟩⟩,
      by rw [hpayload]; omega, by simpa [Message.counts] using hfew, trivial, trivial, rfl⟩
  · rintro ⟨channel, inst, ks, rfl, hbehind⟩
    have hwhole := hbehind.whole
    have hstands := hbehind.stands
    rw [hpayload] at hwhole
    rw [payload, stands_key_append, stands_key_append] at hstands
    obtain ⟨rfl, rfl, hks⟩ := hstands
    exact ⟨(), by omega, (), hks.1, ks, b.length, (hcodec ks _ hks.1).mpr ⟨⟨hks, by omega⟩,
      hbehind.counts _ (.head _), fun _ _ => trivial⟩, rfl, rfl⟩

theorem readKey_eq_ok : readKey b = .ok (m, b.length) ↔
    ∃ seed, .key seed = m ∧ Behind b (.key seed) := by
  simp only [readKey, bind_eq_ok, there_eq_ok, pure_eq_ok, Prod.mk.injEq]
  constructor
  · rintro ⟨-, hroom, hm, hwhole⟩
    refine ⟨_, hm, ?_, ?_, by simp [Message.counts], trivial, trivial, rfl⟩
    · rw [payload, stands_key]
      exact ⟨hroom, rfl⟩
    · rw [payload, Bytes32.length_toBytes, ← hwhole]
  · rintro ⟨seed, rfl, hbehind⟩
    have hstands := hbehind.stands
    have hwhole := hbehind.whole
    rw [payload, stands_key] at hstands
    rw [payload, Bytes32.length_toBytes] at hwhole
    exact ⟨(), hstands.1, by rw [hstands.2], hwhole.symm⟩

theorem readBlob_eq_ok : readBlob b = .ok (m, b.length) ↔
    ∃ id chunk of bytes, .blob id chunk of bytes = m ∧ Behind b (.blob id chunk of bytes) := by
  have hstands : ∀ id chunk of bytes, Stands b 1 (payload (.blob id chunk of bytes)) ∧
      b.length = 1 + (payload (.blob id chunk of bytes)).length ↔ keyAt b 1 = id ∧
        u32At b 33 = chunk ∧ u32At b 37 = of ∧ 41 ≤ b.length ∧ b.drop 41 = bytes := by
    intro id chunk of bytes
    rw [payload, stands_key_append, stands_u32_append, stands_u32_append, ← stands_rest]
    simp only [List.length_append, Bytes32.length_toBytes, beBytes_length, ← Nat.add_assoc,
      and_assoc, Nat.reduceAdd]
  simp only [readBlob, bind_eq_ok, there_eq_ok, pure_eq_ok, Prod.mk.injEq, and_true]
  constructor
  · rintro ⟨-, -, -, -, -, hroom, hm⟩
    obtain ⟨hfront, hwhole⟩ := (hstands _ _ _ _).mpr ⟨rfl, rfl, rfl, hroom, rfl⟩
    exact ⟨_, _, _, _, hm, hfront, hwhole, by simp [Message.counts], trivial, trivial, rfl⟩
  · rintro ⟨id, chunk, of, bytes, rfl, hbehind⟩
    obtain ⟨rfl, rfl, rfl, hroom, rfl⟩ := (hstands _ _ _ _).mp ⟨hbehind.stands, hbehind.whole⟩
    exact ⟨(), by omega, (), by omega, (), hroom, rfl⟩

theorem readEntries_eq_ok : readEntries b = .ok (m, b.length) ↔
    ∃ channel inst es, .entries channel inst es = m ∧ Behind b (.entries channel inst es) := by
  have hcodec := Channel.entry_codec true
  have hpage : pageSize = 256 := rfl
  have hpayload : ∀ channel inst es, (payload (.entries channel inst es)).length =
      66 + (es.flatMap Entry.writeReceipted).length := by
    simp [payload, beBytes_length, ← Nat.add_assoc]
  simp only [readEntries, bind_eq_ok, there_eq_ok, malformedIf_eq_ok, pure_eq_ok, Prod.exists,
    Prod.mk.injEq, Nat.not_lt, gt_iff_lt]
  constructor
  · rintro ⟨-, -, -, -, -, hroom, -, hcap, es, o, hread, hm, rfl⟩
    obtain ⟨⟨hstands, hwhole⟩, hcount, hfits⟩ := (hcodec.many_eq_ok hroom).mp hread
    have hfew : es.length < 2 ^ 16 := by omega
    refine ⟨_, _, es, hm, ?_, by rw [hpayload]; omega, by simpa [Message.counts] using hfew,
      hcount.trans_le hcap, hfits, rfl⟩
    rw [payload, stands_key_append, stands_key_append, stands_len16_append hfew]
    exact ⟨rfl, rfl, hcount.symm, hstands⟩
  · rintro ⟨channel, inst, es, rfl, hbehind⟩
    have hwhole := hbehind.whole
    have hstands := hbehind.stands
    rw [hpayload] at hwhole
    rw [payload, stands_key_append, stands_key_append,
      stands_len16_append (hbehind.counts _ (.head _))] at hstands
    obtain ⟨rfl, rfl, hcount, hes⟩ := hstands
    have hroom := hes.1
    exact ⟨(), by omega, (), by omega, (), hroom, (), hcount ▸ hbehind.page, es, b.length,
      (hcodec.many_eq_ok hroom).mpr ⟨⟨hes, by omega⟩, hcount.symm, hbehind.parts⟩, rfl, rfl⟩

theorem readPayload_eq_ok {kind : UInt8} (hb : 1 ≤ b.length) :
    readPayload kind b = .ok (m, b.length) ↔ m.kind = kind ∧ Behind b m := by
  constructor
  · intro h
    unfold readPayload at h
    obtain ⟨hkind, h⟩ | ⟨-, h⟩ := ite_eq_iff.mp h
    · obtain ⟨_, _, rfl, hbehind⟩ := readHello_eq_ok.mp h
      exact ⟨hkind.symm, hbehind⟩
    obtain ⟨hkind, h⟩ | ⟨-, h⟩ := ite_eq_iff.mp h
    · obtain ⟨_, rfl, hbehind⟩ := (readHave_eq_ok hb).mp h
      exact ⟨hkind.symm, hbehind⟩
    obtain ⟨hkind, h⟩ | ⟨-, h⟩ := ite_eq_iff.mp h
    · obtain ⟨_, rfl, hbehind⟩ := (readWant_eq_ok hb).mp h
      exact ⟨hkind.symm, hbehind⟩
    obtain ⟨hkind, h⟩ | ⟨-, h⟩ := ite_eq_iff.mp h
    · obtain ⟨_, _, _, rfl, hbehind⟩ := readEntries_eq_ok.mp h
      exact ⟨hkind.symm, hbehind⟩
    obtain ⟨hkind, h⟩ | ⟨-, h⟩ := ite_eq_iff.mp h
    · obtain ⟨_, _, rfl, hbehind⟩ := readKeys_eq_ok.mp h
      exact ⟨hkind.symm, hbehind⟩
    obtain ⟨hkind, h⟩ | ⟨-, h⟩ := ite_eq_iff.mp h
    · obtain ⟨_, _, _, _, rfl, hbehind⟩ := readBlob_eq_ok.mp h
      exact ⟨hkind.symm, hbehind⟩
    obtain ⟨hkind, h⟩ | ⟨-, h⟩ := ite_eq_iff.mp h
    · simp only [pure_eq_ok, Prod.mk.injEq] at h
      obtain ⟨rfl, hwhole⟩ := h
      exact ⟨hkind.symm, stands_nil.mpr hb, hwhole.symm, by simp [Message.counts], trivial, trivial,
        rfl⟩
    obtain ⟨hkind, h⟩ | ⟨-, h⟩ := ite_eq_iff.mp h
    · obtain ⟨_, rfl, hbehind⟩ := readKey_eq_ok.mp h
      exact ⟨hkind.symm, hbehind⟩
    obtain ⟨hkind, h⟩ | ⟨-, h⟩ := ite_eq_iff.mp h
    · obtain ⟨_, rfl, hbehind⟩ := (readEarlier_eq_ok hb).mp h
      exact ⟨hkind.symm, hbehind⟩
    obtain ⟨hkind, h⟩ | ⟨-, h⟩ := ite_eq_iff.mp h
    · obtain ⟨_, rfl, hbehind⟩ := (readWantEarlier_eq_ok hb).mp h
      exact ⟨hkind.symm, hbehind⟩
    obtain ⟨hkind, h⟩ | ⟨-, h⟩ := ite_eq_iff.mp h
    · obtain ⟨_, _, _, rfl, hbehind⟩ := readKeysOf_eq_ok.mp h
      exact ⟨hkind.symm, hbehind⟩
    cases h
  · rintro ⟨rfl, hbehind⟩
    cases m with
    | hello account credential => exact readHello_eq_ok.mpr ⟨_, _, rfl, hbehind⟩
    | have' held => exact (readHave_eq_ok hb).mpr ⟨_, rfl, hbehind⟩
    | want wants => exact (readWant_eq_ok hb).mpr ⟨_, rfl, hbehind⟩
    | entries channel inst es => exact readEntries_eq_ok.mpr ⟨_, _, _, rfl, hbehind⟩
    | keys channel ks => exact readKeys_eq_ok.mpr ⟨_, _, rfl, hbehind⟩
    | blob id chunk of bytes => exact readBlob_eq_ok.mpr ⟨_, _, _, _, rfl, hbehind⟩
    | done =>
      have hwhole := hbehind.whole
      exact congrArg (fun n => Except.ok (Message.done, n)) hwhole.symm
    | key seed => exact readKey_eq_ok.mpr ⟨_, rfl, hbehind⟩
    | earlier rows => exact (readEarlier_eq_ok hb).mpr ⟨_, rfl, hbehind⟩
    | wantEarlier wants => exact (readWantEarlier_eq_ok hb).mpr ⟨_, rfl, hbehind⟩
    | keysOf channel inst ks => exact readKeysOf_eq_ok.mpr ⟨_, _, _, rfl, hbehind⟩

/-- What is read is a message that counts its lists in two bytes, holds a page at most and
values that can be read, as it is written. -/
theorem decode_eq_ok : decode b = .ok m ↔ b = m.encode ∧ (∀ n ∈ m.counts, n < 2 ^ 16) ∧
    m.PageFits ∧ m.PartsFit ∧ m.sent = m := by
  simp only [decode, bind_eq_ok, there_eq_ok, malformedIf_eq_ok, pure_eq_ok, Prod.exists, ne_eq,
    Decidable.not_not, Nat.zero_add]
  rw [← stands_whole, encode, stands_append, stands_byte, List.length_append,
    List.length_singleton, Nat.zero_add]
  constructor
  · rintro ⟨-, hb, m, o, hread, -, rfl, rfl⟩
    obtain ⟨hkind, hbehind⟩ := (readPayload_eq_ok hb).mp hread
    exact ⟨⟨⟨⟨hb, hkind.symm⟩, hbehind.stands⟩, hbehind.whole.symm⟩, hbehind.counts, hbehind.page,
      hbehind.parts, hbehind.arrived⟩
  · rintro ⟨⟨⟨⟨hb, hkind⟩, hstands⟩, hwhole⟩, hcounts, hpage, hparts, harrived⟩
    exact ⟨(), hb, m, b.length, (readPayload_eq_ok hb).mpr ⟨hkind.symm, hstands, hwhole.symm,
      hcounts, hpage, hparts, harrived⟩, (), rfl, rfl⟩

/-- A message arrives as it was sent just when its parts can be read, where its counts are in two
bytes and it holds a page at most. -/
theorem decode_encode_iff (hcounts : ∀ n ∈ m.counts, n < 2 ^ 16) (hpage : m.PageFits) :
    decode m.encode = .ok m.sent ↔ m.PartsFit := by
  rw [← encode_sent, decode_eq_ok, counts_sent, pageFits_sent, partsFit_sent]
  exact ⟨fun h => h.2.2.2.1, fun h => ⟨rfl, hcounts, hpage, h, sent_sent m⟩⟩

end
end Message
end Sqex.Chat.Sync
