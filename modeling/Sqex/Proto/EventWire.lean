import Sqex.Lib.Frames
import Sqex.Lib.Runs
import Sqex.Proto.Fields

/-! Events as an exchange writes them to a stream, and as a client reads them off one: framed, cut
anywhere on the way, put together by a task of its own and drained when the client looks. -/
namespace Sqex.EventWire
open Offsets Frames Runs

def maxFrame : Nat := 1024
def lengthPrefix : Nat := 4

def kindChannel : UInt8 := 0x01
def kindSignal : UInt8 := 0x02
def kindCursor : UInt8 := 0x03
def kindMembership : UInt8 := 0x04
def kindProfile : UInt8 := 0x05
def kindAdmission : UInt8 := 0x06
def kindHeartbeat : UInt8 := 0x07
def kindResync : UInt8 := 0x08
def kindRinging : UInt8 := 0x09
def kindCrosscall : UInt8 := 0x0a
def kindReported : UInt8 := 0x0b
def kindSibling : UInt8 := 0x0c

/-- The kinds this version knows. -/
def kinds : List UInt8 :=
  [kindChannel, kindSignal, kindCursor, kindMembership, kindProfile, kindAdmission, kindHeartbeat,
   kindResync, kindRinging, kindCrosscall, kindReported, kindSibling]

inductive Event where
  | channel (channel : Bytes32) (lastSeq : UInt64)
  | signal (channel : Bytes32)
  | cursor (channel : Bytes32)
  | membership (channel : Bytes32) (account : PubKey) (what : UInt8)
  | profile (account : PubKey)
  | admission
  | heartbeat
  | resync
  | ringing (channel : Bytes32) (seq : UInt64)
  | crossCall (bridge : BitVec 128) (caller : PubKey)
  | reported (channel : Bytes32)
  | sibling (device : PubKey)
  | unknown (kind : UInt8)
  deriving DecidableEq

def one (kind : UInt8) (key : Bytes32) : Bytes := kind :: Bytes32.toBytes key

namespace Event

def kind : Event → UInt8
  | .channel .. => kindChannel
  | .signal .. => kindSignal
  | .cursor .. => kindCursor
  | .membership .. => kindMembership
  | .profile .. => kindProfile
  | .admission => kindAdmission
  | .heartbeat => kindHeartbeat
  | .resync => kindResync
  | .ringing .. => kindRinging
  | .crossCall .. => kindCrosscall
  | .reported .. => kindReported
  | .sibling .. => kindSibling
  | .unknown k => k

def encode : Event → Bytes
  | .channel c lastSeq => kindChannel :: (Bytes32.toBytes c ++ beBytes 8 lastSeq.toNat)
  | .ringing c seq => kindRinging :: (Bytes32.toBytes c ++ beBytes 8 seq.toNat)
  | .signal c => one kindSignal c
  | .cursor c => one kindCursor c
  | .membership c account what =>
    kindMembership :: (Bytes32.toBytes c ++ (Bytes32.toBytes account ++ [what]))
  | .crossCall bridge caller =>
    kindCrosscall :: (beBytes 16 bridge.toNat ++ Bytes32.toBytes caller)
  | .profile account => one kindProfile account
  | .reported c => one kindReported c
  | .sibling device => one kindSibling device
  | .admission => [kindAdmission]
  | .heartbeat => [kindHeartbeat]
  | .resync => [kindResync]
  | .unknown k => [k]

def wantBody (kind : UInt8) (body : Bytes) (n : Nat) : Except Error Unit :=
  malformedIf (body.length ≠ n) s!"event {hex kind} is {body.length} bytes, want {n}"

@[simp] theorem wantBody_eq_ok {kind : UInt8} {body : Bytes} {n : Nat} {u : Unit} :
    wantBody kind body n = .ok u ↔ body.length = n := by
  rw [wantBody, malformedIf_eq_ok, not_not]

/-- A kind that is not known is carried and not refused; one that is, at the wrong length, is
refused and not carried. -/
def decode : Bytes → Except Error Event
  | [] => .error (.malformed "empty event frame")
  | kind :: body =>
    let want := wantBody kind body
    if kind = kindChannel then do
      want 40
      pure (.channel (keyAt body 0) (u64At body 32))
    else if kind = kindRinging then do
      want 40
      pure (.ringing (keyAt body 0) (u64At body 32))
    else if kind = kindSignal then do
      want 32
      pure (.signal (keyAt body 0))
    else if kind = kindCursor then do
      want 32
      pure (.cursor (keyAt body 0))
    else if kind = kindMembership then do
      want 65
      pure (.membership (keyAt body 0) (keyAt body 32) (byteAt body 64))
    else if kind = kindCrosscall then do
      want 48
      pure (.crossCall (BitVec.ofNat 128 (natAt body 0 16)) (keyAt body 16))
    else if kind = kindSibling then do
      want 32
      pure (.sibling (keyAt body 0))
    else if kind = kindProfile then do
      want 32
      pure (.profile (keyAt body 0))
    else if kind = kindReported then do
      want 32
      pure (.reported (keyAt body 0))
    else if kind = kindAdmission then do
      want 0
      pure .admission
    else if kind = kindHeartbeat then do
      want 0
      pure .heartbeat
    else if kind = kindResync then do
      want 0
      pure .resync
    else pure (.unknown kind)

/-- The event with its length in front. -/
def frame (e : Event) : Bytes := beBytes lengthPrefix e.encode.length ++ e.encode

/-- An event of a kind this version knows, or of one it does not. -/
def Named : Event → Prop
  | .unknown k => k ∉ kinds
  | _ => True

/-- What an event is read from: what it is written as, and whatever follows a kind not known. -/
def Spelt (b : Bytes) : Event → Prop
  | .unknown k => k ∉ kinds ∧ b.head? = some k
  | e => b = e.encode

section
variable {body : Bytes}

theorem eq_key {k : Bytes32} :
    body = Bytes32.toBytes k ↔ body.length = 32 ∧ keyAt body 0 = k := by
  rw [← stands_whole, stands_key, Bytes32.length_toBytes, and_comm, eq_comm]
  exact and_congr_right fun hlen => by simp [hlen]

theorem eq_counted {k : Bytes32} {n : UInt64} : body = Bytes32.toBytes k ++ beBytes 8 n.toNat ↔
    body.length = 40 ∧ keyAt body 0 = k ∧ u64At body 32 = n := by
  rw [← stands_whole, stands_key_append, stands_u64, List.length_append, Bytes32.length_toBytes,
    beBytes_length, and_comm, eq_comm]
  exact and_congr_right fun hlen => by simp [hlen]

theorem eq_member {k account : Bytes32} {what : UInt8} :
    body = Bytes32.toBytes k ++ (Bytes32.toBytes account ++ [what]) ↔ body.length = 65 ∧
      keyAt body 0 = k ∧ keyAt body 32 = account ∧ byteAt body 64 = what := by
  rw [← stands_whole, stands_key_append, stands_key_append, stands_byte, List.length_append,
    List.length_append, Bytes32.length_toBytes, Bytes32.length_toBytes, and_comm, eq_comm]
  exact and_congr_right fun hlen => by simp [hlen]

theorem eq_bridged {bridge : BitVec 128} {caller : Bytes32} :
    body = beBytes 16 bridge.toNat ++ Bytes32.toBytes caller ↔ body.length = 48 ∧
      BitVec.ofNat 128 (natAt body 0 16) = bridge ∧ keyAt body 16 = caller := by
  rw [← stands_whole, stands_field (beBytes_length ..) (stands_word (n := 16)), stands_key,
    List.length_append, beBytes_length, Bytes32.length_toBytes, and_comm, eq_comm]
  exact and_congr_right fun hlen => by simp [hlen]

end

theorem arm_ok {k : UInt8} {body : Bytes} {n : Nat} {e e' : Event} :
    (do wantBody k body n; pure e' : Except Error Event) = .ok e ↔ body.length = n ∧ e' = e := by
  simp only [bind_eq_ok, wantBody_eq_ok, pure_eq_ok, exists_const]

/-- What was written is read as it was. -/
theorem decode_encode {e : Event} (h : e.Named) : decode e.encode = .ok e := by
  cases e with
  | channel c n =>
    obtain ⟨hlen, hc, hn⟩ := eq_counted.mp (rfl : Bytes32.toBytes c ++ beBytes 8 n.toNat = _)
    exact arm_ok.mpr ⟨hlen, by rw [hc, hn]⟩
  | ringing c n =>
    obtain ⟨hlen, hc, hn⟩ := eq_counted.mp (rfl : Bytes32.toBytes c ++ beBytes 8 n.toNat = _)
    exact arm_ok.mpr ⟨hlen, by rw [hc, hn]⟩
  | membership c account what =>
    obtain ⟨hlen, hc, haccount, hwhat⟩ := eq_member.mp
      (rfl : Bytes32.toBytes c ++ (Bytes32.toBytes account ++ [what]) = _)
    exact arm_ok.mpr ⟨hlen, by rw [hc, haccount, hwhat]⟩
  | crossCall bridge caller =>
    obtain ⟨hlen, hbridge, hcaller⟩ := eq_bridged.mp
      (rfl : beBytes 16 bridge.toNat ++ Bytes32.toBytes caller = _)
    exact arm_ok.mpr ⟨hlen, by rw [hbridge, hcaller]⟩
  | signal k | cursor k | profile k | reported k | sibling k =>
    obtain ⟨hlen, hk⟩ := eq_key.mp (rfl : Bytes32.toBytes k = _)
    exact arm_ok.mpr ⟨hlen, by rw [hk]⟩
  | admission | heartbeat | resync => exact arm_ok.mpr ⟨rfl, rfl⟩
  | unknown k =>
    have hk : k ∉ kinds := h
    simp only [kinds, List.mem_cons, List.not_mem_nil, or_false, not_or] at hk
    simp [encode, decode, hk]

/-- An event is read from what it is written as, and one that is not known from its kind alone. -/
theorem decode_iff {b : Bytes} {e : Event} : decode b = .ok e ↔ e.Spelt b := by
  constructor
  · intro h
    cases b with
    | nil => cases h
    | cons k body =>
      by_cases hknown : k ∈ kinds
      · simp only [kinds, List.mem_cons, List.not_mem_nil, or_false] at hknown
        rcases hknown with rfl | rfl | rfl | rfl | rfl | rfl | rfl | rfl | rfl | rfl | rfl | rfl
        all_goals obtain ⟨hlen, rfl⟩ := arm_ok.mp h
        case inl | inr.inr.inr.inr.inr.inr.inr.inr.inl =>
          exact congrArg _ (eq_counted.mpr ⟨hlen, rfl, rfl⟩)
        case inr.inr.inr.inl => exact congrArg _ (eq_member.mpr ⟨hlen, rfl, rfl, rfl⟩)
        case inr.inr.inr.inr.inr.inr.inr.inr.inr.inl =>
          exact congrArg _ (eq_bridged.mpr ⟨hlen, rfl, rfl⟩)
        case inr.inr.inr.inr.inr.inl | inr.inr.inr.inr.inr.inr.inl |
            inr.inr.inr.inr.inr.inr.inr.inl =>
          exact congrArg _ (List.length_eq_zero_iff.mp hlen)
        all_goals exact congrArg _ (eq_key.mpr ⟨hlen, rfl⟩)
      · have hk := hknown
        simp only [kinds, List.mem_cons, List.not_mem_nil, or_false, not_or] at hk
        have hread : decode (k :: body) = .ok (.unknown k) := by
          simp [decode, hk]
        obtain rfl := Except.ok.inj (hread.symm.trans h)
        exact ⟨hknown, rfl⟩
  · intro h
    cases e with
    | unknown k =>
      obtain ⟨hk, hhead⟩ := h
      obtain ⟨body, rfl⟩ := List.head?_eq_some_iff.mp hhead
      simp only [kinds, List.mem_cons, List.not_mem_nil, or_false, not_or] at hk
      simp [decode, hk]
    | _ =>
      obtain rfl := h
      exact decode_encode trivial

theorem length_encode (e : Event) : 0 < e.encode.length ∧ e.encode.length ≤ 66 := by
  cases e <;> simp [encode, one, Bytes32.toBytes, beBytes_length]

end Event

def framing : Format UInt8 Error Event where
  header := lengthPrefix
  size b := natAt b 0 lengthPrefix
  limit := maxFrame
  refuse len := .malformed s!"event frame claims {len} bytes, limit is {maxFrame}"
  decode := Event.decode

/-- Add a chunk, and take every event it finished. -/
def feed (buf chunk : Bytes) : Bytes × Except Error (List Event) :=
  let taken := framing.take (buf ++ chunk)
  match taken.halted with
  | some e => (taken.rest, .error e)
  | none => (taken.rest, .ok taken.frames)

theorem writes_frame {e : Event} (h : e.Named) : Writes framing Event.frame e := by
  intro rest
  have hlen := e.length_encode
  have hsize : natAt (beBytes 4 e.encode.length) 0 4 = e.encode.length := by
    rw [natAt, List.drop_zero, List.take_of_length_le (by rw [beBytes_length]), beNat_beBytes,
      Nat.mod_eq_of_lt (by omega)]
  have hheader : (e.frame ++ rest).take 4 = beBytes 4 e.encode.length := by
    rw [Event.frame, List.append_assoc, List.take_append_of_le_length (by
      rw [lengthPrefix, beBytes_length]), List.take_of_length_le (by
      rw [lengthPrefix, beBytes_length])]
    rfl
  have hbody : (e.frame ++ rest).drop 4 = e.encode ++ rest := by
    rw [Event.frame, List.append_assoc, List.drop_left' (by rw [lengthPrefix, beBytes_length])]
  have hwhole : (e.frame ++ rest).length = 4 + e.encode.length + rest.length := by
    rw [List.length_append, Event.frame, List.length_append, lengthPrefix, beBytes_length]
  have hnext : (e.frame ++ rest).drop (4 + e.encode.length) = rest := by
    rw [← List.drop_drop, hbody, List.drop_left]
  simp only [Format.next, framing, lengthPrefix, hheader, hsize, hbody, List.take_left, hnext,
    Event.decode_encode h]
  rw [if_neg (by omega), if_neg (by unfold maxFrame; omega), if_neg (by omega)]

/-- A live subscription: what the task that reads it holds back, whether it reads on, and what
it sent that was not drained yet, with all that was. -/
structure Stream where
  buf : Bytes
  reading : Bool
  queue : List Event
  drained : List Event

inductive Act where
  | chunk (b : Bytes)
  /-- The exchange finished the response, or the connection went. -/
  | finish
  | drain

namespace Stream

def opened : Stream := ⟨[], true, [], []⟩

/-- An error ends the reading, and whoever drains learns of it by the sender that is gone. -/
def pump (s : Stream) (chunk : Bytes) : Stream :=
  if s.reading then
    match feed s.buf chunk with
    | (buf, .error _) => { s with buf, reading := false }
    | (buf, .ok events) => { s with buf, queue := s.queue ++ events }
  else s

def step (s : Stream) : Act → Stream
  | .chunk b => s.pump b
  | .finish => { s with reading := false }
  | .drain => { s with queue := [], drained := s.drained ++ s.queue }

/-- What a drain answers: everything that has arrived, and whether nothing more will. -/
def drain (s : Stream) : List Event × Bool := (s.queue, !s.reading)

/-- All that was sent, drained or not. -/
def sent (s : Stream) : List Event := s.drained ++ s.queue

def reader (s : Stream) (failed : Option Error) : Reader UInt8 Error Event :=
  ⟨s.buf, s.sent, failed⟩

end Stream

/-- The bytes that arrive before the end. -/
def arrived : List Act → Bytes
  | [] => []
  | .chunk b :: acts => b ++ arrived acts
  | .finish :: _ => []
  | .drain :: acts => arrived acts

namespace Stream
variable {s : Stream} {b : Bytes}

theorem sent_drain : (s.step .drain).sent = s.sent := by simp [step, sent]

/-- Nothing is read once the reading is over. -/
theorem run_over (h : s.reading = false) (acts : List Act) :
    (run step s acts).reading = false ∧ (run step s acts).buf = s.buf ∧
      (run step s acts).sent = s.sent := by
  induction acts generalizing s with
  | nil => exact ⟨h, rfl, rfl⟩
  | cons act acts ih =>
    rw [run_cons]
    cases act with
    | chunk b =>
      have hsame : s.step (.chunk b) = s := by simp [step, pump, h]
      rw [hsame]
      exact ih h
    | finish =>
      have hsame : s.step .finish = s := by simp [step, ← h]
      rw [hsame]
      exact ih h
    | drain => exact sent_drain (s := s) ▸ ih (s := s.step .drain) h

/-- A chunk is fed to the reader that stands for the stream. -/
theorem reader_pump {failed : Option Error} (h : s.reading = failed.isNone) (c : Bytes) :
    ∃ failed', (s.pump c).reader failed' = (s.reader failed).feed framing c ∧
      (s.pump c).reading = failed'.isNone := by
  cases failed with
  | some e =>
    have hover : s.reading = false := h
    exact ⟨some e, by simp [pump, hover, reader, Reader.feed], by simp [pump, hover]⟩
  | none =>
    have hon : s.reading = true := h
    cases hhalted : (framing.take (s.buf ++ c)).halted with
    | some e =>
      exact ⟨some e, by simp [pump, hon, feed, hhalted, reader, Reader.feed, sent],
        by simp [pump, hon, feed, hhalted]⟩
    | none =>
      exact ⟨none, by simp [pump, hon, feed, hhalted, reader, Reader.feed, sent],
        by simp [pump, hon, feed, hhalted]⟩

/-- Over any acts the stream stands where the bytes that arrived, read at once, leave it. -/
theorem reader_run {failed : Option Error} (hat : (s.reader failed).At framing b)
    (hreading : s.reading = failed.isNone) (acts : List Act) :
    ∃ failed', ((run step s acts).reader failed').At framing (b ++ arrived acts) ∧
      ((run step s acts).reading = true ↔ failed' = none ∧ .finish ∉ acts) := by
  induction acts generalizing s b failed with
  | nil => exact ⟨failed, by simpa [arrived] using hat, by simp [hreading]⟩
  | cons act acts ih =>
    rw [run_cons]
    cases act with
    | chunk c =>
      obtain ⟨failed', hfeed, hreading'⟩ := reader_pump hreading c
      obtain ⟨failed'', hat', hend⟩ := ih (hfeed ▸ hat.feed c) hreading'
      exact ⟨failed'', by simpa [arrived, step] using hat', by simpa [step] using hend⟩
    | finish =>
      obtain ⟨hover, hbuf, hsent⟩ := run_over (s := s.step .finish) rfl acts
      refine ⟨failed, ?_, by simp [hover]⟩
      have hsame : (run step (s.step .finish) acts).reader failed = s.reader failed := by
        rw [reader, hbuf, hsent]
        rfl
      simpa [arrived, hsame] using hat
    | drain =>
      have hsame : (s.step .drain).reader failed = s.reader failed := by
        rw [reader, sent_drain]
        rfl
      obtain ⟨failed', hat', hend⟩ := ih (s := s.step .drain) (hsame ▸ hat) hreading
      exact ⟨failed', by simpa [arrived] using hat', by simpa using hend⟩

theorem reader_opened (acts : List Act) :
    ∃ failed, ((run step opened acts).reader failed).At framing (arrived acts) ∧
      ((run step opened acts).reading = true ↔ failed = none ∧ .finish ∉ acts) :=
  @reader_run opened [] none (Reader.at_opened (by decide : 0 < lengthPrefix)) rfl acts

end Stream

/-- Whatever an exchange sends, what the client is handed does not hang on how it was cut or when
the client looked: it is read of all that arrived, and no more is lost than the last chunk's
events where the stream broke on it. -/
theorem cut_unseen (acts : List Act) :
    ((run Stream.step .opened acts).reading = true ↔
      (framing.take (arrived acts)).halted = none ∧ .finish ∉ acts) ∧
    ((framing.take (arrived acts)).halted = none →
      (run Stream.step .opened acts).sent = (framing.take (arrived acts)).frames ∧
      (run Stream.step .opened acts).buf = (framing.take (arrived acts)).rest) ∧
    (run Stream.step .opened acts).sent <+: (framing.take (arrived acts)).frames := by
  obtain ⟨failed, hat, hend⟩ := Stream.reader_opened acts
  have hfailed : failed = (framing.take (arrived acts)).halted := hat.failed
  rw [← hfailed]
  exact ⟨hend, hat.whole, hat.initial⟩

/-- What arrives of the events an exchange wrote is handed over in their order, each whole and
once, and none that has arrived whole is held back. -/
theorem events_arrive {es : List Event} {acts : List Act} (hnamed : ∀ e ∈ es, e.Named)
    (hcut : arrived acts <+: es.flatMap Event.frame) :
    ∃ n ≤ es.length, (run Stream.step .opened acts).sent = es.take n ∧
      (∀ k ≤ es.length, (es.take k).flatMap Event.frame <+: arrived acts ↔ k ≤ n) ∧
      ((run Stream.step .opened acts).reading = true ↔ .finish ∉ acts) := by
  obtain ⟨n, hn, hframes, hhalted, hcount⟩ := take_cut (by decide : 0 < lengthPrefix)
    (fun e he => writes_frame (hnamed e he)) hcut
  obtain ⟨failed, hat, hend⟩ := Stream.reader_opened acts
  obtain rfl : failed = none := hat.failed.trans hhalted
  exact ⟨n, hn, (hat.whole rfl).1.trans hframes, hcount, by simpa using hend⟩

theorem events_arrive_cut :
    let acts : List Act := [.chunk [0, 0, 0], .drain, .chunk [1, 7, 0, 0]]
    ∃ n ≤ 2, (run Stream.step .opened acts).sent = [Event.heartbeat, .resync].take n ∧
      (∀ k ≤ 2, ([Event.heartbeat, .resync].take k).flatMap Event.frame <+: arrived acts ↔ k ≤ n) ∧
      ((run Stream.step .opened acts).reading = true ↔ .finish ∉ acts) :=
  @events_arrive [.heartbeat, .resync] [.chunk [0, 0, 0], .drain, .chunk [1, 7, 0, 0]]
    (by simp [Event.Named]) (by decide)

end Sqex.EventWire
