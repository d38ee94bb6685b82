import Sqex.Chat.SyncAdmission
import Sqex.Chat.SyncWire
import Sqex.Proto.Session

/-! The stream a sync's messages travel in: each behind its length, cut into frames and sealed,
and taken out of what the frames come to whatever they are handed over by. -/
namespace Sqex.Chat.Sync
open Std Offsets Runs

def maxMessage : Nat := pageBytes + 4096

/-- Plaintext of one frame: what a frame holds, less the seal's tag. -/
def piece : Nat := maxFrame - 64

abbrev Frame := UInt64 × Bytes

def chunks (b : Bytes) : List Bytes :=
  if b = [] then [] else b.take piece :: chunks (b.drop piece)
termination_by b.length
decreasing_by
  rename_i h
  have hpos := List.length_pos_of_ne_nil h
  rw [List.length_drop]
  unfold piece maxFrame
  omega

def stream (m : Message) : Bytes := beBytes 4 m.encode.length ++ m.encode

/-- The frames that wait for the link, and the number of the next. -/
structure Outbound where
  outSeq : UInt64
  outbox : List Frame

namespace Outbound

def push (C : Crypto) (s : Session) (o : Outbound) (p : Bytes) : Except Error Outbound := do
  let ciphertext ← s.sealFrame C o.outSeq p
  pure { outSeq := o.outSeq + 1, outbox := o.outbox ++ [(o.outSeq, ciphertext)] }

/-- Queue a message: behind its length, cut into frames, sealed. -/
def queue (C : Crypto) (s : Session) (o : Outbound) (m : Message) : Except Error Outbound :=
  (chunks (stream m)).foldlM (push C s) o

def queueAll (C : Crypto) (s : Session) (ms : List Message) : Except Error Outbound :=
  ms.foldlM (queue C s) ⟨0, []⟩

end Outbound

inductive Halt where
  | tooLong (len : Nat)
  | undecoded (e : Error)
  | unopened (e : Error)
  deriving DecidableEq

variable {inbox rest a b bytes : Bytes} {m : Message} {n : Nat} {why : Halt}
  {one : ExtTreeMap Int64 KeptEntry}

def announced (inbox : Bytes) : Nat := (u32At inbox 0).toNat

def nextMessage (inbox : Bytes) : Except Halt (Option (Message × Bytes)) :=
  if inbox.length < 4 then .ok none
  else if announced inbox > maxMessage then .error (.tooLong (announced inbox))
  else if inbox.length < 4 + announced inbox then .ok none
  else match Message.decode (slice inbox 4 (announced inbox)) with
    | .ok m => .ok (some (m, inbox.drop (4 + announced inbox)))
    | .error e => .error (.undecoded e)

theorem nextMessage_some :
    nextMessage inbox = .ok (some (m, rest)) ↔
      4 + announced inbox ≤ inbox.length ∧ announced inbox ≤ maxMessage ∧
        Message.decode (slice inbox 4 (announced inbox)) = .ok m ∧
        inbox.drop (4 + announced inbox) = rest := by
  unfold nextMessage
  split
  · rename_i hshort
    exact iff_of_false (by simp) fun h => absurd h.1 (by omega)
  split
  · rename_i hlong
    exact iff_of_false (by simp) fun h => absurd h.2.1 (by omega)
  split
  · rename_i hcut
    exact iff_of_false (by simp) fun h => absurd h.1 (by omega)
  rename_i hcap hwhole
  rw [and_iff_right (Nat.not_lt.mp hwhole), and_iff_right (Nat.not_lt.mp hcap)]
  cases Message.decode (slice inbox 4 (announced inbox)) with
  | ok m' => simp
  | error e => simp

theorem nextMessage_lt (h : nextMessage inbox = .ok (some (m, rest))) :
    rest.length < inbox.length := by
  obtain ⟨hlen, -, -, rfl⟩ := nextMessage_some.mp h
  rw [List.length_drop]
  omega

abbrev Taken := List Message × Except Halt Bytes

def takeMessages (inbox : Bytes) : Taken :=
  match _h : nextMessage inbox with
  | .error e => ([], .error e)
  | .ok none => ([], .ok inbox)
  | .ok (some (m, rest)) =>
    let later := takeMessages rest
    (m :: later.1, later.2)
termination_by inbox.length
decreasing_by exact nextMessage_lt _h

def Taken.andThen (r : Taken) (next : Bytes → Taken) : Taken :=
  match r.2 with
  | .error e => (r.1, .error e)
  | .ok rest => (r.1 ++ (next rest).1, (next rest).2)

def openAll (C : Crypto) (s : Session) (inbox : Bytes) : List Frame → Except Halt Bytes
  | [] => .ok inbox
  | (seq, ciphertext) :: frames =>
    match s.openFrame C seq ciphertext with
    | .ok plain => openAll C s (inbox ++ plain) frames
    | .error e => .error (.unopened e)

def takeFrames (C : Crypto) (s : Session) (inbox : Bytes) : List (List Frame) → Taken
  | [] => ([], .ok inbox)
  | frames :: groups =>
    match openAll C s inbox frames with
    | .error e => ([], .error e)
    | .ok inbox =>
      (takeMessages inbox).andThen fun rest => takeFrames C s rest groups

def farEnd (s : Session) : Session := ⟨s.key, s.role.other⟩

/-! Taking what arrived in two parts is taking it at once. -/

theorem slice_append {o : Nat} (h : o + n ≤ a.length) :
    slice (a ++ b) o n = slice a o n := by
  rw [slice, slice, List.drop_append_of_le_length (by omega), List.take_append_of_le_length]
  rw [List.length_drop]
  omega

theorem announced_append (h : 4 ≤ a.length) :
    announced (a ++ b) = announced a := by
  rw [announced, announced, u32At, u32At, natAt, natAt, ← slice, ← slice,
    slice_append (by omega)]

theorem nextMessage_append (h : nextMessage a = .ok (some (m, rest))) :
    nextMessage (a ++ b) = .ok (some (m, rest ++ b)) := by
  obtain ⟨hlen, hcap, hdecode, rfl⟩ := nextMessage_some.mp h
  rw [nextMessage_some, announced_append (by omega), slice_append hlen,
    List.drop_append_of_le_length hlen, List.length_append]
  exact ⟨by omega, hcap, hdecode, rfl⟩

theorem nextMessage_error : nextMessage a = .error why ↔
    4 ≤ a.length ∧ (maxMessage < announced a ∧ why = .tooLong (announced a) ∨
      announced a ≤ maxMessage ∧ 4 + announced a ≤ a.length ∧
        ∃ e, Message.decode (slice a 4 (announced a)) = .error e ∧ why = .undecoded e) := by
  unfold nextMessage
  split
  · rename_i hshort
    exact iff_of_false (by simp) fun h => absurd h.1 (by omega)
  rename_i hfour
  rw [and_iff_right (Nat.not_lt.mp hfour)]
  split
  · rename_i hlong
    rw [Except.error.injEq, eq_comm]
    exact ⟨fun h => Or.inl ⟨hlong, h⟩, fun h => h.elim And.right fun h => absurd h.1 (by omega)⟩
  rename_i hcap
  split
  · rename_i hcut
    refine iff_of_false (by simp) fun h => ?_
    cases h with
    | inl h => exact hcap h.1
    | inr h => omega
  · rename_i hwhole
    cases Message.decode (slice a 4 (announced a)) with
    | ok m => simp [hcap]
    | error e =>
      simp only [Except.error.injEq, hcap, false_and, false_or, exists_eq_left']
      rw [and_iff_right (Nat.not_lt.mp hcap), and_iff_right (Nat.not_lt.mp hwhole)]
      exact eq_comm

theorem nextMessage_error_append (h : nextMessage a = .error why) :
    nextMessage (a ++ b) = .error why := by
  obtain ⟨hfour, hwhy⟩ := nextMessage_error.mp h
  rw [nextMessage_error, announced_append hfour, List.length_append]
  refine ⟨by omega, hwhy.imp id fun h => ?_⟩
  obtain ⟨hcap, hlen, e, hdecode, hwhy⟩ := h
  rw [slice_append hlen]
  exact ⟨hcap, by omega, e, hdecode, hwhy⟩

theorem takeMessages_error (h : nextMessage a = .error why) :
    takeMessages a = ([], .error why) := by
  unfold takeMessages
  split <;> simp_all

theorem takeMessages_none (h : nextMessage a = .ok none) :
    takeMessages a = ([], .ok a) := by
  unfold takeMessages
  split <;> simp_all

theorem takeMessages_some (h : nextMessage a = .ok (some (m, rest))) :
    takeMessages a = (m :: (takeMessages rest).1, (takeMessages rest).2) := by
  rw [takeMessages]
  split <;> simp_all

theorem takeMessages_append (a b : Bytes) : takeMessages (a ++ b) =
    (takeMessages a).andThen fun rest => takeMessages (rest ++ b) := by
  fun_induction takeMessages a with
  | case1 a why h =>
    rw [takeMessages_error (nextMessage_error_append h)]
    rfl
  | case2 a h => simp only [Taken.andThen, List.nil_append]
  | case3 a m rest h later ih =>
    rw [takeMessages_some (nextMessage_append h), ih]
    cases hlater : (takeMessages rest).2 with
    | error why => simp only [Taken.andThen, later, hlater]
    | ok left => simp only [Taken.andThen, later, hlater, List.cons_append]

theorem takeMessages_rest (h : (takeMessages a).2 = .ok rest) :
    takeMessages rest = ([], .ok rest) := by
  fun_induction takeMessages a with
  | case1 a why hnext => cases h
  | case2 a hnext =>
    obtain rfl := Except.ok.inj h
    exact takeMessages_none hnext
  | case3 a m rest hnext later ih => exact ih h

def plainOf (C : Crypto) (s : Session) (f : Frame) : Bytes :=
  match s.openFrame C f.1 f.2 with
  | .ok plain => plain
  | .error _ => []

def AllOpen (C : Crypto) (s : Session) (frames : List Frame) : Prop :=
  ∀ f ∈ frames, s.openFrame C f.1 f.2 = .ok (plainOf C s f)

section
variable {C : Crypto} {s : Session}

theorem openAll_eq {frames : List Frame} (h : AllOpen C s frames) (inbox : Bytes) :
    openAll C s inbox frames = .ok (inbox ++ frames.flatMap (plainOf C s)) := by
  induction frames generalizing inbox with
  | nil => simp [openAll]
  | cons f frames ih =>
    have hfirst := h f (.head _)
    rw [openAll, hfirst]
    dsimp only
    rw [ih (fun g hg => h g (.tail _ hg)), List.flatMap_cons, List.append_assoc]

theorem takeFrames_eq {groups : List (List Frame)} (h : AllOpen C s groups.flatten)
    (hstuck : takeMessages inbox = ([], .ok inbox)) :
    takeFrames C s inbox groups =
      takeMessages (inbox ++ groups.flatten.flatMap (plainOf C s)) := by
  induction groups generalizing inbox with
  | nil =>
    rw [takeFrames, List.flatten_nil, List.flatMap_nil, List.append_nil, hstuck]
  | cons frames groups ih =>
    have hfirst : AllOpen C s frames := fun f hf => h f (List.mem_append_left _ hf)
    have hlater : AllOpen C s groups.flatten := fun f hf => h f (List.mem_append_right _ hf)
    rw [takeFrames, openAll_eq hfirst, List.flatten_cons, List.flatMap_append,
      ← List.append_assoc, takeMessages_append]
    dsimp only
    cases hleft : (takeMessages (inbox ++ frames.flatMap (plainOf C s))).2 with
    | error why => simp only [Taken.andThen, hleft]
    | ok rest =>
      have hrest := ih hlater (takeMessages_rest hleft)
      simp only [Taken.andThen, hleft, hrest]

theorem chunks_spec (b : Bytes) : (chunks b).flatten = b ∧ ∀ p ∈ chunks b, p.length ≤ piece := by
  fun_induction chunks b with
  | case1 => simp
  | case2 b hb ih =>
    rw [List.flatten_cons, ih.1, List.take_append_drop, List.forall_mem_cons, List.length_take]
    exact ⟨rfl, Nat.min_le_left _ _, ih.2⟩

def Outbound.Carries (C : Crypto) (s : Session) (o : Outbound) (bytes : Bytes) : Prop :=
  AllOpen C (farEnd s) o.outbox ∧ o.outbox.flatMap (plainOf C (farEnd s)) = bytes

variable (hopens : ∀ key nonce plain, C.decrypt key nonce (C.encrypt key nonce plain) = some plain)
include hopens

theorem carries_push {o : Outbound} {p : Bytes} (h : o.Carries C s bytes) (hp : p.length ≤ piece) :
    ∃ o', o.push C s p = .ok o' ∧ o'.Carries C s (bytes ++ p) := by
  have hsmall : ¬ p.length > maxFrame := by
    unfold piece at hp
    omega
  let ciphertext := C.encrypt s.key (Session.nonce s.role.direction o.outSeq) p
  have hseal : s.sealFrame C o.outSeq p = .ok ciphertext := if_neg hsmall
  have hopen : (farEnd s).openFrame C o.outSeq ciphertext = .ok p := by
    have hrole : s.role.other.other = s.role := by cases s.role <;> rfl
    simp only [Session.openFrame, farEnd, hrole, ciphertext, hopens]
  have hplain : plainOf C (farEnd s) (o.outSeq, ciphertext) = p := by
    simp only [plainOf, hopen]
  refine ⟨⟨o.outSeq + 1, o.outbox ++ [(o.outSeq, ciphertext)]⟩, ?_, fun f hf => ?_, ?_⟩
  · rw [Outbound.push, hseal]
    rfl
  · rw [List.mem_append, List.mem_singleton] at hf
    cases hf with
    | inl hf => exact h.1 f hf
    | inr hf =>
      subst hf
      rw [hplain]
      exact hopen
  · rw [List.flatMap_append, h.2, List.flatMap_singleton, hplain]

theorem carries_pushes (ps : List Bytes) {o : Outbound} (h : o.Carries C s bytes)
    (hps : ∀ p ∈ ps, p.length ≤ piece) :
    ∃ o', ps.foldlM (Outbound.push C s) o = .ok o' ∧ o'.Carries C s (bytes ++ ps.flatten) := by
  induction ps generalizing o bytes with
  | nil => exact ⟨o, rfl, by simpa using h⟩
  | cons p ps ih =>
    rw [List.forall_mem_cons] at hps
    obtain ⟨mid, hpush, hmid⟩ := carries_push hopens h hps.1
    obtain ⟨o', hrest, hcarries⟩ := ih hmid hps.2
    refine ⟨o', ?_, ?_⟩
    · rw [List.foldlM_cons, hpush]
      exact hrest
    · rwa [List.flatten_cons, ← List.append_assoc]

theorem carries_queue {o : Outbound} (h : o.Carries C s bytes) (m : Message) :
    ∃ o', o.queue C s m = .ok o' ∧ o'.Carries C s (bytes ++ stream m) := by
  obtain ⟨hwhole, hsmall⟩ := chunks_spec (stream m)
  have hrun := carries_pushes hopens (chunks (stream m)) h hsmall
  rwa [hwhole] at hrun

theorem carries_queueAll (ms : List Message) :
    ∃ o, Outbound.queueAll C s ms = .ok o ∧ o.Carries C s (ms.flatMap stream) := by
  have hrun : ∀ (ms : List Message) (o : Outbound) (bytes : Bytes), o.Carries C s bytes →
      ∃ o', ms.foldlM (Outbound.queue C s) o = .ok o' ∧
        o'.Carries C s (bytes ++ ms.flatMap stream) := by
    intro ms
    induction ms with
    | nil => exact fun o bytes h => ⟨o, rfl, by simpa using h⟩
    | cons m ms ih =>
      intro o bytes h
      obtain ⟨mid, hqueue, hmid⟩ := carries_queue hopens h m
      obtain ⟨o', hrest, hcarries⟩ := ih mid _ hmid
      refine ⟨o', ?_, ?_⟩
      · rw [List.foldlM_cons, hqueue]
        exact hrest
      · rwa [List.flatMap_cons, ← List.append_assoc]
  exact hrun ms ⟨0, []⟩ [] ⟨fun f hf => absurd hf List.not_mem_nil, rfl⟩

omit hopens in
theorem nextMessage_stream (h : m.encode.length ≤ maxMessage) (rest : Bytes) :
    announced (stream m ++ rest) = m.encode.length ∧
      slice (stream m ++ rest) 4 m.encode.length = m.encode ∧
      (stream m ++ rest).drop (4 + m.encode.length) = rest := by
  have hcap : maxMessage = 1052672 := rfl
  have hwhole : stream m ++ rest = beBytes 4 m.encode.length ++ (m.encode ++ rest) := by
    rw [stream, List.append_assoc]
  have hstands := stands_self (w := stream m ++ rest)
  rw [hwhole, stands_append, stands_append, stands_len32 (by omega), beBytes_length, Nat.zero_add,
    ← hwhole] at hstands
  obtain ⟨⟨-, hlen⟩, hbody, -⟩ := hstands
  refine ⟨hlen, hbody.slice, ?_⟩
  rw [hwhole, ← List.append_assoc]
  exact List.drop_left' (by rw [List.length_append, beBytes_length])

omit hopens in
theorem takeMessages_streams {ms : List Message} (h : ∀ m ∈ ms, m.encode.length ≤ maxMessage) :
    takeMessages (ms.flatMap stream) = (ms.map Message.sent, .ok []) ↔
      ∀ m ∈ ms, Message.decode m.encode = .ok m.sent := by
  induction ms with
  | nil =>
    have hnil : nextMessage [] = .ok none := rfl
    simp [takeMessages_none hnil]
  | cons m ms ih =>
    rw [List.forall_mem_cons] at h
    obtain ⟨hlen, hslice, hdrop⟩ := nextMessage_stream h.1 (ms.flatMap stream)
    have hroom : 4 + m.encode.length ≤ (stream m ++ ms.flatMap stream).length := by
      simp only [stream, List.length_append, beBytes_length]
      omega
    rw [List.flatMap_cons, List.map_cons, List.forall_mem_cons, ← ih h.2]
    cases hdecode : Message.decode m.encode with
    | ok m' =>
      have hnext : nextMessage (stream m ++ ms.flatMap stream) =
          .ok (some (m', ms.flatMap stream)) := by
        rw [nextMessage_some, hlen, hslice]
        exact ⟨hroom, h.1, hdecode, hdrop⟩
      rw [takeMessages_some hnext, Prod.mk.injEq, List.cons.injEq, Except.ok.injEq, and_assoc,
        ← Prod.mk.injEq]
    | error e =>
      have hnext : nextMessage (stream m ++ ms.flatMap stream) = .error (.undecoded e) := by
        rw [nextMessage_error, hlen, hslice]
        exact ⟨by omega, Or.inr ⟨h.1, hroom, e, hdecode, rfl⟩⟩
      rw [takeMessages_error hnext]
      simp

end

/-- A message's lists, or the chunk it carries, are no longer than what a message may be holds:
each by the bytes of one of its rows, behind what comes before them. -/
def Message.InReach : Message → Prop
  | .hello _ _ | .done | .key _ => True
  | .have' held => 3 + held.length * 82 ≤ maxMessage
  | .want wants => 3 + wants.length * 40 ≤ maxMessage
  | .entries _ _ es => 67 + (es.map fun e => 365 + e.body.length).sum ≤ maxMessage
  | .keys _ ks => 35 + ks.length * 36 ≤ maxMessage
  | .blob _ _ _ bytes => 41 + bytes.length ≤ maxMessage
  | .earlier rows => 3 + rows.length * 114 ≤ maxMessage
  | .wantEarlier wants => 3 + wants.length * 72 ≤ maxMessage
  | .keysOf _ _ ks => 67 + ks.length * 36 ≤ maxMessage

instance Message.instDecidableInReach : (m : Message) → Decidable m.InReach
  | .hello _ _ | .done | .key _ => isTrue trivial
  | .have' _ | .want _ | .entries _ _ _ | .keys _ _ | .blob _ _ _ _ | .earlier _
  | .wantEarlier _ | .keysOf _ _ _ => inferInstanceAs (Decidable (_ ≤ _))

instance Message.instDecidablePageFits : (m : Message) → Decidable m.PageFits
  | .entries _ _ es => inferInstanceAs (Decidable (es.length ≤ pageSize))
  | .hello _ _ | .have' _ | .want _ | .keys _ _ | .blob _ _ _ _ | .done | .key _ | .earlier _
  | .wantEarlier _ | .keysOf _ _ _ => isTrue trivial

instance (receipted : Bool) (e : Entry) : Decidable (Channel.EntryFits receipted e) :=
  inferInstanceAs (Decidable (_ ∧ _))

instance Message.instDecidablePartsFit : (m : Message) → Decidable m.PartsFit
  | .hello _ credential => inferInstanceAs (Decidable (Credential.OptionFits credential))
  | .entries _ _ es => inferInstanceAs (Decidable (∀ e ∈ es, Channel.EntryFits true e))
  | .have' _ | .want _ | .keys _ _ | .blob _ _ _ _ | .done | .key _ | .earlier _
  | .wantEarlier _ | .keysOf _ _ _ => isTrue trivial

namespace Message

theorem length_entries {es : List Entry} (h : ∀ e ∈ es, Channel.EntryFits true e) :
    (es.flatMap Entry.writeReceipted).length = (es.map fun e => 365 + e.body.length).sum := by
  induction es with
  | nil => rfl
  | cons e es ih =>
    rw [List.forall_mem_cons] at h
    rw [List.flatMap_cons, List.length_append, Channel.length_entry h.1, ih h.2, List.map_cons,
      List.sum_cons]
    rfl

theorem length_encode_le_iff (hparts : m.PartsFit) :
    m.encode.length ≤ maxMessage ↔ m.InReach := by
  have hcap : maxMessage = 1052672 := rfl
  cases m with
  | hello account credential =>
    have hle := Credential.length_optionBytes_le hparts
    refine iff_of_true ?_ trivial
    simp only [encode, payload, List.length_append, List.length_singleton, Bytes32.length_toBytes]
    omega
  | have' held =>
    simp only [encode, payload, List.length_append, List.length_singleton,
      length_writeRows length_writeHeld, InReach]
    omega
  | want wants =>
    simp only [encode, payload, List.length_append, List.length_singleton,
      length_writeRows length_writeWant, InReach]
    omega
  | entries channel inst es =>
    have hes := length_entries hparts
    simp only [encode, payload, List.length_append, List.length_singleton, Bytes32.length_toBytes,
      beBytes_length, InReach]
    omega
  | keys channel ks =>
    simp only [encode, payload, List.length_append, List.length_singleton, Bytes32.length_toBytes,
      length_writeRows length_writeKey, InReach]
    omega
  | blob id chunk of bytes =>
    simp only [encode, payload, List.length_append, List.length_singleton, Bytes32.length_toBytes,
      beBytes_length, InReach]
    omega
  | done => exact iff_of_true (by decide) trivial
  | key seed =>
    refine iff_of_true ?_ trivial
    simp only [encode, payload, List.length_append, List.length_singleton, Bytes32.length_toBytes]
    omega
  | earlier rows =>
    simp only [encode, payload, List.length_append, List.length_singleton,
      length_writeRows length_writeGeneration, InReach]
    omega
  | wantEarlier wants =>
    simp only [encode, payload, List.length_append, List.length_singleton,
      length_writeRows length_writeWantEarlier, InReach]
    omega
  | keysOf channel inst ks =>
    simp only [encode, payload, List.length_append, List.length_singleton, Bytes32.length_toBytes,
      length_writeRows length_writeKey, InReach]
    omega

theorem counts_lt (h : m.InReach) (hpage : m.PageFits) :
    ∀ n ∈ m.counts, n < 2 ^ 16 := by
  have hcap : maxMessage = 1052672 := rfl
  have hsize : pageSize = 256 := rfl
  intro n hn
  cases m <;> simp only [counts, List.mem_singleton, List.not_mem_nil, InReach, PageFits] at *
  all_goals omega

end Message

/-- What is queued crosses: nothing of it is longer than a message may be or counts more than two
bytes do, and however its frames are handed over, the other end takes just it. -/
def Carried (C : Crypto) (s : Session) (ms : List Message) : Prop :=
  (∀ m ∈ ms, m.encode.length ≤ maxMessage ∧ ∀ n ∈ m.counts, n < 2 ^ 16) ∧
    ∃ o, Outbound.queueAll C s ms = .ok o ∧ ∀ groups, groups.flatten = o.outbox →
      takeFrames C (farEnd s) [] groups = (ms.map Message.sent, .ok [])

theorem carried_iff {C : Crypto} {s : Session} {ms : List Message}
    (hopens : ∀ key nonce plain, C.decrypt key nonce (C.encrypt key nonce plain) = some plain) :
    Carried C s ms ↔ ∀ m ∈ ms, m.InReach ∧ m.PageFits ∧ m.PartsFit := by
  obtain ⟨o, hqueue, hall, hplain⟩ := carries_queueAll (s := s) hopens ms
  have hstuck : takeMessages [] = ([], .ok []) := takeMessages_none rfl
  have htake : ∀ groups, groups.flatten = o.outbox →
      takeFrames C (farEnd s) [] groups = takeMessages (ms.flatMap stream) := by
    intro groups hgroups
    rw [takeFrames_eq (hgroups ▸ hall) hstuck, hgroups, hplain, List.nil_append]
  constructor
  · rintro ⟨hfits, o', hqueue', htaken⟩
    obtain rfl := Except.ok.inj (hqueue.symm.trans hqueue')
    have hsent := htaken [o.outbox] (by simp)
    rw [htake _ (by simp), takeMessages_streams fun m hm => (hfits m hm).1] at hsent
    intro m hm
    have hdecode := Message.decode_eq_ok.mp (hsent m hm)
    rw [Message.pageFits_sent, Message.partsFit_sent] at hdecode
    obtain ⟨-, -, hpage, hparts, -⟩ := hdecode
    exact ⟨(Message.length_encode_le_iff hparts).mp (hfits m hm).1, hpage, hparts⟩
  · intro h
    have hfits : ∀ m ∈ ms, m.encode.length ≤ maxMessage ∧ ∀ n ∈ m.counts, n < 2 ^ 16 := by
      intro m hm
      obtain ⟨hreach, hpage, hparts⟩ := h m hm
      exact ⟨(Message.length_encode_le_iff hparts).mpr hreach, Message.counts_lt hreach hpage⟩
    refine ⟨hfits, o, hqueue, fun groups hgroups => ?_⟩
    rw [htake groups hgroups, takeMessages_streams fun m hm => (hfits m hm).1]
    intro m hm
    obtain ⟨-, hpage, hparts⟩ := h m hm
    exact (Message.decode_encode_iff (hfits m hm).2 hpage).mpr hparts

def queuedOf (history : List Event) : List Message :=
  history.reverse.filterMap fun
    | .queued m => some m
    | _ => none

/-- A message is read back as it was sent just when its parts can be read; and what a sync queues,
over any run from any store, crosses just when each message is in reach, a page at most, and of
parts that can be read. -/
theorem sync_carries_iff (W : World) (hopens : ∀ key nonce plain,
      W.crypto.decrypt key nonce (W.crypto.encrypt key nonce plain) = some plain) :
    (∀ m : Message, (∀ n ∈ m.counts, n < 2 ^ 16) → m.PageFits →
      (Message.decode m.encode = .ok m.sent ↔ m.PartsFit)) ∧
    ∀ (client : Client) (peer : PubKey) (entrust : Option Bytes32) (ts : List Turn) (s : Session),
      Carried W.crypto s (queuedOf (run (stepped W) (begin client peer entrust) ts).history) ↔
        ∀ m ∈ queuedOf (run (stepped W) (begin client peer entrust) ts).history,
          m.InReach ∧ m.PageFits ∧ m.PartsFit :=
  ⟨fun _ => Message.decode_encode_iff, fun _ _ _ _ _ => carried_iff hopens⟩

section Crowded

theorem toy_opens (key : Bytes32) (nonce plain : Bytes) :
    Crypto.toy.decrypt key nonce (Crypto.toy.encrypt key nonce plain) = some plain := by
  refine (if_pos (List.prefix_append _ _)).trans ?_
  exact congrArg some List.drop_left

def keeping (entries : ExtTreeMap Bytes32 (ExtTreeMap Int64 KeptEntry)) : Client :=
  { holder with entries }

def postOf (seq : Nat) (body : Bytes) : KeptEntry :=
  ⟨365 + body.length, some ⟨.ofNat seq, kindMember, 7, 7, 100, 0, 1, 0, 0, 0, 0, 0,
    some ⟨0, 0, 0⟩, body⟩⟩

def posts : Nat → ExtTreeMap Int64 KeptEntry
  | 0 => ∅
  | n + 1 => (posts n).insert (.ofNat (n + 1)) (postOf (n + 1) (List.replicate 1000 0))

def meeting : List Turn := [turnOf [.hello 7 none], turnOf [.have' [], .want [(9, 0)]], turnOf []]

/-- The account's devices meet, and what the first queues crosses: the entries the second wants
among it, in a message longer than a frame. -/
theorem holder_carried :
    let ms := queuedOf (run (stepped idle) (begin (keeping {(9, posts 30)}) 7 none) meeting).history
    (ms.any fun m => m.kind == typeEntries && decide (piece < m.encode.length)) = true ∧
      Carried idle.crypto ⟨1, .first⟩ ms :=
  ⟨by decide +kernel, ((sync_carries_iff idle toy_opens).2 _ _ _ _ _).mpr (by decide +kernel)⟩

theorem queued_to_itself (entries : ExtTreeMap Bytes32 (ExtTreeMap Int64 KeptEntry)) :
    queuedOf (run (stepped idle) (begin (keeping entries) 7 none)
      [turnOf [.hello 7 none]]).history =
      [.hello 7 none, .have' (keeping entries).heldForSiblings] := rfl

def crowd (one : ExtTreeMap Int64 KeptEntry) : Nat → ExtTreeMap Bytes32 (ExtTreeMap Int64 KeptEntry)
  | 0 => ∅
  | n + 1 => (crowd one n).insert (BitVec.ofNat 256 n) one

theorem mem_crowd {k : Bytes32} :
    k ∈ crowd one n ↔ ∃ i < n, BitVec.ofNat 256 i = k := by
  induction n with
  | zero => simp [crowd]
  | succ n ih =>
    rw [crowd, ExtTreeMap.mem_insert, ih, LawfulEqCmp.compare_eq_iff_eq]
    constructor
    · rintro (rfl | ⟨i, hi, rfl⟩)
      · exact ⟨n, by omega, rfl⟩
      · exact ⟨i, by omega, rfl⟩
    · rintro ⟨i, hi, rfl⟩
      by_cases hlast : i = n
      · exact Or.inl (by rw [hlast])
      · exact Or.inr ⟨i, by omega, rfl⟩

theorem size_crowd (hn : n ≤ 2 ^ 256) :
    (crowd one n).size = n := by
  induction n with
  | zero => rfl
  | succ n ih =>
    have hfresh : BitVec.ofNat 256 n ∉ crowd one n := by
      rw [mem_crowd]
      rintro ⟨i, hi, heq⟩
      have hnat := congrArg BitVec.toNat heq
      rw [BitVec.toNat_ofNat, BitVec.toNat_ofNat, Nat.mod_eq_of_lt (by omega),
        Nat.mod_eq_of_lt (by omega)] at hnat
      omega
    rw [ExtTreeMap.mem_iff_contains] at hfresh
    rw [crowd, ExtTreeMap.size_insert, if_neg hfresh, ih (by omega)]

theorem value_crowd :
    ∀ row ∈ (crowd one n).toList, row.2 = one := by
  induction n with
  | zero => simp [crowd]
  | succ n ih =>
    intro row hrow
    rw [ExtTreeMap.mem_toList_iff_getElem?_eq_some, crowd, ExtTreeMap.getElem?_insert] at hrow
    split at hrow
    · exact (Option.some.inj hrow).symm
    · exact ih row (ExtTreeMap.mem_toList_iff_getElem?_eq_some.mpr hrow)

theorem length_held (hone : (spanOf one).isSome) (hn : n ≤ 2 ^ 256) :
    (keeping (crowd one n)).heldForSiblings.length = n := by
  have hall : ∀ row ∈ (crowd one n).toList,
      ((spanOf row.2).map fun span => (row.1, span)).isSome := by
    intro row hrow
    rw [value_crowd row hrow, Option.isSome_map, hone]
  rw [Client.heldForSiblings, List.length_map]
  exact (List.filterMap_length_eq_length.mpr hall).trans
    (ExtTreeMap.length_toList.trans (size_crowd hn))

def onePost : ExtTreeMap Int64 KeptEntry :=
  {(1, postOf 1 [0])}

/-- A device that keeps an entry of each of 12838 channels says what it has in one message, which
is longer than one may be. -/
theorem crowded_have_not_carried : ¬ Carried idle.crypto ⟨1, .first⟩
    (queuedOf (run (stepped idle) (begin (keeping (crowd onePost 12838)) 7 none)
      [turnOf [.hello 7 none]]).history) := by
  intro hcarried
  rw [queued_to_itself] at hcarried
  have hshort := (hcarried.1 _ (.tail _ (.head _))).1
  have hreach := (Message.length_encode_le_iff (m := .have' _) trivial).mp hshort
  rw [Message.InReach, length_held (by decide +kernel) (by decide)] at hreach
  exact absurd hreach (by decide)

end Crowded
end Sqex.Chat.Sync
