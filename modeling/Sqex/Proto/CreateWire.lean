import Sqex.Proto.Fields

/-! A request to create a channel, as it is written and read: its two shapes, told apart
by how long it is. -/
namespace Sqex
open Offsets

def Visibility.fromU8 : UInt8 → Except Error Visibility
  | 0 => .ok .priv
  | 1 => .ok .pub
  | other => .error (.malformed s!"unknown visibility {other}")

def Role.fromU8 : UInt8 → Except Error Role
  | 0 => .ok .member
  | 1 => .ok .admin
  | other => .error (.malformed s!"unknown role {other}")

theorem Visibility.fromU8_eq_ok {b : UInt8} {v : Visibility} : fromU8 b = .ok v ↔ b = v.toByte := by
  unfold fromU8
  split <;> cases v <;> simp_all [toByte]

theorem Role.fromU8_eq_ok {b : UInt8} {r : Role} : fromU8 b = .ok r ↔ b = r.toByte := by
  unfold fromU8
  split <;> cases r <;> simp_all [toByte]

namespace Channel

def typeCreate : UInt8 := 0x01
def maxMembers : Nat := 256
def maxName : Nat := 64
def maxTopic : Nat := 256

/-- A signature over a membership change, carried by the request that causes it. -/
structure Action where
  chainSeq : UInt64
  prev : Bytes32
  sig : Bytes64
  deriving DecidableEq

def actionLen : Nat := 8 + 32 + 64

def Action.write (a : Action) : Bytes :=
  beBytes 8 a.chainSeq.toNat ++ (Bytes32.toBytes a.prev ++ Bytes64.toBytes a.sig)

def Action.read (b : Bytes) (o : Nat) : Action where
  chainSeq := u64At b o
  prev := keyAt b (o + 8)
  sig := sigAt b (o + 40)

structure Invitee where
  account : PubKey
  role : Role
  deriving DecidableEq

def Invitee.write (i : Invitee) : Bytes := Bytes32.toBytes i.account ++ [i.role.toByte]

def Invitee.read (b : Bytes) (o : Nat) : Except Error Invitee := do
  let role ← Role.fromU8 (byteAt b (o + 32))
  pure { account := keyAt b o, role }

structure Create where
  channel : Bytes32
  inst : Bytes32
  visibility : Visibility
  retentionSecs : UInt32
  maxEntries : UInt32
  name : String
  topic : String
  invites : List Invitee
  actions : List Action
  deriving DecidableEq

namespace Create

def encode (c : Create) : Bytes :=
  [typeCreate] ++ (Bytes32.toBytes c.channel ++ (Bytes32.toBytes c.inst ++
    ([c.visibility.toByte] ++ (beBytes 4 c.retentionSecs.toNat ++ (beBytes 4 c.maxEntries.toNat ++
    ([UInt8.ofNat (textBytes c.name).length] ++ (textBytes c.name ++
    (beBytes 2 (textBytes c.topic).length ++ (textBytes c.topic ++
    ([UInt8.ofNat c.invites.length] ++ (c.invites.flatMap Invitee.write ++
    c.actions.flatMap Action.write)))))))))))

/-- How many actions a create carries: one for its own record and one for each invitee, or,
where a direct message is come back to, one alone. -/
def actionsIn (b : Bytes) (o count : Nat) : Except Error Nat :=
  let fresh := count + 1
  if b.length = o + count * 33 + fresh * actionLen then .ok fresh
  else if b.length = o + count * 33 + actionLen then .ok 1
  else .error (.malformed (s!"create is {b.length} bytes, " ++
    s!"want {o + count * 33 + fresh * actionLen} or {o + count * 33 + actionLen}"))

def decode (b : Bytes) : Except Error Create := do
  want b 75 "create"
  malformedIf (byteAt b 0 ≠ typeCreate) s!"not a create (type {hex (byteAt b 0)})"
  let channel := keyAt b 1
  let inst := keyAt b 33
  let visibility ← Visibility.fromU8 (byteAt b 65)
  let retentionSecs := u32At b 66
  let maxEntries := u32At b 70
  let nameLen := (byteAt b 74).toNat
  malformedIf (nameLen > maxName) s!"name is {nameLen} bytes, limit is {maxName}"
  let o := 75
  want b (o + nameLen + 2) "create"
  let name ← utf8 (slice b o nameLen) "name"
  let o := o + nameLen
  let topicLen := (u16At b o).toNat
  let o := o + 2
  malformedIf (topicLen > maxTopic) s!"topic is {topicLen} bytes, limit is {maxTopic}"
  want b (o + topicLen + 1) "create"
  let topic ← utf8 (slice b o topicLen) "topic"
  let o := o + topicLen
  let count := (byteAt b o).toNat
  let o := o + 1
  malformedIf (count > maxMembers) s!"create invites {count} accounts, limit is {maxMembers}"
  let acts ← actionsIn b o count
  let invites ← (List.range count).mapM fun i => Invitee.read b (o + i * 33)
  let o := o + count * 33
  let actions := (List.range acts).map fun i => Action.read b (o + i * actionLen)
  pure { channel, inst, visibility, retentionSecs, maxEntries, name, topic, invites, actions }

/-- A create that has a wire form: what it names is short enough, and it carries the actions
of one of the two shapes. -/
structure Fits (c : Create) : Prop where
  invites : c.invites.length ≤ 255
  name : (textBytes c.name).length ≤ maxName
  topic : (textBytes c.topic).length ≤ maxTopic
  actions : c.actions.length = 1 ∨ c.actions.length = c.invites.length + 1

end Create

section
variable {b : Bytes} {o : Nat}

theorem Action.write_length (a : Action) : a.write.length = actionLen := by
  simp [Action.write, actionLen, beBytes_length]

theorem Action.stands {b : Bytes} {o : Nat} {a : Action} :
    Stands b o a.write ↔ o + actionLen ≤ b.length ∧ Action.read b o = a := by
  obtain ⟨seq, prev, sig⟩ := a
  rw [Action.write, stands_u64_append, stands_key_append, stands_sig, Action.read,
    Action.mk.injEq, actionLen]
  simp only [Nat.add_assoc, Nat.reduceAdd, and_left_comm]

theorem Invitee.write_length (i : Invitee) : i.write.length = 33 := by
  simp [Invitee.write]

theorem Invitee.stands {b : Bytes} {o : Nat} {i : Invitee} :
    Stands b o i.write ↔ o + 33 ≤ b.length ∧ Invitee.read b o = .ok i := by
  obtain ⟨account, role⟩ := i
  rw [Invitee.write, stands_key_append, stands_byte]
  simp only [Invitee.read, bind_eq_ok, Role.fromU8_eq_ok, pure_eq_ok, Invitee.mk.injEq]
  constructor
  · rintro ⟨haccount, hlen, hrole⟩
    exact ⟨hlen, role, hrole, haccount, rfl⟩
  · rintro ⟨hlen, _, hrole, haccount, rfl⟩
    exact ⟨haccount, hlen, hrole⟩

end

namespace Create
variable {b : Bytes} {c : Create}

theorem actionsIn_eq_ok {o count acts : Nat} : actionsIn b o count = .ok acts ↔
    b.length = o + count * 33 + acts * actionLen ∧ (acts = 1 ∨ acts = count + 1) := by
  simp only [actionsIn]
  constructor
  · intro h
    split at h
    · next hfresh =>
      rw [Except.ok.injEq] at h
      subst h
      exact ⟨hfresh, .inr rfl⟩
    · split at h
      · next hback =>
        rw [Except.ok.injEq] at h
        subst h
        exact ⟨by omega, .inl rfl⟩
      · simp at h
  · intro ⟨hlen, hshape⟩
    by_cases hfresh : acts = count + 1
    · subst hfresh
      rw [if_pos hlen]
    · have hone : acts = 1 := by omega
      subst hone
      have hlong : b.length ≠ o + count * 33 + (count + 1) * actionLen := by
        rw [Nat.succ_mul, actionLen]
        rw [actionLen] at hlen
        omega
      rw [if_neg hlong, if_pos (by omega)]

theorem length_encode (c : Create) : c.encode.length = 75 + (textBytes c.name).length + 2 +
    (textBytes c.topic).length + 1 + c.invites.length * 33 + c.actions.length * actionLen := by
  have hinvites : (c.invites.flatMap Invitee.write).length = c.invites.length * 33 :=
    length_flatMap Invitee.write_length
  have hactions : (c.actions.flatMap Action.write).length = c.actions.length * actionLen :=
    length_flatMap Action.write_length
  simp only [encode, List.length_singleton, List.length_append, Bytes32.length_toBytes,
    beBytes_length, hinvites, hactions]
  omega

theorem eq_encode_iff (h : c.Fits) : b = c.encode ↔ (
    let o := 75 + (textBytes c.name).length
    let o' := o + 2 + (textBytes c.topic).length
    b.length = o' + 1 + c.invites.length * 33 + c.actions.length * actionLen ∧
      byteAt b 0 = typeCreate ∧ keyAt b 1 = c.channel ∧ keyAt b 33 = c.inst ∧
      byteAt b 65 = c.visibility.toByte ∧ u32At b 66 = c.retentionSecs ∧
      u32At b 70 = c.maxEntries ∧ (byteAt b 74).toNat = (textBytes c.name).length ∧
      slice b 75 (textBytes c.name).length = textBytes c.name ∧
      (u16At b o).toNat = (textBytes c.topic).length ∧
      slice b (o + 2) (textBytes c.topic).length = textBytes c.topic ∧
      (byteAt b o').toNat = c.invites.length ∧
      (List.range c.invites.length).mapM (fun i => Invitee.read b (o' + 1 + i * 33)) =
        .ok c.invites ∧
      (List.range c.actions.length).map (fun i =>
        Action.read b (o' + 1 + c.invites.length * 33 + i * actionLen)) = c.actions) := by
  have hinvites : c.invites.length < 256 := Nat.lt_succ_of_le h.invites
  have hname : (textBytes c.name).length < 256 := Nat.lt_of_le_of_lt h.name (by decide)
  have htopic : (textBytes c.topic).length < 2 ^ 16 := Nat.lt_of_le_of_lt h.topic (by decide)
  rw [← stands_whole, length_encode, encode, stands_byte_append, stands_key_append,
    stands_key_append, stands_byte_append, stands_u32_append, stands_u32_append,
    stands_len8_append hname, stands_part_append, stands_len16_append htopic, stands_part_append,
    stands_len8_append hinvites, stands_append,
    stands_mapM Invitee.write_length (fun _ _ _ => Invitee.stands),
    stands_map Action.write_length (fun _ _ _ => Action.stands),
    length_flatMap Invitee.write_length]
  simp only [Nat.zero_add, Nat.reduceAdd]
  constructor
  · rintro ⟨⟨h₁, h₂, h₃, h₄, h₅, h₆, h₇, h₈, h₉, h₁₀, h₁₁, ⟨-, h₁₂⟩, -, h₁₃⟩, hlen⟩
    exact ⟨hlen.symm, h₁, h₂, h₃, h₄, h₅, h₆, h₇, h₈, h₉, h₁₀, h₁₁, h₁₂, h₁₃⟩
  · rintro ⟨hlen, h₁, h₂, h₃, h₄, h₅, h₆, h₇, h₈, h₉, h₁₀, h₁₁, h₁₂, h₁₃⟩
    exact ⟨⟨h₁, h₂, h₃, h₄, h₅, h₆, h₇, h₈, h₉, h₁₀, h₁₁, ⟨by omega, h₁₂⟩, hlen.ge, h₁₃⟩,
      hlen.symm⟩

theorem decode_eq_ok : decode b = .ok c ↔ b = c.encode ∧ c.Fits := by
  constructor
  · intro h
    simp only [decode, bind_eq_ok, want_eq_ok, malformedIf_eq_ok, Visibility.fromU8_eq_ok,
      utf8_eq_ok, pure_eq_ok, actionsIn_eq_ok, Nat.not_lt, ne_eq, Decidable.not_not, gt_iff_lt] at h
    obtain ⟨_, hroom, _, htype, _, hvisibility, _, hname, _, hroom', name, hname', _, htopic, _,
      hroom'', topic, htopic', _, -, acts, ⟨hlen, hshape⟩, invites, hinvites, hc⟩ := h
    have hn : (textBytes name).length = (byteAt b 74).toNat := by
      rw [← hname', length_slice (by omega)]
    have ht : (textBytes topic).length = (u16At b (75 + (byteAt b 74).toNat)).toNat := by
      rw [← htopic', length_slice (by omega)]
    have hi := (mapM_range_eq_ok.mp hinvites).1
    have hfits : c.Fits := by
      subst hc
      constructor
      · simp only [hi]
        exact Nat.le_of_lt_succ (UInt8.toNat_lt _)
      · simpa only [hn]
      · simpa only [ht]
      · simpa only [List.length_map, List.length_range, hi]
    refine ⟨(eq_encode_iff hfits).mpr ?_, hfits⟩
    subst hc
    simp only [hn, ht, hi, List.length_map, List.length_range, true_and, and_true]
    exact ⟨hlen, htype, hvisibility, hname', htopic', hinvites⟩
  · rintro ⟨heq, hfits⟩
    obtain ⟨hlen, htype, hchannel, hinst, hvisibility, hretention, hentries, hn, hname, ht, htopic,
      hi, hinvites, hactions⟩ := (eq_encode_iff hfits).mp heq
    obtain ⟨hcount, hname', htopic', hshape⟩ := hfits
    simp only [decode, bind_eq_ok, want_eq_ok, malformedIf_eq_ok, Visibility.fromU8_eq_ok,
      utf8_eq_ok, pure_eq_ok, actionsIn_eq_ok, Nat.not_lt, ne_eq, Decidable.not_not, gt_iff_lt,
      hn, ht, hi]
    refine ⟨(), by omega, (), htype, c.visibility, hvisibility, (), hname', (), by omega, c.name,
      hname, (), htopic', (), by omega, c.topic, htopic, (), ?_, c.actions.length,
      ⟨hlen, hshape⟩, c.invites, hinvites, ?_⟩
    · rw [maxMembers]
      omega
    · rw [hactions, hchannel, hinst, hretention, hentries]

/-- A create of either shape is read back as it was written, whatever reads as a create is
written as the bytes it was read from, and no bytes are those of two creates. -/
theorem create_round_trips :
    (∀ c : Create, c.Fits → decode c.encode = .ok c) ∧
    (∀ b c, decode b = .ok c → c.encode = b ∧ c.Fits) ∧
    ∀ c c' : Create, c.Fits → c'.Fits → c.encode = c'.encode → c = c' := by
  refine ⟨fun c h => decode_eq_ok.mpr ⟨rfl, h⟩, fun b c h => ?_, fun c c' h h' heq => ?_⟩
  · obtain ⟨rfl, hfits⟩ := decode_eq_ok.mp h
    exact ⟨rfl, hfits⟩
  · have hread := decode_eq_ok.mpr ⟨rfl, h⟩
    have hread' := decode_eq_ok.mpr ⟨heq, h'⟩
    exact Except.ok.inj (hread.symm.trans hread')

/-- Two accounts asked in, with one signature: what coming back to a direct message asks. -/
def returning : Create where
  channel := 1
  inst := 2
  visibility := .priv
  retentionSecs := 3600
  maxEntries := 0
  name := "é"
  topic := ""
  invites := [⟨5, .member⟩, ⟨6, .admin⟩]
  actions := [⟨9, 10, 11⟩]

theorem create_round_trips_returning : decode returning.encode = .ok returning :=
  create_round_trips.1 returning
    { invites := by decide +kernel, name := by decide +kernel, topic := by decide +kernel,
      actions := .inl rfl }

end Create
end Channel
end Sqex
