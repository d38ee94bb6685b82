import Sqex.Chat.Kept
import Sqex.Lib.Columns

/-! A device's chain over whole runs: a position at which an act was accepted and
recorded is not signed at again, until the device itself puts the chain back. -/
namespace Sqex.Chat
open Call Runs
variable {f : Store → Store} {d : Device}

/-- An accepted act is on record at a place and position: it was recorded there
below 2^63, and since then the device has not put that chain back to it, forgotten
the channel's sequence space, or filed that exchange's chains under another key. -/
def Standing (place : Place) (pos : UInt64) : List Event → Prop
  | [] => False
  | .chained place' pos' :: es =>
    (place' = place ∧ pos' = pos ∧ pos.toNat < 2 ^ 63) ∨ Standing place pos es
  | .putBack scope channel next :: es =>
    ¬ (scope = place.exchange ∧ channel = place.channel ∧ next ≤ pos) ∧ Standing place pos es
  | .cleared scope channel :: es =>
    ¬ (scope = place.exchange ∧ channel = place.channel) ∧ Standing place pos es
  | .refiled src _ chains _ :: es =>
    ¬ (chains = true ∧ src = place.exchange) ∧ Standing place pos es
  | .sealed .. :: es | .counted .. :: es | .signed .. :: es => Standing place pos es

/-- Nothing was ever signed at a position on record, or below the one reported. -/
def SignedOnce (history : List Event) : Prop :=
  ∀ place pos reported input es, (.signed place pos reported input :: es) <:+ history →
    ¬ Standing place pos es ∧ reported ≤ pos

def OnRow (d : Device) : Prop :=
  ∀ place pos, Standing place pos d.history → pos.toNat < 2 ^ 63 ∧
    ∃ row, (d.store.filed place.exchange place.channel).chain = some row ∧
      pos.toInt64 ≤ row.chainSeq

structure Unforked (d : Device) : Prop where
  once : SignedOnce d.history
  onRow : OnRow d

/-- The position is not on record, nor below the one reported. -/
def Free (place : Place) (pos reported : UInt64) (d : Device) : Prop :=
  ¬ Standing place pos d.history ∧ reported ≤ pos

theorem signedOnce_cons {e : Event} {es : List Event} (h : SignedOnce es)
    (he : ∀ place pos reported input, e = .signed place pos reported input →
      ¬ Standing place pos es ∧ reported ≤ pos) : SignedOnce (e :: es) := by
  intro place pos reported input rest hsuffix
  cases List.suffix_cons_iff.mp hsuffix with
  | inl heq =>
    obtain ⟨rfl, rfl⟩ := List.cons.inj heq
    exact he place pos reported input rfl
  | inr hrest => exact h place pos reported input rest hrest

/-- A write that notes an event keeps the device unforked where it keeps the rows
of what stays on record. -/
theorem unforked_noting {event : Device → Event} (h : Unforked d)
    (hsigned : ∀ place pos reported input, event d = .signed place pos reported input →
      ¬ Standing place pos d.history ∧ reported ≤ pos)
    (hrow : ∀ place pos, Standing place pos (event d :: d.history) → pos.toNat < 2 ^ 63 ∧
      ∃ row, ((f d.store).filed place.exchange place.channel).chain = some row ∧
        pos.toInt64 ≤ row.chainSeq) :
    Unforked ((noting f event).after d) :=
  ⟨signedOnce_cons h.once hsigned, hrow⟩

section
variable (C : Crypto) (channel : Bytes32)

theorem unforked_write (hf : Quiet f) : Keeps Unforked (writing f) := by
  intro d h
  refine ⟨h.once, fun place pos hstanding => ?_⟩
  obtain ⟨hpos, row, hrow, hle⟩ := h.onRow place pos hstanding
  exact ⟨hpos, row, (hf.chain _ _ _).trans hrow, hle⟩

theorem unforked_clear : Keeps Unforked (resetSequenceSpace channel) := by
  intro d h
  refine unforked_noting h (by simp) fun place pos hstanding => ?_
  obtain ⟨hother, hold⟩ := hstanding
  obtain ⟨hpos, row, hrow, hle⟩ := h.onRow place pos hold
  refine ⟨hpos, row, ?_, hle⟩
  rw [Store.resetSequenceSpace, Store.put_filed, if_neg]
  · exact hrow
  · intro heq
    exact hother ⟨heq.1.symm, heq.2.symm⟩

theorem standing_lt_next (h : OnRow d) {channel inst : Bytes32} {pos : UInt64}
    (hstanding : Standing ⟨d.store.signingScope channel, inst, channel⟩ pos d.history) :
    pos < (d.store.chain channel).1 := by
  obtain ⟨hpos, row, hrow, hle⟩ := h _ _ hstanding
  rw [Store.chain, hrow]
  exact lt_column_succ hpos hle

theorem unforked_back (next : UInt64) (head : Bytes32) :
    Triple Unforked (fun d => next < (d.store.chain channel).1) (resetChain channel next head)
      fun _ _ => True := by
  intro d h hnext
  refine ⟨?_, fun _ _ => trivial⟩
  refine unforked_noting h (by simp) fun place pos hstanding => ?_
  obtain ⟨hother, hold⟩ := hstanding
  obtain ⟨hpos, row, hrow, hle⟩ := h.onRow place pos hold
  refine ⟨hpos, ?_⟩
  rw [Store.resetChain, Store.put_filed]
  by_cases hhere : place.exchange = d.store.signingScope channel ∧ place.channel = channel
  · -- Put back, but to a position past this one.
    have hlt : pos < next := by
      by_contra hge
      exact hother ⟨hhere.1.symm, hhere.2.symm, by simpa using hge⟩
    have hchain : (d.store.chain channel).1 = row.chainSeq.toUInt64 + 1 := by
      rw [Store.chain, ← hhere.1, ← hhere.2, hrow]
    rw [hchain] at hnext
    have hle' := Int64.le_iff_toInt_le.mp hle
    rw [column_toInt hpos] at hle'
    have hnat := column_toNat (c := row.chainSeq) (by omega)
    have htop := column_lt row.chainSeq
    rw [UInt64.lt_iff_toNat_lt] at hlt hnext
    have hone : (1 : UInt64).toNat = 1 := rfl
    have hne : next ≠ 0 := by
      intro hzero
      rw [hzero] at hlt
      have hzero : (0 : UInt64).toNat = 0 := rfl
      omega
    rw [if_pos hhere]
    refine ⟨⟨(next - 1).toInt64, head⟩, if_neg hne, ?_⟩
    have hsucc : (row.chainSeq.toUInt64 + 1).toNat ≤ row.chainSeq.toUInt64.toNat + 1 := by
      rw [UInt64.toNat_add]
      omega
    have hpred : (next - 1).toNat = next.toNat - 1 := by
      rw [UInt64.toNat_sub_of_le]
      · rfl
      · rw [UInt64.le_iff_toNat_le]
        omega
    rw [Int64.le_iff_toInt_le, column_toInt hpos, column_toInt (by omega)]
    omega
  · rw [if_neg hhere]
    exact ⟨row, hrow, hle⟩

theorem unforked_record (inst : Bytes32) (chainSeq : UInt64) (head : Bytes32) :
    Keeps Unforked (setChain channel inst chainSeq head) := by
  intro d h
  refine unforked_noting h (by simp) fun place pos hstanding => ?_
  have hstepped : ∀ (row : Option ChainRow) (n : Int64),
      n ≤ (ChainRow.stepped row n head).chainSeq ∧
        ∀ r, row = some r → r.chainSeq ≤ (ChainRow.stepped row n head).chainSeq := by
    intro row n
    cases row with
    | none => exact ⟨Int64.le_refl _, fun r hr => by cases hr⟩
    | some r =>
      simp only [ChainRow.stepped, Option.some.injEq, forall_eq']
      split
      · rename_i hge
        exact ⟨Int64.le_refl _, hge⟩
      · rename_i hlt
        exact ⟨Int64.le_of_lt (Int64.not_le.mp hlt), Int64.le_refl _⟩
  rw [Store.setChain, Store.put_filed]
  obtain ⟨hge, hmono⟩ := hstepped (d.store.filed (d.store.signingScope channel) channel).chain
    chainSeq.toInt64
  cases hstanding with
  | inl hnew =>
    obtain ⟨rfl, rfl, hpos⟩ := hnew
    rw [if_pos ⟨rfl, rfl⟩]
    exact ⟨hpos, _, rfl, hge⟩
  | inr hold =>
    obtain ⟨hpos, row, hrow, hle⟩ := h.onRow place pos hold
    by_cases hhere : place.exchange = d.store.signingScope channel ∧ place.channel = channel
    · rw [if_pos hhere]
      rw [hhere.1, hhere.2] at hrow
      exact ⟨hpos, _, rfl, Int64.le_trans hle (hmono row hrow)⟩
    · rw [if_neg hhere]
      exact ⟨hpos, row, hrow, hle⟩

theorem setMsgSeq_chain (s : Store) (channel : Bytes32) (epoch : UInt32) (msgSeq : UInt64)
    (ex : PubKey) (channel' : Bytes32) :
    ((s.setMsgSeq channel epoch msgSeq).filed ex channel').chain =
      (s.filed ex channel').chain := by
  rw [Store.setMsgSeq, Store.put_filed]
  split
  · rename_i h
    rw [h.1, h.2]
  · rfl

theorem unforked_setMsgSeq (epoch : UInt32) (msgSeq : UInt64) (under : Option (Bytes32 × UInt32)) :
    Keeps Unforked (setMsgSeq channel epoch msgSeq under) := by
  intro d h
  refine unforked_noting h (by simp) fun place pos hstanding => ?_
  obtain ⟨hpos, row, hrow, hle⟩ := h.onRow place pos hstanding
  exact ⟨hpos, row, (setMsgSeq_chain _ _ _ _ _ _).trans hrow, hle⟩

theorem unforked_refile (src dst : PubKey) (chains : Bool)
    (hf : ∀ s, (f s).filed = (s.refile src dst chains).filed) :
    Keeps Unforked (refile src dst chains f) := by
  intro d h
  refine unforked_noting h (by simp) fun place pos hstanding => ?_
  obtain ⟨hother, hold⟩ := hstanding
  obtain ⟨hpos, row, hrow, hle⟩ := h.onRow place pos hold
  refine ⟨hpos, row, ?_, hle⟩
  rw [hf]
  simp only [Store.refile]
  by_cases hsrc : place.exchange = src
  · -- The chains of the key that was left stay where they are.
    have hstay : chains = false := by
      by_contra hmoved
      exact hother ⟨by simpa using hmoved, hsrc.symm⟩
    rw [if_pos hsrc, ← hsrc]
    split
    · exact hrow
    · simp [Filed.leftBehind, hstay, hrow]
  · rw [if_neg hsrc]
    by_cases hdst : place.exchange = dst
    · rw [if_pos hdst, ← hdst]
      cases chains <;> simp [Filed.joined, hrow]
    · rw [if_neg hdst]
      exact hrow

theorem unforked_sign (place : Place) (chainSeq reported : UInt64) (input : Bytes) :
    Triple Unforked (Free place chainSeq reported)
      (sign C place chainSeq reported input) fun _ _ => True := by
  refine triple_bind (Q := fun _ _ => True) ?_ fun _ => triple_pure fun _ _ _ => trivial
  intro d h hfree
  refine ⟨unforked_noting h ?_ fun place pos hstanding => h.onRow place pos hstanding,
    fun _ _ => trivial⟩
  intro place' pos' reported' input' heq
  obtain ⟨rfl, rfl, rfl, -⟩ := Event.signed.inj heq
  exact hfree

theorem unforked_remembered :
    Triple Unforked (fun _ => True) (reading (·.chain channel)) fun next d =>
      ∀ inst, Free ⟨d.store.signingScope channel, inst, channel⟩ next.1 0 d := by
  intro d h _
  refine ⟨h, fun next hnext inst => ⟨fun hstanding => ?_, UInt64.zero_le⟩⟩
  obtain rfl := Except.ok.inj hnext
  exact absurd (standing_lt_next h.onRow hstanding) (UInt64.lt_irrefl _)

theorem unforked_next (info : ChannelInfo) :
    Triple Unforked (fun _ => True) (chainAt channel info) fun next d =>
      ∀ inst, Free ⟨d.store.signingScope channel, inst, channel⟩ next.1 info.myChainSeq d := by
  have hnote := keeps_noteIncarnation (fun _ => unforked_write) unforked_clear channel info.inst
  refine triple_bind (keeps_doIf hnote).triple fun _ => ?_
  have hpast : ∀ d, Unforked d → ∀ next, (d.store.chain channel).1 ≤ next → ∀ inst,
      ¬ Standing ⟨d.store.signingScope channel, inst, channel⟩ next d.history := by
    intro d h next hnext inst hstanding
    exact UInt64.not_le.mpr (standing_lt_next h.onRow hstanding) hnext
  -- What is remembered is past every position on record, and the report is taken
  -- only where it is higher still.
  refine triple_bind (triple_reading _) fun mine => ?_
  refine triple_ite (fun hge => triple_pure ?_) fun hlt => triple_pure ?_
  · intro d h hd inst
    refine ⟨?_, hge⟩
    rw [hd.1]
    exact hpast d h _ (UInt64.le_refl _) inst
  · intro d h hd inst
    rw [hd.1] at hlt
    exact ⟨hpast d h _ (UInt64.le_of_lt (UInt64.not_le.mp hlt)) inst, UInt64.le_refl _⟩

theorem unforked_kept : Kept C Unforked Free where
  write _ hf := unforked_write hf
  clear := unforked_clear
  back := unforked_back
  next := unforked_next
  remembered := unforked_remembered
  sign := unforked_sign C
  record := unforked_record
  count channel epoch msgSeq := unforked_setMsgSeq channel epoch msgSeq none

theorem unforked_sealBody (epoch : UInt32) (reported : UInt64) (plain : Bytes)
    (written : Option Unit) : Keeps Unforked (sealBody C channel epoch reported plain written) := by
  have hcount := unforked_setMsgSeq channel epoch
  refine keeps_bind (keeps_reading _) fun msgSeq => keeps_ite ?_ ?_
  · refine keeps_bind (keeps_answered written) fun _ => ?_
    exact keeps_bind (hcount msgSeq none) fun _ => keeps_pure _
  · refine keeps_bind (keeps_reading _) fun key => ?_
    cases key with
    | none => exact keeps_fail _
    | some key =>
      refine keeps_bind keeps_get fun _ => keeps_bind ?_ fun _ => ?_
      · intro d h
        exact unforked_noting h (by simp) fun place pos hstanding => h.onRow place pos hstanding
      · refine keeps_bind (keeps_answered written) fun _ => ?_
        exact keeps_bind (hcount msgSeq _) fun _ => keeps_pure _

def Unrecorded (inst : Bytes32) (d : Device) : Prop :=
  ∀ place pos, .chained place pos ∈ d.history → place.incarnation ≠ inst

theorem chained_of_standing {place : Place} {pos : UInt64} {es : List Event}
    (h : Standing place pos es) : .chained place pos ∈ es := by
  induction es with
  | nil => cases h
  | cons e es ih =>
    refine List.mem_cons.mpr ?_
    cases e with
    | chained place' pos' =>
      cases h with
      | inl hnew => exact Or.inl (by rw [hnew.1, hnew.2.1])
      | inr hold => exact Or.inr (ih hold)
    | putBack | cleared | refiled => exact Or.inr (ih h.2)
    | sealed | counted | signed => exact Or.inr (ih h)

theorem unrecorded_signAction (t : ActionTerms) :
    Triple Unforked (Unrecorded t.place.incarnation) (signAction C t 0)
      fun _ => Unrecorded t.place.incarnation := by
  unfold signAction
  cases t.input C with
  | error e => exact triple_fail _
  | ok input =>
    refine triple_bind (Q := fun _ => Unrecorded t.place.incarnation) ?_ fun _ =>
      triple_pure fun _ _ hd => hd
    intro d h hd
    have hfree : Free t.place t.chainSeq 0 d := by
      refine ⟨fun hstanding => ?_, UInt64.zero_le⟩
      exact hd _ _ (chained_of_standing hstanding) rfl
    refine ⟨(unforked_sign C t.place t.chainSeq 0 input d h hfree).1,
      fun _ _ place pos hmem => ?_⟩
    cases List.mem_cons.mp hmem with
    | inl heq => cases heq
    | inr hold => exact hd place pos hold

theorem unrecorded_signInvites (place : Place) (invites : List Member) (chainSeq : UInt64)
    (prev : Bytes32) :
    Triple Unforked (Unrecorded place.incarnation) (signInvites C place invites chainSeq prev)
      fun _ _ => True := by
  induction invites generalizing chainSeq prev with
  | nil => exact triple_pure fun _ _ _ => trivial
  | cons i invites ih =>
    refine triple_bind triple_get fun d => ?_
    refine Triple.imp ?_ (fun _ hd => hd.2) fun _ _ h => h
    exact triple_bind (unrecorded_signAction C
      ⟨place, d.me, d.device, Event.added, i.account, [i.role.toByte], chainSeq, prev⟩)
      fun action => ih _ _

theorem unforked_createSigned (req : Create) (inst : Bytes32) (ack again : Option Created) :
    Triple Unforked (Unrecorded inst) (createSigned C req inst ack again) fun _ _ => True := by
  refine triple_bind (Q := fun _ _ => True) ?_ fun _ => ?_
  · refine triple_bind (m := place req.channel inst)
      (Q := fun place d => place.incarnation = inst ∧ Unrecorded inst d) ?_ fun place => ?_
    · exact triple_bind (triple_reading _) fun _ => triple_pure fun _ _ hd => ⟨rfl, hd.2⟩
    · intro d h hd
      obtain ⟨rfl, hd⟩ := hd
      refine (triple_bind triple_get fun d' => ?_ :
        Triple Unforked (Unrecorded place.incarnation) _ fun _ _ => True) d h hd
      refine Triple.imp ?_ (fun _ hd => hd.2) fun _ _ h => h
      exact triple_bind (unrecorded_signAction C
        ⟨place, d'.me, d'.device, Event.created, d'.me, _, 0, genesis⟩)
        fun opening => unrecorded_signInvites C place req.invites 1 opening.head
  · refine triple_bind (keeps_answered ack).triple fun ack => ?_
    refine triple_ite (fun _ => triple_pure fun _ _ _ => trivial) fun _ => ?_
    refine Keeps.triple (keeps_bind keeps_get fun d => ?_)
    refine keeps_bind ((unforked_kept C).signActionAt _ _ _ _ _) fun _ => ?_
    exact keeps_bind (keeps_answered again) fun _ => keeps_pure _

def Op.Drawn (d : Device) : Op → Prop
  | .create _ inst _ _ => Unrecorded inst d
  | _ => True

theorem unforked_step {op : Op} (h : Unforked d) (hdrawn : op.Drawn d) :
    Unforked (d.step C op) := by
  have hkept := unforked_kept C
  refine hkept.step (unforked_refile ·) h (fun channel plain a hop => ?_)
    fun req inst ack again hop => ?_
  · subst hop
    exact hkept.sendBody channel plain a h fun ready _ =>
      unforked_sealBody C channel _ _ plain a.written _ (hkept.beforeSealing channel a d h)
  · subst hop
    exact (unforked_createSigned C req inst ack again d h hdrawn).1

end

/-- Over every run of a device, whatever is answered, reported or lost and wherever
it stops and starts again, no position on record is signed at again. -/
theorem signed_once (C : Crypto) (d : Device) (ops : List Op) (hnew : d.history = [])
    (hdrawn : Each (fun d op => op.Drawn d) (Device.step C) d ops) :
    Always (fun d => SignedOnce d.history) (Device.step C) d ops := by
  have hstart : Unforked d := by
    constructor
    · intro place pos reported input es hsuffix
      rw [hnew] at hsuffix
      cases List.suffix_nil.mp hsuffix
    · intro place pos hstanding
      rw [hnew] at hstanding
      cases hstanding
  have hall : Always Unforked (Device.step C) d ops :=
    hdrawn.always (fun d op h hdrawn => unforked_step C h hdrawn) hstart
  exact hall.imp fun d h => h.once

section Example

/-- An exchange that has seen nothing of this device in a channel it reports. -/
def unseen : ChannelInfo where
  visibility := .pub
  epoch := 0
  inst := 8
  last := 0
  myMsgSeq := 0
  myChainSeq := 0
  myChainHead := genesis
  members := []

/-- Two acts, the first answered. -/
theorem signed_once_twice : Always (fun d => SignedOnce d.history) (Device.step Crypto.toy)
    (.fresh 1 1 7)
    [.memberAct 9 (.mute 5 true) (some unseen) (some ()),
      .memberAct 9 (.mute 6 true) (some unseen) (some ())] :=
  signed_once Crypto.toy (.fresh 1 1 7) _ rfl ⟨trivial, trivial, trivial⟩

def Rewound (place : Place) (pos : UInt64) (es : List Event) : Prop :=
  ∃ next, .putBack place.exchange place.channel next ∈ es ∧ next ≤ pos

/-- Two inputs signed at one place and position are one input, a rewinding between
them apart. -/
def NeverForks (history : List Event) : Prop :=
  ∀ place pos reported input es, (.signed place pos reported input :: es) <:+ history →
    ∀ reported' input', .signed place pos reported' input' ∈ es → input' ≠ input →
      Rewound place pos es

/-- The input of a mute by the fresh device at its first position. -/
def muteInput (who : PubKey) : Bytes :=
  match (⟨⟨7, 8, 9⟩, 1, 1, Event.muted, who, [], 0, genesis⟩ : ActionTerms).input Crypto.toy with
  | .ok input => input
  | .error _ => []

/-- An act that was refused, or whose answer was lost, and then another one: both
are signed at the first position. -/
theorem chain_forked : ¬ ∀ d ops, d.history = [] →
    NeverForks (run (Device.step Crypto.toy) d ops).history := by
  intro hall
  have hfork := hall (.fresh 1 1 7)
    [.memberAct 9 (.mute 5 true) (some unseen) none,
      .memberAct 9 (.mute 6 true) (some unseen) none] rfl
  have hrun : (run (Device.step Crypto.toy) (.fresh 1 1 7)
      [.memberAct 9 (.mute 5 true) (some unseen) none,
        .memberAct 9 (.mute 6 true) (some unseen) none]).history =
      [.signed ⟨7, 8, 9⟩ 0 0 (muteInput 6), .signed ⟨7, 8, 9⟩ 0 0 (muteInput 5)] := by
    rfl
  rw [hrun] at hfork
  obtain ⟨next, hmem, _⟩ := hfork ⟨7, 8, 9⟩ 0 0 (muteInput 6) _ List.suffix_rfl 0 (muteInput 5)
    (by simp) (by decide +kernel)
  simp at hmem

end Example
end Sqex.Chat
