import Sqex.Chat.Kept
import Sqex.Lib.Columns

/-! A device's counters over whole runs: what two sealings under one key have in
common, and when the row a counter is taken from is the one it was left in. -/
namespace Sqex.Chat
open Call Runs
variable {f : Store → Store} {d : Device} {channel key : Bytes32} {epoch : UInt32}
  {reported : UInt64}

structure Sealing where
  channel : Bytes32
  key : Bytes32
  epoch : UInt32
  msgSeq : UInt64
  plain : Bytes
  deriving DecidableEq

def Event.sealing : Event → Option Sealing
  | .sealed channel key epoch msgSeq plain => some ⟨channel, key, epoch, msgSeq, plain⟩
  | _ => none

def sealings (history : List Event) : List Sealing := history.filterMap Event.sealing

def NoRepeat (history : List Event) : Prop :=
  ∀ a ∈ sealings history, ∀ b ∈ sealings history, a.key = b.key → a.epoch = b.epoch →
    a.msgSeq = b.msgSeq → a.plain = b.plain

/-- The row that holds the counter of the last sealing under a key and an epoch:
the one it was recorded in, wherever that has been moved since, and none once it
was forgotten, dropped, or started again for another epoch. -/
def keptAt (key : Bytes32) (epoch : UInt32) : List Event → Option (PubKey × Bytes32)
  | [] => none
  | .sealed _ key' epoch' _ _ :: es =>
    if key' = key ∧ epoch' = epoch then none else keptAt key epoch es
  | .counted scope channel held under :: es =>
    if under = some (key, epoch) then (if held = epoch then some (scope, channel) else none)
    else if keptAt key epoch es = some (scope, channel) ∧ held ≠ epoch then none
    else keptAt key epoch es
  | .cleared scope channel :: es =>
    if keptAt key epoch es = some (scope, channel) then none else keptAt key epoch es
  | .refiled src dst _ taken :: es =>
    match keptAt key epoch es with
    | some (ex, channel) =>
      if ex = src then (if src = dst ∨ taken channel = true then none else some (dst, channel))
      else some (ex, channel)
    | none => none
  | .signed .. :: es | .chained .. :: es | .putBack .. :: es => keptAt key epoch es

structure Covers (history : List Event) (key : Bytes32) (epoch : UInt32) (row : CursorRow) :
    Prop where
  under : row.epoch = epoch
  counters : ∀ a ∈ sealings history, a.key = key → a.epoch = epoch →
    (a.msgSeq.toNat : Int) ≤ row.msgSeq.toInt

structure Counting (d : Device) : Prop where
  unrepeated : NoRepeat d.history
  row : ∀ key epoch at_, keptAt key epoch d.history = some at_ →
    ∃ row, (d.store.filed at_.1 at_.2).cursor = some row ∧ Covers d.history key epoch row

theorem sealings_cons {e : Event} (h : e.sealing = none) (es : List Event) :
    sealings (e :: es) = sealings es := by
  simp [sealings, h]

theorem counting_noting {event : Device → Event} (h : Counting d)
    (hevent : (event d).sealing = none)
    (hrow : ∀ key epoch at_, keptAt key epoch (event d :: d.history) = some at_ →
      ∃ row, ((f d.store).filed at_.1 at_.2).cursor = some row ∧
        Covers d.history key epoch row) : Counting ((noting f event).after d) := by
  have hsame : sealings (event d :: d.history) = sealings d.history :=
    sealings_cons hevent d.history
  constructor
  · intro a ha b hb
    have ha' : a ∈ sealings d.history := hsame ▸ ha
    have hb' : b ∈ sealings d.history := hsame ▸ hb
    exact h.unrepeated a ha' b hb'
  · intro key epoch at_ hkept
    obtain ⟨row, hget, hcovers⟩ := hrow key epoch at_ hkept
    refine ⟨row, hget, hcovers.under, fun a ha => hcovers.counters a ?_⟩
    exact hsame ▸ ha

theorem counting_aside {event : Device → Event} (hevent : ∀ d, (event d).sealing = none)
    (hkept : ∀ key epoch d, keptAt key epoch (event d :: d.history) =
      keptAt key epoch d.history)
    (hcursor : ∀ s ex channel, ((f s).filed ex channel).cursor = (s.filed ex channel).cursor) :
    Keeps Counting (noting f event) := by
  intro d h
  refine counting_noting h (hevent d) fun key epoch at_ hat => ?_
  rw [hkept] at hat
  rw [hcursor]
  exact h.row key epoch at_ hat

theorem counting_write (hf : Quiet f) : Keeps Counting (writing f) := by
  intro d h
  refine ⟨h.unrepeated, fun key epoch at_ hkept => ?_⟩
  obtain ⟨row, hrow, hcovers⟩ := h.row key epoch at_ hkept
  obtain ⟨row', hrow', hseq, hepoch⟩ := hf.counter _ _ _ row hrow
  refine ⟨row', hrow', hepoch.trans hcovers.under, fun a ha hkey hsame => ?_⟩
  rw [hseq]
  exact hcovers.counters a ha hkey hsame

theorem counting_clear (channel : Bytes32) : Keeps Counting (resetSequenceSpace channel) := by
  intro d h
  refine counting_noting h rfl fun key epoch at_ hkept => ?_
  simp only [keptAt] at hkept
  split at hkept
  · cases hkept
  · rename_i hother
    obtain ⟨row, hrow, hcovers⟩ := h.row key epoch at_ hkept
    refine ⟨row, ?_, hcovers⟩
    rw [Store.resetSequenceSpace, Store.put_filed, if_neg]
    · exact hrow
    · intro heq
      exact hother (by rw [hkept, ← heq.1, ← heq.2])

theorem resetChain_cursor (s : Store) (channel : Bytes32) (next : UInt64) (head : Bytes32)
    (ex : PubKey) (channel' : Bytes32) :
    ((s.resetChain channel next head).filed ex channel').cursor =
      (s.filed ex channel').cursor := by
  rw [Store.resetChain, Store.put_filed]
  split
  · rename_i h
    rw [h.1, h.2]
  · rfl

theorem setChain_cursor (s : Store) (channel : Bytes32) (chainSeq : UInt64) (head : Bytes32)
    (ex : PubKey) (channel' : Bytes32) :
    ((s.setChain channel chainSeq head).filed ex channel').cursor =
      (s.filed ex channel').cursor := by
  rw [Store.setChain, Store.put_filed]
  split
  · rename_i h
    rw [h.1, h.2]
  · rfl

theorem counting_refile (src dst : PubKey) (chains : Bool)
    (hf : ∀ s, (f s).filed = (s.refile src dst chains).filed) :
    Keeps Counting (refile src dst chains f) := by
  intro d h
  refine counting_noting h rfl fun key epoch at_ hkept => ?_
  simp only [keptAt] at hkept
  cases hold : keptAt key epoch d.history with
  | none => simp [hold] at hkept
  | some old =>
    obtain ⟨ex, channel⟩ := old
    obtain ⟨row, hrow, hcovers⟩ := h.row key epoch _ hold
    simp only [hold] at hkept
    refine ⟨row, ?_, hcovers⟩
    rw [hf]
    simp only [Store.refile]
    by_cases hsrc : ex = src
    · rw [if_pos hsrc] at hkept
      split at hkept
      · cases hkept
      · -- Moved: the place was free.
        rename_i hfree
        obtain rfl := Option.some.inj hkept
        rw [not_or] at hfree
        have hnone : (d.store.filed dst channel).cursor = none := by simpa using hfree.2
        have hne : dst ≠ src := fun heq => hfree.1 heq.symm
        subst hsrc
        simp [hne, Filed.joined, hnone, hrow]
    · rw [if_neg hsrc] at hkept
      obtain rfl := Option.some.inj hkept
      rw [if_neg hsrc]
      by_cases hdst : ex = dst
      · subst hdst
        simp [Filed.joined, hrow]
      · rw [if_neg hdst]
        exact hrow

/-- What a counter's record leaves in its row: at least the counter, and at least
what was there, unless the row went on to another epoch. -/
theorem counted_spec (row : Option CursorRow) (epoch : UInt32) (n : Int64) :
    n ≤ (CursorRow.counted row epoch n).msgSeq ∧
      ∀ old, row = some old → (CursorRow.counted row epoch n).epoch = old.epoch →
        old.msgSeq ≤ (CursorRow.counted row epoch n).msgSeq := by
  cases row with
  | none => exact ⟨Int64.le_refl _, fun old hold => by cases hold⟩
  | some old =>
    have htop : n ≤ (if old.msgSeq ≤ n then n else old.msgSeq) ∧
        old.msgSeq ≤ (if old.msgSeq ≤ n then n else old.msgSeq) := by
      split
      · rename_i hle
        exact ⟨Int64.le_refl _, hle⟩
      · rename_i hgt
        exact ⟨Int64.le_of_lt (Int64.not_le.mp hgt), Int64.le_refl _⟩
    simp only [CursorRow.counted, Option.some.injEq, forall_eq']
    by_cases hhigher : epoch > old.epoch
    · simp only [if_pos hhigher]
      refine ⟨Int64.le_refl _, fun hsame => ?_⟩
      rw [if_pos (UInt32.le_of_lt hhigher)] at hsame
      rw [hsame] at hhigher
      exact absurd hhigher (UInt32.lt_irrefl _)
    · simp only [if_neg hhigher]
      exact ⟨htop.1, fun _ => htop.2⟩

theorem counting_setMsgSeq {msgSeq : UInt64} {under : Option (Bytes32 × UInt32)} (h : Counting d)
    (hunder : ∀ key epoch', under = some (key, epoch') → ∀ a ∈ sealings d.history,
      a.key = key → a.epoch = epoch' → (a.msgSeq.toNat : Int) ≤ msgSeq.toInt64.toInt) :
    Counting ((setMsgSeq channel epoch msgSeq under).after d) := by
  refine counting_noting h rfl fun key epoch' at_ hkept => ?_
  obtain ⟨hnew, hold⟩ := counted_spec
    (d.store.filed (d.store.signingScope channel) channel).cursor epoch msgSeq.toInt64
  simp only [keptAt] at hkept
  rw [Store.setMsgSeq, Store.put_filed]
  split at hkept
  · -- Recorded for this key.
    rename_i hthis
    split at hkept
    · rename_i hheld
      obtain rfl := Option.some.inj hkept
      rw [if_pos ⟨rfl, rfl⟩]
      refine ⟨_, rfl, hheld, fun a ha hkey hsame => ?_⟩
      exact Int.le_trans (hunder key epoch' hthis a ha hkey hsame)
        (Int64.le_iff_toInt_le.mp hnew)
    · cases hkept
  · split at hkept
    · cases hkept
    · rename_i hstays
      obtain ⟨row, hrow, hcovers⟩ := h.row key epoch' at_ hkept
      by_cases hhere : at_.1 = d.store.signingScope channel ∧ at_.2 = channel
      · rw [if_pos hhere]
        rw [hhere.1, hhere.2] at hrow
        have hheld : (CursorRow.counted
            (d.store.filed (d.store.signingScope channel) channel).cursor epoch
            msgSeq.toInt64).epoch = epoch' := by
          by_contra hne
          exact hstays ⟨by rw [hkept, ← hhere.1, ← hhere.2], hne⟩
        refine ⟨_, rfl, hheld, fun a ha hkey hsame => ?_⟩
        exact Int.le_trans (hcovers.counters a ha hkey hsame) (Int64.le_iff_toInt_le.mp
          (hold row hrow (hheld.trans hcovers.under.symm)))
      · rw [if_neg hhere]
        exact ⟨row, hrow, hcovers⟩

theorem counting_kept (C : Crypto) : Kept C Counting fun _ _ _ _ => True where
  write _ hf := counting_write hf
  clear := counting_clear
  back channel next head := Keeps.triple
    (counting_aside (fun _ => rfl) (fun _ _ _ => rfl) (resetChain_cursor · channel next head))
  next channel info := by
    have hnote := keeps_noteIncarnation (fun _ => counting_write) counting_clear channel info.inst
    have hchain : Keeps Counting (chainAt channel info) := by
      refine keeps_bind (keeps_doIf hnote) fun _ => keeps_bind (keeps_reading _) fun mine => ?_
      exact keeps_ite (keeps_pure _) (keeps_pure _)
    exact hchain.triple.imp (fun _ h => h) fun _ _ _ _ => trivial
  remembered channel := (keeps_reading _).triple.imp (fun _ h => h) fun _ _ _ _ => trivial
  sign place chainSeq reported input := Keeps.triple (keeps_bind
    (counting_aside (fun _ => rfl) (fun _ _ _ => rfl) fun _ _ _ => rfl) fun _ => keeps_pure _)
  record channel inst chainSeq head :=
    counting_aside (fun _ => rfl) (fun _ _ _ => rfl) (setChain_cursor · channel chainSeq head)
  count channel epoch msgSeq d h := counting_setMsgSeq h fun _ _ hnone => by cases hnone

/-- What a sealing is sealed under is sound: the counter stays below the signed
column's top, and the counters already sealed under the key and the epoch are known,
by the row it is taken from or by what is reported. -/
structure Sound (d : Device) (channel : Bytes32) (epoch : UInt32) (reported : UInt64)
    (key : Bytes32) : Prop where
  below : (max (d.store.counter channel epoch) reported).toNat + 1 < 2 ^ 63
  known : keptAt key epoch d.history = some (d.store.signingScope channel, channel) ∨
    ∀ a ∈ sealings d.history, a.key = key → a.epoch = epoch → a.msgSeq ≤ reported

theorem below_nextMsgSeq (h : Counting d) (hsound : Sound d channel epoch reported key)
    {a : Sealing} (ha : a ∈ sealings d.history) (hkey : a.key = key) (hepoch : a.epoch = epoch) :
    a.msgSeq.toNat < (d.store.nextMsgSeq channel epoch reported).toNat := by
  have hle : a.msgSeq ≤ max (d.store.counter channel epoch) reported := by
    cases hsound.known with
    | inl hkept =>
      obtain ⟨row, hrow, hcovers⟩ := h.row key epoch _ hkept
      have hcount := hcovers.counters a ha hkey hepoch
      have hcounter : d.store.counter channel epoch = row.msgSeq.toUInt64 := by
        simp [Store.counter, Store.cursor, hrow, hcovers.under]
      have hnat := column_toNat (c := row.msgSeq) (by omega)
      refine UInt64.le_trans ?_ (le_max_uint64 _ _).1
      rw [hcounter, UInt64.le_iff_toNat_le]
      omega
    | inr hreported =>
      exact UInt64.le_trans (hreported a ha hkey hepoch) (le_max_uint64 _ _).2
  have hnat := UInt64.le_iff_toNat_le.mp hle
  have hbelow := hsound.below
  rw [Store.nextMsgSeq, UInt64.toNat_add]
  have hone : (1 : UInt64).toNat = 1 := rfl
  omega

theorem nextMsgSeq_below (hsound : Sound d channel epoch reported key) :
    (d.store.nextMsgSeq channel epoch reported).toNat < 2 ^ 63 := by
  have hbelow := hsound.below
  rw [Store.nextMsgSeq, UInt64.toNat_add]
  have hone : (1 : UInt64).toNat = 1 := rfl
  omega

theorem counting_seal {msgSeq : UInt64} {plain : Bytes} (h : Counting d)
    (habove : ∀ a ∈ sealings d.history, a.key = key →
      a.epoch = epoch → a.msgSeq.toNat < msgSeq.toNat) :
    Counting ((noting id fun _ => .sealed channel key epoch msgSeq plain).after d) := by
  have hnew : sealings (.sealed channel key epoch msgSeq plain :: d.history) =
      ⟨channel, key, epoch, msgSeq, plain⟩ :: sealings d.history := rfl
  constructor
  · change NoRepeat (.sealed channel key epoch msgSeq plain :: d.history)
    intro a ha b hb hkey hepoch hseq
    rw [hnew] at ha hb
    cases List.mem_cons.mp ha with
    | inl ha =>
      cases List.mem_cons.mp hb with
      | inl hb => rw [ha, hb]
      | inr hb =>
        have hlt := habove b hb (by rw [← hkey, ha]) (by rw [← hepoch, ha])
        rw [← hseq, ha] at hlt
        exact absurd hlt (Nat.lt_irrefl _)
    | inr ha =>
      cases List.mem_cons.mp hb with
      | inl hb =>
        have hlt := habove a ha (by rw [hkey, hb]) (by rw [hepoch, hb])
        rw [hseq, hb] at hlt
        exact absurd hlt (Nat.lt_irrefl _)
      | inr hb => exact h.unrepeated a ha b hb hkey hepoch hseq
  · -- The row of this key is not known to hold the counter until it is recorded.
    intro key' epoch' at_ hkept
    change keptAt key' epoch' (.sealed channel key epoch msgSeq plain :: d.history) = _ at hkept
    simp only [keptAt] at hkept
    split at hkept
    · cases hkept
    · rename_i hother
      obtain ⟨row, hrow, hcovers⟩ := h.row key' epoch' at_ hkept
      refine ⟨row, hrow, hcovers.under, ?_⟩
      intro a ha hkey hsame
      cases List.mem_cons.mp (hnew ▸ ha) with
      | inl heq =>
        rw [heq] at hkey hsame
        exact absurd ⟨hkey, hsame⟩ hother
      | inr hold => exact hcovers.counters a hold hkey hsame

theorem counting_sealBody (C : Crypto) (plain : Bytes) (written : Option Unit) (h : Counting d)
    (hsound : epoch ≠ 0 → ∀ key, d.store.key channel epoch = some key →
      Sound d channel epoch reported key) :
    Counting ((sealBody C channel epoch reported plain written).after d) := by
  have hcount : ∀ n, Keeps Counting (setMsgSeq channel epoch n none) :=
    fun n => (counting_kept C).count channel epoch n
  have hall : Triple Counting (· = d) (sealBody C channel epoch reported plain written)
      fun _ _ => True := by
    refine triple_bind (triple_reading _) fun msgSeq => triple_ite (fun _ => ?_) fun hepoch => ?_
    · refine (keeps_bind (keeps_answered written) fun _ => ?_).triple
      exact keeps_bind (hcount msgSeq) fun _ => keeps_pure _
    · refine triple_bind (triple_reading _) fun key => ?_
      cases key with
      | none => exact triple_fail _
      | some key =>
        refine triple_bind triple_get fun d' => ?_
        -- Sealed, and the counter is above every one sealed before it.
        refine triple_bind (Q := fun _ s => msgSeq.toNat < 2 ^ 63 ∧ ∀ a ∈ sealings s.history,
          a.key = key → a.epoch = epoch → a.msgSeq.toNat ≤ msgSeq.toNat) ?_ fun _ => ?_
        · intro s hs hthis
          obtain ⟨_, hkey, hseq, rfl⟩ := hthis
          have hsound := hsound hepoch key hkey.symm
          rw [hseq]
          refine ⟨counting_seal hs fun a ha => below_nextMsgSeq hs hsound ha, fun _ _ => ?_⟩
          refine ⟨nextMsgSeq_below hsound, fun a ha hk he => ?_⟩
          cases List.mem_cons.mp ha with
          | inl heq => rw [heq]
          | inr hold => exact Nat.le_of_lt (below_nextMsgSeq hs hsound hold hk he)
        · refine triple_bind (triple_answered written) fun _ => ?_
          refine triple_bind (Q := fun _ _ => True) ?_ fun _ => triple_pure fun _ _ _ => trivial
          intro s hs hthis
          refine ⟨counting_setMsgSeq hs fun key' epoch' heq a ha hk he => ?_, fun _ _ => trivial⟩
          obtain ⟨rfl, rfl⟩ := Prod.mk.inj (Option.some.inj heq)
          rw [column_toInt hthis.1]
          exact Int.ofNat_le.mpr (hthis.2 a ha hk he)
  exact (hall d h rfl).1

def Op.Sound (C : Crypto) (d : Device) : Op → Prop
  | .sendBody channel _ a => ∀ ready, (beforeSealing C channel a).result d = .ok ready →
      ready.1 ≠ 0 → ∀ key,
      ((beforeSealing C channel a).after d).store.key channel ready.1 = some key →
      Chat.Sound ((beforeSealing C channel a).after d) channel ready.1 ready.2.myMsgSeq key
  | _ => True

theorem counting_createSigned (C : Crypto) (req : Create) (inst : Bytes32)
    (ack again : Option Created) : Keeps Counting (createSigned C req inst ack again) := by
  have hkept := counting_kept C
  have hsign : ∀ t, Keeps Counting (signAction C t 0) :=
    fun t => ((hkept.signAction t 0).imp (fun _ _ => trivial) fun _ _ h => h).keeps
  have hinvites : ∀ place invites chainSeq prev,
      Keeps Counting (signInvites C place invites chainSeq prev) := by
    intro place invites
    induction invites with
    | nil => exact fun _ _ => keeps_pure _
    | cons i invites ih =>
      exact fun chainSeq prev => keeps_bind keeps_get fun d =>
        keeps_bind (hsign _) fun action => ih _ _
  refine keeps_bind ?_ fun _ => keeps_bind (keeps_answered ack) fun ack => keeps_ite ?_ ?_
  · refine keeps_bind (keeps_bind (keeps_reading _) fun _ => keeps_pure _) fun place => ?_
    refine keeps_bind keeps_get fun d => keeps_bind (hsign _) fun opening => ?_
    exact hinvites _ _ _ _
  · exact keeps_pure _
  · refine keeps_bind keeps_get fun d => keeps_bind (hkept.signActionAt _ _ _ _ _) fun _ => ?_
    exact keeps_bind (keeps_answered again) fun _ => keeps_pure _

theorem counting_step (C : Crypto) {op : Op} (h : Counting d) (hsound : op.Sound C d) :
    Counting (d.step C op) := by
  have hkept := counting_kept C
  refine hkept.step (counting_refile ·) h (fun channel plain a hop => ?_)
    fun req inst ack again hop => ?_
  · subst hop
    exact hkept.sendBody channel plain a h fun ready hready =>
      counting_sealBody C plain a.written (hkept.beforeSealing channel a d h) (hsound ready hready)
  · subst hop
    exact counting_createSigned C req inst ack again d h

/-- Over every run of a device whose sealings are sound, whatever else is answered,
reported or lost, no counter repeats under one key. -/
theorem counters_unrepeated (C : Crypto) (d : Device) (ops : List Op) (hnew : d.history = [])
    (hsound : Each (fun d op => op.Sound C d) (Device.step C) d ops) :
    Always (fun d => NoRepeat d.history) (Device.step C) d ops := by
  have hstart : Counting d := by
    constructor
    · intro a ha
      rw [hnew] at ha
      cases ha
    · intro key epoch at_ hkept
      rw [hnew] at hkept
      cases hkept
  have hall : Always Counting (Device.step C) d ops :=
    hsound.always (fun d op h hsound => counting_step C h hsound) hstart
  exact hall.imp fun d h => h.unrepeated

section Example

/-- A private channel at its first epoch, whose exchange counts nothing of this
device's. -/
def uncounted : ChannelInfo where
  visibility := .priv
  epoch := 1
  inst := 8
  last := 0
  myMsgSeq := 0
  myChainSeq := 0
  myChainHead := genesis
  members := []

def uncountedAnswers : SendAnswers :=
  let idle : Collected := ⟨none, [], none, none⟩
  { epoch :=
      { info := some uncounted
        collected := idle
        devices := none
        minted := ⟨0, none, none, none, idle, none⟩
        settled := none
        reports := [] }
    info := some uncounted
    written := some ()
    expiresAfter := 0
    posted := some () }

def sendUncounted (plain : Bytes) : Op := .sendBody 9 plain uncountedAnswers

theorem sound_uncounted {d' : Device} {plain : Bytes}
    (hready : (beforeSealing Crypto.toy 9 uncountedAnswers).result d = .ok (1, uncounted))
    (hafter : (beforeSealing Crypto.toy 9 uncountedAnswers).after d = d')
    (hkey : d'.store.key 9 1 = some 5) (hbelow : (max (d'.store.counter 9 1) 0).toNat + 1 < 2 ^ 63)
    (hkept : keptAt 5 1 d'.history = some (d'.store.signingScope 9, 9) ∨
      sealings d'.history = []) : (sendUncounted plain).Sound Crypto.toy d := by
  intro ready hr _ key hk
  obtain rfl := Except.ok.inj (hready.symm.trans hr)
  rw [hafter] at hk ⊢
  obtain rfl := Option.some.inj (hkey.symm.trans hk)
  refine ⟨hbelow, ?_⟩
  cases hkept with
  | inl hkept => exact Or.inl hkept
  | inr hnone => exact Or.inr (by simp [hnone])

/-- Two bodies sent in a row, on a report that counts neither. -/
theorem counters_unrepeated_twice : Always (fun d => NoRepeat d.history)
    (Device.step Crypto.toy) (.fresh 1 1 7)
    [.arrive 9 1 5, sendUncounted [97], sendUncounted [98]] := by
  refine counters_unrepeated Crypto.toy (.fresh 1 1 7) _ rfl ⟨trivial, ?_, ?_, trivial⟩
  · exact sound_uncounted (by decide +kernel) rfl (by decide +kernel) (by decide +kernel)
      (Or.inr (by decide +kernel))
  · exact sound_uncounted (by decide +kernel) rfl (by decide +kernel) (by decide +kernel)
      (Or.inl (by decide +kernel))

/-- The account moves home, and the channel's counter goes with what the old home
filed, while the channel is still ordered there: the next body takes the first
counter again. -/
theorem counter_repeated : ¬ ∀ d ops, d.history = [] →
    Always (fun d => NoRepeat d.history) (Device.step Crypto.toy) d ops := by
  intro hall
  have hmoved := hall (.fresh 1 1 7)
    [.arrive 9 1 5, sendUncounted [97], .moveHome 11, .home 9 7, sendUncounted [98]] rfl
  have hend := always_iff_prefixes.mp hmoved _ List.prefix_rfl
  have hsealings : sealings (run (Device.step Crypto.toy) (.fresh 1 1 7)
      [.arrive 9 1 5, sendUncounted [97], .moveHome 11, .home 9 7,
        sendUncounted [98]]).history =
      [⟨9, 5, 1, 1, [98]⟩, ⟨9, 5, 1, 1, [97]⟩] := by
    decide +kernel
  unfold NoRepeat at hend
  rw [hsealings] at hend
  have hsame := hend ⟨9, 5, 1, 1, [98]⟩ (by simp) ⟨9, 5, 1, 1, [97]⟩ (by simp) rfl rfl rfl
  cases hsame

end Example

end Sqex.Chat
