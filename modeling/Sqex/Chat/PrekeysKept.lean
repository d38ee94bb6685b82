import Sqex.Chat.PrekeyMoves

/-! Prekeys over restarts: no id is given out twice, and the secret of every prekey that may be
served is kept. -/
namespace Sqex.Chat
open Std Runs
variable {rows : PrekeyRows} {f ph : PoolPhase}

def PrekeyRows.Keeps (rows : PrekeyRows) (C : Crypto) (q : Prekey) : Prop :=
  ∃ secret, (rows.slot q.id).secret = some secret ∧ q.publicHalf = C.x25519Public secret

namespace Keeper

/-- Ids are not reused, and secrets not lost. -/
structure Sound (C : Crypto) (s : Keeper) : Prop where
  once : ∀ a ∈ s.minted, ∀ b ∈ s.minted, a.1 = b.1 → a.2 = b.2
  above : ∀ a ∈ s.minted, a.1 < s.rows.nextIdAt s.clock
  reported : ∀ n ∈ s.reported, n ≤ s.rows.nextIdAt s.clock
  kept : ∀ q ∈ s.onOffer, s.rows.Keeps C q

def Leads (s : Keeper) (goes : UInt32 → Prop) (n : Nat) : Prop :=
  (∃ id ∈ s.rows, ¬ goes id ∧ n ≤ id.toNat + 1) ∨
    (∀ id ∈ s.rows, goes id) ∧ n ≤ (max s.clock 1).toNat

structure Spares (s : Keeper) (goes : UInt32 → Prop) : Prop where
  minted : ∀ a ∈ s.minted, s.Leads goes (a.1.toNat + 1)
  reported : ∀ n ∈ s.reported, s.Leads goes n.toNat
  offered : ∀ q ∈ s.onOffer, ¬ goes q.id

def Unspent (s : Keeper) (id : UInt32) : Prop := ∃ secret, s.rows.slot id = .oneTime secret

/-- Where nothing is lost: prekeys that are dropped or spent are not on offer, and what is left
still leads past every id that was minted or reported. -/
def Safe (s : Keeper) (turn : PoolTurn) : Prop :=
  match s.phase, turn with
  | .idle, .count .refused | .wiping _ _, .wipe => s.Spares s.Unspent
  | .discarding _, .clear (.ok next) _ _ | .restarting _ _, .clear (.ok next) _ _ =>
    next ≤ s.rows.nextIdAt s.clock
  | .ready served p, .mint _ _ => p.nextId.toNat + (shortOf p served).toNat < 2 ^ 32
  | .sending p ids _, .publish .refused _ =>
    s.Spares fun id => id ∈ ids ∧ id ∈ p.unpublished ∧ s.Unspent id
  | .renewing p, .renew _ _ =>
    p.nextId.toNat + 1 < 2 ^ 32 ∧
      ∀ f, p.fallback = some f → ∀ q ∈ s.onOffer, q.id ≠ f.1
  | .idle, .absorb ids _ => ∀ id ∈ ids, id ≠ 0 → s.Unspent id → ∀ q ∈ s.onOffer, q.id ≠ id
  | _, _ => True

end Keeper

theorem toNat_max_uint32 (a b : UInt32) : (max a b).toNat = max a.toNat b.toNat := by
  have hmax : max a b = if a ≤ b then b else a := rfl
  rw [hmax]
  split
  · rename_i hle
    exact (Nat.max_eq_right (UInt32.le_iff_toNat_le.mp hle)).symm
  · rename_i hgt
    have hlt := UInt32.lt_iff_toNat_lt.mp (UInt32.not_le.mp hgt)
    exact (Nat.max_eq_left (Nat.le_of_lt hlt)).symm

namespace PrekeyRows

theorem le_foldl_next {ids : List UInt32} (hids : ∀ id ∈ ids, id.toNat + 1 < 2 ^ 32)
    (z : UInt32) (n : Nat) : n ≤ (ids.foldl (fun m id => max m (id + 1)) z).toNat ↔
      n ≤ z.toNat ∨ ∃ id ∈ ids, n ≤ id.toNat + 1 := by
  induction ids generalizing z with
  | nil => simp
  | cons id ids ih =>
    have hnext : (id + 1).toNat = id.toNat + 1 := (Pool.nextId_succ (hids id (by simp))).1
    rw [List.foldl_cons, ih fun i hi => hids i (by simp [hi]), toNat_max_uint32, hnext]
    simp only [List.mem_cons, exists_eq_or_imp]
    rw [← or_assoc, le_max_iff]

theorem le_nextIdAt_iff (hrows : ∀ id ∈ rows, id.toNat + 1 < 2 ^ 32) (now : UInt32) (n : Nat) :
    n ≤ (rows.nextIdAt now).toNat ↔
      (∃ id ∈ rows, n ≤ id.toNat + 1) ∨ (∀ id, id ∉ rows) ∧ n ≤ (max now 1).toNat := by
  have hle : ∀ n, n ≤ rows.nextId.toNat ↔ n ≤ 0 ∨ ∃ id ∈ rows, n ≤ id.toNat + 1 := by
    intro n
    have hfold := le_foldl_next (fun id hid => hrows id (ExtTreeMap.mem_keys.mp hid)) 0 n
    simpa [nextId, ExtTreeMap.mem_keys] using hfold
  have hzero : rows.nextId = 0 ↔ ∀ id, id ∉ rows := by
    constructor
    · intro hnext id hid
      have hone := (hle 1).mpr (.inr ⟨id, hid, by omega⟩)
      rw [hnext] at hone
      exact absurd hone (by decide)
    · intro hnone
      have hnot : ¬ 1 ≤ rows.nextId.toNat := by
        rw [hle]
        rintro (hone | ⟨id, hid, -⟩)
        · omega
        · exact hnone id hid
      exact UInt32.toNat_inj.mp (by simpa using (by omega : rows.nextId.toNat = 0))
  unfold nextIdAt
  by_cases hempty : rows.nextId = 0
  · have hnone := hzero.mp hempty
    rw [if_pos hempty]
    constructor
    · exact fun h => .inr ⟨hnone, h⟩
    · rintro (⟨id, hid, -⟩ | ⟨-, h⟩)
      · exact absurd hid (hnone id)
      · exact h
  · rw [if_neg hempty, hle]
    have hsome : ¬ ∀ id, id ∉ rows := fun hnone => hempty (hzero.mpr hnone)
    constructor
    · rintro (hn | hid)
      · obtain ⟨id, hid⟩ := not_forall.mp hsome
        exact .inl ⟨id, not_not.mp hid, by omega⟩
      · exact .inl hid
    · rintro (hid | ⟨hnone, -⟩)
      · exact .inr hid
      · exact absurd hnone hsome

theorem nextIdAt_congr {rows' : PrekeyRows} (hrows : ∀ id ∈ rows, id.toNat + 1 < 2 ^ 32)
    (hsame : ∀ id, id ∈ rows' ↔ id ∈ rows) (now : UInt32) :
    rows'.nextIdAt now = rows.nextIdAt now := by
  refine UInt32.toNat_inj.mp (Nat.le_antisymm ?_ ?_)
  · rw [le_nextIdAt_iff hrows]
    have hrows' : ∀ id ∈ rows', id.toNat + 1 < 2 ^ 32 := fun id hid => hrows id ((hsame id).mp hid)
    have hself := (le_nextIdAt_iff hrows' now (rows'.nextIdAt now).toNat).mp (Nat.le_refl _)
    simpa only [hsame] using hself
  · rw [le_nextIdAt_iff fun id hid => hrows id ((hsame id).mp hid)]
    have hself := (le_nextIdAt_iff hrows now (rows.nextIdAt now).toNat).mp (Nat.le_refl _)
    simpa only [hsame] using hself

end PrekeyRows

namespace Keeper
variable {C : Crypto} {s : Keeper} {p p' : Pool}

/-- A pool in memory holds what the rows do, and gives out ids past those given out. -/
structure InStep (s : Keeper) (p : Pool) : Prop where
  slots : ∀ id, p.slot id = s.rows.slot id
  apart : p.Apart
  minted : ∀ a ∈ s.minted, a.1 < p.nextId
  reported : ∀ n ∈ s.reported, n ≤ p.nextId

/-- What holds as far as a top-up has come. -/
def InPhase (C : Crypto) (s : Keeper) : Prop :=
  match s.phase with
  | .idle | .discarding _ | .loading _ => True
  | .wiping _ fresh => ∀ id, fresh.slot id = .free
  | .wiped _ fresh => (∀ id, fresh.slot id = .free) ∧ ∀ id, ¬ s.Unspent id
  | .restarting _ p | .ready _ p | .sent p | .renewing p => s.InStep p
  | .sending p _ rest => s.InStep p ∧ ∀ q ∈ rest, s.rows.Keeps C q
  | .offering fallback => s.rows.Keeps C fallback

structure Whole (C : Crypto) (s : Keeper) : Prop extends Sound C s where
  formed : s.rows.Formed
  single : s.rows.Single
  given : ∀ id ∈ s.rows, ∃ a ∈ s.minted, a.1 = id
  phased : InPhase C s

structure Leading (C : Crypto) (after : Keeper) (ok : Prop) : Prop where
  keeps : ok → Whole C after
  only : Sound C after → ok

theorem Whole.leading {after : Keeper} {ok : Prop} (h : Whole C after) (hok : ok) :
    Leading C after ok := ⟨fun _ => h, fun _ => hok⟩

section
variable (h : Whole C s)
include h

theorem Whole.bound : ∀ id ∈ s.rows, id.toNat + 1 < 2 ^ 32 := by
  intro id hid
  obtain ⟨a, ha, rfl⟩ := h.given id hid
  have habove := UInt32.lt_iff_toNat_lt.mp (h.above a ha)
  have hlt := (s.rows.nextIdAt s.clock).toNat_lt
  omega

theorem Whole.held {id : UInt32} (hid : s.rows.slot id ≠ .free) : ∃ a ∈ s.minted, a.1 = id :=
  h.given id (h.formed.mem_iff.mpr hid)

theorem Whole.below (hp : s.InStep p) : p.Below := by
  intro id hid
  rw [hp.slots] at hid
  obtain ⟨a, ha, rfl⟩ := h.held hid
  exact hp.minted a ha

theorem Whole.loaded (seed : Bytes32) : s.InStep (s.rows.pool seed s.clock) := by
  have hnext : (s.rows.pool seed s.clock).nextId = max (s.rows.nextIdAt s.clock) 1 := rfl
  have hle : (s.rows.nextIdAt s.clock).toNat ≤ (s.rows.pool seed s.clock).nextId.toNat := by
    rw [hnext, toNat_max_uint32]
    exact Nat.le_max_left _ _
  refine ⟨s.rows.pool_slot seed s.clock h.single, s.rows.pool_apart seed s.clock h.single,
    fun a ha => ?_, fun n hn => ?_⟩
  · exact UInt32.lt_iff_toNat_lt.mpr
      (Nat.lt_of_lt_of_le (UInt32.lt_iff_toNat_lt.mp (h.above a ha)) hle)
  · exact UInt32.le_iff_toNat_le.mpr
      (Nat.le_trans (UInt32.le_iff_toNat_le.mp (h.reported n hn)) hle)

theorem Whole.phase (hphase : InPhase C { s with phase := f }) :
    Whole C { s with phase := f } :=
  ⟨⟨h.once, h.above, h.reported, h.kept⟩, h.formed, h.single, h.given, hphase⟩

theorem Whole.rewritten {offered : List Prekey} (hformed : rows.Formed)
    (hfree : ∀ id, rows.slot id = .free ↔ s.rows.slot id = .free)
    (hfallback : ∀ id secret, rows.slot id = .fallback secret → s.rows.slot id = .fallback secret)
    (hkept : ∀ q ∈ offered, rows.Keeps C q)
    (hphase : InPhase C { s with rows := rows, onOffer := offered, phase := ph }) :
    Whole C { s with rows := rows, onOffer := offered, phase := ph } := by
  have hmem : ∀ id, id ∈ rows ↔ id ∈ s.rows := fun id => by
    rw [hformed.mem_iff, h.formed.mem_iff, ne_eq, hfree]
  have hnext := PrekeyRows.nextIdAt_congr h.bound hmem s.clock
  refine ⟨⟨h.once, fun a ha => ?_, fun n hn => ?_, hkept⟩, hformed, ?_, fun id hid => ?_, hphase⟩
  · exact hnext ▸ h.above a ha
  · exact hnext ▸ h.reported n hn
  · intro id id' secret secret' hid hid'
    exact h.single id id' secret secret' (hfallback id secret hid) (hfallback id' secret' hid')
  · exact h.given id ((hmem id).mp hid)

theorem Whole.resaved {offered : List Prekey} (hformed : rows.Formed)
    (hslots : ∀ id, rows.slot id = s.rows.slot id)
    (hkept : ∀ q ∈ offered, q ∈ s.onOffer ∨ s.rows.Keeps C q)
    (hphase : InPhase C { s with rows := rows, onOffer := offered, phase := f }) :
    Whole C { s with rows := rows, onOffer := offered, phase := f } := by
  refine h.rewritten hformed (fun id => by rw [hslots]) (fun id secret hid => hslots id ▸ hid)
    (fun q hq => ?_) hphase
  obtain ⟨secret, hsecret, hpublic⟩ := (hkept q hq).elim (h.kept q) id
  exact ⟨secret, (congrArg Slot.secret (hslots q.id)).trans hsecret, hpublic⟩

theorem Whole.dropped {goes : UInt32 → Prop} (hformed : rows.Formed)
    (hgone : ∀ id, goes id → rows.slot id = .free)
    (hstays : ∀ id, ¬ goes id → rows.slot id = s.rows.slot id)
    (hphase : InPhase C { s with rows := rows, phase := ph }) :
    Leading C { s with rows := rows, phase := ph } (s.Spares goes) := by
  have hmem : ∀ id, id ∈ rows ↔ id ∈ s.rows ∧ ¬ goes id := by
    intro id
    rw [hformed.mem_iff, h.formed.mem_iff]
    by_cases hid : goes id
    · simp [hgone id hid, hid]
    · simp [hstays id hid, hid]
  have hleads : ∀ n : Nat, n ≤ (rows.nextIdAt s.clock).toNat ↔ s.Leads goes n := by
    intro n
    rw [PrekeyRows.le_nextIdAt_iff fun id hid => h.bound id ((hmem id).mp hid).1]
    unfold Leads
    simp only [hmem, and_assoc, not_and, not_not]
  have hkept : ∀ q ∈ s.onOffer, rows.Keeps C q ↔ ¬ goes q.id := by
    intro q hq
    obtain ⟨secret, hsecret, hpublic⟩ := h.kept q hq
    by_cases hid : goes q.id
    · simp [PrekeyRows.Keeps, hgone q.id hid, Slot.secret, hid]
    · simp only [PrekeyRows.Keeps, hstays q.id hid, hid, not_false_eq_true, iff_true]
      exact ⟨secret, hsecret, hpublic⟩
  constructor
  · intro hspares
    refine ⟨⟨h.once, fun a ha => ?_, fun n hn => ?_, fun q hq => ?_⟩, hformed, ?_,
      fun id hid => h.given id ((hmem id).mp hid).1, hphase⟩
    · exact UInt32.lt_iff_toNat_lt.mpr ((hleads _).mpr (hspares.minted a ha))
    · exact UInt32.le_iff_toNat_le.mpr ((hleads _).mpr (hspares.reported n hn))
    · exact (hkept q hq).mpr (hspares.offered q hq)
    · intro id id' secret secret' hid hid'
      have hnot : ∀ i k, rows.slot i = .fallback k → s.rows.slot i = .fallback k := by
        intro i k hi
        by_cases hgoes : goes i
        · simp [hgone i hgoes] at hi
        · rwa [hstays i hgoes] at hi
      exact h.single id id' secret secret' (hnot id secret hid) (hnot id' secret' hid')
  · intro hsound
    refine ⟨fun a ha => (hleads _).mp ?_, fun n hn => (hleads _).mp ?_, fun q hq => ?_⟩
    · exact UInt32.lt_iff_toNat_lt.mp (hsound.above a ha)
    · exact UInt32.le_iff_toNat_le.mp (hsound.reported n hn)
    · exact (hkept q hq).mp (hsound.kept q hq)

end

theorem wipe_formed (hformed : rows.Formed) : rows.wipeOneTime.Formed := by
  intro id r hr
  rw [PrekeyRows.wipeOneTime, ExtTreeMap.getElem?_filter', Option.filter_eq_some_iff] at hr
  exact hformed id r hr.1

theorem wipe_slot (hformed : s.rows.Formed) (id : UInt32) :
    (s.Unspent id → s.rows.wipeOneTime.slot id = .free) ∧
      (¬ s.Unspent id → s.rows.wipeOneTime.slot id = s.rows.slot id) := by
  unfold Unspent PrekeyRows.slot PrekeyRows.wipeOneTime
  rw [ExtTreeMap.getElem?_filter']
  cases hr : s.rows[id]? with
  | none => simp
  | some r =>
    rw [Option.filter_some, hformed.isOneTime hr]
    obtain ⟨hone, hslot⟩ | ⟨hone, -, k, hslot⟩ | ⟨hone, -, k, hslot⟩ := hformed.row hr
    · simp [hone, hslot]
    · simp [hone, hslot]
    · simp [hone, hslot]

theorem Whole.wiped (h : Whole C s)
    (hphase : InPhase C { s with rows := s.rows.wipeOneTime, phase := f }) :
    Leading C { s with rows := s.rows.wipeOneTime, phase := f } (s.Spares s.Unspent) :=
  h.dropped (wipe_formed h.formed) (fun id => (wipe_slot h.formed id).1)
    (fun id => (wipe_slot h.formed id).2) hphase

theorem save_of_free (hformed : rows.Formed) (hfree : ∀ id, p.slot id = .free)
    (hnone : ∀ id secret, rows.slot id ≠ .oneTime secret) (order : Pool.SaveOrder) :
    rows.save p order = rows := by
  refine ExtTreeMap.ext_getElem? fun id => ?_
  obtain ⟨hspent, hfallback, hone⟩ := Pool.of_slot_free (hfree id)
  obtain ⟨published, hrow⟩ := rows.getElem?_withOneTime p order id
  rw [PrekeyRows.getElem?_save, if_neg hspent, PrekeyRows.getElem?_withFallback, hfallback, hrow,
    hone, PrekeyRows.getElem?_kept]
  cases hr : rows[id]? with
  | none => rfl
  | some r =>
    have hslot := hnone id
    unfold PrekeyRows.slot at hslot
    rw [hr] at hslot
    obtain ⟨hone, -⟩ | ⟨hone, -⟩ | ⟨-, -, k, hk⟩ := hformed.row hr
    · simp [Option.filter_some, hone]
    · simp [Option.filter_some, hone]
    · exact absurd hk (hslot k)

theorem Whole.counted (h : Whole C s) (served : Option UInt16) : Whole C (s.counted served) := by
  refine h.phase ?_
  unfold InPhase
  dsimp only
  split_ifs <;> trivial

theorem Whole.load (h : Whole C s) (seed : Bytes32) (served : Option UInt16) :
    Whole C (s.loaded seed served) := by
  refine h.phase ?_
  have hstep := h.loaded seed
  unfold InPhase
  dsimp only
  split_ifs
  · exact ⟨hstep.slots, hstep.apart, hstep.minted, hstep.reported⟩
  · exact ⟨hstep.slots, hstep.apart, hstep.minted, hstep.reported⟩

theorem Whole.cleared (h : Whole C s) (next : UInt32)
    (hphase : InPhase C { s.cleared (.ok next) with phase := f }) :
    Leading C { s.cleared (.ok next) with phase := f } (next ≤ s.rows.nextIdAt s.clock) := by
  constructor
  · intro hnext
    refine ⟨⟨h.once, h.above, fun n hn => ?_, fun q hq => by cases hq⟩, h.formed, h.single,
      h.given, hphase⟩
    rcases mem_concat.mp hn with hold | rfl
    · exact h.reported n hold
    · exact hnext
  · exact fun hsound => hsound.reported next (by simp [Keeper.cleared])

theorem resumed_slot (next : UInt32) (order : Pool.SaveOrder) (id : UInt32) :
    (resumed p next order).slot id = p.slot id := by
  rw [Pool.resumed_eq]
  rfl

theorem InStep.resumed (hp : s.InStep p) (next : UInt32) (order : Pool.SaveOrder)
    (a : PoolAnswer UInt32) (ha : ∀ n, a = .ok n → n = next) :
    (s.cleared a).InStep (resumed p next order) := by
  have hnext : (Chat.resumed p next order).nextId = max (max p.nextId next) 1 := by
    rw [Pool.resumed_eq]
  have hle : ∀ n : UInt32, n ≤ p.nextId ∨ n ≤ next → n ≤ (Chat.resumed p next order).nextId := by
    intro n hn
    rw [hnext, UInt32.le_iff_toNat_le, toNat_max_uint32, toNat_max_uint32]
    simp only [UInt32.le_iff_toNat_le] at hn
    omega
  have hrows : (s.cleared a).rows = s.rows := by cases a <;> rfl
  have hminted : (s.cleared a).minted = s.minted := by cases a <;> rfl
  refine ⟨fun id => ?_, ?_, fun m hm => ?_, fun n hn => ?_⟩
  · rw [resumed_slot, hp.slots, hrows]
  · rw [Pool.resumed_eq]
    exact ⟨hp.apart.oneTime, hp.apart.fallback⟩
  · rw [hminted] at hm
    have hlt := UInt32.lt_iff_toNat_lt.mp (hp.minted m hm)
    have hle' := UInt32.le_iff_toNat_le.mp (hle p.nextId (.inl (UInt32.le_refl _)))
    exact UInt32.lt_iff_toNat_lt.mpr (Nat.lt_of_lt_of_le hlt hle')
  · refine hle n ?_
    cases a with
    | ok reported =>
      rcases mem_concat.mp hn with hold | rfl
      · exact .inl (hp.reported n hold)
      · exact .inr (ha n rfl ▸ UInt32.le_refl _)
    | refused | lost => exact .inl (hp.reported n hn)

theorem new_slot (seed : Bytes32) (id : UInt32) : (Pool.new seed).slot id = .free := by
  simp [Pool.slot, Pool.new, Pool.fallbackAt]

structure GaveOut (p p' : Pool) (new : List (UInt32 × Bytes32)) : Prop where
  apart : p'.Apart
  below : p'.Below
  le : p.nextId ≤ p'.nextId
  becomes : ∀ id, (p.slot id).Becomes (p'.slot id)
  old : ∀ id, id < p.nextId → (p'.slot id = .free ↔ p.slot id = .free)
  fresh : ∀ a ∈ new, p.nextId ≤ a.1 ∧ p'.slot a.1 ≠ .free
  once : ∀ a ∈ new, ∀ b ∈ new, a.1 = b.1 → a.2 = b.2
  only : ∀ id, p.nextId ≤ id → p'.slot id ≠ .free → ∃ a ∈ new, a.1 = id

theorem GaveOut.inStep {new : List (UInt32 × Bytes32)} (hg : GaveOut p p' new) (hp : s.InStep p)
    (hslots : ∀ id, rows.slot id = p'.slot id) :
    InStep { s with rows := rows, minted := s.minted ++ new, phase := f } p' := by
  have hle := UInt32.le_iff_toNat_le.mp hg.le
  refine ⟨fun id => (hslots id).symm, hg.apart, fun a ha => ?_, fun n hn => ?_⟩
  · cases List.mem_append.mp ha with
    | inl hold =>
      have hlt := UInt32.lt_iff_toNat_lt.mp (hp.minted a hold)
      exact UInt32.lt_iff_toNat_lt.mpr (Nat.lt_of_lt_of_le hlt hle)
    | inr hnew => exact hg.below a.1 (hg.fresh a hnew).2
  · exact UInt32.le_trans (hp.reported n hn) hg.le

theorem Whole.gaveOut (h : Whole C s) {new : List (UInt32 × Bytes32)} (hg : GaveOut p p' new)
    (hp : s.InStep p) (hformed : rows.Formed) (hslots : ∀ id, rows.slot id = p'.slot id)
    (hkept : ∀ q ∈ s.onOffer, p'.slot q.id = p.slot q.id)
    (hphase : InPhase C { s with rows := rows, minted := s.minted ++ new, phase := ph }) :
    Whole C { s with rows := rows, minted := s.minted ++ new, phase := ph } := by
  have hbelow := h.below hp
  have hmem : ∀ id, id ∈ rows ↔ p'.slot id ≠ .free := fun id => by
    rw [hformed.mem_iff, hslots]
  have hold : ∀ id ∈ s.rows, id ∈ rows := by
    intro id hid
    rw [h.formed.mem_iff, ← hp.slots] at hid
    rw [hmem, ne_eq, hg.old id (hbelow id hid)]
    exact hid
  have hnew : ∀ id ∈ rows, id ∉ s.rows → p.nextId ≤ id := by
    intro id hid hnot
    rw [h.formed.mem_iff, not_not, ← hp.slots] at hnot
    by_contra hlt
    rw [hmem, ne_eq, hg.old id (UInt32.not_le.mp hlt)] at hid
    exact hid hnot
  have hbound : ∀ id ∈ rows, id.toNat + 1 < 2 ^ 32 := by
    intro id hid
    have hlt := UInt32.lt_iff_toNat_lt.mp (hg.below id ((hmem id).mp hid))
    have hmax := p'.nextId.toNat_lt
    omega
  -- What led past the ids given out before leads there still.
  have hleads : ∀ n : Nat, n ≤ p.nextId.toNat → n ≤ (s.rows.nextIdAt s.clock).toNat →
      n ≤ (rows.nextIdAt s.clock).toNat := by
    intro n hn hle
    rw [PrekeyRows.le_nextIdAt_iff h.bound] at hle
    rw [PrekeyRows.le_nextIdAt_iff hbound]
    obtain ⟨id, hid, hle⟩ | ⟨hnone, hle⟩ := hle
    · exact .inl ⟨id, hold id hid, hle⟩
    · by_cases hempty : ∀ id, id ∉ rows
      · exact .inr ⟨hempty, hle⟩
      · obtain ⟨id, hid⟩ := not_forall.mp hempty
        have hge := UInt32.le_iff_toNat_le.mp (hnew id (not_not.mp hid) (hnone id))
        exact .inl ⟨id, not_not.mp hid, by omega⟩
  refine ⟨⟨fun a ha b hb hab => ?_, fun a ha => ?_, fun n hn => ?_, fun q hq => ?_⟩, hformed, ?_,
    fun id hid => ?_, hphase⟩
  · cases List.mem_append.mp ha with
    | inl ha =>
      cases List.mem_append.mp hb with
      | inl hb => exact h.once a ha b hb hab
      | inr hb =>
        have hlt := hp.minted a ha
        rw [hab] at hlt
        exact absurd (hg.fresh b hb).1 (UInt32.not_le.mpr hlt)
    | inr ha =>
      cases List.mem_append.mp hb with
      | inl hb =>
        have hlt := hp.minted b hb
        rw [← hab] at hlt
        exact absurd (hg.fresh a ha).1 (UInt32.not_le.mpr hlt)
      | inr hb => exact hg.once a ha b hb hab
  · refine UInt32.lt_iff_toNat_lt.mpr ?_
    cases List.mem_append.mp ha with
    | inl ha =>
      exact hleads _ (UInt32.lt_iff_toNat_lt.mp (hp.minted a ha))
        (UInt32.lt_iff_toNat_lt.mp (h.above a ha))
    | inr ha =>
      exact (PrekeyRows.le_nextIdAt_iff hbound _ _).mpr
        (.inl ⟨a.1, (hmem a.1).mpr (hg.fresh a ha).2, Nat.le_refl _⟩)
  · exact UInt32.le_iff_toNat_le.mpr (hleads _ (UInt32.le_iff_toNat_le.mp (hp.reported n hn))
      (UInt32.le_iff_toNat_le.mp (h.reported n hn)))
  · obtain ⟨secret, hsecret, hpublic⟩ := h.kept q hq
    refine ⟨secret, ?_, hpublic⟩
    rw [hslots, hkept q hq, hp.slots]
    exact hsecret
  · intro id id' secret secret' hid hid'
    have hone := Pool.of_slot_fallback ((hslots id).symm.trans hid)
    have htwo := Pool.of_slot_fallback ((hslots id').symm.trans hid')
    rw [hone] at htwo
    exact congrArg Prod.fst (Option.some.inj htwo)
  · by_cases hin : id ∈ s.rows
    · obtain ⟨a, ha, hid⟩ := h.given id hin
      exact ⟨a, List.mem_append_left _ ha, hid⟩
    · obtain ⟨a, ha, haid⟩ := hg.only id (hnew id hid hin) ((hmem id).mp hid)
      exact ⟨a, List.mem_append_right _ ha, haid⟩

end Keeper
end Sqex.Chat
