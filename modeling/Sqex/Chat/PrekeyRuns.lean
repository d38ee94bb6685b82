import Sqex.Chat.PrekeysKept

/-! Runs of a device's prekeys: each step, and where every one of them keeps what is served. -/
namespace Sqex.Chat
open Std Runs

theorem Slot.Becomes.refl (k : Slot) : k.Becomes k := by cases k <;> trivial

namespace Keeper
variable {C : Crypto} {s : Keeper} {p p' : Pool}

theorem InPhase.congr {t : Keeper} (hphase : InPhase C s) (hph : t.phase = s.phase)
    (hrows : t.rows = s.rows) (hminted : t.minted = s.minted)
    (hreported : t.reported = s.reported) : InPhase C t := by
  obtain ⟨rows, clock, ph, onOffer, minted, reported⟩ := s
  obtain ⟨rows', clock', ph', onOffer', minted', reported'⟩ := t
  dsimp only at hph hrows hminted hreported
  subst hph hrows hminted hreported
  cases ph' with
  | restarting served p | ready served p | sent p | renewing p =>
    exact ⟨hphase.slots, hphase.apart, hphase.minted, hphase.reported⟩
  | sending p ids rest =>
    have hp := hphase.1
    exact ⟨⟨hp.slots, hp.apart, hp.minted, hp.reported⟩, hphase.2⟩
  | idle | discarding served => trivial
  | wiping served fresh | wiped served fresh => exact hphase
  | loading served => trivial
  | offering fallback => exact hphase

theorem extended_gaveOut {new : List Prekey} (hx : Pool.Extended C p p' new) (hbelow : p.Below)
    (hle : p.nextId ≤ p'.nextId) : GaveOut p p' (secretsOf p' new) := by
  have hfree : ∀ id, p.nextId ≤ id → p.slot id = .free := by
    intro id hid
    by_contra hheld
    exact absurd (hbelow id hheld) (UInt32.not_lt.mpr hid)
  refine ⟨hx.apart, hx.below, hle, fun id => ?_, fun id hid => by rw [hx.old id hid],
    fun a ha => ?_, fun a ha b hb hab => ?_, fun id hid hheld => ?_⟩
  · by_cases hid : id < p.nextId
    · rw [hx.old id hid]
      exact .refl _
    · rw [hfree id (UInt32.not_lt.mp hid)]
      trivial
  · obtain ⟨q, hq, rfl⟩ := List.mem_map.mp ha
    obtain ⟨hge, secret, hslot, -⟩ := hx.minted q hq
    exact ⟨hge, by simp [hslot]⟩
  · obtain ⟨q, -, rfl⟩ := List.mem_map.mp ha
    obtain ⟨q', -, rfl⟩ := List.mem_map.mp hb
    dsimp only at hab ⊢
    rw [hab]
  · obtain ⟨q, hq, hqid⟩ := hx.only id hid hheld
    exact ⟨(q.id, p'.oneTime[q.id]?.getD 0), List.mem_map_of_mem hq, hqid⟩

theorem Whole.mint (h : Whole C s) (hp : s.InStep p) (served : Option UInt16)
    (draw : Nat → Bytes32) (order : Pool.SaveOrder) :
    Leading C (s.mint C served p draw order)
      (p.nextId.toNat + (shortOf p served).toNat < 2 ^ 32) := by
  have hbelow := h.below hp
  have hlength : ((List.range (shortOf p served).toNat).map draw).length =
      (shortOf p served).toNat := by simp
  constructor
  · intro hroom
    have hx := Pool.mintEach_extended C ((List.range (shortOf p served).toNat).map draw) hp.apart
      hbelow (by omega)
    have hnext := Pool.nextId_mintEach C p ((List.range (shortOf p served).toNat).map draw)
      (by omega)
    have hg := extended_gaveOut hx hbelow (UInt32.le_iff_toNat_le.mpr (by omega))
    unfold Keeper.mint Pool.mintOneTime
    generalize p.mintEach C ((List.range (shortOf p served).toNat).map draw) = done at hx hg
    have hslots : ∀ id, (s.rows.save done.1 order).slot id = done.1.slot id :=
      PrekeyRows.save_slot h.formed hg.apart (fun id => hp.slots id ▸ hg.becomes id) order
    refine h.gaveOut hg hp (PrekeyRows.save_formed h.formed order) hslots (fun q hq => ?_) ?_
    · obtain ⟨secret, hsecret, -⟩ := h.kept q hq
      refine hx.old q.id (hbelow q.id fun hfree => ?_)
      rw [← hp.slots, hfree] at hsecret
      cases hsecret
    · have hstep := fun f => hg.inStep (f := f) hp hslots
      unfold InPhase
      dsimp only
      split_ifs
      · exact hstep _
      · trivial
      · refine ⟨hstep _, fun q hq => ?_⟩
        cases List.mem_append.mp hq with
        | inl hold =>
          obtain ⟨id, -, hforSecret⟩ := List.mem_filterMap.mp hold
          obtain ⟨secret, hsecret, rfl⟩ := Option.map_eq_some_iff.mp hforSecret
          have hslot := hp.apart.oneTime id secret hsecret
          have hlt := hbelow id (by simp [hslot])
          refine ⟨secret, ?_, rfl⟩
          rw [Prekey.forSecret_id, hslots, hx.old id hlt, hslot]
          rfl
        | inr hnew =>
          obtain ⟨-, secret, hslot, hpublic⟩ := hx.minted q hnew
          exact ⟨secret, by rw [hslots, hslot]; rfl, hpublic⟩
  · intro hsound
    by_contra hroom
    obtain ⟨q, hq, hlast⟩ := Pool.mintEach_last C (p := p)
      ((List.range (shortOf p served).toNat).map draw) (by omega)
    have habove := UInt32.lt_iff_toNat_lt.mp
      (hsound.above (q.id, _) (List.mem_append_right _ (List.mem_map_of_mem hq)))
    have hlt := ((s.mint C served p draw order).rows.nextIdAt
      (s.mint C served p draw order).clock).toNat_lt
    dsimp only at habove
    omega

theorem fallback_gaveOut (C : Crypto) (hapart : p.Apart) (hbelow : p.Below)
    (hroom : p.nextId.toNat + 1 < 2 ^ 32) (secret : Bytes32) :
    GaveOut p (p.mintFallback C secret).1 [(p.nextId, secret)] := by
  have hslot := Pool.mintFallback_slot C hbelow.free secret
  have hlt := (Pool.nextId_succ hroom).2
  refine ⟨Pool.mintFallback_apart C hapart hbelow.free secret, fun id hid => ?_,
    UInt32.le_of_lt hlt, fun id => ?_, fun id hid => ?_, fun a ha => ?_, fun a ha b hb _ => ?_,
    fun id hid hheld => ?_⟩
  · by_cases hnext : id = p.nextId
    · rw [hnext]
      exact hlt
    · refine UInt32.lt_trans (hbelow id fun hfree => hid ?_) hlt
      rw [hslot, if_neg hnext, (Pool.of_slot_free hfree).2.1]
      simpa using hfree
  · rw [hslot]
    split_ifs with hnext hold
    · rw [hnext, hbelow.free]
      trivial
    · obtain ⟨held, hheld⟩ := Option.isSome_iff_exists.mp hold
      rw [hapart.fallback id held (Pool.fallbackAt_eq_some.mp hheld)]
      trivial
    · exact .refl _
  · rw [hslot, if_neg (UInt32.ne_of_lt hid)]
    split_ifs with hold
    · obtain ⟨held, hheld⟩ := Option.isSome_iff_exists.mp hold
      simp [hapart.fallback id held (Pool.fallbackAt_eq_some.mp hheld)]
    · rfl
  · obtain rfl := List.mem_singleton.mp ha
    exact ⟨UInt32.le_refl _, by simp [hslot]⟩
  · rw [List.mem_singleton.mp ha, List.mem_singleton.mp hb]
  · refine ⟨(p.nextId, secret), by simp, ?_⟩
    by_contra hnext
    have hfree : p.slot id = .free := by
      by_contra hold
      exact absurd (hbelow id hold) (UInt32.not_lt.mpr hid)
    rw [hslot, if_neg (Ne.symm hnext), (Pool.of_slot_free hfree).2.1] at hheld
    exact hheld (by simpa using hfree)

theorem Whole.renew (h : Whole C s) (hp : s.InStep p) (secret : Bytes32)
    (order : Pool.SaveOrder) : Leading C (s.renew C p secret order)
      (p.nextId.toNat + 1 < 2 ^ 32 ∧
        ∀ f, p.fallback = some f → ∀ q ∈ s.onOffer, q.id ≠ f.1) := by
  have hbelow := h.below hp
  have hslot := Pool.mintFallback_slot C hbelow.free secret
  have hslots : p.nextId.toNat + 1 < 2 ^ 32 → ∀ id,
      (s.rows.save (p.mintFallback C secret).1 order).slot id =
        (p.mintFallback C secret).1.slot id := by
    intro hroom
    have hg := fallback_gaveOut C hp.apart hbelow hroom secret
    exact PrekeyRows.save_slot h.formed hg.apart (fun id => hp.slots id ▸ hg.becomes id) order
  constructor
  · rintro ⟨hroom, hothers⟩
    have hg := fallback_gaveOut C hp.apart hbelow hroom secret
    refine h.gaveOut hg hp (PrekeyRows.save_formed h.formed order) (hslots hroom)
      (fun q hq => ?_) ⟨secret, ?_, rfl⟩
    · obtain ⟨held, hheld, -⟩ := h.kept q hq
      have hlt := hbelow q.id fun hfree => by simp [← hp.slots, hfree, Slot.secret] at hheld
      have hnot : p.fallbackAt q.id = none := by
        by_contra hsome
        obtain ⟨k, hk⟩ := Option.ne_none_iff_exists'.mp hsome
        exact hothers _ (Pool.fallbackAt_eq_some.mp hk) q hq rfl
      rw [hslot, if_neg (UInt32.ne_of_lt hlt), hnot]
      rfl
    · have hnew : (p.mintFallback C secret).1.slot p.nextId = .fallback secret := by
        rw [hslot, if_pos rfl]
      exact congrArg Slot.secret ((hslots hroom p.nextId).trans hnew)
  · intro hsound
    have hroom : p.nextId.toNat + 1 < 2 ^ 32 := by
      have habove := UInt32.lt_iff_toNat_lt.mp
        (hsound.above (p.nextId, secret) (List.mem_append_right _ (by simp [Pool.mintFallback])))
      have hlt := ((s.renew C p secret order).rows.nextIdAt
        (s.renew C p secret order).clock).toNat_lt
      dsimp only at habove
      omega
    refine ⟨hroom, fun f hf q hq hid => ?_⟩
    -- The fallback before is spent, and its secret gone.
    have hat : p.fallbackAt f.1 = some f.2 := Pool.fallbackAt_eq_some.mpr hf
    have hlt := hbelow f.1 (by simp [hp.apart.fallback f.1 f.2 hf])
    obtain ⟨held, hheld, -⟩ := hsound.kept q hq
    have hspent : (s.rows.save (p.mintFallback C secret).1 order).slot q.id = .spent := by
      rw [hslots hroom, hslot, hid, if_neg (UInt32.ne_of_lt hlt), hat]
      rfl
    have hnone : ((s.renew C p secret order).rows.slot q.id).secret = none :=
      congrArg Slot.secret hspent
    rw [hnone] at hheld
    cases hheld

theorem InStep.saved (hp : s.InStep p) (hformed : s.rows.Formed) (order : Pool.SaveOrder)
    (id : UInt32) : (s.rows.save p order).slot id = s.rows.slot id := by
  rw [PrekeyRows.save_slot hformed hp.apart (fun id => hp.slots id ▸ .refl _) order, hp.slots]

theorem InStep.congr (hp : s.InStep p) {t : Keeper}
    (hslots : ∀ id, t.rows.slot id = s.rows.slot id) (hminted : t.minted = s.minted)
    (hreported : t.reported = s.reported) : t.InStep p :=
  ⟨fun id => (hp.slots id).trans (hslots id).symm, hp.apart, hminted ▸ hp.minted,
    hreported ▸ hp.reported⟩

theorem InStep.markPublished (hp : s.InStep p) (ids : List UInt32) :
    s.InStep (p.markPublished ids) :=
  ⟨hp.slots, ⟨hp.apart.oneTime, hp.apart.fallback⟩, hp.minted, hp.reported⟩

theorem Whole.publish_ok (h : Whole C s) (hp : s.InStep p) (ids : List UInt32)
    {rest : List Prekey} (hrest : ∀ q ∈ rest, s.rows.Keeps C q) (order : Pool.SaveOrder) :
    Whole C (s.publish p ids rest (.ok ()) order) := by
  have hp' := hp.markPublished ((rest.take maxPublish).map (·.id))
  refine h.resaved h.formed (fun _ => rfl) (fun q hq => ?_) ?_
  · exact (List.mem_append.mp hq).imp_right fun hnew => hrest q (List.mem_of_mem_take hnew)
  · unfold InPhase
    dsimp only
    split_ifs
    · exact hp'.congr (fun _ => rfl) rfl rfl
    · exact ⟨hp'.congr (fun _ => rfl) rfl rfl, fun q hq => hrest q (List.mem_of_mem_drop hq)⟩

theorem Whole.publish_lost (h : Whole C s) (hp : s.InStep p) (ids : List UInt32)
    {rest : List Prekey} (hrest : ∀ q ∈ rest, s.rows.Keeps C q) (order : Pool.SaveOrder) :
    Whole C (s.publish p ids rest .lost order) :=
  h.resaved (PrekeyRows.save_formed h.formed order) (hp.saved h.formed order)
    (fun q hq => (List.mem_append.mp hq).imp_right fun hnew => hrest q (List.mem_of_mem_take hnew))
    trivial

theorem Whole.publish_refused (h : Whole C s) (hp : s.InStep p) (ids : List UInt32)
    (rest : List Prekey) (order : Pool.SaveOrder) :
    Leading C (s.publish p ids rest .refused order)
      (s.Spares fun id => id ∈ ids ∧ id ∈ p.unpublished ∧ s.Unspent id) := by
  have hunspent : ∀ id, (∃ secret, p.slot id = .oneTime secret) ↔ s.Unspent id := fun id => by
    rw [hp.slots]
    rfl
  have hturned := Pool.discardUnpublished_turned hp.apart ids
  simp only [hunspent] at hturned
  have hslots := PrekeyRows.save_slot h.formed hturned.apart (fun id => ?_) order
  · refine h.dropped (PrekeyRows.save_formed h.formed order) (fun id hid => ?_) (fun id hid => ?_)
      trivial
    · rw [hslots, hturned.turned id hid]
    · rw [hslots, hturned.others id hid, hp.slots]
  · by_cases hid : id ∈ ids ∧ id ∈ p.unpublished ∧ s.Unspent id
    · obtain ⟨secret, hsecret⟩ := hid.2.2
      rw [hturned.turned id hid, hsecret]
      trivial
    · rw [hturned.others id hid, hp.slots]
      exact .refl _

theorem Whole.offer (h : Whole C s) {fallback : Prekey} (hkeeps : s.rows.Keeps C fallback)
    (a : PoolAnswer Unit) : Whole C (s.offer fallback a) := by
  have hoffered : ∀ l : List Prekey, (∀ q ∈ l, q ∈ s.onOffer) → ∀ q ∈ l ++ [fallback],
      q ∈ s.onOffer ∨ s.rows.Keeps C q := by
    intro l hl q hq
    rcases mem_concat.mp hq with hold | rfl
    · exact .inl (hl q hold)
    · exact .inr hkeeps
  cases a with
  | ok a =>
    exact h.resaved h.formed (fun _ => rfl)
      (hoffered _ fun q hq => (List.mem_filter.mp hq).1) trivial
  | refused => exact h.phase trivial
  | lost => exact h.resaved h.formed (fun _ => rfl) (hoffered _ fun q hq => hq) trivial

theorem Whole.absorb (h : Whole C s) (seed : Bytes32) (ids : List UInt32)
    (order : Pool.SaveOrder) (hidle : s.phase = .idle) :
    Leading C (s.absorb seed ids order)
      (∀ id ∈ ids, id ≠ 0 → s.Unspent id → ∀ q ∈ s.onOffer, q.id ≠ id) := by
  have hp := h.loaded seed
  have hturned := Pool.takes_turned hp.apart ids
  have hunspent : ∀ id, (∃ secret, (s.rows.pool seed s.clock).slot id = .oneTime secret) ↔
      s.Unspent id := fun id => by
    rw [hp.slots]
    rfl
  simp only [hunspent] at hturned
  unfold Keeper.absorb
  generalize ids.foldl (fun p id => (p.take id).2) (s.rows.pool seed s.clock) = p' at hturned
  have hbecomes : ∀ id, (s.rows.slot id).Becomes (p'.slot id) := by
    intro id
    by_cases hid : id ∈ ids ∧ id ≠ 0 ∧ s.Unspent id
    · obtain ⟨secret, hsecret⟩ := hid.2.2
      rw [hturned.turned id hid, hsecret]
      trivial
    · rw [hturned.others id hid, hp.slots]
      exact .refl _
  have hslots := PrekeyRows.save_slot h.formed hturned.apart hbecomes order
  have hspent : ∀ id, id ∈ ids ∧ id ≠ 0 ∧ s.Unspent id →
      (s.rows.save p' order).slot id = .spent := fun id hid => by
    rw [hslots, hturned.turned id hid]
  have hothers : ∀ id, ¬ (id ∈ ids ∧ id ≠ 0 ∧ s.Unspent id) →
      (s.rows.save p' order).slot id = s.rows.slot id := fun id hid => by
    rw [hslots, hturned.others id hid, hp.slots]
  constructor
  · intro hnone
    refine h.rewritten (PrekeyRows.save_formed h.formed order) (fun id => ?_)
      (fun id secret hfallback => ?_) (fun q hq => ?_) ?_
    · by_cases hid : id ∈ ids ∧ id ≠ 0 ∧ s.Unspent id
      · obtain ⟨secret, hsecret⟩ := hid.2.2
        simp [hspent id hid, hsecret]
      · rw [hothers id hid]
    · by_cases hid : id ∈ ids ∧ id ≠ 0 ∧ s.Unspent id
      · simp [hspent id hid] at hfallback
      · rwa [hothers id hid] at hfallback
    · obtain ⟨secret, hsecret, hpublic⟩ := h.kept q hq
      have hid : ¬ (q.id ∈ ids ∧ q.id ≠ 0 ∧ s.Unspent q.id) :=
        fun hid => hnone q.id hid.1 hid.2.1 hid.2.2 q hq rfl
      exact ⟨secret, by rw [hothers q.id hid, hsecret], hpublic⟩
    · unfold InPhase
      rw [hidle]
      trivial
  · intro hsound id hid hzero hunspent q hq hqid
    obtain ⟨secret, hsecret, -⟩ := hsound.kept q hq
    have hgone : (s.rows.save p' order).slot q.id = .spent :=
      hspent q.id (hqid ▸ ⟨hid, hzero, hunspent⟩)
    dsimp only at hsecret
    rw [hgone] at hsecret
    cases hsecret

theorem Whole.tick (h : Whole C s) (now : UInt32) :
    Whole C { s with clock := max s.clock now } := by
  have hle : ∀ n : Nat, n ≤ (s.rows.nextIdAt s.clock).toNat →
      n ≤ (s.rows.nextIdAt (max s.clock now)).toNat := by
    intro n hn
    rw [PrekeyRows.le_nextIdAt_iff h.bound] at hn ⊢
    refine hn.imp_right fun hempty => ⟨hempty.1, ?_⟩
    have hclock := hempty.2
    simp only [toNat_max_uint32] at hclock ⊢
    omega
  refine ⟨⟨h.once, fun a ha => ?_, fun n hn => ?_, h.kept⟩, h.formed, h.single, h.given,
    h.phased.congr rfl rfl rfl rfl⟩
  · exact UInt32.lt_iff_toNat_lt.mpr (hle _ (UInt32.lt_iff_toNat_lt.mp (h.above a ha)))
  · exact UInt32.le_iff_toNat_le.mpr (hle _ (UInt32.le_iff_toNat_le.mp (h.reported n hn)))

theorem Whole.taken (h : Whole C s) (id : UInt32) : Whole C { s with
    onOffer := s.onOffer.filter fun q => !(q.kind == Prekey.kindOneTime && q.id == id) } :=
  ⟨⟨h.once, h.above, h.reported, fun q hq => h.kept q (List.mem_filter.mp hq).1⟩, h.formed,
    h.single, h.given, h.phased.congr rfl rfl rfl rfl⟩

theorem Whole.discarded (h : Whole C s) (seed : Bytes32) (served : Option UInt16)
    (a : PoolAnswer UInt32) (fallbackId : Option UInt32) (order : Pool.SaveOrder) :
    Leading C { s.cleared a with
      phase := (restartPool (.new seed) a fallbackId order).elim .idle (.wiping served ·) }
        (∀ next, a = .ok next → next ≤ s.rows.nextIdAt s.clock) := by
  have hfree : ∀ n id, (resumed (.new seed) n order).slot id = .free := fun n id => by
    rw [resumed_slot, new_slot]
  cases a with
  | ok next =>
    have hcleared := h.cleared next (f := .wiping served (resumed (.new seed) next order))
      (hfree next)
    exact ⟨fun hok => hcleared.keeps (hok next rfl), fun hsound _ heq =>
      PoolAnswer.ok.inj heq ▸ hcleared.only hsound⟩
  | refused =>
    refine (h.phase ?_).leading fun _ heq => by cases heq
    cases fallbackId with
    | none => trivial
    | some id => exact hfree _
  | lost => exact (h.phase (f := .idle) trivial).leading fun _ heq => by cases heq

theorem Whole.restarted (h : Whole C s) (hp : s.InStep p) (served : Option UInt16)
    (a : PoolAnswer UInt32) (fallbackId : Option UInt32) (order : Pool.SaveOrder) :
    Leading C { s.cleared a with
      phase := (restartPool p a fallbackId order).elim .idle (.ready served ·) }
        (∀ next, a = .ok next → next ≤ s.rows.nextIdAt s.clock) := by
  cases a with
  | ok next =>
    have hstep := hp.resumed next order (.ok next) fun n hn => (PoolAnswer.ok.inj hn).symm
    have hcleared := h.cleared next (f := .ready served (resumed p next order))
      (hstep.congr (fun _ => rfl) rfl rfl)
    exact ⟨fun hok => hcleared.keeps (hok next rfl), fun hsound _ heq =>
      PoolAnswer.ok.inj heq ▸ hcleared.only hsound⟩
  | refused =>
    refine (h.phase ?_).leading fun _ heq => by cases heq
    cases fallbackId with
    | none => trivial
    | some id =>
      have hstep := hp.resumed (if id = 0xffffffff then id else id + 1) order .refused
        fun n hn => by cases hn
      exact hstep.congr (fun _ => rfl) rfl rfl
  | lost => exact (h.phase (f := .idle) trivial).leading fun _ heq => by cases heq

theorem Whole.step (h : Whole C s) (seed : Bytes32) (turn : PoolTurn) :
    Leading C (s.step C seed turn) (s.Safe turn) := by
  have hphased := h.phased
  obtain ⟨rows, clock, ph, onOffer, minted, reported⟩ := s
  cases turn with
  | count a =>
    cases ph with
    | idle =>
      cases a with
      | ok served => exact (h.counted (some served)).leading trivial
      | refused => exact h.wiped (f := .idle) trivial
      | lost => exact (h.counted none).leading trivial
    | _ => exact h.leading trivial
  | clear a fallbackId order =>
    cases ph with
    | discarding served =>
      have hdone := h.discarded seed served a fallbackId order
      cases a with
      | ok next => exact ⟨fun hok => hdone.keeps fun _ heq => PoolAnswer.ok.inj heq ▸ hok,
          fun hsound => hdone.only hsound next rfl⟩
      | refused | lost => exact (hdone.keeps fun _ heq => by cases heq).leading trivial
    | restarting served p =>
      have hdone := h.restarted hphased served a fallbackId order
      cases a with
      | ok next => exact ⟨fun hok => hdone.keeps fun _ heq => PoolAnswer.ok.inj heq ▸ hok,
          fun hsound => hdone.only hsound next rfl⟩
      | refused | lost => exact (hdone.keeps fun _ heq => by cases heq).leading trivial
    | _ => exact h.leading trivial
  | wipe =>
    cases ph with
    | wiping served fresh =>
      refine h.wiped (f := .wiped served fresh) ⟨hphased, fun id hunspent => ?_⟩
      obtain ⟨secret, hsecret⟩ := hunspent
      obtain ⟨hgone, hstays⟩ := wipe_slot h.formed id
      by_cases hid : Unspent ⟨rows, clock, .wiping served fresh, onOffer, minted, reported⟩ id
      · cases (hgone hid).symm.trans hsecret
      · exact hid ⟨secret, (hstays hid).symm.trans hsecret⟩
    | _ => exact h.leading trivial
  | saveFresh order =>
    cases ph with
    | wiped served fresh =>
      have hsame : rows.save fresh order = rows :=
        save_of_free h.formed hphased.1 (fun id secret hid => hphased.2 id ⟨secret, hid⟩) order
      have hloading := h.phase (f := .loading served) trivial
      have hnext : Leading C _ True := hloading.leading trivial
      rw [← hsame] at hnext
      exact hnext
    | _ => exact h.leading trivial
  | load =>
    cases ph with
    | loading served => exact (h.load seed served).leading trivial
    | _ => exact h.leading trivial
  | mint draw order =>
    cases ph with
    | ready served p => exact h.mint hphased served draw order
    | _ => exact h.leading trivial
  | publish a order =>
    cases ph with
    | sending p ids rest =>
      obtain ⟨hp, hrest⟩ := hphased
      cases a with
      | ok a => exact (h.publish_ok hp ids hrest order).leading trivial
      | refused => exact h.publish_refused hp ids rest order
      | lost => exact (h.publish_lost hp ids hrest order).leading trivial
    | _ => exact h.leading trivial
  | save order =>
    cases ph with
    | sent p =>
      have hp : InStep _ p := hphased
      have hslots := hp.saved h.formed order
      exact (h.resaved (f := .renewing p) (PrekeyRows.save_formed h.formed order) hslots
        (fun q hq => .inl hq) (hp.congr hslots rfl rfl)).leading trivial
    | _ => exact h.leading trivial
  | renew secret order =>
    cases ph with
    | renewing p => exact h.renew hphased secret order
    | _ => exact h.leading trivial
  | offer a =>
    cases ph with
    | offering fallback => exact (h.offer hphased a).leading trivial
    | _ => exact h.leading trivial
  | absorb ids order =>
    cases ph with
    | idle => exact h.absorb seed ids order rfl
    | _ => exact h.leading trivial
  | taken id => cases ph <;> exact (h.taken id).leading trivial
  | tick now => cases ph <;> exact (h.tick now).leading trivial
  | restart => cases ph <;> exact (h.phase (f := .idle) trivial).leading trivial

theorem whole_fresh (C : Crypto) (clock : UInt32) : Whole C (.fresh clock) := by
  have hnone : ∀ id, id ∉ (∅ : PrekeyRows) := fun id hid => by simp at hid
  refine ⟨⟨fun a ha => absurd ha List.not_mem_nil, fun a ha => absurd ha List.not_mem_nil,
    fun n hn => absurd hn List.not_mem_nil, fun q hq => absurd hq List.not_mem_nil⟩,
    fun id r hr => ?_, fun id id' secret secret' hid => ?_,
    fun id hid => absurd hid (hnone id), trivial⟩
  · have hr' : (∅ : PrekeyRows)[id]? = some r := hr
    simp at hr'
  · have hid' : (∅ : PrekeyRows).slot id = .fallback secret := hid
    simp [PrekeyRows.slot] at hid'

end Keeper

/-- Along every run, ids are given out once and what is served is kept, exactly where each step
leaves what leads past the ids given out and the secrets that are on offer. -/
theorem prekeys_kept (C : Crypto) (seed : Bytes32) (clock : UInt32) (turns : List PoolTurn) :
    Always (Keeper.Sound C) (Keeper.step C seed) (.fresh clock) turns ↔
      Each Keeper.Safe (Keeper.step C seed) (.fresh clock) turns := by
  have hlead : ∀ s turn, Keeper.Whole C s → Keeper.Leading C (s.step C seed turn) (s.Safe turn) :=
    fun _ turn h => h.step seed turn
  refine always_iff_each_of (I := Keeper.Whole C) (fun s turn h hok => (hlead s turn h).keeps hok)
    (fun _ h => h.toSound) (fun s turn h => ⟨(hlead s turn h).only, fun hok => ?_⟩)
    (Keeper.whole_fresh C clock)
  exact ((hlead s turn h).keeps hok).toSound

def asStored : Pool.SaveOrder := ⟨.asListed, .asListed, .asListed⟩

/-- The exchange refuses the first prekeys of a new device, which tries again ten seconds later. -/
def refusedTwice : List PoolTurn :=
  [.count (.ok 0), .load, .clear (.ok 1) none asStored, .mint (fun _ => 5) asStored,
    .publish .refused asStored, .tick 1760000010, .count (.ok 0), .load,
    .clear (.ok 1) none asStored, .mint (fun _ => 7) asStored]

/-- The rows of what was refused are gone, and its ids come up again. -/
theorem minted_again : ¬ Always (Keeper.Sound Crypto.toy) (Keeper.step Crypto.toy 0)
    (.fresh 1760000000) refusedTwice := by
  intro h
  have hend := always_iff_prefixes.mp h refusedTwice List.prefix_rfl
  have hfirst : (1760000010, (5 : Bytes32)) ∈
      (run (Keeper.step Crypto.toy 0) (.fresh 1760000000) refusedTwice).minted := by decide +kernel
  have hsecond : (1760000010, (7 : Bytes32)) ∈
      (run (Keeper.step Crypto.toy 0) (.fresh 1760000000) refusedTwice).minted := by decide +kernel
  exact absurd (hend.once _ hfirst _ hsecond rfl) (by decide)

end Sqex.Chat
