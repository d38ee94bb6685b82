import Sqex.Chat.PrekeySlots

/-! What each thing done to a pool changes of what is held under its ids. -/
namespace Sqex.Pool
open Std Chat
variable {p : Pool} {id : UInt32} {secret : Bytes32}

theorem slot_of_spent (h : id ∈ p.spent) : p.slot id = .spent := by
  simp [slot, h]

theorem fallbackAt_eq_some : p.fallbackAt id = some secret ↔ p.fallback = some (id, secret) := by
  simp only [fallbackAt, Option.map_eq_some_iff, Option.filter_eq_some_iff, beq_iff_eq]
  constructor
  · rintro ⟨k, ⟨hk, rfl⟩, rfl⟩
    exact hk
  · exact fun hk => ⟨(id, secret), ⟨hk, rfl⟩, rfl⟩

theorem of_slot_fallback (h : p.slot id = .fallback secret) : p.fallback = some (id, secret) := by
  unfold slot at h
  split_ifs at h
  cases hfallback : p.fallbackAt id with
  | some held =>
    rw [hfallback] at h
    cases h
    exact fallbackAt_eq_some.mp hfallback
  | none =>
    rw [hfallback] at h
    cases hone : p.oneTime[id]? <;> simp [hone] at h

theorem of_slot_oneTime (h : p.slot id = .oneTime secret) :
    id ∉ p.spent ∧ p.fallbackAt id = none ∧ p.oneTime[id]? = some secret := by
  unfold slot at h
  split_ifs at h with hspent
  cases hfallback : p.fallbackAt id with
  | some held => simp [hfallback] at h
  | none =>
    cases hone : p.oneTime[id]? with
    | none => simp [hfallback, hone] at h
    | some held =>
      simp only [hfallback, hone, Slot.oneTime.injEq] at h
      exact ⟨hspent, rfl, by rw [h]⟩

theorem of_slot_free (h : p.slot id = .free) :
    id ∉ p.spent ∧ p.fallbackAt id = none ∧ p.oneTime[id]? = none := by
  unfold slot at h
  split_ifs at h with hspent
  cases hfallback : p.fallbackAt id with
  | some held => simp [hfallback] at h
  | none =>
    cases hone : p.oneTime[id]? with
    | none => exact ⟨hspent, rfl, rfl⟩
    | some held => simp [hfallback, hone] at h

def Below (p : Pool) : Prop := ∀ id, p.slot id ≠ .free → id < p.nextId

structure Extended (C : Crypto) (p p' : Pool) (new : List Prekey) : Prop where
  apart : p'.Apart
  below : p'.Below
  old : ∀ id, id < p.nextId → p'.slot id = p.slot id
  minted : ∀ q ∈ new, p.nextId ≤ q.id ∧
    ∃ secret, p'.slot q.id = .oneTime secret ∧ q.publicHalf = C.x25519Public secret
  only : ∀ id, p.nextId ≤ id → p'.slot id ≠ .free → ∃ q ∈ new, q.id = id

theorem mintNext_slot (C : Crypto) (hfree : p.slot p.nextId = .free) (secret : Bytes32)
    (id : UInt32) : (p.mintNext C secret).1.slot id =
      if id = p.nextId then .oneTime secret else p.slot id := by
  obtain ⟨hspent, hfallback, -⟩ := of_slot_free hfree
  by_cases hid : id = p.nextId
  · subst hid
    have hat : (p.mintNext C secret).1.fallbackAt p.nextId = none := hfallback
    rw [if_pos rfl]
    unfold slot
    rw [hat]
    simp [mintNext, hspent]
  · rw [if_neg hid]
    have hone : (p.mintNext C secret).1.oneTime[id]? = p.oneTime[id]? := by
      simp [mintNext, lookup_insert, Ne.symm hid]
    unfold slot
    rw [hone]
    rfl

theorem mintNext_apart (C : Crypto) (hapart : p.Apart) (hfree : p.slot p.nextId = .free)
    (secret : Bytes32) : (p.mintNext C secret).1.Apart where
  oneTime id held h := by
    rw [mintNext_slot C hfree]
    have hone : (p.oneTime.insert p.nextId secret)[id]? = some held := h
    rw [lookup_insert] at hone
    split_ifs at hone with hid
    · rw [if_pos hid.symm, Option.some.inj hone]
    · rw [if_neg (Ne.symm hid)]
      exact hapart.oneTime id held hone
  fallback id held h := by
    have hslot := hapart.fallback id held h
    have hid : id ≠ p.nextId := by
      rintro rfl
      simp [hfree] at hslot
    rw [mintNext_slot C hfree, if_neg hid, hslot]

theorem Below.free (h : p.Below) : p.slot p.nextId = .free := by
  by_contra hne
  exact UInt32.lt_irrefl _ (h _ hne)

theorem mintEach_extended (C : Crypto) (secrets : List Bytes32) (hapart : p.Apart)
    (hbelow : p.Below) (hroom : p.nextId.toNat + secrets.length < 2 ^ 32) :
    Extended C p (p.mintEach C secrets).1 (p.mintEach C secrets).2 := by
  induction secrets generalizing p with
  | nil =>
    refine ⟨hapart, hbelow, fun id _ => rfl, fun q hq => by simp [mintEach] at hq, ?_⟩
    intro id hid hheld
    exact absurd (hbelow id hheld) (UInt32.not_lt.mpr hid)
  | cons secret rest ih =>
    simp only [List.length_cons] at hroom
    have hfree := hbelow.free
    have hslot := mintNext_slot C hfree secret
    obtain ⟨hsucc, hlt⟩ := nextId_succ (n := p.nextId) (by omega)
    have hnext : (p.mintNext C secret).1.nextId = p.nextId + 1 := rfl
    have hbelow' : (p.mintNext C secret).1.Below := by
      intro id hid
      rw [hslot] at hid
      rw [hnext]
      split_ifs at hid with heq
      · rw [heq]
        exact hlt
      · exact UInt32.lt_trans (hbelow id hid) hlt
    have hrest := ih (mintNext_apart C hapart hfree secret) hbelow' (by rw [hnext, hsucc]; omega)
    refine ⟨hrest.apart, hrest.below, fun id hid => ?_, fun q hq => ?_, fun id hid hheld => ?_⟩
    · have hid' : id < (p.mintNext C secret).1.nextId := UInt32.lt_trans hid hlt
      have hne : id ≠ p.nextId := UInt32.ne_of_lt hid
      exact (hrest.old id hid').trans (by rw [hslot, if_neg hne])
    · cases List.mem_cons.mp hq with
      | inl hfirst =>
        have hkept := hrest.old p.nextId (by rw [hnext]; exact hlt)
        rw [hslot, if_pos rfl] at hkept
        rw [hfirst]
        exact ⟨UInt32.le_refl _, secret, hkept, rfl⟩
      | inr hother =>
        obtain ⟨hle, hsecret⟩ := hrest.minted q hother
        rw [hnext] at hle
        exact ⟨UInt32.le_trans (UInt32.le_of_lt hlt) hle, hsecret⟩
    · by_cases heq : id = p.nextId
      · exact ⟨(p.mintNext C secret).2, by simp [mintEach], heq.symm⟩
      · have hle : (p.mintNext C secret).1.nextId ≤ id := by
          rw [hnext, UInt32.le_iff_toNat_le, hsucc]
          have hne : id.toNat ≠ p.nextId.toNat := fun h => heq (UInt32.toNat_inj.mp h)
          have hge := UInt32.le_iff_toNat_le.mp hid
          omega
        obtain ⟨q, hq, hqid⟩ := hrest.only id hle hheld
        exact ⟨q, by simp [mintEach, hq], hqid⟩

theorem mintEach_last (C : Crypto) (secrets : List Bytes32)
    (hroom : 2 ^ 32 ≤ p.nextId.toNat + secrets.length) :
    ∃ q ∈ (p.mintEach C secrets).2, q.id.toNat + 1 = 2 ^ 32 := by
  induction secrets generalizing p with
  | nil =>
    have hlt := p.nextId.toNat_lt
    simp only [List.length_nil] at hroom
    omega
  | cons secret rest ih =>
    simp only [List.length_cons] at hroom
    by_cases hlast : p.nextId.toNat + 1 = 2 ^ 32
    · exact ⟨(p.mintNext C secret).2, by simp [mintEach], hlast⟩
    · have hlt := p.nextId.toNat_lt
      have hsucc := (nextId_succ (n := p.nextId) (by omega)).1
      have hnext : (p.mintNext C secret).1.nextId = p.nextId + 1 := rfl
      obtain ⟨q, hq, hqid⟩ := ih (p := (p.mintNext C secret).1) (by rw [hnext, hsucc]; omega)
      exact ⟨q, by simp [mintEach, hq], hqid⟩

/-- A pool some of whose one-time prekeys became something else. -/
structure Turned (p p' : Pool) (turns : UInt32 → Prop) (into : Slot) : Prop where
  apart : p'.Apart
  turned : ∀ id, turns id → p'.slot id = into
  others : ∀ id, ¬ turns id → p'.slot id = p.slot id
  nextId : p'.nextId = p.nextId

/-- One-time prekeys that leave the pool, and nothing else changes. -/
theorem erase_turned (hapart : p.Apart) (turns : UInt32 → Prop)
    {oneTime : ExtTreeMap UInt32 Bytes32} {unpublished : ExtTreeSet UInt32}
    (hturns : ∀ id, turns id → ∃ secret, p.slot id = .oneTime secret)
    (hgone : ∀ id, turns id → oneTime[id]? = none)
    (hstays : ∀ id, ¬ turns id → oneTime[id]? = p.oneTime[id]?) :
    Turned p { p with oneTime, unpublished } turns .free := by
  have hfree : ∀ id, turns id → slot { p with oneTime, unpublished } id = .free := by
    intro id hid
    obtain ⟨secret, hslot⟩ := hturns id hid
    obtain ⟨hspent, hfallback, -⟩ := of_slot_oneTime hslot
    have hat : fallbackAt { p with oneTime, unpublished } id = none := hfallback
    unfold slot
    rw [hat]
    simp [hspent, hgone id hid]
  have hsame : ∀ id, ¬ turns id → slot { p with oneTime, unpublished } id = p.slot id := by
    intro id hid
    unfold slot
    simp only [hstays id hid]
    rfl
  refine ⟨⟨fun id secret h => ?_, fun id secret h => ?_⟩, hfree, hsame, rfl⟩
  · by_cases hid : turns id
    · exact absurd (h.symm.trans (hgone id hid)) (by simp)
    · rw [hsame id hid]
      exact hapart.oneTime id secret ((hstays id hid).symm.trans h)
  · have hslot := hapart.fallback id secret h
    by_cases hid : turns id
    · obtain ⟨_, hone⟩ := hturns id hid
      simp [hone] at hslot
    · rw [hsame id hid, hslot]

theorem discardUnpublished_lookup (p : Pool) (ids : List UInt32) :
    ∃ oneTime unpublished, (p.discardUnpublished ids).1 = { p with oneTime, unpublished } ∧
      ∀ id, oneTime[id]? = if id ∈ ids ∧ id ∈ p.unpublished then none else p.oneTime[id]? := by
  induction ids generalizing p with
  | nil => exact ⟨p.oneTime, p.unpublished, rfl, by simp⟩
  | cons j ids ih =>
    obtain ⟨oneTime, unpublished, heq, hlookup⟩ := ih (p.discardNext j).1
    have hdone : (p.discardUnpublished (j :: ids)).1 = { p with oneTime, unpublished } := by
      have hsame : (p.discardUnpublished (j :: ids)).1 =
          ((p.discardNext j).1.discardUnpublished ids).1 := rfl
      rw [hsame, heq, discardNext]
      split <;> rfl
    refine ⟨oneTime, unpublished, hdone, fun id => ?_⟩
    rw [hlookup, discardNext]
    by_cases hj : j ∈ p.unpublished
    · simp only [if_pos hj, ExtTreeSet.mem_erase, lookup_erase, List.mem_cons, ne_eq,
        LawfulEqCmp.compare_eq_iff_eq]
      by_cases hid : j = id
      · simp [hid, hid ▸ hj]
      · simp [hid, Ne.symm hid]
    · simp only [if_neg hj, List.mem_cons]
      by_cases hid : id = j
      · simp [hid, hj]
      · simp [hid]

theorem discardUnpublished_turned (hapart : p.Apart) (ids : List UInt32) :
    Turned p (p.discardUnpublished ids).1
      (fun id => id ∈ ids ∧ id ∈ p.unpublished ∧ ∃ secret, p.slot id = .oneTime secret) .free := by
  obtain ⟨oneTime, unpublished, heq, hlookup⟩ := p.discardUnpublished_lookup ids
  rw [heq]
  refine erase_turned hapart _ (fun id h => h.2.2) (fun id h => ?_) fun id h => ?_
  · rw [hlookup, if_pos ⟨h.1, h.2.1⟩]
  · rw [hlookup]
    split_ifs with hgone
    · cases hone : p.oneTime[id]? with
      | none => rfl
      | some secret => exact absurd ⟨hgone.1, hgone.2, secret, hapart.oneTime id secret hone⟩ h
    · rfl

theorem take_turned (hapart : p.Apart) (id : UInt32) : Turned p (p.take id).2
    (fun i => i = id ∧ id ≠ 0 ∧ ∃ secret, p.slot id = .oneTime secret) .spent := by
  by_cases htakes : id ≠ 0 ∧ ∃ secret, p.slot id = .oneTime secret
  · obtain ⟨hzero, secret, hslot⟩ := htakes
    obtain ⟨hspent, hfallback, hone⟩ := of_slot_oneTime hslot
    have htake : (p.take id).2 =
        { p with oneTime := p.oneTime.erase id, spent := p.spent.insert id } := by
      simp [take, hzero, hspent, hone]
    have hslots : ∀ i, (p.take id).2.slot i = if i = id then .spent else p.slot i := by
      intro i
      rw [htake]
      by_cases hi : i = id
      · rw [if_pos hi, hi]
        exact slot_of_spent (by simp)
      · have hone' : (p.oneTime.erase id)[i]? = p.oneTime[i]? := by
          rw [lookup_erase, if_neg (Ne.symm hi)]
        have hspent' : i ∈ p.spent.insert id ↔ i ∈ p.spent := by
          simp [LawfulEqCmp.compare_eq_iff_eq, Ne.symm hi]
        rw [if_neg hi]
        unfold slot
        simp only [hone', hspent']
        rfl
    have hturns : ∀ i, (i = id ∧ id ≠ 0 ∧ ∃ secret, p.slot id = .oneTime secret) ↔ i = id :=
      fun i => ⟨fun h => h.1, fun h => ⟨h, hzero, secret, hslot⟩⟩
    refine ⟨⟨fun i held h => ?_, fun i held h => ?_⟩, fun i hi => ?_, fun i hi => ?_, by rw [htake]⟩
    · rw [htake] at h
      simp only [lookup_erase] at h
      split_ifs at h with hi
      rw [hslots, if_neg (Ne.symm hi)]
      exact hapart.oneTime i held h
    · rw [htake] at h
      have hheld := hapart.fallback i held h
      have hi : i ≠ id := by
        rintro rfl
        simp [hslot] at hheld
      rw [hslots, if_neg hi, hheld]
    · rw [hslots, if_pos ((hturns i).mp hi)]
    · rw [hslots, if_neg fun h => hi ((hturns i).mpr h)]
  · have htake : (p.take id).2 = p := by
      unfold take
      split_ifs with hzero hspent
      · rfl
      · rfl
      · cases hone : p.oneTime[id]? with
        | some secret => exact absurd ⟨hzero, secret, hapart.oneTime id secret hone⟩ htakes
        | none =>
          cases p.fallback with
          | none => rfl
          | some f =>
            dsimp only
            split_ifs <;> rfl
    rw [htake]
    exact ⟨hapart, fun i hi => absurd hi.2 htakes, fun _ _ => rfl, rfl⟩

theorem takes_turned (hapart : p.Apart) (ids : List UInt32) :
    Turned p (ids.foldl (fun p id => (p.take id).2) p)
      (fun i => i ∈ ids ∧ i ≠ 0 ∧ ∃ secret, p.slot i = .oneTime secret) .spent := by
  induction ids generalizing p with
  | nil => exact ⟨hapart, fun i hi => by simp at hi, fun _ _ => rfl, rfl⟩
  | cons id ids ih =>
    have hfirst := take_turned hapart id
    have hrest := ih hfirst.apart
    rw [List.foldl_cons]
    refine ⟨hrest.apart, fun i hi => ?_, fun i hi => ?_, hrest.nextId.trans hfirst.nextId⟩
    · obtain ⟨hmem, hzero, secret, hslot⟩ := hi
      by_cases hid : i = id
      · have hspent := hfirst.turned i ⟨hid, hid ▸ hzero, secret, hid ▸ hslot⟩
        have hnot : ¬ ∃ secret, (p.take id).2.slot i = .oneTime secret := by simp [hspent]
        rw [hrest.others i fun h => hnot h.2.2, hspent]
      · have hkept := hfirst.others i fun h => hid h.1
        have hin : i ∈ ids := (List.mem_cons.mp hmem).resolve_left hid
        exact hrest.turned i ⟨hin, hzero, secret, hkept.trans hslot⟩
    · have hkept : (p.take id).2.slot i = p.slot i := by
        refine hfirst.others i fun h => hi ⟨by simp [h.1], h.1 ▸ h.2.1, h.1 ▸ h.2.2⟩
      rw [← hkept]
      refine hrest.others i fun h => hi ⟨by simp [h.1], h.2.1, ?_⟩
      rw [← hkept]
      exact h.2.2

theorem mintFallback_slot (C : Crypto) (hfree : p.slot p.nextId = .free)
    (secret : Bytes32) (id : UInt32) : (p.mintFallback C secret).1.slot id =
      if id = p.nextId then .fallback secret
      else if (p.fallbackAt id).isSome then .spent else p.slot id := by
  obtain ⟨hspent, hfallback, -⟩ := of_slot_free hfree
  have hat : (p.mintFallback C secret).1.fallbackAt id =
      if id = p.nextId then some secret else none := by
    by_cases hid : id = p.nextId
    · simp [fallbackAt, mintFallback, hid]
    · simp [fallbackAt, mintFallback, hid, Ne.symm hid]
  have hspent' : id ∈ (p.mintFallback C secret).1.spent ↔
      (p.fallbackAt id).isSome ∨ id ∈ p.spent := by
    cases hf : p.fallback with
    | none => simp [mintFallback, fallbackAt, hf]
    | some k =>
      simp [mintFallback, fallbackAt, hf, LawfulEqCmp.compare_eq_iff_eq, Option.filter_some]
  by_cases hid : id = p.nextId
  · subst hid
    rw [if_pos rfl] at hat ⊢
    unfold slot
    rw [if_neg (by simp [hspent', hfallback, hspent]), hat]
  · rw [if_neg hid] at hat ⊢
    cases hheld : p.fallbackAt id with
    | some held =>
      rw [Option.isSome_some, if_pos rfl]
      exact slot_of_spent (by simp [hspent', hheld])
    | none =>
      rw [hheld] at hspent'
      have hone : (p.mintFallback C secret).1.oneTime[id]? = p.oneTime[id]? := rfl
      unfold slot
      rw [hat, hheld, hone]
      simp only [hspent']
      simp

theorem mintFallback_apart (C : Crypto) (hapart : p.Apart) (hfree : p.slot p.nextId = .free)
    (secret : Bytes32) : (p.mintFallback C secret).1.Apart where
  oneTime id held h := by
    have hslot := hapart.oneTime id held h
    obtain ⟨-, hfallback, -⟩ := of_slot_oneTime hslot
    have hid : id ≠ p.nextId := by
      rintro rfl
      simp [hfree] at hslot
    rw [mintFallback_slot C hfree, if_neg hid, hfallback]
    simpa using hslot
  fallback id held h := by
    have hk : some (p.nextId, secret) = some (id, held) := h
    obtain ⟨rfl, rfl⟩ := Prod.mk.inj (Option.some.inj hk)
    rw [mintFallback_slot C hfree, if_pos rfl]

theorem resumed_eq (p : Pool) (next : UInt32) (order : SaveOrder) :
    resumed p next order = { p with
      nextId := max (max p.nextId next) 1
      unpublished := (resumed p next order).unpublished } := by
  simp [resumed, load, save]

end Sqex.Pool
