import Sqex.Proto.Pool
import Sqex.Lib.Runs

/-! Single use over whole runs of a pool, told as the history of what each step
did, newest first. -/
namespace Sqex.Pool
open Std Runs

inductive Event where
  | minted (kind : UInt8) (id : UInt32)
  | opened (id : UInt32)
  | discarded (id : UInt32)
  | retired (id : UInt32)
  deriving DecidableEq

def happened (C : Crypto) (p : Pool) : Op → List Event
  | .mintOneTime n draw =>
    ((p.mintOneTime C n draw).2.map fun k => .minted k.kind k.id).reverse
  | .mintFallback secret =>
    let k := (p.mintFallback C secret).2
    .minted k.kind k.id :: (p.fallback.toList.map fun f => .retired f.1)
  | .take id => match (p.take id).1 with
    | .ok _ => [.opened id]
    | .error _ => []
  | .markPublished _ => []
  | .discardUnpublished ids => (ids.filter fun id => decide (id ∈ p.unpublished)).map .discarded
  | .restart _ => []

structure Life where
  pool : Pool
  past : List Event

def Life.step (C : Crypto) (l : Life) (op : Op) : Life :=
  ⟨l.pool.step C op, l.pool.happened C op ++ l.past⟩

def Life.born (seed : Bytes32) : Life := ⟨new seed, []⟩

variable {past : List Event} {id : UInt32} {l : Life} {C : Crypto}

def mints : List Op → Nat
  | [] => 0
  | .mintOneTime n _ :: ops => n.toNat + mints ops
  | .mintFallback _ :: ops => 1 + mints ops
  | _ :: ops => mints ops

/-- What single use asks of a history: no id is minted twice, and an id opens
only after it was minted, never after it was discarded or retired, and never a
second time when it is a one-time id. -/
def Lawful : List Event → Prop
  | [] => True
  | .minted _ id :: before => (∀ kind, .minted kind id ∉ before) ∧ Lawful before
  | .opened id :: before =>
    (id ≠ 0 ∧ (∃ kind, .minted kind id ∈ before) ∧ .discarded id ∉ before ∧
      .retired id ∉ before ∧ (.minted Prekey.kindOneTime id ∈ before → .opened id ∉ before)) ∧
      Lawful before
  | _ :: before => Lawful before

structure Sound (l : Life) : Prop where
  lawful : Lawful l.past
  started : 1 ≤ l.pool.nextId.toNat
  minted : ∀ kind id, .minted kind id ∈ l.past → id ≠ 0 ∧ id < l.pool.nextId
  oneTime : ∀ id ∈ l.pool.oneTime,
    .minted Prekey.kindOneTime id ∈ l.past ∧ .discarded id ∉ l.past ∧ id ∉ l.pool.spent
  fallback : ∀ f ∈ l.pool.fallback,
    .minted Prekey.kindFallback f.1 ∈ l.past ∧ f.1 ∉ l.pool.spent
  unpublished : ∀ id ∈ l.pool.unpublished, .minted Prekey.kindOneTime id ∈ l.past
  spent : ∀ id ∈ l.pool.spent, ∃ kind, .minted kind id ∈ l.past
  opened : ∀ id, .opened id ∈ l.past → .minted Prekey.kindOneTime id ∈ l.past → id ∈ l.pool.spent
  discarded : ∀ id, .discarded id ∈ l.past → .minted Prekey.kindOneTime id ∈ l.past
  retired : ∀ id, .retired id ∈ l.past → id ∈ l.pool.spent

theorem sound_born (seed : Bytes32) : Sound (Life.born seed) := by
  constructor <;> simp [Life.born, new, Lawful]

theorem Lawful.kind_unique (h : Lawful past) {k k' : UInt8} (hk : .minted k id ∈ past)
    (hk' : .minted k' id ∈ past) : k = k' := by
  induction past with
  | nil => cases hk
  | cons e before ih =>
    cases e with
    | minted kind j =>
      obtain ⟨hfresh, hrest⟩ := h
      by_cases hj : id = j
      · subst hj
        have hold : ∀ kind, Event.minted kind id ∉ before := hfresh
        simp only [List.mem_cons, hold, or_false, Event.minted.injEq, and_true] at hk hk'
        rw [hk, hk']
      · simp only [List.mem_cons, Event.minted.injEq, hj, and_false, false_or] at hk hk'
        exact ih hrest hk hk'
    | opened j => exact ih h.2 (by simpa using hk) (by simpa using hk')
    | discarded j | retired j => exact ih h (by simpa using hk) (by simpa using hk')

theorem Lawful.opened_minted (h : Lawful past) (ho : .opened id ∈ past) :
    ∃ kind, .minted kind id ∈ past := by
  induction past with
  | nil => cases ho
  | cons e before ih =>
    have hrest : Lawful before := by cases e <;> first | exact h.2 | exact h
    rcases List.mem_cons.mp ho with rfl | hold
    · obtain ⟨kind, hkind⟩ := h.1.2.1
      exact ⟨kind, List.mem_cons_of_mem _ hkind⟩
    · obtain ⟨kind, hkind⟩ := ih hrest hold
      exact ⟨kind, List.mem_cons_of_mem _ hkind⟩

theorem Sound.not_minted (h : Sound l) (kind : UInt8) :
    .minted kind l.pool.nextId ∉ l.past := by
  intro hmem
  have hlt : l.pool.nextId.toNat < l.pool.nextId.toNat :=
    UInt32.lt_iff_toNat_lt.mp (h.minted kind _ hmem).2
  omega

theorem Sound.fresh (h : Sound l) :
    l.pool.nextId ∉ l.pool.spent ∧ .discarded l.pool.nextId ∉ l.past ∧
      .opened l.pool.nextId ∉ l.past := by
  refine ⟨fun hs => ?_, fun hd => h.not_minted _ (h.discarded _ hd), fun ho => ?_⟩
  · obtain ⟨kind, hkind⟩ := h.spent _ hs
    exact h.not_minted kind hkind
  · obtain ⟨kind, hkind⟩ := h.lawful.opened_minted ho
    exact h.not_minted kind hkind

theorem nextId_succ {n : UInt32} (h : n.toNat + 1 < 2 ^ 32) :
    (n + 1).toNat = n.toNat + 1 ∧ n < n + 1 := by
  have hsucc : (n + 1).toNat = n.toNat + 1 := by
    rw [UInt32.toNat_add]
    exact Nat.mod_eq_of_lt h
  exact ⟨hsucc, UInt32.lt_iff_toNat_lt.mpr (by omega)⟩

theorem Sound.mint (h : Sound l) (hroom : l.pool.nextId.toNat + 1 < 2 ^ 32) {kind : UInt8}
    {p : Pool} (hnext : p.nextId = l.pool.nextId + 1) (hspent : p.spent = l.pool.spent)
    (hone : ∀ id ∈ p.oneTime, id ∈ l.pool.oneTime ∨
      id = l.pool.nextId ∧ kind = Prekey.kindOneTime)
    (hfallback : ∀ f ∈ p.fallback, f ∈ l.pool.fallback ∨
      f.1 = l.pool.nextId ∧ kind = Prekey.kindFallback)
    (hun : ∀ id ∈ p.unpublished, id ∈ l.pool.unpublished ∨
      id = l.pool.nextId ∧ kind = Prekey.kindOneTime) :
    Sound ⟨p, .minted kind l.pool.nextId :: l.past⟩ := by
  obtain ⟨hsucc, hlt⟩ := nextId_succ hroom
  obtain ⟨hfresh, hdisc, hopen⟩ := h.fresh
  have hstart := h.started
  constructor
  case lawful => exact ⟨h.not_minted, h.lawful⟩
  case started => simp only [hnext]; omega
  case minted =>
    intro kind' id hmem
    simp only [hnext]
    rcases List.mem_cons.mp hmem with heq | hold
    · obtain ⟨rfl, rfl⟩ := Event.minted.inj heq
      refine ⟨fun hzero => ?_, hlt⟩
      simp [hzero] at hstart
    · exact ⟨(h.minted kind' id hold).1, UInt32.lt_trans (h.minted kind' id hold).2 hlt⟩
  case oneTime =>
    intro id hid
    rcases hone id hid with hold | ⟨rfl, rfl⟩
    · obtain ⟨hm, hd, hs⟩ := h.oneTime id hold
      simp [hm, hd, hs, hspent]
    · simp [hdisc, hfresh, hspent]
  case fallback =>
    intro f hf
    rcases hfallback f hf with hold | ⟨hid, rfl⟩
    · obtain ⟨hm, hs⟩ := h.fallback f hold
      simp [hm, hs, hspent]
    · simp [hid, hfresh, hspent]
  case unpublished =>
    intro id hid
    rcases hun id hid with hold | ⟨rfl, rfl⟩
    · exact List.mem_cons_of_mem _ (h.unpublished id hold)
    · simp
  case spent =>
    intro id hid
    obtain ⟨kind', hkind⟩ := h.spent id (hspent ▸ hid)
    exact ⟨kind', List.mem_cons_of_mem _ hkind⟩
  case opened =>
    intro id ho hm
    have hold : .opened id ∈ l.past := by simpa using ho
    simp only [hspent]
    rcases List.mem_cons.mp hm with heq | hm
    · obtain ⟨_, rfl⟩ := Event.minted.inj heq
      exact absurd hold hopen
    · exact h.opened id hold hm
  case discarded =>
    intro id hd
    exact List.mem_cons_of_mem _ (h.discarded id (by simpa using hd))
  case retired => exact fun id hr => hspent ▸ h.retired id (by simpa using hr)

theorem sound_mintNext (h : Sound l) (hroom : l.pool.nextId.toNat + 1 < 2 ^ 32) (secret : Bytes32) :
    Sound ⟨(l.pool.mintNext C secret).1, .minted Prekey.kindOneTime l.pool.nextId :: l.past⟩ := by
  refine h.mint hroom rfl rfl ?_ (fun f hf => Or.inl hf) ?_
  · intro id hid
    simp only [mintNext, ExtTreeMap.mem_insert, LawfulEqCmp.compare_eq_iff_eq] at hid
    exact hid.symm.imp_right fun heq => ⟨heq.symm, rfl⟩
  · intro id hid
    simp only [mintNext, ExtTreeSet.mem_insert, LawfulEqCmp.compare_eq_iff_eq] at hid
    exact hid.symm.imp_right fun heq => ⟨heq.symm, rfl⟩

theorem nextId_mintEach (C : Crypto) (p : Pool) (secrets : List Bytes32)
    (h : p.nextId.toNat + secrets.length < 2 ^ 32) :
    (p.mintEach C secrets).1.nextId.toNat = p.nextId.toNat + secrets.length := by
  induction secrets generalizing p with
  | nil => rfl
  | cons secret rest ih =>
    simp only [List.length_cons] at h ⊢
    have hsucc : (p.mintNext C secret).1.nextId.toNat = p.nextId.toNat + 1 :=
      (nextId_succ (by omega)).1
    rw [mintEach, ih _ (by omega), hsucc]
    omega

theorem sound_mintEach (h : Sound l) (secrets : List Bytes32)
    (hroom : l.pool.nextId.toNat + secrets.length < 2 ^ 32) :
    Sound ⟨(l.pool.mintEach C secrets).1,
      (((l.pool.mintEach C secrets).2.map fun k => .minted k.kind k.id).reverse ++ l.past)⟩ := by
  induction secrets generalizing l with
  | nil => exact h
  | cons secret rest ih =>
    simp only [List.length_cons] at hroom
    have hsucc : (l.pool.mintNext C secret).1.nextId.toNat = l.pool.nextId.toNat + 1 :=
      (nextId_succ (by omega)).1
    have hnext := ih (sound_mintNext (C := C) h (by omega) secret) (by
      simp only [hsucc]
      omega)
    simpa [mintEach, mintNext, Prekey.forSecret] using hnext

theorem sound_retire (h : Sound l) {old : UInt32} {secret : Bytes32}
    (hold : l.pool.fallback = some (old, secret)) :
    Sound ⟨{ l.pool with fallback := none, spent := l.pool.spent.insert old },
      .retired old :: l.past⟩ := by
  obtain ⟨hmint, hspent⟩ := h.fallback (old, secret) hold
  constructor
  case lawful => exact h.lawful
  case started => exact h.started
  case minted => exact fun kind j hj => h.minted kind j (by simpa using hj)
  case oneTime =>
    intro j hj
    obtain ⟨hm, hd, hs⟩ := h.oneTime j hj
    refine ⟨List.mem_cons_of_mem _ hm, by simpa using hd, ?_⟩
    simp only [ExtTreeSet.mem_insert, LawfulEqCmp.compare_eq_iff_eq, hs, or_false]
    rintro rfl
    exact absurd (h.lawful.kind_unique hm hmint) (by decide)
  case fallback => simp
  case unpublished => exact fun j hj => List.mem_cons_of_mem _ (h.unpublished j hj)
  case spent =>
    intro j hj
    simp only [ExtTreeSet.mem_insert, LawfulEqCmp.compare_eq_iff_eq] at hj
    rcases hj with rfl | hj
    · exact ⟨_, List.mem_cons_of_mem _ hmint⟩
    · obtain ⟨kind, hkind⟩ := h.spent j hj
      exact ⟨kind, List.mem_cons_of_mem _ hkind⟩
  case opened =>
    intro j ho hm
    simp only [ExtTreeSet.mem_insert, LawfulEqCmp.compare_eq_iff_eq]
    exact Or.inr (h.opened j (by simpa using ho) (by simpa using hm))
  case discarded =>
    exact fun j hd => List.mem_cons_of_mem _ (h.discarded j (by simpa using hd))
  case retired =>
    intro j hr
    simp only [ExtTreeSet.mem_insert, LawfulEqCmp.compare_eq_iff_eq]
    rcases List.mem_cons.mp hr with heq | hr
    · exact Or.inl (Event.retired.inj heq).symm
    · exact Or.inr (h.retired j hr)

theorem sound_place (h : Sound l) (hroom : l.pool.nextId.toNat + 1 < 2 ^ 32) (secret : Bytes32) :
    Sound ⟨{ l.pool with
        nextId := l.pool.nextId + 1
        fallback := some (l.pool.nextId, secret) },
      .minted Prekey.kindFallback l.pool.nextId :: l.past⟩ := by
  refine h.mint hroom rfl rfl (fun id hid => Or.inl hid) ?_ (fun id hid => Or.inl hid)
  intro f hf
  obtain rfl := Option.some.inj hf
  exact Or.inr ⟨rfl, rfl⟩

theorem sound_mintFallback (h : Sound l) (hroom : l.pool.nextId.toNat + 1 < 2 ^ 32)
    (secret : Bytes32) :
    Sound (l.step C (.mintFallback secret)) := by
  cases hold : l.pool.fallback with
  | none =>
    have hplace := sound_place h hroom secret
    simpa [Life.step, step, mintFallback, happened, hold, Prekey.forSecret] using hplace
  | some f =>
    have hplace := sound_place (sound_retire h hold) hroom secret
    simpa [Life.step, step, mintFallback, happened, hold, Prekey.forSecret] using hplace

theorem sound_open (h : Sound l) (hone : id ∈ l.pool.oneTime) (hspent : id ∉ l.pool.spent) :
    Sound ⟨{ l.pool with oneTime := l.pool.oneTime.erase id, spent := l.pool.spent.insert id },
      .opened id :: l.past⟩ := by
  obtain ⟨hmint, hdisc, _⟩ := h.oneTime id hone
  constructor
  case lawful =>
    refine ⟨⟨(h.minted _ _ hmint).1, ⟨_, hmint⟩, hdisc, fun hr => hspent (h.retired id hr), ?_⟩,
      h.lawful⟩
    exact fun hm ho => hspent (h.opened id ho hm)
  case started => exact h.started
  case minted => exact fun kind j hj => h.minted kind j (by simpa using hj)
  case oneTime =>
    intro j hj
    simp only [ExtTreeMap.mem_erase, ne_eq, LawfulEqCmp.compare_eq_iff_eq] at hj
    obtain ⟨hm, hd, hs⟩ := h.oneTime j hj.2
    simp [hm, hd, hs, hj.1]
  case fallback =>
    intro f hf
    obtain ⟨hm, hs⟩ := h.fallback f hf
    refine ⟨List.mem_cons_of_mem _ hm, ?_⟩
    simp only [ExtTreeSet.mem_insert, LawfulEqCmp.compare_eq_iff_eq, hs, or_false]
    rintro rfl
    exact absurd (h.lawful.kind_unique hmint hm) (by decide)
  case unpublished => exact fun j hj => List.mem_cons_of_mem _ (h.unpublished j hj)
  case spent =>
    intro j hj
    simp only [ExtTreeSet.mem_insert, LawfulEqCmp.compare_eq_iff_eq] at hj
    rcases hj with rfl | hj
    · exact ⟨_, List.mem_cons_of_mem _ hmint⟩
    · obtain ⟨kind, hkind⟩ := h.spent j hj
      exact ⟨kind, List.mem_cons_of_mem _ hkind⟩
  case opened =>
    intro j ho hm
    simp only [ExtTreeSet.mem_insert, LawfulEqCmp.compare_eq_iff_eq]
    rcases List.mem_cons.mp ho with heq | ho
    · exact Or.inl (Event.opened.inj heq).symm
    · exact Or.inr (h.opened j ho (by simpa using hm))
  case discarded =>
    exact fun j hd => List.mem_cons_of_mem _ (h.discarded j (by simpa using hd))
  case retired =>
    intro j hr
    simp only [ExtTreeSet.mem_insert, LawfulEqCmp.compare_eq_iff_eq]
    exact Or.inr (h.retired j (by simpa using hr))

theorem sound_openFallback (h : Sound l) {secret : Bytes32}
    (hf : l.pool.fallback = some (id, secret)) : Sound ⟨l.pool, .opened id :: l.past⟩ := by
  obtain ⟨hmint, hspent⟩ := h.fallback (id, secret) hf
  have hkind : .minted Prekey.kindOneTime id ∉ l.past := fun hm =>
    absurd (h.lawful.kind_unique hm hmint) (by decide)
  constructor
  case lawful =>
    refine ⟨⟨(h.minted _ _ hmint).1, ⟨_, hmint⟩, fun hd => hkind (h.discarded id hd),
      fun hr => hspent (h.retired id hr), fun hm => absurd hm hkind⟩, h.lawful⟩
  case started => exact h.started
  case minted => exact fun kind j hj => h.minted kind j (by simpa using hj)
  case oneTime => exact fun j hj => by simpa using h.oneTime j hj
  case fallback => exact fun f hf => by simpa using h.fallback f hf
  case unpublished => exact fun j hj => List.mem_cons_of_mem _ (h.unpublished j hj)
  case spent => exact fun j hj => by simpa using h.spent j hj
  case opened =>
    intro j ho hm
    rcases List.mem_cons.mp ho with heq | ho
    · obtain rfl := Event.opened.inj heq
      exact absurd (by simpa using hm) hkind
    · exact h.opened j ho (by simpa using hm)
  case discarded =>
    exact fun j hd => List.mem_cons_of_mem _ (h.discarded j (by simpa using hd))
  case retired => exact fun j hr => h.retired j (by simpa using hr)

theorem sound_take (h : Sound l) (id : UInt32) :
    Sound (l.step C (.take id)) := by
  obtain ⟨secret, hone, _, hspent, htake⟩ | ⟨secret, hf, _, _, _, htake⟩ | ⟨e, htake⟩ :=
    l.pool.take_cases id
  · have hmem : id ∈ l.pool.oneTime := ExtTreeMap.mem_iff_isSome_getElem?.mpr (by simp [hone])
    simpa [Life.step, step, happened, htake] using sound_open h hmem hspent
  · simpa [Life.step, step, happened, htake] using sound_openFallback h hf
  · simpa [Life.step, step, happened, htake] using h

theorem sound_shrink (h : Sound l) {unpublished : ExtTreeSet UInt32}
    (hsub : ∀ id ∈ unpublished, id ∈ l.pool.unpublished) :
    Sound ⟨{ l.pool with unpublished }, l.past⟩ :=
  { h with unpublished := fun id hid => h.unpublished id (hsub id hid) }

theorem discardUnpublished_spec (p : Pool) (ids : List UInt32) :
    ∃ oneTime unpublished, (p.discardUnpublished ids).1 = { p with oneTime, unpublished } ∧
      (∀ id, id ∈ oneTime ↔ id ∈ p.oneTime ∧ ¬ (id ∈ ids ∧ id ∈ p.unpublished)) ∧
      (∀ id, id ∈ unpublished ↔ id ∈ p.unpublished ∧ id ∉ ids) := by
  induction ids generalizing p with
  | nil => exact ⟨p.oneTime, p.unpublished, rfl, by simp, by simp⟩
  | cons j ids ih =>
    obtain ⟨oneTime, unpublished, heq, hone, hun⟩ := ih (p.discardNext j).1
    by_cases hj : j ∈ p.unpublished
    · simp only [discardNext, hj, if_true, ExtTreeMap.mem_erase, ExtTreeSet.mem_erase, ne_eq,
        LawfulEqCmp.compare_eq_iff_eq] at heq hone hun
      refine ⟨oneTime, unpublished, by simpa [discardUnpublished, discardNext, hj] using heq,
        fun id => ?_, fun id => ?_⟩
      · rw [hone id, List.mem_cons]
        by_cases hid : j = id
        · subst hid
          simp [hj]
        · simp [hid, Ne.symm hid]
      · rw [hun id, List.mem_cons, not_or]
        constructor
        · exact fun ⟨⟨hne, hmem⟩, hids⟩ => ⟨hmem, Ne.symm hne, hids⟩
        · exact fun ⟨hmem, hne, hids⟩ => ⟨⟨Ne.symm hne, hmem⟩, hids⟩
    · simp only [discardNext, hj, if_false] at heq hone hun
      refine ⟨oneTime, unpublished, by simpa [discardUnpublished, discardNext, hj] using heq,
        fun id => ?_, fun id => ?_⟩
      · rw [hone id, List.mem_cons]
        by_cases hid : id = j
        · subst hid
          simp [hj]
        · simp [hid]
      · rw [hun id, List.mem_cons, not_or]
        refine ⟨fun ⟨hmem, hids⟩ => ⟨hmem, ?_, hids⟩, fun ⟨hmem, _, hids⟩ => ⟨hmem, hids⟩⟩
        rintro rfl
        exact hj hmem

theorem lawful_discarded {ids : List UInt32} (h : Lawful past) :
    Lawful (ids.map .discarded ++ past) := by
  induction ids with
  | nil => exact h
  | cons id ids ih => exact ih

theorem sound_discard (h : Sound l) (ids : List UInt32) :
    Sound (l.step C (.discardUnpublished ids)) := by
  obtain ⟨oneTime, unpublished, heq, hone, hun⟩ := discardUnpublished_spec l.pool ids
  have hgone : ∀ id, .discarded id ∈ l.pool.happened C (.discardUnpublished ids) ↔
      id ∈ ids ∧ id ∈ l.pool.unpublished := by simp [happened]
  have hminted : ∀ kind id, .minted kind id ∉ l.pool.happened C (.discardUnpublished ids) := by
    simp [happened]
  have hopened : ∀ id, .opened id ∉ l.pool.happened C (.discardUnpublished ids) := by
    simp [happened]
  have hretired : ∀ id, .retired id ∉ l.pool.happened C (.discardUnpublished ids) := by
    simp [happened]
  have hlawful : Lawful (l.pool.happened C (.discardUnpublished ids) ++ l.past) :=
    lawful_discarded h.lawful
  simp only [Life.step, step, heq]
  generalize l.pool.happened C (.discardUnpublished ids) = events at *
  constructor
  case lawful => exact hlawful
  case started => exact h.started
  case minted =>
    exact fun kind id hm => h.minted kind id (by simpa [hminted] using hm)
  case oneTime =>
    intro id hid
    obtain ⟨hold, hkept⟩ := (hone id).mp hid
    obtain ⟨hm, hd, hs⟩ := h.oneTime id hold
    refine ⟨List.mem_append_right _ hm, ?_, hs⟩
    rw [List.mem_append, hgone]
    exact fun hor => hor.elim hkept hd
  case fallback => exact fun f hf => ⟨List.mem_append_right _ (h.fallback f hf).1,
    (h.fallback f hf).2⟩
  case unpublished =>
    exact fun id hid => List.mem_append_right _ (h.unpublished id ((hun id).mp hid).1)
  case spent =>
    intro id hid
    obtain ⟨kind, hkind⟩ := h.spent id hid
    exact ⟨kind, List.mem_append_right _ hkind⟩
  case opened =>
    exact fun id ho hm => h.opened id (by simpa [hopened] using ho) (by simpa [hminted] using hm)
  case discarded =>
    intro id hd
    refine List.mem_append_right _ ?_
    rcases List.mem_append.mp hd with hd | hd
    · exact h.unpublished id ((hgone id).mp hd).2
    · exact h.discarded id hd
  case retired => exact fun id hr => h.retired id (by simpa [hretired] using hr)

/-- One operation keeps the invariant while the counter has room for what it
mints, and moves the counter by exactly that. -/
theorem sound_step (h : Sound l) (op : Op) (hroom : l.pool.nextId.toNat + mints [op] < 2 ^ 32) :
    Sound (l.step C op) ∧
      (l.step C op).pool.nextId.toNat = l.pool.nextId.toNat + mints [op] := by
  cases op with
  | mintOneTime n draw =>
    have hroom' : l.pool.nextId.toNat + ((List.range n.toNat).map draw).length < 2 ^ 32 := by
      simpa [mints] using hroom
    refine ⟨sound_mintEach h _ hroom', ?_⟩
    simpa [Life.step, step, mintOneTime, mints] using nextId_mintEach C l.pool _ hroom'
  | mintFallback secret =>
    have hroom' : l.pool.nextId.toNat + 1 < 2 ^ 32 := by simpa [mints] using hroom
    exact ⟨sound_mintFallback h hroom' secret, (nextId_succ hroom').1⟩
  | take id =>
    refine ⟨sound_take h id, ?_⟩
    obtain ⟨_, _, _, _, htake⟩ | ⟨_, _, _, _, _, htake⟩ | ⟨_, htake⟩ := l.pool.take_cases id <;>
      simp [Life.step, step, htake, mints]
  | markPublished ids =>
    refine ⟨sound_shrink h fun id hid => ?_, rfl⟩
    exact ((l.pool.mem_unpublished_markPublished ids id).mp hid).1
  | discardUnpublished ids =>
    refine ⟨sound_discard h ids, ?_⟩
    obtain ⟨_, _, heq, _⟩ := discardUnpublished_spec l.pool ids
    simp [Life.step, step, heq, mints]
  | restart order =>
    have hstart := h.started
    have hnext : max l.pool.nextId 1 = l.pool.nextId := by
      change (if l.pool.nextId ≤ 1 then 1 else l.pool.nextId) = l.pool.nextId
      split_ifs with hle
      · have hnat := UInt32.le_iff_toNat_le.mp hle
        exact UInt32.toNat_inj.mp (Nat.le_antisymm hstart hnat)
      · rfl
    have hshrink := sound_shrink h fun id hid =>
      ((l.pool.mem_unpublished_restart order id).mp hid).1
    rw [Life.step, step, load_save]
    rw [load_save] at hshrink
    simpa [hnext, happened, mints] using hshrink

theorem mints_cons (op : Op) (ops : List Op) : mints (op :: ops) = mints [op] + mints ops := by
  cases op <;> simp [mints]

theorem sound_run (h : Sound l) (ops : List Op) (hroom : l.pool.nextId.toNat + mints ops < 2 ^ 32) :
    Sound (run (Life.step C) l ops) := by
  induction ops generalizing l with
  | nil => exact h
  | cons op ops ih =>
    rw [mints_cons] at hroom
    obtain ⟨hstep, hnext⟩ := sound_step (C := C) h op (by omega)
    exact ih hstep (by omega)

theorem run_life_pool (C : Crypto) (l : Life) (ops : List Op) :
    (run (Life.step C) l ops).pool = run (step C) l.pool ops := by
  induction ops generalizing l with
  | nil => rfl
  | cons op ops ih => exact ih _

theorem Lawful.of_append {after before : List Event} (h : Lawful (after ++ before)) :
    Lawful before := by
  induction after with
  | nil => exact h
  | cons e after ih =>
    refine ih ?_
    cases e <;> first | exact h.2 | exact h

theorem Lawful.tail {e : Event} {before : List Event} (h : Lawful (e :: before)) :
    Lawful before := by
  have happ : Lawful ([e] ++ before) := h
  exact happ.of_append

theorem Lawful.opened_once (h : Lawful past) (hone : .minted Prekey.kindOneTime id ∈ past) :
    past.count (.opened id) ≤ 1 := by
  induction past with
  | nil => simp
  | cons e before ih =>
    rcases List.mem_cons.mp hone with rfl | hold
    · have hnever : .opened id ∉ before := by
        intro ho
        obtain ⟨kind, hkind⟩ := h.tail.opened_minted ho
        exact h.1 kind hkind
      simp [List.count_eq_zero_of_not_mem hnever]
    · by_cases he : e = .opened id
      · subst he
        have hnever : .opened id ∉ before := h.1.2.2.2.2 hold
        simp [List.count_eq_zero_of_not_mem hnever]
      · rw [List.count_cons_of_ne he]
        exact ih h.tail hold

def Event.mintedId : Event → Option UInt32
  | .minted _ id => some id
  | _ => none

theorem Lawful.minted_nodup (h : Lawful past) :
    (past.filterMap Event.mintedId).Nodup := by
  induction past with
  | nil => simp
  | cons e before ih =>
    cases e with
    | minted kind id =>
      simp only [List.filterMap_cons, Event.mintedId, List.nodup_cons, List.mem_filterMap]
      refine ⟨?_, ih h.tail⟩
      rintro ⟨e, he, heq⟩
      cases e with
      | minted kind' j =>
        obtain rfl := Option.some.inj heq
        exact h.1 kind' he
      | opened j | discarded j | retired j => cases heq
    | opened id | discarded id | retired id => exact ih h.tail

/-- Over any run with fewer than `2^32 - 1` mints: no id is minted twice, a
one-time id opens at most once, nothing opens under 0, a discarded id, a replaced
fallback or an id not minted before, and every minted id stays below the counter. -/
theorem single_use (C : Crypto) (seed : Bytes32) (ops : List Op) (h : mints ops < 2 ^ 32 - 1) :
    let past := (run (Life.step C) (Life.born seed) ops).past
    (past.filterMap Event.mintedId).Nodup ∧
    (∀ id, .minted Prekey.kindOneTime id ∈ past → past.count (.opened id) ≤ 1) ∧
    (∀ after id before, past = after ++ .opened id :: before →
      id ≠ 0 ∧ .discarded id ∉ before ∧ .retired id ∉ before ∧
        ∃ kind, .minted kind id ∈ before) ∧
    ∀ kind id, .minted kind id ∈ past → id < (run (step C) (new seed) ops).nextId := by
  have hroom : (Life.born seed).pool.nextId.toNat + mints ops < 2 ^ 32 := by
    have hone : (Life.born seed).pool.nextId.toNat = 1 := rfl
    omega
  have hsound := sound_run (C := C) (sound_born seed) ops hroom
  refine ⟨hsound.lawful.minted_nodup, fun id hid => hsound.lawful.opened_once hid, ?_, ?_⟩
  · intro after id before hpast
    have hopen : Lawful (.opened id :: before) := (hpast ▸ hsound.lawful).of_append
    obtain ⟨hzero, hminted, hdiscarded, hretired, _⟩ := hopen.1
    exact ⟨hzero, hdiscarded, hretired, hminted⟩
  · intro kind id hid
    have hlt := (hsound.minted kind id hid).2
    rwa [run_life_pool] at hlt

/-- A prekey minted, published and opened, with a second `take` and a restart:
the one opening is the whole of what the history holds of it. -/
theorem single_use_replayed :
    let ops := [.mintOneTime 1 (fun _ => 5), .markPublished [1], .take 1,
      .restart ⟨.asListed, .asListed, .asListed⟩, .take 1]
    mints ops < 2 ^ 32 - 1 ∧
      (run (Life.step Crypto.toy) (Life.born 0) ops).past.count (.opened 1) ≤ 1 := by
  refine ⟨by decide, ?_⟩
  exact (single_use Crypto.toy 0 _ (by decide)).2.1 1 (by decide)

end Sqex.Pool
