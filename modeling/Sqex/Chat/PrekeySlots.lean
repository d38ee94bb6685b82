import Sqex.Chat.PrekeyRows
import Sqex.Lib.Rows

/-! What a pool and the rows it is kept in hold under each id, and that loading and saving carry it
over. -/
namespace Sqex.Chat
open Std

inductive Slot
  | free
  | spent
  | oneTime (secret : Bytes32)
  | fallback (secret : Bytes32)
  deriving DecidableEq

def Slot.secret : Slot → Option Bytes32
  | .free | .spent => none
  | .oneTime secret | .fallback secret => some secret

def PrekeyRow.slot (r : PrekeyRow) : Slot :=
  if r.spent then .spent
  else match r.secret with
    | none => .free
    | some secret => if r.isFallback then .fallback secret else .oneTime secret

def PrekeyRows.slot (rows : PrekeyRows) (id : UInt32) : Slot :=
  (rows[id]?.map PrekeyRow.slot).getD .free

end Sqex.Chat

namespace Sqex.Pool
open Chat

def fallbackAt (p : Pool) (id : UInt32) : Option Bytes32 :=
  (p.fallback.filter (·.1 == id)).map Prod.snd

def slot (p : Pool) (id : UInt32) : Slot :=
  if id ∈ p.spent then .spent
  else match p.fallbackAt id, p.oneTime[id]? with
    | some secret, _ => .fallback secret
    | none, some secret => .oneTime secret
    | none, none => .free

structure Apart (p : Pool) : Prop where
  oneTime : ∀ id secret, p.oneTime[id]? = some secret → p.slot id = .oneTime secret
  fallback : ∀ id secret, p.fallback = some (id, secret) → p.slot id = .fallback secret

end Sqex.Pool

namespace Sqex.Chat
open Std

namespace PrekeyRows
variable {rows : PrekeyRows} {id : UInt32}

def Single (rows : PrekeyRows) : Prop :=
  ∀ id id' secret secret', rows.slot id = .fallback secret → rows.slot id' = .fallback secret' →
    id = id'

theorem slot_eq_spent_iff : rows.slot id = .spent ↔ ∃ r, rows[id]? = some r ∧ r.spent = true := by
  unfold slot PrekeyRow.slot
  cases rows[id]? with
  | none => simp
  | some r =>
    simp
    grind

theorem slot_eq_oneTime_iff {secret : Bytes32} : rows.slot id = .oneTime secret ↔
    ∃ r, rows[id]? = some r ∧ r.isFallback = false ∧ r.held = some secret := by
  unfold slot PrekeyRow.slot PrekeyRow.held
  cases rows[id]? with
  | none => simp
  | some r =>
    simp
    grind

theorem slot_eq_fallback_iff {secret : Bytes32} : rows.slot id = .fallback secret ↔
    ∃ r, rows[id]? = some r ∧ r.isFallback = true ∧ r.held = some secret := by
  unfold slot PrekeyRow.slot PrekeyRow.held
  cases rows[id]? with
  | none => simp
  | some r =>
    simp
    grind

section
variable (rows) (seed : Bytes32) (now : UInt32)

theorem mem_pool_spent : id ∈ (rows.pool seed now).spent ↔ rows.slot id = .spent := by
  rw [slot_eq_spent_iff]
  simp [pool, Pool.load, state, ExtTreeSet.mem_ofList,
    ExtTreeMap.mem_toList_iff_getElem?_eq_some]

theorem pool_oneTime {secret : Bytes32} :
    (rows.pool seed now).oneTime[id]? = some secret ↔ rows.slot id = .oneTime secret := by
  rw [slot_eq_oneTime_iff]
  simp only [pool, Pool.load, state]
  rw [getElem?_ofList_iff (nodup_keys_filterMap ?_)]
  · simp only [List.mem_filterMap, Prod.exists, ExtTreeMap.mem_toList_iff_getElem?_eq_some,
      Option.ite_none_left_eq_some, Option.map_eq_some_iff, Prod.mk.injEq]
    constructor
    · rintro ⟨_, r, hr, hkind, _, hheld, rfl, rfl⟩
      exact ⟨r, hr, by simpa using hkind, hheld⟩
    · rintro ⟨r, hr, hkind, hheld⟩
      exact ⟨id, r, hr, by simpa using hkind, secret, hheld, rfl, rfl⟩
  · intro r q hq
    simp only [Option.ite_none_left_eq_some, Option.map_eq_some_iff] at hq
    obtain ⟨-, _, -, rfl⟩ := hq
    rfl

theorem pool_fallback (hsingle : rows.Single) {secret : Bytes32} :
    (rows.pool seed now).fallback = some (id, secret) ↔ rows.slot id = .fallback secret := by
  have hmem : ∀ q : UInt32 × Bytes32, q ∈ (rows.toList.filterMap fun r =>
      if r.2.isFallback then r.2.held.map (r.1, ·) else none) ↔
        rows.slot q.1 = .fallback q.2 := by
    intro q
    rw [slot_eq_fallback_iff]
    simp only [List.mem_filterMap, Prod.exists, ExtTreeMap.mem_toList_iff_getElem?_eq_some,
      Option.ite_none_right_eq_some, Option.map_eq_some_iff]
    constructor
    · rintro ⟨_, r, hr, hkind, _, hheld, rfl⟩
      exact ⟨r, hr, hkind, hheld⟩
    · rintro ⟨r, hr, hkind, hheld⟩
      exact ⟨q.1, r, hr, hkind, q.2, hheld, rfl⟩
  simp only [pool, Pool.load, state]
  constructor
  · exact fun hlast => (hmem (id, secret)).mp (List.mem_of_getLast? hlast)
  · intro hslot
    have hin := (hmem (id, secret)).mpr hslot
    obtain ⟨q, hq⟩ := Option.isSome_iff_exists.mp
      (List.getLast?_isSome.mpr (List.ne_nil_of_mem hin))
    have hq' := (hmem q).mp (List.mem_of_getLast? hq)
    have hid := hsingle id q.1 secret q.2 hslot hq'
    rw [hid] at hslot
    rw [hslot, Slot.fallback.injEq] at hq'
    rw [hq, hid, hq']

theorem pool_slot (hsingle : rows.Single) (id : UInt32) :
    (rows.pool seed now).slot id = rows.slot id := by
  have hspent : id ∈ (rows.pool seed now).spent ↔ rows.slot id = .spent :=
    rows.mem_pool_spent seed now
  have hone : ∀ secret, (rows.pool seed now).oneTime[id]? = some secret ↔
      rows.slot id = .oneTime secret := fun _ => rows.pool_oneTime seed now
  have hfall : ∀ secret, (rows.pool seed now).fallback = some (id, secret) ↔
      rows.slot id = .fallback secret := fun _ => rows.pool_fallback seed now hsingle
  have hat : ∀ secret, (rows.pool seed now).fallbackAt id = some secret ↔
      rows.slot id = .fallback secret := by
    intro secret
    rw [← hfall, Pool.fallbackAt]
    simp only [Option.map_eq_some_iff, Option.filter_eq_some_iff, beq_iff_eq]
    constructor
    · rintro ⟨q, ⟨hq, rfl⟩, rfl⟩
      exact hq
    · exact fun hq => ⟨(id, secret), ⟨hq, rfl⟩, rfl⟩
  unfold Pool.slot
  simp only [hspent]
  cases hfallback : (rows.pool seed now).fallbackAt id with
  | some secret =>
    have hslot := (hat secret).mp hfallback
    simp [hslot]
  | none =>
    cases honetime : (rows.pool seed now).oneTime[id]? with
    | some secret =>
      have hslot := (hone secret).mp honetime
      simp [hslot]
    | none =>
      cases hslot : rows.slot id with
      | free | spent => rfl
      | oneTime secret => simp [(hone secret).mpr hslot] at honetime
      | fallback secret => simp [(hat secret).mpr hslot] at hfallback

theorem pool_apart (hsingle : rows.Single) : (rows.pool seed now).Apart where
  oneTime id secret h := by
    rw [rows.pool_slot seed now hsingle]
    exact (rows.pool_oneTime seed now).mp h
  fallback id secret h := by
    rw [rows.pool_slot seed now hsingle]
    exact (rows.pool_fallback seed now hsingle).mp h

end

def Known (kind : UInt8) : Prop := kind = Prekey.kindOneTime ∨ kind = Prekey.kindFallback

def Formed (rows : PrekeyRows) : Prop :=
  ∀ (id : UInt32) (r : PrekeyRow), rows[id]? = some r →
    Known r.kind ∧ (r.spent = false → r.secret.isSome = true)

theorem Formed.mem_iff (h : rows.Formed) : id ∈ rows ↔ rows.slot id ≠ .free := by
  rw [ExtTreeMap.mem_iff_isSome_getElem?]
  unfold slot PrekeyRow.slot
  cases hr : rows[id]? with
  | none => simp
  | some r =>
    have hsecret := (h id r hr).2
    simp
    grind

end PrekeyRows

/-- What the row of an id may be written over with: a kind stays, and what is spent is spent. -/
def Slot.Becomes : Slot → Slot → Prop
  | .free, _ | .spent, .spent | .oneTime _, .oneTime _ | .oneTime _, .spent | .oneTime _, .free
  | .fallback _, .fallback _ | .fallback _, .spent => True
  | _, _ => False

namespace PrekeyRows
variable {rows : PrekeyRows} {p : Pool} {order : Pool.SaveOrder} {id : UInt32}

def kept (rows : PrekeyRows) (p : Pool) : PrekeyRows :=
  rows.filter fun id r => !r.isOneTime || decide (id ∈ p.oneTime)

theorem getElem?_kept : (rows.kept p)[id]? =
    rows[id]?.filter fun r => !r.isOneTime || decide (id ∈ p.oneTime) := by
  rw [kept, ExtTreeMap.getElem?_filter']

section
variable (rows : PrekeyRows) (p : Pool) (order : Pool.SaveOrder)

def withOneTime : PrekeyRows :=
  (p.save order).oneTime.foldl (putOneTime (p.save order).unpublished) (rows.kept p)

theorem getElem?_withOneTime (id : UInt32) : ∃ published, (rows.withOneTime p order)[id]? =
    (p.oneTime[id]?.map fun secret =>
      { (rows.kept p)[id]?.getD ⟨Prekey.kindOneTime, none, false, true⟩ with
        secret := some secret, spent := false, published := published }).or
          (rows.kept p)[id]? := by
  have hnodup : ((p.save order).oneTime.map Prod.fst).Nodup := by
    have hkeys : (p.oneTime.toList.map Prod.fst).Nodup := by
      rw [ExtTreeMap.map_fst_toList_eq_keys]
      exact p.oneTime.nodup_keys
    exact ((order.oneTime.perm p.oneTime.toList).map Prod.fst).nodup_iff.mpr hkeys
  have hfold := getElem?_foldl_insert (Prod.fst : UInt32 × Bytes32 → UInt32)
    (fun k old => { old.getD ⟨Prekey.kindOneTime, none, false, true⟩ with
      secret := some k.2, spent := false
      published := !(p.save order).unpublished.contains k.1 })
    (rows.kept p) (p.save order).oneTime hnodup id
  refine ⟨!(p.save order).unpublished.contains id, hfold.trans ?_⟩
  cases hfound : (p.save order).oneTime.find? (·.1 = id) with
  | none =>
    have hnone : p.oneTime[id]? = none := by
      by_contra hsome
      obtain ⟨secret, hsecret⟩ := Option.ne_none_iff_exists'.mp hsome
      have hmem : (id, secret) ∈ (p.save order).oneTime := by
        simpa [Pool.save, ExtTreeMap.mem_toList_iff_getElem?_eq_some] using hsecret
      simpa using List.find?_eq_none.mp hfound _ hmem
    rw [hnone]
    rfl
  | some k =>
    have hid : k.1 = id := by simpa using List.find?_some hfound
    have hsecret : p.oneTime[k.1]? = some k.2 := by
      have hmem := List.mem_of_find?_eq_some hfound
      exact ExtTreeMap.mem_toList_iff_getElem?_eq_some.mp (by simpa [Pool.save] using hmem)
    subst hid
    rw [hsecret]
    rfl

def withFallback : PrekeyRows :=
  p.fallback.elim (rows.withOneTime p order) (rows.withOneTime p order).putFallback

end

theorem getElem?_withFallback : (rows.withFallback p order)[id]? =
    ((p.fallbackAt id).map fun secret =>
      { (rows.withOneTime p order)[id]?.getD ⟨Prekey.kindFallback, none, false, true⟩ with
        secret := some secret, spent := false }).or (rows.withOneTime p order)[id]? := by
  unfold withFallback Pool.fallbackAt
  cases p.fallback with
  | none => rfl
  | some k =>
    simp only [Option.elim_some, putFallback, lookup_insert, Option.filter_some]
    by_cases hid : k.1 = id
    · simp [hid]
    · simp [hid]

theorem getElem?_save : (rows.save p order)[id]? =
    if id ∈ p.spent then
      some { (rows.withFallback p order)[id]?.getD ⟨Prekey.kindOneTime, none, false, true⟩ with
        secret := none, spent := true }
    else (rows.withFallback p order)[id]? := by
  have hsave : rows.save p order =
      (p.save order).spent.foldl putSpent (rows.withFallback p order) := by
    have hkept : (rows.filter fun id r =>
        !r.isOneTime || ((p.save order).oneTime.map Prod.fst).contains id) = rows.kept p := by
      refine ExtTreeMap.ext_getElem? fun id => ?_
      rw [getElem?_kept, ExtTreeMap.getElem?_filter']
      have hin : ((p.save order).oneTime.map Prod.fst).contains id = decide (id ∈ p.oneTime) := by
        rw [Bool.eq_iff_iff, decide_eq_true_iff, ExtTreeMap.mem_iff_isSome_getElem?,
          Option.isSome_iff_exists]
        simp [Pool.save, ExtTreeMap.mem_toList_iff_getElem?_eq_some]
      rw [hin]
    unfold save saveState withFallback withOneTime
    rw [hkept]
    rfl
  have hnodup : ((p.save order).spent.map fun id => id).Nodup := by
    have hdistinct : p.spent.toList.Nodup := by
      refine p.spent.distinct_toList.imp fun {a b} hab heq => hab ?_
      rw [heq]
      exact ReflCmp.compare_self
    rw [List.map_id']
    exact (order.spent.perm p.spent.toList).nodup_iff.mpr hdistinct
  have hfold := getElem?_foldl_insert (fun id : UInt32 => id)
    (fun _ old => { old.getD ⟨Prekey.kindOneTime, none, false, true⟩ with
      secret := none, spent := true })
    (rows.withFallback p order) (p.save order).spent hnodup id
  rw [hsave]
  refine hfold.trans ?_
  by_cases hspent : id ∈ p.spent
  · have hfound : (p.save order).spent.find? (· = id) = some id := by
      have hmem : id ∈ (p.save order).spent := by simpa [Pool.save] using hspent
      obtain ⟨x, hx⟩ := Option.isSome_iff_exists.mp
        (List.find?_isSome.mpr ⟨id, hmem, by simp⟩ :
          ((p.save order).spent.find? (· = id)).isSome = true)
      have hid : x = id := by simpa using List.find?_some hx
      rw [hx, hid]
    rw [hfound, if_pos hspent]
    rfl
  · have hnone : (p.save order).spent.find? (· = id) = none := by
      refine List.find?_eq_none.mpr fun x hx => ?_
      have hin : x ∈ p.spent := by simpa [Pool.save] using hx
      simpa using fun heq : x = id => hspent (heq ▸ hin)
    rw [hnone, if_neg hspent]
    rfl

theorem kind_withOneTime (hformed : rows.Formed) (r : PrekeyRow)
    (hr : (rows.withOneTime p order)[id]? = some r) : Known r.kind := by
  have hkept : ∀ r, (rows.kept p)[id]? = some r → Known r.kind := by
    intro r hr
    rw [getElem?_kept, Option.filter_eq_some_iff] at hr
    exact (hformed id r hr.1).1
  obtain ⟨published, hrow⟩ := rows.getElem?_withOneTime p order id
  rw [hrow] at hr
  cases hsecret : p.oneTime[id]? with
  | none =>
    rw [hsecret, Option.map_none, Option.none_or] at hr
    exact hkept r hr
  | some secret =>
    rw [hsecret, Option.map_some, Option.some_or, Option.some.injEq] at hr
    rw [← hr]
    cases hold : (rows.kept p)[id]? with
    | none => exact .inl rfl
    | some old => exact hkept old hold

theorem kind_save (hformed : rows.Formed) (r : PrekeyRow)
    (hr : (rows.save p order)[id]? = some r) : Known r.kind := by
  have hwith : ∀ r, (rows.withFallback p order)[id]? = some r → Known r.kind := by
    intro r hr
    rw [getElem?_withFallback] at hr
    cases hsecret : p.fallbackAt id with
    | none =>
      rw [hsecret, Option.map_none, Option.none_or] at hr
      exact kind_withOneTime hformed r hr
    | some secret =>
      rw [hsecret, Option.map_some, Option.some_or, Option.some.injEq] at hr
      rw [← hr]
      cases hbefore : (rows.withOneTime p order)[id]? with
      | none => exact .inr rfl
      | some old => exact kind_withOneTime hformed old hbefore
  rw [getElem?_save] at hr
  split_ifs at hr
  · rw [← Option.some.inj hr]
    cases hbefore : (rows.withFallback p order)[id]? with
    | none => exact .inl rfl
    | some old => exact hwith old hbefore
  · exact hwith r hr

theorem Formed.row (h : rows.Formed) {r : PrekeyRow} (hr : rows[id]? = some r) :
    r.isOneTime = false ∧ r.slot = .spent ∨
      r.isOneTime = false ∧ r.isFallback = true ∧ (∃ k, r.slot = .fallback k) ∨
      r.isOneTime = true ∧ r.isFallback = false ∧ ∃ k, r.slot = .oneTime k := by
  obtain ⟨hkind, hsecret⟩ := h id r hr
  unfold PrekeyRow.slot PrekeyRow.isOneTime PrekeyRow.isFallback
  cases hspent : r.spent with
  | true => simp
  | false =>
    obtain ⟨k, hk⟩ := Option.isSome_iff_exists.mp (hsecret hspent)
    cases hkind with
    | inl hone => simp [hone, hk, Prekey.kindOneTime, Prekey.kindFallback]
    | inr hfallback => simp [hfallback, hk, Prekey.kindOneTime, Prekey.kindFallback]

theorem Formed.isOneTime (h : rows.Formed) {r : PrekeyRow} (hr : rows[id]? = some r) :
    (r.kind == Prekey.kindOneTime && !r.spent) = r.isOneTime := by
  unfold PrekeyRow.isOneTime
  cases hspent : r.spent with
  | true => simp
  | false => simp [(h id r hr).2 hspent]

theorem save_slot (hformed : rows.Formed) (hapart : p.Apart)
    (hbecomes : ∀ id, (rows.slot id).Becomes (p.slot id)) (order : Pool.SaveOrder) (id : UInt32) :
    (rows.save p order).slot id = p.slot id := by
  have hbecome := hbecomes id
  unfold slot at hbecome ⊢
  rw [getElem?_save]
  by_cases hspent : id ∈ p.spent
  · simp [hspent, PrekeyRow.slot, Pool.slot]
  rw [if_neg hspent, getElem?_withFallback]
  obtain ⟨published, hone⟩ := rows.getElem?_withOneTime p order id
  rw [hone]
  cases hfallback : p.fallbackAt id with
  | some secret =>
    have hslot : p.slot id = .fallback secret := by simp [Pool.slot, hspent, hfallback]
    have hnone : p.oneTime[id]? = none := by
      cases hsecret : p.oneTime[id]? with
      | none => rfl
      | some secret' => simp [hapart.oneTime id secret' hsecret] at hslot
    rw [hslot] at hbecome ⊢
    rw [hnone, getElem?_kept]
    cases hr : rows[id]? with
    | none => simp [PrekeyRow.slot, PrekeyRow.isFallback]
    | some r =>
      rw [hr, Option.map_some, Option.getD_some] at hbecome
      obtain ⟨-, hspent'⟩ | ⟨hone', hkind, -⟩ | ⟨-, -, k, hk⟩ := hformed.row hr
      · simp [hspent', Slot.Becomes] at hbecome
      · have hkind' : (r.kind == Prekey.kindFallback) = true := hkind
        simp [Option.filter_some, hone', PrekeyRow.slot, PrekeyRow.isFallback, hkind']
      · simp [hk, Slot.Becomes] at hbecome
  | none =>
    cases hsecret : p.oneTime[id]? with
    | some secret =>
      have hslot : p.slot id = .oneTime secret := hapart.oneTime id secret hsecret
      have hmem : id ∈ p.oneTime := ExtTreeMap.mem_iff_isSome_getElem?.mpr (by simp [hsecret])
      rw [hslot] at hbecome ⊢
      rw [getElem?_kept]
      cases hr : rows[id]? with
      | none => simp [PrekeyRow.slot, PrekeyRow.isFallback, Prekey.kindOneTime, Prekey.kindFallback]
      | some r =>
        rw [hr, Option.map_some, Option.getD_some] at hbecome
        obtain ⟨-, hspent'⟩ | ⟨-, -, k, hk⟩ | ⟨-, hkind, -⟩ := hformed.row hr
        · simp [hspent', Slot.Becomes] at hbecome
        · simp [hk, Slot.Becomes] at hbecome
        · have hkind' : (r.kind == Prekey.kindFallback) = false := hkind
          simp [Option.filter_some, hmem, PrekeyRow.slot, PrekeyRow.isFallback, hkind']
    | none =>
      have hslot : p.slot id = .free := by simp [Pool.slot, hspent, hfallback, hsecret]
      have hnot : id ∉ p.oneTime := by simpa using hsecret
      rw [hslot] at hbecome ⊢
      rw [getElem?_kept]
      cases hr : rows[id]? with
      | none => rfl
      | some r =>
        rw [hr, Option.map_some, Option.getD_some] at hbecome
        obtain ⟨-, hspent'⟩ | ⟨-, -, k, hk⟩ | ⟨hone', -, -⟩ := hformed.row hr
        · simp [hspent', Slot.Becomes] at hbecome
        · simp [hk, Slot.Becomes] at hbecome
        · simp [Option.filter_some, hone', hnot]

theorem save_formed (hformed : rows.Formed) (order : Pool.SaveOrder) :
    (rows.save p order).Formed := by
  intro id r hr
  refine ⟨kind_save hformed r hr, fun hlive => ?_⟩
  rw [getElem?_save] at hr
  split_ifs at hr
  · rw [← Option.some.inj hr] at hlive
    cases hlive
  · rw [getElem?_withFallback] at hr
    cases hfallback : p.fallbackAt id with
    | some secret =>
      rw [hfallback, Option.map_some, Option.some_or, Option.some.injEq] at hr
      rw [← hr]
      rfl
    | none =>
      obtain ⟨published, hone⟩ := rows.getElem?_withOneTime p order id
      rw [hfallback, Option.map_none, Option.none_or, hone] at hr
      cases hsecret : p.oneTime[id]? with
      | some secret =>
        rw [hsecret, Option.map_some, Option.some_or, Option.some.injEq] at hr
        rw [← hr]
        rfl
      | none =>
        rw [hsecret, Option.map_none, Option.none_or, getElem?_kept,
          Option.filter_eq_some_iff] at hr
        exact (hformed id r hr.1).2 hlive

end PrekeyRows

end Sqex.Chat
