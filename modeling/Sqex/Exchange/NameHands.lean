import Sqex.Exchange.Names
import Sqex.Lib.Rows
import Sqex.Lib.Runs

/-! A name changes hands by an assignment, a succession, a release, or a lease that ran out; and
claims keep to one name an account, to the total and to the hour, at times the signed column holds.
-/
namespace Sqex.Directory
open Runs Std
variable {s s' : Names} {now clock : UInt64} {n : String} {act : Act} {row row' : Option NameRow}
variable {p : Past} {account a b : PubKey}

namespace Names

section
variable (now : UInt64) (n : String) (account : PubKey) (s : Names)

structure Refuses : Prop where
  refused : (s.claim now n account).2 ≠ .granted
  others : ∀ row, s.name[n]? = some row → row.account ≠ account
  eq : ∃ claims, (claims = s.claims ∨ claims = (rateLimited now account s.claims).1) ∧
    (s.claim now n account).1 = { s with claims }

def Renews : Prop :=
  ∃ row, s.name[n]? = some row ∧ row.account = account ∧ s.claim now n account =
    ({ s with name := s.name.insert n { row with lastActive := now.toInt64 } }, .granted)

/-- A claim that takes a name up: one that is free or whose lease ran out, by an account that
holds none, within the total and the hour. -/
structure TakesUp : Prop where
  lapsed : ∀ row, s.name[n]? = some row → row.account ≠ account ∧ row.adminSet = false ∧
    s.expires false row.lastActive.toUInt64 ≤ now
  none : s.held account = 0
  room : s.name[n]? = Option.none → ∀ cap, s.maxNames = some cap → s.name.size < cap.toNat
  within : (rateLimited now account s.claims).2 = false
  eq : s.claim now n account =
    ({ s with
        name := s.name.insert n ⟨account, now.toInt64, now.toInt64, false⟩
        claims := recordClaim now account (rateLimited now account s.claims).1 }, .granted)

theorem takeUp_cases (fresh : Bool) (s : Names) :
    ((s.takeUp now n account fresh).2 ≠ .granted ∧
      ∃ claims, (claims = s.claims ∨ claims = (rateLimited now account s.claims).1) ∧
        (s.takeUp now n account fresh).1 = { s with claims }) ∨
    (s.held account = 0 ∧
      (fresh = true → ∀ cap, s.maxNames = some cap → s.name.size < cap.toNat) ∧
      (rateLimited now account s.claims).2 = false ∧
      s.takeUp now n account fresh =
        ({ s with
            name := s.name.insert n ⟨account, now.toInt64, now.toInt64, false⟩
            claims := recordClaim now account (rateLimited now account s.claims).1 },
          .granted)) := by
  by_cases hheld : 1 ≤ s.held account
  · have h : s.takeUp now n account fresh = (s, .atCapacity) := if_pos hheld
    exact .inl ⟨by simp [h], s.claims, .inl rfl, by rw [h]⟩
  by_cases hfull : (fresh && s.maxNames.any fun cap => cap.toNat ≤ s.name.size) = true
  · have h : s.takeUp now n account fresh = (s, .full) := by
      rw [takeUp, if_neg hheld, if_pos hfull]
    exact .inl ⟨by simp [h], s.claims, .inl rfl, by rw [h]⟩
  cases hlimited : (rateLimited now account s.claims).2 with
  | true =>
    have h : s.takeUp now n account fresh =
        ({ s with claims := (rateLimited now account s.claims).1 }, .rateLimited) := by
      simp [takeUp, hheld, hfull, hlimited]
    exact .inl ⟨by simp [h], _, .inr rfl, by rw [h]⟩
  | false =>
    right
    refine ⟨by omega, fun hfresh cap hcap => ?_, rfl, by simp [takeUp, hheld, hfull, hlimited]⟩
    simpa [hfresh, hcap] using hfull

end

theorem Refuses.name (h : s.Refuses now n account) : (s.claim now n account).1.name = s.name := by
  obtain ⟨claims, -, heq⟩ := h.eq
  rw [heq]

theorem claim_cases (now : UInt64) (n : String) (account : PubKey) (s : Names) :
    s.Refuses now n account ∨ s.Renews now n account ∨ s.TakesUp now n account := by
  cases hrow : s.name[n]? with
  | none =>
    have hclaim : s.claim now n account = s.takeUp now n account true := by simp [claim, hrow]
    obtain ⟨hrefused, hstate⟩ | ⟨hheld, hroom, hwithin, heq⟩ := takeUp_cases now n account true s
    · rw [← hclaim] at hrefused hstate
      exact .inl ⟨hrefused, by simp [hrow], hstate⟩
    · rw [← hclaim] at heq
      exact .inr (.inr ⟨by simp [hrow], hheld, fun _ => hroom rfl, hwithin, heq⟩)
  | some row =>
    by_cases hown : row.account = account
    · exact .inr (.inl ⟨row, hrow, hown, by simp [claim, hrow, hown]⟩)
    by_cases hlapsed :
        (! row.adminSet && s.expires row.adminSet row.lastActive.toUInt64 ≤ now) = true
    · have hclaim : s.claim now n account = s.takeUp now n account false := by
        simp only [claim, hrow, if_neg hown, if_pos hlapsed]
      obtain ⟨hrefused, hstate⟩ | ⟨hheld, -, hwithin, heq⟩ := takeUp_cases now n account false s
      · rw [← hclaim] at hrefused hstate
        refine .inl ⟨hrefused, fun r hr => ?_, hstate⟩
        obtain rfl : row = r := by simpa [hrow] using hr
        exact hown
      · rw [← hclaim] at heq
        refine .inr (.inr ⟨fun r hr => ?_, hheld, by simp [hrow], hwithin, heq⟩)
        obtain rfl : row = r := by simpa [hrow] using hr
        simp only [Bool.and_eq_true, Bool.not_eq_true', decide_eq_true_eq] at hlapsed
        rw [← hlapsed.1]
        exact ⟨hown, rfl, hlapsed.2⟩
    · have hclaim : s.claim now n account = (s, .taken) := by
        simp only [claim, hrow, if_neg hown, if_neg hlapsed]
      refine .inl ⟨by simp [hclaim], fun r hr => ?_, s.claims, .inl rfl, by rw [hclaim]⟩
      obtain rfl : row = r := by simpa [hrow] using hr
      exact hown

end Names

inductive Moved (s : Names) (now : UInt64) (n : String) :
    Act → Option NameRow → Option NameRow → Prop
  | kept {act : Act} {row : Option NameRow}
      (hquiet : ∀ r, row = some r → act.shows n r.account = true → r.adminSet = true) :
      Moved s now n act row row
  | renewed {act : Act} {r : NameRow} (hshows : act.shows n r.account = true) :
      Moved s now n act (some r) (some { r with lastActive := now.toInt64 })
  | takenUp {account : PubKey} {row : Option NameRow}
      (hlapsed : ∀ r, row = some r → r.account ≠ account ∧ r.adminSet = false ∧
        s.expires false r.lastActive.toUInt64 ≤ now) :
      Moved s now n (.claim n account) row (some ⟨account, now.toInt64, now.toInt64, false⟩)
  | freed {act : Act} {r : NameRow} (hfrees : act.frees n = true)
      (hby : act = .release n r.account ∨ act = .releaseAdmin n) : Moved s now n act (some r) none
  | assigned {account : PubKey} {row : Option NameRow} (registeredAt : Int64) :
      Moved s now n (.assign n account) row (some ⟨account, registeredAt, now.toInt64, true⟩)
  | succeeded {r : NameRow} (successor : PubKey) :
      Moved s now n (.succeed r.account successor) (some r) (some { r with account := successor })
  | swept {r : NameRow} (hopen : r.adminSet = false)
      (hold : r.lastActive < (Saturating.sub now (Saturating.mul s.leaseSecs 2)).toInt64) :
      Moved s now n .sweep (some r) none

section Moving

section
variable (now : UInt64) (m n : String) (account : PubKey) (s : Names)

theorem moved_claim :
    Moved s now n (.claim m account) s.name[n]? (s.claim now m account).1.name[n]? := by
  have hother : ∀ a, m ≠ n → Act.shows n a (.claim m account) = false := by
    intro a hne
    simp [Act.shows, hne]
  obtain hrefuses | ⟨row, hrow, rfl, heq⟩ | htakes := s.claim_cases now m account
  · rw [hrefuses.name]
    refine .kept fun r hr hshows => ?_
    by_cases hm : m = n
    · subst hm
      have hne := hrefuses.others r hr
      simp [Act.shows, hne.symm] at hshows
    · rw [hother _ hm] at hshows
      simp at hshows
  · rw [heq, lookup_insert]
    by_cases hm : m = n
    · subst hm
      rw [if_pos rfl, hrow]
      exact .renewed (by simp [Act.shows])
    · rw [if_neg hm]
      exact .kept fun r _ hshows => by simp [hother _ hm] at hshows
  · rw [htakes.eq, lookup_insert]
    by_cases hm : m = n
    · subst hm
      rw [if_pos rfl]
      exact .takenUp htakes.lapsed
    · rw [if_neg hm]
      exact .kept fun r _ hshows => by simp [hother _ hm] at hshows

theorem moved_release :
    Moved s now n (.release m account) s.name[n]? (s.release m account).1.name[n]? := by
  have hkept : Moved s now n (.release m account) s.name[n]? s.name[n]? :=
    .kept fun r _ hshows => by simp [Act.shows] at hshows
  unfold Names.release
  split
  · exact hkept
  · rename_i row hrow
    split
    · subst account
      rw [lookup_erase]
      by_cases hm : m = n
      · subst hm
        rw [if_pos rfl, hrow]
        exact .freed (by simp [Act.frees]) (.inl rfl)
      · rw [if_neg hm]
        exact hkept
    · exact hkept

theorem moved_releaseAdmin :
    Moved s now n (.releaseAdmin m) s.name[n]? (s.releaseAdmin m).1.name[n]? := by
  have hquiet : ∀ r, s.name[n]? = some r → Act.shows n r.account (.releaseAdmin m) = true →
      r.adminSet = true := by simp [Act.shows]
  rw [Names.releaseAdmin, lookup_erase]
  by_cases hm : m = n
  · subst hm
    rw [if_pos rfl]
    cases hrow : s.name[m]? with
    | none => exact .kept (by simp)
    | some r => exact .freed (by simp [Act.frees]) (.inr rfl)
  · rw [if_neg hm]
    exact .kept hquiet

theorem moved_assign :
    Moved s now n (.assign m account) s.name[n]? (s.assign now m account).name[n]? := by
  rw [Names.assign, lookup_insert]
  by_cases hm : m = n
  · subst hm
    rw [if_pos rfl]
    exact .assigned _
  · rw [if_neg hm]
    exact .kept (by simp [Act.shows])

theorem moved_succeed (successor : PubKey) (s : Names) :
    Moved s now n (.succeed account successor) s.name[n]?
      (s.succeed account successor).name[n]? := by
  rw [Names.succeed, ExtTreeMap.getElem?_map]
  cases hrow : s.name[n]? with
  | none => exact .kept (by simp)
  | some r =>
    rw [Option.map_some]
    split
    · subst account
      exact .succeeded successor
    · exact .kept (by simp [Act.shows])

theorem moved_renew : Moved s now n (.renew account) s.name[n]? (s.renew now account).name[n]? := by
  rw [Names.renew, ExtTreeMap.getElem?_map]
  cases hrow : s.name[n]? with
  | none => exact .kept (by simp)
  | some r =>
    rw [Option.map_some]
    split
    · rename_i hopen
      exact .renewed (by simp [Act.shows, hopen.1])
    · rename_i hclosed
      refine .kept fun r' hr' hshows => ?_
      obtain rfl : r = r' := by simpa using hr'
      obtain rfl : account = r.account := by simpa [Act.shows] using hshows
      simpa using hclosed

theorem moved_sweep : Moved s now n .sweep s.name[n]? (s.sweep now).name[n]? := by
  rw [Names.sweep, ExtTreeMap.getElem?_filter']
  cases hrow : s.name[n]? with
  | none => exact .kept (by simp)
  | some r =>
    rw [Option.filter_some]
    split
    · exact .kept (by simp [Act.shows])
    · rename_i hgone
      simp only [Bool.not_eq_true', Bool.and_eq_false_iff, Bool.not_eq_false',
        decide_eq_false_iff_not, not_or, Bool.not_eq_true, Decidable.not_not] at hgone
      exact .swept hgone.1 hgone.2

theorem moved (now : UInt64) (n : String) (act : Act) :
    Moved s now n act s.name[n]? (s.after now act).name[n]? := by
  cases act with
  | claim m account => exact moved_claim now m n account s
  | release m account => exact moved_release now m n account s
  | assign m account => exact moved_assign now m n account s
  | releaseAdmin m => exact moved_releaseAdmin now m n s
  | succeed account successor => exact moved_succeed now n account successor s
  | renew account => exact moved_renew now n account s
  | sweep => exact moved_sweep now n s
  | sweepRateLimiter => exact .kept (by simp [Act.shows])

end

end Moving

section Past

/-- The account of a name was last active, as its holder, a lease ago or longer. -/
def Past.Lapsed (leaseSecs now : UInt64) (p : Past) : Prop :=
  p.active ≠ [] ∧ ∀ t ∈ p.active, t.toNat + leaseSecs.toNat ≤ now.toNat

instance : Decidable (p.Lapsed clock now) :=
  have : Decidable (∀ t ∈ p.active, t.toNat + clock.toNat ≤ now.toNat) := List.decidableBAll _ _
  inferInstanceAs (Decidable (_ ∧ _))

theorem Past.Lapsed.later {leaseSecs : UInt64} (h : p.Lapsed leaseSecs clock)
    (hclock : clock ≤ now) : p.Lapsed leaseSecs now := by
  refine ⟨h.1, fun t ht => ?_⟩
  have hlapsed := h.2 t ht
  have hle := UInt64.le_iff_toNat_le.mp hclock
  omega

structure Sound (leaseSecs clock : UInt64) (row : Option NameRow) (p : Past) : Prop where
  bound : ∀ r, row = some r → p.holder = some r.account ∧ p.freed = false
  active : ∀ t ∈ p.active, t ≤ clock
  last : ∀ r, row = some r → r.lastActive.toUInt64 ≤ clock
  leased : ∀ r, row = some r → r.adminSet = false →
    r.lastActive.toUInt64 ∈ p.active ∧ ∀ t ∈ p.active, t ≤ r.lastActive.toUInt64
  lapsed : row = none → p.holder.isSome = true → p.freed = false → p.Lapsed leaseSecs clock

theorem Sound.found (h : ∀ r, row = some r → r.lastActive.toUInt64 ≤ clock) :
    Sound s.leaseSecs clock row (.found row) := by
  cases row with
  | none => constructor <;> simp [Past.found]
  | some r =>
    have hlast := h r rfl
    constructor <;> simp [Past.found, hlast]

/-- An open row whose lease ran out tells of a holder not active since. -/
theorem Sound.expired {r : NameRow} (h : Sound s.leaseSecs clock (some r) p)
    (hopen : r.adminSet = false) (hexpired : s.expires false r.lastActive.toUInt64 ≤ now)
    (hnow : now.toNat < 2 ^ 63) : p.Lapsed s.leaseSecs now := by
  obtain ⟨hmem, hmax⟩ := h.leased r rfl hopen
  refine ⟨List.ne_nil_of_mem hmem, fun t ht => ?_⟩
  have hle := UInt64.le_iff_toNat_le.mp (hmax t ht)
  have hexpires := UInt64.le_iff_toNat_le.mp hexpired
  have hat : (s.expires false r.lastActive.toUInt64).toNat =
      min (r.lastActive.toUInt64.toNat + s.leaseSecs.toNat) (2 ^ 64 - 1) :=
    Saturating.toNat_add r.lastActive.toUInt64 s.leaseSecs
  omega

theorem Sound.abandoned {r : NameRow} (h : Sound s.leaseSecs clock (some r) p)
    (hopen : r.adminSet = false)
    (hold : r.lastActive < (Saturating.sub now (Saturating.mul s.leaseSecs 2)).toInt64)
    (hclock : clock ≤ now) (hnow : now.toNat < 2 ^ 63) : p.Lapsed s.leaseSecs now := by
  obtain ⟨hmem, hmax⟩ := h.leased r rfl hopen
  have hcutoff := Saturating.toNat_sub now (Saturating.mul s.leaseSecs 2)
  have htwo : (2 : UInt64).toNat = 2 := rfl
  rw [Saturating.toNat_mul, htwo] at hcutoff
  have hlast : r.lastActive.toUInt64.toNat ≤ clock.toNat :=
    UInt64.le_iff_toNat_le.mp (h.last r rfl)
  have hle := UInt64.le_iff_toNat_le.mp hclock
  have hlt := Int64.lt_iff_toInt_lt.mp hold
  have hcolumn : r.lastActive.toInt = r.lastActive.toUInt64.toNat :=
    column_toInt (n := r.lastActive.toUInt64) (by omega)
  rw [hcolumn, column_toInt (by omega)] at hlt
  refine ⟨List.ne_nil_of_mem hmem, fun t ht => ?_⟩
  have htle := UInt64.le_iff_toNat_le.mp (hmax t ht)
  omega

theorem mem_next {t : UInt64} (ht : t ∈ (p.next now n act row row').active) :
    t = now ∨ t ∈ p.active := by
  cases row' with
  | none => exact .inr ht
  | some r =>
    by_cases hkept : p.holder = some r.account ∨ act.succeeds = true
    · cases hshows : act.shows n r.account with
      | true => simpa [Past.next, hkept, hshows] using ht
      | false => exact .inr (by simpa [Past.next, hkept, hshows] using ht)
    · cases hshows : act.shows n r.account with
      | true => exact .inl (by simpa [Past.next, hkept, hshows] using ht)
      | false => simp [Past.next, hkept, hshows] at ht

/-- A row that is now as old as its last time leads to a sound past, if an open one was its
holder's before or shows its holder now. -/
theorem Sound.next_some {r : NameRow} (h : Sound s.leaseSecs clock row p) (hclock : clock ≤ now)
    (hlast : r.lastActive.toUInt64 ≤ now)
    (hleased : r.adminSet = false →
      r.lastActive.toUInt64 ∈ (p.next now n act row (some r)).active ∧
      ∀ t ∈ (p.next now n act row (some r)).active, t ≤ r.lastActive.toUInt64) :
    Sound s.leaseSecs now (some r) (p.next now n act row (some r)) where
  bound r' hr' := by
    obtain rfl : r = r' := by simpa using hr'
    exact ⟨rfl, rfl⟩
  active t ht := by
    obtain rfl | hold := mem_next ht
    · exact UInt64.le_refl _
    · exact UInt64.le_trans (h.active t hold) hclock
  last r' hr' := by
    obtain rfl : r = r' := by simpa using hr'
    exact hlast
  leased r' hr' := by
    obtain rfl : r = r' := by simpa using hr'
    exact hleased
  lapsed hnone := by simp at hnone

theorem Sound.next_none (h : Sound s.leaseSecs clock row p) (hclock : clock ≤ now)
    (hlapsed : p.holder.isSome = true → (p.next now n act row none).freed = false →
      p.Lapsed s.leaseSecs now) : Sound s.leaseSecs now none (p.next now n act row none) where
  bound := by simp
  active t ht := UInt64.le_trans (h.active t ht) hclock
  last := by simp
  leased := by simp
  lapsed _ := hlapsed

theorem Sound.moved (h : Sound s.leaseSecs clock row p) (hm : Moved s now n act row row')
    (hclock : clock ≤ now) (hnow : now.toNat < 2 ^ 63) :
    Sound s.leaseSecs now row' (p.next now n act row row') := by
  have hshown : ∀ r : NameRow, r.lastActive.toUInt64 = now → act.shows n r.account = true →
      r.lastActive.toUInt64 ∈ (p.next now n act row (some r)).active ∧
        ∀ t ∈ (p.next now n act row (some r)).active, t ≤ r.lastActive.toUInt64 := by
    intro r hlast hshows
    rw [hlast]
    refine ⟨by simp [Past.next, hshows], fun t ht => ?_⟩
    obtain rfl | hold := mem_next ht
    · exact UInt64.le_refl _
    · exact UInt64.le_trans (h.active t hold) hclock
  cases hm with
  | kept hquiet =>
    cases row with
    | none =>
      refine h.next_none hclock fun hholder hfreed => ?_
      exact (h.lapsed rfl hholder (by simpa [Past.next] using hfreed)).later hclock
    | some r =>
      refine h.next_some hclock (UInt64.le_trans (h.last r rfl) hclock) fun hopen => ?_
      have hquiet' : act.shows n r.account = false := by
        have hadmin := hquiet r rfl
        rw [hopen] at hadmin
        simpa using hadmin
      have hsame : (p.next now n act (some r) (some r)).active = p.active := by
        simp [Past.next, (h.bound r rfl).1, hquiet']
      rw [hsame]
      exact h.leased r rfl hopen
  | @renewed _ r hshows =>
    exact h.next_some hclock (UInt64.le_refl _) fun _ =>
      hshown { r with lastActive := now.toInt64 } rfl hshows
  | takenUp =>
    exact h.next_some hclock (UInt64.le_refl _) fun _ =>
      hshown _ rfl (by simp [Act.shows])
  | freed hfrees hby =>
    exact h.next_none hclock fun _ hfreed => by simp [Past.next, hfrees] at hfreed
  | assigned => exact h.next_some hclock (UInt64.le_refl _) (by simp)
  | @succeeded r successor =>
    refine h.next_some hclock (UInt64.le_trans (h.last r rfl) hclock) fun hopen => ?_
    have hsame : (p.next now n (.succeed r.account successor) (some r)
        (some { r with account := successor })).active = p.active := by
      simp [Past.next, Act.succeeds, Act.shows]
    rw [hsame]
    exact h.leased r rfl hopen
  | swept hopen hold =>
    exact h.next_none hclock fun _ _ => h.abandoned hopen hold hclock hnow

/-- What an act must be for a name to change hands by it, from one account to another. -/
def Rightful (s : Names) (now : UInt64) (n : String) (act : Act) (row : Option NameRow) (p : Past)
    (a b : PubKey) : Prop :=
  act = .assign n b ∨ act = .succeed a b ∨
    (act = .claim n b ∧ ((row = none ∧ p.freed = true) ∨ p.Lapsed s.leaseSecs now))

theorem Sound.rightful (h : Sound s.leaseSecs clock row p) (hm : Moved s now n act row row')
    (hclock : clock ≤ now) (hnow : now.toNat < 2 ^ 63) (ha : p.holder = some a)
    (hb : (p.next now n act row row').holder = some b) (hne : a ≠ b) :
    Rightful s now n act row p a b := by
  have hsame : ∀ r : NameRow, row = some r → r.account = a := by
    intro r hr
    have hholder := (h.bound r hr).1
    rw [ha] at hholder
    exact (Option.some.inj hholder).symm
  cases hm with
  | kept hquiet =>
    cases row with
    | none => exact absurd (Option.some.inj (ha.symm.trans hb)) hne
    | some r => exact absurd ((hsame r rfl).symm.trans (Option.some.inj hb)) hne
  | @renewed _ r hshows => exact absurd ((hsame r rfl).symm.trans (Option.some.inj hb)) hne
  | takenUp hlapsed =>
    obtain rfl := Option.some.inj hb
    refine .inr (.inr ⟨rfl, ?_⟩)
    cases row with
    | none =>
      cases hfreed : p.freed with
      | true => exact .inl ⟨rfl, rfl⟩
      | false => exact .inr ((h.lapsed rfl (by simp [ha]) hfreed).later hclock)
    | some r =>
      obtain ⟨-, hopen, hexpired⟩ := hlapsed r rfl
      exact .inr (h.expired hopen hexpired hnow)
  | freed => exact absurd (Option.some.inj (ha.symm.trans hb)) hne
  | assigned =>
    obtain rfl := Option.some.inj hb
    exact .inl rfl
  | @succeeded r successor =>
    obtain rfl := Option.some.inj hb
    rw [hsame r rfl]
    exact .inr (.inl rfl)
  | swept => exact absurd (Option.some.inj (ha.symm.trans hb)) hne

/-- An administrator's assignment stands until the name is released, or is its account's
successor's or whom it is assigned to next. -/
def Lasts (n : String) (act : Act) (row row' : Option NameRow) : Prop :=
  ∀ r, row = some r → r.adminSet = true →
    (∃ r', row' = some r' ∧ r'.adminSet = true ∧ (r'.account = r.account ∨
      act = .assign n r'.account ∨ act = .succeed r.account r'.account)) ∨
    (row' = none ∧ (act = .release n r.account ∨ act = .releaseAdmin n))

theorem Moved.lasts (hm : Moved s now n act row row') : Lasts n act row row' := by
  intro r hr hadmin
  cases hm with
  | kept => exact .inl ⟨r, hr, hadmin, .inl rfl⟩
  | renewed =>
    obtain rfl := Option.some.inj hr
    exact .inl ⟨_, rfl, hadmin, .inl rfl⟩
  | takenUp hlapsed =>
    have hopen := (hlapsed r hr).2.1
    simp [hadmin] at hopen
  | freed _ hby =>
    obtain rfl := Option.some.inj hr
    exact .inr ⟨rfl, hby⟩
  | assigned => exact .inl ⟨_, rfl, rfl, .inr (.inl rfl)⟩
  | succeeded successor =>
    obtain rfl := Option.some.inj hr
    exact .inl ⟨_, rfl, hadmin, .inr (.inr rfl)⟩
  | swept hopen =>
    obtain rfl := Option.some.inj hr
    simp [hadmin] at hopen

end Past

namespace Names

section Quotas

theorem held_eq (h : s.name = s'.name) : s.held a = s'.held a := by rw [held, held, h]

theorem held_insert_le (a : PubKey) (n : String) (r : NameRow) (hs' : s'.name = s.name.insert n r) :
    s'.held a ≤ if r.account = a then s.held a + 1 else s.held a := by
  unfold held
  rw [hs']
  by_cases ha : r.account = a
  · rw [if_pos ha, filter_insert_of_pos (by simpa using ha)]
    exact ExtTreeMap.size_insert_le
  · rw [if_neg ha, filter_insert_of_neg (by simpa using ha)]
    exact ExtTreeMap.size_erase_le

theorem held_insert_over {r r' : NameRow} (hr : s.name[n]? = some r)
    (hsame : r'.account = r.account) (hs' : s'.name = s.name.insert n r') :
    s'.held a ≤ s.held a := by
  by_cases ha : r'.account = a
  · have hmem : n ∈ s.name.filter fun _ x => x.account == a := by
      rw [ExtTreeMap.mem_iff_isSome_getElem?, ExtTreeMap.getElem?_filter', hr]
      simp [← hsame, ha]
    unfold held
    rw [hs', filter_insert_of_pos (by simpa using ha), ExtTreeMap.size_insert,
      if_pos (ExtTreeMap.mem_iff_contains.mp hmem)]
  · have hle := held_insert_le a n r' hs'
    rwa [if_neg ha] at hle

theorem held_claim_le (now : UInt64) (n : String) (account a : PubKey) (s : Names) :
    (s.claim now n account).1.held a ≤ max (s.held a) 1 := by
  obtain hrefuses | ⟨row, hrow, hown, heq⟩ | htakes := s.claim_cases now n account
  · rw [held_eq hrefuses.name]
    exact Nat.le_max_left _ _
  · have hname : (s.claim now n account).1.name =
        s.name.insert n { row with lastActive := now.toInt64 } := by rw [heq]
    have hle : (s.claim now n account).1.held a ≤ s.held a := held_insert_over hrow (by rfl) hname
    omega
  · have hle := @held_insert_le s (s.claim now n account).1 a n _ (by rw [htakes.eq])
    have hnone := htakes.none
    split at hle
    · rename_i ha
      obtain rfl : account = a := ha
      omega
    · omega

theorem size_claim_le (now : UInt64) (n : String) (account : PubKey) {cap : UInt64}
    (hcap : s.maxNames = some cap) :
    (s.claim now n account).1.name.size ≤ max s.name.size cap.toNat := by
  obtain hrefuses | ⟨row, hrow, hown, heq⟩ | htakes := s.claim_cases now n account
  · rw [hrefuses.name]
    exact Nat.le_max_left _ _
  · have hmem : n ∈ s.name := by simp [ExtTreeMap.mem_iff_isSome_getElem?, hrow]
    rw [heq, ExtTreeMap.size_insert, if_pos (ExtTreeMap.mem_iff_contains.mp hmem)]
    exact Nat.le_max_left _ _
  · rw [htakes.eq, ExtTreeMap.size_insert]
    split
    · exact Nat.le_max_left _ _
    · rename_i hnew
      have hfree : s.name[n]? = none :=
        ExtTreeMap.getElem?_eq_none fun hmem => hnew (ExtTreeMap.mem_iff_contains.mp hmem)
      have hroom := htakes.room hfree cap hcap
      omega

end Quotas

section Logs
variable {claims : ExtTreeMap PubKey (List UInt64)} {now' t : UInt64} {log : List UInt64}

theorem recent_of_le (hle : now ≤ now') (h : recent now' t = true) : recent now t = true := by
  simp only [recent, decide_eq_true_eq, UInt64.lt_iff_toNat_lt, Saturating.toNat_sub] at h ⊢
  have hnat := UInt64.le_iff_toNat_le.mp hle
  omega

theorem filter_recent (hle : now ≤ now') (log : List UInt64) :
    (log.filter (recent now)).filter (recent now') = log.filter (recent now') := by
  rw [List.filter_filter]
  refine List.filter_congr fun t _ => ?_
  cases ht : recent now' t with
  | false => rfl
  | true => simp [recent_of_le hle ht]

theorem log_rateLimited (hle : now ≤ now') (account a : PubKey) :
    ((rateLimited now account claims).1.getD a []).filter (recent now') =
      (claims.getD a []).filter (recent now') := by
  have hfilter := filter_recent hle (claims.getD a [])
  unfold rateLimited
  by_cases hempty : ((claims.getD account []).filter (recent now)).isEmpty = true
  · rw [if_pos hempty, ExtTreeMap.getD_eq_getD_getElem?, lookup_erase]
    by_cases ha : account = a
    · subst ha
      rw [List.isEmpty_iff.mp hempty] at hfilter
      rw [if_pos rfl, ← hfilter]
      rfl
    · rw [if_neg ha, ExtTreeMap.getD_eq_getD_getElem?]
  · rw [if_neg hempty, ExtTreeMap.getD_eq_getD_getElem?, lookup_insert]
    by_cases ha : account = a
    · subst ha
      rw [if_pos rfl]
      exact hfilter
    · rw [if_neg ha, ExtTreeMap.getD_eq_getD_getElem?]

theorem log_recordClaim (now : UInt64) (account a : PubKey) :
    (recordClaim now account claims).getD a [] =
      claims.getD a [] ++ if account = a then [now] else [] := by
  rw [recordClaim, ExtTreeMap.getD_eq_getD_getElem?, lookup_insert]
  by_cases ha : account = a
  · subst ha
    rw [if_pos rfl, if_pos rfl]
    rfl
  · rw [if_neg ha, if_neg ha, List.append_nil, ExtTreeMap.getD_eq_getD_getElem?]

theorem log_sweepRateLimiter (hle : now ≤ now') (a : PubKey) (s : Names) :
    ((s.sweepRateLimiter now).claims.getD a []).filter (recent now') =
      (s.claims.getD a []).filter (recent now') := by
  have hfilter := filter_recent hle (s.claims.getD a [])
  rw [← hfilter, sweepRateLimiter, ExtTreeMap.getD_eq_getD_getElem?,
    ExtTreeMap.getElem?_filterMap', ExtTreeMap.getD_eq_getD_getElem?]
  cases hlog : s.claims[a]? with
  | none => rfl
  | some log =>
    by_cases hempty : (log.filter (recent now)).isEmpty = true
    · simp only [Option.bind_some, if_pos hempty, Option.getD_none, Option.getD_some]
      rw [List.isEmpty_iff.mp hempty]
    · simp only [Option.bind_some, if_neg hempty, Option.getD_some]

theorem length_recent_lt (h : (rateLimited now account claims).2 = false) :
    ((claims.getD account []).filter (recent now)).length < claimRatePerHour := by
  unfold rateLimited at h
  by_cases hempty : ((claims.getD account []).filter (recent now)).isEmpty = true
  · rw [List.isEmpty_iff.mp hempty]
    decide
  · rw [if_neg hempty] at h
    simpa using h

end Logs

theorem leaseSecs_after (now : UInt64) (s : Names) (act : Act) :
    (s.after now act).leaseSecs = s.leaseSecs := by
  cases act with
  | claim n account =>
    obtain hrefuses | ⟨row, -, -, heq⟩ | htakes := s.claim_cases now n account
    · obtain ⟨claims, -, heq⟩ := hrefuses.eq
      rw [after, heq]
    · rw [after, heq]
    · rw [after, htakes.eq]
  | release n account =>
    simp only [after, release]
    split
    · rfl
    · split <;> rfl
  | assign | releaseAdmin | succeed | renew | sweep | sweepRateLimiter => rfl

theorem log_after (hact : ∀ n account, act ≠ .claim n account) (now' : UInt64) (hle : now ≤ now')
    (a : PubKey) (s : Names) :
    ((s.after now act).claims.getD a []).filter (recent now') =
      (s.claims.getD a []).filter (recent now') := by
  cases act with
  | claim n account => exact absurd rfl (hact n account)
  | release n account =>
    have hclaims : (s.release n account).1.claims = s.claims := by
      unfold release
      split
      · rfl
      · split <;> rfl
    rw [after, hclaims]
  | sweepRateLimiter => exact log_sweepRateLimiter hle a s
  | assign | releaseAdmin | succeed | renew | sweep => rfl

end Names

namespace World
variable {w : World} {turn : UInt64 × Act}

def Timely (w : World) (turn : UInt64 × Act) : Prop :=
  w.clock ≤ turn.1 ∧ turn.1.toNat < 2 ^ 63

instance : Decidable (w.Timely turn) := inferInstanceAs (Decidable (_ ∧ _))

/-- What the rules ask of a turn: of the names that change hands by it, of those assigned, and of
a claim. -/
structure Fair (w : World) (turn : UInt64 × Act) : Prop where
  hands : ∀ n a b, (w.past n).holder = some a → ((w.step turn).past n).holder = some b → a ≠ b →
    Rightful w.names turn.1 n turn.2 w.names.name[n]? (w.past n) a b
  lasts : ∀ n, Lasts n turn.2 w.names.name[n]? (w.step turn).names.name[n]?
  single : ∀ n account, turn.2 = .claim n account → ∀ a,
    (w.step turn).names.held a ≤ max (w.names.held a) 1
  total : ∀ n account, turn.2 = .claim n account → ∀ cap, w.names.maxNames = some cap →
    (w.step turn).names.name.size ≤ max w.names.name.size cap.toNat

/-- Each row tells of its name's past, the logs of the names gained in the last hour, and there
is no hour of too many. -/
structure Kept (w : World) : Prop where
  sound : ∀ n, Sound w.names.leaseSecs w.clock w.names.name[n]? (w.past n)
  logged : ∀ a now, w.clock ≤ now → (w.names.claims.getD a []).filter (Names.recent now) =
    (w.gainedBy a).filter (Names.recent now)
  hours : ∀ start a, w.gainedIn start a ≤ claimRatePerHour

theorem Kept.fair (h : Kept w) (ht : w.Timely turn) : w.Fair turn where
  hands n _ _ ha hb hne :=
    (h.sound n).rightful (moved w.names turn.1 n turn.2) ht.1 ht.2 ha hb hne
  lasts n := (moved w.names turn.1 n turn.2).lasts
  single n account hact a := by
    have hnames : (w.step turn).names = (w.names.claim turn.1 n account).1 := by
      rw [step, hact, Names.after]
    rw [hnames]
    exact w.names.held_claim_le turn.1 n account a
  total n account hact cap hcap := by
    have hnames : (w.step turn).names = (w.names.claim turn.1 n account).1 := by
      rw [step, hact, Names.after]
    rw [hnames]
    exact Names.size_claim_le turn.1 n account hcap

theorem gainedBy_step (a : PubKey) (w : World) (turn : UInt64 × Act) :
    (w.step turn).gainedBy a = w.gainedBy a ++
      (((w.gains turn.1 turn.2).filter fun g => g.1 == a).map Prod.snd) := by
  simp [gainedBy, step]

theorem gainedIn_step (start : Nat) (a : PubKey) (w : World) (turn : UInt64 × Act) :
    (w.step turn).gainedIn start a = w.gainedIn start a + (w.gains turn.1 turn.2).countP fun g =>
      g.1 = a ∧ start ≤ g.2.toNat ∧ g.2.toNat < start + 3600 := by
  rw [gainedIn, gainedBy_step, List.countP_append, gainedIn, List.countP_map, List.countP_filter]
  congr 2
  funext g
  by_cases ha : g.1 = a <;> simp [ha]

theorem gains_cases (w : World) (now : UInt64) (act : Act) :
    (∃ n account, act = .claim n account ∧ w.names.TakesUp now n account ∧
      w.gains now act = [(account, now)]) ∨
    (w.gains now act = [] ∧ ∀ now' a, now ≤ now' →
      ((w.names.after now act).claims.getD a []).filter (Names.recent now') =
        (w.names.claims.getD a []).filter (Names.recent now')) := by
  cases act with
  | claim n account =>
    obtain hrefuses | ⟨row, hrow, rfl, heq⟩ | htakes := w.names.claim_cases now n account
    · refine .inr ⟨by simp [gains, hrefuses.refused], fun now' a hle => ?_⟩
      obtain ⟨claims, hclaims, heq⟩ := hrefuses.eq
      rw [Names.after, heq]
      obtain rfl | rfl := hclaims
      · rfl
      · exact Names.log_rateLimited hle account a
    · exact .inr ⟨by simp [gains, hrow], fun now' a _ => by rw [Names.after, heq]⟩
    · refine .inl ⟨n, account, rfl, htakes, ?_⟩
      have hother : w.names.name[n]?.map NameRow.account ≠ some account := by
        intro hown
        obtain ⟨row, hrow, hsame⟩ := Option.map_eq_some_iff.mp hown
        exact (htakes.lapsed row hrow).1 hsame
      simp [gains, htakes.eq, hother]
  | release | assign | releaseAdmin | succeed | renew | sweep | sweepRateLimiter =>
    exact .inr ⟨rfl, fun now' a hle => Names.log_after (by simp) now' hle a w.names⟩

theorem gainedIn_le_recent {start : Nat} (a : PubKey) (w : World)
    (hend : now.toNat < start + 3600) :
    w.gainedIn start a ≤ ((w.gainedBy a).filter (Names.recent now)).length := by
  rw [gainedIn, ← List.countP_eq_length_filter]
  refine List.countP_mono_left fun t _ ht => ?_
  simp only [decide_eq_true_eq, Names.recent, UInt64.lt_iff_toNat_lt, Saturating.toNat_sub] at ht ⊢
  have hhour : (3600 : UInt64).toNat = 3600 := rfl
  omega

theorem Kept.step (h : Kept w) (ht : w.Timely turn) : Kept (w.step turn) where
  sound n := by
    have hmoved := moved w.names turn.1 n turn.2
    have hsound := (h.sound n).moved hmoved ht.1 ht.2
    have hlease := Names.leaseSecs_after turn.1 w.names turn.2
    simp only [World.step]
    rwa [hlease]
  logged a now' hlater := by
    have hle : turn.1 ≤ now' := hlater
    have hbefore := h.logged a now' (UInt64.le_trans ht.1 hle)
    rw [gainedBy_step]
    obtain ⟨n, account, hact, htakes, hgains⟩ | ⟨hgains, hlogs⟩ := w.gains_cases turn.1 turn.2
    · have hclaims : (w.step turn).names.claims = Names.recordClaim turn.1 account
          (Names.rateLimited turn.1 account w.names.claims).1 := by
        rw [World.step, hact, Names.after, htakes.eq]
      rw [hclaims, Names.log_recordClaim, List.filter_append, List.filter_append,
        Names.log_rateLimited hle, hbefore, hgains]
      by_cases ha : account = a <;> simp [ha]
    · rw [hgains]
      simpa [World.step, hbefore] using hlogs now' a hle
  hours start a := by
    have hbefore := h.hours start a
    obtain ⟨n, account, hact, htakes, hgains⟩ | ⟨hgains, -⟩ := w.gains_cases turn.1 turn.2
    · rw [gainedIn_step, hgains, List.countP_singleton]
      split
      · rename_i hin
        obtain ⟨ha, -, hend⟩ : account = a ∧ start ≤ turn.1.toNat ∧
          turn.1.toNat < start + 3600 := of_decide_eq_true hin
        subst ha
        have hsoon := w.gainedIn_le_recent account hend
        have hrecent := Names.length_recent_lt htakes.within
        rw [h.logged account turn.1 ht.1] at hrecent
        omega
      · exact hbefore
    · rw [gainedIn_step, hgains]
      exact hbefore

theorem kept_opened {clock leaseSecs : UInt64} {maxNames : Option UInt64}
    {name : ExtTreeMap String NameRow}
    (hstart : ∀ (n : String) (r : NameRow), name[n]? = some r → r.lastActive.toUInt64 ≤ clock) :
    Kept (opened clock leaseSecs maxNames name) where
  sound n := Sound.found (hstart n)
  logged a now _ := by simp [opened, gainedBy]
  hours start a := by simp [opened, gainedIn, gainedBy]

/-- In every run over times that do not go back and that a column holds, a name changes hands
only as the rules say, an assignment stays, no claim is a second name or past the total, and no
account gains more names in an hour than it may. -/
theorem hands_change_rightly (clock leaseSecs : UInt64) (maxNames : Option UInt64)
    (name : ExtTreeMap String NameRow)
    (hstart : ∀ (n : String) (r : NameRow), name[n]? = some r → r.lastActive.toUInt64 ≤ clock)
    (turns : List (UInt64 × Act))
    (htimes : Each Timely step (opened clock leaseSecs maxNames name) turns) :
    Each Fair step (opened clock leaseSecs maxNames name) turns ∧ ∀ start a,
      (run step (opened clock leaseSecs maxNames name) turns).gainedIn start a ≤
        claimRatePerHour := by
  have hkept : Kept (opened clock leaseSecs maxNames name) := kept_opened hstart
  have hsteps : ∀ w turn, Kept w → w.Timely turn → Kept (w.step turn) :=
    fun w turn h ht => h.step ht
  exact ⟨htimes.imp_of hsteps (fun w turn h ht => h.fair ht) hkept,
    (htimes.run hsteps hkept).hours⟩

section Runs

def reclaimed : List (UInt64 × Act) :=
  [(10, .claim "a" 1#256), (20, .release "a" 1#256), (30, .claim "a" 2#256),
    (130, .claim "a" 3#256)]

theorem hands_change_rightly_reclaimed :
    Each Fair step (opened 0 100 none ∅) reclaimed ∧ ∀ start a,
      (run step (opened 0 100 none ∅) reclaimed).gainedIn start a ≤ claimRatePerHour :=
  hands_change_rightly 0 100 none ∅ (by simp) reclaimed (by decide +kernel)

/-- A name claimed, and claimed by another two seconds later, at times that a column does not
hold. -/
def snatched : List (UInt64 × Act) :=
  [(9223372036854775808, .claim "a" 1#256), (9223372036854775809, .sweep),
    (9223372036854775810, .claim "a" 2#256)]

theorem sweep_snatches :
    Each (fun w turn => w.clock ≤ turn.1) step (opened 0 1000 none ∅) snatched ∧
      ¬ Each Fair step (opened 0 1000 none ∅) snatched := by
  refine ⟨by decide +kernel, fun h => ?_⟩
  have hfair := h.2.2.1.hands "a" 1#256 2#256 (by decide +kernel) (by decide +kernel)
    (by decide +kernel)
  revert hfair
  simp only [Rightful]
  decide +kernel

end Runs

end World
end Sqex.Directory
