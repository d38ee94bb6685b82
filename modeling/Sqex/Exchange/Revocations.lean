import Sqex.Exchange.Devices
import Sqex.Lib.Runs

/-! What a revocation is worth. It is one row for a device, which lapses with the credential last
registered; a credential from before the revocation that is still in date is taken again after that.
-/
namespace Sqex.Devices
open Runs Registry
variable {C : Crypto}

structure Withdrawal where
  device : PubKey
  account : PubKey
  time : UInt64
  deriving DecidableEq

/-- When a device was last revoked or retired, and the expiry that was put down for it. -/
structure Bar where
  time : UInt64
  notAfter : Int64
  deriving DecidableEq

/-- A registry with what became of it: each revocation, and for each device that was revoked or
retired and not registered since, the last time it was. -/
structure History where
  registry : Registry
  clock : UInt64
  past : List Withdrawal
  bar : PubKey → Option Bar

namespace History

def opened : History := ⟨.opened, 0, [], fun _ => none⟩

/-- The revocation an operation makes that goes through. -/
def withdrawals (s : Registry) (now : UInt64) : Act → List Withdrawal
  | .revoke _ device _ =>
    match (s.expire now).device[device]? with
    | some target => [⟨device, target.account, now⟩]
    | none => []
  | _ => []

def retiring (s : Registry) (account : PubKey) (now : UInt64) (bar : PubKey → Option Bar)
    (x : PubKey) : Option Bar :=
  match s.device[x]?.filter (·.account == account) with
  | some r => some ⟨now, r.notAfter⟩
  | none => bar x

def bars (s : Registry) (now : UInt64) (bar : PubKey → Option Bar) (x : PubKey) :
    Act → Option Bar
  | .register _ c => if c.delegate = x then none else bar x
  | .revoke _ device _ =>
    if device = x then (s.expire now).device[x]?.map fun r => ⟨now, r.notAfter⟩ else bar x
  | .expire => bar x
  | .succeed _ proof _ => retiring s proof.account now bar x
  | .handover _ will kept _ =>
    match broughtFor kept x with
    | some _ => none
    | none => retiring s will.account now bar x

def follow (C : Crypto) (h : History) (i : UInt64 × Act) : History :=
  match h.registry.attempt C i.1 i.2 with
  | none => { h with clock := i.1 }
  | some s => {
      registry := s
      clock := i.1
      past := withdrawals h.registry i.1 i.2 ++ h.past
      bar := fun x => bars h.registry i.1 h.bar x i.2 }

def Holds (h : History) : Prop :=
  ∀ w ∈ h.past, ∀ r ∈ h.registry.device[w.device]?, r.account = w.account →
    w.time < r.issued.toUInt64

instance : DecidablePred Holds := fun h =>
  inferInstanceAs (Decidable (∀ w ∈ h.past, ∀ r ∈ h.registry.device[w.device]?,
    r.account = w.account → w.time < r.issued.toUInt64))

def Predated (h : History) (c : Credential) : Prop :=
  ∃ w ∈ h.past, w.device = c.delegate ∧ w.account = c.account ∧ c.issued ≤ w.time

/-- A credential from before a revocation that would be taken comes before the expiry put down
when its device was last revoked or retired, and the device was not registered since; and a
handover keeps no device under one. -/
def Spared (C : Crypto) (h : History) (i : UInt64 × Act) : Prop :=
  match i.2 with
  | .register caller c => Takes C h.registry caller c i.1 → h.Predated c →
    ∃ b ∈ h.bar c.delegate, i.1.toInt64 ≤ b.notAfter ∧ i.1.toNat < 2 ^ 63
  | .handover caller will kept settled => Hands C h.registry caller will kept settled i.1 →
    ∀ x c, broughtFor kept x = some c → ¬ h.Predated c
  | _ => True

inductive Admits (C : Crypto) (s : Registry) (now : UInt64) (c : Credential) : Act → Prop
  | register {caller : PubKey} (takes : Takes C s caller c now)
      (standing : (s.expire now).isRevoked c = false) : Admits C s now c (.register caller c)
  | handover {caller : PubKey} {will : Will} {kept : List Credential} {settled : Bool}
      (hands : Hands C s caller will kept settled now)
      (brought : broughtFor kept c.delegate = some c) :
      Admits C s now c (.handover caller will kept settled)

inductive Change (C : Crypto) (h : History) (i : UInt64 × Act) (x : PubKey) (h' : History) : Prop
  | same (device : h'.registry.device[x]? = h.registry.device[x]?)
      (revoked : h'.registry.revoked[x]? = h.registry.revoked[x]?) (bar : h'.bar x = h.bar x)
  | expired (device : h'.registry.device[x]? = (h.registry.expire i.1).device[x]?)
      (revoked : h'.registry.revoked[x]? = (h.registry.expire i.1).revoked[x]?)
      (bar : h'.bar x = h.bar x)
  | taken {r : DeviceRow} {c : Credential} (admits : Admits C h.registry i.1 c i.2)
      (delegate : c.delegate = x) (device : h'.registry.device[x]? = some r)
      (revoked : h'.registry.revoked[x]? = none) (bar : h'.bar x = none)
      (account : r.account = c.account) (issued : r.issued = c.issued.toInt64)
  | barred {r : RevokedRow} (held : h.registry.device[x]? ≠ none)
      (device : h'.registry.device[x]? = none)
      (revoked : h'.registry.revoked[x]? = some r)
      (time : r.time = i.1.toInt64) (bar : h'.bar x = some ⟨i.1, r.notAfter⟩)

variable {h : History} {i : UInt64 × Act} {now : UInt64}

theorem follow_of_none (hnone : h.registry.attempt C i.1 i.2 = none) :
    follow C h i = { h with clock := i.1 } := by
  rw [follow, hnone]

theorem follow_of_some {s : Registry} (hsome : h.registry.attempt C i.1 i.2 = some s) :
    follow C h i = ⟨s, i.1, withdrawals h.registry i.1 i.2 ++ h.past,
      fun x => bars h.registry i.1 h.bar x i.2⟩ := by
  rw [follow, hsome]

theorem registered_account {s : Registry} {c : Credential} (hclaimed : s.isClaimed c = false) :
    (s.registered c now).account = c.account := by
  unfold isClaimed at hclaimed
  unfold registered
  cases hrow : s.device[c.delegate]? with
  | none => rfl
  | some r => simpa [hrow] using hclaimed

theorem retire_cases (s : Registry) (a : PubKey) (bar : PubKey → Option Bar) (x : PubKey) :
    ((s.retire a now).device[x]? = s.device[x]? ∧ (s.retire a now).revoked[x]? = s.revoked[x]? ∧
        retiring s a now bar x = bar x) ∨
      ∃ r : RevokedRow, s.device[x]? ≠ none ∧ (s.retire a now).device[x]? = none ∧
        (s.retire a now).revoked[x]? = some r ∧ r.time = now.toInt64 ∧
        retiring s a now bar x = some ⟨now, r.notAfter⟩ := by
  rw [device_retire, revoked_retire, retiring]
  cases s.device[x]? with
  | none => exact .inl ⟨rfl, rfl, rfl⟩
  | some r =>
    by_cases hr : r.account = a
    · exact .inr (by simp [hr, Option.filter])
    · exact .inl (by simp [hr, Option.filter])

theorem change (C : Crypto) (h : History) (i : UInt64 × Act) (x : PubKey) :
    Change C h i x (follow C h i) := by
  obtain ⟨now, act⟩ := i
  cases hattempt : h.registry.attempt C now act with
  | none =>
    rw [follow_of_none hattempt]
    exact .same rfl rfl rfl
  | some s =>
    have htook := took hattempt
    rw [follow_of_some hattempt]
    cases htook with
    | register takes standing =>
      rename_i caller c
      by_cases hx : c.delegate = x
      · subst hx
        refine .taken (.register takes standing) rfl ?_ ?_ ?_ (registered_account takes.2.2.1)
          (registered_credential (h.registry.expire now) c now).1
        · exact device_enter.trans (if_pos rfl)
        · exact revoked_enter.trans (if_pos rfl)
        · exact if_pos rfl
      · exact .expired (device_enter.trans (if_neg hx)) (revoked_enter.trans (if_neg hx))
          (if_neg hx)
    | revoke held may =>
      rename_i caller device attested target
      by_cases hx : device = x
      · subst hx
        rw [device_expire] at held
        refine .barred (by simp [(Option.filter_eq_some_iff.mp held).1])
          ((lookup_erase ..).trans (if_pos rfl))
          ((lookup_insert ..).trans (if_pos rfl)) rfl ?_
        simp [bars, device_expire, held]
      · exact .expired ((lookup_erase ..).trans (if_neg hx)) ((lookup_insert ..).trans (if_neg hx))
          (if_neg hx)
    | expire => exact .expired rfl rfl rfl
    | succeed names proves may =>
      rename_i proof successor settled
      rcases @retire_cases now (h.registry.record proof.account successor proof now)
        proof.account h.bar x with ⟨hdevice, hrevoked, hbar⟩ | ⟨r, hheld, hdevice, hrevoked, htime, hbar⟩
      · exact .same hdevice hrevoked hbar
      · exact .barred hheld hdevice hrevoked htime hbar
    | handover hands =>
      rename_i caller will kept settled
      have hkeep := @lookup_keep ((h.registry.record will.account will.successor (.will will)
        now).retire will.account now) now will.successor kept x
      cases hbrought : broughtFor kept x with
      | some c =>
        rw [hbrought] at hkeep
        obtain ⟨hrevoked, r, hdevice, hrow⟩ := hkeep
        obtain ⟨hmem, rfl⟩ := broughtFor_mem hbrought
        refine .taken (.handover hands hbrought) rfl hdevice hrevoked ?_
          (hrow.account.trans (hands.brought c hmem).1.symm) hrow.issued
        simp [bars, hbrought]
      | none =>
        rw [hbrought] at hkeep
        have hbars : bars h.registry now h.bar x (.handover caller will kept settled) =
            retiring (h.registry.record will.account will.successor (.will will) now) will.account
              now h.bar x := by
          simp only [bars, hbrought]
          rfl
        rcases @retire_cases now
          (h.registry.record will.account will.successor (.will will) now)
          will.account h.bar x with
          ⟨hdevice, hrevoked, hbar⟩ | ⟨r, hheld, hdevice, hrevoked, htime, hbar⟩
        · exact .same (hkeep.1.trans hdevice) (hkeep.2.trans hrevoked) (hbars.trans hbar)
        · exact .barred hheld (hkeep.1.trans hdevice) (hkeep.2.trans hrevoked) htime (hbars.trans hbar)

theorem past_follow {w : Withdrawal} (hw : w ∈ (follow C h i).past) :
    w ∈ h.past ∨ w.time = i.1 ∧ (follow C h i).registry.device[w.device]? = none ∧
      ∃ notAfter, (follow C h i).bar w.device = some ⟨i.1, notAfter⟩ := by
  obtain ⟨now, act⟩ := i
  cases hattempt : h.registry.attempt C now act with
  | none =>
    rw [follow_of_none hattempt] at hw
    exact .inl hw
  | some s =>
    have htook := took hattempt
    rw [follow_of_some hattempt] at hw ⊢
    rcases List.mem_append.mp hw with hnew | hold
    · cases htook with
      | revoke held may =>
        rename_i caller device attested target
        obtain rfl : w = ⟨device, target.account, now⟩ := by simpa [withdrawals, held] using hnew
        refine .inr ⟨rfl, (lookup_erase ..).trans (if_pos rfl), target.notAfter, ?_⟩
        simp [bars, held]
      | register | expire | succeed | handover => simp [withdrawals] at hnew
    · exact .inl hold

theorem clock_follow : (follow C h i).clock = i.1 := by
  unfold follow
  split <;> rfl

theorem past_mono {w : Withdrawal} (hw : w ∈ h.past) : w ∈ (follow C h i).past := by
  unfold follow
  split
  · exact hw
  · exact List.mem_append_right _ hw

/-- A bar is no sooner than any revocation of its device, and stands in the registry until its
expiry is passed. -/
structure Barred (h : History) (x : PubKey) (b : Bar) : Prop where
  last : ∀ w ∈ h.past, w.device = x → w.time ≤ b.time
  stands : (∃ r, h.registry.revoked[x]? = some r ∧ r.time = b.time.toInt64 ∧
    r.notAfter = b.notAfter) ∨ ∃ u ≤ h.clock, b.notAfter < u.toInt64

structure Sound (h : History) : Prop where
  past : ∀ w ∈ h.past, w.time ≤ h.clock
  barred : ∀ x b, h.bar x = some b → Barred h x b
  only : ∀ x r, h.registry.revoked[x]? = some r → ∃ b, h.bar x = some b ∧ b.notAfter = r.notAfter

theorem sound_opened : Sound opened where
  past w hw := by simp [opened] at hw
  barred x b hb := by simp [opened] at hb
  only x r hr := by simp [opened, Registry.opened] at hr

theorem Barred.follow {x : PubKey} {b : Bar} (hs : Sound h) (hclock : h.clock ≤ i.1)
    (hb : (follow C h i).bar x = some b) : Barred (follow C h i) x b := by
  have hpast : ∀ w ∈ (History.follow C h i).past, w.device = x →
      (∃ b₀, h.bar x = some b₀ ∧ b = b₀) ∨ b.time = i.1 → w.time ≤ b.time := by
    intro w hw hdevice hbar
    rcases past_follow hw with hold | ⟨htime, -, notAfter, hnew⟩
    · rcases hbar with ⟨b₀, hb₀, rfl⟩ | hnow
      · exact (hs.barred x b hb₀).last w hold hdevice
      · have hle := hs.past w hold
        rw [hnow]
        exact UInt64.le_trans hle hclock
    · rw [hdevice, hb] at hnew
      rw [Option.some.inj hnew, htime]
      exact UInt64.le_refl _
  rcases change C h i x with ⟨-, hrevoked, hbar⟩ | ⟨-, hrevoked, hbar⟩ | ⟨-, -, -, -, hbar, -, -⟩ |
    ⟨-, -, hrevoked, htime, hbar⟩
  · rw [hbar] at hb
    refine ⟨fun w hw hdevice => hpast w hw hdevice (.inl ⟨b, hb, rfl⟩), ?_⟩
    rw [hrevoked, clock_follow]
    exact (hs.barred x b hb).stands.imp_right
      fun ⟨u, hu, hlt⟩ => ⟨u, UInt64.le_trans hu hclock, hlt⟩
  · rw [hbar] at hb
    refine ⟨fun w hw hdevice => hpast w hw hdevice (.inl ⟨b, hb, rfl⟩), ?_⟩
    rw [hrevoked, clock_follow, revoked_expire]
    rcases (hs.barred x b hb).stands with ⟨r, hr, htime, hafter⟩ | ⟨u, hu, hlt⟩
    · by_cases hlapsed : i.1.toInt64 ≤ r.notAfter
      · exact .inl ⟨r, by simp [hr, Option.filter, hlapsed], htime, hafter⟩
      · exact .inr ⟨i.1, UInt64.le_refl _, by rw [← hafter]; exact Int64.not_le.mp hlapsed⟩
    · exact .inr ⟨u, UInt64.le_trans hu hclock, hlt⟩
  · rw [hbar] at hb
    simp at hb
  · rename_i r
    obtain rfl : (⟨i.1, r.notAfter⟩ : Bar) = b := by simpa [hbar] using hb
    exact ⟨fun w hw hdevice => hpast w hw hdevice (.inr rfl), .inl ⟨r, hrevoked, htime, rfl⟩⟩

theorem Sound.follow (hs : Sound h) (hclock : h.clock ≤ i.1) : Sound (follow C h i) where
  past w hw := by
    rw [clock_follow]
    rcases past_follow hw with hold | ⟨htime, -⟩
    · exact UInt64.le_trans (hs.past w hold) hclock
    · exact UInt64.le_of_eq htime
  barred x b hb := Barred.follow hs hclock hb
  only x r hr := by
    rcases change C h i x with ⟨-, hrevoked, hbar⟩ | ⟨-, hrevoked, hbar⟩ |
      ⟨-, -, -, hrevoked, -, -, -⟩ | ⟨-, -, hrevoked, htime, hbar⟩
    · rw [hrevoked] at hr
      rw [hbar]
      exact hs.only x r hr
    · rw [hrevoked, revoked_expire] at hr
      rw [hbar]
      exact hs.only x r (Option.filter_eq_some_iff.mp hr).1
    · rw [hrevoked] at hr
      simp at hr
    · obtain rfl := Option.some.inj (hrevoked.symm.trans hr)
      exact ⟨_, hbar, rfl⟩

theorem isRevoked_of_bar {c : Credential} {b : Bar} (hs : Sound h) (hclock : h.clock ≤ now)
    (hpredated : h.Predated c) (hb : h.bar c.delegate = some b) (hafter : now.toInt64 ≤ b.notAfter)
    (hcolumn : now.toNat < 2 ^ 63) : (h.registry.expire now).isRevoked c = true := by
  obtain ⟨w, hw, hdevice, -, hissued⟩ := hpredated
  have hbarred := hs.barred _ b hb
  rcases hbarred.stands with ⟨r, hr, htime, hlapse⟩ | ⟨u, hu, hlt⟩
  · have hle := UInt64.le_trans hissued (hbarred.last w hw hdevice)
    rw [isRevoked, revoked_expire, hr]
    simpa [Option.filter, hlapse, hafter, htime, toUInt64_toInt64] using hle
  · -- a time the clock passed is no later than now
    have hnat := UInt64.le_iff_toNat_le.mp (UInt64.le_trans hu hclock)
    have hle := Int64.lt_iff_toInt_lt.mp hlt
    have hafter' := Int64.le_iff_toInt_le.mp hafter
    rw [column_toInt (by omega)] at hle hafter'
    omega

theorem Holds.follow (hs : Sound h) (hh : Holds h) (hclock : h.clock ≤ i.1)
    (hspared : Spared C h i) : Holds (follow C h i) := by
  intro w hw r hr haccount
  rcases past_follow hw with hold | ⟨-, hnone, -⟩
  · rcases change C h i w.device with ⟨hdevice, -, -⟩ | ⟨hdevice, -, -⟩ |
      ⟨hadmits, hdelegate, hdevice, -, -, hof, hissued⟩ | ⟨-, hdevice, -, -, -⟩
    · exact hh w hold r (hdevice ▸ hr) haccount
    · rw [hdevice, device_expire] at hr
      exact hh w hold r (Option.filter_eq_some_iff.mp hr).1 haccount
    · obtain rfl := Option.some.inj (hdevice.symm.trans hr)
      rename_i c
      rw [hissued, toUInt64_toInt64]
      by_contra hnot
      have hpredated : h.Predated c :=
        ⟨w, hold, hdelegate.symm, haccount.symm.trans hof, UInt64.not_lt.mp hnot⟩
      obtain ⟨now, act⟩ := i
      cases hadmits with
      | register takes standing =>
        obtain ⟨b, hb, hafter, hcolumn⟩ := hspared takes hpredated
        have hrevoked := isRevoked_of_bar hs hclock hpredated hb hafter hcolumn
        simp [hrevoked] at standing
      | handover hands brought => exact hspared hands c.delegate c brought hpredated
    · rw [hdevice] at hr
      simp at hr
  · rw [hnone] at hr
    simp at hr

theorem not_holds_of_admits {c : Credential} (hadmits : Admits C h.registry i.1 c i.2)
    (hpredated : h.Predated c) : ¬ Holds (History.follow C h i) := by
  obtain ⟨w, hw, hdevice, haccount, hissued⟩ := hpredated
  have hrow : ∃ r, (History.follow C h i).registry.device[c.delegate]? = some r ∧
      r.account = c.account ∧ r.issued = c.issued.toInt64 := by
    obtain ⟨now, act⟩ := i
    cases hadmits with
    | register takes standing =>
      rw [follow_of_some (attempt_register takes standing)]
      exact ⟨_, device_enter.trans (if_pos rfl), registered_account takes.2.2.1,
        (registered_credential (h.registry.expire now) c now).1⟩
    | handover hands brought =>
      rename_i caller will kept settled
      rw [follow_of_some (attempt_handover hands)]
      have hkeep := @lookup_keep ((h.registry.record will.account will.successor (.will will)
        now).retire will.account now) now will.successor kept c.delegate
      rw [brought] at hkeep
      obtain ⟨-, r, hr, hkept⟩ := hkeep
      exact ⟨r, hr, hkept.account.trans (hands.brought c (broughtFor_mem brought).1).1.symm,
        hkept.issued⟩
  obtain ⟨r, hr, hof, hrow⟩ := hrow
  intro hh
  have hlt := hh w (past_mono hw) r (by rw [hdevice, hr]; rfl) (hof.trans haccount.symm)
  rw [hrow, toUInt64_toInt64] at hlt
  exact UInt64.not_lt.mpr hissued hlt

theorem Holds.spared (hs : Sound h) (hcolumn : i.1.toNat < 2 ^ 63)
    (hh : Holds (History.follow C h i)) : Spared C h i := by
  obtain ⟨now, act⟩ := i
  cases act with
  | register caller c =>
    intro htakes hpredated
    by_contra hnone
    refine not_holds_of_admits (.register htakes ?_) hpredated hh
    -- a row that stands would be barred
    rw [isRevoked, revoked_expire]
    cases hrow : h.registry.revoked[c.delegate]? with
    | none => rfl
    | some r =>
      obtain ⟨b, hb, hafter⟩ := hs.only c.delegate r hrow
      have hlapsed : ¬ now.toInt64 ≤ r.notAfter :=
        fun hle => hnone ⟨b, hb, by rwa [hafter], hcolumn⟩
      simp [Option.filter, hlapsed]
  | handover caller will kept settled =>
    intro hands x c hbrought hpredated
    obtain ⟨-, rfl⟩ := broughtFor_mem hbrought
    exact not_holds_of_admits (.handover hands hbrought) hpredated hh
  | revoke | expire | succeed => trivial

theorem opened_holds : Holds opened := fun w hw => by simp [opened] at hw

theorem always_of_spared {acts : List (UInt64 × Act)} (hs : Sound h) (hh : Holds h)
    (hstart : ∀ i ∈ acts, h.clock ≤ i.1) (htimes : acts.Pairwise fun i j => i.1 ≤ j.1)
    (hspared : Each (Spared C) (History.follow C) h acts) :
    Always Holds (History.follow C) h acts := by
  induction acts generalizing h with
  | nil => exact hh
  | cons i acts ih =>
    obtain ⟨hi, hrest⟩ := List.pairwise_cons.mp htimes
    have hclock := hstart i (by simp)
    exact ⟨hh, ih (hs.follow hclock) (hh.follow hs hclock hspared.1)
      (fun j hj => by rw [clock_follow]; exact hi j hj) hrest hspared.2⟩

theorem spared_of_always {acts : List (UInt64 × Act)} (hs : Sound h)
    (hstart : ∀ i ∈ acts, h.clock ≤ i.1) (htimes : acts.Pairwise fun i j => i.1 ≤ j.1)
    (hcolumn : ∀ i ∈ acts, i.1.toNat < 2 ^ 63)
    (hh : Always Holds (History.follow C) h acts) :
    Each (Spared C) (History.follow C) h acts := by
  induction acts generalizing h with
  | nil => trivial
  | cons i acts ih =>
    obtain ⟨hi, hrest⟩ := List.pairwise_cons.mp htimes
    exact ⟨hh.2.start.spared hs (hcolumn i (by simp)),
      ih (hs.follow (hstart i (by simp))) (fun j hj => by rw [clock_follow]; exact hi j hj) hrest
        (fun j hj => hcolumn j (by simp [hj])) hh.2⟩

/-- Over every run at times that do not go back: where each step is spared no device is ever its
account's again by a credential from before it was revoked, and at times that a column holds only
there. -/
theorem revocation_holds_iff (C : Crypto) (acts : List (UInt64 × Act))
    (htimes : acts.Pairwise fun i j => i.1 ≤ j.1) :
    (Each (Spared C) (follow C) opened acts → Always Holds (follow C) opened acts) ∧
      ((∀ i ∈ acts, i.1.toNat < 2 ^ 63) → Always Holds (follow C) opened acts →
        Each (Spared C) (follow C) opened acts) := by
  have hstart : ∀ i ∈ acts, opened.clock ≤ i.1 :=
    fun i _ => UInt64.le_iff_toNat_le.mpr (Nat.zero_le _)
  exact ⟨always_of_spared sound_opened opened_holds hstart htimes,
    fun hcolumn => spared_of_always sound_opened hstart htimes hcolumn⟩

section Edges

def account : PubKey := Crypto.toy.publicKey 1
def phone : PubKey := 2

def granted (issued notAfter : UInt64) : Credential :=
  let input := Credential.signingInput .toy
    (Credential.body account phone scopeChat issued notAfter)
  ⟨account, phone, scopeChat, issued, notAfter, Crypto.toy.sign 1 input⟩

/-- A phone is revoked and presents its credential again. -/
def returning : List (UInt64 × Act) :=
  [(20, .register phone (granted 10 1000)), (40, .revoke account phone none),
    (50, .register phone (granted 10 1000))]

/-- A phone that holds two credentials is revoked, and presents the longer when the shorter, which
it registered last, has expired. -/
def lapsing : List (UInt64 × Act) :=
  [(20, .register phone (granted 10 1000)), (30, .register phone (granted 20 100)),
    (40, .revoke account phone none), (101, .register phone (granted 10 1000))]

/-- A phone that was revoked is registered anew, and presents its first credential. -/
def renewing : List (UInt64 × Act) :=
  [(20, .register phone (granted 10 1000)), (40, .revoke account phone none),
    (50, .register phone (granted 45 60)), (51, .register phone (granted 10 1000))]

theorem returning_refused : Always Holds (follow .toy) opened returning := by
  refine (revocation_holds_iff .toy returning (by decide)).1
    ⟨fun _ hp => ?_, trivial, fun _ _ => ?_, trivial⟩
  · obtain ⟨w, hw, -⟩ := hp
    simp [opened] at hw
  · exact ⟨⟨40, 1000⟩, by decide +kernel, by decide, by decide⟩

theorem predating_taken :
    ¬ Always Holds (follow .toy) opened lapsing ∧ ¬ Always Holds (follow .toy) opened renewing := by
  rw [always_iff_prefixes, always_iff_prefixes]
  constructor
  · intro h
    have hlast := h lapsing List.prefix_rfl
    revert hlast
    decide +kernel
  · intro h
    have hlast := h renewing List.prefix_rfl
    revert hlast
    decide +kernel

end Edges

end History
end Sqex.Devices
