import Sqex.Lib.Collections
import Sqex.Lib.Columns
import Sqex.Proto.Credential
import Sqex.Proto.Succession

/-! The device registry of an exchange: which account a device acts for, which devices were
revoked, and which accounts were succeeded. A call that fails leaves it as it was. -/
namespace Sqex.Devices
open Std

def maxDevices : Nat := 8
def maxRegistrationsPerHour : Nat := 16

inductive DeviceError where
  | invalid (reason : Invalid)
  | notAuthorised
  /-- The device is mapped to a different account. -/
  | claimed
  | revoked
  | senior
  | noSuchDevice | tooManyDevices | rateLimited
  deriving DecidableEq

structure DeviceRow where
  account : PubKey
  added : Int64
  issued : Int64
  notAfter : Int64
  credential : Credential
  deriving DecidableEq

/-- A revocation, kept until the credential it is of would have expired. -/
structure RevokedRow where
  time : Int64
  notAfter : Int64
  account : PubKey
  revocation : Option Revocation
  deriving DecidableEq

structure SuccessionRow where
  successor : PubKey
  time : Int64
  proof : Proof
  deriving DecidableEq

structure Registry where
  device : ExtTreeMap PubKey DeviceRow
  revoked : ExtTreeMap PubKey RevokedRow
  succession : ExtTreeMap PubKey SuccessionRow

namespace Registry

def opened : Registry := ⟨∅, ∅, ∅⟩

section
variable (C : Crypto) (s : Registry) (account successor : PubKey) (proof : Proof) (caller : PubKey)
  (c : Credential) (device : PubKey) (now : UInt64)

def expire : Registry :=
  { s with
    device := s.device.filter fun _ r => now.toInt64 ≤ r.notAfter
    revoked := s.revoked.filter fun _ r => now.toInt64 ≤ r.notAfter }

/-- The account a device is registered to, while its credential lasts. -/
def accountOf : Option PubKey :=
  (s.device[device]?.filter fun r => now.toInt64 ≤ r.notAfter).map (·.account)

def accountFor : PubKey :=
  (s.accountOf device now).getD device

def list : List PubKey :=
  (s.device.toList.filter fun d => d.2.account == account && now.toInt64 ≤ d.2.notAfter).map (·.1)

def hasDevices : Bool :=
  ! (s.list account now).isEmpty

def successorOf : Option PubKey :=
  s.succession[account]?.map (·.successor)

def countOf : Nat :=
  s.device.toList.countP fun d => d.2.account == account

def recent : Nat :=
  s.device.toList.countP fun d =>
    d.2.account == account && now.toInt64.toInt - d.2.added.toInt < 3600

def isAuthorised : Bool :=
  caller == c.delegate || s.accountOf caller now == some c.account

def isRevoked : Bool :=
  s.revoked[c.delegate]?.any fun r => c.issued ≤ r.time.toUInt64

def isClaimed : Bool :=
  s.device[c.delegate]?.any fun r => r.account != c.account

def registered : DeviceRow :=
  match s.device[c.delegate]? with
  | some r =>
    { r with issued := c.issued.toInt64, notAfter := c.notAfter.toInt64, credential := c }
  | none => ⟨c.account, now.toInt64, c.issued.toInt64, c.notAfter.toInt64, c⟩

def enter (row : DeviceRow) : Registry :=
  { s with device := s.device.insert device row, revoked := s.revoked.erase device }

/-- What a registration asks after the credential verified and what expired is gone. -/
def check : Except DeviceError Unit :=
  if ! s.isAuthorised caller c now then .error .notAuthorised
  else if s.isClaimed c then .error .claimed
  else if s.isRevoked c then .error .revoked
  else if s.device[c.delegate]?.isNone ∧ s.countOf c.account ≥ maxDevices then
    .error .tooManyDevices
  else if s.device[c.delegate]?.isNone ∧ s.recent c.account now ≥ maxRegistrationsPerHour then
    .error .rateLimited
  else .ok ()

def register : Except DeviceError Registry :=
  match c.verify C c.account scopeChat now with
  | .error reason => .error (.invalid reason)
  | .ok () => do
    let t := s.expire now
    t.check caller c now
    pure (t.enter c.delegate (t.registered c now))

def mayRevoke (target : DeviceRow) (attested : Option Revocation) (now : UInt64) :
    Except DeviceError Unit :=
  match attested with
  | some r =>
    match r.verify C target.account now revocationSkew with
    | .error reason => .error (.invalid reason)
    | .ok () => if r.device ≠ device then .error .notAuthorised else .ok ()
  | none =>
    if caller = target.account then .ok ()
    else match s.device[caller]? with
      | none => .error .notAuthorised
      | some mine =>
        if mine.account ≠ target.account then .error .notAuthorised
        -- it may name itself
        else if caller ≠ device ∧ mine.added.toUInt64 > target.added.toUInt64 then .error .senior
        else .ok ()

def revoke (attested : Option Revocation) (now : UInt64) : Except DeviceError Registry :=
  let t := s.expire now
  match t.device[device]? with
  | none => .error .noSuchDevice
  | some target => do
    t.mayRevoke C caller device target attested now
    let row : RevokedRow := ⟨now.toInt64, target.notAfter, target.account, attested⟩
    pure { t with device := t.device.erase device, revoked := t.revoked.insert device row }

def retire : Registry :=
  { s with
    revoked := s.revoked ∪ s.device.filterMap fun _ r =>
      if r.account = account then some ⟨now.toInt64, r.notAfter, account, none⟩ else none
    device := s.device.filter fun _ r => r.account != account }

def record : Registry :=
  { s with succession := s.succession.insert account ⟨successor, now.toInt64, proof⟩ }

/-- Record that `successor` holds `account` from now, and retire its devices. Once, ever. -/
def succeed : Except DeviceError Registry :=
  if s.succession[account]?.isSome then .error .notAuthorised
  else .ok ((s.record account successor proof now).retire account now)

def keep (s : Registry) (c : Credential) : Registry :=
  s.enter c.delegate { s.registered c now with account := successor }

def handover (kept : List Credential) (now : UInt64) : Except DeviceError Registry :=
  if s.succession[account]?.isSome then .error .notAuthorised
  else
    let t := (s.record account successor proof now).retire account now
    .ok (kept.foldl (keep successor now) t)

end

end Registry

namespace Server
open Registry

/-- Whether `successor` may take `account`: neither was succeeded, and the successor is a fresh
key, with no device and, as `settled` says, no name and no channel. -/
def mayTake (s : Registry) (account successor : PubKey) (settled : Bool) (now : UInt64) : Bool :=
  account != successor && (s.successorOf account).isNone && (s.successorOf successor).isNone &&
    ! s.hasDevices successor now && ! settled

def succeed (C : Crypto) (s : Registry) (me : PubKey) (proof : Proof) (settled : Bool)
    (now : UInt64) : Option Registry :=
  match proof.successor with
  | none => none
  | some successor =>
    if successor = me ∧ proof.proves C successor ∧
        mayTake s proof.account successor settled now then
      (s.succeed proof.account successor proof now).toOption
    else none

def mine (s : Registry) (account : PubKey) (now : UInt64) : List PubKey :=
  if s.hasDevices account now then s.list account now else [account]

def handover (C : Crypto) (s : Registry) (device : PubKey) (will : Will) (kept : List Credential)
    (settled : Bool) (now : UInt64) : Option Registry :=
  if will.account = s.accountFor device now ∧ will.verify C ∧
      mayTake s will.account will.successor settled now ∧
      kept.all (fun c => c.account == will.successor &&
        (mine s will.account now).contains c.delegate &&
          (c.verify C will.successor scopeChat now).isOk) then
    (s.handover will.account will.successor (.will will) kept now).toOption
  else none

end Server

namespace Registry

inductive Act where
  | register (caller : PubKey) (credential : Credential)
  | revoke (caller device : PubKey) (attested : Option Revocation)
  | expire
  | succeed (caller : PubKey) (proof : Proof) (settled : Bool)
  | handover (caller : PubKey) (will : Will) (kept : List Credential) (settled : Bool)

/-- What an operation leaves, where it goes through. -/
def attempt (C : Crypto) (s : Registry) (now : UInt64) : Act → Option Registry
  | .register caller c => (s.register C caller c now).toOption
  | .revoke caller device attested => (s.revoke C caller device attested now).toOption
  | .expire => some (s.expire now)
  | .succeed caller proof settled => Server.succeed C s caller proof settled now
  | .handover caller will kept settled => Server.handover C s caller will kept settled now

def perform (C : Crypto) (s : Registry) (now : UInt64) (act : Act) : Registry :=
  (s.attempt C now act).getD s

section Lookups
variable {s : Registry} {now : UInt64} {a d x : PubKey} {row : DeviceRow}

theorem device_expire :
    (s.expire now).device[x]? = s.device[x]?.filter fun r => now.toInt64 ≤ r.notAfter :=
  ExtTreeMap.getElem?_filter'

theorem revoked_expire :
    (s.expire now).revoked[x]? = s.revoked[x]?.filter fun r => now.toInt64 ≤ r.notAfter :=
  ExtTreeMap.getElem?_filter'

theorem device_enter : (s.enter d row).device[x]? = if d = x then some row else s.device[x]? :=
  lookup_insert ..

theorem revoked_enter : (s.enter d row).revoked[x]? = if d = x then none else s.revoked[x]? :=
  lookup_erase ..

theorem device_retire : (s.retire a now).device[x]? = s.device[x]?.filter (·.account != a) :=
  ExtTreeMap.getElem?_filter'

theorem revoked_retire :
    (s.retire a now).revoked[x]? = match s.device[x]?.filter (·.account == a) with
      | some r => some ⟨now.toInt64, r.notAfter, a, none⟩
      | none => s.revoked[x]? := by
  rw [retire, ExtTreeMap.getElem?_union, ExtTreeMap.getElem?_filterMap']
  cases s.device[x]? with
  | none => rfl
  | some r => by_cases hr : r.account = a <;> simp [hr, Option.filter]

theorem registered_credential (s : Registry) (c : Credential) (now : UInt64) :
    (s.registered c now).issued = c.issued.toInt64 ∧
      (s.registered c now).notAfter = c.notAfter.toInt64 ∧
      (s.registered c now).credential = c := by
  unfold registered
  split <;> exact ⟨rfl, rfl, rfl⟩

structure KeptRow (successor : PubKey) (c : Credential) (r : DeviceRow) : Prop where
  account : r.account = successor
  issued : r.issued = c.issued.toInt64
  notAfter : r.notAfter = c.notAfter.toInt64
  credential : r.credential = c

/-- The credential that a handover keeps a device under: the last that was brought for it. -/
def broughtFor (kept : List Credential) (x : PubKey) : Option Credential :=
  kept.reverse.find? (·.delegate == x)

theorem broughtFor_mem {kept : List Credential} {c : Credential} (h : broughtFor kept x = some c) :
    c ∈ kept ∧ c.delegate = x :=
  ⟨by simpa using List.mem_of_find?_eq_some h, by simpa using List.find?_some h⟩

theorem lookup_keep {successor : PubKey} (kept : List Credential) (x : PubKey) :
    match broughtFor kept x with
    | none => (kept.foldl (keep successor now) s).device[x]? = s.device[x]? ∧
        (kept.foldl (keep successor now) s).revoked[x]? = s.revoked[x]?
    | some c => (kept.foldl (keep successor now) s).revoked[x]? = none ∧
        ∃ r, (kept.foldl (keep successor now) s).device[x]? = some r ∧ KeptRow successor c r := by
  induction kept using List.reverseRecOn with
  | nil => exact ⟨rfl, rfl⟩
  | append_singleton kept c ih =>
    rw [List.foldl_append, List.foldl_cons, List.foldl_nil, broughtFor, List.reverse_append,
      List.reverse_singleton, List.singleton_append, List.find?_cons, keep, device_enter,
      revoked_enter]
    by_cases hx : c.delegate = x
    · obtain ⟨hissued, hafter, hcredential⟩ :=
        registered_credential (kept.foldl (keep successor now) s) c now
      simp only [hx, beq_self_eq_true, if_true]
      exact ⟨trivial, _, rfl, ⟨rfl, hissued, hafter, hcredential⟩⟩
    · simp only [hx, beq_eq_false_iff_ne.mpr hx, if_false]
      exact ih

theorem succession_keep {successor : PubKey} (kept : List Credential) :
    (kept.foldl (keep successor now) s).succession = s.succession := by
  induction kept generalizing s with
  | nil => rfl
  | cons c kept ih => exact ih

end Lookups

section Outcomes
variable {C : Crypto} {s s' : Registry} {now : UInt64}

def Takes (C : Crypto) (s : Registry) (caller : PubKey) (c : Credential) (now : UInt64) : Prop :=
  c.verify C c.account scopeChat now = .ok () ∧
    (s.expire now).isAuthorised caller c now = true ∧ (s.expire now).isClaimed c = false ∧
    ((s.expire now).device[c.delegate]?.isNone → (s.expire now).countOf c.account < maxDevices ∧
      (s.expire now).recent c.account now < maxRegistrationsPerHour)

theorem check_ok {caller : PubKey} {c : Credential} :
    s.check caller c now = .ok () ↔
      s.isAuthorised caller c now = true ∧ s.isClaimed c = false ∧ s.isRevoked c = false ∧
        (s.device[c.delegate]?.isNone → s.countOf c.account < maxDevices ∧
          s.recent c.account now < maxRegistrationsPerHour) := by
  unfold check
  split
  · rename_i h
    simp [show s.isAuthorised caller c now = false by simpa using h]
  rename_i hauthorised
  split
  · rename_i h
    simp [h]
  rename_i hclaimed
  split
  · rename_i h
    simp [h]
  rename_i hrevoked
  have hfirst : s.isAuthorised caller c now = true ∧ s.isClaimed c = false ∧
      s.isRevoked c = false :=
    ⟨by simpa using hauthorised, by simpa using hclaimed, by simpa using hrevoked⟩
  split
  · rename_i h
    refine iff_of_false (by simp) fun hall => ?_
    have hroom := hall.2.2.2 h.1
    omega
  rename_i hcount
  split
  · rename_i h
    refine iff_of_false (by simp) fun hall => ?_
    have hroom := hall.2.2.2 h.1
    omega
  rename_i hrecent
  refine iff_of_true rfl ⟨hfirst.1, hfirst.2.1, hfirst.2.2, fun hnone => ⟨?_, ?_⟩⟩
  · exact Nat.lt_of_not_le fun h => hcount ⟨hnone, h⟩
  · exact Nat.lt_of_not_le fun h => hrecent ⟨hnone, h⟩

theorem register_ok {caller : PubKey} {c : Credential} :
    s.register C caller c now = .ok s' ↔
      Takes C s caller c now ∧ (s.expire now).isRevoked c = false ∧
        s' = (s.expire now).enter c.delegate ((s.expire now).registered c now) := by
  have hcheck := @check_ok (s.expire now) now caller c
  unfold register Takes
  cases c.verify C c.account scopeChat now with
  | error reason => simp
  | ok =>
    cases hresult : (s.expire now).check caller c now with
    | error e =>
      rw [hresult] at hcheck
      have hnot := hcheck.not.mp (by simp)
      simp only [hresult, bind, Except.bind]
      refine iff_of_false (by simp) fun h => hnot ?_
      exact ⟨h.1.2.1, h.1.2.2.1, h.2.1, h.1.2.2.2⟩
    | ok =>
      obtain ⟨hauthorised, hclaimed, hrevoked, hroom⟩ := hcheck.mp hresult
      simp only [hresult, bind, Except.bind, pure, Except.pure, Except.ok.injEq]
      constructor
      · exact fun h => ⟨⟨trivial, hauthorised, hclaimed, hroom⟩, hrevoked, h.symm⟩
      · exact fun h => h.2.2.symm

/-- A handover is the account's own, to a key that may take it, and each credential it brings is
the successor's for a device the account has. -/
structure Hands (C : Crypto) (s : Registry) (caller : PubKey) (will : Will) (kept : List Credential)
    (settled : Bool) (now : UInt64) : Prop where
  own : will.account = s.accountFor caller now
  signed : will.verify C = true
  may : Server.mayTake s will.account will.successor settled now = true
  brought : ∀ c ∈ kept, c.account = will.successor ∧ c.delegate ∈ Server.mine s will.account now ∧
    c.verify C will.successor scopeChat now = .ok ()

def handed (s : Registry) (will : Will) (kept : List Credential) (now : UInt64) : Registry :=
  kept.foldl (keep will.successor now)
    ((s.record will.account will.successor (.will will) now).retire will.account now)

def claimed (s : Registry) (proof : Proof) (successor : PubKey) (now : UInt64) : Registry :=
  (s.record proof.account successor proof now).retire proof.account now

def withdrawn (s : Registry) (device : PubKey) (target : DeviceRow) (attested : Option Revocation)
    (now : UInt64) : Registry :=
  { s.expire now with
    device := (s.expire now).device.erase device
    revoked := (s.expire now).revoked.insert device
      ⟨now.toInt64, target.notAfter, target.account, attested⟩ }

inductive Took (C : Crypto) (s : Registry) (now : UInt64) : Act → Registry → Prop
  | register {caller : PubKey} {c : Credential} (takes : Takes C s caller c now)
      (standing : (s.expire now).isRevoked c = false) :
      Took C s now (.register caller c)
        ((s.expire now).enter c.delegate ((s.expire now).registered c now))
  | revoke {caller device : PubKey} {attested : Option Revocation} {target : DeviceRow}
      (held : (s.expire now).device[device]? = some target)
      (may : (s.expire now).mayRevoke C caller device target attested now = .ok ()) :
      Took C s now (.revoke caller device attested) (s.withdrawn device target attested now)
  | expire : Took C s now .expire (s.expire now)
  | succeed {proof : Proof} {successor : PubKey} {settled : Bool}
      (names : proof.successor = some successor) (proves : proof.proves C successor = true)
      (may : Server.mayTake s proof.account successor settled now = true) :
      Took C s now (.succeed successor proof settled) (s.claimed proof successor now)
  | handover {caller : PubKey} {will : Will} {kept : List Credential} {settled : Bool}
      (hands : Hands C s caller will kept settled now) :
      Took C s now (.handover caller will kept settled) (s.handed will kept now)

theorem toOption_eq_some {ε α : Type} {r : Except ε α} {a : α} (h : r.toOption = some a) :
    r = .ok a := by
  cases r with
  | error e => simp [Except.toOption] at h
  | ok b => simpa [Except.toOption] using h

theorem took {act : Act} (h : s.attempt C now act = some s') : Took C s now act s' := by
  cases act with
  | register caller c =>
    obtain ⟨htakes, hstanding, rfl⟩ := register_ok.mp (toOption_eq_some h)
    exact .register htakes hstanding
  | revoke caller device attested =>
    have hok := toOption_eq_some h
    simp only [revoke] at hok
    split at hok
    · simp at hok
    · rename_i target hheld
      cases hmay : (s.expire now).mayRevoke C caller device target attested now with
      | error e => simp [hmay, bind, Except.bind] at hok
      | ok =>
        simp only [hmay, bind, Except.bind, pure, Except.pure, Except.ok.injEq] at hok
        subst hok
        exact .revoke hheld hmay
  | expire =>
    obtain rfl := Option.some.inj h
    exact .expire
  | succeed caller proof settled =>
    simp only [attempt, Server.succeed] at h
    split at h
    · simp at h
    · rename_i successor hnames
      split at h
      · rename_i hall
        obtain ⟨rfl, hproves, hmay⟩ := hall
        have hok := toOption_eq_some h
        unfold succeed at hok
        split at hok
        · simp at hok
        · obtain rfl := Except.ok.inj hok
          exact .succeed hnames hproves hmay
      · simp at h
  | handover caller will kept settled =>
    simp only [attempt, Server.handover] at h
    split at h
    · rename_i hall
      obtain ⟨hown, hsigned, hmay, hbrought⟩ := hall
      have hok := toOption_eq_some h
      unfold handover at hok
      split at hok
      · simp at hok
      · obtain rfl := Except.ok.inj hok
        refine .handover ⟨hown, hsigned, hmay, fun c hc => ?_⟩
        have hone := List.all_eq_true.mp hbrought c hc
        simp only [Bool.and_eq_true, beq_iff_eq, List.contains_iff_mem] at hone
        refine ⟨hone.1.1, hone.1.2, ?_⟩
        cases hverify : c.verify C will.successor scopeChat now with
        | error e => simp [hverify, Except.isOk, Except.toBool] at hone
        | ok => rfl
    · simp at h

theorem attempt_register {caller : PubKey} {c : Credential} (htakes : Takes C s caller c now)
    (hstanding : (s.expire now).isRevoked c = false) :
    s.attempt C now (.register caller c) =
      some ((s.expire now).enter c.delegate ((s.expire now).registered c now)) := by
  rw [attempt, register_ok.mpr ⟨htakes, hstanding, rfl⟩]
  rfl

theorem attempt_handover {caller : PubKey} {will : Will} {kept : List Credential} {settled : Bool}
    (hands : Hands C s caller will kept settled now) :
    s.attempt C now (.handover caller will kept settled) = some (s.handed will kept now) := by
  have hbrought : kept.all (fun c => c.account == will.successor &&
      (Server.mine s will.account now).contains c.delegate &&
        (c.verify C will.successor scopeChat now).isOk) = true := by
    refine List.all_eq_true.mpr fun c hc => ?_
    obtain ⟨haccount, hmine, hverify⟩ := hands.brought c hc
    simp [haccount, hmine, hverify, Except.isOk, Except.toBool]
  have hfresh : s.succession[will.account]?.isSome = false := by
    have hmay := hands.may
    simp only [Server.mayTake, successorOf, Bool.and_eq_true, Option.isNone_map] at hmay
    exact Option.isSome_eq_false_iff.mpr hmay.1.1.1.2
  rw [attempt, Server.handover, if_pos ⟨hands.own, hands.signed, hands.may, hbrought⟩, handover,
    hfresh]
  rfl

end Outcomes

end Registry
end Sqex.Devices
