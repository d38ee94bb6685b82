import Sqex.Exchange.Revocations

/-! Successions: an account is succeeded once, its devices are not its own after, and one that
was retired with it is refused what was signed before while its retirement stands. -/
namespace Sqex.Devices
open Runs
variable {C : Crypto}

namespace Registry
variable {s s' : Registry} {now : UInt64} {a x : PubKey}

section
variable (C : Crypto) (s : Registry)

def step (i : UInt64 × Act) : Registry := s.perform C i.1 i.2

/-- A device is retired: it acts for itself, and is revoked until the expiry of its row. -/
structure Retired (x : PubKey) (time notAfter : Int64) : Prop where
  device : s.device[x]? = none
  revoked : ∃ row, s.revoked[x]? = some row ∧ row.time = time ∧ row.notAfter = notAfter

structure Followed (x successor : PubKey) (c : Credential) : Prop where
  own : c.account = successor ∧ c.delegate = x
  maps : ∀ later : UInt64, later.toInt64 ≤ c.notAfter.toInt64 → s.accountFor x later = successor
  free : s.revoked[x]? = none

/-- What an operation that goes through does to the accounts: a claim and a handover record one that
was not succeeded, and leave it no device; its devices are retired, but for those a handover brings
a credential for. Nothing else records any. -/
def Succeeds (i : UInt64 × Act) : Prop :=
  ∀ s', s.attempt C i.1 i.2 = some s' →
    match i.2 with
    | .succeed caller proof _ =>
      s.successorOf proof.account = none ∧ s'.successorOf proof.account = some caller ∧
        (∀ x later, s'.accountOf x later ≠ some proof.account) ∧
        ∀ x r, s.device[x]? = some r → r.account = proof.account →
          Retired s' x i.1.toInt64 r.notAfter
    | .handover _ will kept _ =>
      s.successorOf will.account = none ∧ s'.successorOf will.account = some will.successor ∧
        (∀ x later, s'.accountOf x later ≠ some will.account) ∧
        (∀ x c, broughtFor kept x = some c → Followed s' x will.successor c) ∧
        ∀ x r, broughtFor kept x = none → s.device[x]? = some r → r.account = will.account →
          Retired s' x i.1.toInt64 r.notAfter
    | _ => s'.succession = s.succession

/-- An account was succeeded for good: whoever asks for it again is refused. -/
def Closed (a : PubKey) : Prop :=
  ∀ now caller settled,
    (∀ proof, proof.account = a → s.attempt C now (.succeed caller proof settled) = none) ∧
      ∀ will kept, will.account = a → s.attempt C now (.handover caller will kept settled) = none

/-- An operation does not register a device, and comes no later than `notAfter`. -/
def Quiet (x : PubKey) (notAfter : Int64) (s : Registry) (i : UInt64 × Act) : Prop :=
  i.1.toInt64 ≤ notAfter ∧ ∀ c, c.delegate = x → ¬ History.Admits C s i.1 c i.2

end

theorem mayTake_ne {a b : PubKey} {settled : Bool} (h : Server.mayTake s a b settled now = true) :
    a ≠ b ∧ s.successorOf a = none := by
  simp only [Server.mayTake, Bool.and_eq_true, bne_iff_ne, Option.isNone_iff_eq_none] at h
  exact ⟨h.1.1.1.1, h.1.1.1.2⟩

theorem step_cases (i : UInt64 × Act) : step C s i = s ∨ Took C s i.1 i.2 (step C s i) := by
  rw [step, perform]
  cases hattempt : s.attempt C i.1 i.2 with
  | none => exact .inl rfl
  | some s' => exact .inr (took hattempt)

theorem succession_step {row : SuccessionRow} (hrow : s.succession[a]? = some row)
    (i : UInt64 × Act) : (step C s i).succession[a]? = some row := by
  obtain ⟨now, act⟩ := i
  rcases step_cases (C := C) (s := s) (now, act) with hsame | htook
  · rw [hsame, hrow]
  · have hkeeps : ∀ b successor proof, s.successorOf b = none →
        (s.record b successor proof now).succession[a]? = some row := by
      intro b successor proof hnone
      have hb : b ≠ a := by
        rintro rfl
        simp [successorOf, hrow] at hnone
      exact (lookup_insert ..).trans ((if_neg hb).trans hrow)
    generalize step C s (now, act) = s' at htook
    cases htook with
    | register | revoke | expire => exact hrow
    | succeed names proves may => exact hkeeps _ _ _ (mayTake_ne may).2
    | handover hands =>
      rw [handed, succession_keep]
      exact hkeeps _ _ _ (mayTake_ne hands.may).2

theorem closed {row : SuccessionRow} (hrow : s.succession[a]? = some row) : Closed C s a := by
  have hsome : s.successorOf a ≠ none := by simp [successorOf, hrow]
  intro now caller settled
  constructor
  · rintro proof rfl
    by_contra hgoes
    obtain ⟨s', hs'⟩ := Option.ne_none_iff_exists'.mp hgoes
    cases took hs' with
    | succeed names proves may => exact hsome (mayTake_ne may).2
  · rintro will kept rfl
    by_contra hgoes
    obtain ⟨s', hs'⟩ := Option.ne_none_iff_exists'.mp hgoes
    cases took hs' with
    | handover hands => exact hsome (mayTake_ne hands.may).2

theorem retired_retire {r : DeviceRow} (hr : s.device[x]? = some r) (haccount : r.account = a) :
    Retired (s.retire a now) x now.toInt64 r.notAfter where
  device := by simp [device_retire, hr, Option.filter, haccount]
  revoked := by
    rw [revoked_retire, hr]
    simp [Option.filter, haccount]

theorem accountOf_eq_some {later : UInt64} (h : s.accountOf x later = some a) :
    ∃ r, s.device[x]? = some r ∧ r.account = a := by
  obtain ⟨r, hr, haccount⟩ := Option.map_eq_some_iff.mp h
  exact ⟨r, (Option.filter_eq_some_iff.mp hr).1, haccount⟩

theorem account_retire {r : DeviceRow} (hr : (s.retire a now).device[x]? = some r) :
    r.account ≠ a := by
  rw [device_retire] at hr
  simpa using (Option.filter_eq_some_iff.mp hr).2

theorem successorOf_record (s : Registry) (a b : PubKey) (proof : Proof) (now : UInt64) :
    (s.record a b proof now).successorOf a = some b := by
  simp [successorOf, record]

theorem succeeds (C : Crypto) (s : Registry) (i : UInt64 × Act) : Succeeds C s i := by
  obtain ⟨now, act⟩ := i
  intro s' hs'
  cases took hs' with
  | register | revoke | expire => rfl
  | succeed names proves may =>
    rename_i proof successor settled
    refine ⟨(mayTake_ne may).2, successorOf_record .., fun x later hof => ?_,
      fun x r hr haccount => ?_⟩
    · obtain ⟨r, hr, haccount⟩ := accountOf_eq_some hof
      exact account_retire hr haccount
    · exact retired_retire (s := s.record proof.account successor proof now) hr haccount
  | handover hands =>
    rename_i caller will kept settled
    obtain ⟨hne, hfresh⟩ := mayTake_ne hands.may
    have hkeep := @lookup_keep ((s.record will.account will.successor (.will will) now).retire
      will.account now) now will.successor kept
    refine ⟨hfresh, ?_, fun x later hof => ?_, fun x c hc => ?_, fun x r hnone hr haccount => ?_⟩
    · rw [successorOf, handed, succession_keep]
      exact successorOf_record ..
    · obtain ⟨r, hr, haccount⟩ := accountOf_eq_some hof
      have hx := hkeep x
      cases hbrought : broughtFor kept x with
      | none =>
        rw [hbrought] at hx
        exact account_retire (hx.1.symm.trans hr) haccount
      | some c =>
        rw [hbrought] at hx
        obtain ⟨-, r', hr', hrow⟩ := hx
        obtain rfl := Option.some.inj (hr'.symm.trans hr)
        exact hne (haccount.symm.trans hrow.account)
    · have hx := hkeep x
      rw [hc] at hx
      obtain ⟨hfree, r, hr, hrow⟩ := hx
      obtain ⟨hmem, hdelegate⟩ := broughtFor_mem hc
      refine ⟨⟨(hands.brought c hmem).1, hdelegate⟩, fun later hlater => ?_, hfree⟩
      rw [accountFor, accountOf, show (s.handed will kept now).device[x]? = some r from hr]
      simp [Option.filter, hrow.notAfter, hlater, hrow.account]
    · have hx := hkeep x
      rw [hnone] at hx
      have hretired := @retired_retire (s.record will.account will.successor (.will will) now) now
        _ _ _ hr haccount
      obtain ⟨row, hrow, htimes⟩ := hretired.revoked
      exact ⟨hx.1.trans hretired.device, row, hx.2.trans hrow, htimes⟩

/-- A retired device stays so over an operation that does not register it and comes before the
expiry. -/
theorem Retired.step {time notAfter : Int64} (h : Retired s x time notAfter) {i : UInt64 × Act}
    (hquiet : Quiet C x notAfter s i) : Retired (step C s i) x time notAfter := by
  obtain ⟨row, hrow, htime, hafter⟩ := h.revoked
  have hregistry : (History.follow C ⟨s, 0, [], fun _ => none⟩ i).registry =
      Registry.step C s i := by
    rw [Registry.step, perform, History.follow]
    cases s.attempt C i.1 i.2 <;> rfl
  have hchange := History.change C ⟨s, 0, [], fun _ => none⟩ i x
  rcases hchange with ⟨hdevice, hrevoked, -⟩ | ⟨hdevice, hrevoked, -⟩ |
    ⟨hadmits, hdelegate, -, -, -, -, -⟩ | ⟨hheld, -, -, -, -⟩
  · rw [hregistry] at hdevice hrevoked
    exact ⟨hdevice.trans h.device, row, hrevoked.trans hrow, htime, hafter⟩
  · rw [hregistry] at hdevice hrevoked
    refine ⟨?_, row, ?_, htime, hafter⟩
    · rw [hdevice, device_expire, h.device]
      rfl
    · rw [hrevoked, revoked_expire, hrow]
      simp [Option.filter, hafter, hquiet.1]
  · exact absurd hadmits (hquiet.2 _ hdelegate)
  · exact absurd h.device hheld

theorem Retired.refused {time notAfter : Int64} (h : Retired s x time notAfter) {caller : PubKey}
    {c : Credential} {later : UInt64} (hx : c.delegate = x) (hissued : c.issued ≤ time.toUInt64)
    (hlater : later.toInt64 ≤ notAfter) : s.register C caller c later ≠ .ok s' := by
  intro hok
  obtain ⟨row, hrow, rfl, rfl⟩ := h.revoked
  have hstanding := (register_ok.mp hok).2.1
  rw [isRevoked, revoked_expire, hx, hrow] at hstanding
  simp [Option.filter, hlater, hissued] at hstanding

theorem Retired.run {time notAfter : Int64} {acts : List (UInt64 × Act)}
    (h : Retired s x time notAfter)
    (hquiet : Each (Quiet C x notAfter) (Registry.step C) s acts) :
    Retired (Runs.run (Registry.step C) s acts) x time notAfter :=
  hquiet.run (P := fun s => Retired s x time notAfter) (fun _ _ hs hok => hs.step hok) h

/-- Over every run each account is succeeded once at most, and for good; each succession leaves the
account no device but the successor's where a handover brings a credential; and a device that was
retired is refused what was signed until then, as long as nothing registers it and the expiry of its
row is not passed. -/
theorem succeeded_once (C : Crypto) (acts : List (UInt64 × Act)) :
    Each (Succeeds C) (step C) opened acts ∧
      ∀ before rest, acts = before ++ rest →
        (∀ a row, (run (step C) opened before).succession[a]? = some row →
          (run (step C) opened acts).succession[a]? = some row ∧
            Closed C (run (step C) opened acts) a) ∧
        ∀ x time notAfter, Retired (run (step C) opened before) x time notAfter →
          Each (Quiet C x notAfter) (step C) (run (step C) opened before) rest →
          ∀ caller c later s', c.delegate = x → c.issued ≤ time.toUInt64 →
            later.toInt64 ≤ notAfter →
              (run (step C) opened acts).register C caller c later ≠ .ok s' := by
  refine ⟨each_of_mem (fun i _ s => succeeds C s i) opened, ?_⟩
  rintro before rest rfl
  rw [run_append]
  refine ⟨fun a row hrow => ?_, fun x time notAfter hretired hquiet caller c later s' => ?_⟩
  · have hkept := run_invariant (P := fun s : Registry => s.succession[a]? = some row)
      (fun s i hs => succession_step (C := C) hs i) hrow rest
    exact ⟨hkept, closed hkept⟩
  · exact (hretired.run hquiet).refused

section Edges
open History

def heir : PubKey := Crypto.toy.publicKey 3
def tablet : PubKey := 4

def bequeathed : Will := ⟨account, heir, 5, Crypto.toy.sign 1 (Will.input .toy account heir 5)⟩

def stolen : Credential :=
  let input := Credential.signingInput .toy (Credential.body account tablet scopeChat 35 1000)
  ⟨account, tablet, scopeChat, 35, 1000, Crypto.toy.sign 1 input⟩

def claiming : List (UInt64 × Act) :=
  [(20, .register phone (granted 10 1000)), (30, .succeed heir (.will bequeathed) false)]

/-- After the claim the phone is nobody's, and the old key makes a tablet the old account's. -/
theorem claim_leaves_devices :
    (run (step .toy) opened claiming).successorOf account = some heir ∧
      (run (step .toy) opened claiming).accountFor phone 31 = phone ∧
      (run (step .toy) opened (claiming ++ [(40, .register tablet stolen)])).accountFor tablet 41 =
        account := by
  decide +kernel

end Edges

end Registry
end Sqex.Devices
