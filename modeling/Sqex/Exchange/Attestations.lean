import Sqex.Lib.Columns
import Sqex.Lib.Runs
import Sqex.Lib.Tables
import Sqex.Proto.Attest

/-! The attestations an exchange holds: statements identities have made about each other,
lodged by anybody, withdrawn by their issuers, dropped when they expire. -/
namespace Sqex

structure Statement where
  subject : PubKey
  digest : Bytes32
  issuer : PubKey
  claim : UInt8
  expires : Int64
  record : Bytes
  arrived : Int64
  deriving DecidableEq

inductive LodgeError where
  | invalid (why : Attestation.Invalid)
  /-- A revocation that names nothing its issuer is held to have said. -/
  | noSuchAttestation
  deriving DecidableEq

/-- The table's rows in the order of their row ids: each is written after every other. -/
structure Attestations where
  rows : List Statement
  deriving DecidableEq

namespace Attestations
variable (C : Crypto)

def new : Attestations := ⟨[]⟩

section
variable (a : Attestation) (s : Attestations) (subject : PubKey) (now : UInt64) (digest : Bytes32)

def count : Nat :=
  (s.rows.filter (·.subject = subject)).length

def holds : Bool :=
  s.rows.any fun r => r.subject = subject ∧ r.digest = digest

/-- Whether a revocation by this issuer would remove anything. -/
def said (issuer : PubKey) : Bool :=
  s.rows.any fun r => r.subject = subject ∧ r.digest = digest ∧ r.issuer = issuer

def withdraw (issuer : PubKey) : Attestations :=
  ⟨s.rows.filter fun r => ¬ (r.subject = subject ∧ r.digest = digest ∧ r.issuer = issuer)⟩

def inOrder : List Statement :=
  (s.rows.filter (·.subject = subject)).mergeSort fun r r' => r.arrived ≤ r'.arrived

def trim (surplus : Nat) : Attestations :=
  ⟨s.rows.filter fun r => r ∉ (s.inOrder subject).take surplus⟩

def rowOf : Statement where
  subject := a.subject
  digest := a.digest C
  issuer := a.issuer
  claim := a.claim
  expires := a.expiresAt.toInt64
  record := a.encode
  arrived := now.toInt64

def insert (s : Attestations) : Attestations :=
  if s.holds a.subject (a.digest C) then s else ⟨s.rows ++ [rowOf C a now]⟩

def lodge (s : Attestations) : Except LodgeError Attestations :=
  match a.verify C now with
  | .error why => .error (.invalid why)
  | .ok () =>
    if a.claim = claimRevokes then
      match a.named with
      | none => .error .noSuchAttestation
      | some named =>
        if s.said a.subject named a.issuer then
          .ok ((s.withdraw a.subject named a.issuer).insert C a now)
        else .error .noSuchAttestation
    else if s.holds a.subject (a.digest C) then .ok s
    else
      let held := s.count a.subject
      let s := if maxPerSubject ≤ held then s.trim a.subject (held - maxPerSubject + 1) else s
      .ok (s.insert C a now)

def about (issuer : Option PubKey) (now : UInt64) : List Attestation :=
  let rows := (s.inOrder subject).filter fun r =>
    now.toInt64 < r.expires ∧ (issuer.all fun i => r.issuer = i)
  rows.filterMap fun r => Attestation.decode r.record

def sweep : Attestations :=
  ⟨s.rows.filter fun r => ¬ r.expires ≤ now.toInt64⟩

structure Sound : Prop where
  keyed : (s.rows.map fun r => (r.subject, r.digest)).Nodup
  whole : ∀ r ∈ s.rows, ∃ a now, r = rowOf C a now
  capped : ∀ subject, s.count subject ≤ maxPerSubject

end

variable {C} {s : Attestations} {a : Attestation} {now : UInt64} {subject issuer : PubKey}
  {digest : Bytes32}

theorem holds_iff : s.holds subject digest = true ↔
    ∃ r ∈ s.rows, r.subject = subject ∧ r.digest = digest := by
  simp [holds]

theorem said_iff : s.said subject digest issuer = true ↔
    ∃ r ∈ s.rows, r.subject = subject ∧ r.digest = digest ∧ r.issuer = issuer := by
  simp [said]

theorem mem_inOrder {r : Statement} :
    r ∈ s.inOrder subject ↔ r ∈ s.rows ∧ r.subject = subject := by
  simp [inOrder, List.mem_mergeSort]

theorem mem_withdraw {r : Statement} : r ∈ (s.withdraw subject digest issuer).rows ↔
    r ∈ s.rows ∧ ¬ (r.subject = subject ∧ r.digest = digest ∧ r.issuer = issuer) := by
  simp only [withdraw, List.mem_filter, decide_eq_true_eq]

theorem mem_sweep {r : Statement} :
    r ∈ (s.sweep now).rows ↔ r ∈ s.rows ∧ ¬ r.expires ≤ now.toInt64 := by
  simp [sweep]

theorem mem_trim {r : Statement} {surplus : Nat} : r ∈ (s.trim subject surplus).rows ↔
    r ∈ s.rows ∧ r ∉ (s.inOrder subject).take surplus := by
  simp [trim]

theorem mem_insert {r : Statement} : r ∈ (s.insert C a now).rows ↔
    r ∈ s.rows ∨ (s.holds a.subject (a.digest C) = false ∧ r = rowOf C a now) := by
  unfold insert
  by_cases h : s.holds a.subject (a.digest C) = true
  · simp [h]
  · simp [h]

theorem holds_insert_self : (s.insert C a now).holds a.subject (a.digest C) = true := by
  by_cases h : s.holds a.subject (a.digest C) = true
  · rwa [insert, if_pos h]
  · rw [insert, if_neg h]
    exact holds_iff.mpr ⟨rowOf C a now, by simp, rfl, rfl⟩

theorem sound_new : Sound C new := ⟨by simp [new], by simp [new], by simp [new, count]⟩

theorem Sound.dropped (h : Sound C s) (p : Statement → Bool) : Sound C ⟨s.rows.filter p⟩ where
  keyed := h.keyed.sublist (List.filter_sublist.map _)
  whole r hr := h.whole r (List.mem_filter.mp hr).1
  capped subject :=
    ((List.filter_sublist.filter _).length_le).trans (h.capped subject)

theorem Sound.inserted (h : Sound C s)
    (hroom : s.holds a.subject (a.digest C) = false → s.count a.subject < maxPerSubject) :
    Sound C (s.insert C a now) := by
  by_cases hholds : s.holds a.subject (a.digest C) = true
  · rwa [insert, if_pos hholds]
  have hroom := hroom (by simpa using hholds)
  rw [insert, if_neg hholds]
  refine ⟨?_, ?_, ?_⟩
  · have hfresh : (a.subject, a.digest C) ∉ s.rows.map fun r => (r.subject, r.digest) := by
      intro hmem
      obtain ⟨r, hr, hkey⟩ := List.mem_map.mp hmem
      simp only [Prod.mk.injEq] at hkey
      exact hholds (holds_iff.mpr ⟨r, hr, hkey⟩)
    simp only [List.map_append, List.map_cons, List.map_nil, List.nodup_append, rowOf]
    exact ⟨h.keyed, by simp, by simpa using hfresh⟩
  · intro r hr
    simp only [List.mem_append, List.mem_singleton] at hr
    cases hr with
    | inl hold => exact h.whole r hold
    | inr hnew => exact ⟨a, now, hnew⟩
  · intro subject
    have hcap := h.capped subject
    simp only [count, List.filter_append, List.length_append] at hcap ⊢
    by_cases hsame : a.subject = subject
    · subst hsame
      have hone : ([rowOf C a now].filter (·.subject = a.subject)).length = 1 := by simp [rowOf]
      simp only [count] at hroom
      omega
    · have hnone : ([rowOf C a now].filter (·.subject = subject)).length = 0 := by
        simp [rowOf, hsame]
      omega

theorem count_withdraw (h : s.said subject digest issuer = true) :
    (s.withdraw subject digest issuer).count subject < s.count subject := by
  obtain ⟨r, hr, hsaid⟩ := said_iff.mp h
  have hrow : r ∈ s.rows.filter (·.subject = subject) := by simp [hr, hsaid.1]
  rw [count, withdraw, List.filter_comm]
  exact List.length_filter_lt_length_iff_exists.mpr ⟨r, hrow, by simp [hsaid]⟩

theorem count_trim (h : Sound C s) (hfull : maxPerSubject ≤ s.count subject) :
    (s.trim subject (s.count subject - maxPerSubject + 1)).count subject < maxPerSubject := by
  have hnodup : (s.rows.filter (·.subject = subject)).Nodup := (h.keyed.of_map _).filter _
  have hleft := Tables.length_filter_not_mem_take hnodup
    (List.mergeSort_perm _ fun r r' => r.arrived ≤ r'.arrived) (s.count subject - maxPerSubject + 1)
  have hcount : (s.trim subject (s.count subject - maxPerSubject + 1)).count subject =
      s.count subject - (s.count subject - maxPerSubject + 1) := by
    rw [count, trim, List.filter_comm]
    exact hleft
  have hpos : 0 < maxPerSubject := by decide
  omega

end Attestations
end Sqex

/-! What a withdrawal comes to over any run of lodgements, readings and sweeps: the revocation
is kept, but nothing consults it when what it withdrew is lodged again. -/
namespace Sqex.Attestations
open Runs
variable (C : Crypto)

inductive Call where
  | lodge (a : Attestation)
  | about (subject : PubKey) (issuer : Option PubKey)
  | sweep
  deriving DecidableEq

structure Turn where
  now : UInt64
  call : Call
  deriving DecidableEq

/-- The store, with what the revocations lodged so far have named. -/
structure Course where
  store : Attestations
  withdrawn : List (PubKey × Bytes32)
  deriving DecidableEq

def Course.new : Course := ⟨.new, []⟩

def takesBack (a : Attestation) : List (PubKey × Bytes32) :=
  if a.claim = claimRevokes then (a.named.map (a.subject, ·)).toList else []

def step (c : Course) (t : Turn) : Course :=
  match t.call with
  | .lodge a =>
    match c.store.lodge C a t.now with
    | .ok store => ⟨store, takesBack a ++ c.withdrawn⟩
    | .error _ => c
  | .about _ _ => c
  | .sweep => { c with store := c.store.sweep t.now }

def Accounted (s : Attestations) (t : Turn) (r : Statement) : Prop :=
  match t.call with
  | .lodge a => a.subject = r.subject ∧
    (a.claim = claimRevokes ∧ a.issuer = r.issuer ∧ a.named = some r.digest ∨
      a.claim ≠ claimRevokes ∧ maxPerSubject ≤ s.count r.subject)
  | .about _ _ => False
  | .sweep => r.expires.toUInt64 ≤ t.now

structure Upheld (c : Course) (t : Turn) : Prop where
  gone : ∀ p ∈ (step C c t).withdrawn, (step C c t).store.holds p.1 p.2 = false
  silent : ∀ subject issuer now, ∀ b ∈ (step C c t).store.about subject issuer now,
    (b.subject, b.digest C) ∉ (step C c t).withdrawn
  kept : ∀ r ∈ c.store.rows, (step C c t).store.holds r.subject r.digest = false →
    Accounted c.store t r
  capped : ∀ subject, (step C c t).store.count subject ≤ maxPerSubject

/-- Whether an attestation is one the store takes: it verifies, and if it is a revocation it
names something its issuer is held to have said. -/
def takes (s : Attestations) (a : Attestation) (now : UInt64) : Prop :=
  a.verify C now = .ok () ∧ (a.claim = claimRevokes →
    ∃ named, a.named = some named ∧ s.said a.subject named a.issuer = true)

/-- What is handed in is not something withdrawn, nor does it withdraw itself; and no sweep
takes a time past the columns' range for one before it. -/
def Proper (c : Course) (t : Turn) : Prop :=
  match t.call with
  | .lodge a => takes C c.store a t.now → (a.subject, a.digest C) ∉ takesBack a ++ c.withdrawn
  | .about _ _ => True
  | .sweep => ∀ r ∈ c.store.rows, r.expires ≤ t.now.toInt64 → r.expires.toUInt64 ≤ t.now

variable {C} {s s' : Attestations} {a : Attestation} {now : UInt64} {c : Course} {t : Turn}

def roomed (s : Attestations) (subject : PubKey) : Attestations :=
  if maxPerSubject ≤ s.count subject then
    s.trim subject (s.count subject - maxPerSubject + 1)
  else s

theorem lodge_ok_iff : s.lodge C a now = .ok s' ↔ a.verify C now = .ok () ∧
    ((a.claim = claimRevokes ∧ ∃ named, a.named = some named ∧
        s.said a.subject named a.issuer = true ∧
        s' = (s.withdraw a.subject named a.issuer).insert C a now) ∨
      (a.claim ≠ claimRevokes ∧ s.holds a.subject (a.digest C) = true ∧ s' = s) ∨
      (a.claim ≠ claimRevokes ∧ s.holds a.subject (a.digest C) = false ∧
        s' = (s.roomed a.subject).insert C a now)) := by
  unfold lodge
  cases hverify : a.verify C now with
  | error why => simp
  | ok u =>
    by_cases hrevokes : a.claim = claimRevokes
    · simp only [hrevokes, if_true, ne_eq, not_true_eq_false, true_and, false_and, or_false]
      cases hnamed : a.named with
      | none => simp
      | some named =>
        by_cases hsaid : s.said a.subject named a.issuer = true
        · simp only [hsaid, if_true, Except.ok.injEq, Option.some.injEq, true_and,
            exists_eq_left']
          exact eq_comm
        · simp [hsaid]
    · simp only [hrevokes, if_false, ne_eq, not_false_eq_true, true_and, false_and, false_or]
      by_cases hholds : s.holds a.subject (a.digest C) = true
      · simp [hholds, eq_comm]
      · simp [hholds, roomed, eq_comm]

theorem takes_iff : takes C s a now ↔ ∃ s', s.lodge C a now = .ok s' := by
  simp only [lodge_ok_iff, takes]
  constructor
  · rintro ⟨hverify, hnames⟩
    by_cases hrevokes : a.claim = claimRevokes
    · obtain ⟨named, hnamed, hsaid⟩ := hnames hrevokes
      exact ⟨_, hverify, .inl ⟨hrevokes, named, hnamed, hsaid, rfl⟩⟩
    · by_cases hholds : s.holds a.subject (a.digest C) = true
      · exact ⟨_, hverify, .inr (.inl ⟨hrevokes, hholds, rfl⟩)⟩
      · exact ⟨_, hverify, .inr (.inr ⟨hrevokes, by simpa using hholds, rfl⟩)⟩
  · rintro ⟨s', hverify, ⟨-, named, hnamed, hsaid, -⟩ | ⟨hrevokes, -⟩ | ⟨hrevokes, -⟩⟩
    · exact ⟨hverify, fun _ => ⟨named, hnamed, hsaid⟩⟩
    · exact ⟨hverify, fun h => absurd h hrevokes⟩
    · exact ⟨hverify, fun h => absurd h hrevokes⟩

theorem lodge_holds (h : s.lodge C a now = .ok s') :
    s'.holds a.subject (a.digest C) = true := by
  obtain ⟨-, ⟨-, named, -, -, rfl⟩ | ⟨-, hholds, rfl⟩ | ⟨-, -, rfl⟩⟩ := lodge_ok_iff.mp h
  · exact holds_insert_self
  · exact hholds
  · exact holds_insert_self

theorem Sound.roomed (h : Sound C s) (subject : PubKey) : Sound C (s.roomed subject) := by
  unfold Attestations.roomed
  split
  · exact h.dropped _
  · exact h

theorem count_roomed (h : Sound C s) (subject : PubKey) :
    (s.roomed subject).count subject < maxPerSubject := by
  unfold roomed
  split
  · next hfull => exact count_trim h hfull
  · omega

theorem Sound.lodged (h : Sound C s) (hlodge : s.lodge C a now = .ok s') : Sound C s' := by
  obtain ⟨-, ⟨-, named, -, hsaid, rfl⟩ | ⟨-, -, rfl⟩ | ⟨-, -, rfl⟩⟩ := lodge_ok_iff.mp hlodge
  · -- a revocation takes the place of what it withdraws
    have hfewer := count_withdraw hsaid
    have hcap := h.capped a.subject
    exact Sound.inserted (h.dropped _) fun _ => by omega
  · exact h
  · exact (h.roomed a.subject).inserted fun _ => count_roomed h a.subject

theorem Sound.step (h : Sound C c.store) (t : Turn) : Sound C (step C c t).store := by
  unfold Attestations.step
  cases t.call with
  | lodge a =>
    cases hlodge : c.store.lodge C a t.now with
    | error why => simpa [hlodge] using h
    | ok store => simpa [hlodge] using h.lodged hlodge
  | about subject issuer => exact h
  | sweep => exact h.dropped _

/-! What is read is what is held. -/

theorem held_of_about (h : Sound C s) {subject : PubKey} {issuer : Option PubKey}
    {b : Attestation} (hb : b ∈ s.about subject issuer now) :
    s.holds b.subject (b.digest C) = true := by
  obtain ⟨r, hr, hdecode⟩ := List.mem_filterMap.mp hb
  have hrow : r ∈ s.rows := (mem_inOrder.mp (List.mem_filter.mp hr).1).1
  obtain ⟨a, arrived, rfl⟩ := h.whole r hrow
  obtain rfl := Attestation.eq_of_decode_encode hdecode
  exact holds_iff.mpr ⟨_, hrow, rfl, rfl⟩

structure Standing (C : Crypto) (c : Course) : Prop where
  sound : Sound C c.store
  gone : ∀ p ∈ c.withdrawn, c.store.holds p.1 p.2 = false

theorem holds_of_mem {r : Statement} (h : r ∈ s.rows) : s.holds r.subject r.digest = true :=
  holds_iff.mpr ⟨r, h, rfl, rfl⟩

theorem holds_insert_of_ne {subject : PubKey} {digest : Bytes32}
    (h : s.holds subject digest = false) (hne : (subject, digest) ≠ (a.subject, a.digest C)) :
    (s.insert C a now).holds subject digest = false := by
  rw [Bool.eq_false_iff] at h ⊢
  intro hholds
  obtain ⟨r, hr, hsubject, hdigest⟩ := holds_iff.mp hholds
  cases mem_insert.mp hr with
  | inl hold => exact h (holds_iff.mpr ⟨r, hold, hsubject, hdigest⟩)
  | inr hnew =>
    obtain ⟨-, rfl⟩ := hnew
    exact hne (by rw [← hsubject, ← hdigest]; rfl)

theorem holds_of_subset {subject : PubKey} {digest : Bytes32} (hsub : ∀ r ∈ s'.rows, r ∈ s.rows)
    (h : s.holds subject digest = false) : s'.holds subject digest = false := by
  rw [Bool.eq_false_iff] at h ⊢
  intro hholds
  obtain ⟨r, hr, hkey⟩ := holds_iff.mp hholds
  exact h (holds_iff.mpr ⟨r, hsub r hr, hkey⟩)

theorem mem_of_mem_roomed {r : Statement} {subject : PubKey} (h : r ∈ (s.roomed subject).rows) :
    r ∈ s.rows := by
  unfold roomed at h
  split at h
  · exact (mem_trim.mp h).1
  · exact h

theorem holds_withdraw (h : Sound C s) {subject issuer : PubKey} {digest : Bytes32}
    (hsaid : s.said subject digest issuer = true) :
    (s.withdraw subject digest issuer).holds subject digest = false := by
  rw [Bool.eq_false_iff]
  intro hholds
  obtain ⟨r, hr, hsubject, hdigest⟩ := holds_iff.mp hholds
  obtain ⟨hrow, hkept⟩ := mem_withdraw.mp hr
  obtain ⟨q, hq, hqsubject, hqdigest, hqissuer⟩ := said_iff.mp hsaid
  have hsame : r = q :=
    List.inj_on_of_nodup_map h.keyed hrow hq (by rw [hsubject, hdigest, hqsubject, hqdigest])
  exact hkept ⟨hsubject, hdigest, hsame ▸ hqissuer⟩

theorem gone_of_lodge (h : Standing C c) (hlodge : c.store.lodge C a now = .ok s')
    (hproper : (a.subject, a.digest C) ∉ takesBack a ++ c.withdrawn) :
    ∀ p ∈ takesBack a ++ c.withdrawn, s'.holds p.1 p.2 = false := by
  intro p hp
  have hne : (p.1, p.2) ≠ (a.subject, a.digest C) := fun heq => hproper (heq ▸ hp)
  obtain ⟨-, ⟨hrevokes, named, hnamed, hsaid, rfl⟩ | ⟨hclaim, -, rfl⟩ | ⟨hclaim, -, rfl⟩⟩ :=
    lodge_ok_iff.mp hlodge
  · refine holds_insert_of_ne ?_ hne
    rw [takesBack, if_pos hrevokes, hnamed, List.mem_append] at hp
    cases hp with
    | inl hnow =>
      obtain rfl : p = (a.subject, named) := by simpa using hnow
      exact holds_withdraw h.sound hsaid
    | inr hbefore =>
      exact holds_of_subset (fun r hr => (mem_withdraw.mp hr).1) (h.gone p hbefore)
  · rw [takesBack, if_neg hclaim] at hp
    exact h.gone p hp
  · rw [takesBack, if_neg hclaim] at hp
    exact holds_insert_of_ne (holds_of_subset (fun r => mem_of_mem_roomed) (h.gone p hp)) hne

theorem gone_of_proper (h : Standing C c) (hproper : Proper C c t) :
    ∀ p ∈ (step C c t).withdrawn, (step C c t).store.holds p.1 p.2 = false := by
  unfold step
  unfold Proper at hproper
  cases hcall : t.call with
  | lodge a =>
    simp only [hcall] at hproper ⊢
    cases hlodge : c.store.lodge C a t.now with
    | error why => exact h.gone
    | ok store => exact gone_of_lodge h hlodge (hproper (takes_iff.mpr ⟨store, hlodge⟩))
  | about subject issuer => exact h.gone
  | sweep =>
    exact fun p hp => holds_of_subset (fun r hr => (mem_sweep.mp hr).1) (h.gone p hp)

theorem Standing.step (h : Standing C c) (hproper : Proper C c t) : Standing C (step C c t) :=
  ⟨h.sound.step t, gone_of_proper h hproper⟩

theorem accounted_of_lodge (hlodge : s.lodge C a now = .ok s') {r : Statement}
    (hr : r ∈ s.rows) (hgone : s'.holds r.subject r.digest = false) :
    Accounted s ⟨now, .lodge a⟩ r := by
  have hlost : r ∉ s'.rows := fun hmem => by simp [holds_of_mem hmem] at hgone
  obtain ⟨-, ⟨hrevokes, named, hnamed, -, rfl⟩ | ⟨-, -, rfl⟩ | ⟨hclaim, -, rfl⟩⟩ :=
    lodge_ok_iff.mp hlodge
  · have hwithdrawn : r ∉ (s.withdraw a.subject named a.issuer).rows := fun hmem =>
      hlost (mem_insert.mpr (.inl hmem))
    have hnames : r.subject = a.subject ∧ r.digest = named ∧ r.issuer = a.issuer := by
      by_contra hother
      exact hwithdrawn (mem_withdraw.mpr ⟨hr, hother⟩)
    refine ⟨hnames.1.symm, .inl ⟨hrevokes, hnames.2.2.symm, ?_⟩⟩
    rw [hnamed, hnames.2.1]
  · exact absurd hr hlost
  · have htrimmed : r ∉ (s.roomed a.subject).rows := fun hmem =>
      hlost (mem_insert.mpr (.inl hmem))
    unfold roomed at htrimmed
    split at htrimmed
    · next hfull =>
      have hfirst : r ∈ (s.inOrder a.subject).take (s.count a.subject - maxPerSubject + 1) := by
        by_contra hother
        exact htrimmed (mem_trim.mpr ⟨hr, hother⟩)
      have hsubject := (mem_inOrder.mp (List.mem_of_mem_take hfirst)).2
      exact ⟨hsubject.symm, .inr ⟨hclaim, hsubject ▸ hfull⟩⟩
    · exact absurd hr htrimmed

theorem accounted_of_proper (hproper : Proper C c t) {r : Statement} (hr : r ∈ c.store.rows)
    (hgone : (Attestations.step C c t).store.holds r.subject r.digest = false) :
    Accounted c.store t r := by
  obtain ⟨now, call⟩ := t
  cases call with
  | lodge a =>
    simp only [Attestations.step] at hgone
    cases hlodge : c.store.lodge C a now with
    | error why => simp [hlodge, holds_of_mem hr] at hgone
    | ok store => exact accounted_of_lodge hlodge hr (by simpa [hlodge] using hgone)
  | about subject issuer => simp [Attestations.step, holds_of_mem hr] at hgone
  | sweep =>
    refine hproper r hr ?_
    by_contra hlater
    have hkept := holds_of_mem (mem_sweep.mpr ⟨hr, hlater⟩)
    simp [Attestations.step, hkept] at hgone

theorem upheld_of_proper (h : Standing C c) (hproper : Proper C c t) : Upheld C c t where
  gone := gone_of_proper h hproper
  silent subject issuer now b hb hmem := by
    have hheld := held_of_about (h.sound.step t) hb
    simp [gone_of_proper h hproper _ hmem] at hheld
  kept r hr hgone := accounted_of_proper hproper hr hgone
  capped := (h.sound.step t).capped

theorem proper_of_upheld (h : Standing C c) (hup : Upheld C c t) : Proper C c t := by
  obtain ⟨now, call⟩ := t
  cases call with
  | lodge a =>
    intro htakes hmem
    obtain ⟨store, hlodge⟩ := takes_iff.mp htakes
    have hgone := hup.gone (a.subject, a.digest C)
    simp [Attestations.step, hlodge, lodge_holds hlodge] at hgone
    exact (List.mem_append.mp hmem).elim hgone.1 hgone.2
  | about subject issuer => trivial
  | sweep =>
    intro r hr hpast
    refine hup.kept r hr ?_
    rw [Bool.eq_false_iff]
    intro hholds
    obtain ⟨q, hq, hkey⟩ := holds_iff.mp hholds
    obtain ⟨hrow, hlater⟩ := mem_sweep.mp hq
    have hsame : q = r :=
      List.inj_on_of_nodup_map h.sound.keyed hrow hr (Prod.ext hkey.1 hkey.2)
    exact hlater (hsame ▸ hpast)

/-- A run keeps what is withdrawn away, and takes away nothing else, exactly when nothing
withdrawn is lodged again. -/
theorem withdrawn_stays (C : Crypto) (ts : List Turn) :
    Each (Upheld C) (step C) .new ts ↔ Each (Proper C) (step C) .new ts := by
  have hnew : Standing C .new := ⟨sound_new, by simp [Course.new]⟩
  have hkeep : ∀ c t, Standing C c → True → Proper C c t → Standing C (step C c t) :=
    fun c t h _ hproper => h.step hproper
  have hsame : ∀ c t, Standing C c → True → (Upheld C c t ↔ Proper C c t) :=
    fun c t h _ => ⟨proper_of_upheld h, upheld_of_proper h⟩
  have hany : Each (fun _ _ => True) (step C) .new ts := each_of_mem (fun _ _ _ => trivial) _
  exact each_congr hkeep hsame hnew hany

/-- A statement about subject 9, and its withdrawal. -/
def spoken : Attestation := .sign .toy 1 9 claimOperates [] 1 100
def takenBack : Attestation :=
  .sign .toy 1 9 claimRevokes (Bytes32.toBytes (spoken.digest .toy)) 1 100

/-- Said, withdrawn, and handed in again by anybody. -/
def replay : List Turn := [⟨2, .lodge spoken⟩, ⟨3, .lodge takenBack⟩, ⟨4, .lodge spoken⟩]

theorem replay_returns : ¬ Each (Upheld .toy) (step .toy) .new replay := by
  rintro ⟨-, -, hup, -⟩
  have hgone := hup.gone (9, spoken.digest .toy)
  revert hgone
  decide +kernel

end Sqex.Attestations
