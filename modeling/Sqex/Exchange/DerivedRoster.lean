import Sqex.Exchange.OriginRoster

/-! The roster a copy derives: what each recorded event makes of an account's row, and that
storing an entry changes the roster by its record and by nothing else. -/
namespace Sqex.Exchange
open Std
namespace Rows
variable {C : Crypto} {self : PubKey} {d : Rows} {s : System} {posted : UInt64}

def epoch (r : Rows) : Option UInt32 := r.channel.map (·.epoch)

/-- A copy once it stored an entry as the origin has it. -/
def pull (C : Crypto) (self : PubKey) (d : Rows) (e : Ordered) : Rows :=
  (d.storePulled C self (e.row.entry e.seq) e.row.stamp).1

/-- What a roster says of an account: the role it is present at and whether it is muted, and
whether it is an admin, present or not. -/
def standing (m : Option MemberRow) : Option (Role × Bool) × Bool :=
  ((m.filter (·.present)).map fun m => (m.role, m.muted), m.any fun m => m.role == .admin)

def Lifted (m : Option MemberRow) : Prop := ∀ row ∈ m, row.present = false → row.muted = false

section Derive
variable (C d posted) (s) (a : PubKey)

theorem derive_created (hs : s.event = Event.created) :
    (d.deriveMembership C s posted).member[a]? =
      if s.actor = a then some (enrolledRow .admin posted d.member[a]?) else d.member[a]? := by
  unfold deriveMembership
  rw [if_pos hs, lookup_insert]
  by_cases hactor : s.actor = a
  · rw [if_pos hactor, if_pos hactor, hactor]
    cases d.member[a]? <;> rfl
  · rw [if_neg hactor, if_neg hactor]

theorem derive_joined (hs : s.event = Event.added ∨ s.event = Event.joined) :
    (d.deriveMembership C s posted).member[a]? =
      if s.subject = a then
        some { seatedRow .member posted d.member[a]? with muted := false }
      else d.member[a]? := by
  have hnot : ¬ s.event = Event.created := by
    cases hs with
    | inl hadded => rw [hadded]; decide
    | inr hjoined => rw [hjoined]; decide
  unfold deriveMembership
  rw [if_neg hnot, if_pos hs, alter_member, seat_member]
  by_cases hsubject : s.subject = a
  · rw [if_pos hsubject, if_pos hsubject, if_pos hsubject]
    rfl
  · rw [if_neg hsubject, if_neg hsubject, if_neg hsubject]

theorem derive_muted (hs : s.event = Event.muted ∨ s.event = Event.unmuted) :
    (d.deriveMembership C s posted).member[a]? =
      if s.subject = a then d.member[a]?.map fun m => { m with muted := s.event == Event.muted }
      else d.member[a]? := by
  have hnot : ¬ s.event = Event.created ∧ ¬ (s.event = Event.added ∨ s.event = Event.joined) := by
    cases hs with
    | inl hmuted => rw [hmuted]; decide
    | inr hunmuted => rw [hunmuted]; decide
  unfold deriveMembership
  rw [if_neg hnot.1, if_neg hnot.2, if_pos hs, alter_member]

theorem derive_left (hs : s.event = Event.left ∨ s.event = Event.removed) :
    (d.deriveMembership C s posted).member[a]? =
      if s.subject = a then
        d.member[a]?.map fun m => { m with present := false, muted := false }
      else d.member[a]? := by
  have hnot : ¬ s.event = Event.created ∧ ¬ (s.event = Event.added ∨ s.event = Event.joined) ∧
      ¬ (s.event = Event.muted ∨ s.event = Event.unmuted) ∧ ¬ s.event = Event.promoted ∧
      ¬ s.event = Event.demoted ∧ ¬ s.event = Event.rotated := by
    cases hs with
    | inl hleft => rw [hleft]; decide
    | inr hremoved => rw [hremoved]; decide
  obtain ⟨h₁, h₂, h₃, h₄, h₅, h₆⟩ := hnot
  unfold deriveMembership
  rw [if_neg h₁, if_neg h₂, if_neg h₃, if_neg h₄, if_neg h₅, if_neg h₆, if_pos hs, alter_member]

theorem derive_rotated (hs : s.event = Event.rotated) :
    (d.deriveMembership C s posted).member = d.member ∧
      (d.deriveMembership C s posted).epoch = d.epoch.map (· + 1) := by
  have hnot : ¬ s.event = Event.created ∧ ¬ (s.event = Event.added ∨ s.event = Event.joined) ∧
      ¬ (s.event = Event.muted ∨ s.event = Event.unmuted) ∧ ¬ s.event = Event.promoted ∧
      ¬ s.event = Event.demoted := by
    rw [hs]
    decide
  obtain ⟨h₁, h₂, h₃, h₄, h₅⟩ := hnot
  unfold deriveMembership
  rw [if_neg h₁, if_neg h₂, if_neg h₃, if_neg h₄, if_neg h₅, if_pos hs]
  exact ⟨rfl, by simp [epoch, Function.comp_def]⟩

theorem derive_succeeded (hs : s.event = Event.succeeded) (hwill : entryVerifies C s = true) :
    (d.deriveMembership C s posted).member[a]? =
      if s.actor = a then none
      else if s.subject = a then
        some (movedRow (roleIn d.member[s.actor]?) posted d.member[a]?)
      else d.member[a]? := by
  have hnot : ¬ s.event = Event.created ∧ ¬ (s.event = Event.added ∨ s.event = Event.joined) ∧
      ¬ (s.event = Event.muted ∨ s.event = Event.unmuted) ∧ ¬ s.event = Event.promoted ∧
      ¬ s.event = Event.demoted ∧ ¬ s.event = Event.rotated ∧
      ¬ (s.event = Event.left ∨ s.event = Event.removed) := by
    rw [hs]
    decide
  obtain ⟨h₁, h₂, h₃, h₄, h₅, h₆, h₇⟩ := hnot
  unfold deriveMembership
  rw [if_neg h₁, if_neg h₂, if_neg h₃, if_neg h₄, if_neg h₅, if_neg h₆, if_neg h₇,
    if_pos ⟨hs, hwill⟩, moveMember_member]
  rfl

theorem derive_epoch (hs : s.event ≠ Event.rotated) :
    (d.deriveMembership C s posted).epoch = d.epoch := by
  have halter : ∀ (r : Rows) who f, (r.alter who f).epoch = r.epoch := by
    intro r who f
    unfold alter
    split <;> rfl
  unfold deriveMembership
  by_cases h₁ : s.event = Event.created
  · rw [if_pos h₁]
    rfl
  rw [if_neg h₁]
  by_cases h₂ : s.event = Event.added ∨ s.event = Event.joined
  · rw [if_pos h₂]
    exact halter _ _ _
  rw [if_neg h₂]
  by_cases h₃ : s.event = Event.muted ∨ s.event = Event.unmuted
  · rw [if_pos h₃]
    exact halter _ _ _
  rw [if_neg h₃]
  by_cases h₄ : s.event = Event.promoted
  · rw [if_pos h₄]
    rfl
  rw [if_neg h₄]
  by_cases h₅ : s.event = Event.demoted
  · rw [if_pos h₅]
    rfl
  rw [if_neg h₅, if_neg hs]
  by_cases h₇ : s.event = Event.left ∨ s.event = Event.removed
  · rw [if_pos h₇]
    exact halter _ _ _
  rw [if_neg h₇]
  by_cases h₈ : s.event = Event.succeeded ∧ entryVerifies C s = true
  · rw [if_pos h₈]
    rfl
  · rw [if_neg h₈]

end Derive

theorem derive_entries (entry : ExtTreeMap Int64 EntryRow) :
    deriveMembership C { d with entry } s posted =
      { d.deriveMembership C s posted with entry } := by
  have halter : ∀ (r : Rows) who f,
      alter { r with entry } who f = { r.alter who f with entry } := by
    intro r who f
    unfold alter
    dsimp only
    split <;> rfl
  unfold deriveMembership
  by_cases h₁ : s.event = Event.created
  · rw [if_pos h₁, if_pos h₁]
  rw [if_neg h₁, if_neg h₁]
  by_cases h₂ : s.event = Event.added ∨ s.event = Event.joined
  · rw [if_pos h₂, if_pos h₂]
    exact halter (d.seat s.subject .member posted) _ _
  rw [if_neg h₂, if_neg h₂]
  by_cases h₃ : s.event = Event.muted ∨ s.event = Event.unmuted
  · rw [if_pos h₃, if_pos h₃]
    exact halter d _ _
  rw [if_neg h₃, if_neg h₃]
  by_cases h₄ : s.event = Event.promoted
  · rw [if_pos h₄, if_pos h₄]
    rfl
  rw [if_neg h₄, if_neg h₄]
  by_cases h₅ : s.event = Event.demoted
  · rw [if_pos h₅, if_pos h₅]
    rfl
  rw [if_neg h₅, if_neg h₅]
  by_cases h₆ : s.event = Event.rotated
  · rw [if_pos h₆, if_pos h₆]
  rw [if_neg h₆, if_neg h₆]
  by_cases h₇ : s.event = Event.left ∨ s.event = Event.removed
  · rw [if_pos h₇, if_pos h₇]
    exact halter d _ _
  rw [if_neg h₇, if_neg h₇]
  by_cases h₈ : s.event = Event.succeeded ∧ entryVerifies C s = true
  · rw [if_pos h₈, if_pos h₈]
    rfl
  · rw [if_neg h₈, if_neg h₈]

/-- What storing the record of an action leaves of a copy: its roster and epoch are what the
record makes them. -/
theorem pull_derives (C : Crypto) (self : PubKey) {e : Ordered} (hfree : e.seq.toInt64 ∉ d.entry)
    (hrecord : record (e.row.entry e.seq) = some s) (hstays : s.event ≠ Event.rehomed) :
    (d.pull C self e).member = (d.deriveMembership C s e.row.posted).member ∧
      (d.pull C self e).epoch = (d.deriveMembership C s e.row.posted).epoch ∧
      (d.pull C self e).entry =
        d.entry.insert e.seq.toInt64 (.of (e.row.entry e.seq) e.row.stamp) := by
  have hnew : (e.row.entry e.seq).seq.toInt64 ∉ d.entry := hfree
  have hentry := (storePulled_free hnew C self e.row.stamp).entry
  have hmark : ∀ r : Rows, (r.markDerivable s).member = r.member ∧
      (r.markDerivable s).channel = r.channel := by
    intro r
    unfold markDerivable
    split_ifs <;> exact ⟨rfl, rfl⟩
  have hreplica : ∀ r : Rows, (r.deriveReplica s).member = r.member ∧
      (r.deriveReplica s).channel = r.channel := by
    intro r
    unfold deriveReplica
    split_ifs <;> exact ⟨rfl, rfl⟩
  have hsystem : ∀ r : Rows, ∀ seq posted,
      (r.deriveSystem C self s seq posted).member = (r.deriveMembership C s posted).member ∧
        (r.deriveSystem C self s seq posted).channel =
          (r.deriveMembership C s posted).channel := by
    intro r seq posted
    simp only [deriveSystem, deriveRehome, if_neg hstays]
    exact ⟨(hreplica _).1.trans (hmark _).1, (hreplica _).2.trans (hmark _).2⟩
  refine ⟨?_, ?_, hentry⟩
  · unfold pull storePulled
    rw [if_neg hnew]
    simp only [hrecord, advanceHead]
    rw [(hsystem _ _ _).1, derive_entries]
    rfl
  · unfold pull storePulled epoch
    rw [if_neg hnew]
    simp only [hrecord, advanceHead, Option.map_map]
    rw [(hsystem _ _ _).2, derive_entries]
    rfl

end Rows
end Sqex.Exchange
