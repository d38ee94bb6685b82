import Sqex.Exchange.Mailbox
import Sqex.Lib.Runs

/-! Mail collected from a former home, over answers and acknowledgements that may be lost or
repeated and a collecting exchange that may stop between two statements. -/
namespace Sqex.Mail
open Runs

/-- A round of collecting: what of the answer is still to be delivered, what was taken, and
whether all of it was so far. -/
structure Round where
  left : List MailItem
  took : List Nat
  whole : Bool

/-- A delivery went through or the round ends at it. -/
def Round.next (r : Round) (item : MailItem) : Except SendError Bool → Round
  | .ok _ => { r with took := r.took ++ [item.id] }
  | .error _ => { r with left := [], whole := false }

/-- What is noted of a run, beside the stores. -/
inductive Event where
  /-- The new home's clock, as an operation there read it. -/
  | clock (now : Nat)
  /-- An item of the former home went in at the new one, as this row. -/
  | inserted (remote row : Nat)
  | deleted (recipient : PubKey) (row : Nat)
  /-- An acknowledgement took this out of what waits at the former home. -/
  | released (item : MailItem)
  deriving DecidableEq

structure System where
  former : Mailbox
  home : Mailbox
  /-- Every answer the former home gave, to arrive any number of times. -/
  answers : List (List MailItem)
  round : Option Round
  acks : List (List Nat)
  marked : Bool
  history : List Event

inductive Act where
  | former (now : Nat) (op : Op)
  | home (now : Nat) (op : Op) (fault : Option Fault)
  | answers (now : Nat)
  /-- An answer arrives at the new home. -/
  | begins (k : Nat)
  | delivers (now : Nat) (fault : Option Fault)
  | ends
  | crashes
  /-- An acknowledgement arrives at the former home. -/
  | took (now : Nat) (k : Nat)

def Op.events (b : Mailbox) : Op → List Event
  | .delete recipient id =>
    if (b.waitingRows recipient).any fun r => r.id = id then [.deleted recipient id] else []
  | _ => []

def stopped (d : Faulty Mailbox) : Bool := d.fault = some ⟨0, true⟩

def expired (now : Nat) (b : Mailbox) : Mailbox := ((expire now).after (.clean b)).store

def release (account : PubKey) (now : Nat) (ids : List Nat) (b : Mailbox) : Mailbox :=
  ids.foldl (fun b id => (((Op.delete account id).run now).after (.clean b)).store) b

def taken (account : PubKey) (now : Nat) (b b' : Mailbox) : List MailItem :=
  (b.waiting account).filter fun i => now - mailTtl ≤ i.received ∧ i ∉ b'.waiting account

namespace System

def new : System := ⟨.new, .new, [], none, [], false, []⟩

section
variable (account origin : PubKey) (s : System)

def deliverNext (now : Nat) (fault : Option Fault) (r : Round) (item : MailItem) : System :=
  let result := (deliver now account origin item).result ⟨s.home, fault⟩
  let d := (deliver now account origin item).after ⟨s.home, fault⟩
  { s with
    home := d.store
    round := if stopped d then none else some (r.next item result)
    history := s.history ++ .clock now ::
      match result with
      | .ok true => [.inserted item.id d.store.lastId]
      | _ => [] }

def step : Act → System
  | .former now op => { s with former := ((op.run now).after (.clean s.former)).store }
  | .home now op fault =>
    let d := (op.run now).after ⟨s.home, fault⟩
    { s with
      home := d.store
      round := if stopped d then none else s.round
      history := s.history ++ .clock now :: op.events s.home }
  | .answers now =>
    { s with
      former := expired now s.former
      answers := s.answers ++ [(expired now s.former).waiting account] }
  | .begins k =>
    match s.round, s.answers[k]? with
    | none, some items => { s with round := some ⟨items, [], true⟩ }
    | _, _ => s
  | .delivers now fault =>
    match s.round with
    | some ⟨item :: left, took, whole⟩ =>
      s.deliverNext account origin now fault ⟨left, took, whole⟩ item
    | _ => s
  | .ends =>
    match s.round with
    | some ⟨[], took, whole⟩ =>
      { s with
        round := none
        acks := if took = [] then s.acks else s.acks ++ [took]
        marked := s.marked || whole }
    | _ => s
  | .crashes => { s with round := none }
  | .took now k =>
    match s.acks[k]? with
    | some ids =>
      let b := release account now ids s.former
      { s with
        former := b
        history := s.history ++ (taken account now s.former b).map .released }
    | none => s

/-- What the former home's items went in as, and the times the new home's clock showed. -/
def inserts (history : List Event) : List Nat :=
  history.filterMap fun e => match e with
    | .inserted remote _ => some remote
    | _ => none

def clocks (history : List Event) : List Nat :=
  history.filterMap fun e => match e with
    | .clock now => some now
    | _ => none

def Accounted (row : Nat) (item : MailItem) : Prop :=
  (∃ r ∈ s.home.mail, r.id = row ∧ r.sender = item.sender ∧ r.recipient = account ∧
      r.received = item.received ∧ r.payload = some item.sealed) ∨
    .deleted account row ∈ s.history ∨
    ∃ now ∈ clocks s.history, item.received < now - mailTtl

/-- What an acknowledgement took was stored at the new home first. -/
def Kept : Prop :=
  ∀ item, .released item ∈ s.history →
    ∃ row, .inserted item.id row ∈ s.history ∧ Accounted account s row item

/-- Nothing of the former home's went in twice, and nothing was lost to an
acknowledgement. -/
def Collected : Prop :=
  (inserts s.history).Nodup ∧ Kept account s

/-- The item delivered is in time by every time the new home's clock has shown, and its
record goes in where it does. -/
def Sound : Act → Prop
  | .delivers now fault => ∀ r ∈ s.round, ∀ item ∈ r.left.head?,
      now ≤ item.received + mailTtl ∧ (∀ t ∈ clocks s.history, t ≤ item.received + mailTtl) ∧
        ∀ f ∈ fault, f.after = 3 → s.home.holds origin item.id account = true
  | _ => True

end

end System

namespace Mailbox
variable {now : Nat} {gone : Row → Prop} {b₀ b b' : Mailbox} {mailed : Nat → MailItem}
variable {account : PubKey} {item : MailItem}

theorem After.trans (h : After now gone b₀ b) (h' : After now gone b b') :
    After now gone b₀ b' where
  lastId := Nat.le_trans h.lastId h'.lastId
  mailed := by
    intro m hm
    obtain ⟨m₁, hfits₁, hsame₁⟩ := h.mailed m hm
    obtain ⟨m₂, hfits₂, hsame₂⟩ := h'.mailed m₁ hfits₁
    have hlast := h.lastId
    exact ⟨m₂, hfits₂, fun id hid => (hsame₂ id (by omega)).trans (hsame₁ id hid)⟩
  rows := by
    intro r hr hp
    rcases h.rows r hr hp with hin | hout
    · exact h'.rows r hin hp
    · exact Or.inr hout
  records := by
    intro r hr
    rcases h.records r hr with hin | hout
    · exact h'.records r hin
    · exact Or.inr hout
  noted := fun r hr => h.noted r (h'.noted r hr)

theorem After.imp {gone' : Row → Prop} (h : After now gone b₀ b) (himp : ∀ r, gone r → gone' r) :
    After now gone' b₀ b :=
  { h with
    rows := by
      intro r hr hp
      rcases h.rows r hr hp with hin | hgone | hdue
      · exact Or.inl hin
      · exact Or.inr (Or.inl (himp r hgone))
      · exact Or.inr (Or.inr hdue) }

theorem mem_waiting : item ∈ b.waiting account ↔
    ∃ r ∈ b.mail, r.recipient = account ∧
      ∃ p, r.payload = some p ∧ ⟨r.id, r.sender, r.received, p⟩ = item := by
  simp only [waiting, List.mem_filterMap]
  refine exists_congr fun r => and_congr_right fun _ => ?_
  split <;> simp_all

theorem Fits.waiting (h : b.Fits mailed) (hitem : item ∈ b.waiting account) :
    item.id ≤ b.lastId ∧ mailed item.id = item := by
  obtain ⟨r, hr, -, p, hp, rfl⟩ := mem_waiting.mp hitem
  exact ⟨(h r hr).1, (h r hr).2 p hp⟩

end Mailbox

theorem after_expired (now : Nat) (gone : Row → Prop) (b : Mailbox) :
    b.After now gone (expired now b) :=
  keeps_expire (.clean b) (Mailbox.After.refl now gone b)

theorem after_release (account : PubKey) (now : Nat) (ids : List Nat) (b : Mailbox) :
    b.After now (fun r => r.id ∈ ids) (release account now ids b) := by
  induction ids generalizing b with
  | nil => exact .refl now _ b
  | cons id ids ih =>
    have hone := (Op.delete account id).after now (.clean b)
    have hrest := ih (((Op.delete account id).run now).after (.clean b)).store
    refine (hone.imp ?_).trans (hrest.imp ?_)
    · intro r hr
      simp [hr.2]
    · intro r hr
      simp [hr]

theorem mem_taken {account : PubKey} {now : Nat} {ids : List Nat} {b : Mailbox} {item : MailItem}
    (h : item ∈ taken account now b (release account now ids b)) :
    item ∈ b.waiting account ∧ item.id ∈ ids := by
  obtain ⟨hwaits, hin⟩ := List.mem_filter.mp h
  have hdue : now - mailTtl ≤ item.received ∧
      item ∉ (release account now ids b).waiting account := by simpa using hin
  refine ⟨hwaits, ?_⟩
  obtain ⟨r, hr, hrecipient, p, hp, hitem⟩ := Mailbox.mem_waiting.mp hwaits
  rcases (after_release account now ids b).rows r hr (by simp [hp]) with hstays | hgone | hpast
  · exact (hdue.2 (Mailbox.mem_waiting.mpr ⟨r, hstays, hrecipient, p, hp, hitem⟩)).elim
  · rwa [← hitem]
  · have hreceived : item.received = r.received := by rw [← hitem]
    omega

namespace System
variable {account origin : PubKey} {mailed : Nat → MailItem} {s : System}
variable {item : MailItem} {row now : Nat} {gone : Row → Prop} {b : Mailbox}

@[simp] theorem inserts_append (h h' : List Event) :
    inserts (h ++ h') = inserts h ++ inserts h' := List.filterMap_append

@[simp] theorem clocks_append (h h' : List Event) :
    clocks (h ++ h') = clocks h ++ clocks h' := List.filterMap_append

theorem mem_inserts {h : List Event} {id : Nat} :
    id ∈ inserts h ↔ ∃ row, .inserted id row ∈ h := by
  simp only [inserts, List.mem_filterMap]
  constructor
  · intro ⟨e, he, hid⟩
    cases e with
    | inserted remote row => exact ⟨row, by cases hid; exact he⟩
    | clock | deleted | released => cases hid
  · exact fun ⟨row, hrow⟩ => ⟨_, hrow, rfl⟩

def Known (mailed : Nat → MailItem) (s : System) (item : MailItem) : Prop :=
  item.id ≤ s.former.lastId ∧ mailed item.id = item

/-- What holds of a run whatever goes wrong in it: what is on its way is the former home's, what
a round took was stored, and what was stored is accounted for. -/
structure Books (account origin : PubKey) (mailed : Nat → MailItem) (s : System) : Prop where
  fits : s.former.Fits mailed
  answered : ∀ items ∈ s.answers, ∀ item ∈ items, Known mailed s item
  left : ∀ r ∈ s.round, ∀ item ∈ r.left, Known mailed s item
  took : ∀ r ∈ s.round, ∀ id ∈ r.took, id ∈ inserts s.history
  acked : ∀ ids ∈ s.acks, ∀ id ∈ ids, id ∈ inserts s.history
  noted : ∀ r ∈ s.home.collectedFrom, r.origin = origin → r.recipient = account →
    r.remoteId ∈ inserts s.history ∧ r.received = (mailed r.remoteId).received
  kept : ∀ id row, .inserted id row ∈ s.history →
    id ≤ s.former.lastId ∧ Accounted account s row (mailed id)
  released : ∀ item, .released item ∈ s.history →
    item.id ∈ inserts s.history ∧ mailed item.id = item

/-- What holds while each item is delivered in time and with its record: nothing went in
twice, and what went in is on record or past its TTL. -/
structure Once (account origin : PubKey) (mailed : Nat → MailItem) (s : System) : Prop where
  nodup : (inserts s.history).Nodup
  recorded : ∀ id ∈ inserts s.history,
    (∃ r ∈ s.home.collectedFrom, r.origin = origin ∧ r.remoteId = id ∧ r.recipient = account ∧
      r.received = (mailed id).received) ∨
    ∃ t ∈ clocks s.history, (mailed id).received < t - mailTtl

/-- What is accounted for stays so while rows go only past their TTL or by a deletion of the
recipient's. -/
theorem Accounted.moves {s s' : System} (h : Accounted account s row item)
    (hafter : s.home.After now gone s'.home) (hmore : s.history ⊆ s'.history)
    (hclock : .clock now ∈ s'.history)
    (hgone : ∀ r ∈ s.home.mail, r.payload.isSome = true → gone r → r.recipient = account →
      .deleted account r.id ∈ s'.history) : Accounted account s' row item := by
  rcases h with ⟨r, hr, hid, hsender, hrecipient, hreceived, hpayload⟩ | hdeleted | ⟨t, ht, hpast⟩
  · rcases hafter.rows r hr (by simp [hpayload]) with hstays | hout | hdue
    · exact Or.inl ⟨r, hstays, hid, hsender, hrecipient, hreceived, hpayload⟩
    · have hevent := hgone r hr (by simp [hpayload]) hout hrecipient
      rw [hid] at hevent
      exact Or.inr (Or.inl hevent)
    · refine Or.inr (Or.inr ⟨now, ?_, by omega⟩)
      exact List.mem_filterMap.mpr ⟨_, hclock, rfl⟩
  · exact Or.inr (Or.inl (hmore hdeleted))
  · obtain ⟨e, he, het⟩ := List.mem_filterMap.mp ht
    exact Or.inr (Or.inr ⟨t, List.mem_filterMap.mpr ⟨e, hmore he, het⟩, hpast⟩)

theorem Accounted.of_eq {s s' : System} (h : Accounted account s row item)
    (hhome : s'.home = s.home) (hmore : s.history ⊆ s'.history) :
    Accounted account s' row item := by
  rcases h with hheld | hdeleted | ⟨t, ht, hpast⟩
  · exact Or.inl (by rwa [hhome])
  · exact Or.inr (Or.inl (hmore hdeleted))
  · obtain ⟨e, he, het⟩ := List.mem_filterMap.mp ht
    exact Or.inr (Or.inr ⟨t, List.mem_filterMap.mpr ⟨e, hmore he, het⟩, hpast⟩)

/-! What a step is made of, one part after another. -/

theorem inserts_released (h : List Event) (items : List MailItem) :
    inserts (h ++ items.map .released) = inserts h := by
  simp [inserts]

/-- The former home moves on, and acknowledgements release what was acknowledged. -/
theorem Books.former (h : Books account origin mailed s) (hafter : s.former.After now gone b)
    {items : List MailItem} (hitems : ∀ i ∈ items, Known mailed s i ∧ i.id ∈ inserts s.history) :
    ∃ mailed', (∀ id, id ≤ s.former.lastId → mailed' id = mailed id) ∧
      Books account origin mailed'
        { s with former := b, history := s.history ++ items.map .released } := by
  obtain ⟨mailed', hfits, hsame⟩ := hafter.mailed mailed h.fits
  have hlast : s.former.lastId ≤ b.lastId := hafter.lastId
  have hknown : ∀ i, Known mailed s i →
      Known mailed' { s with former := b, history := s.history ++ items.map .released } i := by
    intro i hi
    exact ⟨Nat.le_trans hi.1 hlast, (hsame i.id hi.1).trans hi.2⟩
  have hinserts := inserts_released s.history items
  have hbelow : ∀ id ∈ inserts s.history, id ≤ s.former.lastId := by
    intro id hid
    obtain ⟨row, hrow⟩ := mem_inserts.mp hid
    exact (h.kept id row hrow).1
  refine ⟨mailed', hsame, ?_⟩
  constructor
  · exact hfits
  · exact fun xs hxs i hi => hknown i (h.answered xs hxs i hi)
  · exact fun r hr i hi => hknown i (h.left r hr i hi)
  · exact fun r hr id hid => by rw [hinserts]; exact h.took r hr id hid
  · exact fun ids hids id hid => by rw [hinserts]; exact h.acked ids hids id hid
  · intro r hr horigin hrecipient
    obtain ⟨hin, hreceived⟩ := h.noted r hr horigin hrecipient
    rw [hinserts, hsame _ (hbelow _ hin)]
    exact ⟨hin, hreceived⟩
  · intro id row hrow
    have hold : .inserted id row ∈ s.history := by simpa using hrow
    obtain ⟨hle, haccounted⟩ := h.kept id row hold
    rw [hsame id hle]
    exact ⟨Nat.le_trans hle hlast, haccounted.of_eq rfl (List.subset_append_left _ _)⟩
  · intro item hitem
    rw [hinserts]
    have hboth : item.id ∈ inserts s.history ∧ mailed item.id = item := by
      rcases List.mem_append.mp hitem with hold | hnew
      · exact h.released item hold
      · obtain ⟨i, hi, heq⟩ := List.mem_map.mp hnew
        rw [← Event.released.inj heq]
        exact ⟨(hitems i hi).2, (hitems i hi).1.2⟩
    rw [hsame _ (hbelow _ hboth.1)]
    exact hboth

theorem Once.former (h : Once account origin mailed s) (hbooks : Books account origin mailed s)
    {mailed' : Nat → MailItem} (hsame : ∀ id, id ≤ s.former.lastId → mailed' id = mailed id)
    (items : List MailItem) :
    Once account origin mailed'
      { s with former := b, history := s.history ++ items.map .released } := by
  have hinserts := inserts_released s.history items
  constructor
  · rw [hinserts]
    exact h.nodup
  · intro id hid
    rw [hinserts] at hid
    obtain ⟨row, hrow⟩ := mem_inserts.mp hid
    rw [hsame id (hbooks.kept id row hrow).1]
    rcases h.recorded id hid with hrecord | ⟨t, ht, hpast⟩
    · exact Or.inl hrecord
    · exact Or.inr ⟨t, by simp [ht], hpast⟩

theorem inserts_deletions (h : List Event) (now : Nat) {evs : List Event}
    (hevs : ∀ e ∈ evs, ∃ recipient row, e = .deleted recipient row) :
    inserts (h ++ .clock now :: evs) = inserts h := by
  have hnone : inserts (.clock now :: evs) = [] := by
    refine List.filterMap_eq_nil_iff.mpr fun e he => ?_
    rcases List.mem_cons.mp he with rfl | hmem
    · rfl
    · obtain ⟨recipient, row, rfl⟩ := hevs e hmem
      rfl
  rw [inserts_append, hnone, List.append_nil]

/-- The new home moves on by an operation of its own, or by the expiry a delivery begins with. -/
theorem Books.home (h : Books account origin mailed s) (hafter : s.home.After now gone b)
    {evs : List Event} (hevs : ∀ e ∈ evs, ∃ recipient row, e = .deleted recipient row)
    (hgone : ∀ r ∈ s.home.mail, r.payload.isSome = true → gone r → r.recipient = account →
      .deleted account r.id ∈ evs) :
    Books account origin mailed
      { s with home := b, history := s.history ++ .clock now :: evs } := by
  have hinserts := inserts_deletions s.history now hevs
  have hold : ∀ e ∈ s.history ++ .clock now :: evs,
      (∀ recipient row, e ≠ .deleted recipient row) → e ≠ .clock now → e ∈ s.history := by
    intro e he hne hclock
    rcases List.mem_append.mp he with hin | hnew
    · exact hin
    · rcases List.mem_cons.mp hnew with heq | hin
      · exact (hclock heq).elim
      · obtain ⟨recipient, row, heq⟩ := hevs e hin
        exact (hne recipient row heq).elim
  constructor
  · exact h.fits
  · exact h.answered
  · exact h.left
  · exact fun r hr id hid => by rw [hinserts]; exact h.took r hr id hid
  · exact fun ids hids id hid => by rw [hinserts]; exact h.acked ids hids id hid
  · intro r hr horigin hrecipient
    rw [hinserts]
    exact h.noted r (hafter.noted r hr) horigin hrecipient
  · intro id row hrow
    obtain ⟨hle, haccounted⟩ := h.kept id row (hold _ hrow (by simp) (by simp))
    refine ⟨hle, haccounted.moves hafter (List.subset_append_left _ _) (by simp) ?_⟩
    intro r hr hp hg hrecipient
    have hevent := hgone r hr hp hg hrecipient
    simp [hevent]
  · intro item hitem
    rw [hinserts]
    exact h.released item (hold _ hitem (by simp) (by simp))

theorem Once.home (h : Once account origin mailed s) (hafter : s.home.After now gone b)
    {evs : List Event} (hevs : ∀ e ∈ evs, ∃ recipient row, e = .deleted recipient row) :
    Once account origin mailed
      { s with home := b, history := s.history ++ .clock now :: evs } := by
  have hinserts := inserts_deletions s.history now hevs
  constructor
  · rw [hinserts]
    exact h.nodup
  · intro id hid
    rw [hinserts] at hid
    rcases h.recorded id hid with ⟨r, hr, horigin, hremote, hrecipient, hreceived⟩ | ⟨t, ht, hpast⟩
    · rcases hafter.records r hr with hstays | hdue
      · exact Or.inl ⟨r, hstays, horigin, hremote, hrecipient, hreceived⟩
      · exact Or.inr ⟨now, by simp [clocks], by omega⟩
    · exact Or.inr ⟨t, by simp [ht], hpast⟩

theorem Books.inserts (h : Books account origin mailed s) (hknown : Known mailed s item) :
    Books account origin mailed
      { s with
        home := s.home.push item.sender account item.received item.sealed
        history := s.history ++ [.inserted item.id (s.home.lastId + 1)] } := by
  have hmore : s.history ⊆ s.history ++ [.inserted item.id (s.home.lastId + 1)] :=
    List.subset_append_left _ _
  have hinserts : ∀ id, id ∈ System.inserts s.history →
      id ∈ System.inserts (s.history ++ [.inserted item.id (s.home.lastId + 1)]) := by
    intro id hid
    simp [hid]
  constructor
  · exact h.fits
  · exact h.answered
  · exact h.left
  · exact fun r hr id hid => hinserts id (h.took r hr id hid)
  · exact fun ids hids id hid => hinserts id (h.acked ids hids id hid)
  · intro r hr horigin hrecipient
    obtain ⟨hin, hreceived⟩ := h.noted r hr horigin hrecipient
    exact ⟨hinserts _ hin, hreceived⟩
  · intro id row hrow
    rcases List.mem_append.mp hrow with hold | hnew
    · obtain ⟨hle, haccounted⟩ := h.kept id row hold
      refine ⟨hle, ?_⟩
      rcases haccounted with ⟨r, hr, hheld⟩ | hdeleted | ⟨t, ht, hpast⟩
      · exact Or.inl ⟨r, List.mem_append_left _ hr, hheld⟩
      · exact Or.inr (Or.inl (hmore hdeleted))
      · exact Or.inr (Or.inr ⟨t, by simp [ht], hpast⟩)
    · obtain ⟨hid, hrow⟩ : id = item.id ∧ row = s.home.lastId + 1 := by simpa using hnew
      rw [hid, hrow, hknown.2]
      refine ⟨hknown.1, Or.inl ⟨_, List.mem_append_right _ (List.mem_singleton_self _), ?_⟩⟩
      exact ⟨rfl, rfl, rfl, rfl, rfl⟩
  · intro item hitem
    obtain ⟨hin, hitem⟩ := h.released item (by simpa using hitem)
    exact ⟨hinserts _ hin, hitem⟩

theorem mem_record {r r' : Record} (h : r' ∈ (b.record r).collectedFrom) :
    r' ∈ b.collectedFrom ∨ r' = r := by
  unfold Mailbox.record at h
  split at h
  · exact Or.inl h
  · simpa using h

theorem record_fresh {r : Record} (h : b.holds r.origin r.remoteId r.recipient = false) :
    (b.record r).collectedFrom = b.collectedFrom ++ [r] :=
  congrArg Mailbox.collectedFrom (if_neg fun hholds => Bool.false_ne_true (h.symm.trans hholds))

@[simp] theorem record_mail (r : Record) : (b.record r).mail = b.mail := by
  unfold Mailbox.record
  split <;> rfl

@[simp] theorem record_lastId (r : Record) : (b.record r).lastId = b.lastId := by
  unfold Mailbox.record
  split <;> rfl

theorem Books.records (h : Books account origin mailed s) (hknown : Known mailed s item)
    (hin : item.id ∈ System.inserts s.history) :
    Books account origin mailed
      { s with home := s.home.record ⟨origin, item.id, account, item.received⟩ } := by
  refine { h with noted := ?_, kept := ?_ }
  · intro r hr horigin hrecipient
    rcases mem_record hr with hold | rfl
    · exact h.noted r hold horigin hrecipient
    · exact ⟨hin, by rw [hknown.2]⟩
  · intro id row hrow
    obtain ⟨hle, haccounted⟩ := h.kept id row hrow
    refine ⟨hle, ?_⟩
    unfold Accounted
    rw [record_mail]
    exact haccounted

theorem Once.inserts (h : Once account origin mailed s) (hknown : Known mailed s item)
    (hnew : item.id ∉ System.inserts s.history)
    (hfresh : s.home.holds origin item.id account = false) :
    Once account origin mailed
      { s with
        home := (s.home.push item.sender account item.received item.sealed).record
          ⟨origin, item.id, account, item.received⟩
        history := s.history ++ [.inserted item.id (s.home.lastId + 1)] } := by
  have hrecords : ((s.home.push item.sender account item.received item.sealed).record
      ⟨origin, item.id, account, item.received⟩).collectedFrom =
      s.home.collectedFrom ++ [⟨origin, item.id, account, item.received⟩] :=
    record_fresh hfresh
  have hone : System.inserts [.inserted item.id (s.home.lastId + 1)] = [item.id] := rfl
  constructor
  · rw [inserts_append, hone]
    exact List.nodup_append.mpr ⟨h.nodup, by simp, by simp; exact fun a ha heq => hnew (heq ▸ ha)⟩
  · intro id hid
    rw [inserts_append, hone] at hid
    rcases mem_concat.mp hid with hold | rfl
    · rcases h.recorded id hold with ⟨r, hr, hrecord⟩ | ⟨t, ht, hpast⟩
      · exact Or.inl ⟨r, by rw [hrecords]; exact List.mem_append_left _ hr, hrecord⟩
      · exact Or.inr ⟨t, by simp [ht], hpast⟩
    · refine Or.inl ⟨⟨origin, item.id, account, item.received⟩, ?_, rfl, rfl, rfl, ?_⟩
      · rw [hrecords]
        exact List.mem_append_right _ (List.mem_singleton_self _)
      · rw [hknown.2]

theorem Books.round (h : Books account origin mailed s) {round : Option Round}
    (hleft : ∀ r ∈ round, ∀ item ∈ r.left, Known mailed s item)
    (htook : ∀ r ∈ round, ∀ id ∈ r.took, id ∈ System.inserts s.history) :
    Books account origin mailed { s with round := round } :=
  { h with left := hleft, took := htook }

theorem holds_iff : b.holds origin item.id account = true ↔
    ∃ r ∈ b.collectedFrom, r.origin = origin ∧ r.remoteId = item.id ∧ r.recipient = account := by
  simp [Mailbox.holds]

/-- What a delivery leaves: it stores nothing, and takes the item only where it was held; or
it stores the item and its record; or the item alone, where the fourth statement fails. -/
inductive Delivered (account origin : PubKey) (s : System) (now : Nat) (fault : Option Fault)
    (r : Round) (item : MailItem) : System → Prop where
  | stays {e : Mailbox} {round : Option Round} (swept : s.home.After now (fun _ => False) e)
      (left : ∀ r' ∈ round, r'.left ⊆ r.left)
      (took : ∀ r' ∈ round, r'.took = r.took ∨
        r'.took = r.took ++ [item.id] ∧ e.holds origin item.id account = true) :
      Delivered account origin s now fault r item
        { s with home := e, round := round, history := s.history ++ [.clock now] }
  | stored {e : Mailbox} {round : Option Round} (swept : s.home.After now (fun _ => False) e)
      (fresh : e.holds origin item.id account = false)
      (next : ∀ r' ∈ round, r'.left = r.left ∧ r'.took = r.took ++ [item.id]) :
      Delivered account origin s now fault r item
        { s with
          home := (e.push item.sender account item.received item.sealed).record
            ⟨origin, item.id, account, item.received⟩
          round := round
          history := s.history ++ [.clock now] ++ [.inserted item.id (e.lastId + 1)] }
  | halfway {e : Mailbox} {round : Option Round} (swept : s.home.After now (fun _ => False) e)
      (fresh : e.holds origin item.id account = false)
      (next : ∀ r' ∈ round, r'.left = r.left ∧ r'.took = r.took ++ [item.id])
      (cut : ∃ f, fault = some f ∧ f.after = 3) :
      Delivered account origin s now fault r item
        { s with
          home := e.push item.sender account item.received item.sealed
          round := round
          history := s.history ++ [.clock now] ++ [.inserted item.id (e.lastId + 1)] }

theorem deliverNext_delivered (account origin : PubKey) (s : System) (now : Nat)
    (fault : Option Fault) (r : Round) (item : MailItem) :
    Delivered account origin s now fault r item
      (s.deliverNext account origin now fault r item) := by
  have hd := deliver_delivers now account origin item ⟨s.home, fault⟩
  unfold System.deliverNext
  generalize (deliver now account origin item).result ⟨s.home, fault⟩ = result at hd ⊢
  generalize (deliver now account origin item).after ⟨s.home, fault⟩ = d at hd ⊢
  obtain ⟨b, ahead⟩ := d
  dsimp only at hd ⊢
  have hnext : ∀ r', r' ∈ (if stopped ⟨b, ahead⟩ then none else some (r.next item result)) →
      r' = r.next item result := by
    intro r' hr'
    split at hr' <;> cases hr'
    rfl
  have hround : result = .ok true →
      ∀ r' ∈ (if stopped ⟨b, ahead⟩ then none else some (r.next item result)),
        r'.left = r.left ∧ r'.took = r.took ++ [item.id] := by
    intro hok r' hr'
    rw [hnext r' hr', hok]
    exact ⟨rfl, rfl⟩
  cases hd with
  | stays swept held =>
    cases result with
    | error e =>
      refine .stays swept ?_ ?_ <;> intro r' hr' <;> rw [hnext r' hr']
      · exact List.nil_subset _
      · exact Or.inl rfl
    | ok x =>
      obtain ⟨rfl, hheld⟩ := held x rfl
      refine .stays swept ?_ ?_ <;> intro r' hr' <;> rw [hnext r' hr']
      · exact List.Subset.refl _
      · exact Or.inr ⟨rfl, hheld⟩
  | stored swept fresh =>
    have hstored : Delivered account origin s now fault r item _ := .stored swept fresh (hround rfl)
    rw [List.append_assoc] at hstored
    rw [record_lastId]
    exact hstored
  | halfway swept fresh cut =>
    have hhalf : Delivered account origin s now fault r item _ :=
      .halfway swept fresh (hround rfl) cut
    rw [List.append_assoc] at hhalf
    exact hhalf

theorem Books.delivered {s' : System} {left : List MailItem} {took : List Nat} {whole : Bool}
    {fault : Option Fault} (h : Books account origin mailed s)
    (hround : s.round = some ⟨item :: left, took, whole⟩)
    (hdelivered : Delivered account origin s now fault ⟨left, took, whole⟩ item s') :
    Books account origin mailed s' := by
  have hknown : Known mailed s item := h.left _ hround item (by simp)
  have hleft : ∀ i ∈ left, Known mailed s i := fun i hi => h.left _ hround i (by simp [hi])
  have htook : ∀ id ∈ took, id ∈ System.inserts s.history := h.took _ hround
  have hnew : ∀ row, item.id ∈
      System.inserts (s.history ++ [.clock now] ++ [.inserted item.id row]) := by
    simp [System.inserts]
  have hall : ∀ row, ∀ id ∈ took ++ [item.id],
      id ∈ System.inserts (s.history ++ [.clock now] ++ [.inserted item.id row]) := by
    intro row id hid
    rcases mem_concat.mp hid with hold | rfl
    · simp [htook id hold]
    · exact hnew row
  cases hdelivered with
  | stays swept hl ht =>
    have hswept := @Books.home _ _ _ _ _ _ _ h swept [] (by simp) (by simp)
    refine hswept.round (fun r hr i hi => hleft i (hl r hr hi)) fun r hr id hid => ?_
    rcases ht r hr with heq | ⟨heq, hheld⟩
    · rw [heq] at hid
      simp [htook id hid]
    · have hin : item.id ∈ System.inserts s.history := by
        obtain ⟨r', hr', horigin, hremote, hrecipient⟩ := holds_iff.mp hheld
        rw [← hremote]
        exact (h.noted r' (swept.noted r' hr') horigin hrecipient).1
      have hold : id ∈ took ∨ id = item.id := by simpa [heq] using hid
      rcases hold with hold | rfl
      · simp [htook id hold]
      · simp [hin]
  | stored swept fresh next =>
    have hswept := @Books.home _ _ _ _ _ _ _ h swept [] (by simp) (by simp)
    have hstored := (hswept.inserts hknown).records hknown (hnew _)
    refine hstored.round (fun r hr i hi => hleft i (by rwa [(next r hr).1] at hi)) ?_
    exact fun r hr id hid => hall _ id (by rwa [(next r hr).2] at hid)
  | halfway swept fresh next cut =>
    have hswept := @Books.home _ _ _ _ _ _ _ h swept [] (by simp) (by simp)
    have hstored := hswept.inserts hknown
    refine hstored.round (fun r hr i hi => hleft i (by rwa [(next r hr).1] at hi)) ?_
    exact fun r hr id hid => hall _ id (by rwa [(next r hr).2] at hid)

theorem Once.delivered {s' : System} {left : List MailItem} {took : List Nat} {whole : Bool}
    {fault : Option Fault} (h : Once account origin mailed s)
    (hbooks : Books account origin mailed s)
    (hround : s.round = some ⟨item :: left, took, whole⟩)
    (hsound : Sound account origin s (.delivers now fault))
    (hdelivered : Delivered account origin s now fault ⟨left, took, whole⟩ item s') :
    Once account origin mailed s' := by
  have hknown : Known mailed s item := hbooks.left _ hround item (by simp)
  obtain ⟨hnow, hclocks, hfault⟩ := hsound _ hround item rfl
  cases hdelivered with
  | stays swept hl ht =>
    have hswept := @Once.home _ _ _ _ _ _ _ h swept [] (by simp)
    exact ⟨hswept.nodup, hswept.recorded⟩
  | @stored e round swept fresh next =>
    have hswept := @Once.home _ _ _ _ _ _ _ h swept [] (by simp)
    have hnew : item.id ∉ System.inserts s.history := by
      intro hin
      rcases h.recorded item.id hin with
        ⟨r, hr, horigin, hremote, hrecipient, hreceived⟩ | ⟨t, ht, hpast⟩
      · rw [hknown.2] at hreceived
        rcases swept.records r hr with hstays | hdue
        · have hheld : e.holds origin item.id account = true :=
            holds_iff.mpr ⟨r, hstays, horigin, hremote, hrecipient⟩
          simp [hheld] at fresh
        · omega
      · have hin := hclocks t ht
        rw [hknown.2] at hpast
        omega
    have hstored := hswept.inserts hknown (by simpa [System.inserts] using hnew) fresh
    exact ⟨hstored.nodup, hstored.recorded⟩
  | @halfway e round swept fresh next cut =>
    exfalso
    obtain ⟨f, hf, hafter⟩ := cut
    obtain ⟨r, hr, horigin, hremote, hrecipient⟩ := holds_iff.mp (hfault f hf hafter)
    have hreceived := (hbooks.noted r hr horigin hrecipient).2
    rw [hremote, hknown.2] at hreceived
    rcases swept.records r hr with hstays | hdue
    · have hheld : e.holds origin item.id account = true :=
        holds_iff.mpr ⟨r, hstays, horigin, hremote, hrecipient⟩
      simp [hheld] at fresh
    · omega

theorem events_deleted (b : Mailbox) (op : Op) :
    ∀ e ∈ op.events b, ∃ recipient row, e = .deleted recipient row := by
  intro e he
  cases op with
  | send | look => cases he
  | delete recipient id =>
    simp only [Op.events] at he
    split at he
    · exact ⟨recipient, id, List.mem_singleton.mp he⟩
    · cases he

theorem gone_deleted {op : Op} {r : Row} (hr : r ∈ b.mail) (hp : r.payload.isSome = true)
    (hgone : op.gone r) : .deleted r.recipient r.id ∈ op.events b := by
  cases op with
  | send | look => cases hgone
  | delete recipient id =>
    obtain ⟨rfl, rfl⟩ := hgone
    have hwaits : r ∈ b.waitingRows r.recipient := by simp [Mailbox.waitingRows, hr, hp]
    have hany : ((b.waitingRows r.recipient).any fun r' => r'.id = r.id) = true :=
      List.any_eq_true.mpr ⟨r, hwaits, by simp⟩
    rw [Op.events, if_pos hany]
    exact List.mem_singleton_self _

theorem Books.alone (h : Books account origin mailed s) (hafter : s.former.After now gone b) :
    ∃ mailed', Books account origin mailed' { s with former := b } ∧
      (Once account origin mailed s → Once account origin mailed' { s with former := b }) := by
  obtain ⟨mailed', hsame, hbooks⟩ := @Books.former _ _ _ _ _ _ _ h hafter [] (by simp)
  have honce := fun ho : Once account origin mailed s => ho.former (b := b) h hsame []
  simp only [List.map_nil, List.append_nil] at hbooks honce
  exact ⟨mailed', hbooks, honce⟩

theorem Books.step (h : Books account origin mailed s) (a : Act) :
    ∃ mailed', Books account origin mailed' (step account origin s a) ∧
      (Sound account origin s a → Once account origin mailed s →
        Once account origin mailed' (step account origin s a)) := by
  cases a with
  | former now op =>
    obtain ⟨mailed', hbooks, honce⟩ := h.alone (op.after now (.clean s.former))
    exact ⟨mailed', hbooks, fun _ => honce⟩
  | home now op fault =>
    have hafter := op.after now ⟨s.home, fault⟩
    have hmoved := h.home hafter (events_deleted s.home op) fun r hr hp hgone hrecipient =>
      hrecipient ▸ gone_deleted hr hp hgone
    refine ⟨mailed, hmoved.round ?_ ?_, fun _ ho => ?_⟩
    · intro r hr i hi
      split at hr
      · cases hr
      · exact hmoved.left r hr i hi
    · intro r hr id hid
      split at hr
      · cases hr
      · exact hmoved.took r hr id hid
    · have honce := ho.home hafter (events_deleted s.home op)
      exact ⟨honce.nodup, honce.recorded⟩
  | answers now =>
    obtain ⟨mailed', hbooks, honce⟩ := h.alone (after_expired now (fun _ => False) s.former)
    refine ⟨mailed', { hbooks with answered := ?_ }, fun _ ho => ?_⟩
    · intro items hitems i hi
      rcases mem_concat.mp hitems with hold | rfl
      · exact hbooks.answered items hold i hi
      · exact hbooks.fits.waiting hi
    · exact ⟨(honce ho).nodup, (honce ho).recorded⟩
  | begins k =>
    simp only [System.step]
    split
    · rename_i items hround hitems
      refine ⟨mailed, h.round ?_ ?_, fun _ ho => ⟨ho.nodup, ho.recorded⟩⟩
      · intro r hr i hi
        cases hr
        exact h.answered items (List.mem_of_getElem? hitems) i hi
      · intro r hr id hid
        cases hr
        cases hid
    · exact ⟨mailed, h, fun _ ho => ho⟩
  | delivers now fault =>
    simp only [System.step]
    split
    · rename_i item left took whole hround
      have hdelivered :=
        deliverNext_delivered account origin s now fault ⟨left, took, whole⟩ item
      exact ⟨mailed, h.delivered hround hdelivered,
        fun hsound ho => ho.delivered h hround hsound hdelivered⟩
    · exact ⟨mailed, h, fun _ ho => ho⟩
  | ends =>
    simp only [System.step]
    split
    · rename_i took whole hround
      have hover := @Books.round _ _ _ _ h none (by simp) (by simp)
      refine ⟨mailed, { hover with acked := ?_ }, fun _ ho => ⟨ho.nodup, ho.recorded⟩⟩
      intro ids hids id hid
      split at hids
      · exact h.acked ids hids id hid
      · rcases mem_concat.mp hids with hold | rfl
        · exact h.acked ids hold id hid
        · exact h.took _ hround id hid
    · exact ⟨mailed, h, fun _ ho => ho⟩
  | crashes =>
    exact ⟨mailed, h.round (by simp) (by simp), fun _ ho => ⟨ho.nodup, ho.recorded⟩⟩
  | took now k =>
    simp only [System.step]
    split
    · rename_i ids hids
      have htaken : ∀ i ∈ taken account now s.former (release account now ids s.former),
          Known mailed s i ∧ i.id ∈ System.inserts s.history := by
        intro i hi
        obtain ⟨hwaits, hacked⟩ := mem_taken hi
        exact ⟨h.fits.waiting hwaits, h.acked ids (List.mem_of_getElem? hids) _ hacked⟩
      obtain ⟨mailed', hsame, hbooks⟩ :=
        h.former (after_release account now ids s.former) htaken
      exact ⟨mailed', hbooks, fun _ ho => ho.former h hsame _⟩
    · exact ⟨mailed, h, fun _ ho => ho⟩

theorem Books.keeps (h : Books account origin mailed s) : Kept account s := by
  intro item hitem
  obtain ⟨hin, hmailed⟩ := h.released item hitem
  obtain ⟨row, hrow⟩ := mem_inserts.mp hin
  have haccounted := (h.kept _ row hrow).2
  rw [hmailed] at haccounted
  exact ⟨row, hrow, haccounted⟩

theorem books_new (account origin : PubKey) (mailed : Nat → MailItem) :
    Books account origin mailed new := by
  constructor <;> simp [System.new, Mailbox.new, Mailbox.Fits]

/-- Whatever is lost, repeated, refused, deleted or cut short, an acknowledgement only ever
takes what the new home stored. -/
theorem always_kept (account origin : PubKey) (acts : List Act) :
    Always (Kept account) (step account origin) new acts := by
  have hbooks : Always (fun s => ∃ mailed, Books account origin mailed s) (step account origin)
      new acts := by
    refine @Each.always _ _ _ (fun _ _ => True) _ _ _ ?_ ⟨_, books_new account origin
      fun _ => ⟨0, account, 0, ⟨0, []⟩⟩⟩ (each_of_mem (fun _ _ _ => trivial) new)
    intro s a ⟨mailed, h⟩ _
    obtain ⟨mailed', h', -⟩ := h.step a
    exact ⟨mailed', h'⟩
  exact hbooks.imp fun s ⟨_, h⟩ => h.keeps

/-- While each item is delivered in time and goes in with its record, nothing of the former
home's goes in twice either. -/
theorem mail_collected (account origin : PubKey) (acts : List Act)
    (h : Each (Sound account origin) (step account origin) new acts) :
    Always (Collected account) (step account origin) new acts := by
  have hbooks : Always (fun s => ∃ mailed, Books account origin mailed s ∧
      Once account origin mailed s) (step account origin) new acts := by
    refine h.always ?_ ⟨fun _ => ⟨0, account, 0, ⟨0, []⟩⟩, books_new account origin _, ?_⟩
    · intro s a ⟨mailed, hs, ho⟩ hsound
      obtain ⟨mailed', hs', ho'⟩ := hs.step a
      exact ⟨mailed', hs', ho' hsound ho⟩
    · exact ⟨List.nodup_nil, by simp [System.new, inserts]⟩
  exact hbooks.imp fun s ⟨_, hs, ho⟩ => ⟨ho.nodup, hs.keeps⟩

instance (account origin : PubKey) (s : System) : (a : Act) →
    Decidable (Sound account origin s a)
  | .delivers now fault => inferInstanceAs (Decidable (∀ r ∈ s.round, ∀ item ∈ r.left.head?,
      now ≤ item.received + mailTtl ∧ (∀ t ∈ clocks s.history, t ≤ item.received + mailTtl) ∧
        ∀ f ∈ fault, f.after = 3 → s.home.holds origin item.id account = true))
  | .former .. | .home .. | .answers _ | .begins _ | .ends | .crashes | .took .. =>
    inferInstanceAs (Decidable True)

/-- One message, collected over an answer that comes twice. -/
def collecting : List Act :=
  [.former 5 (.send 7 1 ⟨9, [3]⟩), .answers 6, .begins 0, .delivers 6 none, .crashes, .begins 0,
    .delivers 7 none, .ends, .took 8 0]

theorem mail_collected_once : Each (Sound 1 2) (step 1 2) new collecting ∧
    Always (Collected 1) (step 1 2) new collecting :=
  ⟨by decide +kernel, mail_collected 1 2 collecting (by decide +kernel)⟩

/-- The exchange stops between the item and its record, and the answer comes again. -/
theorem collected_twice : ¬ ∀ (account origin : PubKey) (acts : List Act),
    Always (Collected account) (step account origin) new acts := by
  intro h
  have hend := always_iff_prefixes.mp (h 1 2 [.former 5 (.send 7 1 ⟨9, [3]⟩), .answers 6, .begins 0,
    .delivers 6 (some ⟨3, true⟩), .begins 0, .delivers 7 none]) _ List.prefix_rfl
  have htwice : inserts (run (step 1 2) new [.former 5 (.send 7 1 ⟨9, [3]⟩), .answers 6, .begins 0,
      .delivers 6 (some ⟨3, true⟩), .begins 0, .delivers 7 none]).history = [1, 1] := by
    decide +kernel
  rw [Collected, htwice] at hend
  exact absurd hend.1 (by decide)

end System
end Sqex.Mail
