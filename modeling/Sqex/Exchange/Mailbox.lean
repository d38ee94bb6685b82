import Sqex.Lib.Faults
import Sqex.Proto.Primitives

/-! The mailbox: sealed messages held for their recipients, the tombstones they leave, and
what was collected from a former home. -/
namespace Sqex.Mail

def maxMessages : Nat := 64
def maxBytes : Nat := 1024 * 1024
/-- Seconds a message, and the record of its collection, is kept. -/
def mailTtl : Nat := 7 * 24 * 60 * 60

structure Sealed where
  ephemeral : Bytes32
  ciphertext : Bytes
  deriving DecidableEq

inductive SendError where
  | tooManyMessages
  | quotaExceeded
  deriving DecidableEq

/-- A message, or the tombstone it leaves: no payload once it is collected. -/
structure Row where
  id : Nat
  sender : PubKey
  recipient : PubKey
  received : Nat
  payload : Option Sealed
  collected : Option Nat
  deriving DecidableEq

/-- That an item was collected from a former home. -/
structure Record where
  origin : PubKey
  remoteId : Nat
  recipient : PubKey
  received : Nat
  deriving DecidableEq

structure MailItem where
  id : Nat
  sender : PubKey
  received : Nat
  sealed : Sealed
  deriving DecidableEq

structure Mailbox where
  mail : List Row
  collectedFrom : List Record
  lastId : Nat
  deriving DecidableEq

namespace Mailbox

def new : Mailbox := ⟨[], [], 0⟩

def expireMail (now : Nat) (b : Mailbox) : Mailbox :=
  { b with mail := b.mail.filter fun r => now - mailTtl ≤ r.received }

def expireRecords (now : Nat) (b : Mailbox) : Mailbox :=
  { b with collectedFrom := b.collectedFrom.filter fun r => now - mailTtl ≤ r.received }

def push (sender recipient : PubKey) (received : Nat) (sealed : Sealed) (b : Mailbox) : Mailbox :=
  { b with
    mail := b.mail ++ [⟨b.lastId + 1, sender, recipient, received, some sealed, none⟩]
    lastId := b.lastId + 1 }

def record (r : Record) (b : Mailbox) : Mailbox :=
  if b.collectedFrom.any fun r' => r'.origin = r.origin ∧ r'.remoteId = r.remoteId ∧
      r'.recipient = r.recipient then b
  else { b with collectedFrom := b.collectedFrom ++ [r] }

def collect (recipient : PubKey) (id now : Nat) (b : Mailbox) : Mailbox :=
  { b with
    mail := b.mail.map fun r =>
      if r.id = id ∧ r.recipient = recipient ∧ r.payload.isSome then
        { r with payload := none, collected := some now }
      else r }

def waitingRows (b : Mailbox) (recipient : PubKey) : List Row :=
  b.mail.filter fun r => r.recipient = recipient ∧ r.payload.isSome

def load (b : Mailbox) (recipient : PubKey) : Nat × Nat :=
  let rows := b.waitingRows recipient
  (rows.length, (rows.map fun r => (r.payload.map (·.ciphertext.length)).getD 0).sum)

def holds (b : Mailbox) (origin : PubKey) (remoteId : Nat) (recipient : PubKey) : Bool :=
  b.collectedFrom.any fun r => r.origin = origin ∧ r.remoteId = remoteId ∧ r.recipient = recipient

/-- Every item waiting, oldest first, as the home collects it. -/
def waiting (b : Mailbox) (recipient : PubKey) : List MailItem :=
  b.mail.filterMap fun r =>
    if r.recipient = recipient then r.payload.map fun p => ⟨r.id, r.sender, r.received, p⟩
    else none

end Mailbox

abbrev MailM := Call SendError (Faulty Mailbox)

def stored : MailM Mailbox := do
  let d ← Call.get
  pure d.store

/-- Drop everything past its TTL, as every operation does first. -/
def expire (now : Nat) : MailM Unit :=
  Faulty.tryAll .quotaExceeded
    [fun b => some (b.expireMail now), fun b => some (b.expireRecords now)]

def insert (sender recipient : PubKey) (received : Nat) (sealed : Sealed) : MailM Nat := do
  let b ← stored
  Call.failIf ((b.load recipient).1 ≥ maxMessages) .tooManyMessages
  Call.failIf ((b.load recipient).2 + sealed.ciphertext.length > maxBytes) .quotaExceeded
  Faulty.exec .quotaExceeded fun b => some (b.push sender recipient received sealed)
  let b ← stored
  pure b.lastId

def send (now : Nat) (sender recipient : PubKey) (sealed : Sealed) : MailM (Nat × Nat) := do
  expire now
  let id ← insert sender recipient now sealed
  pure (id, now)

/-- Store an item collected from `origin` as the former home observed it, once for each
`(origin, id)`: whether it was stored, or is held already. -/
def deliver (now : Nat) (recipient origin : PubKey) (item : MailItem) : MailM Bool := do
  expire now
  let b ← stored
  if b.holds origin item.id recipient then pure false
  else do
    let _ ← insert item.sender recipient item.received item.sealed
    Faulty.tryAll .quotaExceeded
      [fun b => some (b.record ⟨origin, item.id, recipient, item.received⟩)]
    pure true

/-- Complete collection, which only the recipient may: whether anything was collected. -/
def delete (now : Nat) (recipient : PubKey) (id : Nat) : MailM Bool := do
  expire now
  let b ← stored
  let done ← Call.attempt (Faulty.exec .quotaExceeded fun b => some (b.collect recipient id now))
  match done with
  | .ok () => pure ((b.waitingRows recipient).countP (·.id = id) = 1)
  | .error _ => pure false

/-- What is asked of a mailbox besides collecting from a former home. -/
inductive Op where
  | send (sender recipient : PubKey) (sealed : Sealed)
  | look
  | delete (recipient : PubKey) (id : Nat)

def Op.run (now : Nat) : Op → MailM Unit
  | .send sender recipient sealed => do
    let _ ← Mail.send now sender recipient sealed
  | .look => expire now
  | .delete recipient id => do
    let _ ← Mail.delete now recipient id

namespace Mailbox

/-- Identifiers count the rows given out, and `mailed` says what was stored under each. -/
def Fits (mailed : Nat → MailItem) (b : Mailbox) : Prop :=
  ∀ r ∈ b.mail, r.id ≤ b.lastId ∧
    ∀ p, r.payload = some p → mailed r.id = ⟨r.id, r.sender, r.received, p⟩

/-- What an operation leaves of a mailbox: rows and records go only past their TTL, or, for
a row, as `gone` says. -/
structure After (now : Nat) (gone : Row → Prop) (b₀ b : Mailbox) : Prop where
  lastId : b₀.lastId ≤ b.lastId
  mailed : ∀ m, b₀.Fits m → ∃ m', b.Fits m' ∧ ∀ id, id ≤ b₀.lastId → m' id = m id
  rows : ∀ r ∈ b₀.mail, r.payload.isSome = true →
    r ∈ b.mail ∨ gone r ∨ r.received < now - mailTtl
  records : ∀ r ∈ b₀.collectedFrom, r ∈ b.collectedFrom ∨ r.received < now - mailTtl
  noted : ∀ r ∈ b.collectedFrom, r ∈ b₀.collectedFrom

section
variable {now : Nat} {gone : Row → Prop} {b₀ b : Mailbox}

theorem After.refl (now : Nat) (gone : Row → Prop) (b : Mailbox) : After now gone b b where
  lastId := Nat.le_refl _
  mailed := fun m h => ⟨m, h, fun _ _ => rfl⟩
  rows := fun _ hr _ => Or.inl hr
  records := fun _ hr => Or.inl hr
  noted := fun _ hr => hr

theorem After.expireMail (h : After now gone b₀ b) : After now gone b₀ (b.expireMail now) where
  lastId := h.lastId
  mailed := by
    intro m hm
    obtain ⟨m', hfits, hsame⟩ := h.mailed m hm
    exact ⟨m', fun r hr => hfits r (List.mem_of_mem_filter hr), hsame⟩
  rows := by
    intro r hr hp
    rcases h.rows r hr hp with hin | hout
    · by_cases hdue : now - mailTtl ≤ r.received
      · exact Or.inl (List.mem_filter.mpr ⟨hin, by simpa using hdue⟩)
      · exact Or.inr (Or.inr (by omega))
    · exact Or.inr hout
  records := h.records
  noted := h.noted

theorem After.expireRecords (h : After now gone b₀ b) :
    After now gone b₀ (b.expireRecords now) where
  lastId := h.lastId
  mailed := h.mailed
  rows := h.rows
  records := by
    intro r hr
    rcases h.records r hr with hin | hout
    · by_cases hdue : now - mailTtl ≤ r.received
      · exact Or.inl (List.mem_filter.mpr ⟨hin, by simpa using hdue⟩)
      · exact Or.inr (by omega)
    · exact Or.inr hout
  noted := fun r hr => h.noted r (List.mem_of_mem_filter hr)

theorem Fits.push {m : Nat → MailItem} (h : b.Fits m) (sender recipient : PubKey)
    (received : Nat) (sealed : Sealed) :
    (b.push sender recipient received sealed).Fits
      (Function.update m (b.lastId + 1) ⟨b.lastId + 1, sender, received, sealed⟩) := by
  intro r hr
  rcases List.mem_append.mp hr with hold | hnew
  · obtain ⟨hle, hpayload⟩ := h r hold
    refine ⟨Nat.le_succ_of_le hle, fun p hp => ?_⟩
    rw [Function.update_of_ne (by omega)]
    exact hpayload p hp
  · rw [List.mem_singleton.mp hnew]
    refine ⟨Nat.le_refl _, fun p hp => ?_⟩
    cases hp
    exact Function.update_self _ _ _

theorem After.push (h : After now gone b₀ b) (sender recipient : PubKey) (received : Nat)
    (sealed : Sealed) : After now gone b₀ (b.push sender recipient received sealed) where
  lastId := Nat.le_succ_of_le h.lastId
  mailed := by
    intro m hm
    obtain ⟨m', hfits, hsame⟩ := h.mailed m hm
    refine ⟨_, hfits.push sender recipient received sealed, fun id hid => ?_⟩
    have hlast := h.lastId
    rw [Function.update_of_ne (by omega)]
    exact hsame id hid
  rows := by
    intro r hr hp
    rcases h.rows r hr hp with hin | hout
    · exact Or.inl (List.mem_append_left _ hin)
    · exact Or.inr hout
  records := h.records
  noted := h.noted

theorem After.collect {recipient : PubKey} {id : Nat}
    (h : After now (fun r => r.recipient = recipient ∧ r.id = id) b₀ b) :
    After now (fun r => r.recipient = recipient ∧ r.id = id) b₀
      (b.collect recipient id now) where
  lastId := h.lastId
  mailed := by
    intro m hm
    obtain ⟨m', hfits, hsame⟩ := h.mailed m hm
    refine ⟨m', fun r hr => ?_, hsame⟩
    obtain ⟨r', hr', rfl⟩ := List.mem_map.mp hr
    split
    · exact ⟨(hfits r' hr').1, fun p hp => by cases hp⟩
    · exact hfits r' hr'
  rows := by
    intro r hr hp
    rcases h.rows r hr hp with hin | hout
    · by_cases hmine : r.recipient = recipient ∧ r.id = id
      · exact Or.inr (Or.inl hmine)
      · refine Or.inl (List.mem_map.mpr ⟨r, hin, ?_⟩)
        rw [if_neg]
        exact fun hall => hmine ⟨hall.2.1, hall.1⟩
    · exact Or.inr hout
  records := h.records
  noted := h.noted

end
end Mailbox

def Op.gone : Op → Row → Prop
  | .delete recipient id => fun r => r.recipient = recipient ∧ r.id = id
  | _ => fun _ => False

section
variable {now : Nat} {gone : Row → Prop} {b₀ : Mailbox}

theorem keeps_stored {I : Mailbox → Prop} :
    Call.Keeps (fun d : Faulty Mailbox => I d.store) stored :=
  Call.keeps_bind Call.keeps_get fun _ => Call.keeps_pure _

theorem keeps_expire :
    Call.Keeps (fun d : Faulty Mailbox => Mailbox.After now gone b₀ d.store) (expire now) := by
  refine Faulty.keeps_tryAll fun f hf s s' h hs => ?_
  rcases List.mem_cons.mp hf with rfl | hf
  · cases hs
    exact h.expireMail
  · rw [List.mem_singleton.mp hf] at hs
    cases hs
    exact h.expireRecords

theorem keeps_insert (sender recipient : PubKey) (received : Nat) (sealed : Sealed) :
    Call.Keeps (fun d : Faulty Mailbox => Mailbox.After now gone b₀ d.store)
      (insert sender recipient received sealed) := by
  refine Call.keeps_bind keeps_stored fun b => ?_
  refine Call.keeps_bind (Call.keeps_failIf _) fun _ => ?_
  refine Call.keeps_bind (Call.keeps_failIf _) fun _ => ?_
  refine Call.keeps_bind (Faulty.keeps_exec fun s s' h hs => ?_) fun _ => ?_
  · cases hs
    exact h.push sender recipient received sealed
  · exact Call.keeps_bind keeps_stored fun _ => Call.keeps_pure _

theorem Op.after (op : Op) (now : Nat) (d : Faulty Mailbox) :
    Mailbox.After now op.gone d.store ((op.run now).after d).store := by
  have hkeeps : Call.Keeps (fun d' : Faulty Mailbox => Mailbox.After now op.gone d.store d'.store)
      (op.run now) := by
    cases op with
    | send sender recipient sealed =>
      refine Call.keeps_bind ?_ fun _ => Call.keeps_pure _
      exact Call.keeps_bind keeps_expire fun _ =>
        Call.keeps_bind (keeps_insert sender recipient now sealed) fun _ => Call.keeps_pure _
    | look => exact keeps_expire
    | delete recipient id =>
      refine Call.keeps_bind ?_ fun _ => Call.keeps_pure _
      refine Call.keeps_bind keeps_expire fun _ => Call.keeps_bind keeps_stored fun b => ?_
      refine Call.keeps_bind (Call.keeps_attempt (Faulty.keeps_exec fun s s' h hs => ?_))
        fun r => ?_
      · cases hs
        exact h.collect
      · cases r <;> exact Call.keeps_pure _
  exact hkeeps d (Mailbox.After.refl _ _ _)

end

/-- How a delivery goes, from the store `b`: nothing is stored, or the item is with its
record, or, where the fourth statement does not go through, without it. -/
inductive Delivers (now : Nat) (recipient origin : PubKey) (item : MailItem)
    (fault : Option Fault) (b : Mailbox) : Except SendError Bool → Mailbox → Prop where
  | stays {e : Mailbox} {r : Except SendError Bool} (swept : b.After now (fun _ => False) e)
      (held : ∀ x, r = .ok x → x = false ∧ e.holds origin item.id recipient = true) :
      Delivers now recipient origin item fault b r e
  | stored {e : Mailbox} (swept : b.After now (fun _ => False) e)
      (fresh : e.holds origin item.id recipient = false) :
      Delivers now recipient origin item fault b (.ok true)
        ((e.push item.sender recipient item.received item.sealed).record
          ⟨origin, item.id, recipient, item.received⟩)
  | halfway {e : Mailbox} (swept : b.After now (fun _ => False) e)
      (fresh : e.holds origin item.id recipient = false)
      (cut : ∃ f, fault = some f ∧ f.after = 3) :
      Delivers now recipient origin item fault b (.ok true)
        (e.push item.sender recipient item.received item.sealed)

/-- A fault past the next statement after the expiry was two further before it. -/
theorem fault_after_expire {now k : Nat} {stops : Bool} {d : Faulty Mailbox}
    (h : ((expire now).after d).fault = some ⟨k + 1, stops⟩) :
    d.fault = some ⟨k + 3, stops⟩ := by
  obtain ⟨b, fault⟩ := d
  have hshort : ∀ n stops', n < 2 → fault = some ⟨n, stops'⟩ → False := by
    intro n stops' hn hfault
    rw [hfault, Call.after, expire, Faulty.tryAll_cut hn] at h
    cases stops' <;> cases h
  cases fault with
  | none =>
    rw [Call.after, expire, show (⟨b, none⟩ : Faulty Mailbox) = Faulty.clean b from rfl,
      Faulty.tryAll_clean] at h
    cases h
  | some f =>
    obtain ⟨n, stops'⟩ := f
    by_cases hn : n < 2
    · exact (hshort n stops' hn rfl).elim
    · obtain ⟨n, rfl⟩ := Nat.exists_eq_add_of_le' (Nat.le_of_not_lt hn)
      rw [Call.after, expire, Faulty.tryAll_past (by simp)] at h
      cases h
      rfl

/-- What an insert does: it is refused or fails and the store stays, or the row is in and the
fault, where one is ahead, a statement nearer. -/
theorem insert_cases (sender recipient : PubKey) (received : Nat) (sealed : Sealed)
    (d : Faulty Mailbox) :
    (∃ e d', insert sender recipient received sealed d = (.error e, d') ∧ d'.store = d.store) ∨
      ∃ id, insert sender recipient received sealed d =
        (.ok id, ⟨d.store.push sender recipient received sealed,
          d.fault.map fun f => ⟨f.after - 1, f.stops⟩⟩) ∧ ∀ f ∈ d.fault, 0 < f.after := by
  have hrun : insert sender recipient received sealed d = (do
      Call.failIf ((d.store.load recipient).1 ≥ maxMessages) SendError.tooManyMessages
      Call.failIf ((d.store.load recipient).2 + sealed.ciphertext.length > maxBytes)
        SendError.quotaExceeded
      Faulty.exec .quotaExceeded fun b => some (b.push sender recipient received sealed)
      let b ← stored
      pure b.lastId : MailM Nat) d := rfl
  rw [hrun, Call.failIf_bind]
  split
  · exact Or.inl ⟨_, _, rfl, rfl⟩
  · rw [Call.failIf_bind]
    split
    · exact Or.inl ⟨_, _, rfl, rfl⟩
    · obtain ⟨b, fault⟩ := d
      cases fault with
      | none => exact Or.inr ⟨_, rfl, by simp⟩
      | some f =>
        obtain ⟨n, stops⟩ := f
        cases n with
        | zero => exact Or.inl ⟨_, _, rfl, by cases stops <;> rfl⟩
        | succ n => exact Or.inr ⟨_, rfl, by simp⟩

theorem deliver_delivers (now : Nat) (recipient origin : PubKey) (item : MailItem)
    (d : Faulty Mailbox) :
    Delivers now recipient origin item d.fault d.store
      ((deliver now recipient origin item).result d)
      ((deliver now recipient origin item).after d).store := by
  have hswept : d.store.After now (fun _ => False) ((expire now).after d).store :=
    keeps_expire d (Mailbox.After.refl _ _ _)
  have hrun : deliver now recipient origin item d = (do
      if ((expire now).after d).store.holds origin item.id recipient then pure false
      else do
        let _ ← insert item.sender recipient item.received item.sealed
        Faulty.tryAll .quotaExceeded
          [fun b => some (b.record ⟨origin, item.id, recipient, item.received⟩)]
        pure true : MailM Bool) ((expire now).after d) := rfl
  have hfault : ∀ k stops, ((expire now).after d).fault = some ⟨k + 1, stops⟩ →
      d.fault = some ⟨k + 3, stops⟩ := fun _ _ => fault_after_expire
  generalize (expire now).after d = d₁ at hswept hrun hfault
  rw [Call.result, Call.after, hrun]
  cases hheld : d₁.store.holds origin item.id recipient with
  | true => exact .stays hswept fun _ hx => by cases hx; exact ⟨rfl, hheld⟩
  | false =>
    simp only [Bool.false_eq_true, if_false]
    rcases insert_cases item.sender recipient item.received item.sealed d₁ with
      ⟨e, d₂, hinsert, hstore⟩ | ⟨id, hinsert, hpos⟩
    · have hresult : (insert item.sender recipient item.received item.sealed).result d₁ =
          .error e := by rw [Call.result, hinsert]
      have hafter : (insert item.sender recipient item.received item.sealed).after d₁ = d₂ := by
        rw [Call.after, hinsert]
      rw [Call.bind_error hresult, hafter, hstore]
      exact .stays hswept fun _ hx => by cases hx
    · have hresult : (insert item.sender recipient item.received item.sealed).result d₁ =
          .ok id := by rw [Call.result, hinsert]
      have hafter : (insert item.sender recipient item.received item.sealed).after d₁ =
          ⟨d₁.store.push item.sender recipient item.received item.sealed,
            d₁.fault.map fun f => ⟨f.after - 1, f.stops⟩⟩ := by
        rw [Call.after, hinsert]
      rw [Call.bind_ok hresult, hafter]
      obtain ⟨b, fault⟩ := d₁
      cases fault with
      | none => exact .stored hswept hheld
      | some f =>
        obtain ⟨n, stops⟩ := f
        cases n with
        | zero => simp at hpos
        | succ n =>
          cases n with
          | zero =>
            have hcut := hfault 0 stops rfl
            cases stops <;> exact .halfway hswept hheld ⟨_, hcut, rfl⟩
          | succ n => exact .stored hswept hheld

end Sqex.Mail
