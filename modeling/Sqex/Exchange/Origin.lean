import Sqex.Exchange.Channels
import Sqex.Lib.Calls

/-! Ordering a channel: how the exchange that is its origin gives an entry its position, takes a
device's chain step, receipts what it wrote, and drops what it may no longer hold. A call that fails
changes nothing. -/
namespace Sqex.Exchange
open Std

structure Action where
  chainSeq : UInt64
  prev : Bytes32
  sig : Bytes64

structure Host where
  exchange : PubKey
  seed : Option Bytes32
  maxChannelBytes : UInt64

def maxMembers : Nat := 256

/-- Bytes an entry occupies beside its body. -/
def entryHeader : Nat := 8 + 1 + 32 + 32 + 8 + 4 + 4 + 8 + 8 + 32 + 32 + 64 + 4

def refuseIf (c : Prop) [Decidable c] (e : ChannelError) : Except ChannelError Unit :=
  if c then .error e else .ok ()

@[simp] theorem refuseIf_eq_ok {c : Prop} [Decidable c] {e : ChannelError} {u : Unit} :
    refuseIf c e = .ok u ↔ ¬ c := by
  unfold refuseIf
  split <;> simp [*]

structure Ordered where
  seq : UInt64
  row : EntryRow
  deriving DecidableEq

namespace Rows

section
variable (C : Crypto) (h : Host) (channel : Bytes32) (seed : Option Bytes32) (r : Rows)
  (c : ChannelRow)

def roleOf (who : PubKey) : Option Role :=
  (r.member[who]?.filter (·.present)).map (·.role)

def isMuted (who : PubKey) : Bool := r.member[who]?.any (·.muted)

def counts : Nat × Nat :=
  let rows := r.member.toList.map Prod.snd
  (rows.countP (·.present), rows.countP (·.role == .admin))

def readOnly : Except ChannelError Unit :=
  match r.originRow with
  | none => .ok ()
  | some origin => .error (.replicated origin)

def channelRow : Except ChannelError ChannelRow :=
  match r.channel with
  | some c => .ok c
  | none => .error .noSuchChannel

/-- The refusal of somebody who may not read: a private channel is not mentioned. -/
def unreadable : ChannelError :=
  if r.channel.any fun c => c.visibility == .pub then .notAMember else .noSuchChannel

def place : Place :=
  ⟨h.exchange, c.incarnation, channel⟩

/-- The position a device's next act takes in its chain, and the link before it. -/
def chainHead (device : PubKey) : UInt64 × Bytes32 :=
  match r.chain[device]? with
  | none => (0, genesis)
  | some row => (row.chainSeq + 1, row.head)

def advanceChain (device : PubKey) (chainSeq : UInt64) (prev : Bytes32) (input : Bytes) :
    Except ChannelError Rows :=
  if (chainSeq, prev) = r.chainHead device then
    .ok { r with chain := r.chain.insert device ⟨chainSeq, link C input⟩ }
  else .error .brokenChain

/-- The exchange's signature over where it put an entry, or zeros where it signs none. -/
def receiptOf (t : ReceiptTerms) : Bytes64 :=
  match seed with
  | some seed => C.sign seed (t.input C)
  | none => 0

def stampOf (place : Place) (c : ChannelRow) (posted : UInt64) (entryHash : Bytes32) : Receipted :=
  let head := advance C c.head entryHash
  ⟨entryHash, head, receiptOf C seed ⟨place, c.nextSeq.toUInt64, posted, entryHash, head⟩⟩

def after (entryHash : Bytes32) : ChannelRow :=
  { c with
    head := advance C c.head entryHash
    nextSeq := (c.nextSeq.toUInt64 + 1).toInt64
    emptySince := none }

def order (place : Place) (r : Rows) (posted : UInt64) (entryHash : Bytes32)
    (row : Receipted → EntryRow) : Except ChannelError (Rows × Ordered) :=
  match r.channel with
  | none => .error .noSuchChannel
  | some c =>
    let row := row (stampOf C seed place c posted entryHash)
    if c.nextSeq ∈ r.entry then .error .storage
    else .ok ({ r with
      entry := r.entry.insert c.nextSeq row
      channel := some (after C c entryHash) }, ⟨c.nextSeq.toUInt64, row⟩)

def systemRow (posted : UInt64) (body : Bytes) (stamp : Receipted) : EntryRow where
  kind := kindSystem
  account := 0
  device := 0
  posted := posted
  expiresAfter := 0
  epoch := 0
  msgSeq := 0
  chainSeq := 0
  prev := genesis
  bodyHash := genesis
  sig := 0
  body := body
  entryHash := stamp.entryHash
  head := stamp.head
  receipt := stamp.receipt

def actionTerms (place : Place) (s : System) (arg : Bytes) : ActionTerms :=
  ⟨place, s.actor, s.actorDevice, s.event, s.subject, arg, s.chainSeq, s.prev⟩

def checkAction (place : Place) (r : Rows) (s : System) (arg : Bytes) :
    Except ChannelError (Bytes × Rows) := do
  let terms := actionTerms place s arg
  refuseIf (verifyAction C terms s.sig = false) .badSignature
  match terms.input C with
  | .error _ => .error .badSignature
  | .ok input =>
    let r ← r.advanceChain C s.actorDevice s.chainSeq s.prev input
    pure (input, r)

def writeSystemBetween (actionPlace place : Place) (r : Rows) (s : System) (arg : Bytes)
    (now : UInt64) : Except ChannelError (Rows × Ordered) := do
  let (input, r) ← r.checkAction C actionPlace s arg
  r.order C h.seed place now (link C input) (systemRow now s.encode)

def recordOf (event : UInt8) (subject actor device : PubKey) (a : Action) : System :=
  ⟨event, subject, actor, device, a.chainSeq, a.prev, a.sig⟩

def writeSystem (s : System) (arg : Bytes) (now : UInt64) :
    Except ChannelError (Rows × List Ordered) := do
  let c ← r.channelRow
  let (r, e) ← r.writeSystemBetween C h (place h channel c) (place h channel c) s arg now
  pure (r, [e])

/-- Write the entry that says an account is succeeded. It carries the will's signature and
takes no chain step. -/
def writeSuccession (account successor : PubKey) (issued : UInt64) (sig : Bytes64) (now : UInt64) :
    Except ChannelError (Rows × List Ordered) := do
  let c ← r.channelRow
  let s : System := ⟨Event.succeeded, successor, account, account, issued, 0, sig⟩
  let entryHash := link C (willInput C account successor issued)
  let (r, e) ← r.order C h.seed (place h channel c) now entryHash (systemRow now s.encode)
  pure (r, [e])

/-- How long an entry may be held: the channel's retention, no longer than the origin's
window at a copy, and no longer than the entry's own timer. -/
def keepSecs (window : Option UInt32) (row : EntryRow) : UInt32 :=
  let policy := min c.retentionSecs (window.getD c.retentionSecs)
  if 0 < row.expiresAfter ∧ row.expiresAfter < policy then row.expiresAfter else policy

/-- Whether an entry has outlived that, reckoned in signed columns. -/
def tooOld (now : UInt64) (row : EntryRow) : Bool :=
  r.channel.any fun c =>
    let age := now.toInt64.toInt - row.posted.toInt64.toInt
    decide (age ≥ (keepSecs c (r.replicated.map (·.windowSecs)) row).toNat)

/-- The greatest position of a log, 0 where it is empty. -/
def topSeq (entry : ExtTreeMap Int64 EntryRow) : Int64 :=
  (entry.toList.getLast?.map Prod.fst).getD 0

def capEntries : Nat :=
  let cap := (r.channel.map (·.maxEntries)).getD 0
  if cap = 0 then maxEntries.toNat else min cap.toNat maxEntries.toNat

/-- From the newest entry down, the first whose running total of bytes is over a limit: its
position, or 0. -/
def breach (limit : Nat) : Nat → List (Int64 × EntryRow) → Int64
  | _, [] => 0
  | running, (seq, row) :: rest =>
    let running := running + row.body.length + entryHeader
    if limit < running then seq else breach limit running rest

/-- Drop what the channel should no longer hold: too old, too many, too large. -/
def prune (now : UInt64) : Rows :=
  let young := r.entry.filter fun _ row => !r.tooOld now row
  let few := young.filter fun seq _ =>
    !decide (seq.toInt ≤ (topSeq young).toInt - r.capEntries)
  let cut := breach h.maxChannelBytes.toNat 0 few.toList.reverse
  { r with entry := few.filter fun seq _ => !decide (seq ≤ cut) }

/-- What ordering an entry did: it took the next position, and nothing else changed but
where the log ends. -/
structure Appended (place : Place) (posted : UInt64) (entryHash : Bytes32)
    (row : Receipted → EntryRow) (r r' : Rows) (e : Ordered) (c : ChannelRow) : Prop where
  channel : r.channel = some c
  free : c.nextSeq ∉ r.entry
  ordered : e = ⟨c.nextSeq.toUInt64, row (stampOf C seed place c posted entryHash)⟩
  rows : r' = { r with
    entry := r.entry.insert c.nextSeq (row (stampOf C seed place c posted entryHash))
    channel := some (after C c entryHash) }

end

theorem order_ok {C : Crypto} {seed : Option Bytes32} {place : Place} {r r' : Rows}
    {posted : UInt64} {entryHash : Bytes32} {row : Receipted → EntryRow} {e : Ordered} :
    r.order C seed place posted entryHash row = .ok (r', e) ↔
      ∃ c, Appended C seed place posted entryHash row r r' e c := by
  unfold order
  cases hc : r.channel with
  | none =>
    constructor
    · simp
    · rintro ⟨c, h⟩
      simp [h.channel] at hc
  | some c =>
    by_cases hfree : c.nextSeq ∈ r.entry
    · constructor
      · simp [hfree]
      · rintro ⟨c', h⟩
        obtain rfl := Option.some.inj (hc.symm.trans h.channel)
        exact absurd hfree h.free
    · simp only [if_neg hfree]
      constructor
      · intro h
        obtain ⟨hrows, he⟩ := Prod.mk.inj (Except.ok.inj h)
        exact ⟨c, hc, hfree, he.symm, hrows.symm⟩
      · rintro ⟨c', h⟩
        obtain rfl := Option.some.inj (hc.symm.trans h.channel)
        rw [h.rows, h.ordered]

theorem advanceChain_ok {C : Crypto} {r r' : Rows} {device : PubKey} {chainSeq : UInt64}
    {prev : Bytes32} {input : Bytes} :
    r.advanceChain C device chainSeq prev input = .ok r' ↔
      (chainSeq, prev) = r.chainHead device ∧
        r' = { r with chain := r.chain.insert device ⟨chainSeq, link C input⟩ } := by
  unfold advanceChain
  by_cases hstep : (chainSeq, prev) = r.chainHead device
  · simp [hstep, eq_comm]
  · simp [hstep]

/-- What writing an action did: its signature verified, it took its device's next chain
step, and it was ordered. -/
structure Acted (C : Crypto) (h : Host) (channel : Bytes32) (s : System) (arg : Bytes)
    (now : UInt64) (r r' : Rows) (e : Ordered) (c : ChannelRow) (input : Bytes) : Prop where
  signed : verifyAction C (actionTerms (place h channel c) s arg) s.sig = true
  terms : (actionTerms (place h channel c) s arg).input C = .ok input
  step : (s.chainSeq, s.prev) = r.chainHead s.actorDevice
  appended : Appended C h.seed (place h channel c) now (link C input) (systemRow now s.encode)
    { r with chain := r.chain.insert s.actorDevice ⟨s.chainSeq, link C input⟩ } r' e c

variable {C : Crypto} {h : Host} {channel : Bytes32} {r r' : Rows} {s : System} {arg : Bytes}
  {now : UInt64} {es : List Ordered}

theorem checkAction_ok {place : Place} {input : Bytes} :
    r.checkAction C place s arg = .ok (input, r') ↔
      verifyAction C (actionTerms place s arg) s.sig = true ∧
        (actionTerms place s arg).input C = .ok input ∧
        (s.chainSeq, s.prev) = r.chainHead s.actorDevice ∧
        r' = { r with chain := r.chain.insert s.actorDevice ⟨s.chainSeq, link C input⟩ } := by
  unfold checkAction
  cases hinput : (actionTerms place s arg).input C with
  | error e => simp [bind_eq_ok, hinput]
  | ok bytes =>
    simp only [bind_eq_ok, refuseIf_eq_ok, hinput, advanceChain_ok, pure_eq_ok]
    constructor
    · rintro ⟨-, hsigned, r₁, ⟨hstep, rfl⟩, heq⟩
      obtain ⟨rfl, rfl⟩ := Prod.mk.inj heq
      exact ⟨by simpa using hsigned, rfl, hstep, rfl⟩
    · rintro ⟨hsigned, heq, hstep, rfl⟩
      obtain rfl := Except.ok.inj heq
      exact ⟨(), by simp [hsigned], _, ⟨hstep, rfl⟩, rfl⟩

theorem readOnly_ok {u : Unit} : r.readOnly = .ok u ↔ r.originRow = none := by
  unfold readOnly
  cases r.originRow <;> simp

theorem channelRow_ok {c : ChannelRow} : r.channelRow = .ok c ↔ r.channel = some c := by
  unfold channelRow
  cases r.channel <;> simp

theorem writeSystemBetween_ok {c : ChannelRow} {e : Ordered} (hc : r.channel = some c) :
    r.writeSystemBetween C h (place h channel c) (place h channel c) s arg now = .ok (r', e) ↔
      ∃ input, Acted C h channel s arg now r r' e c input := by
  simp only [writeSystemBetween, bind_eq_ok, Prod.exists, checkAction_ok, order_ok]
  constructor
  · rintro ⟨input, r₂, ⟨hsigned, hterms, hstep, rfl⟩, c', happended⟩
    obtain rfl := Option.some.inj (hc.symm.trans happended.channel)
    exact ⟨input, hsigned, hterms, hstep, happended⟩
  · rintro ⟨input, hacted⟩
    exact ⟨input, _, ⟨hacted.signed, hacted.terms, hacted.step, rfl⟩, c, hacted.appended⟩

theorem writeSystem_ok : r.writeSystem C h channel s arg now = .ok (r', es) ↔
    ∃ c input e, es = [e] ∧ Acted C h channel s arg now r r' e c input := by
  simp only [writeSystem, bind_eq_ok, channelRow_ok, Prod.exists, pure_eq_ok, Prod.mk.injEq]
  constructor
  · rintro ⟨c, hc, r₁, e, hwrite, rfl, rfl⟩
    obtain ⟨input, hacted⟩ := (writeSystemBetween_ok hc).mp hwrite
    exact ⟨c, input, e, rfl, hacted⟩
  · rintro ⟨c, input, e, rfl, hacted⟩
    have hc : r.channel = some c := hacted.appended.channel
    exact ⟨c, hc, r', e, (writeSystemBetween_ok hc).mpr ⟨input, hacted⟩, rfl, rfl⟩

theorem writeSuccession_ok {account successor : PubKey} {issued : UInt64} {sig : Bytes64} :
    r.writeSuccession C h channel account successor issued sig now = .ok (r', es) ↔
      ∃ c e, es = [e] ∧ Appended C h.seed (place h channel c) now
        (link C (willInput C account successor issued))
        (systemRow now (System.encode
          ⟨Event.succeeded, successor, account, account, issued, 0, sig⟩)) r r' e c := by
  simp only [writeSuccession, bind_eq_ok, channelRow_ok, Prod.exists, order_ok, pure_eq_ok,
    Prod.mk.injEq]
  constructor
  · rintro ⟨c, hc, r₁, e, ⟨c', happended⟩, rfl, rfl⟩
    obtain rfl := Option.some.inj (hc.symm.trans happended.channel)
    exact ⟨c, e, rfl, happended⟩
  · rintro ⟨c, e, rfl, happended⟩
    exact ⟨c, happended.channel, r', e, ⟨c, happended⟩, rfl, rfl⟩

theorem prune_entry {seq : Int64} {row : EntryRow}
    (hrow : (r.prune h now).entry[seq]? = some row) : r.entry[seq]? = some row := by
  simp only [prune, ExtTreeMap.getElem?_filter, Option.pfilter_eq_some_iff] at hrow
  grind

end Rows
end Sqex.Exchange
