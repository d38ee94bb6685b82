import Sqex.Exchange.OriginOps
import Sqex.Lib.Columns
import Sqex.Lib.Runs
import Sqex.Proto.SystemBody

/-! The log of a channel ordered here, over a run of requests. What was ordered is kept beside the
rows, pruned or not: positions, head, receipts, chains and counters are all read off it. -/
namespace Sqex.Exchange
open Std Runs

structure ChainStep where
  device : PubKey
  chainSeq : UInt64
  prev : Bytes32
  hash : Bytes32
  deriving DecidableEq

def stepOf (row : EntryRow) : Option ChainStep :=
  if row.kind = kindSystem then
    match System.decode row.body with
    | .ok (some s) =>
      if s.event = Event.succeeded then none
      else some ⟨s.actorDevice, s.chainSeq, s.prev, row.entryHash⟩
    | _ => none
  else some ⟨row.device, row.chainSeq, row.prev, row.entryHash⟩

def stepsOf (device : PubKey) (written : List Ordered) : List ChainStep :=
  (written.filterMap fun e => stepOf e.row).filter fun s => s.device = device

def nextStep (steps : List ChainStep) : UInt64 × Bytes32 :=
  (UInt64.ofNat steps.length, (steps.getLast?.map (·.hash)).getD genesis)

def Gapless (steps : List ChainStep) : Prop :=
  ∀ before s rest, steps = before ++ s :: rest → (s.chainSeq, s.prev) = nextStep before

def headOf (C : Crypto) (written : List Ordered) : Bytes32 :=
  (written.map fun e => e.row.entryHash).foldl (advance C) headGenesis

/-- A counter beside the one held: the greater, as a signed column has it. -/
def raised (held : Option Int64) (msgSeq : UInt64) : Int64 :=
  let held := held.getD msgSeq.toInt64
  if msgSeq.toInt64 ≤ held then held else msgSeq.toInt64

def countersOf (device : PubKey) (epoch : UInt32) (written : List Ordered) : List UInt64 :=
  (written.filter fun e => e.row.kind = kindMember ∧ e.row.device = device ∧
    e.row.epoch = epoch).map fun e => e.row.msgSeq

def topOf (device : PubKey) (epoch : UInt32) (written : List Ordered) : Option Int64 :=
  (countersOf device epoch written).foldl (fun held n => some (raised held n)) none

namespace Rows

def logEnd (r : Rows) : Option (Bytes32 × Bytes32 × Int64) :=
  r.channel.map fun c => (c.incarnation, c.head, c.nextSeq)

def heldMark (r : Rows) (device : PubKey) (epoch : UInt32) : Option Int64 :=
  r.highWater[device]?.bind fun marks => marks[epoch]?

def markOf (r : Rows) (device : PubKey) (epoch : UInt32) : UInt64 :=
  ((r.heldMark device epoch).getD 0).toUInt64

/-- A post's counter does not come back from 2^63 or above. -/
def InOrder (r : Rows) (device : PubKey) (req : Post) : Prop :=
  2 ^ 63 ≤ (r.markOf device req.epoch).toNat → 2 ^ 63 ≤ req.msgSeq.toNat

/-- Nothing was ordered, and no chain or counter moved: what is held was held, with its
body or without. -/
structure Still (r r' : Rows) : Prop where
  logEnd : r'.logEnd = r.logEnd
  chain : r'.chain = r.chain
  highWater : r'.highWater = r.highWater
  held : ∀ (seq : Int64) (row' : EntryRow), r'.entry[seq]? = some row' →
    ∃ row, r.entry[seq]? = some row ∧ row'.redacted = row.redacted

def postHash (C : Crypto) (place : Place) (account device : PubKey) (req : Post) : Bytes32 :=
  link C ((req.terms place account device).input C)

/-- What accepting a post did: it took its device's next step, was ordered, and raised the
counter. -/
structure Posted (C : Crypto) (h : Host) (channel : Bytes32) (account device : PubKey)
    (req : Post) (now : UInt64) (r r' : Rows) (e : Ordered) (c : ChannelRow) : Prop where
  step : (req.chainSeq, req.prev) = r.chainHead device
  appended : ∃ r₁, r' = r₁.bump device req.epoch req.msgSeq ∧
    Appended C h.seed (place h channel c) now
      (postHash C (place h channel c) account device req) (req.row C account device now)
      { r with
        chain := r.chain.insert device
          ⟨req.chainSeq, postHash C (place h channel c) account device req⟩ } r₁ e c

inductive Logs (C : Crypto) (h : Host) (channel : Bytes32) :
    Rows → List Ordered → Rows → Prop
  | still {r r'} (hstill : Still r r') : Logs C h channel r [] r'
  | acted {r r' s arg now e c input} (hknown : s.event ≠ 0 ∧ s.event ≤ Event.unmuted)
      (hstep : s.event ≠ Event.succeeded)
      (hacted : Acted C h channel s arg now r r' e c input) : Logs C h channel r [e] r'
  | succeeded {r r' e c now hash} {s : System} (hs : s.event = Event.succeeded)
      (happended : Appended C h.seed (place h channel c) now hash (systemRow now s.encode)
        r r' e c) : Logs C h channel r [e] r'
  | posted {r r' e c account device req now} (horder : r.InOrder device req)
      (hposted : Posted C h channel account device req now r r' e c) :
      Logs C h channel r [e] r'
  | trans {r₁ r₂ r₃ es es'} : Logs C h channel r₁ es r₂ → Logs C h channel r₂ es' r₃ →
      Logs C h channel r₁ (es ++ es') r₃

end Rows

structure Positioned (C : Crypto) (h : Host) (channel inc : Bytes32) (written : List Ordered)
    (r : Rows) : Prop where
  logEnd : r.logEnd =
    some (inc, headOf C written, (UInt64.ofNat (written.length + 1)).toInt64)
  positions : written.map (·.seq.toNat) = List.range' 1 written.length
  stamped : ∀ before e rest, written = before ++ e :: rest →
    e.row.head = headOf C (before ++ [e]) ∧
      e.row.receipt = Rows.receiptOf C h.seed
        ⟨⟨h.exchange, inc, channel⟩, e.seq, e.row.posted, e.row.entryHash, e.row.head⟩
  held : ∀ (seq : Int64) (row : EntryRow), r.entry[seq]? = some row →
    ∃ e ∈ written, e.seq.toInt64 = seq ∧ row.redacted = e.row.redacted

structure Chained (written : List Ordered) (r : Rows) : Prop where
  gapless : ∀ device, Gapless (stepsOf device written)
  standing : ∀ device, r.chainHead device = nextStep (stepsOf device written)

def Counted (written : List Ordered) (r : Rows) : Prop :=
  ∀ device epoch, r.heldMark device epoch = topOf device epoch written

structure Ledger (C : Crypto) (h : Host) (channel inc : Bytes32) (written : List Ordered)
    (r : Rows) : Prop where
  log : Positioned C h channel inc written r
  chains : Chained written r
  counters : Counted written r

theorem headOf_append (C : Crypto) (written : List Ordered) (e : Ordered) :
    headOf C (written ++ [e]) = advance C (headOf C written) e.row.entryHash := by
  simp [headOf]

theorem stepsOf_append (device : PubKey) (written : List Ordered) (e : Ordered) :
    stepsOf device (written ++ [e]) = stepsOf device written ++
      ((stepOf e.row).toList.filter fun s => s.device = device) := by
  cases hstep : stepOf e.row <;> simp [stepsOf, List.filterMap_append, hstep]

theorem nextStep_append (steps : List ChainStep) (s : ChainStep) :
    nextStep (steps ++ [s]) = (UInt64.ofNat steps.length + 1, s.hash) := by
  simp [nextStep, UInt64.ofNat_add]

theorem gapless_nil : Gapless [] := by
  intro before s rest h
  simp at h

theorem gapless_append {steps : List ChainStep} {s : ChainStep} (h : Gapless steps)
    (hnext : (s.chainSeq, s.prev) = nextStep steps) : Gapless (steps ++ [s]) :=
  forall_split_concat.mpr ⟨h, hnext⟩

theorem topOf_append (device : PubKey) (epoch : UInt32) (written : List Ordered) (e : Ordered) :
    topOf device epoch (written ++ [e]) =
      if e.row.kind = kindMember ∧ e.row.device = device ∧ e.row.epoch = epoch
      then some (raised (topOf device epoch written) e.row.msgSeq)
      else topOf device epoch written := by
  by_cases hmine : e.row.kind = kindMember ∧ e.row.device = device ∧ e.row.epoch = epoch
  · simp [topOf, countersOf, List.filter_append, hmine]
  · rw [if_neg hmine]
    simp only [topOf, countersOf, List.filter_append]
    simp [hmine]

theorem stepOf_systemRow {s : System} (hknown : s.event ≠ 0 ∧ s.event ≤ Event.unmuted)
    (now : UInt64) (stamp : Receipted) :
    stepOf (Rows.systemRow now s.encode stamp) =
      if s.event = Event.succeeded then none
      else some ⟨s.actorDevice, s.chainSeq, s.prev, stamp.entryHash⟩ := by
  have hdecode : System.decode (Rows.systemRow now s.encode stamp).body = .ok (some s) :=
    System.decode_encode hknown
  have hkind : (Rows.systemRow now s.encode stamp).kind = kindSystem := rfl
  rw [stepOf, if_pos hkind, hdecode]
  rfl

section Append
variable {C : Crypto} {h : Host} {channel inc : Bytes32} {written : List Ordered}
  {r r₀ r' : Rows} {c : ChannelRow} {e : Ordered}

theorem Positioned.append (hlog : Positioned C h channel inc written r) {posted : UInt64}
    {hash : Bytes32} {row : Receipted → EntryRow}
    (happended : Rows.Appended C h.seed (Rows.place h channel c) posted hash row r₀ r' e c)
    (hentry : r₀.entry = r.entry) (hchannel : r₀.channel = r.channel)
    (hrow : ∀ stamp, (row stamp).stamp = stamp ∧ (row stamp).posted = posted)
    (hfits : written.length + 1 < 2 ^ 64) :
    Positioned C h channel inc (written ++ [e]) r' := by
  have hc : r.channel = some c := hchannel ▸ happended.channel
  have hend := hlog.logEnd
  simp only [Rows.logEnd, hc, Option.map_some, Option.some.injEq, Prod.mk.injEq] at hend
  obtain ⟨hinc, hhead, hnext⟩ := hend
  obtain ⟨hstamp, hposted⟩ := hrow (Rows.stampOf C h.seed (Rows.place h channel c) c posted hash)
  have hseq : e.seq = UInt64.ofNat (written.length + 1) := by
    rw [happended.ordered, hnext]
    rfl
  have hmark : e.row.stamp = Rows.stampOf C h.seed (Rows.place h channel c) c posted hash := by
    rw [happended.ordered]
    exact hstamp
  have hhash : e.row.entryHash = hash := congrArg Receipted.entryHash hmark
  have htop : e.row.head = headOf C (written ++ [e]) := by
    rw [headOf_append, hhash, ← hhead]
    exact congrArg Receipted.head hmark
  constructor
  · rw [Rows.logEnd, happended.rows, headOf_append, hhash, List.length_append]
    simp only [Rows.after, Option.map_some, hinc, hhead, hnext, toUInt64_toInt64]
    simp [UInt64.ofNat_add]
  · have hnat : e.seq.toNat = 1 + written.length := by
      rw [hseq, UInt64.toNat_ofNat']
      omega
    rw [List.map_append, hlog.positions, List.length_append, List.length_singleton,
      List.range'_1_concat, List.map_singleton, hnat]
  · refine forall_split_concat.mpr ⟨hlog.stamped, htop, ?_⟩
    have hreceipt := congrArg Receipted.receipt hmark
    have hposted' : e.row.posted = posted := by rw [happended.ordered, hposted]
    rw [htop, headOf_append, hhash, ← hhead, hposted', happended.ordered, ← hinc]
    rw [happended.ordered] at hreceipt
    exact hreceipt
  · intro seq row' hrow'
    rw [happended.rows] at hrow'
    dsimp only at hrow'
    rw [lookup_insert] at hrow'
    by_cases hnew : c.nextSeq = seq
    · rw [if_pos hnew] at hrow'
      obtain rfl := Option.some.inj hrow'
      refine ⟨e, by simp, ?_, ?_⟩
      · rw [happended.ordered, ← hnew]
        simp
      · rw [happended.ordered]
    · rw [if_neg hnew, hentry] at hrow'
      obtain ⟨e', hmem, hheld⟩ := hlog.held seq row' hrow'
      exact ⟨e', by simp [hmem], hheld⟩

theorem chainHead_insert (r : Rows) (device device' : PubKey) (row : ChainRow) :
    Rows.chainHead { r with chain := r.chain.insert device' row } device =
      if device' = device then (row.chainSeq + 1, row.head) else r.chainHead device := by
  unfold Rows.chainHead
  rw [lookup_insert]
  split_ifs <;> rfl

theorem chainHead_congr (hchain : r'.chain = r.chain) (device : PubKey) :
    r'.chainHead device = r.chainHead device := by
  unfold Rows.chainHead
  rw [hchain]

theorem Chained.append_step (hchains : Chained written r) {s : ChainStep}
    (hstep : stepOf e.row = some s) (hnext : (s.chainSeq, s.prev) = r.chainHead s.device)
    (hchain : r'.chain = r.chain.insert s.device ⟨s.chainSeq, s.hash⟩) :
    Chained (written ++ [e]) r' := by
  have hsteps : ∀ device, stepsOf device (written ++ [e]) =
      stepsOf device written ++ if s.device = device then [s] else [] := by
    intro device
    rw [stepsOf_append, hstep]
    by_cases hmine : s.device = device <;> simp [hmine]
  have hstanding : r.chainHead s.device = nextStep (stepsOf s.device written) :=
    hchains.standing s.device
  constructor
  · intro device
    rw [hsteps]
    by_cases hmine : s.device = device
    · rw [if_pos hmine]
      refine gapless_append (hchains.gapless device) ?_
      rw [hnext, hstanding, hmine]
    · rw [if_neg hmine, List.append_nil]
      exact hchains.gapless device
  · intro device
    rw [chainHead_congr (r := { r with chain := r.chain.insert s.device ⟨s.chainSeq, s.hash⟩ })
      hchain, chainHead_insert, hsteps]
    by_cases hmine : s.device = device
    · have hcount : s.chainSeq = UInt64.ofNat (stepsOf device written).length := by
        rw [← hmine]
        exact congrArg Prod.fst (hnext.trans hstanding)
      rw [if_pos hmine, if_pos hmine, nextStep_append, hcount]
    · rw [if_neg hmine, if_neg hmine, List.append_nil]
      exact hchains.standing device

theorem Chained.append_none (hchains : Chained written r) (hstep : stepOf e.row = none)
    (hchain : r'.chain = r.chain) : Chained (written ++ [e]) r' := by
  have hsteps : ∀ device, stepsOf device (written ++ [e]) = stepsOf device written := by
    intro device
    simp [stepsOf_append, hstep]
  constructor
  · intro device
    rw [hsteps]
    exact hchains.gapless device
  · intro device
    rw [hsteps, chainHead_congr hchain]
    exact hchains.standing device

theorem heldMark_congr (hmarks : r'.highWater = r.highWater) (device : PubKey) (epoch : UInt32) :
    r'.heldMark device epoch = r.heldMark device epoch := by
  unfold Rows.heldMark
  rw [hmarks]

theorem heldMark_bump (r : Rows) (device device' : PubKey) (epoch epoch' : UInt32)
    (msgSeq : UInt64) : (r.bump device epoch msgSeq).heldMark device' epoch' =
      if device = device' ∧ epoch = epoch' then some (raised (r.heldMark device epoch) msgSeq)
      else r.heldMark device' epoch' := by
  unfold Rows.bump Rows.heldMark
  dsimp only
  rw [lookup_insert]
  by_cases hdevice : device = device'
  · obtain rfl := hdevice
    rw [if_pos rfl, Option.bind_some, lookup_insert]
    by_cases hepoch : epoch = epoch'
    · obtain rfl := hepoch
      have hboth : device = device ∧ epoch = epoch := ⟨rfl, rfl⟩
      rw [if_pos rfl, if_pos hboth]
      cases hmarks : r.highWater[device]? <;> simp [raised]
    · rw [if_neg hepoch, if_neg fun h => hepoch h.2]
      cases hmarks : r.highWater[device]? <;> simp
  · rw [if_neg hdevice, if_neg fun h => hdevice h.1]

theorem markOf_le_bump {r : Rows} {device : PubKey} {req : Post} (horder : r.InOrder device req)
    (device' : PubKey) (epoch : UInt32) :
    r.markOf device' epoch ≤ (r.bump device req.epoch req.msgSeq).markOf device' epoch := by
  unfold Rows.markOf
  rw [heldMark_bump]
  split_ifs with hmine
  · obtain ⟨rfl, rfl⟩ := hmine
    unfold Rows.InOrder Rows.markOf at horder
    rw [Option.getD_some, raised]
    cases hheld : r.heldMark device req.epoch with
    | none =>
      rw [Option.getD_none]
      exact UInt64.le_iff_toNat_le.mpr (Nat.zero_le _)
    | some held =>
      rw [hheld] at horder
      dsimp only [Option.getD_some] at horder ⊢
      by_cases hle : req.msgSeq.toInt64 ≤ held
      · rw [if_pos hle]
        exact UInt64.le_refl _
      · rw [if_neg hle]
        exact toUInt64_le_of_lt (Int64.not_le.mp hle) horder
  · exact UInt64.le_refl _

theorem Counted.append_other (hcounted : Counted written r) (hkind : e.row.kind ≠ kindMember)
    (hmarks : r'.highWater = r.highWater) : Counted (written ++ [e]) r' := by
  intro device epoch
  rw [heldMark_congr hmarks, topOf_append, if_neg fun h => hkind h.1]
  exact hcounted device epoch

theorem Counted.append_post (hcounted : Counted written r) (hkind : e.row.kind = kindMember)
    {r₁ : Rows} (hmarks : r₁.highWater = r.highWater)
    (hbump : r' = r₁.bump e.row.device e.row.epoch e.row.msgSeq) :
    Counted (written ++ [e]) r' := by
  intro device epoch
  rw [hbump, heldMark_bump, topOf_append]
  by_cases hmine : e.row.device = device ∧ e.row.epoch = epoch
  · obtain ⟨rfl, rfl⟩ := hmine
    rw [if_pos ⟨rfl, rfl⟩, if_pos ⟨hkind, rfl, rfl⟩, heldMark_congr hmarks, hcounted]
  · rw [if_neg hmine, if_neg fun h => hmine h.2, heldMark_congr hmarks, hcounted]

theorem Ledger.still (hledger : Ledger C h channel inc written r) (hstill : r.Still r') :
    Ledger C h channel inc written r' := by
  refine ⟨⟨hstill.logEnd.trans hledger.log.logEnd, hledger.log.positions, hledger.log.stamped,
    ?_⟩, ⟨hledger.chains.gapless, ?_⟩, ?_⟩
  · intro seq row' hrow'
    obtain ⟨row, hrow, hsame⟩ := hstill.held seq row' hrow'
    obtain ⟨e, hmem, hseq, hheld⟩ := hledger.log.held seq row hrow
    exact ⟨e, hmem, hseq, hsame.trans hheld⟩
  · intro device
    rw [chainHead_congr hstill.chain]
    exact hledger.chains.standing device
  · intro device epoch
    rw [heldMark_congr hstill.highWater]
    exact hledger.counters device epoch

theorem Ledger.acted (hledger : Ledger C h channel inc written r) {s : System} {arg : Bytes}
    {now : UInt64} {input : Bytes} (hknown : s.event ≠ 0 ∧ s.event ≤ Event.unmuted)
    (hstep : s.event ≠ Event.succeeded)
    (hacted : Rows.Acted C h channel s arg now r r' e c input)
    (hfits : written.length + 1 < 2 ^ 64) : Ledger C h channel inc (written ++ [e]) r' := by
  have happended := hacted.appended
  have hstepOf : stepOf e.row = some ⟨s.actorDevice, s.chainSeq, s.prev, link C input⟩ := by
    rw [happended.ordered, stepOf_systemRow hknown, if_neg hstep]
    rfl
  refine ⟨hledger.log.append happended rfl rfl (fun _ => ⟨rfl, rfl⟩) hfits,
    hledger.chains.append_step hstepOf hacted.step ?_, hledger.counters.append_other ?_ ?_⟩
  · rw [happended.rows]
  · rw [happended.ordered]
    exact (by decide : kindSystem ≠ kindMember)
  · rw [happended.rows]

theorem Ledger.succeeded (hledger : Ledger C h channel inc written r) {s : System}
    {now : UInt64} {hash : Bytes32} (hs : s.event = Event.succeeded)
    (happended : Rows.Appended C h.seed (Rows.place h channel c) now hash
      (Rows.systemRow now s.encode) r r' e c)
    (hfits : written.length + 1 < 2 ^ 64) : Ledger C h channel inc (written ++ [e]) r' := by
  have hknown : s.event ≠ 0 ∧ s.event ≤ Event.unmuted := by rw [hs]; decide
  have hstepOf : stepOf e.row = none := by
    rw [happended.ordered, stepOf_systemRow hknown, if_pos hs]
  refine ⟨hledger.log.append happended rfl rfl (fun _ => ⟨rfl, rfl⟩) hfits,
    hledger.chains.append_none hstepOf ?_, hledger.counters.append_other ?_ ?_⟩
  · rw [happended.rows]
  · rw [happended.ordered]
    exact (by decide : kindSystem ≠ kindMember)
  · rw [happended.rows]

theorem Positioned.bump (hlog : Positioned C h channel inc written r) (device : PubKey)
    (epoch : UInt32) (msgSeq : UInt64) :
    Positioned C h channel inc written (r.bump device epoch msgSeq) :=
  ⟨hlog.logEnd, hlog.positions, hlog.stamped, hlog.held⟩

theorem Ledger.posted (hledger : Ledger C h channel inc written r) {account device : PubKey}
    {req : Post} {now : UInt64}
    (hposted : Rows.Posted C h channel account device req now r r' e c)
    (hfits : written.length + 1 < 2 ^ 64) : Ledger C h channel inc (written ++ [e]) r' := by
  obtain ⟨r₁, hbump, happended⟩ := hposted.appended
  have hstepOf : stepOf e.row = some ⟨device, req.chainSeq, req.prev,
      Rows.postHash C (Rows.place h channel c) account device req⟩ := by
    rw [happended.ordered]
    rfl
  have hlog := hledger.log.append happended rfl rfl (fun _ => ⟨rfl, rfl⟩) hfits
  rw [hbump]
  have hkind : e.row.kind = kindMember := by
    rw [happended.ordered]
    rfl
  have hmarks : r₁.highWater = r.highWater := by rw [happended.rows]
  refine ⟨hlog.bump device req.epoch req.msgSeq,
    hledger.chains.append_step hstepOf hposted.step ?_,
    hledger.counters.append_post hkind hmarks ?_⟩
  · rw [Rows.bump, happended.rows]
  · rw [happended.ordered]
    rfl

theorem Ledger.logs {es : List Ordered} (hledger : Ledger C h channel inc written r)
    (hlogs : Rows.Logs C h channel r es r') (hfits : written.length + es.length < 2 ^ 64) :
    Ledger C h channel inc (written ++ es) r' := by
  induction hlogs generalizing written with
  | still hstill => simpa using hledger.still hstill
  | acted hknown hstep hacted => exact hledger.acted hknown hstep hacted hfits
  | succeeded hs happended => exact hledger.succeeded hs happended hfits
  | posted _ hposted => exact hledger.posted hposted hfits
  | trans _ _ ih₁ ih₂ =>
    rw [List.length_append] at hfits
    rw [← List.append_assoc]
    refine ih₂ (ih₁ hledger (by omega)) ?_
    rw [List.length_append]
    omega

theorem markOf_le_of_logs {es : List Ordered} (hlogs : Rows.Logs C h channel r es r')
    (device : PubKey) (epoch : UInt32) : r.markOf device epoch ≤ r'.markOf device epoch := by
  have hsame : ∀ {r r' : Rows}, r'.highWater = r.highWater →
      r.markOf device epoch ≤ r'.markOf device epoch := by
    intro r r' hmarks
    unfold Rows.markOf
    rw [heldMark_congr hmarks]
    exact UInt64.le_refl _
  induction hlogs with
  | still hstill => exact hsame hstill.highWater
  | acted _ _ hacted => exact hsame (by rw [hacted.appended.rows])
  | succeeded _ happended => exact hsame (by rw [happended.rows])
  | @posted r r' e c account poster req now horder hposted =>
    obtain ⟨r₁, rfl, happended⟩ := hposted.appended
    have hmarks : (r₁.bump poster req.epoch req.msgSeq).highWater =
        (r.bump poster req.epoch req.msgSeq).highWater := by
      simp only [Rows.bump, happended.rows]
    exact UInt64.le_trans (markOf_le_bump horder device epoch) (hsame hmarks)
  | trans _ _ ih₁ ih₂ => exact UInt64.le_trans ih₁ ih₂

end Append

end Sqex.Exchange
