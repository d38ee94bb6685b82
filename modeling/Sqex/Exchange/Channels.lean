import Sqex.Lib.Collections
import Sqex.Proto.EntrySig
import Sqex.Proto.Receipt

/-! The exchange's tables for one channel, and the writes a copy makes to them.
Sequence columns are signed 64-bit integers, as the database holds them. -/
namespace Sqex.Exchange
open Std

inductive ChannelError where
  | noSuchChannel | notAMember | notAnAdmin | noReceipts | systemEntry | badSignature
  | brokenChain | notPublic | full | tooManyChannels | wrongEpoch | notPrivate
  | directMessage | noPrekey | noSuchEntry | inviteQuota | badRetention | lastAdmin
  | usedInstance | tooManyReplicas | notAReplica | muted | equivocated | storage
  | wouldPublish | noSuchUpload | noSuchBlob | badChunk | tooManyUploads | blobQuota
  | blobChannels | notHeld
  | staleGeneration (generation : UInt64)
  | originReachable (secs : UInt64)
  | replicated (origin : PubKey)
  | underived (origin : PubKey)
  deriving DecidableEq

def maxEntries : UInt32 := 50000

structure ChannelRow where
  visibility : Visibility
  retentionSecs : UInt32
  maxEntries : UInt32
  name : String
  topic : String
  epoch : UInt32
  nextSeq : Int64
  creator : PubKey
  created : UInt64
  epochAt : UInt64
  incarnation : Bytes32
  head : Bytes32
  /-- Since when a public channel has held nothing and nobody. -/
  emptySince : Option UInt64 := none
  deriving DecidableEq

structure MemberRow where
  role : Role
  joined : UInt64
  present : Bool
  posted : Bool
  muted : Bool
  deriving DecidableEq

structure EntryRow where
  kind : UInt8
  account : PubKey
  device : PubKey
  posted : UInt64
  expiresAfter : UInt32
  epoch : UInt32
  msgSeq : UInt64
  chainSeq : UInt64
  prev : Bytes32
  bodyHash : Bytes32
  sig : Bytes64
  body : Bytes
  entryHash : Bytes32
  head : Bytes32
  receipt : Bytes64
  deriving DecidableEq

def EntryRow.of (e : Entry) (stamp : Receipted) : EntryRow where
  kind := e.kind
  account := e.account
  device := e.device
  posted := e.posted
  expiresAfter := e.expiresAfter
  epoch := e.epoch
  msgSeq := e.msgSeq
  chainSeq := e.chainSeq
  prev := e.prev
  bodyHash := e.bodyHash
  sig := e.sig
  body := e.body
  entryHash := stamp.entryHash
  head := stamp.head
  receipt := stamp.receipt

def EntryRow.stamp (r : EntryRow) : Receipted := ⟨r.entryHash, r.head, r.receipt⟩

def EntryRow.entry (r : EntryRow) (seq : UInt64) : Entry where
  seq := seq
  kind := r.kind
  account := r.account
  device := r.device
  posted := r.posted
  expiresAfter := r.expiresAfter
  epoch := r.epoch
  msgSeq := r.msgSeq
  chainSeq := r.chainSeq
  prev := r.prev
  bodyHash := r.bodyHash
  sig := r.sig
  stamp := some r.stamp
  body := r.body

structure ChainRow where
  chainSeq : UInt64
  head : Bytes32
  deriving DecidableEq

/-- A channel held as a copy, and the origin it is pulled from. -/
structure ReplicatedRow where
  origin : PubKey
  windowSecs : UInt32
  derivable : Bool
  equivocation : Option Bytes
  shaped : Bool
  originDomain : String
  deriving DecidableEq

structure StrandedRow where
  account : PubKey
  body : Bytes
  posted : UInt64
  deriving DecidableEq

structure OriginRow where
  origin : PubKey
  movedAt : UInt64
  deriving DecidableEq

structure Rows where
  channel : Option ChannelRow
  member : ExtTreeMap PubKey MemberRow
  entry : ExtTreeMap Int64 EntryRow
  chain : ExtTreeMap PubKey ChainRow
  replica : ExtTreeSet PubKey
  replicated : Option ReplicatedRow
  originHistory : ExtTreeMap Int64 OriginRow
  stranded : ExtTreeMap Int64 StrandedRow
  highWater : ExtTreeMap PubKey (ExtTreeMap UInt32 Int64)

structure Channels where
  exchange : PubKey
  rows : Bytes32 → Rows

def Channels.put (st : Channels) (channel : Bytes32) (rows : Rows) : Channels :=
  { st with rows := Function.update st.rows channel rows }

@[simp] theorem Channels.put_rows (st : Channels) (channel : Bytes32) (rows : Rows) :
    (st.put channel rows).rows channel = rows := by
  simp [put]

theorem Channels.put_elsewhere (st : Channels) (rows : Rows) {channel other : Bytes32}
    (h : other ≠ channel) : (st.put channel rows).rows other = st.rows other := by
  simp [put, h]

namespace Rows

def empty : Rows where
  channel := none
  member := ∅
  entry := ∅
  chain := ∅
  replica := ∅
  replicated := none
  originHistory := ∅
  stranded := ∅
  highWater := ∅

section
variable (r : Rows) (who : PubKey)

def isAdmin : Bool :=
  r.member[who]?.any fun m => m.role == .admin

def originRow : Option PubKey := r.replicated.map (·.origin)

/-- The lowest and highest sequence number held, 0 when none is. -/
def window : UInt64 × UInt64 :=
  let seqs := r.entry.toList.map Prod.fst
  ((seqs.head?.getD 0).toUInt64, (seqs.getLast?.getD 0).toUInt64)

def highest : UInt64 := r.window.2

def stampAt (seq : UInt64) : Option Branch :=
  r.entry[seq.toInt64]?.map fun row => ⟨row.posted, row.entryHash, row.head, row.receipt⟩

/-- Drop the channel: its log, roster and marks. Its history of origins, its
replicas and what is stranded stay. -/
def destroy : Rows :=
  { r with channel := none, member := ∅, entry := ∅, chain := ∅, highWater := ∅ }

def adopt (incarnation : Bytes32) (origin : PubKey) (windowSecs : UInt32) (now : UInt64) :
    Except ChannelError Rows :=
  let fresh : ChannelRow :=
    { visibility := .priv, retentionSecs := maxRetention, maxEntries, name := "", topic := "",
      epoch := 0, nextSeq := 1, creator := origin, created := now, epochAt := 0, incarnation,
      head := headGenesis }
  let mark (r : Rows) : Rows :=
    { r with
      channel := some (r.channel.getD fresh)
      replicated := some (match r.replicated with
        | some row => { row with origin, windowSecs }
        | none => { origin, windowSecs, derivable := false, equivocation := none,
                    shaped := false, originDomain := "" }) }
  match r.channel, r.replicated with
  | some _, none => .error .notAMember
  | some held, some _ =>
    if held.incarnation ≠ incarnation then .ok (mark { r.destroy with replicated := none })
    else .ok (mark r)
  | none, _ => .ok (mark r)

def seat (role : Role) (joined : UInt64) : Rows :=
  { r with member := r.member.insert who (match r.member[who]? with
    | some m => { m with present := true }
    | none => { role, joined, present := true, posted := false, muted := false }) }

def alter (f : MemberRow → MemberRow) : Rows :=
  match r.member[who]? with
  | some m => { r with member := r.member.insert who (f m) }
  | none => r

def moveMember (account successor : PubKey) (role : Role) (now : UInt64) : Rows :=
  let seated := r.member.insert successor (match r.member[successor]? with
    | some m => { m with role := m.role.max role, present := true }
    | none => { role, joined := now, present := true, posted := false, muted := false })
  { r with member := seated.erase account }

end

end Rows

def successionContext : Bytes := "sqex-succession-v1".toUTF8.toList

def willInput (C : Crypto) (account successor : PubKey) (issued : UInt64) : Bytes :=
  successionContext ++ Bytes32.toBytes (C.sha256
    (successionContext ++ [0x01] ++ Bytes32.toBytes account ++ Bytes32.toBytes successor ++
      beBytes 8 issued.toNat))

/-- Whether a succession entry carries its old key's will. -/
def entryVerifies (C : Crypto) (s : System) : Bool :=
  s.actor != s.subject && C.checks s.actor (willInput C s.actor s.subject s.chainSeq) s.sig

namespace Rows

section
variable (C : Crypto) (self : PubKey) (r : Rows) (s : System) (seq posted : UInt64)

/-- Apply one membership action to a copy's roster. -/
def deriveMembership : Rows :=
  if s.event = Event.created then
    { r with member := r.member.insert s.actor (match r.member[s.actor]? with
      | some m => { m with role := .admin, present := true }
      | none => { role := .admin, joined := posted, present := true, posted := false,
                  muted := false }) }
  else if s.event = Event.added ∨ s.event = Event.joined then
    (r.seat s.subject .member posted).alter s.subject fun m => { m with muted := false }
  else if s.event = Event.muted ∨ s.event = Event.unmuted then
    r.alter s.subject fun m => { m with muted := s.event == Event.muted }
  else if s.event = Event.promoted then r.seat s.subject .admin posted
  else if s.event = Event.demoted then r.seat s.subject .member posted
  else if s.event = Event.rotated then
    { r with channel := r.channel.map fun c => { c with epoch := c.epoch + 1, epochAt := posted } }
  else if s.event = Event.left ∨ s.event = Event.removed then
    r.alter s.subject fun m => { m with present := false, muted := false }
  else if s.event = Event.succeeded ∧ entryVerifies C s = true then
    let role := (r.member[s.actor]?.map (·.role)).getD .member
    r.moveMember s.actor s.subject role posted
  else r

def standOn (row : EntryRow) : Rows :=
  if row.kind = kindSystem then
    match System.decode row.body with
    | .ok (some s) =>
      if s.event ≠ Event.succeeded then
        { r with chain := r.chain.insert s.actorDevice ⟨s.chainSeq, row.entryHash⟩ }
      else r
    | _ => r
  else
    let r := { r with chain := r.chain.insert row.device ⟨row.chainSeq, row.entryHash⟩ }
    if row.kind = kindMember then
      let marks := r.highWater[row.device]?.getD ∅
      let held := marks[row.epoch]?.getD row.msgSeq.toInt64
      let top := if row.msgSeq.toInt64 ≤ held then held else row.msgSeq.toInt64
      { r with highWater := r.highWater.insert row.device (marks.insert row.epoch top) }
    else r

/-- Becoming the origin: chains and counters again, from the entries held. -/
def rebuildStanding : Rows :=
  r.entry.toList.foldl (fun r row => r.standOn row.2) { r with chain := ∅ }

def lastRehome : Option (UInt64 × UInt64) :=
  let moves := r.originHistory.toList.filter fun h => decide (1 < h.1)
  moves.getLast?.map fun h => (h.1.toUInt64, h.2.movedAt)

/-- Record who orders the channel from a position on, and, at the first move,
who ordered it until then. -/
def recordOrigin (fromSeq : UInt64) (origin outgoing : PubKey) (now : UInt64) : Rows :=
  { r with originHistory :=
      (r.originHistory.insertIfNew 1 ⟨outgoing, 0⟩).insert fromSeq.toInt64 ⟨origin, now⟩ }

/-- The constitution is held: the roster is derived and not guessed at. -/
def markDerivable : Rows :=
  if s.event = Event.created then
    { r with replicated := r.replicated.map fun row => { row with derivable := true } }
  else r

/-- The copies an admin authorised or withdrew. -/
def deriveReplica : Rows :=
  if s.event = Event.replicate then { r with replica := r.replica.insert s.subject }
  else if s.event = Event.unreplicate then { r with replica := r.replica.erase s.subject }
  else r

/-- The origin moved: to this exchange, which stops following, or elsewhere. -/
def deriveRehome : Rows :=
  if s.event = Event.rehomed then
    let outgoing := r.originRow.getD self
    let r := if s.subject = self then { r with replicated := none }.rebuildStanding
      else { r with replicated := r.replicated.map fun row =>
              { row with origin := s.subject, originDomain := "" } }
    r.recordOrigin (seq + 1) s.subject outgoing posted
  else r

def deriveSystem : Rows :=
  (((r.deriveMembership C s posted).markDerivable s).deriveReplica s).deriveRehome self s seq
    posted

/-- A copy's head follows the origin's, and stays where an entry fills in below. -/
def advanceHead (head : Bytes32) (next : UInt64) : Rows :=
  { r with channel := r.channel.map fun c => { c with
      head := if next.toInt64 ≥ c.nextSeq then head else c.head
      nextSeq := if next.toInt64 ≥ c.nextSeq then next.toInt64 else c.nextSeq } }

def record (e : Entry) : Option System :=
  if e.kind = kindSystem then
    match System.decode e.body with
    | .ok s => s
    | .error _ => none
  else none

def storePulled (e : Entry) (stamp : Receipted) : Rows × Bool :=
  if e.seq.toInt64 ∈ r.entry then (r, false)
  else
    let r := { r with entry := r.entry.insert e.seq.toInt64 (.of e stamp) }
    let r := match record e with
      | some s => r.deriveSystem C self s e.seq e.posted
      | none => r
    (r.advanceHead stamp.head (e.seq + 1), true)

/-- Keep the first proof that the origin contradicted itself. -/
def recordEquivocation (proof : Bytes) : Rows :=
  { r with replicated := r.replicated.map fun row =>
      { row with equivocation := some (row.equivocation.getD proof) } }

/-- Where the log ends: the head, and the position the next entry takes. -/
def tip : Option (Bytes32 × Int64) := r.channel.map fun c => (c.head, c.nextSeq)

/-- Two states of a channel that differ at most in who is in it. -/
structure SameLog (r' : Rows) : Prop where
  entry : r'.entry = r.entry
  replicated : r'.replicated = r.replicated
  tip : r'.tip = r.tip

theorem SameLog.refl : SameLog r r := ⟨rfl, rfl, rfl⟩

theorem SameLog.trans {r₁ r₂ r₃ : Rows} (h₁ : SameLog r₁ r₂) (h₂ : SameLog r₂ r₃) :
    SameLog r₁ r₃ :=
  ⟨h₂.entry.trans h₁.entry, h₂.replicated.trans h₁.replicated, h₂.tip.trans h₁.tip⟩

theorem alter_sameLog (who : PubKey) (f : MemberRow → MemberRow) : SameLog r (r.alter who f) := by
  unfold alter
  split
  · exact ⟨rfl, rfl, rfl⟩
  · exact SameLog.refl r

theorem deriveMembership_sameLog : SameLog r (r.deriveMembership C s posted) := by
  unfold deriveMembership
  split_ifs
  · exact ⟨rfl, rfl, rfl⟩
  · exact (SameLog.mk rfl rfl rfl : SameLog r (r.seat s.subject .member posted)).trans
      (alter_sameLog _ _ _)
  · exact alter_sameLog _ _ _
  · exact ⟨rfl, rfl, rfl⟩
  · exact ⟨rfl, rfl, rfl⟩
  · exact ⟨rfl, rfl, by simp [tip, Function.comp_def]⟩
  · exact alter_sameLog _ _ _
  · exact ⟨rfl, rfl, rfl⟩
  · exact SameLog.refl r

theorem rebuildStanding_frame :
    ∃ chain marks, r.rebuildStanding = { r with chain := chain, highWater := marks } := by
  have hstand : ∀ (r' : Rows) (row : EntryRow),
      ∃ chain marks, r'.standOn row = { r' with chain := chain, highWater := marks } := by
    intro r' row
    unfold standOn
    split_ifs
    · split
      · split_ifs <;> exact ⟨_, _, rfl⟩
      · exact ⟨_, _, rfl⟩
    · exact ⟨_, _, rfl⟩
    · exact ⟨_, _, rfl⟩
  have hfold : ∀ (rows : List (Int64 × EntryRow)) (chain : ExtTreeMap PubKey ChainRow)
      (marks : ExtTreeMap PubKey (ExtTreeMap UInt32 Int64)), ∃ chain' marks',
      rows.foldl (fun (r : Rows) row => r.standOn row.2)
          { r with chain := chain, highWater := marks } =
        { r with chain := chain', highWater := marks' } := by
    intro rows
    induction rows with
    | nil => exact fun chain marks => ⟨chain, marks, rfl⟩
    | cons row rows ih =>
      intro chain marks
      obtain ⟨chain', marks', hrow⟩ := hstand { r with chain := chain, highWater := marks } row.2
      rw [List.foldl_cons, hrow]
      exact ih chain' marks'
  exact hfold _ _ _

theorem rebuildStanding_sameLog : SameLog r r.rebuildStanding := by
  obtain ⟨chain, marks, hframe⟩ := r.rebuildStanding_frame
  rw [hframe]
  exact ⟨rfl, rfl, rfl⟩

def orderedBy : PubKey := r.originRow.getD self

/-- The origin a rehome record leaves a copy with: none where it is this
exchange, which becomes the origin. -/
def movedTo : Option PubKey :=
  if s.subject = self then none else some s.subject

/-- The origin followed once a record is applied: only a rehome moves it, and
only where one was followed. -/
def originAfter : Option PubKey :=
  if s.event = Event.rehomed then r.originRow.bind fun _ => movedTo self s else r.originRow

theorem markDerivable_spec :
    (r.markDerivable s).entry = r.entry ∧ (r.markDerivable s).tip = r.tip ∧
      (r.markDerivable s).originRow = r.originRow := by
  unfold markDerivable
  split_ifs
  · exact ⟨rfl, rfl, by simp [originRow, Function.comp_def]⟩
  · exact ⟨rfl, rfl, rfl⟩

theorem deriveReplica_sameLog : SameLog r (r.deriveReplica s) := by
  unfold deriveReplica
  split_ifs <;> exact ⟨rfl, rfl, rfl⟩

theorem deriveRehome_spec :
    (r.deriveRehome self s seq posted).entry = r.entry ∧
      (r.deriveRehome self s seq posted).tip = r.tip ∧
      (r.deriveRehome self s seq posted).originRow = r.originAfter self s := by
  unfold deriveRehome originAfter movedTo
  split_ifs with hevent hself
  · have hsame := rebuildStanding_sameLog { r with replicated := none }
    refine ⟨hsame.entry, hsame.tip, ?_⟩
    simp [originRow, recordOrigin, hsame.replicated]
  · refine ⟨rfl, rfl, ?_⟩
    cases hrow : r.replicated <;> simp [originRow, recordOrigin, hrow]
  · exact ⟨rfl, rfl, rfl⟩

theorem deriveSystem_spec :
    (r.deriveSystem C self s seq posted).entry = r.entry ∧
      (r.deriveSystem C self s seq posted).tip = r.tip ∧
      (r.deriveSystem C self s seq posted).originRow = r.originAfter self s := by
  have hmember := deriveMembership_sameLog C r s posted
  obtain ⟨hentry, htip, horigin⟩ := markDerivable_spec (r.deriveMembership C s posted) s
  have hreplica := deriveReplica_sameLog ((r.deriveMembership C s posted).markDerivable s) s
  obtain ⟨hentry', htip', horigin'⟩ := deriveRehome_spec self
    (((r.deriveMembership C s posted).markDerivable s).deriveReplica s) s seq posted
  have hrow : (((r.deriveMembership C s posted).markDerivable s).deriveReplica s).originRow =
      r.originRow := by
    rw [originRow, hreplica.replicated, ← originRow, horigin, originRow, hmember.replicated]
    rfl
  refine ⟨?_, ?_, ?_⟩
  · rw [deriveSystem, hentry', hreplica.entry, hentry, hmember.entry]
  · rw [deriveSystem, htip', hreplica.tip, htip, hmember.tip]
  · rw [deriveSystem, horigin', originAfter, hrow, originAfter]

end

theorem advanceHead_tip {r r' : Rows} (h : r'.tip = r.tip) (head : Bytes32) (next : UInt64) :
    (r'.advanceHead head next).tip = (r.advanceHead head next).tip := by
  have hmap : ∀ r : Rows, (r.advanceHead head next).tip = r.tip.map fun p =>
      (if next.toInt64 ≥ p.2 then head else p.1,
        if next.toInt64 ≥ p.2 then next.toInt64 else p.2) := by
    intro r
    simp [tip, advanceHead, Function.comp_def]
  rw [hmap, hmap, h]

/-- What storing an entry at a free position leaves: its row added and no other
touched, the head advanced, and the origin its record names. -/
structure Stored (here : PubKey) (r r' : Rows) (e : Entry) (stamp : Receipted) : Prop where
  entry : r'.entry = r.entry.insert e.seq.toInt64 (.of e stamp)
  tip : r'.tip = (r.advanceHead stamp.head (e.seq + 1)).tip
  origin : r'.originRow = (record e).elim r.originRow (originAfter here r)

theorem storePulled_held {r : Rows} {e : Entry} (h : e.seq.toInt64 ∈ r.entry) (C : Crypto)
    (self : PubKey) (stamp : Receipted) : r.storePulled C self e stamp = (r, false) := by
  simp [storePulled, h]

theorem storePulled_free {r : Rows} {e : Entry} (h : e.seq.toInt64 ∉ r.entry) (C : Crypto)
    (self : PubKey) (stamp : Receipted) :
    Stored self r (r.storePulled C self e stamp).1 e stamp := by
  rw [storePulled, if_neg h]
  cases hrecord : record e with
  | none => exact ⟨rfl, rfl, by rw [hrecord]; rfl⟩
  | some s =>
    obtain ⟨hentry, htip, horigin⟩ := deriveSystem_spec C self
      { r with entry := r.entry.insert e.seq.toInt64 (.of e stamp) } s e.seq e.posted
    refine ⟨hentry, advanceHead_tip htip _ _, ?_⟩
    rw [hrecord]
    exact horigin

end Rows
end Sqex.Exchange
