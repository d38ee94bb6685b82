import Sqex.Chat.Shelf
import Sqex.Chat.Verdict

/-! A run of entries taken in: each is opened, judged, kept and folded into the timeline, in
the order it was served. -/
namespace Sqex.Chat
open Std

/-- What reading an entry rests on: the cryptography, and what the bytes of a body say. -/
structure Reader where
  crypto : Crypto
  decodeBody : Bytes → Option Body

structure Terms where
  sight : Sight
  bound : Bindings
  admins : List PubKey
  /-- Whether a receipted entry is kept as served. -/
  keepSigned : Bool

structure Served where
  now : UInt64
  entry : Entry
  deriving DecidableEq

structure Folding where
  shelf : Shelf
  timeline : Timeline
  replay : Finset Counter
  chains : Chains
  lastHead : Option (UInt64 × Bytes32)
  last : UInt64
  committed : Bool
  /-- Whether a receipt verified under no key, and the home is to be asked again. -/
  reask : Bool
  moved : List (UInt64 × PubKey)
  judged : List (Entry × Verdict)

section
variable (C : Crypto) (e : Entry)

def Folding.start (shelf : Shelf) (timeline : Timeline) (since : UInt64) : Folding where
  shelf := shelf
  timeline := timeline
  replay := shelf.seen
  chains := fun _ => none
  lastHead := none
  last := since
  committed := false
  reask := false
  moved := []
  judged := []

def counterOf : Counter := (e.device, e.epoch, e.msgSeq)

def commitOf : Option Commit :=
  if e.kind = kindMember ∧ e.body ≠ [] then
    commitSignedIn C e.body e.account e.device
  else none

/-- Whether a counter is asked of the replay set: a sealed entry's, and no commit's. -/
def countered : Bool :=
  e.kind == kindMember && (commitOf C e).isNone

def plainOf (channel : Bytes32) (s : Shelf) (e : Entry) : Option Bytes :=
  if (commitOf C e).isSome ∨ e.epoch = 0 then some e.body
  else (s.channelKey[e.epoch]?).bind fun key =>
    ChannelKey.open' C key channel e.epoch e.device e.msgSeq e.body

def runsOut : UInt64 := e.posted + e.expiresAfter.toUInt64

/-- Whether a timed entry is past its time. -/
def ranOut (now : UInt64) (e : Entry) : Bool := e.expiresAfter > 0 && now ≥ runsOut e

/-- An entry nobody signed for, as the timeline is told of it. -/
def forgedReceived (standing : Sqex.Standing) : Received where
  seq := e.seq
  account := e.account
  posted := e.posted
  kind := e.kind
  body := none
  tombstone := e.body = []
  verdict := .forged
  standing := standing
  system := none
  commit := none

def systemOf (plain : Option Bytes) : Option System :=
  if e.kind = kindSystem then
    plain.bind fun p => match System.decode p with
      | .ok system => system
      | .error _ => none
  else none

def bodyOf (R : Reader) (e : Entry) (plain : Option Bytes) : Option Body :=
  if (commitOf R.crypto e).isNone then plain.bind R.decodeBody else none

def receivedOf (R : Reader) (e : Entry) (plain : Option Bytes) (verdict : Verdict)
    (standing : Sqex.Standing) : Received where
  seq := e.seq
  account := e.account
  posted := e.posted
  kind := e.kind
  body := bodyOf R e plain
  tombstone := e.body = []
  verdict := verdict
  standing := standing
  system := systemOf e plain
  commit := commitOf R.crypto e

/-- The row an entry is kept as. A tombstone is kept as empty and not as unread. -/
def rowOf (plain : Option Bytes) : MessageRow :=
  ⟨e.account, e.posted, e.kind, if e.body = [] then some [] else plain⟩

end

namespace Shelf

def keep (C : Crypto) (s : Shelf) (keepSigned : Bool) (e : Entry) (plain : Option Bytes) : Shelf :=
  let s := if keepSigned ∧ e.stamp.isSome then s.putEntry e else s
  let s := s.putMessage e.seq (rowOf e plain)
  let s := if e.expiresAfter > 0 then s.noteTimer e.seq (runsOut e) else s
  let s := if e.body = [] then s.redactMessage e.seq else s
  match commitOf C e with
  | some c => s.putCommit e.seq c
  | none => s

/-- The words go from disk as well, where the fold honoured the redaction. -/
def honour (s : Shelf) (t : Timeline) (body : Option Body) : Shelf :=
  match body with
  | some (.redact target) =>
    if t.messages[target]?.any (·.redacted) then s.redactMessage target else s
  | _ => s

end Shelf

namespace Folding

def keep (R : Reader) (t : Terms) (f : Folding) (e : Entry) (plain : Option Bytes)
    (verdict : Verdict) (standing : Sqex.Standing) : Folding :=
  let timeline := f.timeline.apply (receivedOf R e plain verdict standing) t.admins
  { f with
    shelf := (f.shelf.keep R.crypto t.keepSigned e plain).honour timeline (bodyOf R e plain)
    timeline := timeline
    committed := f.committed || (commitOf R.crypto e).isSome
    moved := f.moved ++ ((systemOf e plain).toList.filter fun sys => sys.event == Event.rehomed).map
      fun sys => (e.seq, sys.subject) }

def judge (R : Reader) (t : Terms) (f : Folding) (now : UInt64) (e : Entry)
    (plain : Option Bytes) : Folding :=
  let judged := verdictFor R.crypto t.sight t.bound e f.chains
  let held := (f.lastHead.filter fun h => h.1 + 1 == e.seq).map Prod.snd
  let standing := standingUnder R.crypto t.sight e held
  let f := { f with
    shelf :=
      if plain.isSome ∧ e.kind = kindMember then f.shelf.recordSeen (counterOf e) else f.shelf
    chains := judged.2
    lastHead := (e.stamp.map fun stamp => (e.seq, stamp.head)) <|> f.lastHead
    reask := f.reask || standing == .repudiated
    judged := f.judged ++ [(e, judged.1)] }
  if judged.1 = .forged then
    { f with timeline := f.timeline.apply (forgedReceived e standing) t.admins }
  else if ranOut now e then f
  else f.keep R t e plain judged.1 standing

def take (R : Reader) (t : Terms) (f : Folding) (i : Served) : Folding :=
  let f := { f with last := max f.last i.entry.seq }
  if countered R.crypto i.entry ∧ counterOf i.entry ∈ f.replay then f
  else
    let f := { f with
      replay :=
        if countered R.crypto i.entry then insert (counterOf i.entry) f.replay else f.replay }
    f.judge R t i.now i.entry (plainOf R.crypto t.sight.channel f.shelf i.entry)

section
variable (R : Reader) (t : Terms) (f : Folding) (now : UInt64) (e : Entry) (plain : Option Bytes)

@[simp] theorem judge_judged : (f.judge R t now e plain).judged =
    f.judged ++ [(e, (verdictFor R.crypto t.sight t.bound e f.chains).1)] := by
  simp only [judge]
  split_ifs <;> rfl

@[simp] theorem judge_chains : (f.judge R t now e plain).chains =
    (verdictFor R.crypto t.sight t.bound e f.chains).2 := by
  simp only [judge]
  split_ifs <;> rfl

@[simp] theorem judge_replay : (f.judge R t now e plain).replay = f.replay := by
  simp only [judge]
  split_ifs <;> rfl

@[simp] theorem judge_reask : (f.judge R t now e plain).reask = (f.reask ||
    standingUnder R.crypto t.sight e
      ((f.lastHead.filter fun h => h.1 + 1 == e.seq).map Prod.snd) == .repudiated) := by
  simp only [judge]
  split_ifs <;> rfl

@[simp] theorem judge_last : (f.judge R t now e plain).last = f.last := by
  simp only [judge]
  split_ifs <;> rfl

end

end Folding

/-- The entries a replay set lets through. -/
def passing (C : Crypto) : Finset Counter → List Served → List Served
  | _, [] => []
  | replay, i :: is =>
    if countered C i.entry ∧ counterOf i.entry ∈ replay then passing C replay is
    else i :: passing C
      (if countered C i.entry then insert (counterOf i.entry) replay else replay) is

/-! The end of a run: the commits it brought may key the epochs their secrets are held for. -/

def firstTaken (C : Crypto) (chain : Agreement.Chain) (secret : Bytes32) (commits : List Commit) :
    Option (Bytes32 × Agreement.Chain) :=
  commits.findSome? fun c => match Agreement.Chain.advance C c secret chain with
    | (.ok key, attempt) => some (key, attempt)
    | (.error _, _) => none

def advanceTo (C : Crypto) (ceiling : UInt32) : Nat → Agreement.Chain → Shelf →
    Agreement.Chain × Shelf
  | 0, chain, s => (chain, s)
  | fuel + 1, chain, s =>
    if chain.epoch < ceiling then
      match s.contribution[chain.epoch + 1]? with
      | none => (chain, s)
      | some secret =>
        match firstTaken C chain secret (s.commitsAt (chain.epoch + 1)) with
        | none => (chain, s)
        | some (key, attempt) =>
          advanceTo C ceiling fuel attempt
            ((((s.putKey (chain.epoch + 1) key).setAgreement attempt).dropContribution
              (chain.epoch + 1)).rewind)
    else (chain, s)

/-- Derive every epoch both halves of which are held. Each step takes the chain one epoch on. -/
def advanceAgreement (C : Crypto) (s : Shelf) : Shelf :=
  match s.agreement with
  | none => s
  | some chain =>
    let done := advanceTo C s.highestCommit s.highestCommit.toNat chain s
    done.2.forgetContributionsTo done.1.epoch

def foldRun (R : Reader) (t : Terms) (f : Folding) (entries : List Served) : Folding :=
  entries.foldl (Folding.take R t) f

theorem foldRun_cons {R : Reader} {t : Terms} (f : Folding) (i : Served) (is : List Served) :
    foldRun R t f (i :: is) = foldRun R t (f.take R t i) is :=
  rfl

/-- A run takes up what its replay set lets through, one entry after another; of what it does not
let through it notes only how far it got. -/
theorem foldRun_rule {R : Reader} {t : Terms} {P : Folding → List Served → Folding → Prop}
    (nil : ∀ f, P f [] f) (skip : ∀ f last is after, P { f with last } is after → P f is after)
    (through : ∀ f i is after, ¬(countered R.crypto i.entry = true ∧ counterOf i.entry ∈ f.replay) →
      P (f.take R t i) is after → P f (i :: is) after)
    (f : Folding) (entries : List Served) :
    P f (passing R.crypto f.replay entries) (foldRun R t f entries) := by
  induction entries generalizing f with
  | nil => exact nil f
  | cons i is ih =>
    have htaken := ih (f.take R t i)
    rw [foldRun_cons, passing]
    by_cases hskip : countered R.crypto i.entry = true ∧ counterOf i.entry ∈ f.replay
    · simp only [Folding.take, if_pos hskip] at htaken ⊢
      exact skip f _ _ _ htaken
    · have hreplay : (f.take R t i).replay = if countered R.crypto i.entry then
          insert (counterOf i.entry) f.replay else f.replay := by
        simp only [Folding.take, if_neg hskip, Folding.judge_replay]
      rw [hreplay] at htaken
      rw [if_neg hskip]
      exact through f i _ _ hskip htaken

/-- Take in a run of entries. The incarnation they were checked against is noted once. -/
def foldEntries (R : Reader) (t : Terms) (shelf : Shelf) (timeline : Timeline) (since : UInt64)
    (entries : List Served) : Folding :=
  let shelf := if t.sight.inst ≠ 0 ∧ shelf.incarnation = none then
      { shelf with incarnation := some ⟨t.sight.inst, false⟩ }
    else shelf
  let f := foldRun R t (.start shelf timeline since) entries
  if f.committed then { f with shelf := advanceAgreement R.crypto f.shelf } else f

def Shelf.noteCommit (C : Crypto) (s : Shelf) (e : Entry) : Shelf :=
  match commitOf C e with
  | some c => s.putCommit e.seq c
  | none => s

/-- Keep the commits a run of entries carries, without folding it. -/
def noteCommits (C : Crypto) (shelf : Shelf) (entries : List Served) : Shelf :=
  entries.foldl (fun s i => s.noteCommit C i.entry) shelf

end Sqex.Chat
