import Sqex.Chat.Shelves
import Sqex.Chat.Untraced
import Sqex.Lib.Runs

/-! Timed messages: what a client's store holds of each channel, what it was written of, and when
it goes. -/
namespace Sqex.Chat
open Std

structure StrandedRow where
  posted : UInt64
  fork : UInt64
  plain : Bytes
  deriving DecidableEq

def Folding.keeps (R : Reader) (t : Terms) (f : Folding) (i : Served) : Bool :=
  !(countered R.crypto i.entry && decide (counterOf i.entry ∈ f.replay)) &&
    (verdictFor R.crypto t.sight t.bound i.entry f.chains).1 != .forged && !ranOut i.now i.entry

def keptOf (R : Reader) (t : Terms) : Folding → List Served → List Entry
  | _, [] => []
  | f, i :: is => (if f.keeps R t i then [i.entry] else []) ++ keptOf R t (f.take R t i) is

namespace Shelf

def reset (s : Shelf) (origin : PubKey) : Shelf :=
  { s.archived origin with
    message := ∅, entry := ∅, seen := ∅, channelKey := ∅, cursor := none, chain := none }

def posted (s : Shelf) (e : Entry) (plain : Bytes) : Shelf :=
  let s := s.putMessage e.seq ⟨e.account, e.posted, kindMember, some plain⟩
  if e.expiresAfter > 0 then s.noteTimer e.seq (runsOut e) else s

/-- Keys, cursors and whatever else lies beside the messages, as other statements leave it. A
rewind is one. -/
def beside (s other : Shelf) : Shelf :=
  { s with
    toFiled := other.toFiled
    seen := other.seen
    agreement := other.agreement
    contribution := other.contribution
    channelMeta := other.channelMeta }

end Shelf

/-! A sibling's entries of an incarnation that ended. -/

/-- Whether a receipt is one of the exchange's that ordered the entry. -/
def vouchedFor (C : Crypto) (v : Sight) (e : Entry) : Bool :=
  let standing := standingUnder C v e none
  standing == .vouched || standing == .unlinked

def Archived.takes (C : Crypto) (v : Sight) (bound : Bindings) (a : Archived) (chains : Chains)
    (e : Entry) : Bool :=
  (a.entries[e.seq.toInt64]?).isNone && vouchedFor C v e &&
    (verdictFor C v bound e chains).1 != .forged

/-- Keep an entry of a generation, opened where its key is held. Its timer is not looked at. -/
def Archived.keep (C : Crypto) (channel : Bytes32) (a : Archived) (e : Entry) : Archived :=
  let plain := if e.epoch = 0 then some e.body else
    (a.keys[e.epoch]?).bind fun key =>
      ChannelKey.open' C key channel e.epoch e.device e.msgSeq e.body
  let row := rowOf e plain
  { a with
    entries := a.entries.insertIfNew e.seq.toInt64 e
    messages := a.messages.insert e.seq.toInt64
      ((a.messages[e.seq.toInt64]?.map (·.again row)).getD row) }

def Archived.import' (C : Crypto) (v : Sight) (bound : Bindings) :
    Archived → Chains → List Entry → Archived × List Entry
  | a, _, [] => (a, [])
  | a, chains, e :: es =>
    let asked := (a.entries[e.seq.toInt64]?).isNone && vouchedFor C v e
    let after := if asked then (verdictFor C v bound e chains).2 else chains
    if a.takes C v bound chains e then
      let rest := (a.keep C v.channel e).import' C v bound after es
      (rest.1, e :: rest.2)
    else a.import' C v bound after es

def importEarlier (C : Crypto) (v : Sight) (bound : Bindings) (origin : PubKey) (s : Shelf)
    (entries : List Entry) : Shelf × List Entry :=
  if entries = [] then (s, [])
  else match s.history.find? (·.inst = v.inst) with
    | some a =>
      let done := a.import' C v bound (fun _ => none) entries
      let replaced := fun b : Archived => if b.generation = a.generation then done.1 else b
      ({ s with history := s.history.map replaced }, done.2)
    | none =>
      let new : Archived := ⟨s.nextGeneration, v.inst, origin, ∅, ∅, ∅⟩
      let done := new.import' C v bound (fun _ => none) entries
      ({ s with history := s.history ++ [done.1] }, done.2)

/-! A fork: what is held above it is forgotten, and this device's own posts are put aside. -/

structure Fork where
  fork : UInt64
  former : Sight
  current : Sight
  same : Bool
  me : PubKey

/-- Whether an entry held above a fork is of the losing side. -/
def Fork.loses (C : Crypto) (x : Fork) (e : Entry) : Bool :=
  vouchedFor C x.former e && (x.same || !vouchedFor C x.current e) || e.stamp.isNone

def Fork.strands (R : Reader) (x : Fork) (s : Shelf) (seq : Int64) (row : MessageRow) : Bool :=
  let isPost := match row.plain.bind R.decodeBody with
    | some (.post _) => true
    | _ => false
  let lost := (s.entry[seq]?).all (x.loses R.crypto)
  decide (seq.toUInt64 > x.fork) && lost && row.account == x.me && row.kind == kindMember && isPost

def Fork.stranded (R : Reader) (x : Fork) (s : Shelf) : List (Int64 × MessageRow) :=
  s.message.toList.filter fun row => x.strands R s row.1 row.2

def putStranded (fork : UInt64) (t : ExtTreeMap Int64 StrandedRow) (row : Int64 × MessageRow) :
    ExtTreeMap Int64 StrandedRow :=
  let t := t.insertIfNew row.1 ⟨row.2.posted, fork, row.2.plain.getD []⟩
  t.filter fun seq _ => decide ((t.keys.filter (seq < ·)).length < 256)

/-! The store of a channel over a run. -/

structure Cabinet where
  shelf : Shelf
  stranded : ExtTreeMap Int64 StrandedRow
  made : List Entry
  past : List Entry
  aside : List Entry
  commits : List Entry
  gone : List Entry

inductive Doing
  | fold (R : Reader) (t : Terms) (timeline : Timeline) (since : UInt64) (entries : List Served)
  | noteCommits (C : Crypto) (entries : List Served)
  | post (e : Entry) (plain : Bytes)
  | redact (target : UInt64)
  | beside (other : Shelf)
  | reset (origin : PubKey)
  | importEarlier (C : Crypto) (v : Sight) (bound : Bindings) (origin : PubKey)
      (entries : List Entry)
  | forkFound (R : Reader) (x : Fork)
  | dropStranded (seq : UInt64)

namespace Cabinet

def empty : Cabinet := ⟨.empty, ∅, [], [], [], [], []⟩

section
variable (c : Cabinet) (now : UInt64)

def commitsIn (C : Crypto) (entries : List Entry) : List Entry :=
  entries.filter fun e => (commitOf C e).isSome

def kept (R : Reader) (t : Terms) (timeline : Timeline) (since : UInt64) (entries : List Served) :
    List Entry :=
  keptOf R t (starting t c.shelf timeline since) entries

def out (seq : Int64) : Bool :=
  c.shelf.timed[seq]?.any fun until_ => until_.toInt64 ≤ now.toInt64

def act : Doing → Cabinet
  | .fold R t timeline since entries =>
    { c with
      shelf := (foldEntries R t c.shelf timeline since entries).shelf
      made := c.made ++ c.kept R t timeline since entries
      commits := c.commits ++ commitsIn R.crypto (c.kept R t timeline since entries) }
  | .noteCommits C entries =>
    { c with
      shelf := Chat.noteCommits C c.shelf entries
      commits := c.commits ++ commitsIn C (entries.map (·.entry)) }
  | .post e plain => { c with shelf := c.shelf.posted e plain, made := c.made ++ [e] }
  | .redact target => { c with shelf := c.shelf.redactMessage target }
  | .beside other => { c with shelf := c.shelf.beside other }
  | .reset origin =>
    { c with shelf := c.shelf.reset origin, made := [], past := c.past ++ c.made }
  | .importEarlier C v bound origin entries =>
    let done := Chat.importEarlier C v bound origin c.shelf entries
    { c with shelf := done.1, past := c.past ++ done.2 }
  | .forkFound R x =>
    let stranded := x.stranded R c.shelf
    { c with
      shelf := c.shelf.truncated x.fork
      stranded := stranded.foldl (putStranded x.fork) c.stranded
      made := c.made.filter (·.seq.toInt64 ≤ x.fork.toInt64)
      aside := c.aside ++ c.made.filter fun e => decide (e.seq.toInt64 ∈ stranded.map Prod.fst) }
  | .dropStranded seq => { c with stranded := c.stranded.erase seq.toInt64 }

def expireTimed : Cabinet :=
  { c with
    shelf := c.shelf.expired now
    made := c.made.filter fun e => !c.out now e.seq.toInt64
    gone := c.gone ++ c.made.filter fun e => c.out now e.seq.toInt64 }

structure Clear : Prop where
  messages : ∀ seq row, c.shelf.message[seq]? = some row →
    ∀ e ∈ c.made, e.seq.toInt64 = seq → ranOut now e = false
  entries : ∀ (seq : Int64) (e : Entry), c.shelf.entry[seq]? = some e → ranOut now e = false
  history : ∀ a ∈ c.shelf.history,
    (∀ (seq : Int64) (e : Entry), a.entries[seq]? = some e → ranOut now e = false) ∧
    ∀ (seq : Int64) (row : MessageRow), a.messages[seq]? = some row →
      ∀ e ∈ c.past, e.seq.toInt64 = seq → ranOut now e = false
  stranded : ∀ (seq : Int64) (row : StrandedRow), c.stranded[seq]? = some row →
    ∀ e ∈ c.aside, e.seq.toInt64 = seq → ranOut now e = false
  commits : ∀ (seq : Int64) (x : Commit), c.shelf.commitment[seq]? = some x →
    ∀ e ∈ c.commits, e.seq.toInt64 = seq → ranOut now e = false

def OnlyDue (after : Cabinet) (now : UInt64) : Prop :=
  ∀ seq, (seq ∈ c.shelf.message ∧ seq ∉ after.shelf.message) ∨
      (seq ∈ c.shelf.entry ∧ seq ∉ after.shelf.entry) →
    ∀ e ∈ c.made, e.seq.toInt64 = seq → ranOut now e = true

end

end Cabinet

inductive Motion
  | on (channel : Bytes32) (d : Doing)
  | expire (now : UInt64)

abbrev Cabinets := Bytes32 → Cabinet

def Cabinets.step (s : Cabinets) : Motion → Cabinets
  | .on channel d => Function.update s channel ((s channel).act d)
  | .expire now => fun channel => (s channel).expireTimed now

/-- A timed message goes at its time, and nothing else goes with it. -/
def Cabinets.Timely (s : Cabinets) : Motion → Prop
  | .on _ _ => True
  | .expire now => ∀ channel, ((s channel).expireTimed now).Clear now ∧
      (s channel).OnlyDue ((s channel).expireTimed now) now

/-! What a run has to keep to. -/

def SameTimer (e e' : Entry) : Prop := e.posted = e'.posted ∧ e.expiresAfter = e'.expiresAfter

namespace Cabinet

/-- Entries under numbers that have no other timer, that run out within the column. -/
def Fits (c : Cabinet) (new : List Entry) : Prop :=
  ∀ e ∈ new, (runsOut e).toNat < 2 ^ 63 ∧
    ∀ e' ∈ c.made ++ new, e'.seq = e.seq → SameTimer e' e

def Careful (c : Cabinet) : Doing → Prop
  | .fold R t timeline since entries =>
    c.Fits (c.kept R t timeline since entries) ∧
    (∀ e ∈ commitsIn R.crypto (c.kept R t timeline since entries), e.expiresAfter = 0) ∧
    -- The clock was not put back since an entry went.
    ∀ i ∈ entries, i.entry ∈ c.gone → ranOut i.now i.entry = true
  | .noteCommits C entries => ∀ e ∈ commitsIn C (entries.map (·.entry)), e.expiresAfter = 0
  | .post e _ => c.Fits [e] ∧ e ∉ c.gone
  | .redact _ | .beside _ | .dropStranded _ => True
  | .reset _ => c.shelf.timed = ∅
  | .importEarlier C v bound origin entries =>
    ∀ e ∈ (Chat.importEarlier C v bound origin c.shelf entries).2, e.expiresAfter = 0
  | .forkFound R x => ∀ row ∈ x.stranded R c.shelf, c.shelf.timed[row.1]? = none

end Cabinet

def Cabinets.Careful (s : Cabinets) : Motion → Prop
  | .on channel d => (s channel).Careful d
  | .expire now => now.toNat < 2 ^ 63

end Sqex.Chat
