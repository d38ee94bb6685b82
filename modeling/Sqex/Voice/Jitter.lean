import Sqex.Lib.Collections
import Sqex.Lib.Runs
import Sqex.Proto.Primitives

/-! The jitter buffer: datagrams, out of order and some of them lost, turned back into
twenty milliseconds of sound every twenty milliseconds. Opus, the noise a description of
silence makes and the round-trip clock are left out; what decides each slot is not. -/
namespace Sqex.Voice
open Std

/-- What a peer's silence sounds like. -/
structure Comfort where
  level : UInt8
  tilt : UInt8
  deriving DecidableEq

inductive Body where
  | audio (packet : Bytes)
  | comfort (c : Comfort)
  deriving DecidableEq

/-- One frame as it arrived. Packets are counted by `seq`, so a hole in it is loss. -/
structure Media where
  seq : UInt64
  body : Body
  deriving DecidableEq

inductive Playout where
  | frame (packet : Bytes)
  | conceal
  | comfort (c : Comfort)
  | silence
  | idle
  deriving DecidableEq

structure Stats where
  received : Nat := 0
  late : Nat := 0
  duplicate : Nat := 0
  concealed : Nat := 0
  silent : Nat := 0
  underruns : Nat := 0
  trimmed : Nat := 0
  stale : Nat := 0

structure Gap where
  lost : Nat
  silent : Nat

/-- The slots between two frames, split into loss and silence. The timestamps are
subtracted modulo 2 ^ 32, the other differences stop at zero. -/
def classify (prev next : UInt64 × UInt32) : Gap :=
  let slots := (next.2 - prev.2).toNat - 1
  let missingPackets := next.1.toNat - prev.1.toNat - 1
  let lost := min missingPackets slots
  ⟨lost, slots - lost⟩

/-- How many slots playout coasts through on an empty buffer. -/
def coastLimit : Nat := 100

inductive Panic where
  /-- `expect("more than depth frames, checked above")`. -/
  | moreThanDepth
  | nonEmpty
  | silentRun
  deriving DecidableEq

/-- The buffer. Counts are unbounded here; `Fits.no_overflow` says why the cursor and the
thresholds fit the code's 64 bits. -/
structure Jitter where
  frames : ExtTreeMap Nat Media
  /-- The media timestamp the next tick will play. -/
  cursor : Nat
  lowest : Option UInt64
  highest : UInt64
  lastPlayed : Option (UInt64 × UInt32)
  comfort : Option Comfort
  inPause : Bool
  coasted : Nat
  /-- What is left of the gap being crossed: first loss, then silence. -/
  concealRun : Nat
  silentRun : Nat
  depth : Nat
  playing : Bool
  stats : Stats

namespace Jitter

section
variable (j : Jitter)

def new (depth : Nat) : Jitter where
  frames := ∅
  cursor := 0
  lowest := none
  highest := 0
  lastPlayed := none
  comfort := none
  inPause := false
  coasted := 0
  concealRun := 0
  silentRun := 0
  depth
  playing := false
  stats := {}

def push (seq : UInt64) (timestamp : UInt32) (body : Body) : Jitter :=
  let j := { j with
    stats := { j.stats with received := j.stats.received + 1 }
    lowest := some ((j.lowest.map fun l => min l seq).getD seq)
    highest := max j.highest seq }
  let slot := timestamp.toNat
  -- Before playing there is no cursor to be behind.
  if j.playing ∧ slot < j.cursor then
    { j with stats := { j.stats with late := j.stats.late + 1 } }
  else
    let known := if slot ∈ j.frames then 1 else 0
    { j with
      frames := j.frames.insert slot ⟨seq, body⟩
      stats := { j.stats with duplicate := j.stats.duplicate + known } }

def overfull : Bool := j.playing && decide (j.frames.size > j.depth * 3)

def trim : Option Bytes × Jitter :=
  if !j.overfull then (none, j)
  else
    match j.frames[j.cursor]? with
    | none => (none, j)
    | some media =>
      let j := { j with
        frames := j.frames.erase j.cursor
        lastPlayed := some (media.seq, UInt32.ofNat j.cursor)
        cursor := j.cursor + 1
        concealRun := 0
        silentRun := 0
        stats := { j.stats with trimmed := j.stats.trimmed + 1 } }
      match media.body with
      | .audio packet => (some packet, j)
      | .comfort _ => (some [], j)

def startAt (cursor : Nat) : Jitter :=
  let before := j.frames.filter fun slot _ => slot < cursor
  { j with
    cursor
    frames := j.frames.filter fun slot _ => cursor ≤ slot
    stats := { j.stats with stale := j.stats.stale + before.size }
    playing := true }

/-- Fill before starting. A backlog is started at its end, counted from the newest frame;
less than one at its oldest frame, so nothing is let go of. -/
def fill : Except Panic (Option Jitter) :=
  if j.playing then .ok (some j)
  else if j.frames.size ≤ j.depth then .ok none
  else if j.frames.size > j.depth * 3 then
    match j.frames.keys.reverse[j.depth]? with
    | some cursor => .ok (some (j.startAt cursor))
    | none => .error .moreThanDepth
  else
    match j.frames.keys.head? with
    | some cursor => .ok (some { j with cursor, playing := true })
    | none => .error .nonEmpty

/-- A slot the peer chose not to fill. -/
def quiet : Playout :=
  match j.comfort with
  | some c => .comfort c
  | none => .silence

def play (media : Media) : Playout × Jitter :=
  let j := { j with
    frames := j.frames.erase j.cursor
    lastPlayed := some (media.seq, UInt32.ofNat j.cursor)
    coasted := 0
    cursor := j.cursor + 1
    concealRun := 0
    silentRun := 0 }
  match media.body with
  | .audio packet => (.frame packet, { j with inPause := false })
  | .comfort c =>
    (.comfort c, { j with
      inPause := true
      comfort := some c
      stats := { j.stats with silent := j.stats.silent + 1 } })

/-- An empty buffer: a pause is coasted through for a while, anything else is an
underrun. -/
def stall : Playout × Jitter :=
  if j.inPause ∧ j.coasted < coastLimit then
    (j.quiet, { j with
      coasted := j.coasted + 1
      cursor := j.cursor + 1
      stats := { j.stats with silent := j.stats.silent + 1 } })
  else
    (.idle, { j with
      stats := { j.stats with underruns := j.stats.underruns + 1 }
      playing := false
      inPause := false
      concealRun := 0
      silentRun := 0 })

def oldest : Option (Nat × Media) :=
  j.frames.keys.head?.bind fun ts => j.frames[ts]?.map fun media => (ts, media)

/-- Work out, once, how much of a gap was lost and how much was silence. -/
def measure : Jitter :=
  if j.concealRun = 0 ∧ j.silentRun = 0 then
    match j.lastPlayed, j.oldest with
    | some prev, some (ts, next) =>
      let gap := classify prev (next.seq, UInt32.ofNat ts)
      { j with concealRun := gap.lost, silentRun := gap.silent }
    | _, _ => { j with concealRun := 1 }
  else j

/-- An empty slot with something waiting further on: conceal first, then fall silent. -/
def cross : Except Panic (Playout × Jitter) :=
  let j := j.measure
  let j := { j with cursor := j.cursor + 1 }
  if 0 < j.concealRun then
    .ok (.conceal, { j with
      concealRun := j.concealRun - 1
      stats := { j.stats with concealed := j.stats.concealed + 1 } })
  else if j.silentRun = 0 then .error .silentRun
  else
    let j := { j with
      silentRun := j.silentRun - 1
      stats := { j.stats with silent := j.stats.silent + 1 } }
    .ok (j.quiet, j)

/-- Decide what the slot at the cursor comes from, and advance. -/
def next : Except Panic (Playout × Jitter) :=
  match j.frames[j.cursor]? with
  | some media => .ok (j.play media)
  | none => if j.frames.isEmpty then .ok j.stall else j.cross

def pop : Except Panic (Playout × Jitter) :=
  match j.fill with
  | .error e => .error e
  | .ok none => .ok (.idle, j)
  | .ok (some j) => j.next

end

end Jitter
end Sqex.Voice
