import Sqex.Exchange.Recreated

/-! Catching up: one answer for a device that has been away, put together from what fetching
each channel and collecting its keys would have answered, within a budget of bytes. -/
namespace Sqex.Exchange.Catchup
open Std

def maxUnnamed : Nat := 256
def maxCatchupBytes : Nat := 1024 * 1024
def maxMine : Nat := 64
def signalTtl : UInt64 := 30

structure Named where
  channel : Bytes32
  since : UInt64
  sinceEpoch : UInt32

structure Request where
  budget : UInt32
  named : List Named

structure Signalled where
  account : PubKey
  kind : UInt8
  body : Bytes
  deriving DecidableEq

/-- A signal in somebody's queue, and the devices it has rung where it is to ring each. -/
structure Pending where
  signal : Signalled
  fromDevice : PubKey
  sent : UInt64
  takenBy : Option (List PubKey)

structure Entries extends Fetched where
  now : UInt64
  signals : List Signalled

structure Envelope where
  publisher : PubKey
  sig : Bytes64
  fromEpoch : UInt32
  toEpoch : UInt32
  prekeyId : UInt32
  ephemeral : Bytes32
  ciphertext : Bytes

structure Got where
  now : UInt64
  envelopes : List Envelope

inductive Status where
  | ok | absent | deferred
  deriving DecidableEq

structure Caught where
  channel : Bytes32
  status : Status
  more : Bool
  fetched : Option Entries
  got : Option Got

structure Unnamed where
  channel : Bytes32
  last : UInt64

structure CaughtUp where
  now : UInt64
  prekeys : UInt16
  caught : List Caught
  unnamed : List Unnamed

/-- What an exchange answers from: its channels, the sealed keys of each, and the signals
queued in each for each account. -/
structure Store where
  channels : ExtTreeMap Bytes32 Reading
  envelope : Bytes32 → List EnvelopeRow
  signals : Bytes32 × PubKey → List Pending

def Signalled.encodedLen (s : Signalled) : Nat := 32 + 1 + 2 + s.body.length

def Envelope.encodedLen (e : Envelope) : Nat := 32 + 64 + 4 + 4 + 4 + 32 + 4 + e.ciphertext.length

def Got.encodedLen (g : Got) : Nat := 8 + 2 + (g.envelopes.map Envelope.encodedLen).sum

def Entries.encodedLen (es : Entries) : Nat :=
  8 + 8 + 8 + 2 + (es.entries.map wireLen).sum + 2 + (es.signals.map Signalled.encodedLen).sum

def Entries.cut (es : Entries) (n : Nat) : Entries := { es with entries := es.entries.take n }

/-- What goes against the budget, where there was no answer nothing. -/
def lenOf (got : Option Got) : Nat := (got.map Got.encodedLen).getD 0

def Caught.len (c : Caught) : Nat := lenOf c.got + (c.fetched.map Entries.encodedLen).getD 0

def Caught.entries (c : Caught) : List Entry := (c.fetched.map (·.entries)).getD []

namespace Pending

/-- Once for each device but the one it came from, where that is the rule for its kind. -/
def reaches (device : PubKey) (p : Pending) : Bool :=
  match p.takenBy with
  | none => true
  | some taken => device != p.fromDevice && !taken.contains device

def left (device : PubKey) (p : Pending) : Option Pending :=
  p.takenBy.map fun taken =>
    if p.reaches device then { p with takenBy := some (taken ++ [device]) } else p

end Pending

def takeSignals (q : List Pending) (device : PubKey) (now : UInt64) :
    List Signalled × List Pending :=
  let q := q.filter fun p => now - min now p.sent < signalTtl
  ((q.filter (·.reaches device)).map (·.signal), q.filterMap (·.left device))

namespace Store

def tables (st : Store) (channel : Bytes32) : Reading :=
  st.channels[channel]?.getD ⟨.empty, ∅⟩

def fetch (C : Crypto) (h : Host) (st : Store) (account device : PubKey) (channel : Bytes32)
    (since now : UInt64) : Except ChannelError (Store × Entries) := do
  let (t, fetched) ← (st.tables channel).fetch C h channel account since false
  let taken := takeSignals (st.signals (channel, account)) device now
  pure ({ st with
    channels := st.channels.insert channel t
    signals := Function.update st.signals (channel, account) taken.2 }, ⟨fetched, now, taken.1⟩)

def getKeys (st : Store) (account device : PubKey) (channel : Bytes32) (sinceEpoch : UInt32)
    (now : UInt64) : Except ChannelError Got := do
  let _ ← (st.tables channel).rows.channelRow
  refuseIf (((st.tables channel).rows.roleOf account).isNone = true)
    (st.tables channel).rows.unreadable
  let rows := (st.envelope channel).filter fun e => e.recipient = device ∧ sinceEpoch ≤ e.toEpoch
  pure ⟨now, (rows.mergeSort fun a b => decide (a.epoch ≤ b.epoch)).map fun e =>
    ⟨e.publisher, e.sig, e.fromEpoch, e.toEpoch, e.prekeyId, e.ephemeral, e.ciphertext⟩⟩

def mine (st : Store) (account : PubKey) : List Unnamed :=
  let rows := st.channels.toList.filterMap fun (channel, t) =>
    if t.rows.channel.isSome then
      (t.rows.member[account]?.filter (·.present)).map fun m =>
        (m.joined, (⟨channel, t.rows.window.2⟩ : Unnamed))
    else none
  ((rows.mergeSort fun a b => decide (a.1 ≤ b.1)).map Prod.snd).take maxMine

end Store

/-- How many of a batch's entries go, oldest first, until the next would not fit. -/
def Entries.keptFrom (budget spent : Nat) (es : Entries) : Nat → Nat → Nat
  | kept, 0 => kept
  | kept, left + 1 =>
    if spent + (es.cut (kept + 1)).encodedLen > budget then kept
    else es.keptFrom budget spent (kept + 1) left

def Entries.kept (budget spent : Nat) (es : Entries) : Nat :=
  es.keptFrom budget spent 0 es.entries.length

namespace Caught

def deferred (channel : Bytes32) : Caught := ⟨channel, .deferred, true, none, none⟩

def absent (channel : Bytes32) : Caught := ⟨channel, .absent, false, none, none⟩

def ok (budget spent : Nat) (channel : Bytes32) (got : Option Got) (es : Entries) : Caught :=
  let kept := es.kept budget (spent + lenOf got)
  ⟨channel, .ok, decide (es.entries.length ≥ maxBatch) || decide (kept < es.entries.length),
    some (es.cut kept), got⟩

end Caught

def answers (C : Crypto) (h : Host) (account device : PubKey) (budget : Nat) (now : UInt64) :
    Store → Nat → Bool → List Named → Store × List Caught
  | st, _, _, [] => (st, [])
  | st, spent, true, n :: rest =>
    ((answers C h account device budget now st spent true rest).1,
      .deferred n.channel :: (answers C h account device budget now st spent true rest).2)
  | st, spent, false, n :: rest =>
    match st.fetch C h account device n.channel n.since now with
    | .error _ =>
      ((answers C h account device budget now st spent false rest).1,
        .absent n.channel :: (answers C h account device budget now st spent false rest).2)
    | .ok (st', es) =>
      let c := Caught.ok budget spent n.channel
        (st'.getKeys account device n.channel n.sinceEpoch now).toOption es
      let exhausted := decide (c.entries.length < es.entries.length) ||
        decide (spent + c.len ≥ budget)
      ((answers C h account device budget now st' (spent + c.len) exhausted rest).1,
        c :: (answers C h account device budget now st' (spent + c.len) exhausted rest).2)

/-- Answer a catch-up. A channel that cannot be read is answered as absent. -/
def answer (C : Crypto) (h : Host) (st : Store) (oneTime : PubKey → UInt16)
    (account device : PubKey) (req : Request) (now : UInt64) : Store × CaughtUp :=
  let budget := min req.budget.toNat maxCatchupBytes
  let r := answers C h account device budget now st 0 false req.named
  let unnamed := (r.1.mine account).filter fun m => !req.named.any (·.channel == m.channel)
  (r.1, ⟨now, oneTime device, r.2, unnamed.take maxUnnamed⟩)

end Sqex.Exchange.Catchup
