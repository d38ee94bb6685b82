import Sqex.Exchange.Origin

/-! Read marks: what an exchange has handed a member of a channel, how far the member says it
has read, and how marks go between a copy and its origin. -/
namespace Sqex.Exchange
open Std

def maxBatch : Nat := 64
def maxBatchBytes : Nat := 512 * 1024

/-- Bytes a stamp adds to an entry. -/
def receiptedLen : Nat := 32 + 32 + 64

structure CursorRow where
  delivered : Int64
  read : Int64
  receipts : Bool
  deriving DecidableEq

structure Mark where
  account : PubKey
  delivered : UInt64
  read : UInt64

structure Fetched where
  first : UInt64
  last : UInt64
  entries : List Entry

/-- A channel's tables, its cursors among them. -/
structure Reading where
  rows : Rows
  cursor : ExtTreeMap PubKey CursorRow

def wireLen (e : Entry) : Nat :=
  entryHeader + (if e.stamp.isSome then receiptedLen else 0) + e.body.length

def within : Nat → List Entry → List Entry
  | _, [] => []
  | bytes, e :: rest =>
    if bytes + wireLen e > maxBatchBytes then [] else e :: within (bytes + wireLen e) rest

def batch : List Entry → List Entry
  | [] => []
  | e :: rest => e :: within (wireLen e) rest

namespace Rows

/-- A copy does not choose between two histories its origin signed. -/
def notEquivocated (r : Rows) : Except ChannelError Unit :=
  refuseIf (r.replicated.any (·.equivocation.isSome) = true) .equivocated

/-- A copy serves what it derived from the constitution on, or a public channel its origin
described. -/
def derivable (r : Rows) : Except ChannelError Unit :=
  match r.replicated with
  | none => .ok ()
  | some row =>
    if row.derivable || row.shaped && r.channel.any (·.visibility == .pub) then .ok ()
    else .error (.underived row.origin)

def readableBy (r : Rows) (caller : PubKey) : Bool :=
  (r.roleOf caller).isSome ||
    r.channel.any (·.visibility == .pub) && r.replicated.any (·.shaped)

def served (C : Crypto) (h : Host) (place : Option Place) (p : Int64 × EntryRow) : Entry :=
  let (seq, row) := p
  { row.entry seq.toUInt64 with
    stamp := place.map fun place => ⟨row.entryHash, row.head,
      receiptOf C h.seed ⟨place, seq.toUInt64, row.posted, row.entryHash, row.head⟩⟩ }

/-- The entries after a position, as many as one answer holds. The position is compared as a
signed column. -/
def entriesAfter (C : Crypto) (h : Host) (place : Option Place) (r : Rows) (since : UInt64) :
    List Entry :=
  let rows := r.entry.toList.filter fun p => since.toInt64 < p.1
  batch ((rows.take maxBatch).map (served C h place))

end Rows

namespace Reading

section
variable (t : Reading) (caller : PubKey) (read : UInt64) (receipts : Bool)

def upsert (who : PubKey) (fresh : CursorRow) (change : CursorRow → CursorRow) : Reading :=
  { t with cursor := t.cursor.insert who (match t.cursor[who]? with
    | some row => change row
    | none => fresh) }

def fetch (C : Crypto) (h : Host) (channel : Bytes32) (t : Reading) (caller : PubKey)
    (since : UInt64) (receipts : Bool) : Except ChannelError (Reading × Fetched) := do
  let c ← t.rows.channelRow
  t.rows.notEquivocated
  t.rows.derivable
  refuseIf (t.rows.readableBy caller = false) t.rows.unreadable
  refuseIf (receipts ∧ h.seed = none) .noReceipts
  let place := if receipts then some (Rows.place h channel c) else none
  let (first, last) := t.rows.window
  let entries := t.rows.entriesAfter C h place since
  let t := match entries.getLast? with
    | some e => t.upsert caller ⟨e.seq.toInt64, 0, true⟩ fun row =>
      { row with delivered := max row.delivered e.seq.toInt64 }
    | none => t
  pure (t, ⟨first, last, entries⟩)

def setCursor : Except ChannelError Reading := do
  let _ ← t.rows.channelRow
  refuseIf ((t.rows.roleOf caller).isNone = true) t.rows.unreadable
  pure (t.upsert caller ⟨0, 0, receipts⟩ fun row =>
    { row with read := min (max row.read read.toInt64) row.delivered, receipts })

/-- The copy a mark comes from served the member what they read: delivery is raised to it. -/
def raiseDelivered : Except ChannelError Reading := do
  let _ ← t.rows.channelRow
  refuseIf ((t.rows.roleOf caller).isNone = true) t.rows.unreadable
  let (_, last) := t.rows.window
  let raised := (min read last).toInt64
  pure (t.upsert caller ⟨raised, 0, receipts⟩ fun row =>
    { row with delivered := max row.delivered raised })

/-- A mark set at a copy, where the origin hears of it. -/
def setCursorForwarded : Except ChannelError Reading := do
  let t ← t.raiseDelivered caller read receipts
  t.setCursor caller read receipts

def allCursors : Except ChannelError (List Mark) := do
  let _ ← t.rows.channelRow
  let present := t.rows.member.toList.filter fun p => p.2.present
  pure (present.map fun p =>
    match t.cursor[p.1]? with
    | some row => ⟨p.1, row.delivered.toUInt64, row.read.toUInt64⟩
    | none => ⟨p.1, 0, 0⟩)

/-- One of its origin's marks, at a copy: the higher wins. -/
def mergeCursor (m : Mark) : Reading :=
  t.upsert m.account ⟨m.delivered.toInt64, m.read.toInt64, true⟩ fun row =>
    if row.delivered < m.delivered.toInt64 ∨ row.read < m.read.toInt64 then
      { row with
        delivered := max row.delivered m.delivered.toInt64
        read := max row.read m.read.toInt64 }
    else row

def mergeCursors (marks : List Mark) : Reading := marks.foldl mergeCursor t

end

end Reading

/-- The exchange that orders the channel, and one that copies it. -/
inductive Side where
  | origin | copy
  deriving DecidableEq

/-- A channel's marks at its origin and at a copy, the greatest position that was assigned,
and the origin's answers to the copy, which come at any time after. -/
structure Marking where
  held : Side → Reading
  top : Int64
  answers : List (List Mark)

/-- What happens to them. Anything else done to an exchange's tables is a change of them, with
entries at no position that was not assigned. A forwarded mark takes two holds of the lock, and the
first may be all. -/
inductive Turn where
  | assign
  | change (side : Side) (rows : Rows)
  | fetch (side : Side) (caller : PubKey) (since : UInt64) (receipts : Bool)
  | setCursor (side : Side) (caller : PubKey) (read : UInt64) (receipts : Bool)
  | raiseDelivered (side : Side) (caller : PubKey) (read : UInt64) (receipts : Bool)
  | setCursorForwarded (side : Side) (caller : PubKey) (read : UInt64) (receipts : Bool)
  | answer
  | merge (i : Nat)

/-- Tables without the entries at positions that were not assigned. -/
def Rows.upTo (top : Int64) (r : Rows) : Rows :=
  { r with entry := r.entry.filter fun seq _ => decide (0 < seq ∧ seq ≤ top) }

namespace Marking

def start : Marking where
  held _ := ⟨.empty, ∅⟩
  top := 0
  answers := []

/-- The tables of one side, where a call went through. -/
def settle (s : Marking) (side : Side) (x : Except ChannelError Reading) : Marking :=
  match x with
  | .ok t => { s with held := Function.update s.held side t }
  | .error _ => s

/-- Positions go up by one, as long as a column holds them. -/
def step (C : Crypto) (h : Side → Host) (channel : Bytes32) (s : Marking) : Turn → Marking
  | .assign => { s with top := if s.top < Int64.maxValue then s.top + 1 else s.top }
  | .change side rows => s.settle side (.ok { s.held side with rows := rows.upTo s.top })
  | .fetch side caller since receipts =>
    s.settle side (((s.held side).fetch C (h side) channel caller since receipts).map Prod.fst)
  | .setCursor side caller read receipts =>
    s.settle side ((s.held side).setCursor caller read receipts)
  | .raiseDelivered side caller read receipts =>
    s.settle side ((s.held side).raiseDelivered caller read receipts)
  | .setCursorForwarded side caller read receipts =>
    s.settle side ((s.held side).setCursorForwarded caller read receipts)
  | .answer =>
    match (s.held .origin).allCursors with
    | .ok marks => { s with answers := s.answers ++ [marks] }
    | .error _ => s
  | .merge i =>
    match s.answers[i]? with
    | some marks => s.settle .copy (.ok ((s.held .copy).mergeCursors marks))
    | none => s

def Inside (s : Marking) : Prop :=
  ∀ (side : Side) (who : PubKey) (row : CursorRow), (s.held side).cursor[who]? = some row →
    row.read ≤ row.delivered ∧ row.delivered ≤ s.top

/-- No row is lost, and neither of its marks goes back. -/
def Rises (s s' : Marking) : Prop :=
  ∀ (side : Side) (who : PubKey) (row : CursorRow), (s.held side).cursor[who]? = some row →
    ∃ row', (s'.held side).cursor[who]? = some row' ∧
      row.delivered ≤ row'.delivered ∧ row.read ≤ row'.read

end Marking
end Sqex.Exchange
