import Mathlib.Data.List.Range
import Sqex.Lib.Runs
import Sqex.Proto.Primitives

/-! An operator's tail: a queue of lines, the publishers that fill it and the pump that drains it
into a sink. Publishers hold a lock, one at a time; a pump holds nothing, so what it does stands
between any two things a publisher does. -/
namespace Sqex.Tails
open Runs

/-- Lines held for one watcher before they start being discarded. -/
def queueMax : Nat := 512

def kindRequest : UInt8 := 0x01
def kindConnection : UInt8 := 0x02
def kindEvent : UInt8 := 0x03
def kindAdmin : UInt8 := 0x04
def kindPeer : UInt8 := 0x05
def kindRefusal : UInt8 := 0x06
def kindDropped : UInt8 := 0x07
def kindHeartbeat : UInt8 := 0x08

def wantRequest : UInt16 := (1 : UInt16) <<< (0 : UInt16)
def wantConnection : UInt16 := (1 : UInt16) <<< (1 : UInt16)
def wantEvent : UInt16 := (1 : UInt16) <<< (2 : UInt16)
def wantAdmin : UInt16 := (1 : UInt16) <<< (3 : UInt16)
def wantPeer : UInt16 := (1 : UInt16) <<< (4 : UInt16)
def wantRefusal : UInt16 := (1 : UInt16) <<< (5 : UInt16)

def wantAll : UInt16 :=
  wantRequest ||| wantConnection ||| wantEvent ||| wantAdmin ||| wantPeer ||| wantRefusal

/-- Neither a drop nor a heartbeat is ever filtered. -/
def wanted (kinds : UInt16) (kind : UInt8) : Bool :=
  if kind = kindDropped ∨ kind = kindHeartbeat then true
  else if kind = kindRequest then kinds &&& wantRequest != 0
  else if kind = kindConnection then kinds &&& wantConnection != 0
  else if kind = kindEvent then kinds &&& wantEvent != 0
  else if kind = kindAdmin then kinds &&& wantAdmin != 0
  else if kind = kindPeer then kinds &&& wantPeer != 0
  else if kind = kindRefusal then kinds &&& wantRefusal != 0
  else false

inductive Record where
  | request (account : Option PubKey) (route : String) (status : UInt16) (micros : UInt32)
      (conn : UInt64)
  | connection (opened : Bool) (peer : String) (identity : Option PubKey) (rttMs : UInt32)
      (lost bytes conn : UInt64)
  | event (event : UInt8) (channel : Option Bytes32) (entitled live : UInt32)
  | admin (admin : PubKey) (action : String)
  | peer (peer : PubKey) (what : String) (micros : UInt32) (conn : UInt64)
  | refusal (account : Option PubKey) (route why : String) (conn : UInt64)
  | dropped (records : Nat)
  | heartbeat
  deriving DecidableEq

def Record.kind : Record → UInt8
  | .request .. => kindRequest
  | .connection .. => kindConnection
  | .event .. => kindEvent
  | .admin .. => kindAdmin
  | .peer .. => kindPeer
  | .refusal .. => kindRefusal
  | .dropped _ => kindDropped
  | .heartbeat => kindHeartbeat

structure Line where
  time : UInt64
  seq : Nat
  record : Record
  deriving DecidableEq

/-- A line a publisher made, and its place among the wanted records published. -/
structure Posted where
  index : Nat
  line : Line
  deriving DecidableEq

/-- What the sink is given. A line of the pump's own is kept with the records it tells the loss
of, by their places. -/
inductive Sent where
  | posted (p : Posted)
  | own (line : Line) (reports : List Nat)
  deriving DecidableEq

def Sent.line : Sent → Line
  | .posted p => p.line
  | .own line _ => line

inductive Publisher where
  | idle
  | offering (p : Posted)
  | refused (p : Posted)
  /-- Its number is given back, its loss not yet counted. -/
  | owing (index : Nat)
  deriving DecidableEq

inductive Pump where
  | top
  | missed (records : Nat) (losses : List Nat)
  | waiting
  | due
  | writing (s : Sent)
  | ended (unwritten : Option Sent)
  deriving DecidableEq

structure Tail where
  seq : Nat := 0
  dropped : Nat := 0
  queue : List Posted := []
  subscribed : Bool := true
  publisher : Publisher := .idle
  pump : Pump := .top
  written : List Sent := []
  published : Nat := 0
  losses : List Nat := []

namespace Tail

section
variable (t : Tail)

def publish (kinds : UInt16) (record : Record) (now : UInt64) : Tail :=
  match t.publisher with
  | .idle =>
    if t.subscribed && wanted kinds record.kind then
      { t with
        seq := t.seq + 1
        published := t.published + 1
        publisher := .offering ⟨t.published, now, t.seq, record⟩ }
    else t
  | _ => t

def trySend : Tail :=
  match t.publisher with
  | .offering p =>
    if t.queue.length < queueMax then { t with queue := t.queue ++ [p], publisher := .idle }
    else { t with publisher := .refused p }
  | _ => t

/-- The number belongs to a line that was never sent. -/
def giveBack : Tail :=
  match t.publisher with
  | .refused p => { t with seq := t.seq - 1, publisher := .owing p.index }
  | _ => t

def count : Tail :=
  match t.publisher with
  | .owing index =>
    { t with dropped := t.dropped + 1, losses := t.losses ++ [index], publisher := .idle }
  | _ => t

def close : Tail :=
  match t.publisher with
  | .idle => { t with subscribed := false }
  | _ => t

def swap : Tail :=
  match t.pump with
  | .top =>
    if t.dropped > 0 then
      { t with dropped := 0, losses := [], pump := .missed t.dropped t.losses }
    else { t with pump := .waiting }
  | _ => t

def number (now : UInt64) : Tail :=
  match t.pump with
  | .missed records losses =>
    { t with seq := t.seq + 1, pump := .writing (.own ⟨now, t.seq, .dropped records⟩ losses) }
  | .due => { t with seq := t.seq + 1, pump := .writing (.own ⟨now, t.seq, .heartbeat⟩ []) }
  | _ => t

def recv : Tail :=
  match t.pump with
  | .waiting =>
    match t.queue with
    | p :: queue => { t with queue, pump := .writing (.posted p) }
    | [] => if t.subscribed then t else { t with pump := .ended none }
  | _ => t

/-- A beat is taken whether or not a line is there: the two are waited for alike. -/
def tick : Tail :=
  match t.pump with
  | .waiting => { t with pump := .due }
  | _ => t

def write (ok : Bool) : Tail :=
  match t.pump with
  | .writing s =>
    if ok then { t with written := t.written ++ [s], pump := .top }
    else { t with pump := .ended (some s) }
  | _ => t

end

end Tail

inductive Act where
  | publish (record : Record) (now : UInt64)
  | trySend
  | giveBack
  | count
  | close
  | swap
  | number (now : UInt64)
  | recv
  | tick
  | write (ok : Bool)

def step (kinds : UInt16) (t : Tail) : Act → Tail
  | .publish record now => t.publish kinds record now
  | .trySend => t.trySend
  | .giveBack => t.giveBack
  | .count => t.count
  | .close => t.close
  | .swap => t.swap
  | .number now => t.number now
  | .recv => t.recv
  | .tick => t.tick
  | .write ok => t.write ok

inductive Moved (t : Tail) : Act → Tail → Prop where
  | stays (act : Act) : Moved t act t
  | published (record : Record) (now : UInt64) (hidle : t.publisher = .idle) :
      Moved t (.publish record now)
        { t with
          seq := t.seq + 1
          published := t.published + 1
          publisher := .offering ⟨t.published, now, t.seq, record⟩ }
  | queued {p : Posted} (hoffering : t.publisher = .offering p)
      (hroom : t.queue.length < queueMax) :
      Moved t .trySend { t with queue := t.queue ++ [p], publisher := .idle }
  | refused {p : Posted} (hoffering : t.publisher = .offering p)
      (hfull : ¬ t.queue.length < queueMax) :
      Moved t .trySend { t with publisher := .refused p }
  | gaveBack {p : Posted} (hrefused : t.publisher = .refused p) :
      Moved t .giveBack { t with seq := t.seq - 1, publisher := .owing p.index }
  | counted {index : Nat} (howing : t.publisher = .owing index) :
      Moved t .count
        { t with dropped := t.dropped + 1, losses := t.losses ++ [index], publisher := .idle }
  | closed (hidle : t.publisher = .idle) : Moved t .close { t with subscribed := false }
  | swapped (htop : t.pump = .top) (hdropped : t.dropped > 0) :
      Moved t .swap { t with dropped := 0, losses := [], pump := .missed t.dropped t.losses }
  | awaited (htop : t.pump = .top) (hnone : t.dropped = 0) :
      Moved t .swap { t with pump := .waiting }
  | drop {records : Nat} {losses : List Nat} (now : UInt64)
      (hmissed : t.pump = .missed records losses) :
      Moved t (.number now)
        { t with seq := t.seq + 1, pump := .writing (.own ⟨now, t.seq, .dropped records⟩ losses) }
  | beat (now : UInt64) (hdue : t.pump = .due) :
      Moved t (.number now)
        { t with seq := t.seq + 1, pump := .writing (.own ⟨now, t.seq, .heartbeat⟩ []) }
  | received {p : Posted} {queue : List Posted} (hwaiting : t.pump = .waiting)
      (hqueue : t.queue = p :: queue) :
      Moved t .recv { t with queue, pump := .writing (.posted p) }
  | gone (hwaiting : t.pump = .waiting) : Moved t .recv { t with pump := .ended none }
  | ticked (hwaiting : t.pump = .waiting) : Moved t .tick { t with pump := .due }
  | wrote {s : Sent} (hwriting : t.pump = .writing s) :
      Moved t (.write true) { t with written := t.written ++ [s], pump := .top }
  | failed {s : Sent} (hwriting : t.pump = .writing s) :
      Moved t (.write false) { t with pump := .ended (some s) }

theorem moved_step (kinds : UInt16) (t : Tail) (act : Act) : Moved t act (step kinds t act) := by
  cases act with
  | publish record now =>
    simp only [step, Tail.publish]
    split
    · next hidle =>
      split
      · exact .published record now hidle
      · exact .stays _
    · exact .stays _
  | trySend =>
    simp only [step, Tail.trySend]
    split
    · next p hoffering =>
      split
      · next hroom => exact .queued hoffering hroom
      · next hfull => exact .refused hoffering hfull
    · exact .stays _
  | giveBack =>
    simp only [step, Tail.giveBack]
    split
    · next p hrefused => exact .gaveBack hrefused
    · exact .stays _
  | count =>
    simp only [step, Tail.count]
    split
    · next index howing => exact .counted howing
    · exact .stays _
  | close =>
    simp only [step, Tail.close]
    split
    · next hidle => exact .closed hidle
    · exact .stays _
  | swap =>
    simp only [step, Tail.swap]
    split
    · next htop =>
      split
      · next hdropped => exact .swapped htop hdropped
      · next hnone => exact .awaited htop (by omega)
    · exact .stays _
  | number now =>
    simp only [step, Tail.number]
    split
    · next records losses hmissed => exact .drop now hmissed
    · next hdue => exact .beat now hdue
    · exact .stays _
  | recv =>
    simp only [step, Tail.recv]
    split
    · next hwaiting =>
      split
      · next p queue hqueue => exact .received hwaiting hqueue
      · split
        · exact .stays _
        · exact .gone hwaiting
    · exact .stays _
  | tick =>
    simp only [step, Tail.tick]
    split
    · next hwaiting => exact .ticked hwaiting
    · exact .stays _
  | write ok =>
    simp only [step, Tail.write]
    split
    · next s hwriting =>
      cases ok with
      | true => exact .wrote hwriting
      | false => exact .failed hwriting
    · exact .stays _

end Sqex.Tails
