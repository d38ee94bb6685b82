import Sqex.Lib.Tables
import Sqex.Lib.Traces
import Sqex.Proto.Pool
import Sqex.Proto.SystemBody

/-! The prekeys an exchange holds: published in advance, served once, and the ids they were
published under never taken again. -/
namespace Sqex
open Runs

def maxStored : Nat := 128
def maxClear : Nat := 4
def clearWindow : UInt64 := 60 * 60
def prekeyLen : Nat := 1 + 4 + 32 + 64

namespace Prekey

def verify (C : Crypto) (p : Prekey) (device : PubKey) : Except Error Unit :=
  if p.id = 0 then .error (.malformed "prekey id 0 is reserved")
  else if p.kind ≠ kindOneTime ∧ p.kind ≠ kindFallback then
    .error (.malformed s!"unknown prekey kind {p.kind}")
  else match C.keyError device with
    | some e => .error (.key s!"device key: {e}")
    | none =>
      if C.verifies device (signingInput device p.kind p.id p.publicHalf) p.signature then .ok ()
      else .error .badSignature

def wire (p : Prekey) : Bytes :=
  p.kind :: beBytes 4 p.id.toNat ++ Bytes32.toBytes p.publicHalf ++ Bytes64.toBytes p.signature

def unwire (b : Bytes) : Option Prekey :=
  if b.length ≠ prekeyLen then none
  else some {
    kind := b.headD 0
    id := UInt32.ofNat (natAt b 1 4)
    publicHalf := BitVec.ofNat 256 (natAt b 5 32)
    signature := BitVec.ofNat 512 (natAt b 37 64) }

theorem unwire_wire (p : Prekey) : unwire p.wire = some p := by
  have hlength : p.wire.length = prekeyLen := by simp [wire, prekeyLen, beBytes_length]
  have hid : natAt p.wire 1 4 = beNat (beBytes 4 p.id.toNat) := by
    simpa [wire, beBytes_length] using natAt_append [p.kind] (beBytes 4 p.id.toNat)
      (Bytes32.toBytes p.publicHalf ++ Bytes64.toBytes p.signature)
  have hpublic : natAt p.wire 5 32 = beNat (Bytes32.toBytes p.publicHalf) := by
    simpa [wire, beBytes_length] using natAt_append (p.kind :: beBytes 4 p.id.toNat)
      (Bytes32.toBytes p.publicHalf) (Bytes64.toBytes p.signature)
  have hsig : natAt p.wire 37 64 = beNat (Bytes64.toBytes p.signature) := by
    simpa [wire, beBytes_length] using natAt_append
      (p.kind :: beBytes 4 p.id.toNat ++ Bytes32.toBytes p.publicHalf)
      (Bytes64.toBytes p.signature) []
  have hword : UInt32.ofNat (beNat (beBytes 4 p.id.toNat)) = p.id := by
    rw [beNat_beBytes]
    apply UInt32.toNat.inj
    simp
  unfold unwire
  rw [if_neg (by simp [hlength]), hid, hpublic, hsig, hword, Bytes32.ofNat_toBytes,
    Bytes64.ofNat_toBytes]
  simp [wire]

/-- Of a batch, what is stored when all of it was: a fallback goes as the next arrives. -/
def standing : List Prekey → List Prekey
  | [] => []
  | p :: ps =>
    if p.kind = kindFallback ∧ ps.any (·.kind == kindFallback) then standing ps
    else p :: standing ps

end Prekey

inductive PrekeyError where
  | badSignature | reusedId | poolFull | storage | clearQuota
  deriving DecidableEq

structure PrekeyRow where
  device : PubKey
  id : UInt32
  kind : UInt8
  wire : Bytes
  deriving DecidableEq

namespace PrekeyRow

def of (device : PubKey) (p : Prekey) : PrekeyRow := ⟨device, p.id, p.kind, p.wire⟩

def isKind (device : PubKey) (kind : UInt8) (r : PrekeyRow) : Bool :=
  r.device == device && r.kind == kind

def isId (device : PubKey) (id : UInt32) (r : PrekeyRow) : Bool :=
  r.device == device && r.id == id

end PrekeyRow

/-- The exchange's tables of prekeys, and when each device's recent clears landed. -/
structure Prekeys where
  prekey : List PrekeyRow
  seen : List (PubKey × UInt32)
  highWater : List (PubKey × UInt32)
  clearedAt : PubKey → List UInt64

structure Taken where
  found : Bool
  prekey : Option Prekey
  now : UInt64
  deriving DecidableEq

def Taken.none (now : UInt64) : Taken := ⟨false, .none, now⟩

structure Cleared where
  discarded : UInt16
  nextId : UInt32
  now : UInt64
  deriving DecidableEq

namespace Prekeys

def opened : Prekeys := ⟨[], [], [], fun _ => []⟩

section
variable (C : Crypto) (s : Prekeys)

def oneTime (device : PubKey) : List PrekeyRow :=
  s.prekey.filter (PrekeyRow.isKind device Prekey.kindOneTime)

def heldFor (device : PubKey) : List PrekeyRow :=
  s.prekey.filter fun r => r.device == device

def withoutFallback (device : PubKey) (rows : List PrekeyRow) : List PrekeyRow :=
  rows.filter fun r => ! r.isKind device Prekey.kindFallback

/-- The rows left when a prekey arrives: a new fallback replaces the old. -/
def retire (device : PubKey) (p : Prekey) (rows : List PrekeyRow) : List PrekeyRow :=
  if p.kind = Prekey.kindFallback then withoutFallback device rows else rows

/-- One turn of the loop in `publish`. An insert that meets its own key ends it. -/
def insertNext (device : PubKey) (p : Prekey) : Except PrekeyError Prekeys :=
  if (device, p.id) ∈ s.seen then .error .storage
  else
    let highWater := Tables.upsert (fun r => r.1 == device) (fun r => (r.1, max r.2 p.id))
      (device, p.id) s.highWater
    let rows := retire device p s.prekey
    if rows.any (PrekeyRow.isId device p.id) then .error .storage
    else .ok { s with
      prekey := rows ++ [.of device p], seen := (device, p.id) :: s.seen, highWater }

def insertEach (device : PubKey) : Prekeys → List Prekey → Except PrekeyError Prekeys
  | s, [] => .ok s
  | s, p :: ps =>
    match s.insertNext device p with
    | .ok s => insertEach device s ps
    | .error e => .error e

/-- Add one-time prekeys and replace the fallback, in one transaction. -/
def publish (device : PubKey) (prekeys : List Prekey) : Except PrekeyError (UInt16 × Prekeys) :=
  if prekeys.any fun p => ! (p.verify C device).isOk then .error .badSignature
  else if prekeys.any fun p => decide ((device, p.id) ∈ s.seen) then .error .reusedId
  else
    let held := (s.oneTime device).length
    let arriving := (prekeys.filter fun p => p.kind == Prekey.kindOneTime).length
    if held + arriving > maxStored then .error .poolFull
    else match insertEach device s prekeys with
      | .ok s => .ok (UInt16.ofNat prekeys.length, s)
      | .error e => .error e

def oldest (device : PubKey) : Option PrekeyRow :=
  ((s.oneTime device).insertionSort fun a b => a.id ≤ b.id).head?

def served (wire : Bytes) (now : UInt64) : Taken :=
  match Prekey.unwire wire with
  | some p => ⟨true, some p, now⟩
  | none => .none now

def take (device : PubKey) (now : UInt64) : Taken × Prekeys :=
  match s.oldest device with
  | some row =>
    let rest := s.prekey.filter fun r => ! r.isId device row.id
    (served row.wire now, { s with prekey := rest })
  | none =>
    match s.prekey.find? (PrekeyRow.isKind device Prekey.kindFallback) with
    | some row => (served row.wire now, s)
    | none => (.none now, s)

/-- Discard what a device published, and say where it resumes. The ids stay seen. -/
def clear (device : PubKey) (now : UInt64) : Except PrekeyError Cleared × Prekeys :=
  let mine := (s.clearedAt device).filter fun t => now - min now t < clearWindow
  if mine.length ≥ maxClear then
    (.error .clearQuota, { s with clearedAt := Function.update s.clearedAt device mine })
  else
    let discarded := UInt16.ofNat (s.heldFor device).length
    let highWater := ((s.highWater.find? fun r => r.1 == device).map (·.2)).getD 0
    let nextId := if highWater = 0xffffffff then highWater else highWater + 1
    let rest := s.prekey.filter fun r => ! (r.device == device)
    let clearedAt := Function.update s.clearedAt device (mine ++ [now])
    (.ok ⟨discarded, nextId, now⟩, { s with prekey := rest, clearedAt })

inductive Act where
  | publish (device : PubKey) (prekeys : List Prekey)
  | take (device : PubKey) (now : UInt64)
  | count (device : PubKey) (now : UInt64)
  | clear (device : PubKey) (now : UInt64)

def Act.device : Act → PubKey
  | publish device _ => device
  | take device _ => device
  | count device _ => device
  | clear device _ => device

def step : Act → Prekeys
  | .publish device prekeys =>
    match s.publish C device prekeys with
    | .ok (_, s') => s'
    | .error _ => s
  | .take device now => (s.take device now).2
  | .count _ _ => s
  | .clear device now => (s.clear device now).2

def accepts : Act → List (PubKey × UInt32)
  | .publish device prekeys =>
    if (s.publish C device prekeys).isOk then prekeys.map fun p => (device, p.id) else []
  | _ => []

def serves : Act → List (PubKey × UInt32)
  | .take device now =>
    match (s.take device now).1.prekey with
    | some p => if p.kind = Prekey.kindOneTime then [(device, p.id)] else []
    | none => []
  | _ => []

end

end Prekeys
end Sqex
