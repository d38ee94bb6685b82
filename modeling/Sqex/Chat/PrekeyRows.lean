import Sqex.Proto.PoolUse

/-! A device's prekeys over restarts: the rows its store keeps of the pool, and how it is topped up
at an exchange that may take, refuse or lose what it is sent. -/
namespace Sqex.Chat
open Std

structure PrekeyRow where
  kind : UInt8
  secret : Option Bytes32
  spent : Bool
  published : Bool
  deriving DecidableEq

namespace PrekeyRow

def held (r : PrekeyRow) : Option Bytes32 := if r.spent then none else r.secret

def isFallback (r : PrekeyRow) : Bool := r.kind == Prekey.kindFallback

def isOneTime (r : PrekeyRow) : Bool :=
  r.kind == Prekey.kindOneTime && !r.spent && r.secret.isSome

end PrekeyRow

abbrev PrekeyRows := ExtTreeMap UInt32 PrekeyRow

namespace PrekeyRows

section
variable (rows : PrekeyRows)

def nextId : UInt32 := rows.keys.foldl (fun n id => max n (id + 1)) 0

/-- The id a pool that is loaded goes on from: with no rows, the clock's. -/
def nextIdAt (now : UInt32) : UInt32 :=
  if rows.nextId = 0 then max now 1 else rows.nextId

def state (now : UInt32) : PoolState where
  nextId := rows.nextIdAt now
  oneTime := rows.toList.filterMap fun r =>
    if r.2.isFallback then none else r.2.held.map (r.1, ·)
  fallback := (rows.toList.filterMap fun r =>
    if r.2.isFallback then r.2.held.map (r.1, ·) else none).getLast?
  spent := (rows.toList.filter (·.2.spent)).map Prod.fst
  unpublished := (rows.toList.filter fun r =>
    !r.2.isFallback && r.2.held.isSome && !r.2.published).map Prod.fst

def pool (seed : Bytes32) (now : UInt32) : Pool :=
  Pool.load seed (rows.state now)

def oneTimeHeld : Nat := (rows.toList.filter (·.2.isOneTime)).length

def wipeOneTime : PrekeyRows :=
  rows.filter fun _ r => !(r.kind == Prekey.kindOneTime && !r.spent)

def putOneTime (unpublished : List UInt32) (rows : PrekeyRows) (k : UInt32 × Bytes32) :
    PrekeyRows :=
  let row := rows[k.1]?.getD ⟨Prekey.kindOneTime, none, false, true⟩
  rows.insert k.1
    { row with secret := some k.2, spent := false, published := !unpublished.contains k.1 }

def putFallback (k : UInt32 × Bytes32) : PrekeyRows :=
  let row := rows[k.1]?.getD ⟨Prekey.kindFallback, none, false, true⟩
  rows.insert k.1 { row with secret := some k.2, spent := false }

def putSpent (id : UInt32) : PrekeyRows :=
  let row := rows[id]?.getD ⟨Prekey.kindOneTime, none, false, true⟩
  rows.insert id { row with secret := none, spent := true }

/-- Write a pool back. A one-time row it no longer holds goes. -/
def saveState (state : PoolState) : PrekeyRows :=
  let rows := rows.filter fun id r => !r.isOneTime || (state.oneTime.map Prod.fst).contains id
  let rows := state.oneTime.foldl (putOneTime state.unpublished) rows
  let rows := state.fallback.elim rows rows.putFallback
  state.spent.foldl putSpent rows

end

def save (rows : PrekeyRows) (p : Pool) (order : Pool.SaveOrder) : PrekeyRows :=
  rows.saveState (p.save order)

end PrekeyRows

/-! Topping up: one request or one write at a time, so that a device may stop between any two. -/

inductive PoolAnswer (α : Type)
  | ok (a : α)
  | refused
  | lost

def poolTarget : UInt16 := 64
def lowWater : UInt16 := 16
def maxPublish : Nat := 64
/-- More one-time prekeys than any honest pool holds. -/
def runaway : Nat := 4 * 64

/-- How far a top-up has come. `served` is what the exchange counted, where that is known. -/
inductive PoolPhase
  | idle
  /-- A pool that ran away: the exchange is asked to discard what it holds. -/
  | discarding (served : Option UInt16)
  | wiping (served : Option UInt16) (fresh : Pool)
  | wiped (served : Option UInt16) (fresh : Pool)
  | loading (served : Option UInt16)
  /-- An empty pool: the exchange is asked to discard what it holds. -/
  | restarting (served : Option UInt16) (p : Pool)
  | ready (served : Option UInt16) (p : Pool)
  | sending (p : Pool) (ids : List UInt32) (rest : List Prekey)
  | sent (p : Pool)
  | renewing (p : Pool)
  | offering (fallback : Prekey)

/-- A device's prekeys at an exchange. The last three lists are what was done, and nothing reads
them. -/
structure Keeper where
  rows : PrekeyRows
  clock : UInt32
  phase : PoolPhase
  /-- What the exchange may be serving: offered, and neither refused, nor served, nor said to be
  discarded. -/
  onOffer : List Prekey
  minted : List (UInt32 × Bytes32)
  reported : List UInt32

/-- What happens next: the pending request's answer, the next write, or something else. -/
inductive PoolTurn
  | count (a : PoolAnswer UInt16)
  /-- `Clear`; where it is refused, the fallback that `Count` names, if that was answered. -/
  | clear (a : PoolAnswer UInt32) (fallbackId : Option UInt32) (order : Pool.SaveOrder)
  | wipe
  | saveFresh (order : Pool.SaveOrder)
  | load
  | mint (draw : Nat → Bytes32) (order : Pool.SaveOrder)
  | publish (a : PoolAnswer Unit) (order : Pool.SaveOrder)
  | save (order : Pool.SaveOrder)
  | renew (secret : Bytes32) (order : Pool.SaveOrder)
  | offer (a : PoolAnswer Unit)
  | absorb (ids : List UInt32) (order : Pool.SaveOrder)
  /-- The exchange serves a one-time prekey: it is gone there. -/
  | taken (id : UInt32)
  | tick (now : UInt32)
  /-- The device stopped, and starts again from its store. -/
  | restart

def resumed (p : Pool) (next : UInt32) (order : Pool.SaveOrder) : Pool :=
  Pool.load p.seed { p.save order with nextId := max p.nextId next }

def restartPool (p : Pool) (a : PoolAnswer UInt32) (fallbackId : Option UInt32)
    (order : Pool.SaveOrder) : Option Pool :=
  match a with
  | .ok next => some (resumed p next order)
  | .refused => fallbackId.map fun id =>
      resumed p (if id = 0xffffffff then id else id + 1) order
  | .lost => none

def shortOf (p : Pool) (served : Option UInt16) : UInt16 :=
  let have_ := match served with
    | some s => min p.publishedLeft s
    | none => p.publishedLeft
  if have_ + p.unpublishedCount < lowWater then poolTarget - (have_ + p.unpublishedCount) else 0

def secretsOf (p : Pool) (minted : List Prekey) : List (UInt32 × Bytes32) :=
  minted.map fun q => (q.id, p.oneTime[q.id]?.getD 0)

namespace Keeper

def fresh (clock : UInt32) : Keeper := ⟨∅, clock, .idle, [], [], []⟩

def counted (s : Keeper) (served : Option UInt16) : Keeper :=
  { s with phase :=
      if s.rows.oneTimeHeld > runaway then .discarding served else .loading served }

def cleared (s : Keeper) : PoolAnswer UInt32 → Keeper
  | .ok next => { s with onOffer := [], reported := s.reported ++ [next] }
  | .refused | .lost => s

def loaded (seed : Bytes32) (s : Keeper) (served : Option UInt16) : Keeper :=
  let p := s.rows.pool seed s.clock
  { s with phase :=
      if p.oneTimeLeft = 0 ∧ p.fallbackId = 0 then .restarting served p else .ready served p }

def mint (C : Crypto) (s : Keeper) (served : Option UInt16) (p : Pool) (draw : Nat → Bytes32)
    (order : Pool.SaveOrder) : Keeper :=
  let old := p.unpublishedPrekeys C
  let done := p.mintOneTime C (shortOf p served) draw
  let publish := old ++ done.2
  { s with
    rows := s.rows.save done.1 order
    minted := s.minted ++ secretsOf done.1 done.2
    phase :=
      if publish = [] then (if done.1.fallbackId = 0 then .renewing done.1 else .idle)
      else .sending done.1 (publish.map (·.id)) publish }

def publish (s : Keeper) (p : Pool) (ids : List UInt32) (rest : List Prekey) (a : PoolAnswer Unit)
    (order : Pool.SaveOrder) : Keeper :=
  let batch := rest.take maxPublish
  match a with
  | .ok _ =>
    let p := p.markPublished (batch.map (·.id))
    { s with
      onOffer := s.onOffer ++ batch
      phase :=
        if rest.drop maxPublish = [] then .sent p else .sending p ids (rest.drop maxPublish) }
  -- None of these was taken, so the secrets go.
  | .refused => { s with rows := s.rows.save (p.discardUnpublished ids).1 order, phase := .idle }
  | .lost =>
    { s with onOffer := s.onOffer ++ batch, rows := s.rows.save p order, phase := .idle }

def renew (C : Crypto) (s : Keeper) (p : Pool) (secret : Bytes32) (order : Pool.SaveOrder) :
    Keeper :=
  let done := p.mintFallback C secret
  { s with
    rows := s.rows.save done.1 order
    minted := s.minted ++ [(done.2.id, secret)]
    phase := .offering done.2 }

def offer (s : Keeper) (fallback : Prekey) : PoolAnswer Unit → Keeper
  | .ok _ =>
    { s with
      onOffer := s.onOffer.filter (·.kind ≠ Prekey.kindFallback) ++ [fallback]
      phase := .idle }
  | .refused => { s with phase := .idle }
  | .lost => { s with onOffer := s.onOffer ++ [fallback], phase := .idle }

/-- Take the secrets that envelopes name. One-time secrets are spent. -/
def absorb (seed : Bytes32) (s : Keeper) (ids : List UInt32) (order : Pool.SaveOrder) : Keeper :=
  let p := ids.foldl (fun p id => (p.take id).2) (s.rows.pool seed s.clock)
  { s with rows := s.rows.save p order }

def step (C : Crypto) (seed : Bytes32) (s : Keeper) (turn : PoolTurn) : Keeper :=
  match s.phase, turn with
  | .idle, .count (.ok served) => s.counted (some served)
  | .idle, .count .lost => s.counted none
  -- A pool this exchange refuses is no pool.
  | .idle, .count .refused => { s with rows := s.rows.wipeOneTime }
  | .discarding served, .clear a fallbackId order =>
    let s := s.cleared a
    { s with phase := (restartPool (.new seed) a fallbackId order).elim .idle (.wiping served ·) }
  | .wiping served p, .wipe => { s with rows := s.rows.wipeOneTime, phase := .wiped served p }
  | .wiped served p, .saveFresh order =>
    { s with rows := s.rows.save p order, phase := .loading served }
  | .loading served, .load => s.loaded seed served
  | .restarting served p, .clear a fallbackId order =>
    let s := s.cleared a
    { s with phase := (restartPool p a fallbackId order).elim .idle (.ready served ·) }
  | .ready served p, .mint draw order => s.mint C served p draw order
  | .sending p ids rest, .publish a order => s.publish p ids rest a order
  | .sent p, .save order => { s with rows := s.rows.save p order, phase := .renewing p }
  | .renewing p, .renew secret order => s.renew C p secret order
  | .offering fallback, .offer a => s.offer fallback a
  | .idle, .absorb ids order => s.absorb seed ids order
  | _, .taken id =>
    { s with onOffer := s.onOffer.filter fun q =>
        !(q.kind == Prekey.kindOneTime && q.id == id) }
  | _, .tick now => { s with clock := max s.clock now }
  | _, .restart => { s with phase := .idle }
  | _, _ => s

end Keeper
end Sqex.Chat
