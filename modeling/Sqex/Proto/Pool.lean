import Sqex.Proto.Primitives
import Sqex.Lib.Collections

/-! Device prekeys and the pool that mints, publishes and spends them. -/
namespace Sqex
open Std

def Prekey.context : Bytes := "sqex-prekey-v1".toUTF8.toList

def Prekey.kindOneTime : UInt8 := 0x01
/-- Served whenever the one-time pool is empty, and reusable. -/
def Prekey.kindFallback : UInt8 := 0x02

structure Prekey where
  kind : UInt8
  id : UInt32
  publicHalf : Bytes32
  signature : Bytes64
  deriving DecidableEq

def Prekey.signingInput (device : PubKey) (kind : UInt8) (id : UInt32)
    (publicHalf : Bytes32) : Bytes :=
  context ++ Bytes32.toBytes device ++ [kind] ++ beBytes 4 id.toNat ++
    Bytes32.toBytes publicHalf

def Prekey.forSecret (C : Crypto) (deviceSeed : Bytes32) (kind : UInt8) (id : UInt32)
    (secret : Bytes32) : Prekey :=
  let publicHalf := C.x25519Public secret
  { kind, id, publicHalf,
    signature := C.sign deviceSeed
      (signingInput (C.publicKey deviceSeed) kind id publicHalf) }

@[simp] theorem Prekey.forSecret_id (C : Crypto) (deviceSeed : Bytes32) (kind : UInt8)
    (id : UInt32) (secret : Bytes32) :
    (Prekey.forSecret C deviceSeed kind id secret).id = id := rfl

/-- The secrets behind a device's published prekeys. -/
structure Pool where
  seed : Bytes32
  nextId : UInt32
  oneTime : ExtTreeMap UInt32 Bytes32
  fallback : Option (UInt32 × Bytes32)
  spent : ExtTreeSet UInt32
  /-- One-time ids no exchange has acknowledged yet. -/
  unpublished : ExtTreeSet UInt32

/-- A pool's contents as plain data, in the order its maps were walked. -/
structure PoolState where
  nextId : UInt32
  oneTime : List (UInt32 × Bytes32)
  fallback : Option (UInt32 × Bytes32)
  spent : List UInt32
  unpublished : List UInt32

namespace Pool

section
variable (C : Crypto) (p : Pool) (order : SaveOrder) (id : UInt32)

/-- An empty pool. Ids start at 1, since 0 is reserved. -/
def new (seed : Bytes32) : Pool where
  seed := seed
  nextId := 1
  oneTime := ∅
  fallback := none
  spent := ∅
  unpublished := ∅

/-- One turn of `mintOneTime`, for the secret the generator drew. -/
def mintNext (secret : Bytes32) : Pool × Prekey :=
  let id := p.nextId
  ({ p with
      nextId := p.nextId + 1
      oneTime := p.oneTime.insert id secret
      unpublished := p.unpublished.insert id },
    .forSecret C p.seed Prekey.kindOneTime id secret)

def mintEach (C : Crypto) (p : Pool) : List Bytes32 → Pool × List Prekey
  | [] => (p, [])
  | secret :: rest =>
    let (p, first) := p.mintNext C secret
    let (p, others) := mintEach C p rest
    (p, first :: others)

def mintOneTime (n : UInt16) (draw : Nat → Bytes32) : Pool × List Prekey :=
  p.mintEach C ((List.range n.toNat).map draw)

/-- The one-time prekeys no exchange has acknowledged, lowest id first: the
order the set is listed in. -/
def unpublishedPrekeys : List Prekey :=
  p.unpublished.toList.filterMap fun id =>
    p.oneTime[id]?.map (Prekey.forSecret C p.seed Prekey.kindOneTime id)

def unpublishedCount : UInt16 := UInt16.ofNat p.unpublished.size

/-- Unspent and acknowledged, by a subtraction that wraps. -/
def publishedLeft : UInt16 :=
  (UInt64.ofNat p.oneTime.size - UInt64.ofNat p.unpublished.size).toUInt16

def markPublished (ids : List UInt32) : Pool :=
  { p with unpublished := ids.foldl (fun u id => u.erase id) p.unpublished }

/-- One turn of `discardUnpublished`: whether a secret went. -/
def discardNext : Pool × Bool :=
  if id ∈ p.unpublished then
    ({ p with unpublished := p.unpublished.erase id, oneTime := p.oneTime.erase id },
      decide (id ∈ p.oneTime))
  else (p, false)

/-- The exchange refused these: the secrets go, and are counted. -/
def discardUnpublished (p : Pool) : List UInt32 → Pool × Nat
  | [] => (p, 0)
  | id :: ids =>
    let (p, gone) := p.discardNext id
    let (p, n) := p.discardUnpublished ids
    (p, n + gone.toNat)

def mintFallback (secret : Bytes32) : Pool × Prekey :=
  let id := p.nextId
  ({ p with
      nextId := p.nextId + 1
      fallback := some (id, secret)
      spent := match p.fallback with
        | some (old, _) => p.spent.insert old
        | none => p.spent },
    .forSecret C p.seed Prekey.kindFallback id secret)

def take : Except Error Bytes32 × Pool :=
  if id = 0 then
    (.error (.malformed "envelope names prekey id 0, which is invalid"), p)
  else if id ∈ p.spent then
    (.error (.key s!"prekey {id} is spent: the exchange served it twice, or this is a replay"), p)
  else match p.oneTime[id]? with
    | some secret =>
      (.ok secret, { p with oneTime := p.oneTime.erase id, spent := p.spent.insert id })
    | none =>
      match p.fallback with
      | some (f, secret) =>
        if f = id then (.ok secret, p)
        else (.error (.key s!"prekey {id} was never published by us"), p)
      | none => (.error (.key s!"prekey {id} was never published by us"), p)

def oneTimeLeft : UInt16 := UInt16.ofNat p.oneTime.size

def fallbackId : UInt32 := p.fallback.elim 0 Prod.fst

/-- The orders the three unordered collections are walked in. -/
structure SaveOrder where
  oneTime : IterOrder (UInt32 × Bytes32)
  spent : IterOrder UInt32
  unpublished : IterOrder UInt32

/-- Everything the pool would need to be rebuilt, secrets included. -/
def save : PoolState where
  nextId := p.nextId
  oneTime := order.oneTime.walk p.oneTime.toList
  fallback := p.fallback
  spent := order.spent.walk p.spent.toList
  unpublished := order.unpublished.walk p.unpublished.toList

def load (seed : Bytes32) (state : PoolState) : Pool :=
  let oneTime := ExtTreeMap.ofList state.oneTime
  { seed
    nextId := max state.nextId 1
    oneTime
    fallback := state.fallback
    spent := ExtTreeSet.ofList state.spent
    unpublished := ExtTreeSet.ofList (state.unpublished.filter fun id => decide (id ∈ oneTime)) }

inductive Op where
  | mintOneTime (n : UInt16) (draw : Nat → Bytes32)
  | mintFallback (secret : Bytes32)
  | take (id : UInt32)
  | markPublished (ids : List UInt32)
  | discardUnpublished (ids : List UInt32)
  | restart (order : SaveOrder)

def step : Op → Pool
  | .mintOneTime n draw => (p.mintOneTime C n draw).1
  | .mintFallback secret => (p.mintFallback C secret).1
  | .take id => (p.take id).2
  | .markPublished ids => p.markPublished ids
  | .discardUnpublished ids => (p.discardUnpublished ids).1
  | .restart order => load p.seed (p.save order)

theorem load_save :
    load p.seed (p.save order) = { p with
      nextId := max p.nextId 1
      unpublished := ExtTreeSet.ofList
        ((order.unpublished.walk p.unpublished.toList).filter fun id =>
          decide (id ∈ p.oneTime)) } := by
  simp [load, save]

theorem mem_unpublished_restart :
    id ∈ (load p.seed (p.save order)).unpublished ↔ id ∈ p.unpublished ∧ id ∈ p.oneTime := by
  simp [load_save]

theorem mem_unpublished_markPublished (ids : List UInt32) (id : UInt32) :
    id ∈ (p.markPublished ids).unpublished ↔ id ∈ p.unpublished ∧ id ∉ ids := by
  suffices ∀ u : ExtTreeSet UInt32,
      id ∈ ids.foldl (fun u id => u.erase id) u ↔ id ∈ u ∧ id ∉ ids from this _
  intro u
  induction ids generalizing u with
  | nil => simp
  | cons j ids ih =>
    rw [List.foldl_cons, ih]
    grind

/-- What a successful or refused `take` leaves, case by case. -/
theorem take_cases :
    (∃ secret, p.oneTime[id]? = some secret ∧ id ≠ 0 ∧ id ∉ p.spent ∧
      p.take id = (.ok secret,
        { p with oneTime := p.oneTime.erase id, spent := p.spent.insert id })) ∨
    (∃ secret, p.fallback = some (id, secret) ∧ id ∉ p.oneTime ∧ id ≠ 0 ∧ id ∉ p.spent ∧
      p.take id = (.ok secret, p)) ∨
    ∃ e, p.take id = (.error e, p) := by
  unfold take
  split_ifs with hzero hspent
  · exact Or.inr (Or.inr ⟨_, rfl⟩)
  · exact Or.inr (Or.inr ⟨_, rfl⟩)
  · cases hone : p.oneTime[id]? with
    | some secret => exact Or.inl ⟨secret, rfl, hzero, hspent, rfl⟩
    | none =>
      have hnot : id ∉ p.oneTime := by grind
      cases hf : p.fallback with
      | none => exact Or.inr (Or.inr ⟨_, rfl⟩)
      | some f =>
        obtain ⟨f, secret⟩ := f
        by_cases heq : f = id
        · subst heq
          exact Or.inr (Or.inl ⟨secret, rfl, hnot, hzero, hspent, by simp⟩)
        · exact Or.inr (Or.inr ⟨.key s!"prekey {id} was never published by us", by simp [heq]⟩)

end

end Pool
end Sqex
