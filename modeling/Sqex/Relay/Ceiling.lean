import Sqex.Relay.Indexes

/-! The ceiling on bridges. A call placed here, and an invite from any link, asks whether there is
room under one hold of the relay's lock and puts its bridge there under a later one; between the two
others take the lock. -/
namespace Sqex.Relay
open Std Runs

inductive Task where
  | call (caller : PubKey) (target : String) (eph : Bytes32) (now : UInt64)
  | invite (peer : PubKey) (c : Control)
  deriving DecidableEq

/-- What a task comes to know, or draws, once it has found room. -/
structure Found where
  route : RelayInner.Route
  bridge : Bridge
  heard : RelayInner.Heard

/-- The later hold. An invite was not refused for want of room. -/
def Task.held (f : Found) : Task → RelayInner.Held
  | .call caller target eph now => .insert caller target eph now f.route f.bridge
  | .invite peer c => .control { f.heard with full := false } peer c

/-- Whether a hold is one that only a task which found room comes to. -/
def RelayInner.Held.inserts : RelayInner.Held → Bool
  | .insert .. | .control _ _ (.invite ..) | .control _ _ (.inviteDevice ..) => true
  | _ => false

/-- The relay's state, and the tasks between their two holds. -/
structure Relaying where
  maxBridges : Option UInt64
  inner : RelayInner
  passed : List Task

def Relaying.new (links : PubKey → Bool) (maxBridges : Option UInt64) : Relaying :=
  ⟨maxBridges, .empty links, []⟩

def Relaying.atCapacity (s : Relaying) : Bool :=
  s.maxBridges.any fun m => decide (s.inner.bridges.size ≥ m.toNat)

inductive Turn where
  | asks (t : Task)
  | inserts (t : Task) (f : Found)
  /-- A task that went on is refused after all, or finds no way there. -/
  | givesUp (t : Task)
  | holds (h : RelayInner.Held)

def Relaying.turn (s : Relaying) : Turn → Relaying
  | .asks t => if s.atCapacity then s else { s with passed := s.passed ++ [t] }
  | .inserts t f =>
    if t ∈ s.passed then
      { s with inner := s.inner.step (t.held f), passed := s.passed.erase t }
    else s
  | .givesUp t => { s with passed := s.passed.erase t }
  | .holds h => if h.inserts then s else { s with inner := s.inner.step h }

def Relaying.Under (s : Relaying) : Prop := ∀ m ∈ s.maxBridges, s.inner.bridges.size ≤ m.toNat

namespace RelayInner

/-- Whether a hold puts a bridge that is not in the table and takes no other's place. -/
def adds (r : RelayInner) : Held → Bool
  | .insert caller target _ _ _ bridge =>
    (r.indexed (r.callerIndex (caller, target))).isNone && !r.bridges.contains bridge
  | .control x _ (.invite bridge _ _ _ _ word) =>
    (refusal x word).isNone && !r.bridges.contains bridge
  | .control x _ (.inviteDevice bridge _ _ _) =>
    !(x.full || !x.listed && !x.vouched) &&
      (x.waiting.isNone || (r.nextSession x.draws).isSome) && !r.bridges.contains bridge
  | _ => false

end RelayInner

def Relaying.StillRoom (s : Relaying) : Turn → Prop
  | .inserts t f => t ∈ s.passed → s.inner.adds (t.held f) →
      ∀ m ∈ s.maxBridges, s.inner.bridges.size < m.toNat
  | _ => True

namespace RelayInner
variable {r : RelayInner} {bridge : Bridge} {b : BridgeRec} {x : Heard} {peer : PubKey}

theorem contains_of_some (hb : r.bridges[bridge]? = some b) :
    r.bridges.contains bridge = true := by
  simp [ExtTreeMap.contains_eq_isSome_getElem?, hb]

theorem size_insert_of_some (hb : r.bridges[bridge]? = some b) (b' : BridgeRec) :
    (r.bridges.insert bridge b').size = r.bridges.size := by
  rw [ExtTreeMap.size_insert, if_pos (contains_of_some hb)]

theorem size_insertBridge (r : RelayInner) (bridge : Bridge) (b : BridgeRec) :
    (r.insertBridge bridge b).bridges.size =
      r.bridges.size + if r.bridges.contains bridge then 0 else 1 := by
  simp only [insertBridge, ExtTreeMap.size_insert]
  split <;> rfl

theorem size_dropBridge (hb : r.bridges[bridge]? = some b) :
    (r.dropBridge bridge).bridges.size + 1 = r.bridges.size := by
  have hheld := contains_of_some hb
  have hpos : r.bridges.size ≠ 0 := by
    intro hzero
    rw [ExtTreeMap.eq_empty_iff_size_eq_zero.mpr hzero] at hheld
    simp at hheld
  simp only [dropBridge, hb, ExtTreeMap.size_erase, hheld, if_true]
  omega

theorem size_dropBridge_le (r : RelayInner) (bridge : Bridge) :
    (r.dropBridge bridge).bridges.size ≤ r.bridges.size := by
  cases hb : r.bridges[bridge]? with
  | none => simp [dropBridge, hb]
  | some b =>
    have hsize := size_dropBridge hb
    omega

theorem size_expire_le (o : IterOrder (Bridge × BridgeRec)) (now : UInt64) :
    (r.expire o now).1.bridges.size ≤ r.bridges.size := by
  have hfold : ∀ (dead : List (Bridge × BridgeRec)) (r : RelayInner) (sent : Sent),
      (dead.foldl (fun (p : RelayInner × Sent) (d : Bridge × BridgeRec) =>
        ((p.1.endBridge d.1 d.2.peer).1, p.2 ++ (p.1.endBridge d.1 d.2.peer).2))
          (r, sent)).1.bridges.size ≤ r.bridges.size := by
    intro dead
    induction dead with
    | nil => exact fun r _ => Nat.le_refl _
    | cons d dead ih =>
      intro r sent
      exact (ih _ _).trans (r.size_dropBridge_le d.1)
  exact hfold _ r []

theorem size_onControl (c : Control) (hadds : r.adds (.control x peer c) = false) :
    (r.onControl x peer c).1.bridges.size ≤ r.bridges.size := by
  cases c with
  | invite bridge caller callerEph account domain word =>
    simp only [onControl]
    cases hrefusal : refusal x word with
    | some reason => exact Nat.le_refl _
    | none =>
      have hheld : r.bridges.contains bridge = true := by simpa [adds, hrefusal] using hadds
      rw [size_insertBridge, hheld]
      simp
  | inviteDevice bridge caller callerEph device =>
    simp only [onControl]
    split
    · exact Nat.le_refl _
    · next hopen =>
      have hgate : (x.full || !x.listed && !x.vouched) = false := by simpa using hopen
      cases hwaiting : x.waiting with
      | none =>
        have hheld : r.bridges.contains bridge = true := by
          simpa [adds, hgate, hwaiting] using hadds
        simp [size_insertBridge, hheld]
      | some eph =>
        cases hsid : r.nextSession x.draws with
        | none => exact Nat.le_refl _
        | some sid =>
          have hheld : r.bridges.contains bridge = true := by
            simpa [adds, hgate, hwaiting, hsid] using hadds
          simp [size_insertBridge, hheld]
  | ringing bridge => exact Nat.le_refl _
  | accept bridge callee calleeEph =>
    simp only [onControl]
    split
    · next hb _ => exact (size_insert_of_some hb _).le
    · exact Nat.le_refl _
  | reject bridge reason =>
    simp only [onControl]
    split
    · exact Nat.le_refl _
    · next hb =>
      split <;> exact (size_insert_of_some hb _).le
  | close bridge reason => exact r.size_dropBridge_le bridge

theorem size_answer_le (device caller : PubKey) (eph : Bytes32) (account : PubKey)
    (now : UInt64) (draws : List UInt64) :
    (r.tryAnswer device caller eph account now draws).1.bridges.size ≤ r.bridges.size := by
  simp only [tryAnswer]
  split
  · exact Nat.le_refl _
  · next hindexed =>
    have hb := (indexed_some.mp hindexed).2
    split
    · exact Nat.le_refl _
    · split
      · split <;> exact Nat.le_refl _
      · split
        · exact Nat.le_refl _
        · exact (size_insert_of_some hb _).le

theorem size_step_le (held : Held) (hadds : r.adds held = false) :
    (r.step held).bridges.size ≤ r.bridges.size := by
  cases held with
  | poll caller target eph now =>
    simp only [step, perform, pollCall]
    split
    · exact Nat.le_refl _
    · split
      · dsimp only
        split
        · exact r.size_dropBridge_le _
        · exact Nat.le_refl _
      · exact r.size_dropBridge_le _
  | insert caller target eph now route bridge =>
    simp only [step, perform, insertCall]
    cases hindexed : r.indexed (r.callerIndex (caller, target)) with
    | none =>
      have hheld : r.bridges.contains bridge = true := by simpa [adds, hindexed] using hadds
      simp [size_insertBridge, hheld]
    | some old =>
      have hdrop := size_dropBridge ((indexed_some.mp hindexed).2)
      dsimp only
      split
      · exact Nat.le_refl _
      · simp only [endBridge, size_insertBridge]
        split <;> omega
  | answer device caller eph account now draws =>
    exact size_answer_le device caller eph account now draws
  | decline account bridge reason =>
    simp only [step, perform, decline]
    split
    · exact Nat.le_refl _
    · split
      · exact r.size_dropBridge_le _
      · exact Nat.le_refl _
  | close me sid =>
    simp only [step, perform, closeBridge]
    split
    · exact Nat.le_refl _
    · split
      · exact Nat.le_refl _
      · split
        · exact r.size_dropBridge_le _
        · exact Nat.le_refl _
  | control x peer c => exact size_onControl c hadds
  | expire o now => exact size_expire_le o now

theorem size_step_adds (held : Held) (hadds : r.adds held = true) :
    (r.step held).bridges.size = r.bridges.size + 1 := by
  unfold adds at hadds
  split at hadds
  · next caller target eph now route bridge =>
    simp only [Bool.and_eq_true, Option.isNone_iff_eq_none, Bool.not_eq_true'] at hadds
    simp only [step, perform, insertCall, hadds.1, size_insertBridge, hadds.2]
    rfl
  · next x peer bridge caller callerEph account domain word =>
    simp only [Bool.and_eq_true, Option.isNone_iff_eq_none, Bool.not_eq_true'] at hadds
    simp only [step, perform, onControl, hadds.1, size_insertBridge, hadds.2]
    rfl
  · next x peer bridge caller callerEph device =>
    simp only [Bool.and_eq_true, Bool.not_eq_true'] at hadds
    obtain ⟨⟨hgate, hsession⟩, hfree⟩ := hadds
    have hopen : ¬ (x.full = true ∨ x.listed = false ∧ x.vouched = false) := by simpa using hgate
    simp only [step, perform, onControl, if_neg hopen]
    cases hwaiting : x.waiting with
    | none => simp [size_insertBridge, hfree]
    | some eph =>
      cases hsid : r.nextSession x.draws with
      | none => simp [hwaiting, hsid] at hsession
      | some sid => simp [size_insertBridge, hfree]
  · cases hadds

theorem adds_of_inserts {held : Held} (h : held.inserts = false) : r.adds held = false := by
  unfold adds
  split
  · cases h
  · cases h
  · cases h
  · rfl

end RelayInner

namespace Relaying
variable {s : Relaying}

theorem turn_under_iff (hunder : s.Under) (i : Turn) : (s.turn i).Under ↔ s.StillRoom i := by
  cases i with
  | asks t =>
    simp only [turn, StillRoom, iff_true]
    split <;> exact hunder
  | givesUp t => exact iff_true_intro hunder
  | holds h =>
    simp only [turn, StillRoom, iff_true]
    split
    · exact hunder
    · next hholds =>
      have hadds := RelayInner.adds_of_inserts (r := s.inner) (Bool.eq_false_iff.mpr hholds)
      exact fun m hm => (RelayInner.size_step_le h hadds).trans (hunder m hm)
  | inserts t f =>
    simp only [turn, StillRoom]
    split
    · next hpassed =>
      cases hadds : s.inner.adds (t.held f) with
      | false =>
        have hle := RelayInner.size_step_le _ hadds
        simp only [Bool.false_eq_true, false_imp_iff, implies_true, iff_true]
        exact fun m hm => hle.trans (hunder m hm)
      | true =>
        have hsize := RelayInner.size_step_adds _ hadds
        simp only [Under, hsize, hpassed, true_imp_iff]
        exact Iff.rfl
    · next hgone => exact ⟨fun _ hpassed => absurd hpassed hgone, fun _ => hunder⟩

end Relaying

/-- Over any interleaving of calls placed, invites and whatever else takes the lock, there are
never more bridges than there may be exactly if each task that adds one finds, under the hold in
which it does, that there is still room. -/
theorem bridges_under_ceiling_iff (links : PubKey → Bool) (maxBridges : Option UInt64)
    (turns : List Turn) : Always Relaying.Under Relaying.turn (.new links maxBridges) turns ↔
      Each Relaying.StillRoom Relaying.turn (.new links maxBridges) turns := by
  have hnew : (Relaying.new links maxBridges).Under := by
    simp [Relaying.Under, Relaying.new, RelayInner.empty]
  exact always_iff_each (fun s i hs => Relaying.turn_under_iff hs i) hnew

/-- Two calls find room for one bridge, and both put theirs. -/
theorem calls_pass_ceiling : ¬∀ (links : PubKey → Bool) (maxBridges : Option UInt64)
    (turns : List Turn), Always Relaying.Under Relaying.turn (.new links maxBridges) turns := by
  intro h
  let first : Task := .call 1 "there" 11 1000
  let second : Task := .call 2 "there" 12 1000
  let route : RelayInner.Route := ⟨7, 3, false, true, none⟩
  let heard : RelayInner.Heard := ⟨1000, true, true, false, true, false, 3, none, []⟩
  have hlast := (h (fun _ => true) (some 1) [.asks first, .asks second,
    .inserts first ⟨route, 21, heard⟩, .inserts second ⟨route, 22, heard⟩]).2.2.2.2 1 rfl
  revert hlast
  decide +kernel

end Sqex.Relay
