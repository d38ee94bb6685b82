import Sqex.Lib.Runs
import Sqex.Relay.Bridges

/-! The indexes over the bridges: whether each names the bridges that are there, each under
its own key, over any run of the relay. -/
namespace Sqex.Relay
open Std Runs

namespace RelayInner
variable {r : RelayInner} {bridge : Bridge} {b b' : BridgeRec} {sid : UInt64}

section
variable (r : RelayInner) (bridge : Bridge)

def table : Option BridgeRec := r.bridges[bridge]?

theorem table_insert (b : BridgeRec) :
    (fun k => (r.bridges.insert bridge b)[k]?) = Function.update r.table bridge (some b) := by
  funext k
  rw [lookup_insert, Function.update_apply]
  simp [table, eq_comm]

theorem table_erase :
    (fun k => (r.bridges.erase bridge)[k]?) = Function.update r.table bridge none := by
  funext k
  rw [lookup_erase, Function.update_apply]
  simp [table, eq_comm]

structure Consistent : Prop where
  callers : Indexes r.table BridgeRec.callerKey r.callerIndex
  callees : Indexes r.table BridgeRec.calleeKey r.calleeIndex
  sessions : Indexes r.table BridgeRec.sessionKey r.bySession

def Minted : Prop :=
  ∀ (k : Bridge) (b : BridgeRec), r.table k = some b →
    (b.sessionId ≠ 0 → b.sessionId &&& bridgeBit ≠ 0) ∧ (b.callee = none → b.sessionId = 0)

end

theorem nextSession_some {draws : List UInt64} (hsid : r.nextSession draws = some sid) :
    r.bySession sid = none ∧ sid &&& bridgeBit ≠ 0 := by
  unfold nextSession at hsid
  have hfree := List.find?_some hsid
  obtain ⟨n, -, rfl⟩ := List.mem_map.mp (List.mem_of_find?_eq_some hsid)
  refine ⟨by simpa using hfree, fun hzero => ?_⟩
  have hbit : (bridgeBit ||| n) &&& bridgeBit = bridgeBit := by
    rw [← UInt64.toBitVec_inj]
    ext i hi
    simp only [UInt64.toBitVec_and, UInt64.toBitVec_or, BitVec.getElem_and, BitVec.getElem_or]
    cases bridgeBit.toBitVec[i] <;> simp
  rw [hbit] at hzero
  exact absurd hzero (by decide)

theorem sessionKey_some (hsid : sid &&& bridgeBit ≠ 0) (hb : b.sessionId = sid) :
    b.sessionKey = some sid := by
  have hne : sid ≠ 0 := by
    rintro rfl
    exact hsid (by decide)
  simp [BridgeRec.sessionKey, hb, hne]

theorem sessionKey_eq_none : b.sessionKey = none ↔ b.sessionId = 0 := by
  simp [BridgeRec.sessionKey]

theorem sessionId_of_key (hkey : b.sessionKey = some sid) : b.sessionId = sid := by
  unfold BridgeRec.sessionKey at hkey
  split_ifs at hkey
  exact Option.some.inj hkey

theorem indexed_some {k : Option Bridge} : r.indexed k = some (bridge, b) ↔
    k = some bridge ∧ r.table bridge = some b := by
  cases k with
  | none => simp [indexed]
  | some k =>
    simp only [indexed, Option.bind_some, Option.map_eq_some_iff, Prod.mk.injEq, Option.some.injEq]
    constructor
    · rintro ⟨b', hb', rfl, rfl⟩
      exact ⟨rfl, hb'⟩
    · rintro ⟨rfl, hb⟩
      exact ⟨b, hb, rfl, rfl⟩

section Drop

theorem dropBridge_table (r : RelayInner) (bridge : Bridge) :
    (r.dropBridge bridge).table = Function.update r.table bridge none := by
  unfold dropBridge
  cases hb : r.bridges[bridge]? with
  | none =>
    have hnone : r.table bridge = none := hb
    exact (Function.update_eq_self_iff.mpr hnone.symm).symm
  | some b => exact table_erase r bridge

theorem dropBridge_consistent (hcons : Consistent r) (bridge : Bridge) :
    Consistent (r.dropBridge bridge) := by
  have htable := r.dropBridge_table bridge
  cases hb : r.bridges[bridge]? with
  | none =>
    have hsame : r.dropBridge bridge = r := by simp [dropBridge, hb]
    rw [hsame]
    exact hcons
  | some b =>
    have hkeys : (r.dropBridge bridge).callerIndex = strikeOut r.callerIndex b.callerKey ∧
        (r.dropBridge bridge).calleeIndex = strikeOut r.calleeIndex b.calleeKey ∧
        (r.dropBridge bridge).bySession = strikeOut r.bySession b.sessionKey := by
      simp [dropBridge, hb]
    obtain ⟨hcaller, hcallee, hsession⟩ := hkeys
    refine ⟨?_, ?_, ?_⟩
    · rw [htable, hcaller]
      exact hcons.callers.drop hb
    · rw [htable, hcallee]
      exact hcons.callees.drop hb
    · rw [htable, hsession]
      exact hcons.sessions.drop hb

theorem dropBridge_minted (hminted : Minted r) (bridge : Bridge) :
    Minted (r.dropBridge bridge) := by
  intro k b hb
  rw [dropBridge_table, Function.update_apply] at hb
  split_ifs at hb
  exact hminted k b hb

theorem expire_keeps {P : RelayInner → Prop} (hdrop : ∀ r k, P r → P (r.dropBridge k))
    (o : IterOrder (Bridge × BridgeRec)) (now : UInt64) (hr : P r) : P (r.expire o now).1 := by
  unfold expire
  generalize (o.walk r.bridges.toList).filter (fun p => outlived now p.2) = dead
  generalize ([] : Sent) = sent
  induction dead generalizing r sent with
  | nil => exact hr
  | cons p rest ih => exact ih (hdrop r p.1 hr) (sent ++ r.sendControl p.2.peer _)

end Drop

section Put

theorem insertBridge_table (r : RelayInner) (bridge : Bridge) (b : BridgeRec) :
    (r.insertBridge bridge b).table = Function.update r.table bridge (some b) :=
  table_insert r bridge b

structure Fits (r : RelayInner) (bridge : Bridge) (b : BridgeRec) : Prop where
  place : ∀ old, r.table bridge = some old →
    (old.callerKey = none ∨ old.callerKey = b.callerKey) ∧
      (old.calleeKey = none ∨ old.calleeKey = b.calleeKey) ∧
      (old.sessionKey = none ∨ old.sessionKey = b.sessionKey)
  caller : ∀ i k, b.callerKey = some i → r.callerIndex i = some k → k = bridge
  callee : ∀ i k, b.calleeKey = some i → r.calleeIndex i = some k → k = bridge
  session : ∀ i k, b.sessionKey = some i → r.bySession i = some k → k = bridge

theorem insertBridge_consistent_iff (hcons : Consistent r) (bridge : Bridge) (b : BridgeRec) :
    Consistent (r.insertBridge bridge b) ↔ Fits r bridge b := by
  have hcallers := hcons.callers.put_iff bridge b
  have hcallees := hcons.callees.put_iff bridge b
  have hsessions := hcons.sessions.put_iff bridge b
  rw [← insertBridge_table] at hcallers hcallees hsessions
  constructor
  · intro hafter
    obtain ⟨hcaller, hcaller'⟩ := hcallers.mp hafter.callers
    obtain ⟨hcallee, hcallee'⟩ := hcallees.mp hafter.callees
    obtain ⟨hsession, hsession'⟩ := hsessions.mp hafter.sessions
    exact ⟨fun old hold => ⟨hcaller old hold, hcallee old hold, hsession old hold⟩, hcaller',
      hcallee', hsession'⟩
  · intro hfits
    refine ⟨hcallers.mpr ⟨fun old hold => ?_, hfits.caller⟩,
      hcallees.mpr ⟨fun old hold => ?_, hfits.callee⟩,
      hsessions.mpr ⟨fun old hold => ?_, hfits.session⟩⟩
    · exact (hfits.place old hold).1
    · exact (hfits.place old hold).2.1
    · exact (hfits.place old hold).2.2

theorem insertBridge_minted (hminted : Minted r) {bridge : Bridge}
    (hb : (b.sessionId ≠ 0 → b.sessionId &&& bridgeBit ≠ 0) ∧ (b.callee = none → b.sessionId = 0)) :
    Minted (r.insertBridge bridge b) := by
  intro k b' hb'
  rw [insertBridge_table, Function.update_apply] at hb'
  split_ifs at hb'
  · obtain rfl := Option.some.inj hb'
    exact hb
  · exact hminted k b' hb'

theorem amend_consistent (hcons : Consistent r) (hb : r.table bridge = some b)
    (hcaller : b'.callerKey = b.callerKey) (hcallee : b'.calleeKey = b.calleeKey)
    (hsession : b'.sessionKey = b.sessionKey) :
    Consistent { r with bridges := r.bridges.insert bridge b' } := by
  have htable : RelayInner.table { r with bridges := r.bridges.insert bridge b' } =
      Function.update r.table bridge (some b') := table_insert r bridge b'
  refine ⟨?_, ?_, ?_⟩
  · rw [htable]
    exact hcons.callers.change hb hcaller
  · rw [htable]
    exact hcons.callees.change hb hcallee
  · rw [htable]
    exact hcons.sessions.change hb hsession

theorem session_consistent_iff (hcons : Consistent r) (hb : r.table bridge = some b)
    (hcaller : b'.callerKey = b.callerKey) (hcallee : b'.calleeKey = b.calleeKey)
    (hsession : b'.sessionKey = some sid) (hfree : r.bySession sid = none) :
    Consistent { r with
        bridges := r.bridges.insert bridge b'
        bySession := Function.update r.bySession sid (some bridge) } ↔ b.sessionId = 0 := by
  have htable : RelayInner.table { r with
      bridges := r.bridges.insert bridge b'
      bySession := Function.update r.bySession sid (some bridge) } =
      Function.update r.table bridge (some b') := table_insert r bridge b'
  have hput := hcons.sessions.put_iff bridge b'
  simp only [hsession, fileUnder] at hput
  constructor
  · intro hafter
    have hindexes := hafter.sessions
    rw [htable] at hindexes
    rcases (hput.mp hindexes).1 b hb with hnone | hsome
    · exact sessionKey_eq_none.mp hnone
    · have hheld := hcons.sessions.named bridge b sid hb hsome
      rw [hfree] at hheld
      cases hheld
  · intro hzero
    refine ⟨?_, ?_, ?_⟩
    · rw [htable]
      exact hcons.callers.change hb hcaller
    · rw [htable]
      exact hcons.callees.change hb hcallee
    · rw [htable]
      refine hput.mpr ⟨fun old hold => ?_, fun i k hi hk => ?_⟩
      · obtain rfl := Option.some.inj (hb.symm.trans hold)
        exact .inl (sessionKey_eq_none.mpr hzero)
      · obtain rfl := Option.some.inj hi
        rw [hfree] at hk
        cases hk

theorem amend_minted (hminted : Minted r) {bridge : Bridge} {bySession : UInt64 → Option Bridge}
    (hb : (b.sessionId ≠ 0 → b.sessionId &&& bridgeBit ≠ 0) ∧ (b.callee = none → b.sessionId = 0)) :
    Minted { r with bridges := r.bridges.insert bridge b, bySession } := by
  intro k b' hb'
  have hrow : (r.bridges.insert bridge b)[k]? = some b' := hb'
  rw [lookup_insert] at hrow
  split_ifs at hrow
  · obtain rfl := Option.some.inj hrow
    exact hb
  · exact hminted k b' hrow

end Put

def Unclaimed (r : RelayInner) (bridge : Bridge) (key : PubKey × PubKey) : Prop :=
  (∀ old, r.table bridge = some old → old.calleeKey = some key ∧ old.sessionId = 0) ∧
    ∀ k, r.calleeIndex key = some k → k = bridge

def admitsDevice (r : RelayInner) (x : Heard) : Prop :=
  ¬ (x.full ∨ (x.listed = false ∧ x.vouched = false)) ∧
    (x.waiting.isSome → (r.nextSession x.draws).isSome)

def Clear (r : RelayInner) : Held → Prop
  | .insert caller target eph _ _ bridge =>
    (∀ k b, r.indexed (r.callerIndex (caller, target)) = some (k, b) → b.callerEph ≠ eph) →
      (r.table bridge).isSome → r.callerIndex (caller, target) = some bridge
  | .control x _ (.invite bridge caller _ account _ word) =>
    refusal x word = none → r.Unclaimed bridge (caller, account)
  | .control x _ (.inviteDevice bridge caller _ _) =>
    r.admitsDevice x → r.Unclaimed bridge (caller, x.owner)
  | .control x _ (.accept bridge _ _) =>
    (r.nextSession x.draws).isSome → ∀ old, r.table bridge = some old → old.sessionId = 0
  | _ => True

structure Sound (r : RelayInner) : Prop where
  consistent : Consistent r
  minted : Minted r

theorem sound_empty (links : PubKey → Bool) : Sound (.empty links) := by
  have htable : (RelayInner.empty links).table = fun _ => none := by
    funext k
    simp [table, empty]
  refine ⟨⟨?_, ?_, ?_⟩, ?_⟩
  · rw [htable]
    exact Indexes.empty
  · rw [htable]
    exact Indexes.empty
  · rw [htable]
    exact Indexes.empty
  · intro k b hb
    rw [htable] at hb
    cases hb

theorem Sound.drop (hsound : Sound r) (bridge : Bridge) : Sound (r.dropBridge bridge) :=
  ⟨dropBridge_consistent hsound.consistent bridge, dropBridge_minted hsound.minted bridge⟩

section Steps
variable {caller device account peer : PubKey} {target : String} {eph : Bytes32} {now : UInt64}
  {x : Heard} {draws : List UInt64}

theorem Sound.poll (hsound : Sound r) : Sound (r.pollCall caller target eph now).1 := by
  unfold pollCall
  split
  · exact hsound
  · split_ifs
    · dsimp only
      split_ifs
      · exact hsound.drop _
      · exact hsound
    · exact hsound.drop _

theorem Sound.decline (hsound : Sound r) {reason : UInt8} :
    Sound (r.decline account bridge reason).1 := by
  unfold RelayInner.decline
  split
  · exact hsound
  · split_ifs
    · exact hsound.drop _
    · exact hsound

theorem Sound.close (hsound : Sound r) : Sound (r.closeBridge caller sid).1 := by
  unfold closeBridge
  split_ifs
  · exact hsound
  · split
    · exact hsound
    · split_ifs
      · exact hsound.drop _
      · exact hsound

theorem Sound.answer (hsound : Sound r) :
    Sound (r.tryAnswer device caller eph account now draws).1 := by
  unfold tryAnswer
  split
  · exact hsound
  case h_2 k b hindexed =>
    obtain ⟨-, hb⟩ := indexed_some.mp hindexed
    split_ifs
    · exact hsound
    · split
      · split_ifs <;> exact hsound
      · split
        · exact hsound
        case h_2 hcallee _ sid hsid =>
          obtain ⟨hfree, hbit⟩ := nextSession_some hsid
          have hcaller : (answeredBy b device eph sid).callerKey = b.callerKey := rfl
          have hcallee' : (answeredBy b device eph sid).calleeKey = b.calleeKey := rfl
          have hiff := session_consistent_iff hsound.consistent hb hcaller hcallee'
            (sessionKey_some hbit rfl) hfree
          refine ⟨hiff.mpr ((hsound.minted k b hb).2 hcallee), ?_⟩
          exact amend_minted hsound.minted ⟨fun _ => hbit, fun hnone => by cases hnone⟩

theorem insertCall_consistent_iff (hsound : Sound r) {route : Route} :
    Consistent (r.insertCall caller target eph now route bridge).1 ↔
      r.Clear (.insert caller target eph now route bridge) := by
  have hfree : ∀ r : RelayInner, Consistent r → r.callerIndex (caller, target) = none →
      (Consistent (r.insertBridge bridge (placed caller target eph now route)) ↔
        r.table bridge = none) := by
    intro r hcons hkey
    rw [insertBridge_consistent_iff hcons]
    constructor
    · intro hfits
      by_contra hsome
      obtain ⟨old, hold⟩ := Option.ne_none_iff_exists'.mp hsome
      obtain ⟨hcaller, hcallee, -⟩ := hfits.place old hold
      cases hindex : old.index with
      | caller c t =>
        have hc : old.callerKey = some (c, t) := by simp [BridgeRec.callerKey, hindex]
        have hnamed := hcons.callers.named bridge old (c, t) hold hc
        simp only [hc, reduceCtorEq, false_or] at hcaller
        have hsame : (c, t) = (caller, target) := Option.some.inj hcaller
        rw [hsame, hkey] at hnamed
        cases hnamed
      | callee c a => simp [BridgeRec.calleeKey, hindex, placed] at hcallee
    · intro hnone
      refine ⟨fun old hold => ?_, fun i k hi hk => ?_, fun i k hi hk => ?_, fun i k hi hk => ?_⟩
      · rw [hnone] at hold
        cases hold
      · obtain rfl : (caller, target) = i := Option.some.inj hi
        rw [hkey] at hk
        cases hk
      · cases hi
      · simp [BridgeRec.sessionKey, placed] at hi
  unfold insertCall Clear
  cases hindexed : r.indexed (r.callerIndex (caller, target)) with
  | none =>
    have hkey : r.callerIndex (caller, target) = none := by
      by_contra hsome
      obtain ⟨k, hk⟩ := Option.ne_none_iff_exists'.mp hsome
      obtain ⟨b, hb, -⟩ := hsound.consistent.callers.live _ k hk
      have hfound := indexed_some.mpr ⟨hk, hb⟩
      rw [hindexed] at hfound
      cases hfound
    dsimp only
    rw [hfree r hsound.consistent hkey, hkey]
    simp [indexed]
  | some p =>
    obtain ⟨k, b⟩ := p
    obtain ⟨hk, hb⟩ := indexed_some.mp hindexed
    dsimp only
    by_cases heph : b.callerEph = eph
    · rw [if_pos heph]
      refine ⟨fun _ hpoll => absurd heph (hpoll k b hindexed), fun _ => hsound.consistent⟩
    · rw [if_neg heph]
      have hgone : (r.dropBridge k).callerIndex (caller, target) = none := by
        by_contra hsome
        obtain ⟨k', hk'⟩ := Option.ne_none_iff_exists'.mp hsome
        obtain ⟨b', hb', hkey⟩ := (hsound.drop k).consistent.callers.live _ k' hk'
        rw [dropBridge_table, Function.update_apply] at hb'
        split_ifs at hb' with hne
        have hsame := hsound.consistent.callers.named k' b' _ hb' hkey
        exact hne (Option.some.inj (hsame.symm.trans hk))
      have hiff := hfree (r.dropBridge k) (hsound.drop k).consistent hgone
      dsimp only [endBridge]
      rw [hiff, dropBridge_table, Function.update_apply, hk]
      by_cases hbridge : bridge = k
      · simp [hbridge]
      · have hnot : ∀ (k' : Bridge) (b' : BridgeRec), r.indexed (some k) = some (k', b') →
            b'.callerEph ≠ eph := by
          intro k' b' hsame
          rw [← hk, hindexed] at hsame
          obtain ⟨-, rfl⟩ := Prod.mk.inj (Option.some.inj hsame)
          exact heph
        rw [if_neg hbridge]
        constructor
        · intro hnone _ hsome
          rw [hnone] at hsome
          cases hsome
        · intro hclear
          by_contra hsome
          have hheld := hclear hnot (Option.isSome_iff_ne_none.mpr hsome)
          exact hbridge (Option.some.inj hheld).symm

theorem insertCall_minted (hsound : Sound r) {route : Route} :
    Minted (r.insertCall caller target eph now route bridge).1 := by
  have hplaced : ((placed caller target eph now route).sessionId ≠ 0 →
      (placed caller target eph now route).sessionId &&& bridgeBit ≠ 0) ∧
      ((placed caller target eph now route).callee = none →
        (placed caller target eph now route).sessionId = 0) :=
    ⟨fun hne => absurd rfl hne, fun _ => rfl⟩
  unfold insertCall
  split
  · exact insertBridge_minted hsound.minted hplaced
  · split_ifs
    · exact hsound.minted
    · exact insertBridge_minted (hsound.drop _).minted hplaced

theorem invited_consistent_iff (bridge : Bridge) (key : PubKey × PubKey) (hsound : Sound r)
    (hcaller : b.callerKey = none) (hcallee : b.calleeKey = some key)
    (hsession : ∀ sid, b.sessionKey = some sid → r.bySession sid = none) :
    Consistent (r.insertBridge bridge b) ↔ r.Unclaimed bridge key := by
  rw [insertBridge_consistent_iff hsound.consistent]
  constructor
  · intro hfits
    refine ⟨fun old hold => ?_, fun k hk => hfits.callee key k hcallee hk⟩
    obtain ⟨hcaller', hcallee', hsession'⟩ := hfits.place old hold
    constructor
    · rcases hcallee' with hnone | hsame
      · rw [hcaller, or_self] at hcaller'
        cases hindex : old.index <;>
          simp [BridgeRec.callerKey, BridgeRec.calleeKey, hindex] at hcaller' hnone
      · exact hsame.trans hcallee
    · rcases hsession' with hnone | hsame
      · exact sessionKey_eq_none.mp hnone
      · cases hkey : old.sessionKey with
        | none => exact sessionKey_eq_none.mp hkey
        | some sid =>
          have hheld := hsound.consistent.sessions.named bridge old sid hold hkey
          rw [hsession sid (hsame.symm.trans hkey)] at hheld
          cases hheld
  · rintro ⟨hplace, hfree⟩
    refine ⟨fun old hold => ?_, fun i k hi _ => ?_, fun i k hi hk => ?_, fun i k hi hk => ?_⟩
    · obtain ⟨hkey, hzero⟩ := hplace old hold
      refine ⟨.inl ?_, .inr (hkey.trans hcallee.symm), .inl (sessionKey_eq_none.mpr hzero)⟩
      cases hindex : old.index <;> simp [BridgeRec.callerKey, BridgeRec.calleeKey, hindex] at hkey ⊢
    · rw [hcaller] at hi
      cases hi
    · rw [hcallee] at hi
      obtain rfl := Option.some.inj hi
      exact hfree k hk
    · rw [hsession i hi] at hk
      cases hk

theorem onControl_consistent_iff (hsound : Sound r) (c : Control) :
    Consistent (r.onControl x peer c).1 ↔ r.Clear (.control x peer c) := by
  have hsame := hsound.consistent
  cases c with
  | invite bridge caller callerEph account domain word =>
    simp only [onControl, Clear]
    cases hrefusal : refusal x word with
    | some reason => simp [hsame]
    | none =>
      have hring : (rung peer caller callerEph account x.now).sessionKey = none := rfl
      have hiff := invited_consistent_iff bridge _ hsound
        (rfl : (rung peer caller callerEph account x.now).callerKey = none) rfl
        fun sid hsid => by rw [hring] at hsid; cases hsid
      simpa using hiff
  | inviteDevice bridge caller callerEph device =>
    simp only [onControl, Clear, admitsDevice]
    by_cases hgate : x.full = true ∨ (x.listed = false ∧ x.vouched = false)
    · rw [if_pos hgate]
      exact ⟨fun _ hadmits => absurd hgate hadmits.1, fun _ => hsame⟩
    · rw [if_neg hgate]
      cases hwaiting : x.waiting with
      | none =>
        have hiff := invited_consistent_iff bridge _ hsound
          (b := { rung peer caller callerEph x.owner x.now with deviceOnly := some device })
          rfl rfl fun sid hsid => by cases hsid
        simpa [hgate] using hiff
      | some eph =>
        dsimp only
        cases hsid : r.nextSession x.draws with
        | none => simp [hsame]
        | some sid =>
          obtain ⟨hfree, hbit⟩ := nextSession_some hsid
          have hkey : (answeredBy { rung peer caller callerEph x.owner x.now with
              deviceOnly := some device } device eph sid).sessionKey = some sid :=
            sessionKey_some hbit rfl
          have hiff := invited_consistent_iff bridge (caller, x.owner) hsound
            (b := answeredBy { rung peer caller callerEph x.owner x.now with
              deviceOnly := some device } device eph sid) rfl rfl fun sid' hsid' => by
              obtain rfl := Option.some.inj (hkey.symm.trans hsid')
              exact hfree
          simpa [hgate] using hiff
  | ringing bridge => simp [onControl, Clear, hsame]
  | accept bridge callee calleeEph =>
    simp only [onControl, Clear]
    cases hb : r.bridges[bridge]? with
    | none => simp [hsame, table, hb]
    | some b =>
      cases hsid : r.nextSession x.draws with
      | none => simp [hsame]
      | some sid =>
        obtain ⟨hfree, hbit⟩ := nextSession_some hsid
        have hcaller : (acceptedBy b callee calleeEph sid).callerKey = b.callerKey := rfl
        have hcallee : (acceptedBy b callee calleeEph sid).calleeKey = b.calleeKey := rfl
        have hiff := session_consistent_iff hsame hb hcaller hcallee (sessionKey_some hbit rfl)
          hfree
        dsimp only
        rw [hiff]
        simp [table, hb]
  | reject bridge reason =>
    simp only [onControl, Clear, iff_true]
    split
    · exact hsame
    case h_2 b hb =>
      split
      · exact amend_consistent hsame hb rfl rfl rfl
      · exact amend_consistent hsame hb rfl rfl rfl
  | close bridge reason =>
    simp only [onControl, Clear, iff_true]
    exact dropBridge_consistent hsame bridge

theorem onControl_minted (hsound : Sound r) (c : Control) :
    Minted (r.onControl x peer c).1 := by
  have hminted := hsound.minted
  cases c with
  | invite bridge caller callerEph account domain word =>
    simp only [onControl]
    split
    · exact hminted
    · exact insertBridge_minted hminted ⟨fun hne => absurd rfl hne, fun _ => rfl⟩
  | inviteDevice bridge caller callerEph device =>
    simp only [onControl]
    split_ifs
    · exact hminted
    · split
      · exact insertBridge_minted hminted ⟨fun hne => absurd rfl hne, fun _ => rfl⟩
      · split
        · exact hminted
        case h_2 sid hsid =>
          obtain ⟨-, hbit⟩ := nextSession_some hsid
          exact insertBridge_minted hminted ⟨fun _ => hbit, fun hnone => by cases hnone⟩
  | ringing bridge => exact hminted
  | accept bridge callee calleeEph =>
    simp only [onControl]
    split
    case h_1 b sid hb hsid =>
      obtain ⟨-, hbit⟩ := nextSession_some hsid
      exact amend_minted hminted ⟨fun _ => hbit, fun hnone => by cases hnone⟩
    · exact hminted
  | reject bridge reason =>
    simp only [onControl]
    split
    · exact hminted
    case h_2 b hb =>
      split
      · exact amend_minted hminted (hminted bridge b hb)
      · exact amend_minted hminted (hminted bridge b hb)
  | close bridge reason => exact dropBridge_minted hminted bridge

end Steps

theorem step_consistent_iff (hsound : Sound r) (held : Held) :
    Consistent (r.step held) ↔ r.Clear held := by
  cases held with
  | poll caller target eph now => simp [step, perform, Clear, hsound.poll.consistent]
  | insert caller target eph now route bridge => exact insertCall_consistent_iff hsound
  | answer device caller eph account now draws =>
    simp [step, perform, Clear, hsound.answer.consistent]
  | decline account bridge reason => simp [step, perform, Clear, hsound.decline.consistent]
  | close me sid => simp [step, perform, Clear, hsound.close.consistent]
  | control x peer c => exact onControl_consistent_iff hsound c
  | expire o now =>
    have hexpired : Sound (r.expire o now).1 := expire_keeps (fun _ k h => h.drop k) o now hsound
    simp [step, perform, Clear, hexpired.consistent]

theorem step_minted (hsound : Sound r) (held : Held) : Minted (r.step held) := by
  cases held with
  | poll caller target eph now => exact hsound.poll.minted
  | insert caller target eph now route bridge => exact insertCall_minted hsound
  | answer device caller eph account now draws => exact hsound.answer.minted
  | decline account bridge reason => exact hsound.decline.minted
  | close me sid => exact hsound.close.minted
  | control x peer c => exact onControl_minted hsound c
  | expire o now =>
    have hexpired : Sound (r.expire o now).1 := expire_keeps (fun _ k h => h.drop k) o now hsound
    exact hexpired.minted

structure Usable (r : RelayInner) : Prop where
  answered : ∀ (k : Bridge) (b : BridgeRec) (device caller account : PubKey) (eph : Bytes32)
    (now : UInt64) (draws : List UInt64) (sid : UInt64), r.table k = some b →
    b.calleeKey = some (caller, account) → b.callee = none → b.deviceOnly.all (· == device) →
    r.nextSession draws = some sid →
    (r.tryAnswer device caller eph account now draws).2.2 =
      some ⟨.established, sid, b.callerEph, now⟩
  closed : ∀ (k : Bridge) (b : BridgeRec), r.table k = some b → b.sessionId ≠ 0 →
    (r.closeBridge b.localParty b.sessionId).1 = r.dropBridge k
  diverted : ∀ (k : Bridge) (b : BridgeRec), r.table k = some b → b.sessionId ≠ 0 →
    r.links b.peer → r.maybeDivert b.localParty b.sessionId = some (b.peer, k)

theorem Sound.usable (hsound : Sound r) : Usable r := by
  have hsession : ∀ (k : Bridge) (b : BridgeRec), r.table k = some b → b.sessionId ≠ 0 →
      b.sessionId &&& bridgeBit ≠ 0 ∧ r.indexed (r.bySession b.sessionId) = some (k, b) := by
    intro k b hb hne
    have hkey : b.sessionKey = some b.sessionId := by simp [BridgeRec.sessionKey, hne]
    have hnamed := hsound.consistent.sessions.named k b _ hb hkey
    exact ⟨(hsound.minted k b hb).1 hne, indexed_some.mpr ⟨hnamed, hb⟩⟩
  refine ⟨?_, ?_, ?_⟩
  · intro k b device caller account eph now draws sid hb hkey hcallee hdevice hsid
    have hnamed := hsound.consistent.callees.named k b _ hb hkey
    have hany : b.deviceOnly.any (· != device) = false := by
      cases hdev : b.deviceOnly with
      | none => rfl
      | some d => simpa [hdev] using hdevice
    simp [tryAnswer, indexed_some.mpr ⟨hnamed, hb⟩, hany, hcallee, hsid]
  · intro k b hb hne
    obtain ⟨hbit, hindexed⟩ := hsession k b hb hne
    simp [closeBridge, hbit, hindexed, endBridge]
  · intro k b hb hne hlink
    obtain ⟨hbit, hindexed⟩ := hsession k b hb hne
    simp [maybeDivert, hbit, hindexed, hlink]

/-- The indexes agree with the bridges, and whatever they name can be answered, closed and
written to. -/
structure Orderly (r : RelayInner) : Prop where
  consistent : Consistent r
  usable : Usable r

/-- Over any run from no bridges on, the indexes agree with the bridges throughout exactly
where nothing is put in another's place and no bridge is given a second session. -/
theorem indexes_agree_iff (links : PubKey → Bool) (calls : List Held) :
    Always Orderly step (.empty links) calls ↔ Each Clear step (.empty links) calls := by
  refine always_iff_each_of (I := Sound) (fun r held hsound hclear => ?_)
    (fun r hsound => ⟨hsound.consistent, hsound.usable⟩) (fun r held hsound => ?_)
    (sound_empty links)
  · exact ⟨(step_consistent_iff hsound held).mpr hclear, step_minted hsound held⟩
  · constructor
    · exact fun horderly => (step_consistent_iff hsound held).mp horderly.consistent
    · intro hclear
      have hafter := (step_consistent_iff hsound held).mpr hclear
      have hkept : Sound (r.step held) := ⟨hafter, step_minted hsound held⟩
      exact ⟨hafter, hkept.usable⟩

section Example

/-- What exchange 2, a listed peer, sends while account 7 has a stream open. -/
def heardAt (now : UInt64) (draws : List UInt64) : Heard where
  now := now
  listed := true
  rings := false
  full := false
  reachable := true
  vouched := false
  owner := 7
  waiting := none
  draws := draws

/-- 5 calls account 7 twice, under two bridges: the second takes the first's place in the
index. -/
theorem second_ring_orphans : ¬ ∀ (links : PubKey → Bool) (calls : List Held),
    Always Orderly step (.empty links) calls := by
  intro hall
  have hlast := (hall (fun _ => true) [.control (heardAt 10 []) 2 (.invite 1 5 100 7 "" none),
    .control (heardAt 11 []) 2 (.invite 2 5 101 7 "" none)]).2.2
  have hnamed := hlast.consistent.callees.named 1 (rung 2 5 100 7 10) (5, 7) (by decide) rfl
  exact absurd hnamed (by decide)

end Example

end RelayInner
end Sqex.Relay
