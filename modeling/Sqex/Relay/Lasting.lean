import Sqex.Relay.Governed

/-! How long a bridge that was answered is kept: what may end it before a session's time is
over, and what else does. -/
namespace Sqex.Relay
open Std Runs

structure BridgeRec.Continues (b b' : BridgeRec) : Prop where
  peer : b'.peer = b.peer
  account : b'.account = b.account
  caller : b'.caller = b.caller
  created : b'.created = b.created
  index : b'.index = b.index
  sessionId : b'.sessionId ≠ 0

namespace RelayInner
variable {r : RelayInner} {bridge : Bridge} {b : BridgeRec}

abbrev Over (now : UInt64) (b : BridgeRec) : Prop := now - min b.created now > ttlSecs

/-- When the relay is held, as far as the time is read. -/
def Held.now : Held → Option UInt64
  | .poll _ _ _ now | .insert _ _ _ now _ _ | .answer _ _ _ _ now _ | .expire _ now => some now
  | .control x _ _ => some x.now
  | .decline .. | .close .. => none

/-- What may end a bridge with a session: its time is over; its caller calls the same target
anew; the account called declines it; the party here closes it; or its peer does. -/
def Ends (r : RelayInner) (held : Held) (k : Bridge) (b : BridgeRec) : Prop :=
  (∃ now ∈ held.now, Over now b) ∨
    match held with
    | .poll caller target eph _ | .insert caller target eph _ _ _ =>
      b.callerKey = some (caller, target) ∧ eph ≠ b.callerEph
    | .decline account bridge _ => bridge = k ∧ account = b.account
    | .close me sid => r.bySession sid = some k ∧ me = b.localParty
    | .control _ peer (.close bridge _) => bridge = k ∧ peer = b.peer
    | _ => False

def Lasts (r : RelayInner) (held : Held) : Prop :=
  ∀ (k : Bridge) (b : BridgeRec), r.table k = some b → b.sessionId ≠ 0 →
    (∃ b', (r.step held).table k = some b' ∧ b.Continues b') ∨ Ends r held k b

abbrev UnlessOver (now : UInt64) (m : Option BridgeRec) (p : BridgeRec → Prop) : Prop :=
  ∀ b ∈ m, b.sessionId = 0 ∨ Over now b ∨ p b

def Spares (r : RelayInner) : Held → Prop
  | .expire _ now => ∀ p ∈ r.bridges.toList,
    p.2.sessionId = 0 ∨ Over now p.2 ∨ outlived now p.2 = false
  | .poll caller target eph now =>
    UnlessOver now ((r.indexed (r.callerIndex (caller, target))).map Prod.snd) fun b =>
      if b.callerEph = eph then (callerAck b now).state ≠ .rejected
      else b.callerKey = some (caller, target)
  | .insert caller target eph now _ bridge =>
    (UnlessOver now ((r.indexed (r.callerIndex (caller, target))).map Prod.snd) fun b =>
      b.callerEph = eph ∨ b.callerKey = some (caller, target)) ∧
    ((∀ b ∈ (r.indexed (r.callerIndex (caller, target))).map Prod.snd, b.callerEph ≠ eph) →
      UnlessOver now r.bridges[bridge]? fun _ => r.callerIndex (caller, target) = some bridge)
  | .control x _ (.invite bridge _ _ _ _ word) =>
    refusal x word = none → UnlessOver x.now r.bridges[bridge]? fun _ => False
  | .control x _ (.inviteDevice bridge ..) =>
    r.admitsDevice x → UnlessOver x.now r.bridges[bridge]? fun _ => False
  | .control x peer (.close bridge _) => UnlessOver x.now r.bridges[bridge]? (·.peer = peer)
  | _ => True

theorem continues_refl (hb : b.sessionId ≠ 0) : b.Continues b := ⟨rfl, rfl, rfl, rfl, rfl, hb⟩

theorem lasts_of_kept {held : Held} {k : Bridge} (hb : r.table k = some b)
    (hanswered : b.sessionId ≠ 0) (hkept : (r.step held).table k = r.table k) :
    (∃ b', (r.step held).table k = some b' ∧ b.Continues b') ∨ Ends r held k b :=
  .inl ⟨b, hkept.trans hb, continues_refl hanswered⟩

theorem lasts_of_same {held : Held} (hsame : r.step held = r) : r.Lasts held :=
  fun _ _ hb hanswered => lasts_of_kept hb hanswered (by rw [hsame])

theorem lasts_of_amend {held : Held} (b' : BridgeRec) (hb : r.table bridge = some b)
    (htable : (r.step held).table = Function.update r.table bridge (some b'))
    (hcontinues : b.sessionId ≠ 0 → b.Continues b') : r.Lasts held := by
  intro k b₁ hb₁ hanswered
  by_cases hk : k = bridge
  · obtain rfl := hk
    obtain rfl := Option.some.inj (hb.symm.trans hb₁)
    exact .inl ⟨b', by rw [htable, Function.update_self], hcontinues hanswered⟩
  · exact lasts_of_kept hb₁ hanswered (by rw [htable, Function.update_of_ne hk])

theorem ne_zero_of_bit {sid : UInt64} (hbit : sid &&& bridgeBit ≠ 0) : sid ≠ 0 := by
  rintro rfl
  exact hbit (by decide)

theorem dropBridge_other {k : Bridge} (hne : k ≠ bridge) :
    (r.dropBridge bridge).table k = r.table k := by
  rw [dropBridge_table, Function.update_of_ne hne]

theorem expire_table {o : IterOrder (Bridge × BridgeRec)} {now : UInt64} {k : Bridge}
    (hb : r.table k = some b) (hyoung : outlived now b = false) :
    (r.expire o now).1.table k = some b := by
  have hfold : ∀ (ends : RelayInner × Sent → Bridge × BridgeRec → RelayInner × Sent),
      (∀ r sent p, (ends (r, sent) p).1 = (r.endBridge p.1 p.2.peer).1) →
      ∀ (dead : List (Bridge × BridgeRec)) (r : RelayInner) (sent : Sent),
        (∀ p ∈ dead, p.1 ≠ k) → (dead.foldl ends (r, sent)).1.table k = r.table k := by
    intro ends hends dead
    induction dead with
    | nil => exact fun _ _ _ => rfl
    | cons p rest ih =>
      intro r sent hnot
      rw [List.foldl_cons]
      refine (ih _ _ fun q hq => hnot q (by simp [hq])).trans ?_
      rw [hends]
      exact dropBridge_other (hnot p (by simp)).symm
  unfold expire
  refine (hfold _ (fun _ _ _ => rfl) _ r [] fun p hp => ?_).trans hb
  rintro rfl
  obtain ⟨hmem, hdead⟩ := List.mem_filter.mp hp
  have hrow : r.bridges[p.1]? = some p.2 :=
    ExtTreeMap.mem_toList_iff_getElem?_eq_some.mp ((o.mem_walk).mp hmem)
  obtain rfl := Option.some.inj (hrow.symm.trans hb)
  rw [hyoung] at hdead
  cases hdead

section Steps
variable {caller device account me peer : PubKey} {target : String} {eph : Bytes32}
  {now sid : UInt64} {x : Heard} {c : Control} {draws : List UInt64}

theorem poll_lasts (hspares : r.Spares (.poll caller target eph now)) :
    r.Lasts (.poll caller target eph now) := by
  intro k b hb hanswered
  cases hindexed : r.indexed (r.callerIndex (caller, target)) with
  | none => exact lasts_of_kept hb hanswered (by simp [step, perform, pollCall, hindexed])
  | some p =>
    obtain ⟨k', b'⟩ := p
    obtain ⟨-, hb'⟩ := indexed_some.mp hindexed
    by_cases hk : k = k'
    · obtain rfl := hk
      obtain rfl := Option.some.inj (hb.symm.trans hb')
      simp only [Spares, hindexed, Option.map_some] at hspares
      rcases hspares b rfl with hzero | hover | hown
      · exact absurd hzero hanswered
      · exact .inr (.inl ⟨now, rfl, hover⟩)
      · by_cases heph : b.callerEph = eph
        · rw [if_pos heph] at hown
          exact lasts_of_kept hb hanswered
            (by simp [step, perform, pollCall, hindexed, heph, hown])
        · rw [if_neg heph] at hown
          exact .inr (.inr ⟨hown, fun hsame => heph hsame.symm⟩)
    · refine lasts_of_kept hb hanswered ?_
      simp only [step, perform, pollCall, hindexed]
      split_ifs
      · exact dropBridge_other hk
      · rfl
      · exact dropBridge_other hk

theorem insert_lasts {route : Route}
    (hspares : r.Spares (.insert caller target eph now route bridge)) :
    r.Lasts (.insert caller target eph now route bridge) := by
  intro k b hb hanswered
  obtain ⟨hreplaced, hplace⟩ := hspares
  cases hindexed : r.indexed (r.callerIndex (caller, target)) with
  | none =>
    by_cases hk : k = bridge
    · obtain rfl := hk
      rcases hplace (by simp [hindexed]) b hb with hzero | hover | hown
      · exact absurd hzero hanswered
      · exact .inr (.inl ⟨now, rfl, hover⟩)
      · rw [hown, indexed_some.mpr ⟨rfl, hb⟩] at hindexed
        cases hindexed
    · refine lasts_of_kept hb hanswered ?_
      simp only [step, perform, insertCall, hindexed]
      rw [insertBridge_table, Function.update_of_ne hk]
  | some p =>
    obtain ⟨k', b'⟩ := p
    obtain ⟨hnamed, hb'⟩ := indexed_some.mp hindexed
    simp only [hindexed, Option.map_some] at hreplaced hplace
    by_cases heph : b'.callerEph = eph
    · exact lasts_of_kept hb hanswered (by simp [step, perform, insertCall, hindexed, heph])
    · by_cases hk : k = k'
      · obtain rfl := hk
        obtain rfl := Option.some.inj (hb.symm.trans hb')
        rcases hreplaced b rfl with hzero | hover | hsame | hown
        · exact absurd hzero hanswered
        · exact .inr (.inl ⟨now, rfl, hover⟩)
        · exact absurd hsame heph
        · exact .inr (.inr ⟨hown, fun hsame => heph hsame.symm⟩)
      · by_cases hkb : k = bridge
        · obtain rfl := hkb
          have hnew : ∀ b ∈ some b', b.callerEph ≠ eph := by
            intro b hsame
            obtain rfl := Option.some.inj hsame
            exact heph
          rcases hplace hnew b hb with hzero | hover | hown
          · exact absurd hzero hanswered
          · exact .inr (.inl ⟨now, rfl, hover⟩)
          · exact absurd (Option.some.inj (hown.symm.trans hnamed)) hk
        · refine lasts_of_kept hb hanswered ?_
          simp only [step, perform, insertCall, hindexed, if_neg heph]
          rw [insertBridge_table, Function.update_of_ne hkb]
          exact dropBridge_other hk

theorem answer_lasts : r.Lasts (.answer device caller eph account now draws) := by
  have hstays : r.step (.answer device caller eph account now draws) = r →
      r.Lasts (.answer device caller eph account now draws) := lasts_of_same
  cases hindexed : r.indexed (r.calleeIndex (caller, account)) with
  | none => exact hstays (by simp [step, perform, tryAnswer, hindexed])
  | some p =>
    obtain ⟨k, b⟩ := p
    obtain ⟨-, hb⟩ := indexed_some.mp hindexed
    by_cases hdevice : b.deviceOnly.any (· != device) = true
    · exact hstays (by simp [step, perform, tryAnswer, hindexed, hdevice])
    · cases hcallee : b.callee with
      | some answered =>
        refine hstays ?_
        simp only [step, perform, tryAnswer, hindexed, if_neg hdevice, hcallee]
        split_ifs <;> rfl
      | none =>
        cases hsid : r.nextSession draws with
        | none => exact hstays (by simp [step, perform, tryAnswer, hindexed, hcallee, hsid])
        | some sid =>
          obtain ⟨-, hbit⟩ := nextSession_some hsid
          refine lasts_of_amend (answeredBy b device eph sid) hb ?_ fun _ =>
            ⟨rfl, rfl, rfl, rfl, rfl, ne_zero_of_bit hbit⟩
          simp only [step, perform, tryAnswer, hindexed, if_neg hdevice, hcallee, hsid]
          exact amend_table r k _ _

theorem decline_lasts {reason : UInt8} : r.Lasts (.decline account bridge reason) := by
  intro k b hb hanswered
  by_cases hk : k = bridge
  · obtain rfl := hk
    have hlookup : r.bridges[k]? = some b := hb
    by_cases hours : b.account = account
    · exact .inr (.inr ⟨rfl, hours.symm⟩)
    · exact lasts_of_kept hb hanswered (by simp [step, perform, decline, hlookup, hours])
  · refine lasts_of_kept hb hanswered ?_
    simp only [step, perform, decline]
    split
    · rfl
    · split_ifs
      · exact dropBridge_other hk
      · rfl

theorem close_lasts : r.Lasts (.close me sid) := by
  intro k b hb hanswered
  by_cases hbit : sid &&& bridgeBit = 0
  · exact lasts_of_kept hb hanswered (by simp [step, perform, closeBridge, hbit])
  · cases hindexed : r.indexed (r.bySession sid) with
    | none =>
      exact lasts_of_kept hb hanswered (by simp [step, perform, closeBridge, hbit, hindexed])
    | some p =>
      obtain ⟨k', b'⟩ := p
      obtain ⟨hnamed, hb'⟩ := indexed_some.mp hindexed
      by_cases hmine : b'.localParty = me
      · by_cases hk : k = k'
        · obtain rfl := hk
          obtain rfl := Option.some.inj (hb.symm.trans hb')
          exact .inr (.inr ⟨hnamed, hmine.symm⟩)
        · refine lasts_of_kept hb hanswered ?_
          simp only [step, perform, closeBridge, if_neg hbit, hindexed, if_pos hmine]
          exact dropBridge_other hk
      · exact lasts_of_kept hb hanswered
          (by simp [step, perform, closeBridge, hbit, hindexed, hmine])

theorem put_lasts (hspares : (r.step (.control x peer c)) ≠ r →
    UnlessOver x.now r.bridges[c.bridge]? fun _ => False) : r.Lasts (.control x peer c) := by
  by_cases hsame : r.step (.control x peer c) = r
  · exact lasts_of_same hsame
  · intro k b hb hanswered
    by_cases hk : k = c.bridge
    · obtain rfl := hk
      rcases hspares hsame b hb with hzero | hover | hnever
      · exact absurd hzero hanswered
      · exact .inr (.inl ⟨x.now, rfl, hover⟩)
      · exact hnever.elim
    · exact lasts_of_kept hb hanswered (onControl_other hk)

theorem control_lasts (hspares : r.Spares (.control x peer c)) :
    r.Lasts (.control x peer c) := by
  cases c with
  | invite bridge caller callerEph account domain word =>
    refine put_lasts fun hchanged => hspares ?_
    by_contra hrefused
    obtain ⟨reason, hreason⟩ := Option.ne_none_iff_exists'.mp hrefused
    exact hchanged (by simp [step, perform, onControl, hreason])
  | inviteDevice bridge caller callerEph device =>
    refine put_lasts fun hchanged => hspares ⟨fun hgate => hchanged ?_, fun hwaits => ?_⟩
    · simp [step, perform, onControl, hgate]
    · obtain ⟨eph, heph⟩ := Option.isSome_iff_exists.mp hwaits
      by_contra hnone
      have hsid : r.nextSession x.draws = none := by simpa using hnone
      refine hchanged ?_
      simp only [step, perform, onControl, heph, hsid]
      split_ifs <;> rfl
  | ringing bridge => exact lasts_of_same rfl
  | accept bridge callee calleeEph =>
    cases hb : r.bridges[bridge]? with
    | none => exact lasts_of_same (by simp [step, perform, onControl, hb])
    | some b =>
      cases hsid : r.nextSession x.draws with
      | none => exact lasts_of_same (by simp [step, perform, onControl, hsid])
      | some sid =>
        obtain ⟨-, hbit⟩ := nextSession_some hsid
        refine lasts_of_amend (acceptedBy b callee calleeEph sid) hb ?_ fun _ =>
          ⟨rfl, rfl, rfl, rfl, rfl, ne_zero_of_bit hbit⟩
        simp only [step, perform, onControl, hb, hsid]
        exact amend_table r bridge _ _
  | reject bridge reason =>
    cases hb : r.bridges[bridge]? with
    | none => exact lasts_of_same (by simp [step, perform, onControl, hb])
    | some b =>
      cases hagain : signedAgain bridge b reason with
      | some again =>
        refine lasts_of_amend { b with signedSent := true } hb ?_ fun hanswered =>
          ⟨rfl, rfl, rfl, rfl, rfl, hanswered⟩
        simp only [step, perform, onControl, hb, hagain]
        exact amend_table r bridge _ _
      | none =>
        refine lasts_of_amend { b with outcome := .rejected reason } hb ?_
          fun hanswered => ⟨rfl, rfl, rfl, rfl, rfl, hanswered⟩
        simp only [step, perform, onControl, hb, hagain]
        exact amend_table r bridge _ _
  | close bridge reason =>
    intro k b hb hanswered
    by_cases hk : k = bridge
    · obtain rfl := hk
      rcases hspares b hb with hzero | hover | hpeer
      · exact absurd hzero hanswered
      · exact .inr (.inl ⟨x.now, rfl, hover⟩)
      · exact .inr (.inr ⟨rfl, hpeer.symm⟩)
    · exact lasts_of_kept hb hanswered (onControl_other hk)

theorem expire_lasts {o : IterOrder (Bridge × BridgeRec)} (hspares : r.Spares (.expire o now)) :
    r.Lasts (.expire o now) := by
  intro k b hb hanswered
  have hmem : (k, b) ∈ r.bridges.toList :=
    ExtTreeMap.mem_toList_iff_getElem?_eq_some.mpr hb
  rcases hspares (k, b) hmem with hzero | hover | hyoung
  · exact absurd hzero hanswered
  · exact .inr (.inl ⟨now, rfl, hover⟩)
  · exact .inl ⟨b, expire_table hb hyoung, continues_refl hanswered⟩

end Steps

theorem step_lasts {held : Held} (hspares : r.Spares held) : r.Lasts held := by
  cases held with
  | poll caller target eph now => exact poll_lasts hspares
  | insert caller target eph now route bridge => exact insert_lasts hspares
  | answer device caller eph account now draws => exact answer_lasts
  | decline account bridge reason => exact decline_lasts
  | close me sid => exact close_lasts
  | control x peer c => exact control_lasts hspares
  | expire o now => exact expire_lasts hspares

/-- Over any run from no bridges on, a bridge that has been answered is kept for a session's
time, and ended before only by its own: where each step leaves it to them. -/
theorem answered_lasts (links : PubKey → Bool) {calls : List Held}
    (hspares : Each Spares step (.empty links) calls) :
    Each Lasts step (.empty links) calls := by
  have hkeep : ∀ (r : RelayInner) (held : Held), True → r.Spares held → True :=
    fun _ _ _ _ => trivial
  exact hspares.imp_of hkeep (fun _ _ _ hstep => step_lasts hstep) trivial

section Example

/-- 5, at peer 2, calls account 7; its device 8 answers; a while later the exchange sweeps. -/
def answeredThenSwept (later : UInt64) : List Held :=
  [.control (heardAt 10 []) 2 (.invite 1 5 100 7 "" none), .answer 8 5 200 7 20 [3],
    .expire .asListed (10 + later)]

/-- Two minutes into the call it is still up. -/
theorem call_lasts_two_minutes :
    ((run step (.empty fun _ => true) (answeredThenSwept 120)).table 1).isSome ∧
      Each Lasts step (.empty fun _ => true) (answeredThenSwept 120) := by
  refine ⟨by decide +kernel, answered_lasts _ ⟨fun _ => by decide +kernel, trivial, ?_, trivial⟩⟩
  change ∀ p ∈ RelayInner.bridges _ |>.toList,
    p.2.sessionId = 0 ∨ Over 130 p.2 ∨ outlived 130 p.2 = false
  decide +kernel

/-- A second later the sweep has hung up. -/
theorem answered_call_swept : ¬ ∀ (links : PubKey → Bool) (calls : List Held),
    Each Lasts step (.empty links) calls := by
  intro hall
  obtain ⟨-, -, hlasts, -⟩ := hall (fun _ => true) (answeredThenSwept 121)
  have hbridge := hlasts 1 (answeredBy (rung 2 5 100 7 10) 8 200 (bridgeBit ||| 3))
    (by decide +kernel) (by decide)
  rcases hbridge with ⟨b', hb', -⟩ | ⟨now, hnow, hover⟩ | hnever
  · have hgone : (run step (.empty fun _ => true) (answeredThenSwept 121)).table 1 = none := by
      decide +kernel
    exact absurd (hgone.symm.trans hb') (by simp)
  · obtain rfl := Option.some.inj hnow
    exact absurd hover (by decide +kernel)
  · exact hnever

end Example

end RelayInner
end Sqex.Relay
