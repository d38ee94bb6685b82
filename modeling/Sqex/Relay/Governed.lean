import Sqex.Relay.Indexes

/-! Who may do what to a bridge by a control frame: the exchange at its other end, once, and
nobody else. Frames name bridges by identifiers the sender chooses. -/
namespace Sqex.Relay
open Std Runs

def Control.bridge : Control → Bridge
  | .invite bridge .. | .ringing bridge | .reject bridge _ | .accept bridge .. | .close bridge _
  | .inviteDevice bridge .. => bridge

def BridgeRec.Settled (b : BridgeRec) : Prop := b.outcome ≠ .ringing ∨ b.sessionId ≠ 0

structure BridgeRec.SameEnd (b b' : BridgeRec) : Prop where
  callee : b'.callee = b.callee
  calleeEph : b'.calleeEph = b.calleeEph
  sessionId : b'.sessionId = b.sessionId
  outcome : b'.outcome = b.outcome

def Control.Answers : Control → Prop
  | .accept .. | .reject .. => True
  | _ => False

namespace RelayInner
variable {r : RelayInner} {bridge : Bridge} {b : BridgeRec} {x : Heard} {peer : PubKey}
  {c : Control}

structure Governs (x : Heard) (r : RelayInner) (peer : PubKey) (c : Control) : Prop where
  foreign : ∀ (k : Bridge) (b : BridgeRec), r.table k = some b → b.peer ≠ peer →
    (r.onControl x peer c).1.table k = some b
  accepts : ∀ bridge callee calleeEph, c = .accept bridge callee calleeEph →
    ∀ (k : Bridge) (b : BridgeRec), r.table k = some b →
      (r.onControl x peer c).1.table k ≠ some b → b.callerKey.isSome ∧ b.outcome = .ringing
  settled : c.Answers → ∀ (k : Bridge) (b : BridgeRec), r.table k = some b → b.Settled →
    ∃ b', (r.onControl x peer c).1.table k = some b' ∧ b.SameEnd b'

def ItsToSend (x : Heard) (r : RelayInner) (peer : PubKey) : Control → Prop
  | .invite bridge _ _ _ _ word =>
    refusal x word = none → ∀ b, r.table bridge = some b → b.peer = peer
  | .inviteDevice bridge .. =>
    r.admitsDevice x → ∀ b, r.table bridge = some b → b.peer = peer
  | .ringing _ => True
  | .accept bridge .. =>
    (r.nextSession x.draws).isSome → ∀ b, r.table bridge = some b →
      b.peer = peer ∧ b.callerKey.isSome ∧ ¬ b.Settled
  | .reject bridge reason => ∀ b, r.table bridge = some b →
    if signedAgain bridge b reason = none then
      b.outcome = .rejected reason ∨ (b.peer = peer ∧ ¬ b.Settled)
    else b.peer = peer
  | .close bridge _ => ∀ b, r.table bridge = some b → b.peer = peer

def SessionsFiled (r : RelayInner) : Prop :=
  ∀ (k : Bridge) (b : BridgeRec) (sid : UInt64), r.table k = some b → b.sessionKey = some sid →
    r.bySession sid = some k

theorem amend_table (r : RelayInner) (bridge : Bridge) (b : BridgeRec)
    (bySession : UInt64 → Option Bridge) :
    RelayInner.table { r with bridges := r.bridges.insert bridge b, bySession } =
      Function.update r.table bridge (some b) := table_insert r bridge b

theorem onControl_other {k : Bridge} (hne : k ≠ c.bridge) :
    (r.onControl x peer c).1.table k = r.table k := by
  have hinsert : ∀ b, (r.insertBridge c.bridge b).table k = r.table k := by
    intro b
    rw [insertBridge_table, Function.update_of_ne hne]
  have hamend : ∀ b bySession, RelayInner.table { r with
      bridges := r.bridges.insert c.bridge b, bySession } k = r.table k := by
    intro b bySession
    rw [amend_table, Function.update_of_ne hne]
  have hdrop : (r.dropBridge c.bridge).table k = r.table k := by
    rw [dropBridge_table, Function.update_of_ne hne]
  cases c with
  | invite bridge caller callerEph account domain word =>
    simp only [onControl]
    split
    · rfl
    · exact hinsert _
  | inviteDevice bridge caller callerEph device =>
    simp only [onControl]
    split_ifs
    · rfl
    · split
      · exact hinsert _
      · split
        · rfl
        · exact hinsert _
  | ringing bridge => rfl
  | accept bridge callee calleeEph =>
    simp only [onControl]
    split
    · exact hamend _ _
    · rfl
  | reject bridge reason =>
    simp only [onControl]
    split
    · rfl
    · split <;> exact hamend _ _
  | close bridge reason => exact hdrop

theorem fresh_ne (hfiled : SessionsFiled r) (hb : r.table bridge = some b) {draws : List UInt64}
    {sid : UInt64} (hsid : r.nextSession draws = some sid) : b.sessionId ≠ sid := by
  rintro rfl
  obtain ⟨hfree, hbit⟩ := nextSession_some hsid
  have hnamed := hfiled bridge b _ hb (sessionKey_some hbit rfl)
  rw [hfree] at hnamed
  cases hnamed

theorem governs_of_named (hforeign : ∀ b, r.table c.bridge = some b → b.peer ≠ peer →
      (r.onControl x peer c).1.table c.bridge = some b)
    (haccepts : ∀ bridge callee calleeEph, c = .accept bridge callee calleeEph →
      ∀ b, r.table bridge = some b → (r.onControl x peer c).1.table bridge ≠ some b →
        b.callerKey.isSome ∧ b.outcome = .ringing)
    (hsettled : c.Answers → ∀ b, r.table c.bridge = some b → b.Settled →
      ∃ b', (r.onControl x peer c).1.table c.bridge = some b' ∧ b.SameEnd b') :
    Governs x r peer c := by
  refine ⟨fun k b hb hpeer => ?_, fun bridge callee eph hc k b hb hchanged => ?_,
    fun hanswers k b hb hset => ?_⟩
  · by_cases hk : k = c.bridge
    · obtain rfl := hk
      exact hforeign b hb hpeer
    · rw [onControl_other hk, hb]
  · by_cases hk : k = c.bridge
    · have hbridge : k = bridge := by rw [hk, hc]; rfl
      obtain rfl := hbridge
      exact haccepts k callee eph hc b hb hchanged
    · rw [onControl_other hk, hb] at hchanged
      exact absurd rfl hchanged
  · by_cases hk : k = c.bridge
    · obtain rfl := hk
      exact hsettled hanswers b hb hset
    · exact ⟨b, by rw [onControl_other hk, hb], ⟨rfl, rfl, rfl, rfl⟩⟩

theorem governs_same (hsame : (r.onControl x peer c).1 = r) : Governs x r peer c := by
  refine ⟨fun k b hb _ => ?_, fun _ _ _ _ k b hb hchanged => ?_, fun _ k b hb _ => ?_⟩
  · rw [hsame, hb]
  · rw [hsame] at hchanged
    exact absurd hb hchanged
  · exact ⟨b, by rw [hsame, hb], ⟨rfl, rfl, rfl, rfl⟩⟩

theorem governs_iff_of_replaces (hanswers : ¬ c.Answers) {after : Option BridgeRec}
    (hafter : (r.onControl x peer c).1.table c.bridge = after)
    (hpeer : ∀ b ∈ after, b.peer = peer) :
    Governs x r peer c ↔ ∀ b, r.table c.bridge = some b → b.peer = peer := by
  constructor
  · intro hgoverns b hb
    by_contra hne
    have hsame := hgoverns.foreign c.bridge b hb hne
    rw [hafter] at hsame
    exact hne (hpeer b hsame)
  · intro hown
    refine governs_of_named (fun b hb hne => absurd (hown b hb) hne)
      (fun bridge callee eph hc => ?_) fun hans => absurd hans hanswers
    rw [hc] at hanswers
    exact absurd trivial hanswers

theorem accept_governs_iff (hfiled : SessionsFiled r) {callee : PubKey} {calleeEph : Bytes32} :
    Governs x r peer (.accept bridge callee calleeEph) ↔
      ItsToSend x r peer (.accept bridge callee calleeEph) := by
  simp only [ItsToSend]
  cases hsid : r.nextSession x.draws with
  | none =>
    have hsame : (r.onControl x peer (.accept bridge callee calleeEph)).1 = r := by
      simp [onControl, hsid]
    simp [governs_same hsame]
  | some sid =>
    cases hb : r.table bridge with
    | none =>
      have hlookup : r.bridges[bridge]? = none := hb
      have hsame : (r.onControl x peer (.accept bridge callee calleeEph)).1 = r := by
        simp [onControl, hlookup]
      simp [governs_same hsame]
    | some b =>
      have hlookup : r.bridges[bridge]? = some b := hb
      have hafter : (r.onControl x peer (.accept bridge callee calleeEph)).1.table bridge =
          some (acceptedBy b callee calleeEph sid) := by
        simp only [onControl, hlookup, hsid]
        rw [amend_table, Function.update_self]
      have hne := fresh_ne hfiled hb hsid
      have hchanged : acceptedBy b callee calleeEph sid ≠ b := by
        intro hsame
        exact hne (congrArg BridgeRec.sessionId hsame).symm
      simp only [Option.isSome_some, true_imp_iff, Option.some.injEq, forall_eq']
      constructor
      · intro hgoverns
        have hpeer : b.peer = peer := by
          by_contra hforeign
          have hsame := hgoverns.foreign bridge b hb hforeign
          rw [hafter] at hsame
          exact hchanged (Option.some.inj hsame)
        obtain ⟨hplaced, -⟩ := hgoverns.accepts bridge callee calleeEph rfl bridge b hb
          (by rw [hafter]; exact fun hsame => hchanged (Option.some.inj hsame))
        refine ⟨hpeer, hplaced, fun hset => ?_⟩
        obtain ⟨b', hb', hend⟩ := hgoverns.settled trivial bridge b hb hset
        rw [hafter] at hb'
        obtain rfl := Option.some.inj hb'
        exact hne hend.sessionId.symm
      · rintro ⟨hpeer, hplaced, hopen⟩
        refine governs_of_named (fun b' hb' hforeign => ?_) (fun bridge' _ _ hc b' hb' _ => ?_)
          fun _ b' hb' hset => ?_
        · obtain rfl := Option.some.inj (hb.symm.trans hb')
          exact absurd hpeer hforeign
        · obtain rfl : bridge = bridge' := (Control.accept.inj hc).1
          obtain rfl := Option.some.inj (hb.symm.trans hb')
          refine ⟨hplaced, ?_⟩
          by_contra hringing
          exact hopen (.inl hringing)
        · obtain rfl := Option.some.inj (hb.symm.trans hb')
          exact absurd hset hopen

theorem reject_governs_iff {reason : UInt8} : Governs x r peer (.reject bridge reason) ↔
    ItsToSend x r peer (.reject bridge reason) := by
  simp only [ItsToSend]
  cases hb : r.table bridge with
  | none =>
    have hlookup : r.bridges[bridge]? = none := hb
    have hsame : (r.onControl x peer (.reject bridge reason)).1 = r := by
      simp [onControl, hlookup]
    simp [governs_same hsame]
  | some b =>
    have hlookup : r.bridges[bridge]? = some b := hb
    simp only [Option.some.injEq, forall_eq']
    cases hagain : signedAgain bridge b reason with
    | some again =>
      have hafter : (r.onControl x peer (.reject bridge reason)).1.table bridge =
          some { b with signedSent := true } := by
        simp only [onControl, hlookup, hagain]
        rw [amend_table, Function.update_self]
      have hunsent : b.signedSent = false := by
        unfold signedAgain at hagain
        split_ifs at hagain with hboth
        exact hboth.2
      simp only [reduceCtorEq, if_false]
      constructor
      · intro hgoverns
        by_contra hforeign
        have hsame := hgoverns.foreign bridge b hb hforeign
        rw [hafter] at hsame
        have hsent := congrArg BridgeRec.signedSent (Option.some.inj hsame)
        rw [hunsent] at hsent
        cases hsent
      · intro hpeer
        refine governs_of_named (fun b' hb' hforeign => ?_) (fun _ _ _ hc => by cases hc)
          fun _ b' hb' _ => ⟨_, hafter, ?_⟩
        · obtain rfl := Option.some.inj (hb.symm.trans hb')
          exact absurd hpeer hforeign
        · obtain rfl := Option.some.inj (hb.symm.trans hb')
          exact ⟨rfl, rfl, rfl, rfl⟩
    | none =>
      have hafter : (r.onControl x peer (.reject bridge reason)).1.table bridge =
          some { b with outcome := .rejected reason } := by
        simp only [onControl, hlookup, hagain]
        rw [amend_table, Function.update_self]
      simp only [if_true]
      constructor
      · intro hgoverns
        by_cases hsame : b.outcome = .rejected reason
        · exact .inl hsame
        · refine .inr ⟨?_, fun hset => ?_⟩
          · by_contra hforeign
            have hleft := hgoverns.foreign bridge b hb hforeign
            rw [hafter] at hleft
            exact hsame (congrArg BridgeRec.outcome (Option.some.inj hleft)).symm
          · obtain ⟨b', hb', hend⟩ := hgoverns.settled trivial bridge b hb hset
            rw [hafter] at hb'
            obtain rfl := Option.some.inj hb'
            exact hsame hend.outcome.symm
      · rintro (hsame | ⟨hpeer, hopen⟩)
        · have hkept : { b with outcome := .rejected reason } = b := by rw [← hsame]
          rw [hkept] at hafter
          refine governs_of_named (fun b' hb' _ => ?_) (fun _ _ _ hc => by cases hc)
            fun _ b' hb' _ => ⟨b', ?_, ⟨rfl, rfl, rfl, rfl⟩⟩
          · exact hafter.trans (hb.symm.trans hb')
          · exact hafter.trans (hb.symm.trans hb')
        · refine governs_of_named (fun b' hb' hforeign => ?_) (fun _ _ _ hc => by cases hc)
            fun _ b' hb' hset => ?_
          · obtain rfl := Option.some.inj (hb.symm.trans hb')
            exact absurd hpeer hforeign
          · obtain rfl := Option.some.inj (hb.symm.trans hb')
            exact absurd hset hopen

theorem governs_iff_of_filed (hfiled : SessionsFiled r) (c : Control) :
    Governs x r peer c ↔ ItsToSend x r peer c := by
  cases c with
  | invite bridge caller callerEph account domain word =>
    simp only [ItsToSend]
    cases hrefusal : refusal x word with
    | some reason =>
      have hsame : (r.onControl x peer
          (.invite bridge caller callerEph account domain word)).1 = r := by
        simp [onControl, hrefusal]
      simp [governs_same hsame]
    | none =>
      have hafter : (r.onControl x peer
          (.invite bridge caller callerEph account domain word)).1.table bridge =
          some (rung peer caller callerEph account x.now) := by
        simp only [onControl, hrefusal]
        rw [insertBridge_table, Function.update_self]
      simp only [true_imp_iff]
      exact governs_iff_of_replaces id hafter fun b hb => by cases hb; rfl
  | inviteDevice bridge caller callerEph device =>
    simp only [ItsToSend, admitsDevice]
    by_cases hgate : x.full = true ∨ (x.listed = false ∧ x.vouched = false)
    · have hsame : (r.onControl x peer (.inviteDevice bridge caller callerEph device)).1 = r := by
        simp [onControl, hgate]
      simp [governs_same hsame, hgate]
    · have hput : ∀ {after : BridgeRec}, after.peer = peer →
          (r.onControl x peer (.inviteDevice bridge caller callerEph device)).1.table bridge =
            some after → (Governs x r peer (.inviteDevice bridge caller callerEph device) ↔
              ∀ b, r.table bridge = some b → b.peer = peer) := by
        intro after hpeer hafter
        refine governs_iff_of_replaces id hafter fun b hb => ?_
        obtain rfl := Option.some.inj hb
        exact hpeer
      cases hwaiting : x.waiting with
      | none =>
        have hafter : (r.onControl x peer
            (.inviteDevice bridge caller callerEph device)).1.table bridge =
            some { rung peer caller callerEph x.owner x.now with deviceOnly := some device } := by
          simp only [onControl, if_neg hgate, hwaiting]
          rw [insertBridge_table, Function.update_self]
        simp [hput rfl hafter, hgate]
      | some eph =>
        cases hsid : r.nextSession x.draws with
        | none =>
          have hsame : (r.onControl x peer
              (.inviteDevice bridge caller callerEph device)).1 = r := by
            simp [onControl, hgate, hwaiting, hsid]
          simp [governs_same hsame]
        | some sid =>
          have hafter : (r.onControl x peer
              (.inviteDevice bridge caller callerEph device)).1.table bridge =
              some (answeredBy { rung peer caller callerEph x.owner x.now with
                deviceOnly := some device } device eph sid) := by
            simp only [onControl, if_neg hgate, hwaiting, hsid]
            rw [insertBridge_table, Function.update_self]
          simp [hput rfl hafter, hgate]
  | ringing bridge => simp [ItsToSend, governs_same (c := .ringing bridge) rfl]
  | accept bridge callee calleeEph => exact accept_governs_iff hfiled
  | reject bridge reason => exact reject_governs_iff
  | close bridge reason =>
    have hafter : (r.onControl x peer (.close bridge reason)).1.table bridge = none := by
      simp only [onControl]
      rw [dropBridge_table, Function.update_self]
    exact governs_iff_of_replaces id hafter fun b hb => by cases hb

section Filed

theorem SessionsFiled.drop (hfiled : SessionsFiled r) (bridge : Bridge) :
    SessionsFiled (r.dropBridge bridge) := by
  intro k b sid hb hkey
  rw [dropBridge_table, Function.update_apply] at hb
  split_ifs at hb with hne
  have hheld := hfiled k b sid hb hkey
  unfold dropBridge
  cases hdropped : r.bridges[bridge]? with
  | none => exact hheld
  | some old =>
    dsimp only
    rw [Indexes.strikeOut_apply, if_neg]
    · exact hheld
    · intro hsame
      have hother := hfiled bridge old sid hdropped hsame
      exact hne (Option.some.inj (hheld.symm.trans hother))

theorem SessionsFiled.put (hfiled : SessionsFiled r)
    (hfree : ∀ sid, b.sessionKey = some sid → r.bySession sid = none) :
    SessionsFiled (r.insertBridge bridge b) := by
  intro k b' sid hb' hkey
  rw [insertBridge_table, Function.update_apply] at hb'
  simp only [insertBridge]
  rw [Indexes.fileUnder_apply]
  split_ifs at hb' with hk
  · obtain rfl := Option.some.inj hb'
    rw [if_pos hkey, hk]
  · have hheld := hfiled k b' sid hb' hkey
    rw [if_neg]
    · exact hheld
    · intro hsame
      rw [hfree sid hsame] at hheld
      cases hheld

theorem SessionsFiled.amend {b' : BridgeRec} (hfiled : SessionsFiled r)
    (hb : r.table bridge = some b) (hsame : b'.sessionId = b.sessionId) :
    SessionsFiled { r with bridges := r.bridges.insert bridge b' } := by
  intro k held sid hheld hkey
  rw [amend_table, Function.update_apply] at hheld
  split_ifs at hheld with hk
  · obtain rfl := Option.some.inj hheld
    have hkey' : b.sessionKey = some sid := by
      rw [← hkey]
      simp [BridgeRec.sessionKey, hsame]
    rw [hk]
    exact hfiled bridge b sid hb hkey'
  · exact hfiled k held sid hheld hkey

theorem SessionsFiled.session {sid : UInt64} (hfiled : SessionsFiled r)
    (hfree : r.bySession sid = none) (hsid : b.sessionKey = some sid) :
    SessionsFiled { r with
      bridges := r.bridges.insert bridge b
      bySession := Function.update r.bySession sid (some bridge) } := by
  intro k held sid' hheld hkey
  rw [amend_table, Function.update_apply] at hheld
  dsimp only
  rw [Function.update_apply]
  split_ifs at hheld with hk
  · obtain rfl := Option.some.inj hheld
    obtain rfl := Option.some.inj (hsid.symm.trans hkey)
    rw [if_pos rfl, hk]
  · have hkept := hfiled k held sid' hheld hkey
    rw [if_neg]
    · exact hkept
    · rintro rfl
      rw [hfree] at hkept
      cases hkept

theorem SessionsFiled.onControl (hfiled : SessionsFiled r) :
    SessionsFiled (r.onControl x peer c).1 := by
  cases c with
  | invite bridge caller callerEph account domain word =>
    simp only [RelayInner.onControl]
    split
    · exact hfiled
    · exact hfiled.put fun sid hsid => by cases hsid
  | inviteDevice bridge caller callerEph device =>
    simp only [RelayInner.onControl]
    split_ifs
    · exact hfiled
    · split
      · exact hfiled.put fun sid hsid => by cases hsid
      · split
        · exact hfiled
        case h_2 sid hsid =>
          obtain ⟨hfree, -⟩ := nextSession_some hsid
          refine hfiled.put fun sid' hsid' => ?_
          obtain rfl : sid = sid' := sessionId_of_key hsid'
          exact hfree
  | ringing bridge => exact hfiled
  | accept bridge callee calleeEph =>
    simp only [RelayInner.onControl]
    split
    case h_1 b sid hb hsid =>
      obtain ⟨hfree, hbit⟩ := nextSession_some hsid
      exact hfiled.session hfree (sessionKey_some hbit rfl)
    · exact hfiled
  | reject bridge reason =>
    simp only [RelayInner.onControl]
    split
    · exact hfiled
    case h_2 b hb =>
      split
      · exact hfiled.amend hb rfl
      · exact hfiled.amend hb rfl
  | close bridge reason => exact hfiled.drop bridge

theorem SessionsFiled.step (hfiled : SessionsFiled r) (held : Held) :
    SessionsFiled (r.step held) := by
  cases held with
  | poll caller target eph now =>
    simp only [RelayInner.step, perform, pollCall]
    split
    · exact hfiled
    · split_ifs
      · exact hfiled.drop _
      · exact hfiled
      · exact hfiled.drop _
  | insert caller target eph now route bridge =>
    simp only [RelayInner.step, perform, insertCall]
    split
    · exact hfiled.put fun sid hsid => by cases hsid
    · split_ifs
      · exact hfiled
      · exact (hfiled.drop _).put fun sid hsid => by cases hsid
  | answer device caller eph account now draws =>
    simp only [RelayInner.step, perform, tryAnswer]
    split
    · exact hfiled
    · split_ifs
      · exact hfiled
      · split
        · split_ifs <;> exact hfiled
        · split
          · exact hfiled
          case h_2 sid hsid =>
            obtain ⟨hfree, hbit⟩ := nextSession_some hsid
            exact hfiled.session hfree (sessionKey_some hbit rfl)
  | decline account bridge reason =>
    simp only [RelayInner.step, perform, decline]
    split
    · exact hfiled
    · split_ifs
      · exact hfiled.drop _
      · exact hfiled
  | close me sid =>
    simp only [RelayInner.step, perform, closeBridge]
    split_ifs
    · exact hfiled
    · split
      · exact hfiled
      · split_ifs
        · exact hfiled.drop _
        · exact hfiled
  | control x peer c => exact hfiled.onControl
  | expire o now => exact expire_keeps (fun _ k h => h.drop k) o now hfiled

end Filed

/-- At any point of any run, a frame leaves alone the bridges of other peers and what became
of those already settled, and an accept all but those placed here and ringing, exactly where
it is the peer's to send. -/
theorem governs_iff (links : PubKey → Bool) (calls : List Held) (x : Heard) (peer : PubKey)
    (c : Control) : Governs x (run step (.empty links) calls) peer c ↔
      ItsToSend x (run step (.empty links) calls) peer c := by
  have hstart : SessionsFiled (.empty links) := by
    intro k b sid hb
    simp [table, empty] at hb
  exact governs_iff_of_filed (run_invariant (fun _ held h => h.step held) hstart calls) c

/-- Peer 3 closes the bridge peer 2 rings account 7 over. -/
theorem stranger_closes : ¬ ∀ (links : PubKey → Bool) (calls : List Held) (x : Heard)
    (peer : PubKey) (c : Control), Governs x (run step (.empty links) calls) peer c := by
  intro hall
  have hgoverns := hall (fun _ => true)
    [.control (heardAt 10 []) 2 (.invite 1 5 100 7 "" none)] (heardAt 11 []) 3
    (.close 1 reasonEnded)
  have hleft := hgoverns.foreign 1 (rung 2 5 100 7 10) (by decide) (by decide)
  exact absurd hleft (by decide)

end RelayInner
end Sqex.Relay
