import Sqex.Relay.Crossing

/-! Whether both ends of a call hold what the other offered: a bridge is offered one
ephemeral, may be answered once, and is answered with one. -/
namespace Sqex.Relay
open Std Runs RelayInner

abbrev Told := Bridge → Option Bytes32

variable {told : Told} {y : RelayInner} {drawn : List Bridge}
  {opens : PubKey × PubKey → Option Opened} {route : Route}

def Told.Grows (told told' : Told) : Prop := ∀ k eph, told k = some eph → told' k = some eph

theorem Told.grows_refl (told : Told) : told.Grows told := fun _ _ h => h

theorem Told.grows_update {k : Bridge} (hnew : told k = none) (eph : Bytes32) :
    told.Grows (Function.update told k (some eph)) := by
  intro k' eph' htold
  have hne : k' ≠ k := by
    rintro rfl
    rw [hnew] at htold
    cases htold
  rw [Function.update_of_ne hne, htold]

def Told.count (told : Told) (k : Bridge) : Nat := if (told k).isSome then 1 else 0

theorem Told.count_of_none {k : Bridge} (hnone : told k = none) :
    told.count k = 0 := by simp [Told.count, hnone]

theorem Told.count_of_some {k : Bridge} {eph : Bytes32} (hsome : told k = some eph) :
    told.count k = 1 := by simp [Told.count, hsome]

theorem Told.count_update {k k' : Bridge} {eph : Bytes32} :
    Told.count (Function.update told k (some eph)) k' = if k' = k then 1 else told.count k' := by
  unfold Told.count
  rw [Function.update_apply]
  split_ifs <;> simp_all

theorem Told.count_le_one {k : Bridge} : told.count k ≤ 1 := by
  unfold Told.count
  split_ifs <;> omega

theorem Told.none_of_count {k : Bridge} (hzero : told.count k = 0) :
    told k = none := by
  cases htold : told k with
  | none => rfl
  | some eph =>
    rw [Told.count_of_some htold] at hzero
    cases hzero

namespace Control

def asks (k : Bridge) : Control → Bool
  | .invite bridge .. | .inviteDevice bridge .. => bridge = k
  | _ => false

def refuses (k : Bridge) : Control → Bool
  | .reject bridge _ => bridge = k
  | _ => false

def Outward (offers : Told) : Control → Prop
  | .invite bridge _ eph .. | .inviteDevice bridge _ eph _ => offers bridge = some eph
  | .close .. => True
  | _ => False

def Homeward (answers : Told) : Control → Prop
  | .accept bridge _ eph => answers bridge = some eph
  | .ringing _ | .reject .. | .close .. => True
  | _ => False

theorem Outward.grows {offers offers' : Told} (hgrows : offers.Grows offers') {c : Control}
    (hc : c.Outward offers) : c.Outward offers' := by
  cases c with
  | invite bridge _ eph | inviteDevice bridge _ eph => exact hgrows _ _ hc
  | close => trivial
  | ringing | reject | accept => exact hc.elim

theorem Homeward.grows {answers answers' : Told} (hgrows : answers.Grows answers') {c : Control}
    (hc : c.Homeward answers) : c.Homeward answers' := by
  cases c with
  | accept bridge _ eph => exact hgrows _ _ hc
  | ringing | reject | close => trivial
  | invite | inviteDevice => exact hc.elim

end Control

namespace RelayInner
variable {r : RelayInner} {bridge : Bridge} {b : BridgeRec}

def Holding (P : Bridge → BridgeRec → Prop) (r : RelayInner) : Prop :=
  ∀ k b, r.table k = some b → P k b

def unanswered (r : RelayInner) (k : Bridge) : Nat :=
  if (r.table k).any (·.callee.isNone) then 1 else 0

section Holding
variable {P Q : Bridge → BridgeRec → Prop}

theorem Holding.imp (hpq : ∀ k b, P k b → Q k b) (hr : r.Holding P) : r.Holding Q :=
  fun k b hb => hpq k b (hr k b hb)

theorem Holding.of_update {r' : RelayInner} (hr : r.Holding P) (hb : P bridge b)
    (htable : r'.table = Function.update r.table bridge (some b)) : r'.Holding P := by
  intro k b' hb'
  rw [htable, Function.update_apply] at hb'
  split_ifs at hb' with hk
  · obtain rfl := Option.some.inj hb'
    rwa [hk]
  · exact hr k b' hb'

theorem Holding.put (hr : r.Holding P) (hb : P bridge b) : (r.insertBridge bridge b).Holding P :=
  hr.of_update hb (insertBridge_table r bridge b)

theorem Holding.drop (hr : r.Holding P) (k : Bridge) : (r.dropBridge k).Holding P := by
  intro k' b hb
  rw [dropBridge_table, Function.update_apply] at hb
  split_ifs at hb
  exact hr k' b hb

theorem Holding.expire (hr : r.Holding P) (o : IterOrder (Bridge × BridgeRec)) (now : UInt64) :
    (r.expire o now).1.Holding P :=
  expire_keeps (fun _ k hr => hr.drop k) o now hr

end Holding

section Unanswered
variable {k : Bridge}

theorem unanswered_of_update {r' : RelayInner}
    (htable : r'.table = Function.update r.table bridge (some b)) :
    r'.unanswered k =
      if k = bridge then (if b.callee.isNone then 1 else 0) else r.unanswered k := by
  unfold unanswered
  rw [htable, Function.update_apply]
  split_ifs <;> simp_all

theorem unanswered_eq_one (hb : r.table bridge = some b) (hcallee : b.callee = none) :
    r.unanswered bridge = 1 := by
  simp [unanswered, hb, hcallee]

theorem dropBridge_unanswered : (r.dropBridge bridge).unanswered k ≤ r.unanswered k := by
  unfold unanswered
  rw [dropBridge_table, Function.update_apply]
  split_ifs <;> simp_all

theorem expire_unanswered {o : IterOrder (Bridge × BridgeRec)} {now : UInt64} :
    (r.expire o now).1.unanswered k ≤ r.unanswered k :=
  let P (r' : RelayInner) : Prop := r'.unanswered k ≤ r.unanswered k
  have hdrop : ∀ r' bridge, P r' → P (r'.dropBridge bridge) :=
    fun _ _ hle => dropBridge_unanswered.trans hle
  expire_keeps hdrop o now le_rfl

end Unanswered

end RelayInner

section Sent
variable {r : RelayInner} {peer dest : PubKey} {c c' : Control}

theorem sentTo_append (sent more : Sent) :
    sentTo peer (sent ++ more) = sentTo peer sent ++ sentTo peer more := by
  simp [sentTo]

theorem mem_sentTo (hc' : c' ∈ sentTo peer (r.sendControl dest c)) : c' = c := by
  simp only [sentTo, sendControl] at hc'
  split_ifs at hc' <;> simp_all

theorem countP_sentTo (r : RelayInner) (peer dest : PubKey) (c : Control) (p : Control → Bool) :
    (sentTo peer (r.sendControl dest c)).countP p ≤ if p c then 1 else 0 := by
  have hsent : sentTo peer (r.sendControl dest c) = [] ∨
      sentTo peer (r.sendControl dest c) = [c] := by
    unfold sentTo sendControl
    split_ifs
    · by_cases hdest : dest = peer <;> simp [hdest]
    · simp
  rcases hsent with hnone | hone
  · simp [hnone]
  · simp [hone, List.countP_cons]

theorem expire_sends {o : IterOrder (Bridge × BridgeRec)} {now : UInt64}
    (hc : c ∈ sentTo peer (r.expire o now).2) : ∃ k, c = .close k reasonEnded := by
  have hfold : ∀ (ends : RelayInner × Sent → Bridge × BridgeRec → RelayInner × Sent),
      (∀ r sent p, (ends (r, sent) p).2 = sent ++ (r.endBridge p.1 p.2.peer).2) →
      ∀ (dead : List (Bridge × BridgeRec)) (r : RelayInner) (sent : Sent),
        (∀ c ∈ sentTo peer sent, ∃ k, c = .close k reasonEnded) →
        ∀ c ∈ sentTo peer (dead.foldl ends (r, sent)).2, ∃ k, c = .close k reasonEnded := by
    intro ends hends dead
    induction dead with
    | nil => exact fun _ _ hsent => hsent
    | cons p rest ih =>
      intro r sent hsent
      refine ih _ _ fun c hc => ?_
      rw [hends, sentTo_append, List.mem_append] at hc
      rcases hc with hold | hnew
      · exact hsent c hold
      · exact ⟨p.1, mem_sentTo hnew⟩
  exact hfold _ (fun _ _ _ => rfl) _ r [] (by simp [sentTo]) c hc

end Sent

def Closing (cs : List Control) : Prop := ∀ c ∈ cs, ∃ k, c = .close k reasonEnded

section Closing
variable {cs : List Control} {k : Bridge}

theorem Closing.asks (hcs : Closing cs) : cs.countP (Control.asks k) = 0 := by
  rw [List.countP_eq_zero]
  intro c hc
  obtain ⟨k', rfl⟩ := hcs c hc
  simp [Control.asks]

theorem Closing.refuses (hcs : Closing cs) : cs.countP (Control.refuses k) = 0 := by
  rw [List.countP_eq_zero]
  intro c hc
  obtain ⟨k', rfl⟩ := hcs c hc
  simp [Control.refuses]

theorem Closing.outward (hcs : Closing cs) (offers : Told) : ∀ c ∈ cs, c.Outward offers := by
  intro c hc
  obtain ⟨k', rfl⟩ := hcs c hc
  trivial

theorem Closing.homeward (hcs : Closing cs) (answers : Told) : ∀ c ∈ cs, c.Homeward answers := by
  intro c hc
  obtain ⟨k', rfl⟩ := hcs c hc
  trivial

theorem closing_end {r : RelayInner} {peer dest : PubKey} {bridge : Bridge} :
    Closing (sentTo peer (r.endBridge bridge dest).2) :=
  fun _ hc => ⟨bridge, mem_sentTo hc⟩

end Closing

def Asked.Agrees (offers answers : Told) (a : Asked) : Prop :=
  ∀ k, a.ack.state = .established → a.bridge = some k →
    offers k = some a.eph ∧ answers k = some a.ack.peerEphemeral

def Opened.Agrees (offers answers : Told) (o : Opened) : Prop :=
  ∀ k, o.ack.state = .established → o.bridge = some k →
    offers k = some o.ack.peerEphemeral ∧ answers k = some o.eph

theorem Asked.Agrees.grows {offers offers' answers answers' : Told} (hoffers : offers.Grows offers')
    (hanswers : answers.Grows answers') {a : Asked} (ha : a.Agrees offers answers) :
    a.Agrees offers' answers' := by
  intro k hstate hbridge
  obtain ⟨hoffer, hanswer⟩ := ha k hstate hbridge
  exact ⟨hoffers _ _ hoffer, hanswers _ _ hanswer⟩

theorem Opened.Agrees.grows {offers offers' answers answers' : Told}
    (hoffers : offers.Grows offers') (hanswers : answers.Grows answers') {o : Opened}
    (ho : o.Agrees offers answers) : o.Agrees offers' answers' := by
  intro k hstate hbridge
  obtain ⟨hoffer, hanswer⟩ := ho k hstate hbridge
  exact ⟨hoffers _ _ hoffer, hanswers _ _ hanswer⟩

/-- What is true of every entry of a table, one entry anew. -/
theorem update_all {ι β : Type*} [DecidableEq ι] {f : ι → Option β} {P : β → Prop} {i : ι}
    {m : Option β} (hold : ∀ j a, f j = some a → P a) (hnew : ∀ a, m = some a → P a) (j : ι)
    (a : β) (ha : Function.update f i m j = some a) : P a := by
  rw [Function.update_apply] at ha
  split_ifs at ha
  · exact hnew a ha
  · exact hold j a ha

namespace Crossing
variable {s : Crossing} {offers answers offers' answers' : Told} {keyX keyY : PubKey}

section
variable (offers answers : Told) (s : Crossing) (k : Bridge)

def CallerSide (b : BridgeRec) : Prop :=
  offers k = some b.callerEph ∧ (b.outcome = .established → answers k = some b.calleeEph)

def CalleeSide (b : BridgeRec) : Prop :=
  offers k = some b.callerEph ∧ (b.callee.isSome → answers k = some b.calleeEph)

def chances : Nat :=
  s.toY.countP (Control.asks k) + s.toX.countP (Control.refuses k) + s.y.unanswered k +
    answers.count k

/-- What was told of each bridge is what both exchanges hold, what is on the way between them
and what the ends were given say. -/
structure Agreed : Prop where
  drawn : ∀ k, (offers k).isSome → k ∈ s.drawn
  caller : s.x.Holding (CallerSide offers answers)
  callee : s.y.Holding (CalleeSide offers answers)
  outward : ∀ c ∈ s.toY, c.Outward offers
  homeward : ∀ c ∈ s.toX, c.Homeward answers
  calls : ∀ called a, s.calls called = some a → a.Agrees offers answers
  opens : ∀ opened o, s.opens opened = some o → o.Agrees offers answers

def Once : Prop :=
  ∀ k, chances answers s k ≤ offers.count k

structure Tuned : Prop where
  agreed : Agreed offers answers s
  once : Once offers answers s

end

theorem Tuned.inTune (h : Tuned offers answers s) : InTune s := by
  intro called opened a o k ha hastate habridge ho hostate hobridge
  obtain ⟨hoffer, hanswer⟩ := h.agreed.calls called a ha k hastate habridge
  obtain ⟨hoffer', hanswer'⟩ := h.agreed.opens opened o ho k hostate hobridge
  exact ⟨Option.some.inj (hanswer.symm.trans hanswer'), Option.some.inj (hoffer'.symm.trans hoffer)⟩

theorem tuned_start (linksX linksY : PubKey → Bool) :
    Tuned (fun _ => none) (fun _ => none) (start linksX linksY) := by
  have hempty : ∀ (links : PubKey → Bool) (k : Bridge),
      (RelayInner.empty links).table k = none := by
    intro links k
    simp [table, empty]
  refine ⟨⟨by simp, ?_, ?_, by simp [start], by simp [start], by simp [start], by simp [start]⟩, ?_⟩
  · intro k b hb
    rw [start, hempty] at hb
    cases hb
  · intro k b hb
    rw [start, hempty] at hb
    cases hb
  · intro k
    simp [chances, start, unanswered, hempty, Told.count]

section Grows
variable (hoffers : offers.Grows offers') (hanswers : answers.Grows answers')
include hoffers hanswers

theorem CallerSide.grows {k : Bridge} {b : BridgeRec} (hb : CallerSide offers answers k b) :
    CallerSide offers' answers' k b :=
  ⟨hoffers _ _ hb.1, fun hestablished => hanswers _ _ (hb.2 hestablished)⟩

theorem CalleeSide.grows {k : Bridge} {b : BridgeRec} (hb : CalleeSide offers answers k b) :
    CalleeSide offers' answers' k b :=
  ⟨hoffers _ _ hb.1, fun hcallee => hanswers _ _ (hb.2 hcallee)⟩

theorem Agreed.grows (h : Agreed offers answers s) (hdrawn : ∀ k, (offers' k).isSome → k ∈ drawn) :
    Agreed offers' answers' { s with drawn } where
  drawn := hdrawn
  caller := h.caller.imp fun _ _ hb => hb.grows hoffers hanswers
  callee := h.callee.imp fun _ _ hb => hb.grows hoffers hanswers
  outward c hc := (h.outward c hc).grows hoffers
  homeward c hc := (h.homeward c hc).grows hanswers
  calls called a ha := (h.calls called a ha).grows hoffers hanswers
  opens opened o ho := (h.opens opened o ho).grows hoffers hanswers

end Grows

section Steps
variable {caller device account : PubKey} {target : String} {eph : Bytes32} {now : UInt64}

theorem callerAck_agrees {r : RelayInner} {k : Bridge} {b : BridgeRec}
    (hcaller : r.Holding (CallerSide offers answers))
    (hindexed : r.indexed (r.callerIndex (caller, target)) = some (k, b))
    (heph : b.callerEph = eph) :
    Asked.Agrees offers answers ⟨eph, r.callerIndex (caller, target), callerAck b now⟩ := by
  intro k' hstate hbridge
  obtain ⟨hk, hb⟩ := indexed_some.mp hindexed
  obtain rfl := Option.some.inj (hk.symm.trans hbridge)
  obtain ⟨hoffer, hanswer⟩ := hcaller k b hb
  cases houtcome : b.outcome with
  | ringing => simp [callerAck, houtcome, CallAck.ringing] at hstate
  | rejected reason => simp [callerAck, houtcome, CallAck.rejected] at hstate
  | established =>
    have hack : (callerAck b now).peerEphemeral = b.calleeEph := by simp [callerAck, houtcome]
    dsimp only
    rw [hack, ← heph]
    exact ⟨hoffer, hanswer houtcome⟩

theorem Tuned.atX (h : Tuned offers answers s) (hoffers : offers.Grows offers') {x : RelayInner}
    {toX sent : List Control} {calls : PubKey × String → Option Asked}
    (hdrawn : ∀ k, (offers' k).isSome → k ∈ drawn) (hx : x.Holding (CallerSide offers' answers))
    (htoX : ∀ c ∈ toX, c ∈ s.toX) (hsent : ∀ c ∈ sent, c.Outward offers')
    (hcalls : ∀ called a, calls called = some a → a.Agrees offers' answers)
    (honce : ∀ k, toX.countP (Control.refuses k) + sent.countP (Control.asks k) + offers.count k ≤
      s.toX.countP (Control.refuses k) + offers'.count k) :
    Tuned offers' answers { s with x, toX, toY := s.toY ++ sent, calls, drawn } := by
  have hagreed := h.agreed.grows hoffers answers.grows_refl hdrawn
  refine ⟨{ hagreed with
    caller := hx
    outward := fun c hc => ?_
    homeward := fun c hc => hagreed.homeward c (htoX c hc)
    calls := hcalls }, fun k => ?_⟩
  · rcases List.mem_append.mp hc with hold | hnew
    · exact hagreed.outward c hold
    · exact hsent c hnew
  · have hbefore := h.once k
    have hstep := honce k
    simp only [chances, List.countP_append] at hbefore ⊢
    omega

/-- The callee's exchange has changed: what it answers anew is told, and a chance to answer is
passed on or used. -/
theorem Tuned.atY (h : Tuned offers answers s) (hanswers : answers.Grows answers')
    {toY sent : List Control} (hy : y.Holding (CalleeSide offers answers'))
    (htoY : ∀ c ∈ toY, c ∈ s.toY) (hsent : ∀ c ∈ sent, c.Homeward answers')
    (hopens : ∀ opened o, opens opened = some o → o.Agrees offers answers')
    (honce : ∀ k, toY.countP (Control.asks k) + sent.countP (Control.refuses k) +
      y.unanswered k + answers'.count k ≤
      s.toY.countP (Control.asks k) + s.y.unanswered k + answers.count k) :
    Tuned offers answers' { s with y, toY, toX := s.toX ++ sent, opens } := by
  have hagreed := h.agreed.grows offers.grows_refl hanswers h.agreed.drawn
  refine ⟨{ hagreed with
    callee := hy
    outward := fun c hc => hagreed.outward c (htoY c hc)
    homeward := fun c hc => ?_
    opens := hopens }, fun k => ?_⟩
  · rcases List.mem_append.mp hc with hold | hnew
    · exact hagreed.homeward c hold
    · exact hsent c hnew
  · have hbefore := h.once k
    have hstep := honce k
    simp only [chances, List.countP_append] at hbefore ⊢
    omega

theorem Tuned.dropsX (h : Tuned offers answers s) {x : RelayInner} {sent : List Control}
    {calls : PubKey × String → Option Asked} (hx : x.Holding (CallerSide offers answers))
    (hsent : Closing sent) (hcalls : ∀ called a, calls called = some a → a.Agrees offers answers)
    (hdrawn : s.drawn ⊆ drawn) :
    Tuned offers answers { s with x, toY := s.toY ++ sent, calls, drawn } := by
  refine h.atX offers.grows_refl (fun k hk => hdrawn (h.agreed.drawn k hk)) hx (fun _ hc => hc)
    (hsent.outward offers) hcalls fun k => ?_
  rw [hsent.asks]
  omega

theorem Tuned.poll (h : Tuned offers answers s) :
    Tuned offers answers (s.step keyX keyY (.poll caller target eph now)) := by
  have hnone : Closing (sentTo keyY []) := by simp [Closing, sentTo]
  have hcalls := h.agreed.calls
  have hdrawn := List.Subset.refl s.drawn
  simp only [step, pollCall]
  split
  · exact h.dropsX h.agreed.caller hnone (update_all hcalls (by simp)) hdrawn
  case h_2 k b hindexed =>
    have hdropped := h.agreed.caller.drop k
    split_ifs with heph
    · refine h.dropsX hdropped hnone (update_all hcalls fun a ha => ?_) hdrawn
      obtain rfl := Option.some.inj ha
      exact callerAck_agrees h.agreed.caller hindexed heph
    · refine h.dropsX h.agreed.caller hnone (update_all hcalls fun a ha => ?_) hdrawn
      obtain rfl := Option.some.inj ha
      exact callerAck_agrees h.agreed.caller hindexed heph
    · exact h.dropsX hdropped closing_end (update_all hcalls (by simp)) hdrawn

theorem inviteOf_asks {bridge k : Bridge} :
    (inviteOf bridge caller target eph route).asks k = decide (bridge = k) := by
  unfold inviteOf
  split_ifs <;> rfl

theorem inviteOf_outward {bridge : Bridge} (hoffer : offers bridge = some eph) :
    (inviteOf bridge caller target eph route).Outward offers := by
  unfold inviteOf
  split_ifs <;> exact hoffer

theorem Tuned.places (h : Tuned offers answers s) {x : RelayInner} {sent : Sent} {bridge : Bridge}
    (hx : x.Holding (CallerSide offers answers)) (hsent : Closing (sentTo keyY sent))
    (hnew : offers bridge = none) :
    Tuned (Function.update offers bridge (some eph)) answers
      { s with
        x := x.insertBridge bridge (placed caller target eph now route)
        toY := s.toY ++ sentTo keyY (sent ++ x.sendControl route.peer
          (inviteOf bridge caller target eph route))
        calls := Function.update s.calls (caller, target)
          (some ⟨eph, (x.insertBridge bridge
            (placed caller target eph now route)).callerIndex (caller, target), .ringing now⟩)
        drawn := bridge :: s.drawn } := by
  have hgrows := Told.grows_update hnew eph
  have hself : Function.update offers bridge (some eph) bridge = some eph := Function.update_self ..
  have hplaced : CallerSide (Function.update offers bridge (some eph)) answers bridge
      (placed caller target eph now route) := ⟨hself, fun hstate => by cases hstate⟩
  have hx' := (hx.imp fun _ _ hb => hb.grows hgrows answers.grows_refl).put hplaced
  have hcalls : ∀ called a, s.calls called = some a →
      a.Agrees (Function.update offers bridge (some eph)) answers :=
    fun called a ha => (h.agreed.calls called a ha).grows hgrows answers.grows_refl
  refine h.atX hgrows (fun k hk => ?_) hx' (fun _ hc => hc) (fun c hc => ?_)
    (update_all hcalls fun a ha k hstate => ?_) fun k => ?_
  · by_cases hkb : k = bridge
    · simp [hkb]
    · rw [Function.update_of_ne hkb] at hk
      exact List.mem_cons_of_mem _ (h.agreed.drawn k hk)
  · rw [sentTo_append, List.mem_append] at hc
    rcases hc with hclose | hinvite
    · exact hsent.outward _ c hclose
    · rw [mem_sentTo hinvite]
      exact inviteOf_outward hself
  · obtain rfl := Option.some.inj ha
    cases hstate
  · have hone := countP_sentTo x keyY route.peer (inviteOf bridge caller target eph route)
      (Control.asks k)
    simp only [inviteOf_asks, decide_eq_true_eq] at hone
    simp only [sentTo_append, List.countP_append, hsent.asks, Told.count_update]
    by_cases hk : k = bridge
    · obtain rfl := hk
      rw [Told.count_of_none hnew]
      rw [if_pos rfl] at hone ⊢
      omega
    · rw [if_neg (Ne.symm hk)] at hone
      rw [if_neg hk]
      omega

theorem Tuned.insert (h : Tuned offers answers s) {bridge : Bridge} (hdraw : bridge ∉ s.drawn) :
    ∃ offers', Tuned offers' answers
      (s.step keyX keyY (.insert caller target eph now route bridge)) := by
  have hnone : Closing (sentTo keyY []) := by simp [Closing, sentTo]
  have hnew : offers bridge = none := by
    by_contra hsome
    exact hdraw (h.agreed.drawn bridge (Option.ne_none_iff_isSome.mp hsome))
  simp only [step, insertCall]
  split
  · exact ⟨_, h.places h.agreed.caller hnone hnew⟩
  case h_2 k b hindexed =>
    split_ifs with heph
    · refine ⟨offers, h.dropsX h.agreed.caller hnone (update_all h.agreed.calls fun a ha => ?_)
        (List.subset_cons_self bridge s.drawn)⟩
      obtain rfl := Option.some.inj ha
      exact callerAck_agrees h.agreed.caller hindexed heph
    · exact ⟨_, h.places (h.agreed.caller.drop k) closing_end hnew⟩

theorem Tuned.answersY (h : Tuned offers answers s) {toY : List Control} {bridge : Bridge}
    {b : BridgeRec} {sid : UInt64} {peer : PubKey} (hfree : answers bridge = none)
    (hoffer : offers bridge = some b.callerEph)
    (htable : y.table = Function.update s.y.table bridge (some (answeredBy b device eph sid)))
    (htoY : ∀ c ∈ toY, c ∈ s.toY) (hopens : ∀ opened o, opens opened = some o →
      o.Agrees offers (Function.update answers bridge (some eph)))
    (honce : ∀ k, toY.countP (Control.asks k) + (if k = bridge then 1 else s.y.unanswered k) ≤
      s.toY.countP (Control.asks k) + s.y.unanswered k) :
    Tuned offers (Function.update answers bridge (some eph))
      { s with
        y, toY, opens
        toX := s.toX ++ sentTo keyX (s.y.sendControl peer (.accept bridge device eph)) } := by
  have hgrows := Told.grows_update hfree eph
  have hself : Function.update answers bridge (some eph) bridge = some eph :=
    Function.update_self ..
  have hanswered : CalleeSide offers (Function.update answers bridge (some eph)) bridge
      (answeredBy b device eph sid) := ⟨hoffer, fun _ => hself⟩
  have hy := (h.agreed.callee.imp fun _ _ hb => hb.grows offers.grows_refl hgrows).of_update
    hanswered htable
  refine h.atY hgrows hy htoY (fun c hc => ?_) hopens fun k => ?_
  · rw [mem_sentTo hc]
    exact hself
  · have hstep := honce k
    have hnone := countP_sentTo s.y keyX peer (.accept bridge device eph) (Control.refuses k)
    simp only [Control.refuses, Bool.false_eq_true, if_false] at hnone
    rw [unanswered_of_update htable, Told.count_update]
    by_cases hk : k = bridge
    · obtain rfl := hk
      rw [Told.count_of_none hfree]
      simp only [if_pos, answeredBy, Option.isNone_some, Bool.false_eq_true, if_false] at hstep ⊢
      omega
    · rw [if_neg hk] at hstep
      rw [if_neg hk, if_neg hk]
      omega

theorem Tuned.staysY (h : Tuned offers answers s)
    (hopens : ∀ opened o, opens opened = some o → o.Agrees offers answers) :
    Tuned offers answers { s with toX := s.toX ++ sentTo keyX [], opens } := by
  refine h.atY answers.grows_refl h.agreed.callee (fun _ hc => hc) (by simp [sentTo]) hopens ?_
  intro k
  simp [sentTo]

theorem Tuned.opened (h : Tuned offers answers s) {draws : List UInt64}
    (hagain : OffersAgain s (.opened device caller eph account now draws)) :
    ∃ answers', Tuned offers answers'
      (s.step keyX keyY (.opened device caller eph account now draws)) := by
  have hopens := h.agreed.opens
  simp only [step, tryAnswer]
  split
  · exact ⟨answers, h.staysY (update_all hopens (by simp))⟩
  case h_2 k b hindexed =>
    obtain ⟨hk, hb⟩ := indexed_some.mp hindexed
    obtain ⟨hoffer, hanswer⟩ := h.agreed.callee k b hb
    split_ifs
    · exact ⟨answers, h.staysY (update_all hopens (by simp))⟩
    · split
      case h_1 answered hcallee =>
        split_ifs with hdevice
        · refine ⟨answers, h.staysY (update_all hopens fun o ho k' _ hbridge => ?_)⟩
          obtain rfl := Option.some.inj ho
          obtain rfl := Option.some.inj (hk.symm.trans hbridge)
          have heph : eph = b.calleeEph := hagain (k, b) hindexed (by rw [hcallee, hdevice])
          rw [heph]
          exact ⟨hoffer, hanswer (by simp [hcallee])⟩
        · exact ⟨answers, h.staysY (update_all hopens (by simp))⟩
      case h_2 hcallee =>
        split
        · exact ⟨answers, h.staysY (update_all hopens (by simp))⟩
        case h_2 sid hsid =>
          have hone := unanswered_eq_one hb hcallee
          have hfree : answers k = none := by
            have honce := h.once k
            have hle := offers.count_le_one (k := k)
            unfold chances at honce
            exact Told.none_of_count (by omega)
          have hgrows := Told.grows_update hfree eph
          refine ⟨_, h.answersY hfree hoffer (amend_table s.y k _ _) (fun _ hc => hc)
            (update_all (fun opened o ho => ?_) fun o ho k' _ hbridge => ?_) fun k' => ?_⟩
          · exact (hopens opened o ho).grows offers.grows_refl hgrows
          · obtain rfl := Option.some.inj ho
            obtain rfl := Option.some.inj (hk.symm.trans hbridge)
            exact ⟨hoffer, Function.update_self ..⟩
          · split_ifs with hsame
            · rw [hsame, hone]
            · exact le_rfl

theorem signedAgain_some {bridge : Bridge} {b : BridgeRec} {reason : UInt8} {c : Control}
    (hagain : signedAgain bridge b reason = some c) :
    ∃ word, c = .invite bridge b.caller b.callerEph b.account "" (some word) := by
  unfold signedAgain at hagain
  split_ifs at hagain
  obtain ⟨word, -, rfl⟩ := Option.map_eq_some_iff.mp hagain
  exact ⟨word, rfl⟩

/-- A frame reaches the caller's exchange: of an answer it learns what was answered, and a
bridge that was refused it may ask for again. -/
theorem Tuned.toX (h : Tuned offers answers s) {x : Heard} :
    Tuned offers answers (s.step keyX keyY (.toX x)) := by
  have hcalls := h.agreed.calls
  have hdrawn := h.agreed.drawn
  have hcaller := h.agreed.caller
  cases hqueue : s.toX with
  | nil => simpa only [step, hqueue] using h
  | cons c rest =>
    have hrest : ∀ c ∈ rest, c ∈ s.toX := by
      rw [hqueue]
      exact fun c hc => List.mem_cons_of_mem _ hc
    have hc := h.agreed.homeward c (by simp [hqueue])
    have hquiet : ∀ {x' : RelayInner}, x'.Holding (CallerSide offers answers) →
        Tuned offers answers { s with x := x', toX := rest, toY := s.toY ++ sentTo keyY [] } := by
      intro x' hx'
      refine h.atX offers.grows_refl hdrawn hx' hrest (by simp [sentTo]) hcalls fun k => ?_
      simp only [hqueue, sentTo, List.countP_cons, List.filter_nil, List.map_nil, List.countP_nil]
      omega
    simp only [step, hqueue]
    cases c with
    | invite | inviteDevice => exact hc.elim
    | ringing bridge => exact hquiet hcaller
    | close bridge reason => exact hquiet (hcaller.drop bridge)
    | accept bridge callee calleeEph =>
      simp only [onControl]
      split
      case h_1 b sid hb hsid =>
        refine hquiet (hcaller.of_update ?_ (amend_table s.x bridge _ _))
        exact ⟨(hcaller bridge b hb).1, fun _ => hc⟩
      · exact hquiet hcaller
    | reject bridge reason =>
      simp only [onControl]
      split
      · exact hquiet hcaller
      case h_2 b hb =>
        obtain ⟨hoffer, hanswer⟩ := hcaller bridge b hb
        split
        case h_1 again hagain =>
          obtain ⟨word, rfl⟩ := signedAgain_some hagain
          refine h.atX offers.grows_refl hdrawn
            (hcaller.of_update (b := { b with signedSent := true }) ⟨hoffer, hanswer⟩
              (amend_table s.x bridge _ _)) hrest (fun c hc => ?_) hcalls fun k => ?_
          · rw [mem_sentTo hc]
            exact hoffer
          · have hone := countP_sentTo s.x keyY keyY
              (.invite bridge b.caller b.callerEph b.account "" (some word)) (Control.asks k)
            simp only [Control.asks, decide_eq_true_eq] at hone
            simp only [hqueue, List.countP_cons, Control.refuses, decide_eq_true_eq]
            omega
        · refine hquiet (hcaller.of_update ?_ (amend_table s.x bridge _ _))
          exact ⟨hoffer, fun hstate => by cases hstate⟩

section Heard
variable {c : Control} {rest : List Control} {bridge : Bridge} (hqueue : s.toY = c :: rest)
include hqueue

theorem mem_toY_of_rest : ∀ c ∈ rest, c ∈ s.toY := by
  rw [hqueue]
  exact fun c hc => List.mem_cons_of_mem _ hc

theorem Tuned.free (h : Tuned offers answers s) (hasks : c.asks bridge) :
    answers bridge = none ∧ s.y.unanswered bridge = 0 := by
  have honce := h.once bridge
  have hle := offers.count_le_one (k := bridge)
  simp only [chances, hqueue, List.countP_cons, if_pos hasks] at honce
  exact ⟨Told.none_of_count (by omega), by omega⟩

theorem Tuned.quietY (h : Tuned offers answers s) (hy : y.Holding (CalleeSide offers answers))
    (hle : ∀ k, y.unanswered k ≤ s.y.unanswered k) :
    Tuned offers answers { s with y, toY := rest, toX := s.toX ++ sentTo keyX [] } := by
  refine h.atY answers.grows_refl hy (mem_toY_of_rest hqueue) (by simp [sentTo])
    h.agreed.opens fun k => ?_
  have hk := hle k
  simp only [hqueue, sentTo, List.countP_cons, List.filter_nil, List.map_nil, List.countP_nil]
  omega

theorem Tuned.refusesY (h : Tuned offers answers s) (hasks : c.asks bridge) (reason : UInt8) :
    Tuned offers answers
      { s with
        toY := rest
        toX := s.toX ++ sentTo keyX (s.y.sendControl keyX (.reject bridge reason)) } := by
  refine h.atY answers.grows_refl h.agreed.callee (mem_toY_of_rest hqueue) (fun c hc => ?_)
    h.agreed.opens fun k => ?_
  · rw [mem_sentTo hc]
    trivial
  · have hone := countP_sentTo s.y keyX keyX (.reject bridge reason) (Control.refuses k)
    simp only [Control.refuses, decide_eq_true_eq] at hone
    simp only [hqueue, List.countP_cons]
    by_cases hk : bridge = k
    · obtain rfl := hk
      rw [if_pos rfl] at hone
      rw [if_pos hasks]
      omega
    · rw [if_neg hk] at hone
      omega

theorem Tuned.ringsY (h : Tuned offers answers s) {b : BridgeRec} (hasks : c.asks bridge)
    (hoffer : offers bridge = some b.callerEph) (hcallee : b.callee = none) :
    Tuned offers answers
      { s with
        y := s.y.insertBridge bridge b
        toY := rest
        toX := s.toX ++ sentTo keyX ((s.y.insertBridge bridge b).sendControl keyX
          (.ringing bridge)) } := by
  have hrung : CalleeSide offers answers bridge b :=
    ⟨hoffer, fun hsome => by simp [hcallee] at hsome⟩
  refine h.atY answers.grows_refl (h.agreed.callee.put hrung) (mem_toY_of_rest hqueue)
    (fun c hc => ?_) h.agreed.opens fun k => ?_
  · rw [mem_sentTo hc]
    trivial
  · have hone := countP_sentTo (s.y.insertBridge bridge b) keyX keyX (.ringing bridge)
      (Control.refuses k)
    simp only [Control.refuses, Bool.false_eq_true, if_false] at hone
    rw [unanswered_of_update (insertBridge_table s.y bridge b)]
    simp only [hqueue, List.countP_cons, hcallee, Option.isNone_none, if_true]
    by_cases hk : k = bridge
    · obtain rfl := hk
      rw [if_pos rfl, if_pos hasks]
      omega
    · rw [if_neg hk]
      omega

theorem Tuned.waitedY (h : Tuned offers answers s) {b : BridgeRec} {sid : UInt64}
    (hasks : c.asks bridge) (hoffer : offers bridge = some b.callerEph) :
    ∃ answers', Tuned offers answers'
      { s with
        y := s.y.insertBridge bridge (answeredBy b device eph sid)
        toY := rest
        toX := s.toX ++ sentTo keyX ((s.y.insertBridge bridge
          (answeredBy b device eph sid)).sendControl keyX (.accept bridge device eph)) } := by
  obtain ⟨hfree, hunanswered⟩ := h.free hqueue hasks
  refine ⟨_, h.answersY hfree hoffer (insertBridge_table s.y bridge _) (mem_toY_of_rest hqueue)
    (fun opened o ho => ?_) fun k => ?_⟩
  · exact (h.agreed.opens opened o ho).grows offers.grows_refl (Told.grows_update hfree eph)
  · simp only [hqueue, List.countP_cons]
    by_cases hk : k = bridge
    · obtain rfl := hk
      rw [if_pos rfl, if_pos hasks]
      omega
    · rw [if_neg hk]
      omega

end Heard

theorem Tuned.toY (h : Tuned offers answers s) {x : Heard} :
    ∃ answers', Tuned offers answers' (s.step keyX keyY (.toY x)) := by
  cases hqueue : s.toY with
  | nil =>
    refine ⟨answers, ?_⟩
    simpa only [step, hqueue] using h
  | cons c rest =>
    have hc := h.agreed.outward c (by simp [hqueue])
    simp only [step, hqueue]
    cases c with
    | ringing | accept | reject => exact hc.elim
    | close bridge reason =>
      exact ⟨answers, h.quietY hqueue (h.agreed.callee.drop bridge) fun _ => dropBridge_unanswered⟩
    | invite bridge caller callerEph account domain word =>
      have hasks : Control.asks bridge (.invite bridge caller callerEph account domain word) := by
        simp [Control.asks]
      simp only [onControl]
      split
      case h_1 reason hreason => exact ⟨answers, h.refusesY hqueue hasks reason⟩
      · exact ⟨answers, h.ringsY hqueue hasks hc rfl⟩
    | inviteDevice bridge caller callerEph device =>
      have hasks : Control.asks bridge (.inviteDevice bridge caller callerEph device) := by
        simp [Control.asks]
      simp only [onControl]
      split_ifs
      · exact ⟨answers, h.refusesY hqueue hasks reasonRefused⟩
      · split
        · exact ⟨answers, h.ringsY hqueue hasks hc rfl⟩
        case h_2 eph heph =>
          split
          · exact ⟨answers, h.quietY hqueue h.agreed.callee fun _ => le_rfl⟩
          case h_2 sid hsid => exact h.waitedY hqueue hasks hc

theorem Tuned.sweepX (h : Tuned offers answers s) {o : IterOrder (Bridge × BridgeRec)} :
    Tuned offers answers (s.step keyX keyY (.sweepX o now)) :=
  h.dropsX (h.agreed.caller.expire o now) (fun _ hc => expire_sends hc) h.agreed.calls
    (List.Subset.refl _)

theorem Tuned.sweepY (h : Tuned offers answers s) {o : IterOrder (Bridge × BridgeRec)} :
    Tuned offers answers (s.step keyX keyY (.sweepY o now)) := by
  have hclosing : Closing (sentTo keyX (s.y.expire o now).2) := fun _ hc => expire_sends hc
  have honce : ∀ k, s.toY.countP (Control.asks k) +
      (sentTo keyX (s.y.expire o now).2).countP (Control.refuses k) +
      (s.y.expire o now).1.unanswered k + answers.count k ≤
      s.toY.countP (Control.asks k) + s.y.unanswered k + answers.count k := by
    intro k
    have hfewer : (s.y.expire o now).1.unanswered k ≤ s.y.unanswered k := expire_unanswered
    rw [hclosing.refuses]
    omega
  exact h.atY answers.grows_refl (h.agreed.callee.expire o now) (fun _ hc => hc)
    (hclosing.homeward answers) h.agreed.opens honce

theorem Tuned.step (h : Tuned offers answers s) {crossed : Crossed}
    (hagain : OffersAgain s crossed) :
    ∃ offers' answers', Tuned offers' answers' (s.step keyX keyY crossed) := by
  cases crossed with
  | poll caller target eph now => exact ⟨offers, answers, h.poll⟩
  | insert caller target eph now route bridge =>
    obtain ⟨offers', h'⟩ := h.insert hagain
    exact ⟨offers', answers, h'⟩
  | opened device caller eph account now draws => exact ⟨offers, h.opened hagain⟩
  | toX x => exact ⟨offers, answers, h.toX⟩
  | toY x => exact ⟨offers, h.toY⟩
  | sweepX o now => exact ⟨offers, answers, h.sweepX⟩
  | sweepY o now => exact ⟨offers, answers, h.sweepY⟩

end Steps

/-- Over any interleaving in which a device that answered opens again with what it answered
with, both ends told a bridge is established hold what the other offered. -/
theorem ephemerals_agree (keyX keyY : PubKey) (linksX linksY : PubKey → Bool)
    {crossed : List Crossed}
    (hagain : Each OffersAgain (Crossing.step keyX keyY) (start linksX linksY) crossed) :
    Always InTune (Crossing.step keyX keyY) (start linksX linksY) crossed := by
  have hkeep : ∀ (s : Crossing) (c : Crossed), (∃ offers answers, Tuned offers answers s) →
      OffersAgain s c → ∃ offers answers, Tuned offers answers (s.step keyX keyY c) := by
    intro s c htuned hc
    obtain ⟨offers, answers, h⟩ := htuned
    exact h.step hc
  have halways := hagain.always hkeep ⟨_, _, tuned_start linksX linksY⟩
  exact halways.imp fun s htuned => by
    obtain ⟨offers, answers, h⟩ := htuned
    exact h.inTune

section Example

/-- 5 calls account 7 at the other exchange; its device 8 answers, the caller hears of it, and
the device opens once more, with an ephemeral. -/
def answeredAndReopened (eph : Bytes32) : List Crossed :=
  [.poll 5 "b@y" 100 10, .insert 5 "b@y" 100 10 ⟨2, 7, false, true, none⟩ 1, .toY (heardAt 10 []),
    .toX (heardAt 10 []), .opened 8 5 200 7 20 [3], .toX (heardAt 20 [4]), .poll 5 "b@y" 100 21,
    .opened 8 5 eph 7 22 []]

/-- With the one it answered with, it is heard. -/
theorem reopened_with_the_same :
    Always InTune (Crossing.step 1 2) (start (fun _ => true) fun _ => true)
      (answeredAndReopened 200) :=
  ephemerals_agree 1 2 _ _ (by decide +kernel)

/-- With another, the call connects and is silent. -/
theorem reopened_with_another : ¬ ∀ (keyX keyY : PubKey) (linksX linksY : PubKey → Bool)
    (crossed : List Crossed),
    Always InTune (Crossing.step keyX keyY) (start linksX linksY) crossed := by
  intro hall
  have halways := hall 1 2 (fun _ => true) (fun _ => true) (answeredAndReopened 201)
  have hend := always_iff_prefixes.mp halways _ List.prefix_rfl
  have hephs := hend (5, "b@y") (8, 5)
    ⟨100, some 1, ⟨.established, 0, bridgeBit ||| 4, 8, 200, 21⟩⟩
    ⟨201, some 1, ⟨.established, bridgeBit ||| 3, 100, 22⟩⟩ 1
    (by decide +kernel) rfl rfl (by decide +kernel) rfl rfl
  exact absurd hephs.1 (by decide)

end Example

end Crossing
end Sqex.Relay
