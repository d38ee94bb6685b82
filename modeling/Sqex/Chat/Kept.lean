import Sqex.Chat.Epochs

/-! What an invariant of a device is asked of: the few writes its calls are made
of. From these it is kept by every call, a sealing apart. -/
namespace Sqex.Chat
open Call

structure Quiet (f : Store → Store) : Prop where
  chain : ∀ s ex channel, ((f s).filed ex channel).chain = (s.filed ex channel).chain
  counter : ∀ s ex channel row, (s.filed ex channel).cursor = some row →
    ∃ row', ((f s).filed ex channel).cursor = some row' ∧ row'.msgSeq = row.msgSeq ∧
      row'.epoch = row.epoch

structure Kept (C : Crypto) (I : Device → Prop)
    (free : Place → UInt64 → UInt64 → Device → Prop) : Prop where
  write : ∀ f, Quiet f → Keeps I (writing f)
  clear : ∀ channel, Keeps I (resetSequenceSpace channel)
  back : ∀ channel next head, Triple I (fun d => next < (d.store.chain channel).1)
    (resetChain channel next head) fun _ _ => True
  next : ∀ channel info, Triple I (fun _ => True) (chainAt channel info) fun next d =>
    ∀ inst, free ⟨d.store.signingScope channel, inst, channel⟩ next.1 info.myChainSeq d
  remembered : ∀ channel, Triple I (fun _ => True) (reading (·.chain channel)) fun next d =>
    ∀ inst, free ⟨d.store.signingScope channel, inst, channel⟩ next.1 0 d
  sign : ∀ place chainSeq reported input, Triple I (free place chainSeq reported)
    (sign C place chainSeq reported input) fun _ _ => True
  record : ∀ channel inst chainSeq head, Keeps I (setChain channel inst chainSeq head)
  count : ∀ channel epoch msgSeq, Keeps I (setMsgSeq channel epoch msgSeq none)

section Quiet

theorem quiet_put {f : Store → Store} (ex : Store → PubKey) (channel : Bytes32)
    (g : Filed → Filed) (hf : ∀ s, f s = s.put (ex s) channel (g (s.filed (ex s) channel)))
    (hchain : ∀ t, (g t).chain = t.chain)
    (hcounter : ∀ t row, t.cursor = some row → ∃ row', (g t).cursor = some row' ∧
      row'.msgSeq = row.msgSeq ∧ row'.epoch = row.epoch) : Quiet f := by
  constructor
  · intro s ex' channel'
    rw [hf, Store.put_filed]
    split
    · rename_i h
      rw [hchain, h.1, h.2]
    · rfl
  · intro s ex' channel' row hrow
    rw [hf, Store.put_filed]
    split
    · rename_i h
      rw [h.1, h.2] at hrow
      exact hcounter _ row hrow
    · exact ⟨row, hrow, rfl, rfl⟩

theorem quiet_filed {f : Store → Store} (hf : ∀ s, (f s).filed = s.filed) : Quiet f := by
  constructor
  · intro s ex channel
    rw [hf]
  · intro s ex channel row hrow
    rw [hf]
    exact ⟨row, hrow, rfl, rfl⟩

theorem quiet_putKey (channel : Bytes32) (epoch : UInt32) (key : Bytes32) :
    Quiet (·.putKey channel epoch key) :=
  quiet_put (·.scope) channel
    (fun t => { t with channelKey := t.channelKey.insertIfNew epoch key })
    (fun _ => rfl) (fun _ => rfl) (fun _ row h => ⟨row, h, rfl, rfl⟩)

theorem quiet_setIncarnation (channel inst : Bytes32) (announce : Bool) :
    Quiet (·.setIncarnation channel inst announce) :=
  quiet_put (·.scope) channel (fun t => { t with incarnation := some ⟨inst, announce⟩ })
    (fun _ => rfl) (fun _ => rfl) (fun _ row h => ⟨row, h, rfl, rfl⟩)

theorem quiet_rewind (channel : Bytes32) : Quiet (·.rewind channel) :=
  quiet_put (·.scope) channel
    (fun t => { t with cursor := t.cursor.map fun row => { row with since := 0 } })
    (fun _ => rfl) (fun _ => rfl) (fun t row h => ⟨{ row with since := 0 }, by simp [h]⟩)

theorem quiet_truncateAbove (channel : Bytes32) (fork : UInt64) :
    Quiet (·.truncateAbove channel fork) :=
  quiet_put (·.scope) channel
    (fun t => { t with cursor := t.cursor.map fun row =>
      { row with since := if row.since ≤ fork.toInt64 then row.since else fork.toInt64 } })
    (fun _ => rfl) (fun _ => rfl) (fun t row h =>
      ⟨{ row with since := if row.since ≤ fork.toInt64 then row.since else fork.toInt64 },
        by simp [h]⟩)

def readUpTo (since : UInt64) : Option CursorRow → CursorRow
  | some row => { row with since := if row.since ≤ since.toInt64 then since.toInt64 else row.since }
  | none => ⟨since.toInt64, 0, 0⟩

theorem quiet_setSince (channel : Bytes32) (since : UInt64) :
    Quiet (·.setSince channel since) := by
  refine quiet_put (·.scope) channel
    (fun t => { t with cursor := some (readUpTo since t.cursor) }) (fun _ => rfl) (fun _ => rfl) ?_
  intro t row h
  exact ⟨_, rfl, by simp [h, readUpTo]⟩

end Quiet

section Calls
variable {C : Crypto} {I : Device → Prop} 
  {free : Place → UInt64 → UInt64 → Device → Prop}

theorem triple_reading {P : Device → Prop} {α : Type} (f : Store → α) :
    Triple I P (reading f) fun a d => a = f d.store ∧ P d := by
  refine triple_bind triple_get fun d => triple_pure ?_
  intro s _ hd
  exact ⟨by rw [hd.1], hd.2⟩

theorem triple_answered {P : Device → Prop} {α : Type} (a : Option α) :
    Triple I P (answered a) fun _ d => P d :=
  (triple_expect _ a).imp (fun _ h => h) fun _ _ h => h.2

theorem keeps_answered {α : Type} (a : Option α) : Keeps I (answered a) := keeps_expect _ a

theorem keeps_reading {α : Type} (f : Store → α) : Keeps I (reading f) :=
  keeps_bind keeps_get fun _ => keeps_pure _

theorem keeps_noteIncarnation (hwrite : ∀ f, Quiet f → Keeps I (writing f))
    (hclear : ∀ channel, Keeps I (resetSequenceSpace channel)) (channel inst : Bytes32) :
    Keeps I (noteIncarnation channel inst) := by
  refine keeps_bind (keeps_reading _) fun known => ?_
  cases known with
  | none => exact hwrite _ (quiet_setIncarnation _ _ _)
  | some known =>
    refine keeps_ite (keeps_pure _) (keeps_bind (hclear channel) fun _ => ?_)
    exact hwrite _ (quiet_setIncarnation _ _ _)

namespace Kept
variable (h : Kept C I free)
include h

theorem signAction (t : ActionTerms) (reported : UInt64) :
    Triple I (free t.place t.chainSeq reported) (signAction C t reported) fun _ _ => True := by
  unfold Chat.signAction
  cases t.input C with
  | error e => exact triple_fail _
  | ok input => exact h.sign t.place t.chainSeq reported input

omit h in
theorem signedAt {α : Type} (channel inst : Bytes32) (next reported : UInt64)
    {k : Place → Device → ChatM α}
    (hk : ∀ place d, Triple I (free place next reported) (k place d) fun _ _ => True) :
    Triple I
      (fun d => ∀ inst, free ⟨d.store.signingScope channel, inst, channel⟩ next reported d)
      (do
        let place ← place channel inst
        let d ← Call.get
        k place d) fun _ _ => True := by
  refine triple_bind (m := place channel inst) 
    (Q := fun place d => free place next reported d) ?_ ?_
  · refine triple_bind (triple_reading _) fun exchange => triple_pure ?_
    intro d _ hd
    rw [hd.1]
    exact hd.2 inst
  · intro place
    refine triple_bind triple_get fun d => ?_
    exact (hk place d).imp (fun _ hd => hd.2) fun _ _ hd => hd

theorem signActionAt (channel : Bytes32) (info : ChannelInfo) (event : UInt8)
    (subject : PubKey) (arg : Bytes) :
    Keeps I (signActionAt C channel info event subject arg) := by
  have hall : Triple I (fun _ => True) (Chat.signActionAt C channel info event subject arg)
      fun _ _ => True :=
    triple_bind (h.next channel info) fun next => signedAt channel info.inst next.1 _
      fun place d => h.signAction
        ⟨place, d.me, d.device, event, subject, arg, next.1, next.2⟩ info.myChainSeq
  exact hall.keeps

theorem postEntry (channel : Bytes32) (info : ChannelInfo) (epoch : UInt32) (msgSeq : UInt64)
    (body : Bytes) (expiresAfter : UInt32) (posted : Option Unit) :
    Keeps I (postEntry C channel info epoch msgSeq body expiresAfter posted) := by
  have hall : Triple I (fun _ => True)
      (Chat.postEntry C channel info epoch msgSeq body expiresAfter posted)
      fun _ _ => True := by
    refine triple_bind (h.next channel info) fun next => signedAt channel info.inst next.1 _ ?_
    intro place d
    refine triple_bind (h.sign place next.1 info.myChainSeq _) fun action => ?_
    exact (keeps_bind (keeps_answered posted) fun _ => h.record _ _ _ _).triple
  exact hall.keeps

theorem memberAct (channel : Bytes32) (act : MemberAct) (info : Option ChannelInfo)
    (done : Option Unit) : Keeps I (memberAct C channel act info done) := by
  unfold Chat.memberAct
  refine keeps_bind (keeps_failIf _) fun _ => ?_
  refine keeps_bind (keeps_answered info) fun info => keeps_bind keeps_get fun d => ?_
  refine keeps_bind (h.signActionAt channel info _ _ _) fun action => ?_
  exact keeps_bind (keeps_answered done) fun _ => h.record _ _ _ _

theorem join (channel inst : Bytes32) (info : Option ChannelInfo) (done : Option Unit) :
    Keeps I (join C channel inst info done) := by
  have hnext : Triple I (fun _ => True) (joinAt channel info) fun next d =>
      ∀ inst, free ⟨d.store.signingScope channel, inst, channel⟩ next.1
        ((info.map (·.myChainSeq)).getD 0) d := by
    cases info with
    | some info => exact h.next channel info
    | none => exact h.remembered channel
  have hall : Triple I (fun _ => True) (Chat.join C channel inst info done) fun _ _ => True := by
    refine triple_bind hnext fun next => signedAt channel inst next.1 _ ?_
    intro place d
    refine triple_bind (h.signAction
      ⟨place, d.me, d.device, Event.joined, d.me, [], next.1, next.2⟩ _) fun action => ?_
    exact (keeps_bind (keeps_answered done) fun _ => h.record _ _ _ _).triple
  exact hall.keeps

theorem chainBackToOrigin (channel : Bytes32) (a : ChainAnswers) :
    Keeps I (chainBackToOrigin channel a) := by
  unfold Chat.chainBackToOrigin
  cases a.info with
  | none => exact keeps_pure _
  | some info =>
    have hall : ∀ target : UInt64 × Bytes32, Triple I (fun _ => True)
        (do
          let mine ← reading (·.chain channel)
          doIf (mine.1 > target.1) (resetChain channel target.1 target.2))
        fun _ _ => True := by
      intro target
      refine triple_bind (triple_reading _) fun mine => triple_doIf fun hgt => ?_
      refine (h.back channel target.1 target.2).imp (fun d hd => ?_) fun _ _ hd => hd
      rw [← hd.1]
      exact hgt
    exact (hall _).keeps

theorem forkFound (channel : Bytes32) (fork : UInt64) (ownAct : Bool) (a : ForkAnswers) :
    Keeps I (forkFound channel fork ownAct a) := by
  unfold Chat.forkFound
  refine keeps_ite (keeps_pure _) (keeps_ite (h.chainBackToOrigin channel a.chain) ?_)
  refine keeps_bind (h.write _ (quiet_truncateAbove channel fork)) fun _ => ?_
  exact keeps_doIf (h.chainBackToOrigin channel a.chain)

theorem rehome (channel : Bytes32) (subject : PubKey) (info : Option ChannelInfo)
    (fork : ForkAnswers) (done : Option Unit) :
    Keeps I (rehome C channel subject info fork done) := by
  unfold Chat.rehome
  refine keeps_bind (keeps_answered info) fun info => keeps_bind keeps_get fun d => ?_
  refine keeps_bind (keeps_doIf (h.forkFound channel info.last true fork)) fun _ => ?_
  refine keeps_bind (h.signActionAt channel info _ _ _) fun action => ?_
  refine keeps_bind (keeps_answered done) fun _ => ?_
  refine keeps_bind (h.record _ _ _ _) fun _ => ?_
  exact h.write _ (quiet_filed fun _ => rfl)

theorem collectKeys (channel : Bytes32) (a : Collected) : Keeps I (collectKeys channel a) := by
  unfold Chat.collectKeys
  refine keeps_bind (keeps_answered a.got) fun _ => ?_
  have hput : ∀ k : UInt32 × Bytes32, Keeps I (putKey channel k.1 k.2) :=
    fun k => h.write _ (quiet_putKey channel k.1 k.2)
  refine keeps_bind (keeps_forEach hput a.keys) fun _ => ?_
  refine keeps_bind (keeps_answered a.finished) fun _ => keeps_ite (keeps_pure _) ?_
  exact keeps_bind (h.write _ (quiet_rewind channel)) fun _ => keeps_answered _

theorem signRotation (channel : Bytes32) (epoch : UInt32) (info : ChannelInfo) :
    Keeps I (signRotation C channel epoch info) := by
  refine keeps_bind keeps_get fun d => keeps_ite ?_ (keeps_pure _)
  exact keeps_bind (h.signActionAt channel info _ _ _) fun action => keeps_pure _

theorem minted (channel : Bytes32) (epoch : UInt32) (info : ChannelInfo)
    (signed : Option Action) (a : Minted) (accepted : Bool) :
    Keeps I (minted channel epoch info signed a accepted) := by
  cases accepted with
  | true =>
    refine keeps_bind ?_ fun _ => h.write _ (quiet_putKey channel epoch a.key)
    cases signed with
    | none => exact keeps_pure _
    | some action => exact h.record _ _ _ _
  | false => exact h.collectKeys channel a.collected

theorem mintEpoch (channel : Bytes32) (epoch : UInt32) (a : Minted) :
    Keeps I (mintEpoch C channel epoch a) := by
  refine keeps_bind (keeps_answered a.envelopes) fun _ => ?_
  refine keeps_bind (keeps_answered a.info) fun info => ?_
  refine keeps_bind (h.signRotation channel epoch info) fun signed => ?_
  refine keeps_bind (keeps_answered a.accepted) fun accepted => ?_
  exact keeps_bind (h.minted channel epoch info signed a accepted) fun _ => keeps_answered _

omit h in
theorem settle (atLeast epoch : UInt32) (reports : List (Option UInt32)) :
    Keeps I (settle atLeast epoch reports) := by
  induction reports generalizing epoch with
  | nil => exact keeps_pure _
  | cons a reports ih =>
    exact keeps_bind (keeps_answered a) fun epoch => keeps_ite (keeps_pure _) (ih epoch)

omit h in
theorem epochSettled (channel : Bytes32) (atLeast : UInt32) (first : Option UInt32)
    (reports : List (Option UInt32)) : Keeps I (epochSettled channel atLeast first reports) := by
  refine keeps_bind (keeps_answered first) fun epoch => keeps_bind keeps_get fun d => ?_
  exact keeps_ite (keeps_pure _) (settle atLeast epoch _)

theorem ensureEpoch (channel : Bytes32) (a : EpochAnswers) :
    Keeps I (ensureEpoch C channel a) := by
  unfold Chat.ensureEpoch
  refine keeps_bind (keeps_answered a.info) fun info => keeps_ite (keeps_pure _) ?_
  refine keeps_bind (keeps_reading _) fun highest => ?_
  refine keeps_bind (keeps_doIf (h.clear channel)) fun _ => keeps_ite ?_ ?_
  · refine keeps_bind (keeps_answered a.devices) fun _ => ?_
    exact keeps_bind (h.mintEpoch channel 1 a.minted) fun _ => epochSettled _ _ _ _
  · refine keeps_bind (keeps_reading _) fun held => keeps_ite (keeps_pure _) ?_
    refine keeps_bind (h.collectKeys channel a.collected) fun _ => ?_
    refine keeps_bind (keeps_reading _) fun held => keeps_ite (keeps_pure _) ?_
    refine keeps_bind keeps_get fun d => ?_
    refine keeps_bind (keeps_failIf _) fun _ => ?_
    refine keeps_bind (keeps_answered a.devices) fun _ => ?_
    refine keeps_bind (h.mintEpoch channel _ a.minted) fun _ => ?_
    refine keeps_bind (epochSettled _ _ _ _) fun after => ?_
    exact keeps_bind (keeps_reading _) fun held => keeps_ite (keeps_pure _) (keeps_fail _)

theorem beforeSealing (channel : Bytes32) (a : SendAnswers) :
    Keeps I (beforeSealing C channel a) := by
  refine keeps_bind (h.ensureEpoch channel a.epoch) fun epoch => ?_
  exact keeps_bind (keeps_answered a.info) fun info => keeps_pure _

theorem commit (channel : Bytes32) (agreed : Bool) (adds removes : List PubKey)
    (a : CommitAnswers) : Keeps I (commit C channel agreed adds removes a) := by
  unfold Chat.commit
  refine keeps_bind (keeps_failIf _) fun _ => ?_
  refine keeps_bind keeps_get fun d => ?_
  refine keeps_bind (keeps_failIf _) fun _ => ?_
  refine keeps_bind (keeps_failIf _) fun _ => ?_
  refine keeps_bind (keeps_failIf _) fun _ => ?_
  refine keeps_bind (keeps_forEach (fun who => h.memberAct channel _ _ _) _) fun _ => ?_
  refine keeps_bind (keeps_forEach (fun who => h.memberAct channel _ _ _) _) fun _ => ?_
  refine keeps_bind (keeps_answered a.info) fun info => ?_
  refine keeps_bind (keeps_answered a.key) fun key => ?_
  refine keeps_bind (keeps_answered a.envelopes) fun _ => ?_
  refine keeps_bind (h.signActionAt channel info _ _ _) fun action => ?_
  refine keeps_bind (keeps_answered a.accepted) fun accepted => ?_
  refine keeps_bind (keeps_answered a.toppedUp) fun _ => ?_
  refine keeps_ite ?_ (h.collectKeys channel a.collected)
  refine keeps_bind (h.record _ _ _ _) fun _ => ?_
  refine keeps_bind (h.write _ (quiet_putKey channel _ key)) fun _ => ?_
  refine keeps_bind (keeps_answered a.after) fun info => ?_
  refine keeps_bind (keeps_reading _) fun msgSeq => ?_
  refine keeps_bind (h.count channel _ msgSeq) fun _ => ?_
  exact h.postEntry channel info _ msgSeq a.plain 0 a.posted

theorem sendBody (channel : Bytes32) (plain : Bytes) (a : SendAnswers) {d : Device} (hI : I d)
    (hseal : ∀ ready, (Chat.beforeSealing C channel a).result d = .ok ready →
      I ((sealBody C channel ready.1 ready.2.myMsgSeq plain a.written).after
        ((Chat.beforeSealing C channel a).after d))) :
    I ((Chat.sendBody C channel plain a).after d) := by
  have hready : Triple I (· = d) (Chat.beforeSealing C channel a) fun ready s =>
      (Chat.beforeSealing C channel a).result d = .ok ready ∧
        s = (Chat.beforeSealing C channel a).after d := by
    intro s hs heq
    subst heq
    exact ⟨h.beforeSealing channel a s hs, fun ready hr => ⟨hr, rfl⟩⟩
  have hall : Triple I (· = d) (Chat.sendBody C channel plain a) fun _ _ => True := by
    refine triple_bind hready fun ready => ?_
    refine triple_bind (Q := fun _ _ => True) ?_ fun out => (h.postEntry _ _ _ _ _ _ _).triple
    intro s _ hs
    rw [hs.2]
    exact ⟨hseal ready hs.1, fun _ _ => trivial⟩
  exact (hall d hI rfl).1

/-- Every operation keeps the invariant, if sealing a body and founding a channel do. -/
theorem step (hrefile : ∀ {f : Store → Store} (src dst : PubKey) (chains : Bool),
      (∀ s, (f s).filed = (s.refile src dst chains).filed) → Keeps I (refile src dst chains f))
    {op : Op} {d : Device} (hI : I d)
    (hsend : ∀ channel plain a, op = .sendBody channel plain a → I (d.step C op))
    (hcreate : ∀ req inst ack again, op = .create req inst ack again → I (d.step C op)) :
    I (d.step C op) := by
  cases op with
  | sendBody channel plain a => exact hsend channel plain a rfl
  | create req inst ack again => exact hcreate req inst ack again rfl
  | commit channel agreed adds removes a => exact h.commit channel agreed adds removes a d hI
  | memberAct channel act info done => exact h.memberAct channel act info done d hI
  | mintEpoch channel epoch a => exact h.mintEpoch channel epoch a d hI
  | join channel inst info done => exact h.join channel inst info done d hI
  | rehome channel subject info fork done => exact h.rehome channel subject info fork done d hI
  | home channel origin => exact h.write (·.setHome channel origin) (quiet_filed fun _ => rfl) d hI
  | forkFound channel fork a => exact h.forkFound channel fork false a d hI
  | arrive channel epoch key => exact h.write _ (quiet_putKey channel epoch key) d hI
  | poll channel since => exact h.write _ (quiet_setSince channel since) d hI
  | reset channel => exact h.clear channel d hI
  | restart exchange => exact h.write (·.reopen exchange) (quiet_filed fun _ => rfl) d hI
  | followHandover src dst => exact hrefile src dst true (fun _ => rfl) d hI
  | moveHome dst =>
    have hmove : Keeps I ((Op.moveHome dst).call C) := by
      refine keeps_bind (keeps_reading _) fun src => keeps_bind (keeps_failIf _) fun _ => ?_
      refine keeps_bind (hrefile src dst false fun _ => rfl) fun _ => ?_
      exact h.write _ (quiet_filed fun _ => rfl)
    exact hmove d hI

end Kept
end Calls
end Sqex.Chat
