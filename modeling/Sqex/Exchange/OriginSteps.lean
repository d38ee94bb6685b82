import Sqex.Exchange.OriginLog

/-! What each operation did where it returned: the checks that let it through, the rows it
wrote into the log from, and the rows it left. -/
namespace Sqex.Exchange
open Std Runs
namespace Rows
variable {C : Crypto} {h : Host} {channel : Bytes32} {w : Around} {r r' : Rows}
  {es : List Ordered} {caller device account : PubKey} {action : Action}

theorem welcome_ok : r.welcome account w.now = .ok r' ↔
    ∃ c, r.channel = some c ∧ c.visibility = .pub ∧ ¬ r.counts.1 ≥ maxMembers ∧
      { r.seat account .member w.now with
        channel := some { c with emptySince := none } } = r' := by
  simp only [welcome, bind_eq_ok, channelRow_ok, refuseIf_eq_ok, pure_eq_ok, exists_const,
    not_not]

theorem join_ok : r.join C h channel w caller device action = .ok (r', es) ↔
    r.originRow = none ∧ ∃ c, r.channel = some c ∧ c.visibility = .pub ∧
      ¬ ((r.roleOf caller).isNone ∧ r.counts.1 ≥ maxMembers) ∧
      (r.seat caller .member w.now).writeSystem C h channel
        (recordOf Event.joined caller caller device action) [] w.now = .ok (r', es) := by
  simp only [join, bind_eq_ok, readOnly_ok, channelRow_ok, refuseIf_eq_ok, exists_const, not_not]

theorem leave_ok : r.leave C h channel w caller device action = .ok (r', es) ↔
    r.originRow = none ∧ ∃ c, r.channel = some c ∧ ∃ role, r.roleOf caller = some role ∧
      ¬ (c.visibility = .priv ∧ role = .admin ∧ r.counts.2 = 1 ∧ r.counts.1 > 1) ∧
      ∃ r₁, (standDown c r caller role).writeSystem C h channel
        (recordOf Event.left caller caller device action) [] w.now = .ok (r₁, es) ∧
      r' = if r.counts.1 = 1 then r₁.lastOut w.now else r₁ := by
  simp only [leave, bind_eq_ok, readOnly_ok, channelRow_ok, exists_const]
  refine and_congr_right fun _ => exists_congr fun c => and_congr_right fun _ => ?_
  cases r.roleOf caller with
  | none => simp
  | some role =>
    simp only [bind_eq_ok, refuseIf_eq_ok, pure_eq_ok, exists_const, Prod.exists, Prod.mk.injEq,
      Option.some.injEq, exists_eq_left']
    constructor
    · rintro ⟨hadmin, r₁, es', hwrite, rfl, rfl⟩
      exact ⟨hadmin, r₁, hwrite, rfl⟩
    · rintro ⟨hadmin, r₁, hwrite, rfl⟩
      exact ⟨hadmin, r₁, es, hwrite, rfl, rfl⟩

theorem post_ok {req : Post} (hok : r.post C h channel w account device req = .ok (r', es)) :
    r.originRow = none ∧ (r.roleOf account).isSome ∧ r.isMuted account = false ∧
      ∃ c r₁ e, es = [e] ∧ Posted C h channel account device req w.now r r₁ e c ∧
      r' = (r₁.alter account fun m => { m with posted := true }).prune h w.now := by
  simp only [post, bind_eq_ok, readOnly_ok, channelRow_ok, exists_const, refuseIf_eq_ok,
    advanceChain_ok, order_ok, Prod.exists, pure_eq_ok, Prod.mk.injEq] at hok
  obtain ⟨horigin, c, hc, hrole, hmuted, -, -, -, r₁, ⟨hstep, rfl⟩, r₂, e, ⟨c', happ⟩, rfl, rfl⟩ :=
    hok
  obtain rfl := Option.some.inj (hc.symm.trans happ.channel)
  refine ⟨horigin, ?_, by simpa using hmuted, c, _, e, rfl, ⟨hstep, _, rfl, happ⟩, rfl⟩
  simpa [Option.isSome_iff_ne_none] using hrole

theorem setDirectory_ok {name topic : String} :
    r.setDirectory C h channel w caller device name topic action = .ok (r', es) ↔
      ∃ c, r.channel = some c ∧ c.visibility = .pub ∧ r.isAdmin caller = true ∧
        writeSystem C h channel { r with channel := some { c with
            name := (name.take maxName).toString, topic := (topic.take maxTopic).toString } }
          (recordOf Event.renamed caller caller device action)
          (constitution C .pub c.retentionSecs c.maxEntries (name.take maxName).toString
            (topic.take maxTopic).toString) w.now = .ok (r', es) := by
  simp only [setDirectory, bind_eq_ok, channelRow_ok, exists_const, refuseIf_eq_ok, not_not,
    Bool.not_eq_false]

/-- What a write left is changed further, and its entries go out as they are. -/
theorem exists_written {x : Except ChannelError (Rows × List Ordered)} {r₁ r₂ : Rows} :
    (∃ es', x = .ok (r₁, es') ∧ r₂ = r' ∧ es' = es) ↔ x = .ok (r₁, es) ∧ r' = r₂ := by
  simp [and_comm, eq_comm]

theorem retain_ok {retentionSecs maxEntries : UInt32} :
    r.retain C h channel w caller device retentionSecs maxEntries action = .ok (r', es) ↔
      ¬ validRetention retentionSecs = false ∧ r.originRow = none ∧
      ∃ c, r.channel = some c ∧ r.isAdmin caller = true ∧
      ∃ r₁, writeSystem C h channel
          { r with channel := some { c with retentionSecs, maxEntries } }
          (recordOf Event.retention caller caller device action)
          (beBytes 4 retentionSecs.toNat ++ beBytes 4 maxEntries.toNat) w.now = .ok (r₁, es) ∧
        r' = r₁.prune h w.now := by
  simp only [retain, bind_eq_ok, readOnly_ok, channelRow_ok, exists_const, refuseIf_eq_ok,
    Prod.exists, pure_eq_ok, Prod.mk.injEq, Bool.not_eq_false]
  exact and_congr_right fun _ => and_congr_right fun _ => exists_congr fun c =>
    and_congr_right fun _ => and_congr_right fun _ => exists_congr fun r₁ => exists_written

theorem close_ok : r.close caller = .ok r' ↔
    (∃ c, r.channel = some c) ∧ r.isAdmin caller = true ∧ r.destroy = r' := by
  simp only [close, bind_eq_ok, channelRow_ok, exists_const, refuseIf_eq_ok, pure_eq_ok,
    Bool.not_eq_false, exists_and_right]

def inviteEvent (was : Option Role) (role : Role) : UInt8 :=
  if was = none ∨ was = some role then Event.added
  else if role = .admin then Event.promoted
  else Event.demoted

theorem invite_ok {role : Role} :
    r.invite C h channel w caller device account role action = .ok (r', es) ↔
      (w.blocked account caller = true ∧ r = r' ∧ [] = es) ∨
      (w.blocked account caller = false ∧ r.originRow = none ∧ (∃ c, r.channel = some c) ∧
        r.isAdmin caller = true ∧ ¬ r.isDirectMessage C channel = true ∧
        ¬ ((r.roleOf account).isNone ∧ r.counts.1 ≥ maxMembers) ∧
        ¬ ((r.roleOf account).isNone ∧ w.unspokenFull account) ∧
        (r.enroll account role w.now).writeSystem C h channel
          (recordOf (inviteEvent (r.roleOf account) role) account caller device action)
          [role.toByte] w.now = .ok (r', es)) := by
  unfold invite
  cases w.blocked account caller with
  | true => simp
  | false =>
    simp only [Bool.false_eq_true, if_false, bind_eq_ok, readOnly_ok, channelRow_ok,
      exists_const, refuseIf_eq_ok, Bool.not_eq_false, exists_and_right, false_and, false_or,
      true_and, inviteEvent]

theorem mute_ok {on : Bool} :
    r.mute C h channel w caller device account action on = .ok (r', es) ↔
      r.originRow = none ∧ (∃ c, r.channel = some c) ∧ r.isAdmin caller = true ∧
      ¬ (r.roleOf account).isNone = true ∧ ¬ (r.roleOf account = some .admin ∧ on = true) ∧
      ∃ r₁, r.writeSystem C h channel
          (recordOf (if on then Event.muted else Event.unmuted) account caller device action) []
          w.now = .ok (r₁, es) ∧
        r' = r₁.alter account fun m => { m with muted := on } := by
  simp only [mute, bind_eq_ok, readOnly_ok, channelRow_ok, exists_const, refuseIf_eq_ok,
    Prod.exists, pure_eq_ok, Prod.mk.injEq, Bool.not_eq_false, exists_and_right]
  exact and_congr_right fun _ => and_congr_right fun _ => and_congr_right fun _ =>
    and_congr_right fun _ => and_congr_right fun _ => exists_congr fun r₁ => exists_written

theorem replicate_ok {authorise : Bool} :
    r.replicate C h channel w caller device account action authorise = .ok (r', es) ↔
      (∃ c, r.channel = some c) ∧ r.isAdmin caller = true ∧
      ¬ (authorise = true ∧ account ∉ r.replica ∧ r.replica.size ≥ maxReplicas) ∧
      ∃ r₁, r.writeSystem C h channel
          (recordOf (if authorise then Event.replicate else Event.unreplicate) account caller
            device action) [] w.now = .ok (r₁, es) ∧
        r' = { r₁ with
          replica :=
            if authorise then r₁.replica.insert account else r₁.replica.erase account } := by
  simp only [replicate, bind_eq_ok, channelRow_ok, exists_const, refuseIf_eq_ok,
    Prod.exists, pure_eq_ok, Prod.mk.injEq, Bool.not_eq_false, exists_and_right]
  exact and_congr_right fun _ => and_congr_right fun _ => and_congr_right fun _ =>
    exists_congr fun r₁ => exists_written

theorem remove_ok : r.remove C h channel w caller device account action = .ok (r', es) ↔
    r.originRow = none ∧ (∃ c, r.channel = some c) ∧ r.isAdmin caller = true ∧
      ¬ r.isDirectMessage C channel = true ∧ ¬ (r.roleOf account).isNone = true ∧
      ¬ (r.roleOf account = some .admin ∧ r.counts.2 = 1 ∧ r.counts.1 > 1) ∧
      (r.unseat account).writeSystem C h channel
        (recordOf Event.removed account caller device action) [] w.now = .ok (r', es) := by
  simp only [remove, bind_eq_ok, readOnly_ok, channelRow_ok, exists_const, refuseIf_eq_ok,
    Bool.not_eq_false, exists_and_right]

theorem putKeys_ok {k : KeyWorld} {req : KeyPut}
    (hok : r.putKeys C h channel w k caller device req = .ok (r', es)) :
    (r' = r ∧ es = []) ∨
      ∃ c action, r.channel = some c ∧ req.epoch = c.epoch + 1 ∧ req.action = some action ∧
        writeSystem C h channel
          { r with channel := some { c with epoch := req.epoch, epochAt := w.now } }
          (recordOf Event.rotated caller caller device action) (beBytes 4 req.epoch.toNat)
          w.now = .ok (r', es) := by
  simp only [putKeys, bind_eq_ok, channelRow_ok, exists_const, refuseIf_eq_ok] at hok
  obtain ⟨c, hc, -, -, -, -, accepted, -, hok⟩ := hok
  by_cases hnext : accepted = true ∧ req.epoch = c.epoch + 1
  · rw [if_pos hnext] at hok
    cases haction : req.action with
    | none => simp [haction] at hok
    | some action =>
      rw [haction] at hok
      exact .inr ⟨c, action, hc, hnext.2, rfl, hok⟩
  · rw [if_neg hnext, pure_eq_ok] at hok
    obtain ⟨rfl, rfl⟩ := Prod.mk.inj hok
    exact .inl ⟨rfl, rfl⟩

theorem succeedAccount_ok {successor : PubKey} {issued : UInt64} {sig : Bytes64} :
    r.succeedAccount C h channel account successor issued sig w.now = .ok (r', es) ↔
      (((r.roleOf account).isNone ∨ r.originRow.isSome) ∧ r = r' ∧ [] = es) ∨
      ∃ role, r.roleOf account = some role ∧ r.originRow = none ∧
        (r.moveMember account successor role w.now).writeSuccession C h channel account successor
          issued sig w.now = .ok (r', es) := by
  unfold succeedAccount
  cases hrole : r.roleOf account <;> cases horigin : r.originRow <;> simp

theorem still_of_same (hend : r'.logEnd = r.logEnd) (hentry : r'.entry = r.entry)
    (hchain : r'.chain = r.chain) (hmarks : r'.highWater = r.highWater) : Still r r' :=
  ⟨hend, hchain, hmarks, fun _ row' hrow' => ⟨row', hentry ▸ hrow', rfl⟩⟩

theorem alter_still (r : Rows) (who : PubKey) (f : MemberRow → MemberRow) :
    Still r (r.alter who f) := by
  unfold alter
  split <;> exact still_of_same rfl rfl rfl rfl

theorem standDown_still (c : ChannelRow) (r : Rows) (who : PubKey) (role : Role) :
    Still r (standDown c r who role) := by
  unfold standDown
  split
  · exact r.alter_still who _
  · exact still_of_same rfl rfl rfl rfl

theorem prune_still (h : Host) (r : Rows) (now : UInt64) : Still r (r.prune h now) :=
  ⟨rfl, rfl, rfl, fun _ row' hrow' => ⟨row', prune_entry hrow', rfl⟩⟩

theorem blank_still (r : Rows) (target : UInt64) : Still r (r.blank target) := by
  have hsame : (r.blank target).logEnd = r.logEnd ∧ (r.blank target).chain = r.chain ∧
      (r.blank target).highWater = r.highWater := by
    unfold blank
    split <;> exact ⟨rfl, rfl, rfl⟩
  refine ⟨hsame.1, hsame.2.1, hsame.2.2, fun seq row' hrow' => ?_⟩
  rw [blank_entry] at hrow'
  split at hrow'
  · obtain ⟨row, hrow, rfl⟩ := Option.map_eq_some_iff.mp hrow'
    exact ⟨row, hrow, rfl⟩
  · exact ⟨row', hrow', rfl⟩

theorem set_still {c c' : ChannelRow} (hc : r.channel = some c)
    (hend : c'.incarnation = c.incarnation ∧ c'.head = c.head ∧ c'.nextSeq = c.nextSeq) :
    Still r { r with channel := some c' } := by
  refine still_of_same ?_ rfl rfl rfl
  obtain ⟨hinc, hhead, hnext⟩ := hend
  simp [logEnd, hc, hinc, hhead, hnext]

theorem Logs.before {r₁ r₂ r₃ : Rows} (hlogs : Logs C h channel r₁ es r₂) (hstill : Still r₂ r₃) :
    Logs C h channel r₁ es r₃ := by
  have htrans := hlogs.trans (.still hstill)
  rwa [List.append_nil] at htrans

theorem Logs.after {r₁ r₂ r₃ : Rows} (hstill : Still r₁ r₂) (hlogs : Logs C h channel r₂ es r₃) :
    Logs C h channel r₁ es r₃ :=
  (Logs.still hstill).trans hlogs

abbrev Signs (event : UInt8) : Prop :=
  (event ≠ 0 ∧ event ≤ Event.unmuted) ∧ event ≠ Event.succeeded

theorem writeSystem_logs {event : UInt8} {subject : PubKey} {arg : Bytes} {now : UInt64}
    (hevent : Signs event) (hok : r.writeSystem C h channel
      (recordOf event subject caller device action) arg now = .ok (r', es)) :
    Logs C h channel r es r' ∧ es.length = 1 := by
  obtain ⟨c, input, e, rfl, hacted⟩ := writeSystem_ok.mp hok
  exact ⟨.acted hevent.1 hevent.2 hacted, rfl⟩

theorem inviteEvent_signs (was : Option Role) (role : Role) : Signs (inviteEvent was role) := by
  unfold inviteEvent
  split_ifs <;> decide

theorem addInvitees_logs {invitees : List (Invitee × Action)}
    (hok : r.addInvitees C h channel w caller device invitees = .ok (r', es)) :
    Logs C h channel r es r' ∧ es.length ≤ invitees.length := by
  induction invitees generalizing r es with
  | nil =>
    obtain ⟨rfl, rfl⟩ := Prod.mk.inj (Except.ok.inj hok)
    exact ⟨.still (still_of_same rfl rfl rfl rfl), by simp⟩
  | cons i rest ih =>
    unfold addInvitees at hok
    split at hok
    · obtain ⟨hlogs, hlen⟩ := ih hok
      exact ⟨hlogs, by simp; omega⟩
    · simp only [bind_eq_ok, Prod.exists, pure_eq_ok, Prod.mk.injEq] at hok
      obtain ⟨r₁, es₁, hwrite, r₂, more, hrest, rfl, rfl⟩ := hok
      obtain ⟨hlogs, hlen⟩ := ih hrest
      obtain ⟨hfirst, hone⟩ := writeSystem_logs (by decide) hwrite
      have hseat : Still r (r.seatNew i.1.account i.1.role w.now) :=
        still_of_same rfl rfl rfl rfl
      refine ⟨(hfirst.after hseat).trans hlogs, ?_⟩
      simp
      omega

/-- A log about to begin: nothing in it, and the rest of the tables as they were. -/
structure Begun (inc : Bytes32) (r r₀ : Rows) : Prop where
  logEnd : r₀.logEnd = some (inc, headGenesis, 1)
  entry : r₀.entry = r.entry
  chain : r₀.chain = r.chain
  highWater : r₀.highWater = r.highWater

theorem found_ok {req : Create}
    (hok : r.found C h channel w caller device req = .ok (r', es)) :
    ∃ c opening actions r₁ first more, caller ∉ r.member ∧
      req.actions = opening :: actions ∧ actions.length = req.invites.length ∧
      es = first ++ more ∧ req.invites.length + 1 ≤ maxMembers ∧
      c = { visibility := req.visibility, retentionSecs := req.retentionSecs,
            maxEntries := req.maxEntries, name := req.listed.1, topic := req.listed.2, epoch := 0,
            nextSeq := 1, creator := caller, created := w.now, epochAt := 0,
            incarnation := req.incarnation, head := headGenesis } ∧
      (seatNew { r with channel := some c } caller .admin w.now).writeSystem C h channel
        (recordOf Event.created caller caller device opening)
        (constitution C req.visibility req.retentionSecs req.maxEntries req.listed.1 req.listed.2)
        w.now = .ok (r₁, first) ∧
      r₁.addInvitees C h channel w caller device (req.invites.zip actions) = .ok (r', more) := by
  simp only [found, bind_eq_ok, refuseIf_eq_ok, exists_const] at hok
  obtain ⟨-, -, -, hfull, -, -, hfree, hok⟩ := hok
  cases hactions : req.actions with
  | nil => simp [hactions] at hok
  | cons opening actions =>
    simp only [hactions, bind_eq_ok, refuseIf_eq_ok, exists_const, Prod.exists, pure_eq_ok,
      Prod.mk.injEq] at hok
    obtain ⟨hlength, r₁, first, hfirst, r₂, more, hmore, rfl, rfl⟩ := hok
    exact ⟨_, opening, actions, r₁, first, more, hfree, rfl, not_not.mp hlength, rfl, by omega,
      rfl, hfirst, hmore⟩

theorem found_logs {req : Create}
    (hok : r.found C h channel w caller device req = .ok (r', es)) :
    ∃ r₀, Begun req.incarnation r r₀ ∧ Logs C h channel r₀ es r' ∧ es ≠ [] ∧
      es.length ≤ maxMembers := by
  obtain ⟨c, opening, actions, r₁, first, more, -, -, -, rfl, hfull, rfl, hfirst, hmore⟩ :=
    found_ok hok
  obtain ⟨hlogs, hone⟩ := writeSystem_logs (by decide) hfirst
  obtain ⟨hrest, hlen⟩ := addInvitees_logs hmore
  refine ⟨seatNew { r with channel := some _ } caller .admin w.now, ⟨rfl, rfl, rfl, rfl⟩,
    hlogs.trans hrest, ?_, ?_⟩
  · intro hnil
    rw [(List.append_eq_nil_iff.mp hnil).1] at hone
    cases hone
  · rw [List.length_zip] at hlen
    rw [List.length_append, hone]
    omega

/-- What came of a request that founds nothing, for the log: it goes on, or it ends with the
channel. -/
inductive Outcome (C : Crypto) (h : Host) (channel : Bytes32) (r : Rows) (es : List Ordered)
    (r' : Rows) : Prop
  | goesOn (hlogs : Logs C h channel r es r')
  | ends {r₁} (hlogs : Logs C h channel r es r₁) (hends : r' = r₁.destroy)

def founds (C : Crypto) (channel : Bytes32) (r : Rows) : Request → Bool
  | .create caller _ req => r.channel.isNone ||
    ((r.roleOf caller).isNone && r.dmClaim C channel caller req.invites == .squatted)
  | _ => false

theorem comeBack_logs {c : ChannelRow} {req : Create}
    (hok : r.comeBack C h channel w c caller device req = .ok (r', es)) :
    Logs C h channel r es r' ∧ es.length ≤ 1 := by
  unfold comeBack at hok
  split at hok
  · obtain ⟨rfl, rfl⟩ := Prod.mk.inj (Except.ok.inj hok)
    exact ⟨.still (still_of_same rfl rfl rfl rfl), by simp⟩
  · split at hok
    · obtain ⟨hlogs, hone⟩ := writeSystem_logs (by decide) hok
      have hseat : Still r (r.seat caller .admin w.now) := still_of_same rfl rfl rfl rfl
      exact ⟨hlogs.after hseat, hone.le⟩
    · cases hok

/-- A request that founds the channel founds it where there was none, or in what it destroyed. -/
theorem found_of_founds {req : Request} (hfounds : r.founds C channel req = true)
    (hok : r.perform C h channel w req = .ok (r', es)) : ∃ caller device asked base,
      req = .create caller device asked ∧ (base = r ∧ r.channel = none ∨ base = r.destroy) ∧
        base.found C h channel w caller device asked = .ok (r', es) := by
  cases req with
  | create caller device req =>
    simp only [perform, create, bind_eq_ok, refuseIf_eq_ok, exists_const] at hok
    obtain ⟨-, hok⟩ := hok
    cases hc : r.channel with
    | none =>
      rw [hc] at hok
      exact ⟨caller, device, req, r, rfl, .inl ⟨rfl, rfl⟩, hok⟩
    | some c =>
      simp only [founds, hc, Option.isNone_some, Bool.false_or, Bool.and_eq_true,
        Option.isNone_iff_eq_none, beq_iff_eq] at hfounds
      obtain ⟨hrole, hclaim⟩ := hfounds
      simp only [hc, hrole, hclaim, Option.isSome_none, Bool.false_eq_true, if_false] at hok
      exact ⟨caller, device, req, r.destroy, rfl, .inr rfl, hok⟩
  | _ => simp [founds] at hfounds

/-- One that founds nothing leaves the channel be, or its caller comes back to it. -/
theorem create_ok {req : Create}
    (hnot : r.founds C channel (.create caller device req) = false)
    (hok : r.create C h channel w caller device req = .ok (r', es)) :
    validRetention req.retentionSecs = true ∧ ∃ c, r.channel = some c ∧ ((r, []) = (r', es) ∨
      r.roleOf caller = none ∧ r.dmClaim C channel caller req.invites = .returning ∧
        r.comeBack C h channel w c caller device req = .ok (r', es)) := by
  simp only [create, bind_eq_ok, refuseIf_eq_ok, exists_const] at hok
  obtain ⟨hretention, hok⟩ := hok
  refine ⟨by simpa using hretention, ?_⟩
  cases hc : r.channel with
  | none => simp [founds, hc] at hnot
  | some c =>
    refine ⟨c, rfl, ?_⟩
    simp only [hc] at hok
    cases hrole : r.roleOf caller with
    | some role =>
      rw [if_pos (by rw [hrole]; rfl)] at hok
      exact .inl (Except.ok.inj hok)
    | none =>
      rw [if_neg (by simp [hrole])] at hok
      cases hclaim : r.dmClaim C channel caller req.invites with
      | none =>
        rw [hclaim] at hok
        exact .inl (Except.ok.inj hok)
      | squatted => simp [founds, hc, hrole, hclaim] at hnot
      | returning =>
        rw [hclaim] at hok
        exact .inr ⟨rfl, rfl, hok⟩

theorem create_outcome {req : Create}
    (hnot : r.founds C channel (.create caller device req) = false)
    (hok : r.create C h channel w caller device req = .ok (r', es)) :
    Outcome C h channel r es r' ∧ es.length ≤ maxMembers := by
  obtain ⟨-, c, -, hstay | ⟨-, -, hback⟩⟩ := create_ok hnot hok
  · obtain ⟨rfl, rfl⟩ := Prod.mk.inj hstay
    exact ⟨.goesOn (.still (still_of_same rfl rfl rfl rfl)), by simp⟩
  · obtain ⟨hlogs, hlen⟩ := comeBack_logs hback
    exact ⟨.goesOn hlogs, hlen.trans (by decide)⟩

theorem begins_of_founds {req : Request} (hfounds : r.founds C channel req = true)
    (hok : r.perform C h channel w req = .ok (r', es)) :
    ∃ base inc r₀, (base = r ∧ r.channel = none ∨ base = r.destroy) ∧ Begun inc base r₀ ∧
      Logs C h channel r₀ es r' ∧ es ≠ [] ∧ es.length ≤ maxMembers := by
  obtain ⟨caller, device, req, base, -, hbase, hfound⟩ := found_of_founds hfounds hok
  obtain ⟨r₀, hbegun, hlogs, hne, hlen⟩ := found_logs hfound
  exact ⟨base, _, r₀, hbase, hbegun, hlogs, hne, hlen⟩

theorem one_le_maxMembers : 1 ≤ maxMembers := by decide

theorem stays : Outcome C h channel r [] r :=
  .goesOn (.still (still_of_same rfl rfl rfl rfl))

/-- The log of a channel an action was written into, between two changes that leave it be. -/
theorem wrote_outcome {r₁ r₂ : Rows} {event : UInt8} {subject : PubKey} {arg : Bytes}
    {now : UInt64}
    (hwrite : r₁.writeSystem C h channel (recordOf event subject caller device action) arg now =
      .ok (r₂, es)) (hevent : Signs event) (hbefore : Still r r₁) (hafter : Still r₂ r') :
    Outcome C h channel r es r' ∧ es.length ≤ maxMembers := by
  obtain ⟨hlogs, hone⟩ := writeSystem_logs hevent hwrite
  exact ⟨.goesOn ((hlogs.after hbefore).before hafter), by rw [hone]; decide⟩

theorem same_still (r : Rows) : Still r r := still_of_same rfl rfl rfl rfl

theorem leave_outcome (hok : r.leave C h channel w caller device action = .ok (r', es)) :
    Outcome C h channel r es r' ∧ es.length ≤ maxMembers := by
  obtain ⟨-, c, hc, role, -, -, r₁, hwrite, rfl⟩ := leave_ok.mp hok
  obtain ⟨hlogs, hone⟩ := writeSystem_logs (by decide) hwrite
  have hfrom := hlogs.after (standDown_still c r caller role)
  refine ⟨?_, by rw [hone]; decide⟩
  split_ifs
  · unfold lastOut
    cases hc₁ : r₁.channel with
    | none => exact .goesOn hfrom
    | some c₁ =>
      dsimp only
      split_ifs
      · exact .goesOn (hfrom.before (set_still hc₁ ⟨rfl, rfl, rfl⟩))
      · exact .ends hfrom rfl
  · exact .goesOn hfrom

theorem sweep_outcome (now : UInt64) : Outcome C h channel r [] (r.sweep h now) := by
  have hpruned : Logs C h channel r [] (r.prune h now) := .still (prune_still h r now)
  unfold sweep
  dsimp only
  cases hc : (r.prune h now).channel with
  | none => exact .goesOn hpruned
  | some c =>
    dsimp only
    split_ifs
    · split
      · exact .goesOn (hpruned.before (set_still hc ⟨rfl, rfl, rfl⟩))
      · split_ifs
        · exact .ends hpruned rfl
        · exact .goesOn hpruned
    · exact .goesOn (hpruned.before (set_still hc ⟨rfl, rfl, rfl⟩))

theorem post_outcome {req : Post} (horder : r.InOrder device req)
    (hok : r.post C h channel w account device req = .ok (r', es)) :
    Outcome C h channel r es r' ∧ es.length ≤ maxMembers := by
  obtain ⟨-, -, -, c, r₁, e, rfl, hposted, rfl⟩ := post_ok hok
  have hlogs : Logs C h channel r [e] r₁ := .posted horder hposted
  exact ⟨.goesOn ((hlogs.before (alter_still r₁ account _)).before (prune_still h _ _)),
    one_le_maxMembers⟩

theorem moveAway_outcome {c : ChannelRow} {subject : PubKey} {domain : String}
    (hc : r.channel = some c)
    (hok : r.moveAway C h channel w caller device subject domain action c = .ok (r', es)) :
    Outcome C h channel r es r' ∧ es.length ≤ maxMembers := by
  simp only [moveAway, bind_eq_ok, refuseIf_eq_ok, exists_const, Prod.exists, pure_eq_ok,
    Prod.mk.injEq, writeSystemBetween_ok hc] at hok
  obtain ⟨-, -, r₁, e, ⟨input, hacted⟩, rfl, rfl⟩ := hok
  have hsigns : Signs Event.rehomed := by decide
  have hlogs : Logs C h channel r [e] r₁ := .acted hsigns.1 hsigns.2 hacted
  exact ⟨.goesOn (hlogs.before (still_of_same rfl rfl rfl rfl)), one_le_maxMembers⟩

theorem rehome_outcome {subject : PubKey} {domain : String} {away : Option UInt64}
    {minAway : UInt64} (horigin : r.originRow = none)
    (hok : r.rehome C h channel w caller device subject domain action away minAway =
      .ok (r', es)) : Outcome C h channel r es r' ∧ es.length ≤ maxMembers := by
  have hours : r.replicated = none := by simpa [originRow] using horigin
  simp only [rehome, bind_eq_ok, channelRow_ok, refuseIf_eq_ok, exists_const, hours] at hok
  obtain ⟨c, hc, -, -, hmove⟩ := hok
  exact moveAway_outcome hc hmove

def CounterInOrder (r : Rows) : Request → Prop
  | .post _ device req => r.InOrder device req
  | _ => True

/-- Whatever else a request of a channel ordered here does, it does to the log one of two
things, and orders no more than a channel's members. -/
theorem perform_outcome {req : Request} (horigin : r.originRow = none)
    (horder : r.CounterInOrder req) (hnot : r.founds C channel req = false)
    (hok : r.perform C h channel w req = .ok (r', es)) :
    Outcome C h channel r es r' ∧ es.length ≤ maxMembers := by
  cases req with
  | create caller device req => exact create_outcome hnot hok
  | welcome account =>
    obtain ⟨hdone, rfl⟩ := quiet_eq_ok.mp hok
    obtain ⟨c, hc, -, -, rfl⟩ := welcome_ok.mp hdone
    have hseat : Still r (r.seat account .member w.now) := still_of_same rfl rfl rfl rfl
    let c' : ChannelRow := { c with emptySince := none }
    have hset : Still (r.seat account .member w.now)
        { r.seat account .member w.now with channel := some c' } := set_still hc ⟨rfl, rfl, rfl⟩
    exact ⟨.goesOn ((Logs.still hseat).before hset), by decide⟩
  | join caller device action =>
    obtain ⟨-, c, -, -, -, hwrite⟩ := join_ok.mp hok
    exact wrote_outcome hwrite (by decide) (still_of_same rfl rfl rfl rfl) (same_still _)
  | leave caller device action => exact leave_outcome hok
  | post account device req => exact post_outcome horder hok
  | setDirectory caller device name topic action =>
    obtain ⟨c, hc, -, -, hwrite⟩ := setDirectory_ok.mp hok
    exact wrote_outcome hwrite (by decide) (set_still hc ⟨rfl, rfl, rfl⟩) (same_still _)
  | retain caller device retentionSecs maxEntries action =>
    obtain ⟨-, -, c, hc, -, r₁, hwrite, rfl⟩ := retain_ok.mp hok
    exact wrote_outcome hwrite (by decide) (set_still hc ⟨rfl, rfl, rfl⟩) (prune_still h _ _)
  | close caller =>
    obtain ⟨hdone, rfl⟩ := quiet_eq_ok.mp hok
    obtain ⟨-, -, rfl⟩ := close_ok.mp hdone
    exact ⟨.ends (.still (same_still r)) rfl, by decide⟩
  | sweep =>
    obtain ⟨rfl, rfl⟩ := Prod.mk.inj (Except.ok.inj hok)
    exact ⟨sweep_outcome w.now, by decide⟩
  | invite caller device account role action =>
    cases invite_ok.mp hok with
    | inl hblocked =>
      obtain ⟨-, rfl, rfl⟩ := hblocked
      exact ⟨stays, by decide⟩
    | inr hinvited =>
      obtain ⟨-, -, -, -, -, -, -, hwrite⟩ := hinvited
      exact wrote_outcome hwrite (inviteEvent_signs _ role) (still_of_same rfl rfl rfl rfl)
        (same_still _)
  | mute caller device account action on =>
    obtain ⟨-, -, -, -, -, r₁, hwrite, rfl⟩ := mute_ok.mp hok
    exact wrote_outcome hwrite (by cases on <;> decide) (same_still r) (alter_still _ _ _)
  | replicate caller device peer action authorise =>
    obtain ⟨-, -, -, r₁, hwrite, rfl⟩ := replicate_ok.mp hok
    exact wrote_outcome hwrite (by cases authorise <;> decide) (same_still r)
      (still_of_same rfl rfl rfl rfl)
  | rehome caller device subject domain action away minAway => exact rehome_outcome horigin hok
  | remove caller device account action =>
    obtain ⟨-, -, -, -, -, -, hwrite⟩ := remove_ok.mp hok
    exact wrote_outcome hwrite (by decide) (still_of_same rfl rfl rfl rfl) (same_still _)
  | putKeys k caller device req =>
    cases putKeys_ok hok with
    | inl hsame =>
      obtain ⟨rfl, rfl⟩ := hsame
      exact ⟨stays, by decide⟩
    | inr hrotated =>
      obtain ⟨c, action, hc, -, -, hwrite⟩ := hrotated
      exact wrote_outcome hwrite (by decide) (set_still hc ⟨rfl, rfl, rfl⟩) (same_still _)
  | signal caller =>
    obtain ⟨hdone, rfl⟩ := quiet_eq_ok.mp hok
    obtain ⟨-, -, rfl⟩ := map_eq_ok.mp hdone
    exact ⟨stays, by decide⟩
  | succeed account successor issued sig =>
    cases succeedAccount_ok.mp hok with
    | inl hsame =>
      obtain ⟨-, rfl, rfl⟩ := hsame
      exact ⟨stays, by decide⟩
    | inr hmoved =>
      obtain ⟨role, -, -, hwrite⟩ := hmoved
      obtain ⟨c, e, rfl, happended⟩ := writeSuccession_ok.mp hwrite
      have hseat : Still r (r.moveMember account successor role w.now) :=
        still_of_same rfl rfl rfl rfl
      exact ⟨.goesOn ((Logs.succeeded rfl happended).after hseat), one_le_maxMembers⟩
  | redact caller target =>
    obtain ⟨hdone, rfl⟩ := quiet_eq_ok.mp hok
    rw [redact_ok hdone]
    exact ⟨.goesOn (.still (blank_still r target)), by decide⟩

end Rows
end Sqex.Exchange
