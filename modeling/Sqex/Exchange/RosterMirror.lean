import Sqex.Exchange.DerivedRoster

/-! The origin's roster and the one a copy derives, request by request. The rules are written
twice; where an entry does not carry all of what the origin did, or the copy keeps what the
origin dropped, the two part. -/
namespace Sqex.Exchange
open Std Runs

namespace Rows
variable {C : Crypto} {h : Host} {channel : Bytes32} {self : PubKey} {w : Around}
  {r r₁ r' d : Rows} {es : List Ordered} {s : System} {now : UInt64}

@[simp] theorem standing_none : standing none = (none, false) := rfl

@[simp] theorem standing_some (m : MemberRow) : standing (some m) =
    (if m.present then some (m.role, m.muted) else none, m.role == .admin) := by
  cases hpresent : m.present <;> simp [standing, hpresent]

theorem roleIn_of_standing {o c : Option MemberRow} (hsame : standing c = standing o) :
    roleIn c = roleIn o := by
  have hrole : ∀ m, roleIn m = if (standing m).2 then .admin else .member := by
    intro m
    cases m with
    | none => rfl
    | some m => cases hm : m.role <;> simp [hm]
  rw [hrole, hrole, hsame]

/-- Where an absent account's mute is off at the origin too, the two have the same mute. -/
theorem muted_of_standing {o c : Option MemberRow} (hsame : standing c = standing o)
    (hlifted : Lifted c)
    (hfree : ((o.filter (·.present)).map (·.role)).isNone → o.any (·.muted) = false) :
    c.any (·.muted) = o.any (·.muted) := by
  have hcopy : ∀ m : Option MemberRow, (standing m).1 = none → Lifted m →
      m.any (·.muted) = false := by
    intro m habsent hlift
    cases m with
    | none => rfl
    | some m =>
      cases hpresent : m.present with
      | true => simp [hpresent] at habsent
      | false => simpa using hlift m rfl hpresent
  cases hstands : (standing o).1 with
  | none =>
    have hgone : ((o.filter (·.present)).map (·.role)).isNone := by
      simp only [standing, Option.map_eq_none_iff] at hstands
      simp [hstands]
    rw [hfree hgone, hcopy c (by rw [hsame, hstands]) hlifted]
  | some seat =>
    have hseat : ∀ m : Option MemberRow, (standing m).1 = some seat →
        m.any (·.muted) = seat.2 := by
      intro m hm
      cases m with
      | none => cases hm
      | some m =>
        cases hpresent : m.present with
        | true => simp [hpresent] at hm; simp [← hm]
        | false => simp [hpresent] at hm
    rw [hseat c (by rw [hsame, hstands]), hseat o hstands]

structure Mirror (r d : Rows) : Prop where
  here : r.originRow = none
  made : r.channel.isSome
  stands : ∀ a : PubKey, standing d.member[a]? = standing r.member[a]?
  lifted : ∀ a : PubKey, Lifted d.member[a]?
  epochs : d.epoch = r.epoch
  behind : ∀ c ∈ r.channel, ∀ k ∈ d.entry, k.toUInt64.toNat < c.nextSeq.toUInt64.toNat

/-- What the record of an action makes of a copy is where the origin stands. -/
structure Derives (C : Crypto) (s : System) (now : UInt64) (d r₁ : Rows) : Prop where
  stands : ∀ a : PubKey, standing (d.deriveMembership C s now).member[a]? = standing r₁.member[a]?
  lifted : ∀ a : PubKey, Lifted (d.deriveMembership C s now).member[a]?
  epochs : (d.deriveMembership C s now).epoch = r₁.epoch

theorem Derives.stored {c : ChannelRow} {e : Ordered} {hash : Bytes32}
    (hderives : Derives C s now d r₁)
    (happended : Appended C h.seed (place h channel c) now hash (systemRow now s.encode) r₁ r' e c)
    (hknown : s.event ≠ 0 ∧ s.event ≤ Event.unmuted) (hstays : s.event ≠ Event.rehomed)
    (hhere : r₁.originRow = none)
    (hbehind : ∀ k ∈ d.entry, k.toUInt64.toNat < c.nextSeq.toUInt64.toNat)
    (hroom : c.nextSeq.toUInt64.toNat + 1 < 2 ^ 64) : Mirror r' (d.pull C self e) := by
  have hseq : e.seq.toInt64 = c.nextSeq := by rw [happended.ordered]; rfl
  have hfree : e.seq.toInt64 ∉ d.entry := by
    intro hmem
    have hlt := hbehind _ hmem
    rw [hseq] at hlt
    omega
  have hposted : e.row.posted = now := by rw [happended.ordered]; rfl
  have hrecord : record (e.row.entry e.seq) = some s := by
    rw [happended.ordered]
    have hdecode : System.decode s.encode = .ok (some s) := System.decode_encode hknown
    simp [record, EntryRow.entry, systemRow, hdecode]
  obtain ⟨hmember, hepoch, hentry⟩ := pull_derives C self hfree hrecord hstays
  rw [hposted] at hmember hepoch
  have hsame := happended.same
  refine ⟨hsame.2.originRow.trans hhere, by rw [happended.rows]; rfl, ?_, ?_, ?_, ?_⟩
  · intro a
    rw [hmember, hsame.1]
    exact hderives.stands a
  · intro a
    rw [hmember]
    exact hderives.lifted a
  · rw [hepoch, hderives.epochs, happended.rows]
    simp [Rows.epoch, happended.channel, after]
  · intro c' hc' k hk
    rw [happended.rows] at hc'
    obtain rfl := Option.some.inj hc'
    have hnext : (after C c hash).nextSeq.toUInt64.toNat = c.nextSeq.toUInt64.toNat + 1 := by
      simp only [after, toUInt64_toInt64, UInt64.toNat_add]
      have hone : (1 : UInt64).toNat = 1 := rfl
      omega
    rw [hnext]
    rw [hentry, hseq] at hk
    rcases ExtTreeMap.mem_insert.mp hk with heq | hheld
    · obtain rfl := LawfulEqCmp.eq_of_compare heq
      omega
    · have hlt := hbehind k hheld
      omega

theorem Appended.member {seed : Option Bytes32} {place : Place} {posted : UInt64}
    {entryHash : Bytes32} {row : Receipted → EntryRow} {e : Ordered} {c : ChannelRow}
    (happended : Appended C seed place posted entryHash row r r' e c)
    (member : ExtTreeMap PubKey MemberRow) :
    Appended C seed place posted entryHash row { r with member } { r' with member } e c := by
  refine ⟨happended.channel, happended.free, happended.ordered, ?_⟩
  rw [happended.rows]

theorem Derives.recorded {c : ChannelRow} {arg : Bytes} (hderives : Derives C s now d r₁)
    (hwrite : r₁.writeSystem C h channel s arg now = .ok (r', es))
    (hknown : s.event ≠ 0 ∧ s.event ≤ Event.unmuted) (hstays : s.event ≠ Event.rehomed)
    (hc : r₁.channel = some c) (hhere : r₁.originRow = none)
    (hbehind : ∀ k ∈ d.entry, k.toUInt64.toNat < c.nextSeq.toUInt64.toNat)
    (hroom : c.nextSeq.toUInt64.toNat + 1 < 2 ^ 64) : Mirror r' (es.foldl (pull C self) d) := by
  obtain ⟨c', input, e, rfl, hacted⟩ := writeSystem_ok.mp hwrite
  have hc' : r₁.channel = some c' := hacted.appended.channel
  obtain rfl := Option.some.inj (hc.symm.trans hc')
  have hsteps : Derives C s now d
      { r₁ with chain := r₁.chain.insert s.actorDevice ⟨s.chainSeq, link C input⟩ } :=
    ⟨hderives.stands, hderives.lifted, hderives.epochs⟩
  exact hsteps.stored hacted.appended hknown hstays hhere hbehind hroom

theorem standing_eq {m m' : MemberRow} (hpresent : m.present = true) (hpresent' : m'.present = true)
    (hrole : m.role = m'.role) (hmuted : m.muted = m'.muted) :
    standing (some m) = standing (some m') := by
  simp [hpresent, hpresent', hrole, hmuted]

theorem lifted_present {m : MemberRow} (hpresent : m.present = true) : Lifted (some m) := by
  intro row hrow habsent
  obtain rfl := Option.some.inj hrow
  rw [hpresent] at habsent
  cases habsent

section Operations

theorem Mirror.derives (hmirror : Mirror r d) (who : PubKey)
    (hothers : ∀ a, who ≠ a → (d.deriveMembership C s now).member[a]? = d.member[a]? ∧
      r₁.member[a]? = r.member[a]?)
    (hstands : standing (d.deriveMembership C s now).member[who]? = standing r₁.member[who]?)
    (hlifted : Lifted (d.deriveMembership C s now).member[who]?)
    (hrotates : s.event ≠ Event.rotated) (hepoch : r₁.epoch = r.epoch) :
    Derives C s now d r₁ := by
  refine ⟨fun a => ?_, fun a => ?_, ?_⟩
  · by_cases hwho : who = a
    · rw [← hwho]
      exact hstands
    · rw [(hothers a hwho).1, (hothers a hwho).2]
      exact hmirror.stands a
  · by_cases hwho : who = a
    · rw [← hwho]
      exact hlifted
    · rw [(hothers a hwho).1]
      exact hmirror.lifted a
  · rw [derive_epoch C d s now hrotates]
    exact hmirror.epochs.trans hepoch.symm

/-- A record that an account joined or was added seats it at the role its row had, and lifts
its mute: at the origin it stands there if its mute was off and the role is that. -/
theorem derives_seated (who : PubKey) (hmirror : Mirror r d) (hjoined : s.event = Event.added ∨
      s.event = Event.joined) (hsubject : s.subject = who) {m : MemberRow}
    (hrow : r₁.member[who]? = some m) (hpresent : m.present = true)
    (hrole : m.role = roleIn r.member[who]?) (hmuted : m.muted = false)
    (hothers : ∀ a, who ≠ a → r₁.member[a]? = r.member[a]?) (hepoch : r₁.epoch = r.epoch) :
    Derives C s now d r₁ := by
  obtain ⟨hseated, hkept, -⟩ := seatedRow_fields .member now d.member[who]?
  have hderived := derive_joined C d s now who hjoined
  rw [if_pos hsubject] at hderived
  refine hmirror.derives who (fun a hwho => ⟨?_, hothers a hwho⟩) ?_ ?_ ?_ hepoch
  · rw [derive_joined C d s now a hjoined, if_neg (by rw [hsubject]; exact hwho)]
  · rw [hderived, hrow]
    refine standing_eq hseated hpresent ?_ hmuted.symm
    rw [hrole, ← roleIn_of_standing (hmirror.stands who)]
    exact hkept
  · rw [hderived]
    exact lifted_present hseated
  · cases hjoined with
    | inl hadded => rw [hadded]; decide
    | inr hjoined => rw [hjoined]; decide

theorem derives_muted (who : PubKey) {on : Bool} (hmirror : Mirror r d)
    (hmutes : s.event = if on then Event.muted else Event.unmuted) (hsubject : s.subject = who)
    (hpresent : (r.roleOf who).isSome) :
    Derives C s now d (r.alter who fun m => { m with muted := on }) := by
  have heither : s.event = Event.muted ∨ s.event = Event.unmuted := by
    rw [hmutes]
    cases on <;> simp
  have hon : (s.event == Event.muted) = on := by
    rw [hmutes]
    cases on <;> decide
  obtain ⟨o, ho, hopresent⟩ := roleOf_isSome_iff.mp hpresent
  have hstands := hmirror.stands who
  have hderived := derive_muted C d s now who heither
  have hrow := r.alter_member who who fun m => { m with muted := on }
  rw [if_pos hsubject, hon] at hderived
  rw [if_pos rfl, ho] at hrow
  rw [ho] at hstands
  cases hc : d.member[who]? with
  | none => simp [hc, hopresent] at hstands
  | some c =>
    rw [hc] at hstands hderived
    have hpresent' : c.present = true := by
      cases hcpresent : c.present with
      | true => rfl
      | false => simp [hcpresent, hopresent] at hstands
    have hrole : c.role = o.role := roleIn_of_standing hstands
    refine hmirror.derives who (fun a hwho => ⟨?_, ?_⟩) ?_ ?_ ?_ ?_
    · rw [derive_muted C d s now a heither, if_neg (by rw [hsubject]; exact hwho)]
    · rw [alter_member, if_neg hwho]
    · rw [hderived, hrow]
      exact standing_eq hpresent' hopresent hrole rfl
    · rw [hderived]
      exact lifted_present hpresent'
    · rw [hmutes]
      cases on <;> decide
    · unfold alter
      split <;> rfl

/-- A record that an account left or was removed leaves it the role it had: the origin does so
where the role is one, and drops the row where it is not an admin's. -/
theorem derives_left (who : PubKey) (hmirror : Mirror r d) (hleft : s.event = Event.left ∨
      s.event = Event.removed) (hsubject : s.subject = who)
    (hrow : standing r₁.member[who]? = (none, r.isAdmin who))
    (hothers : ∀ a, who ≠ a → r₁.member[a]? = r.member[a]?) (hepoch : r₁.epoch = r.epoch) :
    Derives C s now d r₁ := by
  have hderived := derive_left C d s now who hleft
  rw [if_pos hsubject] at hderived
  have hadmin : d.member[who]?.any (fun m => m.role == .admin) = r.isAdmin who :=
    congrArg Prod.snd (hmirror.stands who)
  refine hmirror.derives who (fun a hwho => ⟨?_, hothers a hwho⟩) ?_ ?_ ?_ hepoch
  · rw [derive_left C d s now a hleft, if_neg (by rw [hsubject]; exact hwho)]
  · rw [hderived, hrow, ← hadmin]
    cases d.member[who]? <;> simp
  · rw [hderived]
    intro row hrow habsent
    obtain ⟨m, -, rfl⟩ := Option.map_eq_some_iff.mp hrow
    rfl
  · cases hleft with
    | inl hleft => rw [hleft]; decide
    | inr hremoved => rw [hremoved]; decide

theorem derives_rotated (hmirror : Mirror r d) (hrotated : s.event = Event.rotated)
    (hmember : r₁.member = r.member) (hepoch : r₁.epoch = r.epoch.map (· + 1)) :
    Derives C s now d r₁ := by
  obtain ⟨hsame, hnext⟩ := derive_rotated C d s now hrotated
  refine ⟨fun a => ?_, fun a => ?_, ?_⟩
  · rw [hsame, hmember]
    exact hmirror.stands a
  · rw [hsame]
    exact hmirror.lifted a
  · rw [hnext, hepoch, hmirror.epochs]

theorem derives_succeeded {role : Role} (hmirror : Mirror r d)
    (hsucceeded : s.event = Event.succeeded) (hwill : entryVerifies C s = true)
    (hrole : r.roleOf s.actor = some role)
    (hfree : (r.roleOf s.subject).isNone → r.isMuted s.subject = false) :
    Derives C s now d (r.moveMember s.actor s.subject role now) := by
  have hactor : roleIn r.member[s.actor]? = role := by
    obtain ⟨m, hrow, rfl⟩ := Option.map_eq_some_iff.mp hrole
    rw [(Option.filter_eq_some_iff.mp hrow).1]
    rfl
  have hsame : roleIn d.member[s.actor]? = role :=
    (roleIn_of_standing (hmirror.stands s.actor)).trans hactor
  refine ⟨fun a => ?_, fun a => ?_, ?_⟩
  · rw [derive_succeeded C d s now a hsucceeded hwill, moveMember_member, hsame]
    split_ifs with hmoved hsubject
    · rfl
    · obtain ⟨hpresent, hraised, hmuted⟩ := movedRow_fields role now r.member[a]?
      obtain ⟨hpresent', hraised', hmuted'⟩ := movedRow_fields role now d.member[a]?
      refine standing_eq hpresent' hpresent ?_ ?_
      · rw [hraised, hraised', roleIn_of_standing (hmirror.stands a)]
      · rw [hmuted, hmuted']
        rw [hsubject] at hfree
        exact muted_of_standing (hmirror.stands a) (hmirror.lifted a) hfree
    · exact hmirror.stands a
  · rw [derive_succeeded C d s now a hsucceeded hwill]
    split_ifs
    · intro row hrow
      cases hrow
    · exact lifted_present (movedRow_fields _ _ _).1
    · exact hmirror.lifted a
  · rw [derive_epoch C d s now (by rw [hsucceeded]; decide)]
    exact hmirror.epochs

end Operations

def PlainInvites (w : Around) (caller : PubKey) : List PubKey → List Invitee → Prop
  | _, [] => True
  | seated, i :: rest =>
    if w.blocked i.account caller then PlainInvites w caller seated rest
    else (i.account ∈ seated ∨ i.role = .member) ∧
      PlainInvites w caller (i.account :: seated) rest

def Tells (C : Crypto) (channel : Bytes32) (w : Around) (r : Rows) : Request → Prop
  | .create caller device req =>
    if r.founds C channel (.create caller device req) then
      PlainInvites w caller [caller] req.invites
    else r.roleOf caller = none → r.dmClaim C channel caller req.invites = .returning →
      r.channel.map (·.incarnation) = some req.incarnation →
      (r.member[caller]?).isSome ∧ r.isMuted caller = false
  | .join caller _ _ => r.isMuted caller = false
  | .leave caller _ _ =>
    ∀ c ∈ r.channel, c.visibility = .priv → r.isAdmin caller = true → r.counts.1 = 1
  | .invite caller _ account role _ =>
    w.blocked account caller = false →
      role = roleIn r.member[account]? ∧ r.isMuted account = false
  | .remove _ _ account _ => r.isAdmin account = false
  | .succeed _ successor _ _ => (r.roleOf successor).isNone → r.isMuted successor = false
  | _ => True

structure Gone (r : Rows) : Prop where
  channel : r.channel = none
  member : r.member = ∅
  here : r.originRow = none

section Steps
variable {c : ChannelRow} {caller device account : PubKey} {action : Action}

abbrev Derived (event : UInt8) : Prop :=
  (event ≠ 0 ∧ event ≤ Event.unmuted) ∧ event ≠ Event.rehomed

theorem Mirror.recorded {event : UInt8} {subject : PubKey} {arg : Bytes} {c₁ : ChannelRow}
    (hmirror : Mirror r d) (hc : r.channel = some c)
    (hroom : c.nextSeq.toUInt64.toNat + 1 < 2 ^ 64)
    (hwrite : r₁.writeSystem C h channel (recordOf event subject caller device action) arg now =
      .ok (r', es)) (hevent : Derived event) (hc₁ : r₁.channel = some c₁)
    (hnext : c₁.nextSeq = c.nextSeq) (hsame : r₁.replicated = r.replicated)
    (hderives : Derives C (recordOf event subject caller device action) now d r₁) :
    Mirror r' (es.foldl (pull C self) d) := by
  have hhere : r₁.originRow = none := by
    rw [originRow, hsame]
    exact hmirror.here
  refine hderives.recorded hwrite hevent.1 hevent.2 hc₁ hhere ?_ (by rw [hnext]; exact hroom)
  rw [hnext]
  exact hmirror.behind c hc

theorem join_mirror (hmirror : Mirror r d) (hc : r.channel = some c)
    (hroom : c.nextSeq.toUInt64.toNat + 1 < 2 ^ 64)
    (htells : Tells C channel w r (.join caller device action))
    (hok : r.join C h channel w caller device action = .ok (r', es)) :
    Mirror r' (es.foldl (pull C self) d) := by
  obtain ⟨-, -, -, -, -, hwrite⟩ := join_ok.mp hok
  obtain ⟨hpresent, hrole, hmuted⟩ := seatedRow_fields .member w.now r.member[caller]?
  have hrow := r.seat_member caller caller .member w.now
  rw [if_pos rfl] at hrow
  refine hmirror.recorded hc hroom hwrite (by decide) hc rfl rfl ?_
  refine derives_seated caller hmirror (.inr rfl) rfl hrow hpresent hrole (hmuted.trans htells)
    (fun a hne => ?_) rfl
  rw [seat_member, if_neg hne]

theorem comeBack_mirror {req : Create} (hmirror : Mirror r d) (hc : r.channel = some c)
    (hroom : c.nextSeq.toUInt64.toNat + 1 < 2 ^ 64)
    (htells : c.incarnation = req.incarnation →
      (r.member[caller]?).isSome ∧ r.isMuted caller = false)
    (hok : r.comeBack C h channel w c caller device req = .ok (r', es)) :
    Mirror r' (es.foldl (pull C self) d) := by
  unfold comeBack at hok
  split at hok
  case isTrue =>
    obtain ⟨rfl, rfl⟩ := Prod.mk.inj (Except.ok.inj hok)
    exact hmirror
  case isFalse hsame =>
    obtain ⟨hheld, hfree⟩ := htells (not_not.mp hsame).symm
    split at hok
    · obtain ⟨m, hm⟩ := Option.isSome_iff_exists.mp hheld
      obtain ⟨hpresent, hrole, hmuted⟩ := seatedRow_fields .admin w.now r.member[caller]?
      have hrow := r.seat_member caller caller .admin w.now
      rw [if_pos rfl] at hrow
      refine hmirror.recorded hc hroom hok (by decide) hc rfl rfl ?_
      refine derives_seated caller hmirror (.inr rfl) rfl hrow hpresent ?_ (hmuted.trans hfree)
        (fun a hne => ?_) rfl
      · rw [hrole, hm]
        rfl
      · rw [seat_member, if_neg hne]
    · cases hok

theorem invite_mirror {role : Role} (hmirror : Mirror r d) (hc : r.channel = some c)
    (hroom : c.nextSeq.toUInt64.toNat + 1 < 2 ^ 64)
    (htells : Tells C channel w r (.invite caller device account role action))
    (hok : r.invite C h channel w caller device account role action = .ok (r', es)) :
    Mirror r' (es.foldl (pull C self) d) := by
  cases invite_ok.mp hok with
  | inl hblocked =>
    obtain ⟨-, rfl, rfl⟩ := hblocked
    exact hmirror
  | inr hinvited =>
    obtain ⟨hfree, -, -, -, -, -, -, hwrite⟩ := hinvited
    obtain ⟨hsame, hunmuted⟩ := htells hfree
    have hevent : inviteEvent (r.roleOf account) role = Event.added := by
      refine if_pos ?_
      cases hwas : r.roleOf account with
      | none => exact .inl rfl
      | some was =>
        obtain ⟨m, hrow, rfl⟩ := Option.map_eq_some_iff.mp hwas
        rw [hsame, (Option.filter_eq_some_iff.mp hrow).1]
        exact .inr rfl
    rw [hevent] at hwrite
    obtain ⟨hpresent, hrole, hmuted⟩ := enrolledRow_fields role w.now r.member[account]?
    have hrow := r.enroll_member account account role w.now
    rw [if_pos rfl] at hrow
    refine hmirror.recorded hc hroom hwrite (by decide) hc rfl rfl ?_
    refine derives_seated account hmirror (.inl rfl) rfl hrow hpresent (hrole.trans hsame)
      (hmuted.trans hunmuted) (fun a hne => ?_) rfl
    rw [enroll_member, if_neg hne]

theorem remove_mirror (hmirror : Mirror r d) (hc : r.channel = some c)
    (hroom : c.nextSeq.toUInt64.toNat + 1 < 2 ^ 64)
    (htells : Tells C channel w r (.remove caller device account action))
    (hok : r.remove C h channel w caller device account action = .ok (r', es)) :
    Mirror r' (es.foldl (pull C self) d) := by
  obtain ⟨-, -, -, -, -, -, hwrite⟩ := remove_ok.mp hok
  have hadmin : r.isAdmin account = false := htells
  refine hmirror.recorded hc hroom hwrite (by decide) hc rfl rfl ?_
  refine derives_left account hmirror (.inr rfl) rfl ?_ (fun a hne => ?_) rfl
  · rw [unseat_member, if_pos rfl, hadmin]
    rfl
  · rw [unseat_member, if_neg hne]

theorem mute_mirror {on : Bool} (hmirror : Mirror r d) (hc : r.channel = some c)
    (hroom : c.nextSeq.toUInt64.toNat + 1 < 2 ^ 64)
    (hok : r.mute C h channel w caller device account action on = .ok (r', es)) :
    Mirror r' (es.foldl (pull C self) d) := by
  obtain ⟨-, -, -, hrole, -, r₁, hwrite, rfl⟩ := mute_ok.mp hok
  have hpresent : (r.roleOf account).isSome := by simpa [Option.isSome_iff_ne_none] using hrole
  have hevent : Derived (if on then Event.muted else Event.unmuted) := by cases on <;> decide
  obtain ⟨c', input, e, rfl, hacted⟩ := writeSystem_ok.mp hwrite
  have hc' : r.channel = some c' := hacted.appended.channel
  obtain rfl := Option.some.inj (hc.symm.trans hc')
  have hderives : Derives C (recordOf (if on then Event.muted else Event.unmuted) account caller
      device action) w.now d (r.alter account fun m => { m with muted := on }) :=
    derives_muted account hmirror rfl rfl hpresent
  -- the roster is changed after the entry is written, and could as well be before
  have hlater := hacted.appended.member (r.alter account fun m => { m with muted := on }).member
  have halter : r₁.alter account (fun m => { m with muted := on }) =
      { r₁ with member := (r.alter account fun m => { m with muted := on }).member } := by
    have hmember : r₁.member = r.member := hacted.appended.same.1
    unfold alter
    rw [hmember]
    split
    · rfl
    · rw [← hmember]
  have hsteps : ∀ r₂ : Rows, r₂.member = (r.alter account fun m => { m with muted := on }).member →
      r₂.epoch = r.epoch → Derives C (recordOf (if on then Event.muted else Event.unmuted) account
        caller device action) w.now d r₂ := by
    intro r₂ hmember hepoch
    refine ⟨fun a => ?_, hderives.lifted, ?_⟩
    · rw [hmember]
      exact hderives.stands a
    · rw [hderives.epochs, hepoch]
      unfold alter
      split <;> rfl
  rw [halter]
  exact Derives.stored (hsteps _ (by rfl) (by rfl)) hlater hevent.1 hevent.2 hmirror.here
    (hmirror.behind c hc) hroom

theorem rotate_mirror {k : KeyWorld} {req : KeyPut} (hmirror : Mirror r d)
    (hc : r.channel = some c) (hroom : c.nextSeq.toUInt64.toNat + 1 < 2 ^ 64)
    (hok : r.putKeys C h channel w k caller device req = .ok (r', es)) :
    Mirror r' (es.foldl (pull C self) d) := by
  cases putKeys_ok hok with
  | inl hsame =>
    obtain ⟨rfl, rfl⟩ := hsame
    exact hmirror
  | inr hrotated =>
    obtain ⟨c', action, hc', hnext, -, hwrite⟩ := hrotated
    obtain rfl := Option.some.inj (hc.symm.trans hc')
    have hc₁ : ({ r with channel := some { c with epoch := req.epoch, epochAt := w.now } } :
        Rows).channel = some { c with epoch := req.epoch, epochAt := w.now } := rfl
    refine hmirror.recorded hc hroom hwrite (by decide) hc₁ rfl rfl ?_
    refine derives_rotated hmirror rfl rfl ?_
    simp [epoch, hc, hnext]

theorem succeed_mirror {successor : PubKey} {issued : UInt64} {sig : Bytes64}
    (hmirror : Mirror r d) (hc : r.channel = some c)
    (hroom : c.nextSeq.toUInt64.toNat + 1 < 2 ^ 64)
    (hwill : entryVerifies C ⟨Event.succeeded, successor, account, account, issued, 0, sig⟩ = true)
    (htells : Tells C channel w r (.succeed account successor issued sig))
    (hok : r.succeedAccount C h channel account successor issued sig w.now = .ok (r', es)) :
    Mirror r' (es.foldl (pull C self) d) := by
  cases succeedAccount_ok.mp hok with
  | inl hsame =>
    obtain ⟨-, rfl, rfl⟩ := hsame
    exact hmirror
  | inr hmoved =>
    obtain ⟨role, hrole, hhere, hwrite⟩ := hmoved
    obtain ⟨c', e, rfl, happended⟩ := writeSuccession_ok.mp hwrite
    have hc' : r.channel = some c' := happended.channel
    obtain rfl := Option.some.inj (hc.symm.trans hc')
    have hevent : Derived Event.succeeded := by decide
    exact (derives_succeeded hmirror rfl hwill hrole htells).stored happended hevent.1 hevent.2
      hhere (hmirror.behind c hc) hroom

theorem Mirror.lastOut (hmirror : Mirror r d) :
    Gone (r.lastOut now) ∨ Mirror (r.lastOut now) d := by
  obtain ⟨c, hc⟩ := Option.isSome_iff_exists.mp hmirror.made
  unfold Rows.lastOut
  simp only [hc]
  split_ifs
  · refine .inr ⟨hmirror.here, rfl, hmirror.stands, hmirror.lifted, ?_, ?_⟩
    · rw [hmirror.epochs]
      simp [epoch, hc]
    · intro c' hc' k hk
      obtain rfl := Option.some.inj hc'
      exact hmirror.behind c hc k hk
  · exact .inl ⟨rfl, rfl, hmirror.here⟩

theorem leave_mirror (hmirror : Mirror r d) (hc : r.channel = some c)
    (hroom : c.nextSeq.toUInt64.toNat + 1 < 2 ^ 64)
    (htells : Tells C channel w r (.leave caller device action))
    (hok : r.leave C h channel w caller device action = .ok (r', es)) :
    Gone r' ∨ Mirror r' (es.foldl (pull C self) d) := by
  obtain ⟨-, c', hc', role, hrole, -, r₁, hwrite, rfl⟩ := leave_ok.mp hok
  obtain rfl := Option.some.inj (hc.symm.trans hc')
  obtain ⟨m, hm, hmrole⟩ := Option.map_eq_some_iff.mp hrole
  obtain ⟨hrow, hpresent⟩ := Option.filter_eq_some_iff.mp hm
  have hadmin : r.isAdmin caller = (role == .admin) := by
    rw [isAdmin, hrow, ← hmrole]
    rfl
  have hstand : (standDown c r caller role).channel = some c ∧
      (standDown c r caller role).replicated = r.replicated := by
    unfold standDown alter unseat
    split_ifs
    · split <;> exact ⟨hc, rfl⟩
    · exact ⟨hc, rfl⟩
  by_cases hprivate : c.visibility = .priv ∧ role = .admin
  · have halone : r.counts.1 = 1 := by
      refine htells c hc hprivate.1 ?_
      rw [hadmin, hprivate.2]
      rfl
    obtain ⟨c₁, input, e, -, hacted⟩ := writeSystem_ok.mp hwrite
    have hc₁ : (standDown c r caller role).channel = some c₁ := hacted.appended.channel
    obtain rfl := Option.some.inj (hstand.1.symm.trans hc₁)
    have hafter : r₁.channel = some (after C c (link C input)) := by rw [hacted.appended.rows]
    have hpriv : (after C c (link C input)).visibility = .priv := hprivate.1
    have hhere : r₁.originRow = none := by
      rw [originRow, (writeSystem_same hwrite).2.replicated, hstand.2]
      exact hmirror.here
    rw [if_pos halone, Rows.lastOut, hafter]
    simp only [hpriv, reduceCtorEq, if_false]
    exact .inl ⟨rfl, rfl, hhere⟩
  · have hstays : Mirror r₁ (es.foldl (pull C self) d) := by
      refine hmirror.recorded hc hroom hwrite (by decide) hstand.1 rfl hstand.2 ?_
      refine derives_left caller hmirror (.inl rfl) rfl ?_ (fun a hne => ?_) ?_
      · rw [standDown_member, if_pos rfl, hadmin, hrow]
        cases hvisible : c.visibility with
        | pub => cases role <;> simp [hmrole]
        | priv =>
          cases role with
          | member => simp
          | admin => exact absurd ⟨hvisible, rfl⟩ hprivate
      · rw [standDown_member, if_neg hne]
      · simp [epoch, hstand.1, hc]
    split_ifs
    · exact hstays.lastOut
    · exact .inr hstays

end Steps

section Founding
variable {c : ChannelRow} {caller device : PubKey}

def AllSeated (r : Rows) : Prop :=
  ∀ (a : PubKey) (m : MemberRow), r.member[a]? = some m → m.present = true ∧ m.muted = false

theorem seatNew_allSeated (who : PubKey) (role : Role) (now : UInt64) (hall : AllSeated r) :
    AllSeated (r.seatNew who role now) := by
  intro a m hrow
  rw [seatNew_member] at hrow
  split_ifs at hrow
  · cases hheld : r.member[a]? with
    | none =>
      rw [hheld] at hrow
      obtain rfl := Option.some.inj hrow
      exact ⟨rfl, rfl⟩
    | some held =>
      rw [hheld] at hrow
      obtain rfl := Option.some.inj hrow
      exact hall a held hheld
  · exact hall a m hrow

theorem writeSystem_next {arg : Bytes}
    (hwrite : r₁.writeSystem C h channel s arg now = .ok (r', es)) (hc : r₁.channel = some c)
    (hroom : c.nextSeq.toUInt64.toNat + 1 < 2 ^ 64) :
    ∃ c', r'.channel = some c' ∧ c'.nextSeq.toUInt64.toNat = c.nextSeq.toUInt64.toNat + 1 := by
  obtain ⟨c₁, input, e, -, hacted⟩ := writeSystem_ok.mp hwrite
  have hc₁ : r₁.channel = some c₁ := hacted.appended.channel
  obtain rfl := Option.some.inj (hc.symm.trans hc₁)
  refine ⟨after C c (link C input), by rw [hacted.appended.rows], ?_⟩
  simp only [after, toUInt64_toInt64, UInt64.toNat_add]
  have hone : (1 : UInt64).toNat = 1 := rfl
  omega

theorem addInvitees_mirror {invitees : List (Invitee × Action)} {seated : List PubKey}
    (hplain : PlainInvites w caller seated (invitees.map Prod.fst))
    (hseated : ∀ a ∈ seated, (r.member[a]?).isSome) (hall : AllSeated r) (hmirror : Mirror r d)
    (hc : r.channel = some c) (hroom : c.nextSeq.toUInt64.toNat + invitees.length < 2 ^ 64)
    (hok : r.addInvitees C h channel w caller device invitees = .ok (r', es)) :
    Mirror r' (es.foldl (pull C self) d) := by
  induction invitees generalizing r d es c seated with
  | nil =>
    obtain ⟨rfl, rfl⟩ := Prod.mk.inj (Except.ok.inj hok)
    exact hmirror
  | cons i rest ih =>
    rw [List.length_cons] at hroom
    unfold addInvitees at hok
    simp only [List.map_cons, PlainInvites] at hplain
    by_cases hblocked : w.blocked i.1.account caller = true
    · rw [if_pos hblocked] at hok hplain
      exact ih hplain hseated hall hmirror hc (by omega) hok
    · rw [if_neg hblocked] at hok hplain
      simp only [bind_eq_ok, Prod.exists, pure_eq_ok, Prod.mk.injEq] at hok
      obtain ⟨r₁, es₁, hwrite, r₂, more, hrest, rfl, rfl⟩ := hok
      obtain ⟨hrole, hmore⟩ := hplain
      have hall' := seatNew_allSeated i.1.account i.1.role w.now hall
      have hrow := r.seatNew_member i.1.account i.1.account i.1.role w.now
      rw [if_pos rfl] at hrow
      obtain ⟨hpresent, hmuted⟩ := hall' _ _ hrow
      have hfirst : Mirror r₁ (es₁.foldl (pull C self) d) := by
        refine hmirror.recorded hc (by omega) hwrite (by decide) hc rfl rfl ?_
        refine derives_seated i.1.account hmirror (.inl rfl) rfl hrow hpresent ?_ hmuted
          (fun a hne => ?_) rfl
        · cases hheld : r.member[i.1.account]? with
          | some m => rfl
          | none =>
            cases hrole with
            | inl hmem =>
              have hsome := hseated _ hmem
              rw [hheld] at hsome
              cases hsome
            | inr hmember => simp [MemberRow.new, hmember]
        · rw [seatNew_member, if_neg hne]
      obtain ⟨c', hc', hnext⟩ := writeSystem_next hwrite hc (by omega)
      have hmember := (writeSystem_same hwrite).1
      rw [List.foldl_append]
      refine ih hmore (fun a ha => ?_) ?_ hfirst hc' (by omega) hrest
      · rw [hmember, seatNew_member]
        split_ifs with hsame
        · rfl
        · rcases List.mem_cons.mp ha with heq | hmem
          · exact absurd heq.symm hsame
          · exact hseated a hmem
      · intro a m ha
        rw [hmember] at ha
        exact hall' a m ha

theorem found_mirror {req : Create} (hplain : PlainInvites w caller [caller] req.invites)
    (hempty : r.member = ∅) (hhere : r.originRow = none)
    (hfresh : d.member = ∅ ∧ d.entry = ∅ ∧ d.epoch = some 0)
    (hok : r.found C h channel w caller device req = .ok (r', es)) :
    Mirror r' (es.foldl (pull C self) d) := by
  obtain ⟨c, opening, actions, r₁, first, more, -, -, hlength, rfl, hfull, hc, hfirst, hmore⟩ :=
    found_ok hok
  have hnext : c.nextSeq.toUInt64.toNat = 1 := by
    rw [hc]
    rfl
  have hinvited : req.invites.length + 1 ≤ 256 := hfull
  have hrow : ∀ a, (seatNew { r with channel := some c } caller .admin w.now).member[a]? =
      if caller = a then some (.new .admin w.now) else none := by
    intro a
    rw [seatNew_member]
    simp [hempty]
  have hderives : Derives C (recordOf Event.created caller caller device opening) w.now d
      (seatNew { r with channel := some c } caller .admin w.now) := by
    have hderived := fun a => derive_created C d (recordOf Event.created caller caller device
      opening) w.now a rfl
    refine ⟨fun a => ?_, fun a => ?_, ?_⟩
    · rw [hderived, hrow, hfresh.1]
      simp [enrolledRow, recordOf]
    · rw [hderived, hfresh.1]
      split_ifs
      · exact lifted_present (enrolledRow_fields _ _ _).1
      · intro row hnone
        simp at hnone
    · rw [derive_epoch C d _ w.now (by decide : Event.created ≠ Event.rotated), hfresh.2.2]
      simp [epoch, seatNew, hc]
  have hevent : Derived Event.created := by decide
  have hopened : Mirror r₁ (first.foldl (pull C self) d) := by
    refine hderives.recorded hfirst hevent.1 hevent.2 rfl hhere ?_ (by omega)
    intro k hk
    simp [hfresh.2.1] at hk
  obtain ⟨c₁, hc₁, hnext₁⟩ := writeSystem_next hfirst rfl (by omega)
  have hmember := (writeSystem_same hfirst).1
  have hzip : (req.invites.zip actions).map Prod.fst = req.invites :=
    List.map_fst_zip hlength.ge
  rw [List.foldl_append]
  refine addInvitees_mirror (by rwa [hzip]) (fun a ha => ?_) ?_ hopened hc₁ ?_ hmore
  · rw [hmember, hrow, if_pos (List.mem_singleton.mp ha).symm]
    rfl
  · intro a m ha
    rw [hmember, hrow] at ha
    split_ifs at ha
    obtain rfl := Option.some.inj ha
    exact ⟨rfl, rfl⟩
  · rw [hnext₁, hnext, List.length_zip]
    omega

end Founding

end Rows
end Sqex.Exchange
