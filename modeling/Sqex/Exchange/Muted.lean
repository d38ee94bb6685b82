import Sqex.Exchange.OriginRoster

/-! A seat somebody muted, followed from account to account through the successions, until
its holder leaves, is removed or is unmuted. -/
namespace Sqex.Exchange
open Std Runs

/-- The operations that seat, unseat, mute and move a member, and what a member writes. An
account never succeeds itself: a will and a handover that say so are refused. -/
def Request.OfMembers : Request → Prop
  | .join .. | .leave .. | .invite .. | .remove .. | .mute .. | .post .. | .signal .. => True
  | .succeed account successor _ _ => account ≠ successor
  | _ => False

structure MemberCall where
  around : Around
  request : Request
  listed : request.OfMembers

structure Seated where
  rows : Rows
  seat : Option PubKey

namespace Seated
variable {C : Crypto} {h : Host} {channel : Bytes32} {r r' : Rows} {es : List Ordered}
  {who : PubKey}

/-- Who holds a seat after a request that went through. -/
def follow (who : PubKey) : Request → Option PubKey
  | .leave caller _ _ => if caller = who then none else some who
  | .remove _ _ account _ => if account = who then none else some who
  | .mute _ _ account _ on => if account = who ∧ on = false then none else some who
  | .succeed account successor _ _ => if account = who then some successor else some who
  | _ => some who

def step (C : Crypto) (h : Host) (channel : Bytes32) (s : Seated) (call : MemberCall) : Seated :=
  match s.rows.perform C h channel call.around call.request with
  | .error _ => s
  | .ok (rows, _) => ⟨rows, s.seat.bind fun who => follow who call.request⟩

def Silent (C : Crypto) (h : Host) (channel : Bytes32) (s : Seated) : Prop :=
  ∀ who ∈ s.seat,
    (∀ w device req p, s.rows.perform C h channel w (.post who device req) ≠ .ok p) ∧
    ∀ w p, s.rows.perform C h channel w (.signal who) ≠ .ok p

def CarriesMute (s : Seated) (call : MemberCall) : Prop :=
  match call.request with
  | .succeed account successor _ _ =>
    s.seat = some account → (∀ c ∈ s.rows.channel, c.nextSeq ∉ s.rows.entry) →
      s.rows.isMuted successor = true
  | _ => True

structure Sits (r : Rows) (who : PubKey) (m : MemberRow) : Prop where
  here : r.originRow = none
  made : r.channel.isSome
  row : r.member[who]? = some m
  present : m.present = true

def Holding (s : Seated) : Prop :=
  ∀ who ∈ s.seat, ∃ m, Sits s.rows who m ∧ m.muted = true

theorem Sits.role {m : MemberRow} (hsits : Sits r who m) : (r.roleOf who).isSome :=
  Rows.roleOf_isSome_iff.mpr ⟨m, hsits.row, hsits.present⟩

theorem Sits.muted {m : MemberRow} (hsits : Sits r who m) : r.isMuted who = m.muted := by
  rw [Rows.isMuted, hsits.row]
  rfl

theorem Sits.after {other : PubKey} {m m' : MemberRow} (hsits : Sits r other m)
    (hsame : r.SameChannel r') (hrow : r'.member[who]? = some m') (hpresent : m'.present = true) :
    Sits r' who m' :=
  ⟨hsame.originRow.trans hsits.here, by rw [hsame.some]; exact hsits.made, hrow, hpresent⟩

/-- For somebody present, a signal goes through unless it is muted. -/
theorem signal_iff {w : Around} {m : MemberRow} (hsits : Sits r who m) :
    (∃ p, r.perform C h channel w (.signal who) = .ok p) ↔ m.muted = false := by
  obtain ⟨c, hc⟩ := Option.isSome_iff_exists.mp hsits.made
  have hrole := hsits.role
  have hnone : (r.roleOf who).isNone = false := by simpa using hrole
  have hsignal : r.signal who = refuseIf (r.isMuted who = true) .muted := by
    simp only [Rows.signal, Rows.channelRow, hc, hnone, refuseIf, Bool.false_eq_true, if_false]
    rfl
  simp only [Rows.perform, hsignal, hsits.muted]
  cases m.muted with
  | false | true => simp [refuseIf, quiet, Except.map]

theorem silent_of_holding {s : Seated} (hholding : Holding s) : Silent C h channel s := by
  intro who hwho
  obtain ⟨m, hsits, hmuted⟩ := hholding who hwho
  constructor
  · intro w device req p hok
    obtain ⟨-, -, hfree, -⟩ := Rows.post_ok hok
    rw [hsits.muted, hmuted] at hfree
    cases hfree
  · intro w p hok
    have hfree : m.muted = false := (signal_iff hsits).mp ⟨p, hok⟩
    rw [hmuted] at hfree
    cases hfree

theorem Sits.recorded {r₁ : Rows} {m m₁ : MemberRow} {s : System} {arg : Bytes} {now : UInt64}
    (hsits : Sits r who m) (hwrite : r₁.writeSystem C h channel s arg now = .ok (r', es))
    (hsame : r.SameChannel r₁)
    (hrow : r₁.member[who]? = some m₁) (hpresent : m₁.present = true) : Sits r' who m₁ := by
  obtain ⟨hmember, hwritten⟩ := Rows.writeSystem_same hwrite
  exact hsits.after (hsame.trans hwritten) (by rw [hmember]; exact hrow) hpresent

theorem muted_keeps {w : Around} {req : Request} {m : MemberRow} (hlisted : req.OfMembers)
    (hok : r.perform C h channel w req = .ok (r', es)) (hfollow : follow who req = some who)
    (hsits : Sits r who m) (hmuted : m.muted = true) : ∃ m', Sits r' who m' ∧ m'.muted = true := by
  cases req with
  | join caller device action =>
    obtain ⟨-, c, -, -, -, hwrite⟩ := Rows.join_ok.mp hok
    have hrow := r.seat_member caller who .member w.now
    rw [hsits.row] at hrow
    by_cases hcaller : caller = who
    · rw [if_pos hcaller] at hrow
      exact ⟨_, hsits.recorded hwrite ⟨rfl, rfl⟩ hrow rfl, hmuted⟩
    · rw [if_neg hcaller] at hrow
      exact ⟨m, hsits.recorded hwrite ⟨rfl, rfl⟩ hrow hsits.present, hmuted⟩
  | leave caller device action =>
    have hcaller : caller ≠ who := by
      intro heq
      simp [follow, heq] at hfollow
    obtain ⟨-, c, -, role, hrole, -, r₁, hwrite, rfl⟩ := Rows.leave_ok.mp hok
    have hother : (r.roleOf caller).isSome := by rw [hrole]; rfl
    rw [if_neg (Rows.counts_ne_one hcaller hother hsits.role)]
    have hrow := Rows.standDown_member c r caller who role
    rw [if_neg hcaller, hsits.row] at hrow
    exact ⟨m, hsits.recorded hwrite (Rows.standDown_same c r caller role) hrow hsits.present,
      hmuted⟩
  | post account device req =>
    have hrow := Rows.post_member hok who
    rw [hsits.row] at hrow
    by_cases haccount : account = who
    · rw [if_pos haccount] at hrow
      exact ⟨_, hsits.after (Rows.post_same hok) hrow hsits.present, hmuted⟩
    · rw [if_neg haccount] at hrow
      exact ⟨m, hsits.after (Rows.post_same hok) hrow hsits.present, hmuted⟩
  | invite caller device account role action =>
    cases Rows.invite_ok.mp hok with
    | inl hblocked =>
      obtain ⟨-, rfl, -⟩ := hblocked
      exact ⟨m, hsits, hmuted⟩
    | inr hinvited =>
      obtain ⟨-, -, -, -, -, -, -, hwrite⟩ := hinvited
      have hrow := r.enroll_member account who role w.now
      rw [hsits.row] at hrow
      by_cases haccount : account = who
      · rw [if_pos haccount] at hrow
        exact ⟨_, hsits.recorded hwrite ⟨rfl, rfl⟩ hrow rfl, hmuted⟩
      · rw [if_neg haccount] at hrow
        exact ⟨m, hsits.recorded hwrite ⟨rfl, rfl⟩ hrow hsits.present, hmuted⟩
  | mute caller device account action on =>
    obtain ⟨-, -, -, -, -, r₁, hwrite, rfl⟩ := Rows.mute_ok.mp hok
    have hbefore : Sits r₁ who m := hsits.recorded hwrite ⟨rfl, rfl⟩ hsits.row hsits.present
    have hrow := r₁.alter_member account who fun m => { m with muted := on }
    rw [hbefore.row] at hrow
    by_cases haccount : account = who
    · have hon : on = true := by
        cases on with
        | true => rfl
        | false => simp [follow, haccount] at hfollow
      rw [if_pos haccount] at hrow
      exact ⟨_, hbefore.after (Rows.alter_same _ _ _) hrow hsits.present, hon⟩
    · rw [if_neg haccount] at hrow
      exact ⟨m, hbefore.after (Rows.alter_same _ _ _) hrow hsits.present, hmuted⟩
  | remove caller device account action =>
    have haccount : account ≠ who := by
      intro heq
      simp [follow, heq] at hfollow
    obtain ⟨-, -, -, -, -, -, hwrite⟩ := Rows.remove_ok.mp hok
    have hrow := r.unseat_member account who
    rw [if_neg haccount, hsits.row] at hrow
    exact ⟨m, hsits.recorded hwrite ⟨rfl, rfl⟩ hrow hsits.present, hmuted⟩
  | signal caller =>
    obtain ⟨hdone, -⟩ := quiet_eq_ok.mp hok
    obtain ⟨-, -, rfl⟩ := map_eq_ok.mp hdone
    exact ⟨m, hsits, hmuted⟩
  | succeed account successor issued sig =>
    have haccount : account ≠ who := by
      intro heq
      have hsame : successor = who := by simpa [follow, heq] using hfollow
      exact hlisted (heq.trans hsame.symm)
    cases Rows.succeedAccount_ok.mp hok with
    | inl hstays =>
      obtain ⟨-, rfl, -⟩ := hstays
      exact ⟨m, hsits, hmuted⟩
    | inr hmoved =>
      obtain ⟨role, -, -, hwrite⟩ := hmoved
      obtain ⟨hmember, hsame⟩ := Rows.writeSuccession_same hwrite
      have hrow := r.moveMember_member account successor who role w.now
      rw [← hmember, if_neg haccount, hsits.row] at hrow
      have hchannel : r.SameChannel r' := ⟨hsame.some, hsame.replicated⟩
      by_cases hsuccessor : successor = who
      · rw [if_pos hsuccessor] at hrow
        exact ⟨_, hsits.after hchannel hrow rfl, hmuted⟩
      · rw [if_neg hsuccessor] at hrow
        exact ⟨m, hsits.after hchannel hrow hsits.present, hmuted⟩
  | _ => exact absurd hlisted id

/-- A seat is given up, stays with its holder, or goes to its holder's successor. -/
theorem follow_cases (who : PubKey) (req : Request) :
    follow who req = none ∨ follow who req = some who ∨
      ∃ successor issued sig, req = .succeed who successor issued sig := by
  cases req with
  | leave caller device action =>
    by_cases hcaller : caller = who <;> simp [follow, hcaller]
  | remove caller device account action =>
    by_cases haccount : account = who <;> simp [follow, haccount]
  | mute caller device account action on =>
    by_cases hunmuted : account = who ∧ on = false
    · exact .inl (if_pos hunmuted)
    · exact .inr (.inl (if_neg hunmuted))
  | succeed account successor issued sig =>
    by_cases haccount : account = who
    · exact .inr (.inr ⟨successor, issued, sig, by rw [haccount]⟩)
    · exact .inr (.inl (if_neg haccount))
  | _ => exact .inr (.inl rfl)

section Succession
variable {account successor : PubKey} {issued : UInt64} {sig : Bytes64} {w : Around}
  {m : MemberRow}

/-- A succession of somebody present goes through where the log's next position is free. -/
theorem succeeds (hsits : Sits r account m) (hfree : ∀ c ∈ r.channel, c.nextSeq ∉ r.entry) :
    ∃ p, r.perform C h channel w (.succeed account successor issued sig) = .ok p := by
  obtain ⟨c, hc⟩ := Option.isSome_iff_exists.mp hsits.made
  obtain ⟨role, hrole⟩ := Option.isSome_iff_exists.mp hsits.role
  refine ⟨_, Rows.succeedAccount_ok.mpr (.inr ⟨role, hrole, hsits.here,
    Rows.writeSuccession_ok.mpr ⟨c, _, rfl, ⟨hc, hfree c hc, rfl, rfl⟩⟩⟩)⟩

theorem succeeded_row (hne : account ≠ successor) (hsits : Sits r account m)
    (hok : r.perform C h channel w (.succeed account successor issued sig) = .ok (r', es)) :
    (∀ c ∈ r.channel, c.nextSeq ∉ r.entry) ∧
      ∃ m', Sits r' successor m' ∧ m'.muted = r.isMuted successor := by
  cases Rows.succeedAccount_ok.mp hok with
  | inl hstays =>
    obtain ⟨habsent, -, -⟩ := hstays
    have hrole := hsits.role
    rw [hsits.here] at habsent
    simp_all
  | inr hmoved =>
    obtain ⟨role, -, -, hwrite⟩ := hmoved
    obtain ⟨hmember, hsame⟩ := Rows.writeSuccession_same hwrite
    obtain ⟨c, e, -, happended⟩ := Rows.writeSuccession_ok.mp hwrite
    have hrow := r.moveMember_member account successor successor role w.now
    rw [← hmember, if_neg hne, if_pos rfl] at hrow
    refine ⟨?_, _, hsits.after ⟨hsame.some, hsame.replicated⟩ hrow ?_, ?_⟩
    · intro c' hc'
      obtain rfl := Option.some.inj (happended.channel.symm.trans hc')
      exact happended.free
    · exact (Rows.movedRow_fields role w.now r.member[successor]?).1
    · exact (Rows.movedRow_fields role w.now r.member[successor]?).2.2

end Succession

theorem holding_step {s : Seated} {call : MemberCall} (hholding : Holding s)
    (hcarries : CarriesMute s call) : Holding (step C h channel s call) := by
  unfold step
  cases hok : s.rows.perform C h channel call.around call.request with
  | error e => exact hholding
  | ok p =>
    obtain ⟨r', es⟩ := p
    intro who' hwho'
    obtain ⟨who, hseat, hfollow⟩ := Option.bind_eq_some_iff.mp hwho'
    obtain ⟨m, hsits, hmuted⟩ := hholding who hseat
    obtain hgone | hstays | ⟨successor, issued, sig, hreq⟩ := follow_cases who call.request
    · simp [hgone] at hfollow
    · obtain rfl := Option.some.inj (hstays.symm.trans hfollow)
      exact muted_keeps call.listed hok hstays hsits hmuted
    · have hlisted := call.listed
      rw [hreq] at hok hfollow hlisted
      obtain rfl : successor = who' := by simpa [follow] using hfollow
      obtain ⟨hfree, m', hsits', hmuted'⟩ := succeeded_row hlisted hsits hok
      simp only [CarriesMute, hreq] at hcarries
      exact ⟨m', hsits', hmuted'.trans (hcarries hseat hfree)⟩

/-- A succession that does not carry the mute leaves its successor free to write. -/
theorem carries_of_silent {s : Seated} {call : MemberCall} (hholding : Holding s)
    (hsilent : Silent C h channel (step C h channel s call)) : CarriesMute s call := by
  have hlisted := call.listed
  unfold CarriesMute
  cases hreq : call.request with
  | succeed account successor issued sig =>
    intro hseat hfree
    obtain ⟨m, hsits, -⟩ := hholding account hseat
    rw [hreq] at hlisted
    obtain ⟨⟨r', es⟩, hok⟩ : ∃ p, s.rows.perform C h channel call.around
      (.succeed account successor issued sig) = .ok p := succeeds hsits hfree
    obtain ⟨-, m', hsits', hmuted'⟩ := succeeded_row hlisted hsits hok
    have hafter : step C h channel s call = ⟨r', some successor⟩ := by
      simp only [step, hreq, hok, hseat, Option.bind_some, follow, if_pos]
    rw [hafter] at hsilent
    cases hm : m'.muted with
    | true => rw [← hmuted', hm]
    | false =>
      obtain ⟨p, hp⟩ : ∃ p, r'.perform C h channel call.around (.signal successor) = .ok p :=
        (signal_iff hsits').mpr hm
      exact absurd hp ((hsilent successor rfl).2 call.around p)
  | _ => trivial

/-- Right after a mute that went through, the seat's holder is present and muted. -/
theorem holding_of_mute {w : Around} {caller device account : PubKey} {action : Action}
    (hmute : r.mute C h channel w caller device account action true = .ok (r', es)) :
    Holding ⟨r', some account⟩ := by
  obtain ⟨horigin, ⟨c, hc⟩, -, hrole, -, r₁, hwrite, rfl⟩ := Rows.mute_ok.mp hmute
  have hpresent : (r.roleOf account).isSome := by simpa [Option.isSome_iff_ne_none] using hrole
  obtain ⟨m, hrow, hm⟩ := Rows.roleOf_isSome_iff.mp hpresent
  have hsits : Sits r account m := ⟨horigin, by rw [hc]; rfl, hrow, hm⟩
  have hbefore : Sits r₁ account m := hsits.recorded hwrite ⟨rfl, rfl⟩ hrow hm
  have hafter := r₁.alter_member account account fun m => { m with muted := true }
  rw [if_pos rfl, hbefore.row] at hafter
  intro who hwho
  obtain rfl := Option.some.inj hwho
  exact ⟨_, hbefore.after (Rows.alter_same _ _ _) hafter hm, rfl⟩

/-- After a mute, whoever holds the seat is refused every post and every signal until the
seat is left, removed or unmuted, in exactly those runs in which no succession takes it to
an account that is not muted. -/
theorem mute_lasts_iff {w : Around} {caller device account : PubKey} {action : Action}
    (hmute : r.mute C h channel w caller device account action true = .ok (r', es))
    (calls : List MemberCall) :
    Always (Silent C h channel) (step C h channel) ⟨r', some account⟩ calls ↔
      Each CarriesMute (step C h channel) ⟨r', some account⟩ calls := by
  refine always_iff_each_of (I := Holding) (fun s call hholding hcarries => ?_)
    (fun s hholding => silent_of_holding hholding) (fun s call hholding => ?_)
    (holding_of_mute hmute)
  · exact holding_step hholding hcarries
  · constructor
    · exact carries_of_silent hholding
    · exact fun hcarries => silent_of_holding (holding_step hholding hcarries)

section Example

def twoSeated : Rows :=
  (Rows.frontRoom 0 "lobby" (some 7) 0).seat 5 .member 0

def muting : Request :=
  .mute 7 (Crypto.toy.publicKey 8) 5 (firstAction Event.muted 5 7) true

def hushed : Rows × List Ordered :=
  twoSeated.performed .toy ⟨1, none, 50000⟩ 0 (Around.clear 10) muting

theorem hushed_ok : twoSeated.mute .toy ⟨1, none, 50000⟩ 0 (Around.clear 10) 7
    (Crypto.toy.publicKey 8) 5 (firstAction Event.muted 5 7) true = .ok (hushed.1, hushed.2) := by
  have hok : (twoSeated.perform .toy ⟨1, none, 50000⟩ 0 (.clear 10) muting).isOk = true := by
    decide +kernel
  exact Rows.perform_of_isOk hok

/-- Signalling and joining again do not end it. -/
theorem hushed_stays : Always (Silent .toy ⟨1, none, 50000⟩ 0) (step .toy ⟨1, none, 50000⟩ 0)
    ⟨hushed.1, some 5⟩
    [⟨.clear 11, .signal 5, trivial⟩,
      ⟨.clear 12, .join 5 6 (firstAction Event.joined 5 5), trivial⟩] :=
  (mute_lasts_iff hushed_ok _).mpr ⟨trivial, trivial, trivial⟩

/-- 5 is succeeded by 9, which was never here. -/
theorem successor_speaks : ¬ ∀ (C : Crypto) (h : Host) (channel : Bytes32) (w : Around)
    (r r' : Rows) (es : List Ordered) (caller device account : PubKey) (action : Action)
    (calls : List MemberCall),
    r.mute C h channel w caller device account action true = .ok (r', es) →
      Always (Silent C h channel) (step C h channel) ⟨r', some account⟩ calls := by
  intro hall
  have h59 : (5 : PubKey) ≠ 9 := by decide
  have hsilent := hall _ _ _ _ _ _ _ _ _ _ _ [⟨.clear 11, .succeed 5 9 1 0, h59⟩]
    hushed_ok
  have hcarries := carries_of_silent (holding_of_mute hushed_ok) hsilent.2
  have hmuted : hushed.1.isMuted 9 = true := hcarries rfl (by decide +kernel)
  exact absurd hmuted (by decide +kernel)

end Example

end Seated
end Sqex.Exchange
