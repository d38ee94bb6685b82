import Sqex.Exchange.OriginHistory
import Sqex.Exchange.RosterMirror

/-! Whether a copy that stored all that was ordered has the origin's roster, over runs of the
requests that change one. -/
namespace Sqex.Exchange
open Std Runs

def Request.OfRoster (C : Crypto) : Request → Prop
  | .create .. | .join .. | .leave .. | .invite .. | .remove .. | .mute .. | .putKeys .. => True
  | .succeed account successor issued sig =>
    entryVerifies C ⟨Event.succeeded, successor, account, account, issued, 0, sig⟩ = true
  | _ => False

structure RosterCall (C : Crypto) where
  around : Around
  request : Request
  listed : request.OfRoster C

namespace Rows
variable {C : Crypto} {h : Host} {channel : Bytes32} {self : PubKey} {w : Around}
  {r r' d : Rows} {es : List Ordered} {req : Request}

/-- Two rosters say the same: who is present, at which role, whether muted; the epoch; and
who is an admin, present or not. -/
structure SameRoster (r d : Rows) : Prop where
  role : ∀ a : PubKey, d.roleOf a = r.roleOf a
  muted : ∀ a : PubKey, (r.roleOf a).isSome → d.isMuted a = r.isMuted a
  epoch : d.epoch = r.epoch
  admin : ∀ a : PubKey, d.isAdmin a = r.isAdmin a

theorem Mirror.sameRoster (hmirror : Mirror r d) : SameRoster r d := by
  have hseat : ∀ r : Rows, ∀ a, (standing r.member[a]?).1 =
      ((r.roleOf a).map fun role => (role, r.isMuted a)) := by
    intro r a
    unfold roleOf isMuted
    cases hrow : r.member[a]? with
    | none => rfl
    | some m => cases hpresent : m.present <;> simp [hpresent]
  have hboth : ∀ a, (d.roleOf a).map (fun role => (role, d.isMuted a)) =
      (r.roleOf a).map fun role => (role, r.isMuted a) := by
    intro a
    rw [← hseat, ← hseat, hmirror.stands]
  refine ⟨fun a => ?_, fun a hpresent => ?_, hmirror.epochs, fun a => ?_⟩
  · have hrole := congrArg (Option.map Prod.fst) (hboth a)
    simpa [Function.comp_def] using hrole
  · obtain ⟨role, hrole⟩ := Option.isSome_iff_exists.mp hpresent
    have hsame := hboth a
    rw [hrole] at hsame
    obtain ⟨role', -, hpair⟩ := Option.map_eq_some_iff.mp hsame
    exact congrArg Prod.snd hpair
  · exact congrArg Prod.snd (hmirror.stands a)

theorem adopt_fresh {incarnation : Bytes32} {origin : PubKey} {windowSecs : UInt32}
    {now : UInt64} (hadopt : Rows.empty.adopt incarnation origin windowSecs now = .ok d) :
    d.member = ∅ ∧ d.entry = ∅ ∧ d.epoch = some 0 := by
  obtain rfl := Except.ok.inj hadopt
  exact ⟨rfl, rfl, rfl⟩

theorem Gone.stays (hgone : Gone r) (hlisted : req.OfRoster C)
    (hnot : r.founds C channel req = false) (hok : r.perform C h channel w req = .ok (r', es)) :
    r' = r ∧ es = [] := by
  have hnone := hgone.channel
  cases req with
  | create caller device req => simp [founds, hnone] at hnot
  | join caller device action =>
    obtain ⟨-, c, hc, -⟩ := join_ok.mp hok
    simp [hnone] at hc
  | leave caller device action =>
    obtain ⟨-, c, hc, -⟩ := leave_ok.mp hok
    simp [hnone] at hc
  | invite caller device account role action =>
    cases invite_ok.mp hok with
    | inl hblocked =>
      obtain ⟨-, rfl, rfl⟩ := hblocked
      exact ⟨rfl, rfl⟩
    | inr hinvited =>
      obtain ⟨-, -, ⟨c, hc⟩, -⟩ := hinvited
      simp [hnone] at hc
  | remove caller device account action =>
    obtain ⟨-, ⟨c, hc⟩, -⟩ := remove_ok.mp hok
    simp [hnone] at hc
  | mute caller device account action on =>
    obtain ⟨-, ⟨c, hc⟩, -⟩ := mute_ok.mp hok
    simp [hnone] at hc
  | putKeys k caller device req =>
    cases putKeys_ok hok with
    | inl hsame => exact hsame
    | inr hrotated =>
      obtain ⟨c, -, hc, -⟩ := hrotated
      simp [hnone] at hc
  | succeed account successor issued sig =>
    cases succeedAccount_ok.mp hok with
    | inl hsame =>
      obtain ⟨-, rfl, rfl⟩ := hsame
      exact ⟨rfl, rfl⟩
    | inr hmoved =>
      obtain ⟨role, hrole, -⟩ := hmoved
      simp [roleOf, hgone.member] at hrole
  | _ => exact hlisted.elim

theorem create_mirror {caller device : PubKey} {req : Create} {c : ChannelRow}
    (hmirror : Mirror r d) (hc : r.channel = some c)
    (hroom : c.nextSeq.toUInt64.toNat + 1 < 2 ^ 64)
    (hnot : r.founds C channel (.create caller device req) = false)
    (htells : Tells C channel w r (.create caller device req))
    (hok : r.create C h channel w caller device req = .ok (r', es)) :
    Mirror r' (es.foldl (pull C self) d) := by
  simp only [Tells, hnot, Bool.false_eq_true, if_false] at htells
  obtain ⟨-, c', hc', hstay | ⟨hrole, hclaim, hback⟩⟩ := create_ok hnot hok
  · obtain ⟨rfl, rfl⟩ := Prod.mk.inj hstay
    exact hmirror
  · obtain rfl : c' = c := Option.some.inj (hc'.symm.trans hc)
    refine comeBack_mirror hmirror hc hroom (fun hsame => htells hrole hclaim ?_) hback
    simp [hc, hsame]

theorem Mirror.perform {c : ChannelRow} (hmirror : Mirror r d) (hc : r.channel = some c)
    (hroom : c.nextSeq.toUInt64.toNat + 1 < 2 ^ 64) (hlisted : req.OfRoster C)
    (hnot : r.founds C channel req = false) (htells : Tells C channel w r req)
    (hok : r.perform C h channel w req = .ok (r', es)) :
    Gone r' ∨ Mirror r' (es.foldl (pull C self) d) := by
  cases req with
  | create caller device req => exact .inr (create_mirror hmirror hc hroom hnot htells hok)
  | join caller device action => exact .inr (join_mirror hmirror hc hroom htells hok)
  | leave caller device action => exact leave_mirror hmirror hc hroom htells hok
  | invite caller device account role action =>
    exact .inr (invite_mirror hmirror hc hroom htells hok)
  | remove caller device account action => exact .inr (remove_mirror hmirror hc hroom htells hok)
  | mute caller device account action on => exact .inr (mute_mirror hmirror hc hroom hok)
  | putKeys k caller device req => exact .inr (rotate_mirror hmirror hc hroom hok)
  | succeed account successor issued sig =>
    exact .inr (succeed_mirror hmirror hc hroom hlisted htells hok)
  | _ => exact hlisted.elim

theorem founded_mirror (hgone : r.channel = none → r.member = ∅) (hhere : r.originRow = none)
    (hfresh : d.member = ∅ ∧ d.entry = ∅ ∧ d.epoch = some 0)
    (hfounds : r.founds C channel req = true) (htells : Tells C channel w r req)
    (hok : r.perform C h channel w req = .ok (r', es)) :
    Mirror r' (es.foldl (pull C self) d) := by
  obtain ⟨caller, device, req, base, rfl, hbase, hfound⟩ := found_of_founds hfounds hok
  have hplain : PlainInvites w caller [caller] req.invites := by
    simpa only [Tells, hfounds, if_true] using htells
  rcases hbase with ⟨rfl, hc⟩ | rfl
  · exact found_mirror hplain (hgone hc) hhere hfresh hfound
  · exact found_mirror (r := r.destroy) hplain rfl hhere hfresh hfound

end Rows

namespace Logged
variable {C : Crypto} {h : Host} {channel : Bytes32} {self : PubKey} {s : Logged} {d : Rows}

section
variable (C : Crypto) (self : PubKey) (d : Rows) (s : Logged)

def rosterStep (h : Host) (channel : Bytes32) (s : Logged) (call : RosterCall C) : Logged :=
  s.step C h channel (call.around, call.request)

/-- A fresh copy, once it stored all that was ordered. -/
def copy : Rows :=
  s.written.foldl (Rows.pull C self) d

def Agrees : Prop :=
  s.rows.channel.isSome → Rows.SameRoster s.rows (s.copy C self d)

/-- There are positions left, and a request that goes through is told in full. -/
def TellsAll (h : Host) (channel : Bytes32) (s : Logged) (call : RosterCall C) : Prop :=
  (∀ c ∈ s.rows.channel, c.nextSeq.toUInt64.toNat + 1 < 2 ^ 64) ∧
    ((s.rows.perform C h channel call.around call.request).isOk = true →
      Rows.Tells C channel call.around s.rows call.request)

def Followed : Prop :=
  Rows.Gone s.rows ∨ Rows.Mirror s.rows (s.copy C self d)

end

theorem agrees_of_followed (hfollowed : Followed C self d s) : Agrees C self d s := by
  intro hmade
  cases hfollowed with
  | inl hgone => simp [hgone.channel] at hmade
  | inr hmirror => exact hmirror.sameRoster

theorem followed_step (hfresh : d.member = ∅ ∧ d.entry = ∅ ∧ d.epoch = some 0)
    (hfollowed : Followed C self d s) {call : RosterCall C} (htells : TellsAll C h channel s call) :
    Followed C self d (s.rosterStep C h channel call) := by
  obtain ⟨hroom, htells⟩ := htells
  have hhere : s.rows.originRow = none := by
    cases hfollowed with
    | inl hgone => exact hgone.here
    | inr hmirror => exact hmirror.here
  unfold rosterStep step
  rw [if_neg (by simp [hhere])]
  cases hok : s.rows.perform C h channel call.around call.request with
  | error e => exact hfollowed
  | ok p =>
    obtain ⟨r', es⟩ := p
    have htold := htells (by rw [hok]; rfl)
    dsimp only
    cases hfounds : s.rows.founds C channel call.request with
    | true =>
      rw [if_pos rfl]
      have hempty : s.rows.channel = none → s.rows.member = ∅ := by
        intro hnone
        cases hfollowed with
        | inl hgone => exact hgone.member
        | inr hmirror =>
          have hmade := hmirror.made
          simp [hnone] at hmade
      exact .inr (Rows.founded_mirror hempty hhere hfresh hfounds htold hok)
    | false =>
      rw [if_neg Bool.false_ne_true]
      unfold Followed copy
      rw [List.foldl_append]
      cases hfollowed with
      | inl hgone =>
        obtain ⟨rfl, rfl⟩ := hgone.stays call.listed hfounds hok
        exact .inl hgone
      | inr hmirror =>
        obtain ⟨c, hc⟩ := Option.isSome_iff_exists.mp hmirror.made
        exact hmirror.perform hc (hroom c hc) call.listed hfounds htold hok

/-- From no channel on, whatever is asked by whoever, a fresh copy that stores all that was
ordered has the origin's roster, if every request that goes through is told in full. -/
theorem roster_agrees (C : Crypto) (h : Host) (channel self : Bytes32) {r d : Rows}
    {incarnation : Bytes32} {origin : PubKey} {windowSecs : UInt32} {now : UInt64}
    (hgone : Rows.Gone r)
    (hadopt : Rows.empty.adopt incarnation origin windowSecs now = .ok d)
    {calls : List (RosterCall C)}
    (htells : Each (TellsAll C h channel) (rosterStep C h channel) ⟨r, []⟩ calls) :
    Always (Agrees C self d) (rosterStep C h channel) ⟨r, []⟩ calls := by
  have hfresh := Rows.adopt_fresh hadopt
  have hstart : Followed C self d ⟨r, []⟩ := .inl hgone
  have hkept := htells.always (P := Followed C self d)
    (fun _ _ hfollowed htold => followed_step hfresh hfollowed htold) hstart
  exact hkept.imp fun _ => agrees_of_followed

section Example

def madeWith (role : Role) : Request :=
  let opening := signedAction Event.created 7 7 (constitution .toy .priv 86400 0 "" "") 0 genesis
  let adding := signedAction Event.added 5 7 [role.toByte] 1 opening.2
  .create 7 (Crypto.toy.publicKey 8) ⟨.priv, 86400, 0, "", "", 0, [⟨5, role⟩],
    [opening.1, adding.1]⟩

def madeThenMuted : Request :=
  let opening := signedAction Event.created 7 7 (constitution .toy .priv 86400 0 "" "") 0 genesis
  let adding := signedAction Event.added 5 7 [Role.member.toByte] 1 opening.2
  .mute 7 (Crypto.toy.publicKey 8) 5 (signedAction Event.muted 5 7 [] 2 adding.2).1 true

def freshCopy : Rows :=
  (Rows.empty.adopt 0 1 86400 20).toOption.getD .empty

theorem freshCopy_ok : Rows.empty.adopt 0 1 86400 20 = .ok freshCopy := rfl

theorem gone_empty : Rows.Gone .empty := ⟨rfl, rfl, rfl⟩

abbrev exchangeOne : Host := ⟨1, none, 50000⟩

/-- A member invited, and then muted: three entries. -/
theorem invited_agrees :
    (run (rosterStep .toy exchangeOne 0) ⟨.empty, []⟩
      [⟨.clear 10, madeWith .member, trivial⟩, ⟨.clear 11, madeThenMuted, trivial⟩]).written.map
        (·.seq) = [1, 2, 3] ∧
    Always (Agrees .toy 2 freshCopy) (rosterStep .toy exchangeOne 0) ⟨.empty, []⟩
      [⟨.clear 10, madeWith .member, trivial⟩, ⟨.clear 11, madeThenMuted, trivial⟩] := by
  refine ⟨by decide +kernel, roster_agrees .toy exchangeOne 0 2 gone_empty freshCopy_ok ?_⟩
  refine ⟨⟨by simp [Rows.empty], fun _ => ?_⟩, ⟨by decide +kernel, fun _ => trivial⟩, trivial⟩
  simp [Rows.Tells, madeWith, Rows.founds, Rows.empty, Rows.PlainInvites]

/-- 5 is an admin at the origin, and a member at every copy: the entry does not say which. -/
theorem admin_invited_differs : ¬ ∀ (C : Crypto) (h : Host) (channel self : Bytes32) (r d : Rows)
    (incarnation : Bytes32) (origin : PubKey) (windowSecs : UInt32) (now : UInt64)
    (calls : List (RosterCall C)), Rows.Gone r →
    Rows.empty.adopt incarnation origin windowSecs now = .ok d →
    Always (Agrees C self d) (rosterStep C h channel) ⟨r, []⟩ calls := by
  intro hall
  have hagrees := hall .toy exchangeOne 0 2 .empty freshCopy 0 1 86400 20
    [⟨.clear 10, madeWith .admin, trivial⟩] gone_empty freshCopy_ok
  have hrole := (hagrees.2 (by decide +kernel)).role 5
  exact absurd hrole (by decide +kernel)

end Example

end Logged
end Sqex.Exchange
