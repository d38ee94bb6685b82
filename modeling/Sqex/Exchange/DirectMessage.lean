import Sqex.Exchange.OriginRoster

/-! A direct message and its two accounts: whom each operation may seat in a channel, and when
nobody but the two ever has a row in one that is named after them. -/
namespace Sqex.Exchange
open Std Runs
variable {now : UInt64} {place : Place} {e : Ordered} {arg : Bytes}

/-- Who loses its place or its voice by a request that makes no channel anew. -/
def Request.silences (who : PubKey) : Request → Bool
  | .leave caller _ _ => caller == who
  | .remove _ _ account _ => account == who
  | .mute _ _ account _ on => account == who && on
  | .succeed account _ _ _ => account == who
  | .close _ => true
  | _ => false

namespace Rows
variable {C : Crypto} {h : Host} {channel : Bytes32} {w : Around} {r r' r₁ : Rows}
  {es : List Ordered} {who x caller device : PubKey} {seated : Option PubKey}

def seats (C : Crypto) (channel : Bytes32) (w : Around) (r : Rows) : Request → Option PubKey
  | .create caller _ req =>
    if r.dmClaim C channel caller req.invites = .returning then some caller else none
  | .join caller _ _ => if r.channel.any (·.visibility == .pub) then some caller else none
  | .welcome account => if r.channel.any (·.visibility == .pub) then some account else none
  | .invite caller _ account _ _ =>
    if w.blocked account caller || r.isDirectMessage C channel then none else some account
  | .succeed account successor _ _ => if (r.roleOf account).isSome then some successor else none
  | _ => none

/-- What no request changes of a channel's row but by making the channel anew. -/
def ident (r : Rows) : Option (Visibility × Bytes32) :=
  r.channel.map fun c => (c.visibility, c.incarnation)

/-- Whether an account is in the channel and not muted. -/
def voices (r : Rows) (who : PubKey) : Bool := r.member[who]?.any fun m => m.present && !m.muted

/-- A change of the roster that may seat one account, and takes a place or a voice from none but
those that lose it. -/
structure Reseats (r r' : Rows) (seated : Option PubKey) (lost : PubKey → Bool) : Prop where
  member : ∀ x ∈ r'.member, x ∈ r.member ∨ seated = some x
  voices : ∀ x, r.voices x = true → lost x = false → r'.voices x = true

/-- What a request that makes no channel anew does: the channel goes, or its roster changes. -/
structure Turns (r r' : Rows) (seated : Option PubKey) (lost : PubKey → Bool) : Prop where
  ident : r'.channel = none ∨ r'.ident = r.ident
  member : ∀ x ∈ r'.member, x ∈ r.member ∨ seated = some x
  bare : (r.channel = none → r.member = ∅) → r'.channel = none → r'.member = ∅
  voices : ∀ x, r.voices x = true → lost x = false → r'.voices x = true ∧ r'.ident = r.ident

section Turning
variable {lost : PubKey → Bool}

theorem mem_member : x ∈ r.member ↔ (r.member[x]?).isSome = true :=
  ExtTreeMap.mem_iff_isSome_getElem?

/-- One account's row is changed. -/
theorem reseats_of_row (change : Option MemberRow → Option MemberRow)
    (hrow : ∀ x, r'.member[x]? = if who = x then change r.member[x]? else r.member[x]?)
    (hnew : seated = some who ∨ change none = none)
    (hvoice : lost who = true ∨ ∀ m : MemberRow, m.present = true → m.muted = false →
      (change (some m)).any (fun m => m.present && !m.muted) = true) :
    Reseats r r' seated lost := by
  refine ⟨fun x hx => ?_, fun x hx hkept => ?_⟩
  · rw [mem_member, hrow] at hx
    rw [mem_member]
    by_cases hwho : who = x
    · subst hwho
      refine hnew.symm.imp_left fun hnone => ?_
      rw [if_pos rfl] at hx
      cases hm : r.member[who]? with
      | none => simp [hm, hnone] at hx
      | some m => rfl
    · rw [if_neg hwho] at hx
      exact .inl hx
  · rw [Rows.voices, hrow]
    by_cases hwho : who = x
    · subst hwho
      rw [if_pos rfl]
      have hall := hvoice.resolve_left (by simp [hkept])
      rw [Rows.voices] at hx
      cases hm : r.member[who]? with
      | none => simp [hm] at hx
      | some m =>
        rw [hm, Option.any_some, Bool.and_eq_true, Bool.not_eq_true'] at hx
        exact hall m hx.1 hx.2
    · rw [if_neg hwho]
      exact hx

theorem reseats_same (hmember : r'.member = r.member) : Reseats r r' seated lost :=
  ⟨fun x hx => .inl (hmember ▸ hx), fun x hx _ => by rwa [Rows.voices, hmember]⟩

theorem seat_reseats {role : Role} {joined : UInt64} :
    Reseats r (r.seat who role joined) (some who) lost :=
  reseats_of_row (fun m => some (seatedRow role joined m)) (r.seat_member who · role joined)
    (.inl rfl) (.inr fun m _ hfree => by simp [seatedRow, hfree])

theorem unseat_reseats (hlost : lost who = true) : Reseats r (r.unseat who) seated lost :=
  reseats_of_row (fun _ => none) (r.unseat_member who) (.inr rfl) (.inl hlost)

theorem alter_reseats {f : MemberRow → MemberRow} (hvoice : lost who = true ∨
    ∀ m : MemberRow, m.present = true → m.muted = false →
      (f m).present = true ∧ (f m).muted = false) : Reseats r (r.alter who f) seated lost :=
  reseats_of_row (Option.map f) (r.alter_member who · f) (.inr rfl)
    (hvoice.imp_right fun hall m hpresent hfree => by simp [hall m hpresent hfree])

theorem ident_alter (f : MemberRow → MemberRow) : (r.alter who f).ident = r.ident := by
  unfold alter
  split <;> rfl

theorem turns_same (hident : r'.ident = r.ident) (hroster : Reseats r r' seated lost)
    (hless : ∀ x ∈ r'.member, x ∈ r.member) : Turns r r' seated lost where
  ident := .inr hident
  member := hroster.member
  bare hbare hgone := by
    have hnone : r.channel = none := by
      rw [Rows.ident, Rows.ident, hgone] at hident
      simpa using hident.symm
    refine ExtTreeMap.ext_getElem? fun x => ?_
    have hx : x ∉ r'.member := fun hx => by simpa [hbare hnone] using hless x hx
    simpa using hx
  voices x hx hkept := ⟨hroster.voices x hx hkept, hident⟩

theorem turns_refl (hident : r'.ident = r.ident) (hmember : r'.member = r.member) :
    Turns r r' seated lost :=
  turns_same hident (reseats_same hmember) fun _ hx => hmember ▸ hx

theorem turns_destroy (hall : ∀ x, r.voices x = true → lost x = true) :
    Turns r r₁.destroy seated lost where
  ident := .inl rfl
  member x hx := by simp [destroy] at hx
  bare _ _ := rfl
  voices x hx hkept := by simp [hall x hx] at hkept

theorem Turns.trans (hfirst : Turns r r₁ seated lost) (hlater : Turns r₁ r' seated lost) :
    Turns r r' seated lost where
  ident := by
    obtain hgone | hsame := hlater.ident
    · exact .inl hgone
    · refine hfirst.ident.imp (fun hnone => ?_) hsame.trans
      simpa [Rows.ident, hnone] using hsame
  member x hx := (hlater.member x hx).elim (hfirst.member x) .inr
  bare hbare := hlater.bare (hfirst.bare hbare)
  voices x hx hkept := by
    obtain ⟨hstill, hsame⟩ := hfirst.voices x hx hkept
    obtain ⟨hvoices, hident⟩ := hlater.voices x hstill hkept
    exact ⟨hvoices, hident.trans hsame⟩

theorem ident_appended {seed : Option Bytes32} {posted : UInt64} {entryHash : Bytes32}
    {row : Receipted → EntryRow} {c : ChannelRow}
    (happended : Appended C seed place posted entryHash row r r' e c) :
    r'.ident = r.ident ∧ r'.member = r.member ∧ r'.channel.isSome = true := by
  rw [happended.rows, ident, ident, happended.channel]
  exact ⟨rfl, rfl, rfl⟩

theorem turns_appended {seed : Option Bytes32} {posted : UInt64} {entryHash : Bytes32}
    {row : Receipted → EntryRow} {c : ChannelRow}
    (happended : Appended C seed place posted entryHash row r₁ r' e c) (hident : r₁.ident = r.ident)
    (hroster : Reseats r r₁ seated lost) :
    Turns r r' seated lost := by
  obtain ⟨hsame, hmember, hsome⟩ := ident_appended happended
  refine ⟨.inr (hsame.trans hident), fun x hx => hroster.member x (hmember ▸ hx),
    fun _ hgone => ?_, fun x hx hkept => ⟨?_, hsame.trans hident⟩⟩
  · rw [hgone] at hsome
    cases hsome
  · rw [Rows.voices, hmember]
    exact hroster.voices x hx hkept

theorem turns_between {actionPlace : Place} {s : System}
    (hwrite : r₁.writeSystemBetween C h actionPlace place s arg now = .ok (r', e))
    (hident : r₁.ident = r.ident) (hroster : Reseats r r₁ seated lost) :
    Turns r r' seated lost := by
  simp only [writeSystemBetween, bind_eq_ok, Prod.exists, checkAction_ok, order_ok] at hwrite
  obtain ⟨input, r₂, ⟨-, -, -, rfl⟩, c, happended⟩ := hwrite
  exact turns_appended happended hident ⟨hroster.member, hroster.voices⟩

theorem turns_written {s : System} (hwrite : r₁.writeSystem C h channel s arg now = .ok (r', es))
    (hident : r₁.ident = r.ident) (hroster : Reseats r r₁ seated lost) :
    Turns r r' seated lost := by
  obtain ⟨c, input, e, -, hacted⟩ := writeSystem_ok.mp hwrite
  exact turns_appended hacted.appended hident ⟨hroster.member, hroster.voices⟩

theorem role_of_voices (hx : r.voices x = true) : (r.roleOf x).isSome = true := by
  rw [roleOf_isSome_iff]
  rw [Rows.voices] at hx
  cases hm : r.member[x]? with
  | none => simp [hm] at hx
  | some m => exact ⟨m, rfl, by simp_all⟩

end Turning

section Requests
variable {account : PubKey} {action : Action}

theorem leave_turns (hok : r.leave C h channel w caller device action = .ok (r', es)) :
    Turns r r' seated (caller == ·) := by
  obtain ⟨-, c, -, role, hrole, -, r₁, hwrite, rfl⟩ := leave_ok.mp hok
  have hstood : (standDown c r caller role).ident = r.ident := by
    unfold standDown
    split
    · exact ident_alter _
    · rfl
  have hleft : Turns r r₁ seated (caller == ·) := by
    refine turns_written hwrite hstood ?_
    unfold standDown
    split
    · exact alter_reseats (.inl (by simp))
    · exact unseat_reseats (by simp)
  split_ifs with hlast
  · unfold lastOut
    cases hc : r₁.channel with
    | none => exact hleft
    | some c₁ =>
      dsimp only
      split_ifs
      · exact hleft.trans (turns_refl (by simp [ident, hc]) rfl)
      · refine turns_destroy fun x hx => ?_
        by_contra hother
        have hcaller : (r.roleOf caller).isSome = true := by rw [hrole]; rfl
        exact counts_ne_one (by simpa using hother) hcaller (role_of_voices hx) hlast
  · exact hleft

theorem sweep_turns {lost : PubKey → Bool} (now : UInt64) :
    Turns r (r.sweep h now) seated lost := by
  have hpruned : Turns r (r.prune h now) seated lost := turns_refl rfl rfl
  unfold sweep
  dsimp only
  cases hc : (r.prune h now).channel with
  | none => exact hpruned
  | some c =>
    dsimp only
    split_ifs with habandoned
    · split
      · exact hpruned.trans (turns_refl (by simp [ident, hc]) rfl)
      · split_ifs
        · refine turns_destroy fun x hx => ?_
          -- an account that is present is counted
          have hcounts : (r.prune h now).counts = r.counts := rfl
          obtain ⟨m, hm, hpresent⟩ := roleOf_isSome_iff.mp (role_of_voices hx)
          have hmem : m ∈ r.member.toList.map Prod.snd :=
            List.mem_map.mpr ⟨(x, m), ExtTreeMap.mem_toList_iff_getElem?_eq_some.mpr hm, rfl⟩
          have hzero : r.counts.1 = 0 := hcounts ▸ habandoned.1
          exact absurd hpresent (by simpa using List.countP_eq_zero.mp hzero m hmem)
        · exact hpruned
    · exact hpruned.trans (turns_refl (by simp [ident, hc]) rfl)

theorem create_turns {lost : PubKey → Bool} {req : Create}
    (hnot : r.founds C channel (.create caller device req) = false)
    (hok : r.create C h channel w caller device req = .ok (r', es)) :
    Turns r r' (r.seats C channel w (.create caller device req)) lost := by
  have hstay : (r, []) = (r', es) →
      Turns r r' (r.seats C channel w (.create caller device req)) lost := by
    intro heq
    obtain ⟨rfl, -⟩ := Prod.mk.inj heq
    exact turns_refl rfl rfl
  obtain ⟨-, c, -, hsame | ⟨-, hclaim, hback⟩⟩ := create_ok hnot hok
  · exact hstay hsame
  · simp only [comeBack] at hback
    split at hback
    · exact hstay (Except.ok.inj hback)
    · split at hback
      · rw [seats, hclaim, if_pos rfl]
        exact turns_written hback rfl seat_reseats
      · cases hback

theorem rehome_turns {lost : PubKey → Bool} {subject : PubKey} {domain : String}
    {away : Option UInt64} {minAway : UInt64}
    (hok : r.rehome C h channel w caller device subject domain action away minAway =
      .ok (r', es)) : Turns r r' seated lost := by
  simp only [rehome, bind_eq_ok, channelRow_ok, refuseIf_eq_ok, exists_const] at hok
  obtain ⟨c, -, -, -, hok⟩ := hok
  split at hok
  · simp only [moveAway, bind_eq_ok, refuseIf_eq_ok, exists_const, Prod.exists, pure_eq_ok,
      Prod.mk.injEq] at hok
    obtain ⟨-, -, r₁, e, hwrite, rfl, -⟩ := hok
    have hturns : Turns r r₁ seated lost := turns_between hwrite rfl (reseats_same rfl)
    exact ⟨hturns.ident, hturns.member, hturns.bare, hturns.voices⟩
  · simp only [takeOver, bind_eq_ok, refuseIf_eq_ok, exists_const, Prod.exists, pure_eq_ok,
      Prod.mk.injEq] at hok
    obtain ⟨-, -, -, r₁, e, hwrite, rfl, -⟩ := hok
    obtain ⟨chain, marks, hframe⟩ := r.rebuildStanding_frame
    rw [hframe] at hwrite
    have hturns : Turns r r₁ seated lost := turns_between hwrite rfl (reseats_same rfl)
    exact ⟨hturns.ident, hturns.member, hturns.bare, hturns.voices⟩

theorem succeed_turns {successor : PubKey} {issued : UInt64} {sig : Bytes64}
    (hok : r.succeedAccount C h channel account successor issued sig now = .ok (r', es)) :
    Turns r r' (if (r.roleOf account).isSome then some successor else none) (account == ·) := by
  unfold succeedAccount at hok
  split at hok
  · next role hrole _ =>
    obtain ⟨c, e, -, happended⟩ := writeSuccession_ok.mp hok
    rw [hrole]
    refine turns_appended happended rfl ⟨fun x hx => ?_, fun x hx hkept => ?_⟩
    · rw [mem_member, moveMember_member] at hx
      rw [mem_member]
      split_ifs at hx with haccount hsuccessor
      · cases hx
      · exact .inr (by simp [hsuccessor])
      · exact .inl hx
    · rw [Rows.voices, moveMember_member, if_neg (by simpa using hkept)]
      rw [Rows.voices] at hx
      split_ifs
      · cases hm : r.member[x]? with
        | none => simp [hm] at hx
        | some m => simp_all [movedRow]
      · exact hx
  · obtain ⟨rfl, -⟩ := Prod.mk.inj (Except.ok.inj hok)
    exact turns_refl rfl rfl

theorem perform_turns {req : Request} (hnot : r.founds C channel req = false)
    (hok : r.perform C h channel w req = .ok (r', es)) :
    Turns r r' (r.seats C channel w req) (req.silences ·) := by
  cases req with
  | create caller device req => exact create_turns hnot hok
  | welcome account =>
    obtain ⟨hdone, -⟩ := quiet_eq_ok.mp hok
    obtain ⟨c, hc, hpub, -, rfl⟩ := welcome_ok.mp hdone
    have hseat : Reseats r (r.seat account .member w.now) (some account)
        (Request.silences · (.welcome account)) := seat_reseats
    have hvisible : r.channel.any (·.visibility == .pub) = true := by simp [hc, hpub]
    rw [seats, if_pos hvisible]
    have hident : Rows.ident { r.seat account .member w.now with
        channel := some { c with emptySince := none } } = r.ident := by
      simp [ident, hc]
    exact ⟨.inr hident, hseat.member, fun _ hgone => by simp at hgone,
      fun x hx hkept => ⟨hseat.voices x hx hkept, hident⟩⟩
  | join caller device action =>
    obtain ⟨-, c, hc, hpub, -, hwrite⟩ := join_ok.mp hok
    simp only [seats, hc, hpub, Option.any_some, beq_self_eq_true, if_true]
    exact turns_written hwrite rfl seat_reseats
  | leave caller device action => exact leave_turns hok
  | post account device req =>
    obtain ⟨-, -, -, c, r₁, e, -, hposted, rfl⟩ := post_ok hok
    obtain ⟨-, r₂, rfl, happended⟩ := hposted
    have hordered : Turns r r₂ none (Request.silences · (.post account device req)) :=
      turns_appended happended rfl (reseats_same rfl)
    have hmarked : Turns (r₂.bump device req.epoch req.msgSeq)
        ((r₂.bump device req.epoch req.msgSeq).alter account fun m => { m with posted := true })
        none (Request.silences · (.post account device req)) :=
      turns_same (ident_alter _)
        (alter_reseats (f := fun m => { m with posted := true })
          (.inr fun _ hpresent hfree => ⟨hpresent, hfree⟩))
        fun x hx => by
          rw [mem_member, alter_member] at hx
          rw [mem_member]
          split_ifs at hx
          · simpa using hx
          · exact hx
    have hcounted : Turns r₂ (r₂.bump device req.epoch req.msgSeq) none
        (Request.silences · (.post account device req)) := turns_refl rfl rfl
    exact (hordered.trans hcounted).trans (hmarked.trans (turns_refl rfl rfl))
  | setDirectory caller device name topic action =>
    obtain ⟨c, hc, -, -, hwrite⟩ := setDirectory_ok.mp hok
    exact turns_written hwrite (by simp [ident, hc]) (reseats_same rfl)
  | retain caller device retentionSecs maxEntries action =>
    obtain ⟨-, -, c, hc, -, r₁, hwrite, rfl⟩ := retain_ok.mp hok
    have hset : Turns r r₁ none
        (Request.silences · (.retain caller device retentionSecs maxEntries action)) :=
      turns_written hwrite (by simp [ident, hc]) (reseats_same rfl)
    exact hset.trans (turns_refl rfl rfl)
  | close caller =>
    obtain ⟨hdone, -⟩ := quiet_eq_ok.mp hok
    obtain ⟨-, -, rfl⟩ := close_ok.mp hdone
    exact turns_destroy fun _ _ => rfl
  | sweep =>
    obtain ⟨rfl, -⟩ := Prod.mk.inj (Except.ok.inj hok)
    exact sweep_turns w.now
  | invite caller device account role action =>
    cases invite_ok.mp hok with
    | inl hblocked =>
      obtain ⟨-, rfl, -⟩ := hblocked
      exact turns_refl rfl rfl
    | inr hinvited =>
      obtain ⟨hblocked, -, -, -, hdirect, -, -, hwrite⟩ := hinvited
      simp only [seats, hblocked, hdirect, Bool.false_or, Bool.false_eq_true, if_false]
      exact turns_written hwrite rfl (reseats_of_row (fun m => some (enrolledRow role w.now m))
        (r.enroll_member account · role w.now) (.inl rfl)
        (.inr fun m _ hfree => by simp [enrolledRow, hfree]))
  | mute caller device account action on =>
    obtain ⟨-, -, -, -, -, r₁, hwrite, rfl⟩ := mute_ok.mp hok
    have hlost : Request.silences account (.mute caller device account action on) = true ∨
        ∀ m : MemberRow, m.present = true → m.muted = false →
          ({ m with muted := on } : MemberRow).present = true ∧
            ({ m with muted := on } : MemberRow).muted = false := by
      cases on with
      | true => exact .inl (by simp [Request.silences])
      | false => exact .inr fun m hpresent _ => ⟨hpresent, rfl⟩
    refine (turns_written hwrite rfl (reseats_same rfl)).trans
      (turns_same (ident_alter _) (alter_reseats hlost) fun x hx => ?_)
    rw [mem_member, alter_member] at hx
    rw [mem_member]
    split_ifs at hx
    · simpa using hx
    · exact hx
  | replicate caller device peer action authorise =>
    obtain ⟨-, -, -, r₁, hwrite, rfl⟩ := replicate_ok.mp hok
    have hturns : Turns r r₁ none
        (Request.silences · (.replicate caller device peer action authorise)) :=
      turns_written hwrite rfl (reseats_same rfl)
    exact ⟨hturns.ident, hturns.member, hturns.bare, hturns.voices⟩
  | rehome caller device subject domain action away minAway => exact rehome_turns hok
  | remove caller device account action =>
    obtain ⟨-, -, -, -, -, -, hwrite⟩ := remove_ok.mp hok
    exact turns_written hwrite rfl (unseat_reseats (by simp [Request.silences]))
  | putKeys k caller device req =>
    cases putKeys_ok hok with
    | inl hsame =>
      obtain ⟨rfl, -⟩ := hsame
      exact turns_refl rfl rfl
    | inr hrotated =>
      obtain ⟨c, action, hc, -, -, hwrite⟩ := hrotated
      exact turns_written hwrite (by simp [ident, hc]) (reseats_same rfl)
  | signal caller =>
    obtain ⟨hdone, -⟩ := quiet_eq_ok.mp hok
    obtain ⟨-, -, rfl⟩ := map_eq_ok.mp hdone
    exact turns_refl rfl rfl
  | succeed account successor issued sig => exact succeed_turns hok
  | redact caller target =>
    obtain ⟨hdone, -⟩ := quiet_eq_ok.mp hok
    rw [redact_ok hdone]
    unfold blank
    split <;> exact turns_refl rfl rfl

theorem mem_seatNew {role : Role} {joined : UInt64}
    (hx : x ∈ (r.seatNew who role joined).member) : x ∈ r.member ∨ who = x := by
  by_cases hwho : who = x
  · exact .inr hwho
  · rw [mem_member, seatNew_member, if_neg hwho, ← mem_member] at hx
    exact .inl hx

theorem ident_written {s : System} (hwrite : r.writeSystem C h channel s arg now = .ok (r', es)) :
    r'.ident = r.ident := by
  obtain ⟨c, input, e, -, hacted⟩ := writeSystem_ok.mp hwrite
  exact (ident_appended hacted.appended).1

theorem addInvitees_ident {invitees : List (Invitee × Action)}
    (hok : r.addInvitees C h channel w caller device invitees = .ok (r', es)) :
    r'.ident = r.ident := by
  induction invitees generalizing r es with
  | nil =>
    obtain ⟨rfl, -⟩ := Prod.mk.inj (Except.ok.inj hok)
    rfl
  | cons p rest ih =>
    unfold addInvitees at hok
    split_ifs at hok with hblocked
    · exact ih hok
    · simp only [bind_eq_ok, Prod.exists, pure_eq_ok, Prod.mk.injEq] at hok
      obtain ⟨r₁, first, hwrite, r₂, more, hrest, rfl, -⟩ := hok
      have hseated := ident_written hwrite
      exact (ih hrest).trans hseated

theorem found_ident {req : Create}
    (hok : r.found C h channel w caller device req = .ok (r', es)) :
    r'.ident = some (req.visibility, req.incarnation) := by
  obtain ⟨c, opening, actions, r₁, first, more, -, -, -, -, -, rfl, hfirst, hmore⟩ := found_ok hok
  have hmade := ident_written hfirst
  exact (addInvitees_ident hmore).trans hmade

theorem addInvitees_member {invitees : List (Invitee × Action)}
    (hok : r.addInvitees C h channel w caller device invitees = .ok (r', es)) :
    ∀ x ∈ r'.member,
      x ∈ r.member ∨ ∃ p ∈ invitees, p.1.account = x ∧ w.blocked x caller = false := by
  induction invitees generalizing r es with
  | nil =>
    obtain ⟨rfl, -⟩ := Prod.mk.inj (Except.ok.inj hok)
    exact fun _ hx => .inl hx
  | cons p rest ih =>
    unfold addInvitees at hok
    intro x hx
    split_ifs at hok with hblocked
    · rcases ih hok x hx with hold | ⟨q, hq, hx⟩
      · exact .inl hold
      · exact .inr ⟨q, List.mem_cons_of_mem _ hq, hx⟩
    · simp only [bind_eq_ok, Prod.exists, pure_eq_ok, Prod.mk.injEq] at hok
      obtain ⟨r₁, first, hwrite, r₂, more, hrest, rfl, -⟩ := hok
      rcases ih hrest x hx with hold | ⟨q, hq, hx⟩
      · rw [(writeSystem_same hwrite).1] at hold
        rcases mem_seatNew hold with hbefore | rfl
        · exact .inl hbefore
        · exact .inr ⟨p, by simp, rfl, by simpa using hblocked⟩
      · exact .inr ⟨q, List.mem_cons_of_mem _ hq, hx⟩

theorem found_member {req : Create}
    (hok : r.found C h channel w caller device req = .ok (r', es)) :
    r'.channel.isSome ∧ ∀ x ∈ r'.member, x ∈ r.member ∨ caller = x ∨
      ∃ i ∈ req.invites, i.account = x ∧ w.blocked x caller = false := by
  have hmade := found_ident hok
  obtain ⟨c, opening, actions, r₁, first, more, -, -, -, -, -, -, hfirst, hmore⟩ := found_ok hok
  refine ⟨by simpa [ident] using congrArg Option.isSome hmade, fun x hx => ?_⟩
  rcases addInvitees_member hmore x hx with hold | ⟨p, hp, haccount, hblocked⟩
  · rw [(writeSystem_same hfirst).1] at hold
    rcases mem_seatNew hold with hbefore | hcaller
    · exact .inl hbefore
    · exact .inr (.inl hcaller)
  · exact .inr (.inr ⟨p.1, (List.of_mem_zip hp).1, haccount, hblocked⟩)

end Requests

end Rows

def Request.madeBy (a b : PubKey) : Request → Bool
  | .create caller _ req =>
    caller == a && req.invites.any (·.account == b) ||
      caller == b && req.invites.any (·.account == a)
  | _ => false

def Request.invited (w : Around) : Request → List PubKey
  | .create caller _ req =>
    (req.invites.map (·.account)).filter fun account => !w.blocked account caller
  | _ => []

/-- The rows of the identifier two accounts' direct message has, and whether the channel that
is there was made by one of them, naming the other. -/
structure Paired where
  rows : Rows
  theirs : Bool

namespace Paired
variable {C : Crypto} {h : Host} {a b : PubKey} {s : Paired} {call : Around × Request}

def step (C : Crypto) (h : Host) (a b : PubKey) (s : Paired) (call : Around × Request) : Paired :=
  let channel := directMessageId C a b
  match s.rows.perform C h channel call.1 call.2 with
  | .error _ => s
  | .ok (rows, _) =>
    ⟨rows, if s.rows.founds C channel call.2 then call.2.madeBy a b
      else s.theirs && rows.channel.isSome⟩

def Between (a b : PubKey) (s : Paired) : Prop :=
  s.theirs = true → ∀ x ∈ s.rows.member, x = a ∨ x = b

/-- A request of either of them that makes the channel invites nobody else, and while it stands
no request seats anybody else. -/
def OnlyTwo (C : Crypto) (a b : PubKey) (s : Paired) (call : Around × Request) : Prop :=
  let channel := directMessageId C a b
  if s.rows.founds C channel call.2 then
    call.2.madeBy a b = true → ∀ x ∈ call.2.invited call.1, x = a ∨ x = b
  else s.theirs = true → ∀ x ∈ s.rows.seats C channel call.1 call.2, x = a ∨ x = b

structure Kept (a b : PubKey) (s : Paired) : Prop where
  bare : s.rows.channel = none → s.rows.member = ∅
  between : Between a b s

theorem founded_member {w : Around} {req : Request} {r r' : Rows} {es : List Ordered}
    {channel : Bytes32} (hbare : r.channel = none → r.member = ∅)
    (hfounds : r.founds C channel req = true) (hok : r.perform C h channel w req = .ok (r', es)) :
    r'.channel.isSome ∧
      (req.madeBy a b = true → (∀ x ∈ req.invited w, x = a ∨ x = b) →
        ∀ x ∈ r'.member, x = a ∨ x = b) := by
  obtain ⟨caller, device, req, base, rfl, hbase, hfound⟩ := Rows.found_of_founds hfounds hok
  have hempty : base.member = ∅ := by
    rcases hbase with ⟨rfl, hc⟩ | rfl
    · exact hbare hc
    · rfl
  obtain ⟨hsome, hmember⟩ := Rows.found_member hfound
  refine ⟨hsome, fun hmade honly x hx => ?_⟩
  rcases hmember x hx with hold | rfl | ⟨i, hi, rfl, hblocked⟩
  · simp [hempty] at hold
  · simp only [Request.madeBy, Bool.or_eq_true, Bool.and_eq_true, beq_iff_eq] at hmade
    rcases hmade with ⟨ha, -⟩ | ⟨hb, -⟩
    · exact .inl ha
    · exact .inr hb
  · refine honly i.account ?_
    simp only [Request.invited, List.mem_filter, List.mem_map]
    exact ⟨⟨i, hi, rfl⟩, by simp [hblocked]⟩

theorem Kept.step (hkept : Kept a b s) (honly : OnlyTwo C a b s call) :
    Kept a b (s.step C h a b call) := by
  unfold Paired.step
  unfold OnlyTwo at honly
  dsimp only at honly ⊢
  cases hok : s.rows.perform C h (directMessageId C a b) call.1 call.2 with
  | error e => exact hkept
  | ok p =>
    obtain ⟨rows, es⟩ := p
    cases hfounds : s.rows.founds C (directMessageId C a b) call.2 with
    | true =>
      obtain ⟨hthere, hmember⟩ := founded_member hkept.bare hfounds hok
      rw [if_pos hfounds] at honly
      refine ⟨fun hnone => ?_, fun hmade => ?_⟩
      · have hgone : rows.channel = none := hnone
        rw [hgone] at hthere
        cases hthere
      · have hnew : call.2.madeBy a b = true := by simpa [hfounds] using hmade
        exact hmember hnew (honly hnew)
    | false =>
      have hmoves := Rows.perform_turns hfounds hok
      rw [if_neg (by simp [hfounds])] at honly
      refine ⟨hmoves.bare hkept.bare, fun hstill x hx => ?_⟩
      have htheirs : s.theirs = true := by
        have hboth : (s.theirs && rows.channel.isSome) = true := by simpa [hfounds] using hstill
        exact (Bool.and_eq_true_iff.mp hboth).1
      rcases hmoves.member x hx with hold | hseated
      · exact hkept.between htheirs x hold
      · exact honly htheirs x hseated

/-- Over any run of requests, by any callers in any order, in which nobody but the two is seated
in the channel one of them made for both, nobody but the two has a row in it until it is gone. -/
theorem stays_between (C : Crypto) (h : Host) (a b : PubKey) {r : Rows}
    (hbare : r.channel = none → r.member = ∅) {calls : List (Around × Request)}
    (honly : Each (OnlyTwo C a b) (step C h a b) ⟨r, false⟩ calls) :
    Always (Between a b) (step C h a b) ⟨r, false⟩ calls := by
  have hstart : Kept a b ⟨r, false⟩ := ⟨hbare, fun hmade => by cases hmade⟩
  exact (honly.always (fun _ _ hkept honly => hkept.step honly) hstart).imp fun _ => Kept.between

section Example

/-- The stand-in with every digest 0: every link is the first, and every pair's channel is 0. -/
def flatDigest : Crypto := { Crypto.toy with sha256 := fun _ => 0 }

def act (event : UInt8) (subject actor : PubKey) (arg : Bytes) (chainSeq : UInt64) : Action :=
  (actedAt flatDigest 0 event subject actor arg chainSeq genesis).1

def madeThenLeft : List (Around × Request) :=
  [(.clear 10, .create 7 (flatDigest.publicKey 8) ⟨.priv, 86400, 0, "", "", 0, [⟨5, .member⟩],
      [act Event.created 7 7 (constitution flatDigest .priv 86400 0 "" "") 0,
        act Event.added 5 7 [Role.member.toByte] 1]⟩),
    (.clear 11, .leave 5 (flatDigest.publicKey 8) (act Event.left 5 5 [] 2))]

def thenInvited : Around × Request :=
  (.clear 12, .invite 7 (flatDigest.publicKey 8) 6 .member
    (act Event.added 6 7 [Role.member.toByte] 3))

def exchange : Host := ⟨1, none, 50000⟩

/-- The one who stays has a row, and nobody else. -/
theorem left_alone :
    (run (step flatDigest exchange 7 5) ⟨.empty, false⟩ madeThenLeft).rows.member.keys = [7] ∧
      Always (Between 7 5) (step flatDigest exchange 7 5) ⟨.empty, false⟩ madeThenLeft := by
  refine ⟨by decide +kernel, stays_between flatDigest exchange 7 5 (fun _ => rfl) ⟨?_, ?_, trivial⟩⟩
  · intro _ x hx
    exact .inr (by simpa [Request.invited, Around.clear, eq_comm] using hx)
  · simp [OnlyTwo, Rows.founds, Rows.seats]

/-- With one row left the guard takes the channel for another kind. -/
theorem third_invited : ¬ ∀ (C : Crypto) (h : Host) (a b : PubKey) (r : Rows)
    (calls : List (Around × Request)), (r.channel = none → r.member = ∅) →
    Always (Between a b) (step C h a b) ⟨r, false⟩ calls := by
  intro hall
  have halways := hall flatDigest exchange 7 5 .empty (madeThenLeft ++ [thenInvited]) fun _ => rfl
  have hend := always_iff_prefixes.mp halways _ List.prefix_rfl
  have htheirs : (run (step flatDigest exchange 7 5) ⟨.empty, false⟩
      (madeThenLeft ++ [thenInvited])).theirs = true := by decide +kernel
  have hseated : (6 : PubKey) ∈ (run (step flatDigest exchange 7 5) ⟨.empty, false⟩
      (madeThenLeft ++ [thenInvited])).rows.member := by decide +kernel
  exact absurd (hend htheirs 6 hseated) (by decide)

end Example

end Paired
end Sqex.Exchange
