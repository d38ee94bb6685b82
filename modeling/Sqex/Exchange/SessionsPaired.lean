import Sqex.Exchange.Sessions

/-! Sessions are by mutual consent and paired: what every run of the exchange's sessions
keeps, told by the log of what was asked and answered. -/
namespace Sqex.Sessions
open Std Session
variable {l l' : Live} {who peer x y : PubKey} {role : Session.Role}
  {order : IterOrder (Nat × Live)} {ephemeral ex : Bytes32}

structure Terms where
  first : PubKey
  second : PubKey
  ephFirst : Bytes32
  ephSecond : Bytes32
  deriving DecidableEq

def Live.terms (l : Live) : Terms := ⟨l.first, l.second, l.ephFirst, l.ephSecond⟩

namespace Terms

def party (t : Terms) : Session.Role → PubKey
  | .first => t.first
  | .second => t.second

def eph (t : Terms) : Session.Role → Bytes32
  | .first => t.ephFirst
  | .second => t.ephSecond

def Fits (t : Terms) (x : PubKey) (ex : Bytes32) (y : PubKey) (ey : Bytes32) : Prop :=
  ∃ role : Session.Role, t.party role = x ∧ t.eph role = ex ∧ t.party role.other = y ∧
    t.eph role.other = ey

end Terms

section
variable (log : List Entry) (w : World) (e : Entry) (id : Nat) (who x y : PubKey)

/-- The frames an answer took from `who` on a session, and the frames it gave. -/
def Entry.sentOn : List Frame :=
  match e.act, e.reply with
  | .send me i frame, .sent (.ok ()) => if me = who ∧ i = id then [frame] else []
  | _, _ => []

def Entry.gotOn : List Frame :=
  match e.act, e.reply with
  | .recv me i, .frames f => if me = who ∧ i = id then f.frames else []
  | _, _ => []

def framesSent : List Frame :=
  log.flatMap (·.sentOn id who)

def framesGot : List Frame :=
  log.flatMap (·.gotOn id who)

def Entry.ActsOn : Prop :=
  match e.act, e.reply with
  | .send me i _, .sent (.ok ()) => me = who ∧ i = id
  | .recv me i, .frames f => me = who ∧ i = id ∧ (f.isOpen = true ∨ f.frames ≠ [])
  | .close me i, .closed true => me = who ∧ i = id
  | _, _ => False

def Entry.Names (ex : Bytes32) (y : PubKey) (ey : Bytes32) : Prop :=
  ∃ order o, e.act = .openTo order x y ex ∧ e.reply = .opened o ∧
    o.ack.state = .established ∧ o.ack.sessionId = id ∧ o.ack.peerEphemeral = ey

def Ends : Prop :=
  ∃ e ∈ log, ∃ ex ey, e.Names id x ex y ey ∨ e.Names id y ey x ex

def Offered (ex : Bytes32) (t : Nat) : Prop :=
  ∃ e ∈ log, e.now = t ∧ ∃ order, e.act = .openTo order x y ex

def Entry.openOf (e : Entry) : Option (Bytes32 × Ack) :=
  match e.act, e.reply with
  | .openTo _ me peer ephemeral, .opened o =>
    if me = x ∧ peer = y then some (ephemeral, o.ack) else none
  | _, _ => none

def lastOpen : Option (Bytes32 × Ack) :=
  (log.filterMap (·.openOf x y)).getLast?

def Founded (l : Live) : Prop :=
  ∃ role t, Offered log (l.terms.party role) (l.terms.party role.other) (l.terms.eph role)
      l.created ∧
    Offered log (l.terms.party role.other) (l.terms.party role) (l.terms.eph role.other) t ∧
    l.created - t ≤ sessionTtl

def Live.Between (l : Live) (x y : PubKey) : Prop :=
  ∃ role : Session.Role, l.terms.party role = x ∧ l.terms.party role.other = y

/-- At most one open session for a pair, in whichever order it is held. -/
def Inner.OneOpen (s : Inner) : Prop :=
  ∀ (i j : Nat) (a b : Live), s.sessions[i]? = some a → s.sessions[j]? = some b →
    a.isOpen = true → b.isOpen = true → a.Between b.first b.second → i = j

def Live.Capped (l : Live) : Prop :=
  ∀ role, (l.inbound role).length ≤ maxQueuedFrames ∧ queuedBytes (l.inbound role) ≤ maxQueuedBytes

structure Paired : Prop where
  single : w.inner.OneOpen
  pending : ∀ x y p, w.inner.pending (x, y) = some p → Offered w.log x y p.ephemeral p.since
  founded : ∀ (id : Nat) (l : Live), w.inner.sessions[id]? = some l → Founded w.log l
  capped : ∀ (id : Nat) (l : Live), w.inner.sessions[id]? = some l → l.Capped
  ends : ∀ id x y x' y', Ends w.log id x y → Ends w.log id x' y' →
    x = x' ∧ y = y' ∨ x = y' ∧ y = x'
  acks : ∀ x y ex ey ackx acky, lastOpen w.log x y = some (ex, ackx) →
    lastOpen w.log y x = some (ey, acky) → ackx.state = .established →
    acky.state = .established → ackx.sessionId = acky.sessionId →
    ackx.peerEphemeral = ey ∧ acky.peerEphemeral = ex
  frames : ∀ id x y, Ends w.log id x y → framesGot w.log id x <+: framesSent w.log id y
  parties : ∀ e ∈ w.log, ∀ id who, e.ActsOn id who → ∃ other, Ends w.log id who other

/-- An open that answers `Established` answers a request of the target that is still
standing, or resumes an open session within its time, made of a request of each. -/
def Consents (now : Nat) (order : IterOrder (Nat × Live)) (me peer : PubKey) (ephemeral : Bytes32) :
    Prop :=
  let ack := (w.inner.openTo order now me peer ephemeral).1.ack
  ack.state = .established →
    (∃ p, w.inner.pending (peer, me) = some p ∧ now - p.since ≤ sessionTtl ∧
      ack.peerEphemeral = p.ephemeral) ∨
    ∃ l, w.inner.sessions[ack.sessionId]? = some l ∧ l.isOpen = true ∧
      now - l.created ≤ sessionTtl ∧ l.terms.Fits me ephemeral peer ack.peerEphemeral

/-- Whoever is no end of the session gets what they would get if there were none, and
changes nothing. -/
def Shut (now : Nat) (me : PubKey) (id : Nat) : Prop :=
  (∀ l, w.inner.sessions[id]? = some l → l.roleOf me = none) →
    (∀ frame, w.inner.send now me id frame = (.error .noSession, w.inner.expire now)) ∧
    w.inner.recv now me id = (⟨false, []⟩, w.inner.expire now) ∧
    w.inner.close now me id = (false, w.inner.expire now)

end

theorem Live.roleOf_party (h : l.first ≠ l.second) (role : Session.Role) :
    l.roleOf (l.terms.party role) = some role := by
  cases role with
  | first => simp [Live.roleOf, Live.terms, Terms.party]
  | second => simp [Live.roleOf, Live.terms, Terms.party, h.symm]

theorem Live.party_of_roleOf (h : l.roleOf who = some role) : l.terms.party role = who := by
  unfold Live.roleOf at h
  split at h
  · cases h
    exact (by assumption : who = l.first).symm
  · split at h
    · cases h
      exact (by assumption : who = l.second).symm
    · cases h

namespace Inner
variable {s : Inner} {now : Nat}

theorem lookup_expire {id : Nat} :
    (s.expire now).sessions[id]? = some l ↔
      s.sessions[id]? = some l ∧ now - l.created ≤ sessionTtl := by
  simp only [expire, ExtTreeMap.getElem?_filter', Option.filter_eq_some_iff, Live.expired]
  simp

theorem pending_expire {k : PubKey × PubKey} {p : Pending} :
    (s.expire now).pending k = some p ↔ s.pending k = some p ∧ now - p.since ≤ sessionTtl := by
  simp [expire, Option.filter_eq_some_iff]

theorem standing_some {me : PubKey} {id : Nat} (h : s.standing order me peer = some (id, l, role)) :
    s.sessions[id]? = some l ∧ l.isOpen = true ∧ l.roleOf me = some role ∧
      (l.roleOf peer).isSome = true := by
  obtain ⟨e, hfind, hrole⟩ := Option.bind_eq_some_iff.mp h
  obtain ⟨role', hme, heq⟩ := Option.map_eq_some_iff.mp hrole
  cases heq
  have hmem := List.mem_of_find?_eq_some hfind
  have hfound := List.find?_some hfind
  rw [IterOrder.mem_walk, ExtTreeMap.mem_toList_iff_getElem?_eq_some] at hmem
  simp only [Bool.and_eq_true] at hfound
  exact ⟨hmem, hfound.1.1, hme, hfound.2⟩

theorem standing_none {me : PubKey} (h : s.standing order me peer = none) {id : Nat}
    (hl : s.sessions[id]? = some l) (hopen : l.isOpen = true) :
    ¬ ((l.roleOf me).isSome = true ∧ (l.roleOf peer).isSome = true) := by
  intro hboth
  have hmem : (id, l) ∈ order.walk s.sessions.toList := by
    rw [IterOrder.mem_walk, ExtTreeMap.mem_toList_iff_getElem?_eq_some]
    exact hl
  cases hfind : (order.walk s.sessions.toList).find? fun e =>
      e.2.isOpen && (e.2.roleOf me).isSome && (e.2.roleOf peer).isSome with
  | none =>
    have hnot := List.find?_eq_none.mp hfind (id, l) hmem
    simp [hopen, hboth.1, hboth.2] at hnot
  | some e =>
    have hfound := List.find?_some hfind
    simp only [Bool.and_eq_true] at hfound
    obtain ⟨role, hrole⟩ := Option.isSome_iff_exists.mp hfound.1.2
    simp [standing, hfind, hrole] at h

def NoneOpen (s : Inner) (me peer : PubKey) : Prop :=
  ∀ (id : Nat) (l : Live), s.sessions[id]? = some l → l.isOpen = true → ¬ l.Between me peer

inductive Cleared (s : Inner) (me peer : PubKey) : Inner → Prop where
  | none (free : ∀ (id : Nat) (l : Live), s.sessions[id]? = some l → l.isOpen = true →
      ¬ ((l.roleOf me).isSome = true ∧ (l.roleOf peer).isSome = true)) : Cleared s me peer s
  | ended {id : Nat} {l : Live} (held : s.sessions[id]? = some l) (isOpen : l.isOpen = true)
      (mine : (l.roleOf me).isSome = true) (theirs : (l.roleOf peer).isSome = true) :
      Cleared s me peer { s with sessions := s.sessions.erase id }

inductive Opens (s : Inner) (now : Nat) (me peer : PubKey) (ephemeral : Bytes32) :
    Opened → Inner → Prop where
  | alone (self : me = peer) : Opens s now me peer ephemeral (.nothing (.waiting now)) s
  | resumed {id : Nat} {l : Live} {role : Session.Role} (apart : me ≠ peer)
      (held : s.sessions[id]? = some l) (isOpen : l.isOpen = true)
      (mine : l.roleOf me = some role) (theirs : (l.roleOf peer).isSome = true)
      (same : l.ownEphemeralFor role = ephemeral) :
      Opens s now me peer ephemeral
        (.nothing ⟨.established, id, l.peerEphemeralFor role, now⟩) s
  | met {base : Inner} {theirs : Pending} (apart : me ≠ peer) (cleared : Cleared s me peer base)
      (asked : base.pending (peer, me) = some theirs) :
      Opens s now me peer ephemeral
        (.nothing ⟨.established, base.nextId + 1, theirs.ephemeral, now⟩)
        ({ (base.setPending (peer, me) none).setPending (me, peer) none with
            nextId := base.nextId + 1 }.setSession (base.nextId + 1)
          (Live.made me peer ephemeral theirs.ephemeral now))
  | waits {base : Inner} {fresh : Bool} (apart : me ≠ peer) (cleared : Cleared s me peer base)
      (unasked : base.pending (peer, me) = none) :
      Opens s now me peer ephemeral ⟨.waiting now, fresh⟩
        (base.setPending (me, peer) (some ⟨ephemeral, now⟩))

theorem meet_opens {base : Inner} {me : PubKey} (hne : me ≠ peer)
    (hclear : Cleared s me peer base) :
    Opens s now me peer ephemeral (base.meet now me peer ephemeral).1
      (base.meet now me peer ephemeral).2 := by
  unfold meet
  cases hasked : base.pending (peer, me) with
  | some theirs => exact .met hne hclear hasked
  | none => exact .waits hne hclear hasked

theorem openTo_opens (s : Inner) (order : IterOrder (Nat × Live)) (now : Nat) (me peer : PubKey)
    (ephemeral : Bytes32) :
    Opens (s.expire now) now me peer ephemeral (s.openTo order now me peer ephemeral).1
      (s.openTo order now me peer ephemeral).2 := by
  simp only [openTo]
  split
  · next hself => exact .alone hself
  · next hne =>
    cases hstanding : (s.expire now).standing order me peer with
    | none =>
      exact meet_opens hne (.none fun id l hl hopen => standing_none hstanding hl hopen)
    | some found =>
      obtain ⟨id, l, role⟩ := found
      obtain ⟨hl, hopen, hme, hpeer⟩ := standing_some hstanding
      by_cases hsame : l.ownEphemeralFor role = ephemeral
      · simp only [if_pos hsame]
        exact .resumed hne hl hopen hme hpeer hsame
      · simp only [if_neg hsame]
        exact meet_opens hne (.ended hl hopen (by simp [hme]) hpeer)

end Inner

theorem Entry.sentOn_nil {e : Entry} {id : Nat} (h : ¬ e.ActsOn id who) :
    e.sentOn id who = [] := by
  unfold sentOn
  unfold ActsOn at h
  split <;> simp_all

theorem Entry.gotOn_nil {e : Entry} {id : Nat} (h : ¬ e.ActsOn id who) :
    e.gotOn id who = [] := by
  unfold gotOn
  unfold ActsOn at h
  split <;> simp_all

inductive Works (s : Inner) (e : Entry) : Inner → Prop where
  | idle (quiet : ∀ id who, ¬ e.ActsOn id who) : Works s e s
  | moves {id : Nat} {l l' : Live} {who : PubKey} {role : Session.Role}
      (held : s.sessions[id]? = some l) (mine : l.roleOf who = some role)
      (terms : l'.terms = l.terms) (created : l'.created = l.created)
      (stays : l'.isOpen = true → l.isOpen = true) (capped : l.Capped → l'.Capped)
      (only : ∀ i x, e.ActsOn i x → i = id ∧ x = who)
      (flow : l.first ≠ l.second → ∀ r : Session.Role,
        l.inbound r ++ e.sentOn id (l.terms.party r.other) =
          e.gotOn id (l.terms.party r) ++ l'.inbound r) : Works s e (s.setSession id l')

section
variable {s : Inner} {now : Nat} {me : PubKey} {id : Nat}

theorem party_eq_iff (h : l.first ≠ l.second) {r : Session.Role} (hwho : l.roleOf who = some role) :
    who = l.terms.party r ↔ role = r := by
  constructor
  · intro heq
    rw [heq, Live.roleOf_party h] at hwho
    exact (Option.some.inj hwho).symm
  · intro heq
    rw [← heq, Live.party_of_roleOf hwho]

section
variable (l : Live) (role : Session.Role)

theorem setOutbound_terms (queue : List Frame) :
    (l.setOutbound role queue).terms = l.terms ∧ (l.setOutbound role queue).created = l.created ∧
      (l.setOutbound role queue).isOpen = l.isOpen := by
  cases role <;> exact ⟨rfl, rfl, rfl⟩

theorem setInbound_terms (queue : List Frame) :
    (l.setInbound role queue).terms = l.terms ∧ (l.setInbound role queue).created = l.created ∧
      (l.setInbound role queue).isOpen = l.isOpen := by
  cases role <;> exact ⟨rfl, rfl, rfl⟩

theorem inbound_setOutbound (r : Session.Role) (queue : List Frame) :
    (l.setOutbound role queue).inbound r = if role = r.other then queue else l.inbound r := by
  cases role <;> cases r <;> rfl

theorem inbound_setInbound (r : Session.Role) (queue : List Frame) :
    (l.setInbound role queue).inbound r = if role = r then queue else l.inbound r := by
  cases role <;> cases r <;> rfl

theorem outbound_eq : l.outbound role = l.inbound role.other := by
  cases role <;> rfl

end

theorem send_works (frame : Frame) :
    Works (s.expire now) ⟨now, .send me id frame, .sent (s.send now me id frame).1⟩
      (s.send now me id frame).2 := by
  simp only [Inner.send]
  cases hl : (s.expire now).sessions[id]? with
  | none => exact .idle fun _ _ h => h
  | some l =>
    by_cases hopen : l.isOpen = true
    · simp only [hopen, if_true]
      cases hrole : l.roleOf me with
      | none => exact .idle fun _ _ h => h
      | some role =>
        by_cases hfull : (l.outbound role).length ≥ maxQueuedFrames ∨
            queuedBytes (l.outbound role) + frame.2.length > maxQueuedBytes
        · simp only [if_pos hfull]
          exact .idle fun _ _ h => h
        · simp only [if_neg hfull]
          obtain ⟨hterms, hcreated, hstays⟩ :=
            setOutbound_terms l role (l.outbound role ++ [frame])
          refine .moves hl hrole hterms hcreated (fun h => hstays ▸ h) ?_ ?_ ?_
          · intro hcapped r
            rw [inbound_setOutbound]
            split
            · simp only [List.length_append, List.length_singleton, queuedBytes, List.map_append,
                List.sum_append, List.map_cons, List.map_nil, List.sum_singleton]
              simp only [queuedBytes] at hfull
              omega
            · exact hcapped r
          · intro i x hacts
            exact ⟨hacts.2.symm, hacts.1.symm⟩
          · intro hne r
            have hiff := party_eq_iff hne (r := r.other) hrole
            rw [inbound_setOutbound]
            simp only [Entry.sentOn, Entry.gotOn, and_true, hiff, List.nil_append]
            split
            · next hr => rw [hr, outbound_eq]; cases r <;> rfl
            · exact List.append_nil _
    · simp only [hopen, if_false, Bool.false_eq_true]
      exact .idle fun _ _ h => h

theorem recv_works :
    Works (s.expire now) ⟨now, .recv me id, .frames (s.recv now me id).1⟩
      (s.recv now me id).2 := by
  have hnothing : ∀ i x, ¬ (Entry.mk now (.recv me id) (.frames ⟨false, []⟩)).ActsOn i x := by
    simp [Entry.ActsOn]
  simp only [Inner.recv]
  cases hl : (s.expire now).sessions[id]? with
  | none => exact .idle hnothing
  | some l =>
    cases hrole : l.roleOf me with
    | none =>
      simp only [hrole]
      exact .idle hnothing
    | some role =>
      simp only [hrole]
      obtain ⟨hterms, hcreated, hstays⟩ := setInbound_terms l role []
      refine .moves hl hrole hterms hcreated (fun h => hstays ▸ h) ?_ ?_ ?_
      · intro hcapped r
        rw [inbound_setInbound]
        split
        · simp [queuedBytes]
        · exact hcapped r
      · intro i x hacts
        exact ⟨hacts.2.1.symm, hacts.1.symm⟩
      · intro hne r
        have hiff := party_eq_iff hne (r := r) hrole
        rw [inbound_setInbound]
        simp only [Entry.sentOn, Entry.gotOn, and_true, hiff, List.append_nil]
        split
        · next hr => rw [hr, List.append_nil]
        · rfl

theorem close_works :
    Works (s.expire now) ⟨now, .close me id, .closed (s.close now me id).1⟩
      (s.close now me id).2 := by
  simp only [Inner.close]
  cases hl : (s.expire now).sessions[id]? with
  | none => exact .idle fun _ _ h => h
  | some l =>
    by_cases hparty : (l.roleOf me).isSome = true ∧ l.isOpen = true
    · obtain ⟨role, hrole⟩ := Option.isSome_iff_exists.mp hparty.1
      simp only [if_pos hparty]
      refine .moves hl hrole rfl rfl (fun h => by cases h) (fun hcapped => hcapped) ?_ ?_
      · intro i x hacts
        exact ⟨hacts.2.symm, hacts.1.symm⟩
      · intro _ r
        cases r <;> simp [Entry.sentOn, Entry.gotOn, Live.inbound]
    · simp only [if_neg hparty]
      exact .idle fun _ _ h => h

end

/-! ### The invariant of a run: `made` says of each id what was settled when it was made. -/

structure Kept (made : Nat → Terms) (s : Inner) (log : List Entry) : Prop where
  numbered : ∀ (id : Nat) (l : Live), s.sessions[id]? = some l →
    0 < id ∧ id ≤ s.nextId ∧ l.terms = made id
  capped : ∀ (id : Nat) (l : Live), s.sessions[id]? = some l → l.Capped
  founded : ∀ (id : Nat) (l : Live), s.sessions[id]? = some l → Founded log l
  apart : ∀ id, 0 < id → id ≤ s.nextId → (made id).first ≠ (made id).second
  single : s.OneOpen
  pending : ∀ x y p, s.pending (x, y) = some p → Offered log x y p.ephemeral p.since
  named : ∀ e ∈ log, ∀ id x ex y ey, e.Names id x ex y ey →
    0 < id ∧ id ≤ s.nextId ∧ (made id).Fits x ex y ey
  known : ∀ id, 0 < id → id ≤ s.nextId → Ends log id (made id).first (made id).second
  parties : ∀ e ∈ log, ∀ id who, e.ActsOn id who →
    0 < id ∧ id ≤ s.nextId ∧ ∃ role, (made id).party role = who
  flow : ∀ (id : Nat) (role : Session.Role), ∃ rest,
    framesSent log id ((made id).party role.other) =
      framesGot log id ((made id).party role) ++ rest ∧
    ∀ l : Live, s.sessions[id]? = some l → l.inbound role = rest

section
variable {made : Nat → Terms} {s s' : Inner} {log : List Entry} {e : Entry}

theorem Offered.mono {t : Nat} (h : Offered log x y ex t) :
    Offered (log ++ [e]) x y ex t := by
  obtain ⟨e', hmem, hrest⟩ := h
  exact ⟨e', List.mem_append_left _ hmem, hrest⟩

theorem Ends.mono {id : Nat} (h : Ends log id x y) : Ends (log ++ [e]) id x y := by
  obtain ⟨e', hmem, hrest⟩ := h
  exact ⟨e', List.mem_append_left _ hmem, hrest⟩

theorem Founded.mono (h : Founded log l) : Founded (log ++ [e]) l := by
  obtain ⟨role, t, hlast, hfirst, htime⟩ := h
  exact ⟨role, t, hlast.mono, hfirst.mono, htime⟩

theorem framesSent_concat {id : Nat} :
    framesSent (log ++ [e]) id who = framesSent log id who ++ e.sentOn id who := by
  simp [framesSent]

theorem framesGot_concat {id : Nat} :
    framesGot (log ++ [e]) id who = framesGot log id who ++ e.gotOn id who := by
  simp [framesGot]

section
variable (me peer : PubKey) (ephemeral theirs : Bytes32) (now : Nat)

theorem Kept.shrink (h : Kept made s log) (hid : s'.nextId = s.nextId)
    (hsessions : ∀ (id : Nat) (l : Live), s'.sessions[id]? = some l → s.sessions[id]? = some l)
    (hpending : ∀ k p, s'.pending k = some p → s.pending k = some p) : Kept made s' log where
  numbered := by
    intro id l hl
    rw [hid]
    exact h.numbered id l (hsessions id l hl)
  capped := fun id l hl => h.capped id l (hsessions id l hl)
  founded := fun id l hl => h.founded id l (hsessions id l hl)
  apart := by
    rw [hid]
    exact h.apart
  single := fun i j a b ha hb => h.single i j a b (hsessions i a ha) (hsessions j b hb)
  pending := fun x y p hp => h.pending x y p (hpending (x, y) p hp)
  named := by
    rw [hid]
    exact h.named
  known := by
    rw [hid]
    exact h.known
  parties := by
    rw [hid]
    exact h.parties
  flow := by
    intro id role
    obtain ⟨rest, hflow, hqueue⟩ := h.flow id role
    exact ⟨rest, hflow, fun l hl => hqueue l (hsessions id l hl)⟩

theorem Kept.expire (h : Kept made s log) (now : Nat) : Kept made (s.expire now) log := by
  refine h.shrink rfl (fun id l hl => ?_) (fun k p hp => ?_)
  · exact (Inner.lookup_expire.mp hl).1
  · exact (Inner.pending_expire.mp hp).1

theorem Kept.logged (h : Kept made s log)
    (hnamed : ∀ id x ex y ey, e.Names id x ex y ey →
      0 < id ∧ id ≤ s.nextId ∧ (made id).Fits x ex y ey)
    (hacts : ∀ id who, ¬ e.ActsOn id who) : Kept made s (log ++ [e]) where
  numbered := h.numbered
  capped := h.capped
  founded := fun id l hl => (h.founded id l hl).mono
  apart := h.apart
  single := h.single
  pending := fun x y p hp => (h.pending x y p hp).mono
  named := Runs.forall_mem_concat.mpr ⟨h.named, hnamed⟩
  known := fun id hpos hle => (h.known id hpos hle).mono
  parties := Runs.forall_mem_concat.mpr
    ⟨h.parties, fun id who hacted => absurd hacted (hacts id who)⟩
  flow := by
    intro id role
    rw [framesSent_concat, framesGot_concat, Entry.sentOn_nil (hacts _ _),
      Entry.gotOn_nil (hacts _ _), List.append_nil, List.append_nil]
    exact h.flow id role

theorem lookup_setSession {id j : Nat} :
    (s.setSession id l).sessions[j]? = if id = j then some l else s.sessions[j]? := by
  rw [Inner.setSession, lookup_insert]

theorem of_setSession {id : Nat} {P : Nat → Live → Prop} (hl : P id l)
    (h : ∀ (j : Nat) (a : Live), s.sessions[j]? = some a → P j a) (j : Nat) (a : Live)
    (ha : (s.setSession id l).sessions[j]? = some a) : P j a := by
  rw [lookup_setSession] at ha
  split at ha
  · next hj =>
    cases ha
    exact hj ▸ hl
  · exact h j a ha

theorem Live.between_congr (h : l'.terms = l.terms) :
    l'.Between x y ↔ l.Between x y := by
  unfold Live.Between
  rw [h]

theorem Founded.congr (hterms : l'.terms = l.terms) (hcreated : l'.created = l.created)
    (h : Founded log l) : Founded log l' := by
  unfold Founded
  rwa [hterms, hcreated]

theorem Inner.OneOpen.moves {id : Nat} (h : s.OneOpen) (hl : s.sessions[id]? = some l)
    (hterms : l'.terms = l.terms) (hstays : l'.isOpen = true → l.isOpen = true) :
    (s.setSession id l').OneOpen := by
  -- Each open session after stands for one open before, between the same two.
  have hbefore : ∀ (j : Nat) (a : Live), (s.setSession id l').sessions[j]? = some a →
      a.isOpen = true → ∃ b, s.sessions[j]? = some b ∧ b.isOpen = true ∧ a.terms = b.terms := by
    refine of_setSession (fun hopen => ⟨l, hl, hstays hopen, hterms⟩) fun j a ha hopen => ?_
    exact ⟨a, ha, hopen, rfl⟩
  intro i j a b ha hb hao hbo hbetween
  obtain ⟨a', ha', hao', hat⟩ := hbefore i a ha hao
  obtain ⟨b', hb', hbo', hbt⟩ := hbefore j b hb hbo
  refine h i j a' b' ha' hb' hao' hbo' ((Live.between_congr hat).mp ?_)
  have hfirst : b'.first = b.first := congrArg Terms.first hbt.symm
  have hsecond : b'.second = b.second := congrArg Terms.second hbt.symm
  rwa [hfirst, hsecond]

theorem Kept.works (h : Kept made s log) (hworks : Works s e s')
    (hopens : ∀ id x ex y ey, ¬ e.Names id x ex y ey) : Kept made s' (log ++ [e]) := by
  cases hworks with
  | idle hquiet =>
    exact h.logged (fun id x ex y ey hn => absurd hn (hopens id x ex y ey)) hquiet
  | @moves id l l' who role hl hrole hterms hcreated hstays hcapped honly hflow =>
    obtain ⟨hpos, hle, hmade⟩ := h.numbered id l hl
    have hne : l.first ≠ l.second := by
      have hapart := h.apart id hpos hle
      rwa [← hmade] at hapart
    have hothers : ∀ (j : Nat) (x : PubKey), j ≠ id → ¬ e.ActsOn j x :=
      fun j x hj hacts => hj (honly j x hacts).1
    constructor
    case numbered => exact of_setSession ⟨hpos, hle, hterms.trans hmade⟩ h.numbered
    case capped =>
      exact of_setSession (P := fun _ => Live.Capped) (hcapped (h.capped id l hl)) h.capped
    case founded =>
      exact of_setSession ((h.founded id l hl).congr hterms hcreated).mono
        fun j a ha => (h.founded j a ha).mono
    case apart => exact h.apart
    case single => exact h.single.moves hl hterms hstays
    case pending => exact fun x y p hp => (h.pending x y p hp).mono
    case named =>
      exact Runs.forall_mem_concat.mpr
        ⟨h.named, fun j x ex y ey hn => absurd hn (hopens j x ex y ey)⟩
    case known => exact fun j hjpos hjle => (h.known j hjpos hjle).mono
    case parties =>
      refine Runs.forall_mem_concat.mpr ⟨h.parties, fun j x hacts => ?_⟩
      obtain ⟨rfl, rfl⟩ := honly j x hacts
      exact ⟨hpos, hle, role, hmade ▸ Live.party_of_roleOf hrole⟩
    case flow =>
      intro j r
      obtain ⟨rest, hrest, hqueue⟩ := h.flow j r
      rw [framesSent_concat, framesGot_concat]
      by_cases hj : j = id
      · subst hj
        refine ⟨l'.inbound r, ?_, ?_⟩
        · have hstep := hflow hne r
          rw [hqueue l hl] at hstep
          rw [← hmade] at hrest ⊢
          rw [hrest, List.append_assoc, List.append_assoc, hstep]
        · intro a ha
          rw [lookup_setSession, if_pos rfl] at ha
          cases ha
          rfl
      · refine ⟨rest, ?_, ?_⟩
        · rw [Entry.sentOn_nil (hothers j _ hj), Entry.gotOn_nil (hothers j _ hj),
            List.append_nil, List.append_nil, hrest]
        · intro a ha
          rw [lookup_setSession, if_neg (Ne.symm hj)] at ha
          exact hqueue a ha

theorem Role.other_other (r : Session.Role) : r.other.other = r := by cases r <;> rfl

theorem Live.between_iff :
    l.Between x y ↔ l.first = x ∧ l.second = y ∨ l.second = x ∧ l.first = y := by
  constructor
  · rintro ⟨_ | _, hx, hy⟩
    · exact Or.inl ⟨hx, hy⟩
    · exact Or.inr ⟨hx, hy⟩
  · rintro (⟨hx, hy⟩ | ⟨hx, hy⟩)
    · exact ⟨.first, hx, hy⟩
    · exact ⟨.second, hx, hy⟩

theorem Live.party_of_both (hxy : x ≠ y) (hx : l.roleOf x = some role)
    (hy : (l.roleOf y).isSome = true) :
    l.terms.party role.other = y := by
  obtain ⟨role', hy⟩ := Option.isSome_iff_exists.mp hy
  have hpx := Live.party_of_roleOf hx
  have hpy := Live.party_of_roleOf hy
  cases role <;> cases role' <;> first
    | exact hpy
    | exact absurd (hpx.symm.trans hpy) hxy

theorem Live.between_of_both (hxy : x ≠ y) (hx : (l.roleOf x).isSome = true)
    (hy : (l.roleOf y).isSome = true) : l.Between x y := by
  obtain ⟨role, hrole⟩ := Option.isSome_iff_exists.mp hx
  exact ⟨role, Live.party_of_roleOf hrole, Live.party_of_both hxy hrole hy⟩

theorem Live.both_of_between (hne : l.first ≠ l.second) (h : l.Between x y) :
    (l.roleOf x).isSome = true ∧ (l.roleOf y).isSome = true := by
  obtain ⟨role, rfl, rfl⟩ := h
  rw [Live.roleOf_party hne, Live.roleOf_party hne]
  exact ⟨rfl, rfl⟩

theorem made_fits :
    (Live.made me peer ephemeral theirs now).terms.Fits me ephemeral peer theirs := by
  unfold Live.made
  cases Session.Role.of me peer with
  | first => exact ⟨.first, rfl, rfl, rfl, rfl⟩
  | second => exact ⟨.second, rfl, rfl, rfl, rfl⟩

theorem made_new :
    (Live.made me peer ephemeral theirs now).created = now ∧
      ∀ role, (Live.made me peer ephemeral theirs now).inbound role = [] := by
  unfold Live.made
  cases Session.Role.of me peer <;> exact ⟨rfl, fun role => by cases role <;> rfl⟩

theorem made_between : (Live.made me peer ephemeral theirs now).Between me peer := by
  obtain ⟨role, hx, -, hy, -⟩ := made_fits me peer ephemeral theirs now
  exact ⟨role, hx, hy⟩

end

theorem Kept.asks (h : Kept made s log) {me : PubKey} {now : Nat}
    (hoffered : Offered log me peer ephemeral now) :
    Kept made (s.setPending (me, peer) (some ⟨ephemeral, now⟩)) log :=
  { h with
    pending := by
      intro x y p hp
      simp only [Inner.setPending] at hp
      split at hp
      · next hxy =>
        cases hp
        cases hxy
        exact hoffered
      · exact h.pending x y p hp }

theorem Kept.cleared (h : Kept made s log) {me : PubKey} {base : Inner} (hne : me ≠ peer)
    (hclear : Inner.Cleared s me peer base) :
    Kept made base log ∧ base.NoneOpen me peer ∧ base.pending = s.pending := by
  cases hclear with
  | none hfree =>
    refine ⟨h, fun id l hl hopen hbetween => ?_, rfl⟩
    have hnum := h.numbered id l hl
    have hapart := h.apart id hnum.1 hnum.2.1
    rw [← hnum.2.2] at hapart
    exact hfree id l hl hopen (Live.both_of_between hapart hbetween)
  | @ended id l hl hopen hme hpeer =>
    have hsub : ∀ (j : Nat) (a : Live), (s.sessions.erase id)[j]? = some a →
        j ≠ id ∧ s.sessions[j]? = some a := by
      intro j a ha
      rw [lookup_erase] at ha
      split at ha
      · cases ha
      · next hj => exact ⟨Ne.symm hj, ha⟩
    refine ⟨h.shrink rfl (fun j a ha => (hsub j a ha).2) fun _ _ hp => hp, ?_, rfl⟩
    intro j a ha hao hbetween
    obtain ⟨hj, hat⟩ := hsub j a ha
    have hpair : l.Between a.first a.second := by
      have hl := Live.between_iff.mp (Live.between_of_both hne hme hpeer)
      have ha := Live.between_iff.mp hbetween
      rw [Live.between_iff]
      rcases hl with ⟨h1, h2⟩ | ⟨h1, h2⟩ <;> rcases ha with ⟨h3, h4⟩ | ⟨h3, h4⟩ <;>
        simp [h1, h2, h3, h4]
    exact hj (h.single id j l a hl hat hopen hao hpair).symm

theorem Inner.OneOpen.makes {me : PubKey} {id : Nat} (h : s.OneOpen) (hfree : s.NoneOpen me peer)
    (hl : l.Between me peer) : (s.setSession id l).OneOpen := by
  intro i j a b ha hb hao hbo hbetween
  rw [lookup_setSession] at ha hb
  have hpair := Live.between_iff.mp hl
  have hab := Live.between_iff.mp hbetween
  split at ha
  · next hi =>
    cases ha
    split at hb
    · next hj => rw [← hi, ← hj]
    · have hb' : b.Between me peer := by
        rw [Live.between_iff]
        rcases hpair with ⟨h1, h2⟩ | ⟨h1, h2⟩ <;> rcases hab with ⟨h3, h4⟩ | ⟨h3, h4⟩ <;>
          simp [← h1, ← h2, h3, h4]
      exact absurd hb' (hfree j b hb hbo)
  · split at hb
    · cases hb
      have ha' : a.Between me peer := by
        rw [Live.between_iff]
        rcases hpair with ⟨h1, h2⟩ | ⟨h1, h2⟩ <;> rcases hab with ⟨h3, h4⟩ | ⟨h3, h4⟩ <;>
          simp [← h1, ← h2, h3, h4]
      exact absurd ha' (hfree i a ha hao)
    · exact h i j a b ha hb hao hbo hbetween

theorem framesSent_nil {id : Nat} (h : ∀ e ∈ log, ¬ e.ActsOn id who) :
    framesSent log id who = [] :=
  List.flatMap_eq_nil_iff.mpr fun e he => Entry.sentOn_nil (h e he)

theorem framesGot_nil {id : Nat} (h : ∀ e ∈ log, ¬ e.ActsOn id who) :
    framesGot log id who = [] :=
  List.flatMap_eq_nil_iff.mpr fun e he => Entry.gotOn_nil (h e he)

theorem Kept.makes (h : Kept made s log) {me : PubKey} {now : Nat} {theirs : Pending}
    (hne : me ≠ peer) (hfree : s.NoneOpen me peer) (hasked : s.pending (peer, me) = some theirs)
    (htime : now - theirs.since ≤ sessionTtl)
    (hact : ∃ order, e.act = .openTo order me peer ephemeral) (hnow : e.now = now)
    (hreply : e.reply =
      .opened (.nothing ⟨.established, s.nextId + 1, theirs.ephemeral, now⟩)) :
    let l := Live.made me peer ephemeral theirs.ephemeral now
    Kept (Function.update made (s.nextId + 1) l.terms)
      ({ (s.setPending (peer, me) none).setPending (me, peer) none with
          nextId := s.nextId + 1 }.setSession (s.nextId + 1) l) (log ++ [e]) := by
  intro l
  obtain ⟨order, hact⟩ := hact
  have hfits := made_fits me peer ephemeral theirs.ephemeral now
  have hnew := made_new me peer ephemeral theirs.ephemeral now
  have hbetween : l.Between me peer := made_between me peer ephemeral theirs.ephemeral now
  have hself : Function.update made (s.nextId + 1) l.terms (s.nextId + 1) = l.terms :=
    Function.update_self _ _ _
  have hsame : ∀ id, id ≤ s.nextId → Function.update made (s.nextId + 1) l.terms id = made id :=
    fun id hle => Function.update_of_ne (by omega) _ _
  have hquiet : ∀ id who, ¬ e.ActsOn id who := by
    intro id who hacts
    simp [Entry.ActsOn, hact] at hacts
  have hofferedMe : Offered (log ++ [e]) me peer ephemeral now :=
    ⟨e, by simp, hnow, order, hact⟩
  have hofferedPeer : Offered (log ++ [e]) peer me theirs.ephemeral theirs.since :=
    (h.pending peer me theirs hasked).mono
  have hnamed : e.Names (s.nextId + 1) me ephemeral peer theirs.ephemeral :=
    ⟨order, _, hact, hreply, rfl, rfl, rfl⟩
  have hold : ∀ {j : Nat} {a : Live}, s.sessions[j]? = some a → j ≤ s.nextId :=
    fun ha => (h.numbered _ _ ha).2.1
  constructor
  case numbered =>
    refine of_setSession ⟨Nat.succ_pos _, Nat.le_refl _, hself.symm⟩ fun id a ha => ?_
    obtain ⟨hpos, hle, hmade⟩ := h.numbered id a ha
    exact ⟨hpos, Nat.le_succ_of_le hle, hmade.trans (hsame id hle).symm⟩
  case capped =>
    refine of_setSession (P := fun _ => Live.Capped) (fun role => ?_) h.capped
    rw [hnew.2 role]
    simp [queuedBytes]
  case founded =>
    refine of_setSession ?_ fun id a ha => (h.founded id a ha).mono
    obtain ⟨role, hx, hex, hy, hey⟩ := hfits
    refine ⟨role, theirs.since, ?_, ?_, ?_⟩
    · rw [hx, hy, hex, hnew.1]
      exact hofferedMe
    · rw [hx, hy, hey]
      exact hofferedPeer
    · rw [hnew.1]
      exact htime
  case apart =>
    intro id hpos hle
    by_cases hid : id = s.nextId + 1
    · rw [hid, hself]
      intro heq
      rcases Live.between_iff.mp hbetween with ⟨h1, h2⟩ | ⟨h1, h2⟩
      · exact hne (h1.symm.trans (heq.trans h2))
      · exact hne (h1.symm.trans (heq.symm.trans h2))
    · have hle' : id ≤ s.nextId := by
        have hle : id ≤ s.nextId + 1 := hle
        omega
      rw [hsame id hle']
      exact h.apart id hpos hle'
  case single =>
    have hsingle : s.OneOpen := h.single
    exact hsingle.makes hfree hbetween
  case pending =>
    intro x y p hp
    simp only [Inner.setSession, Inner.setPending] at hp
    split at hp
    · cases hp
    · split at hp
      · cases hp
      · exact (h.pending x y p hp).mono
  case named =>
    intro e' he' id x ex y ey hn
    rcases Runs.mem_concat.mp he' with hmem | rfl
    · obtain ⟨hpos, hle, hfit⟩ := h.named e' hmem id x ex y ey hn
      rw [hsame id hle]
      exact ⟨hpos, Nat.le_succ_of_le hle, hfit⟩
    · obtain ⟨order', o, hact', hreply', -, hid, hey⟩ := hn
      rw [hact] at hact'
      rw [hreply] at hreply'
      cases hact'
      cases hreply'
      subst hid hey
      have hfit : (Function.update made (s.nextId + 1) l.terms (s.nextId + 1)).Fits me ephemeral
          peer theirs.ephemeral := by
        rw [hself]
        exact hfits
      exact ⟨Nat.succ_pos _, Nat.le_refl _, hfit⟩
  case known =>
    intro id hpos hle
    by_cases hid : id = s.nextId + 1
    · rw [hid, hself]
      rcases Live.between_iff.mp hbetween with ⟨h1, h2⟩ | ⟨h1, h2⟩
      · exact ⟨e, by simp, _, _, Or.inl (by simpa only [Live.terms, h1, h2] using hnamed)⟩
      · exact ⟨e, by simp, _, _, Or.inr (by simpa only [Live.terms, h1, h2] using hnamed)⟩
    · have hle' : id ≤ s.nextId := by
        have hle : id ≤ s.nextId + 1 := hle
        omega
      rw [hsame id hle']
      exact (h.known id hpos hle').mono
  case parties =>
    intro e' he' id who hacts
    rcases Runs.mem_concat.mp he' with hmem | rfl
    · obtain ⟨hpos, hle, hparty⟩ := h.parties e' hmem id who hacts
      rw [hsame id hle]
      exact ⟨hpos, Nat.le_succ_of_le hle, hparty⟩
    · exact absurd hacts (hquiet id who)
  case flow =>
    intro id role
    rw [framesSent_concat, framesGot_concat, Entry.sentOn_nil (hquiet _ _),
      Entry.gotOn_nil (hquiet _ _), List.append_nil, List.append_nil]
    by_cases hid : id ≤ s.nextId
    · rw [hsame id hid]
      obtain ⟨rest, hrest, hqueue⟩ := h.flow id role
      refine ⟨rest, hrest, fun a ha => ?_⟩
      rw [lookup_setSession, if_neg (by omega)] at ha
      exact hqueue a ha
    · have hunused : ∀ who, ∀ e' ∈ log, ¬ e'.ActsOn id who :=
        fun who e' he' hacts => hid (h.parties e' he' id who hacts).2.1
      refine ⟨[], ?_, fun a ha => ?_⟩
      · rw [framesSent_nil (hunused _), framesGot_nil (hunused _), List.append_nil]
      · rw [lookup_setSession] at ha
        split at ha
        · cases ha
          exact hnew.2 role
        · exact absurd (hold ha) hid

theorem Kept.opens (h : Kept made s log) {now : Nat} {me : PubKey} {o : Opened}
    (hfresh : ∀ k p, s.pending k = some p → now - p.since ≤ sessionTtl)
    (hopens : Inner.Opens s now me peer ephemeral o s') :
    ∃ made', Kept made' s' (log ++ [⟨now, .openTo order me peer ephemeral, .opened o⟩]) := by
  have hquiet : ∀ id who, ¬ (Entry.mk now (.openTo order me peer ephemeral) (.opened o)).ActsOn id
      who := fun _ _ hacts => hacts
  have hoffered : Offered (log ++ [⟨now, .openTo order me peer ephemeral, .opened o⟩]) me peer
      ephemeral now :=
    ⟨_, List.mem_append_right _ (List.mem_singleton.mpr rfl), rfl, order, rfl⟩
  cases hopens with
  | alone hself =>
    refine ⟨made, h.logged (fun id x ex y ey hn => ?_) hquiet⟩
    obtain ⟨_, _, -, hreply, hstate, -⟩ := hn
    cases hreply
    cases hstate
  | @resumed id l role hne hl hopen hmine htheirs hsame =>
    refine ⟨made, h.logged (fun id' x ex y ey hn => ?_) hquiet⟩
    obtain ⟨_, _, hact, hreply, -, rfl, rfl⟩ := hn
    cases hact
    cases hreply
    obtain ⟨hpos, hle, hmade⟩ := h.numbered id l hl
    refine ⟨hpos, hle, ?_⟩
    have hfits : l.terms.Fits me ephemeral peer (l.peerEphemeralFor role) := by
      refine ⟨role, Live.party_of_roleOf hmine, ?_, Live.party_of_both hne hmine htheirs, ?_⟩
      · rw [← hsame]
        cases role <;> rfl
      · cases role <;> rfl
    rw [hmade] at hfits
    exact hfits
  | met hne hclear hasked =>
    obtain ⟨hbase, hfree, hpending⟩ := h.cleared hne hclear
    have htime := hfresh _ _ (hpending ▸ hasked)
    exact ⟨_, hbase.makes hne hfree hasked htime ⟨order, rfl⟩ rfl rfl⟩
  | waits hne hclear hunasked =>
    obtain ⟨hbase, -, -⟩ := h.cleared hne hclear
    refine ⟨made, (hbase.logged (fun id x ex y ey hn => ?_) hquiet).asks hoffered⟩
    obtain ⟨_, _, -, hreply, hstate, -⟩ := hn
    cases hreply
    cases hstate

end

/-- Every act keeps the invariant, for ids it adds to what was settled before. -/
theorem Kept.step {made : Nat → Terms} {w : World} (h : Kept made w.inner w.log) (a : Nat × Act) :
    ∃ made', Kept made' (w.step a).inner (w.step a).log := by
  obtain ⟨now, act⟩ := a
  have hexpired := h.expire now
  cases act with
  | openTo order me peer ephemeral =>
    exact hexpired.opens (fun k p hp => (Inner.pending_expire.mp hp).2)
      (Inner.openTo_opens w.inner order now me peer ephemeral)
  | pendingFrom me peer =>
    refine ⟨made, hexpired.logged (fun id x ex y ey hn => ?_) fun _ _ hacts => hacts⟩
    obtain ⟨_, _, hact, -⟩ := hn
    cases hact
  | send me id frame =>
    refine ⟨made, hexpired.works (send_works frame) fun id x ex y ey hn => ?_⟩
    obtain ⟨_, _, hact, -⟩ := hn
    cases hact
  | recv me id =>
    refine ⟨made, hexpired.works recv_works fun id x ex y ey hn => ?_⟩
    obtain ⟨_, _, hact, -⟩ := hn
    cases hact
  | close me id =>
    refine ⟨made, hexpired.works close_works fun id x ex y ey hn => ?_⟩
    obtain ⟨_, _, hact, -⟩ := hn
    cases hact

theorem kept_new : Kept (fun _ => ⟨0, 0, 0, 0⟩) World.new.inner World.new.log where
  numbered := by simp [World.new, Inner.new]
  capped := by simp [World.new, Inner.new]
  founded := by simp [World.new, Inner.new]
  apart := by
    intro id hpos hle
    simp only [World.new, Inner.new] at hle
    omega
  single := by simp [Inner.OneOpen, World.new, Inner.new]
  pending := by simp [World.new, Inner.new]
  named := by simp [World.new]
  known := by
    intro id hpos hle
    simp only [World.new, Inner.new] at hle
    omega
  parties := by simp [World.new]
  flow := by simp [World.new, Inner.new, framesSent, framesGot]

theorem kept_run (acts : List (Nat × Act)) :
    ∃ made, Kept made (World.run acts).inner (World.run acts).log := by
  refine Runs.run_invariant (P := fun w : World => ∃ made, Kept made w.inner w.log) ?_
    ⟨_, kept_new⟩ acts
  rintro w a ⟨made, h⟩
  exact h.step a

/-! ### What the invariant says of the log. -/

section
variable {made : Nat → Terms} {w : World}

theorem Kept.ends (h : Kept made w.inner w.log) {id : Nat} (hends : Ends w.log id x y) :
    0 < id ∧ id ≤ w.inner.nextId ∧
      ∃ role, (made id).party role = x ∧ (made id).party role.other = y := by
  obtain ⟨e, he, ex, ey, hn | hn⟩ := hends
  · obtain ⟨hpos, hle, role, hx, -, hy, -⟩ := h.named e he id x ex y ey hn
    exact ⟨hpos, hle, role, hx, hy⟩
  · obtain ⟨hpos, hle, role, hy, -, hx, -⟩ := h.named e he id y ey x ex hn
    exact ⟨hpos, hle, role.other, hx, by rwa [Role.other_other]⟩

theorem Ends.symm {log : List Entry} {id : Nat} (h : Ends log id x y) :
    Ends log id y x := by
  obtain ⟨e, he, ex, ey, hn⟩ := h
  exact ⟨e, he, ey, ex, hn.symm⟩

theorem names_of_lastOpen {log : List Entry} {ack : Ack} (h : lastOpen log x y = some (ex, ack))
    (hstate : ack.state = .established) :
    ∃ e ∈ log, e.Names ack.sessionId x ex y ack.peerEphemeral := by
  obtain ⟨e, he, hopen⟩ := List.mem_filterMap.mp (List.mem_of_getLast? h)
  refine ⟨e, he, ?_⟩
  obtain ⟨now, act, reply⟩ := e
  simp only [Entry.openOf] at hopen
  split at hopen
  · next order me peer ephemeral o =>
    split at hopen
    · next hxy =>
      cases hopen
      obtain ⟨rfl, rfl⟩ := hxy
      exact ⟨order, o, rfl, rfl, hstate, rfl, rfl⟩
    · cases hopen
  · cases hopen

theorem Kept.acks (h : Kept made w.inner w.log) {ey : Bytes32} {ackx acky : Ack}
    (hx : lastOpen w.log x y = some (ex, ackx)) (hy : lastOpen w.log y x = some (ey, acky))
    (hsx : ackx.state = .established) (hsy : acky.state = .established)
    (hid : ackx.sessionId = acky.sessionId) :
    ackx.peerEphemeral = ey ∧ acky.peerEphemeral = ex := by
  obtain ⟨e, he, hnx⟩ := names_of_lastOpen hx hsx
  obtain ⟨e', he', hny⟩ := names_of_lastOpen hy hsy
  obtain ⟨hpos, hle, role, hpx, hox, hpy, hgx⟩ := h.named e he _ _ _ _ _ hnx
  obtain ⟨-, -, role', hpy', hoy, hpx', hgy⟩ := h.named e' he' _ _ _ _ _ hny
  rw [← hid] at hpy' hoy hpx' hgy
  have hapart := h.apart _ hpos hle
  -- The two acks were read from opposite ends of one session.
  have hopposite : role' = role.other := by
    cases role <;> cases role' <;> first
      | rfl
      | exact absurd (hpx.trans hpx'.symm) hapart
      | exact absurd (hpx'.trans hpx.symm) hapart
  rw [hopposite] at hoy hgy
  rw [Role.other_other] at hgy
  exact ⟨hgx.symm.trans hoy, hgy.symm.trans hox⟩

theorem Kept.paired (h : Kept made w.inner w.log) : Paired w where
  single := h.single
  pending := h.pending
  founded := h.founded
  capped := h.capped
  ends := by
    intro id x y x' y' hends hends'
    obtain ⟨-, -, role, hx, hy⟩ := h.ends hends
    obtain ⟨-, -, role', hx', hy'⟩ := h.ends hends'
    rw [← hx, ← hy, ← hx', ← hy']
    cases role <;> cases role' <;> simp [Session.Role.other]
  acks := fun x y ex ey ackx acky hx hy hsx hsy hid => h.acks hx hy hsx hsy hid
  frames := by
    intro id x y hends
    obtain ⟨-, -, role, hx, hy⟩ := h.ends hends
    obtain ⟨rest, hflow, -⟩ := h.flow id role
    rw [hx, hy] at hflow
    exact ⟨rest, hflow.symm⟩
  parties := by
    intro e he id who hacts
    obtain ⟨hpos, hle, role, hwho⟩ := h.parties e he id who hacts
    have hknown := h.known id hpos hle
    subst hwho
    cases role with
    | first => exact ⟨_, hknown⟩
    | second => exact ⟨_, hknown.symm⟩

theorem Kept.consents (h : Kept made w.inner w.log) (now : Nat) (order : IterOrder (Nat × Live))
    (me peer : PubKey) (ephemeral : Bytes32) : Consents w now order me peer ephemeral := by
  have hopens := Inner.openTo_opens w.inner order now me peer ephemeral
  have hexpired := h.expire now
  intro hstate
  generalize w.inner.openTo order now me peer ephemeral = done at hopens hstate ⊢
  obtain ⟨o, s'⟩ := done
  cases hopens with
  | alone | waits => cases hstate
  | met hne hclear hasked =>
    left
    rw [(hexpired.cleared hne hclear).2.2] at hasked
    obtain ⟨hpending, htime⟩ := Inner.pending_expire.mp hasked
    exact ⟨_, hpending, htime, rfl⟩
  | @resumed id l role hne hl hopen hmine htheirs hsame =>
    right
    obtain ⟨hheld, htime⟩ := Inner.lookup_expire.mp hl
    refine ⟨l, hheld, hopen, htime, role, Live.party_of_roleOf hmine, ?_,
      Live.party_of_both hne hmine htheirs, ?_⟩
    · rw [← hsame]
      cases role <;> rfl
    · cases role <;> rfl

theorem shut (w : World) (now : Nat) (me : PubKey) (id : Nat) : Shut w now me id := by
  intro hstranger
  have hrole : ∀ l : Live, (w.inner.expire now).sessions[id]? = some l → l.roleOf me = none :=
    fun l hl => hstranger l (Inner.lookup_expire.mp hl).1
  cases hl : (w.inner.expire now).sessions[id]? with
  | none =>
    refine ⟨fun frame => ?_, ?_, ?_⟩
    · simp only [Inner.send, hl]
    · simp only [Inner.recv, hl]
    · simp only [Inner.close, hl]
  | some l =>
    refine ⟨fun frame => ?_, ?_, ?_⟩
    · simp only [Inner.send, hl, hrole l hl]
      split <;> rfl
    · simp only [Inner.recv, hl, hrole l hl]
    · simp [Inner.close, hl, hrole l hl]

end

/-- Sessions are by mutual consent and paired, after any run of acts at any times: one open session
for a pair, latest acks of one session with each other's latest ephemerals, frames from the other
end once and in order, and what is done on a session done by its ends. -/
theorem sessions_are_paired (acts : List (Nat × Act)) :
    Paired (World.run acts) ∧
      (∀ now order me peer ephemeral, Consents (World.run acts) now order me peer ephemeral) ∧
      ∀ now me id, Shut (World.run acts) now me id := by
  obtain ⟨made, h⟩ := kept_run acts
  exact ⟨h.paired, h.consents, shut (World.run acts)⟩

/-- One asks, the other meets it as it is about to lapse, and asks again a second later. -/
def lateRetry : World :=
  .run [(0, .openTo .asListed 2 1 20), (sessionTtl, .openTo .asListed 1 2 10)]

/-- The retry is answered `Established`, and the other's only open has run out. -/
theorem retry_outlives_open :
    let ack := (lateRetry.inner.openTo .asListed (sessionTtl + 1) 1 2 10).1.ack
    ack.state = .established ∧ (lateRetry.inner.expire (sessionTtl + 1)).pending (2, 1) = none ∧
      ∀ e t, Offered lateRetry.log 2 1 e t → sessionTtl + 1 - t > sessionTtl := by
  refine ⟨by decide +kernel, by decide +kernel, ?_⟩
  intro e t hoffered
  obtain ⟨entry, hmem, rfl, order, hact⟩ := hoffered
  have hlog : lateRetry.log.map (fun e => (e.now, e.act)) =
      [(0, .openTo .asListed 2 1 20), (sessionTtl, .openTo .asListed 1 2 10)] := rfl
  have hin : (entry.now, entry.act) ∈ lateRetry.log.map (fun e => (e.now, e.act)) :=
    List.mem_map_of_mem hmem
  rw [hlog, hact] at hin
  simp at hin
  omega

end Sqex.Sessions
