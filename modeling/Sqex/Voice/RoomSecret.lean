import Sqex.Voice.Room

/-! Only holders of the room secret hear the room. A poll lets go of everybody the roster does not
prove, and holds somebody new under a session of their own key, where whoever answers a bridge is
who it was placed to. -/
namespace Sqex.Voice
open Std Room Runs Call

structure Keyed (C : Crypto) (seed : Bytes32) (p : Peer) : Prop where
  derivedWith : p.derivedWith = p.identity
  derived : ∃ eph peerEphemeral,
    Session.derive C seed eph p.identity peerEphemeral = .ok p.session

/-- The books: every session filed once, under its own id and identity, nobody both
pending and held, and every session a peer's own. -/
structure Sound (C : Crypto) (room : RoomId) (seed : Bytes32) (m : Membership) : Prop where
  sameRoom : m.room = room
  sameSeed : m.seed = seed
  sid : ∀ (sid : UInt64) (p : Peer), m.peers[sid]? = some p → p.sessionId = sid
  filed : ∀ (sid : UInt64) (p : Peer), m.peers[sid]? = some p → m.byIdentity[p.identity]? = some sid
  apart : ∀ id ∈ m.pending, id ∉ m.byIdentity
  keyed : ∀ (sid : UInt64) (p : Peer), m.peers[sid]? = some p → Keyed C seed p

structure Placed (C : Crypto) (room : RoomId) (seed : Bytes32) (here : List PubKey)
    (roster : List Member) (m : Membership) : Prop where
  sound : Sound C room seed m
  sameRoster : m.roster = roster
  held : ∀ (sid : UInt64) (p : Peer), m.peers[sid]? = some p → p.identity ∈ here
  pending : ∀ id ∈ m.pending, id ∈ here

/-- The membership as a poll comes to try whoever is waiting, once it has the roster. -/
def Polled.offered (C : Crypto) (a : Polled) (roster : List Member) (m : Membership) :
    Membership :=
  let kept := (keepProven C a roster m).1
  (kept.verified C roster).foldl (Membership.offer a.fresh) (kept.sweep a.now a.peersOrder).1

/-- Every bridge placed is answered by who it was placed to: an answer that says a
session is up names that identity as its peer. -/
def Polled.Answered (a : Polled) (m : Membership) : Prop :=
  ∀ id ∈ m.pending, m.bridgeTo id ≠ none → ∀ ack, (a.reached id).callAck = .ok (some ack) →
    ack.state = .established → ack.peer = id

def Polled.Honest (C : Crypto) (a : Polled) (m : Membership) : Prop :=
  ∀ roster, (fetch a).result m = .ok roster →
    a.Answered (a.offered C roster ((fetch a).after m))

section Books
variable {C : Crypto} {room : RoomId} {seed : Bytes32} {m m' : Membership}

theorem Sound.of_same (h : Sound C room seed m) (hroom : m'.room = m.room)
    (hseed : m'.seed = m.seed) (hpeers : m'.peers = m.peers)
    (hfiled : m'.byIdentity = m.byIdentity) (hpending : ∀ id ∈ m'.pending, id ∈ m.pending) :
    Sound C room seed m' where
  sameRoom := hroom.trans h.sameRoom
  sameSeed := hseed.trans h.sameSeed
  sid := by
    rw [hpeers]
    exact h.sid
  filed := by
    rw [hpeers, hfiled]
    exact h.filed
  apart := by
    rw [hfiled]
    exact fun id hid => h.apart id (hpending id hid)
  keyed := by
    rw [hpeers]
    exact h.keyed

theorem Sound.unique (h : Sound C room seed m) {sid sid' : UInt64} {p p' : Peer}
    (hp : m.peers[sid]? = some p) (hp' : m.peers[sid']? = some p')
    (hsame : p.identity = p'.identity) : sid = sid' := by
  have hfiled := h.filed sid p hp
  rw [hsame, h.filed sid' p' hp'] at hfiled
  exact (Option.some.inj hfiled).symm

/-- Rows taken out of the books, and never one of an identity that stays held. -/
theorem Sound.of_fewer (h : Sound C room seed m) (hroom : m'.room = m.room)
    (hseed : m'.seed = m.seed)
    (hpeers : ∀ (sid : UInt64) (p : Peer), m'.peers[sid]? = some p →
      m.peers[sid]? = some p ∧ m'.byIdentity[p.identity]? = m.byIdentity[p.identity]?)
    (hfiled : ∀ id ∈ m'.byIdentity, id ∈ m.byIdentity)
    (hpending : ∀ id ∈ m'.pending, id ∈ m.pending) : Sound C room seed m' where
  sameRoom := hroom.trans h.sameRoom
  sameSeed := hseed.trans h.sameSeed
  sid sid p hp := h.sid sid p (hpeers sid p hp).1
  filed sid p hp := by
    obtain ⟨hin, hsame⟩ := hpeers sid p hp
    rw [hsame]
    exact h.filed sid p hin
  apart id hid hin := h.apart id (hpending id hid) (hfiled id hin)
  keyed sid p hp := h.keyed sid p (hpeers sid p hp).1

theorem remove_peers (h : Sound C room seed m) {id : PubKey} {sid : UInt64} {p : Peer}
    (hp : (m.remove id).peers[sid]? = some p) : m.peers[sid]? = some p ∧ p.identity ≠ id := by
  simp only [Membership.remove] at hp
  cases hid : m.byIdentity[id]? with
  | none =>
    rw [hid] at hp
    refine ⟨hp, fun hsame => ?_⟩
    have hfiled := h.filed sid p hp
    rw [hsame, hid] at hfiled
    cases hfiled
  | some sid' =>
    rw [hid] at hp
    simp only [lookup_erase] at hp
    by_cases hsid : sid' = sid
    · simp [hsid] at hp
    · rw [if_neg hsid] at hp
      refine ⟨hp, fun hsame => hsid ?_⟩
      have hfiled := h.filed sid p hp
      rw [hsame, hid] at hfiled
      exact Option.some.inj hfiled

theorem remove_sound (h : Sound C room seed m) (id : PubKey) : Sound C room seed (m.remove id) := by
  refine h.of_fewer rfl rfl (fun sid p hp => ?_) (fun id' hid' => ?_) fun _ hid => hid
  · obtain ⟨hin, hother⟩ := remove_peers h hp
    refine ⟨hin, ?_⟩
    simp only [Membership.remove, lookup_erase]
    rw [if_neg fun heq => hother heq.symm]
  · simp only [Membership.remove, ExtTreeMap.mem_erase] at hid'
    exact hid'.2

theorem foldl_remove (ids : List PubKey) (h : Sound C room seed m) :
    Sound C room seed (ids.foldl Membership.remove m) ∧
      ∀ (sid : UInt64) (p : Peer), (ids.foldl Membership.remove m).peers[sid]? = some p →
        m.peers[sid]? = some p ∧ p.identity ∉ ids := by
  induction ids generalizing m with
  | nil => exact ⟨h, fun sid p hp => ⟨hp, List.not_mem_nil⟩⟩
  | cons id ids ih =>
    obtain ⟨hsound, hpeers⟩ := ih (remove_sound h id)
    refine ⟨hsound, fun sid p hp => ?_⟩
    obtain ⟨hin, hnot⟩ := hpeers sid p hp
    obtain ⟨hheld, hother⟩ := remove_peers h hin
    exact ⟨hheld, by simp [hother, hnot]⟩

theorem restart_sound (h : Sound C room seed m) {p : Peer}
    (hp : ∀ (sid : UInt64) (q : Peer), m.peers[sid]? = some q → q.identity = p.identity →
      sid = p.sessionId) :
    Sound C room seed (m.restart p) ∧
      ∀ (sid : UInt64) (q : Peer), (m.restart p).peers[sid]? = some q → m.peers[sid]? = some q := by
  have hpeers : ∀ (sid : UInt64) (q : Peer), (m.restart p).peers[sid]? = some q →
      m.peers[sid]? = some q ∧ q.identity ≠ p.identity := by
    intro sid q hq
    simp only [Membership.restart, lookup_erase] at hq
    by_cases hsid : p.sessionId = sid
    · simp [hsid] at hq
    · rw [if_neg hsid] at hq
      exact ⟨hq, fun hsame => hsid (hp sid q hq hsame).symm⟩
  refine ⟨h.of_fewer rfl rfl (fun sid q hq => ?_) (fun id hid => ?_) fun _ hid => hid,
    fun sid q hq => (hpeers sid q hq).1⟩
  · obtain ⟨hin, hother⟩ := hpeers sid q hq
    refine ⟨hin, ?_⟩
    simp only [Membership.restart, lookup_erase]
    rw [if_neg fun heq => hother heq.symm]
  · simp only [Membership.restart, ExtTreeMap.mem_erase] at hid
    exact hid.2

theorem foldl_restart (ps : List Peer) (h : Sound C room seed m)
    (hps : ∀ p ∈ ps, ∀ (sid : UInt64) (q : Peer), m.peers[sid]? = some q → q.identity = p.identity →
      sid = p.sessionId) :
    Sound C room seed (ps.foldl Membership.restart m) ∧
      ∀ (sid : UInt64) (q : Peer), (ps.foldl Membership.restart m).peers[sid]? = some q →
        m.peers[sid]? = some q := by
  induction ps generalizing m with
  | nil => exact ⟨h, fun _ _ hq => hq⟩
  | cons p ps ih =>
    obtain ⟨hsound, hfewer⟩ := restart_sound h (hps p List.mem_cons_self)
    obtain ⟨hall, hrest⟩ := ih hsound fun p' hp' sid q hq hsame =>
      hps p' (List.mem_cons_of_mem p hp') sid q (hfewer sid q hq) hsame
    exact ⟨hall, fun sid q hq => hfewer sid q (hrest sid q hq)⟩

theorem reject_same (C : Crypto) (m : Membership) (roster : List Member) :
    ∃ rejected, (m.reject C roster).1 = { m with rejected } := by
  induction roster generalizing m with
  | nil => exact ⟨m.rejected, rfl⟩
  | cons r roster ih =>
    by_cases hquiet : RoomId.verify C m.room r.identity r.proof = true ∨ r.identity ∈ m.rejected
    · simp only [Membership.reject, if_pos hquiet]
      exact ih m
    · simp only [Membership.reject, if_neg hquiet]
      exact ih { m with rejected := insert r.identity m.rejected }

theorem mem_departed {m : Membership} {here : List PubKey} {order : IterOrder (PubKey × UInt64)}
    {id : PubKey} (hid : id ∈ m.byIdentity) (hgone : id ∉ here) :
    id ∈ ((order.walk m.byIdentity.toList).map Prod.fst).filter fun id => id ∉ here := by
  have hlisted : id ∈ (order.walk m.byIdentity.toList).map Prod.fst := by
    obtain ⟨sid, hsid⟩ := ExtTreeMap.mem_iff_isSome_getElem?.mp hid |> Option.isSome_iff_exists.mp
    refine List.mem_map.mpr ⟨(id, sid), ?_, rfl⟩
    simpa [ExtTreeMap.mem_toList_iff_getElem?_eq_some] using hsid
  simpa [hgone] using hlisted

theorem foldl_remove_pending (ids : List PubKey) (m : Membership) :
    (ids.foldl Membership.remove m).pending = m.pending ∧
      (ids.foldl Membership.remove m).roster = m.roster := by
  induction ids generalizing m with
  | nil => exact ⟨rfl, rfl⟩
  | cons id ids ih => exact ih (m.remove id)

theorem keepProven_placed (h : Sound C room seed m) (a : Polled) (roster : List Member) :
    Placed C room seed (m.verified C roster) roster (keepProven C a roster m).1 := by
  obtain ⟨rejected, hrejected⟩ := reject_same C { m with roster } roster
  have hnoted : Sound C room seed { m with roster, rejected } :=
    h.of_same rfl rfl rfl rfl fun _ hid => hid
  simp only [keepProven, Membership.depart, hrejected]
  obtain ⟨hsound, hpeers⟩ := foldl_remove
    (((a.identityOrder.walk m.byIdentity.toList).map Prod.fst).filter
      fun id => id ∉ m.verified C roster) hnoted
  obtain ⟨hpending, hroster⟩ := foldl_remove_pending
    (((a.identityOrder.walk m.byIdentity.toList).map Prod.fst).filter
      fun id => id ∉ m.verified C roster) { m with roster, rejected }
  refine ⟨hsound.of_same rfl rfl rfl rfl fun id hid => ?_, hroster, fun sid p hp => ?_,
    fun id hid => ?_⟩
  · simp only [ExtTreeMap.mem_filter] at hid
    exact hid.1
  · obtain ⟨hheld, hstays⟩ := hpeers sid p hp
    by_contra hgone
    refine hstays (mem_departed ?_ hgone)
    have hfiled := hnoted.filed sid p hheld
    exact ExtTreeMap.mem_iff_isSome_getElem?.mpr (by rw [hfiled]; rfl)
  · simp only [ExtTreeMap.mem_filter] at hid
    simpa using hid.2

variable {here : List PubKey} {roster : List Member}

theorem Placed.of_fewer (h : Placed C room seed here roster m) (hsound : Sound C room seed m')
    (hroster : m'.roster = m.roster)
    (hpeers : ∀ (sid : UInt64) (p : Peer), m'.peers[sid]? = some p → m.peers[sid]? = some p)
    (hpending : ∀ id ∈ m'.pending, id ∈ here) : Placed C room seed here roster m' where
  sound := hsound
  sameRoster := hroster.trans h.sameRoster
  held sid p hp := h.held sid p (hpeers sid p hp)
  pending := hpending

theorem foldl_restart_pending (ps : List Peer) (m : Membership) :
    (ps.foldl Membership.restart m).pending = m.pending ∧
      (ps.foldl Membership.restart m).roster = m.roster := by
  induction ps generalizing m with
  | nil => exact ⟨rfl, rfl⟩
  | cons p ps ih => exact ih (m.restart p)

theorem sweep_placed (h : Placed C room seed here roster m) (now : Nat)
    (order : IterOrder (UInt64 × Peer)) : Placed C room seed here roster (m.sweep now order).1 := by
  simp only [Membership.sweep]
  have hquiet : ∀ p ∈ ((order.walk m.peers.toList).map Prod.snd).filter
      (fun p => now - p.lastHeard > stale), ∀ (sid : UInt64) (q : Peer), m.peers[sid]? = some q →
        q.identity = p.identity → sid = p.sessionId := by
    intro p hp sid q hq hsame
    obtain ⟨row, hrow, rfl⟩ := List.mem_map.mp (List.mem_filter.mp hp).1
    have hlisted : (row.1, row.2) ∈ m.peers.toList := by simpa using hrow
    have hheld := ExtTreeMap.mem_toList_iff_getElem?_eq_some.mp hlisted
    rw [h.sound.sid row.1 row.2 hheld]
    exact h.sound.unique hq hheld hsame
  obtain ⟨hsound, hfewer⟩ := foldl_restart _ h.sound hquiet
  obtain ⟨hpending, hroster⟩ := foldl_restart_pending
    (((order.walk m.peers.toList).map Prod.snd).filter fun p => now - p.lastHeard > stale) m
  refine h.of_fewer hsound hroster hfewer fun id hid => ?_
  rw [hpending] at hid
  exact h.pending id hid

theorem offer_placed (h : Placed C room seed here roster m) (fresh : PubKey → Bytes32) {id : PubKey}
    (hid : id ∈ here) : Placed C room seed here roster (m.offer fresh id) := by
  unfold Membership.offer
  by_cases hheld : id ∈ m.byIdentity
  · rw [if_pos hheld]
    exact h
  · rw [if_neg hheld]
    have hpending : ∀ id' ∈ m.pending.insertIfNew id (fresh id), id' ∈ m.pending ∨ id' = id := by
      intro id' hid'
      rw [ExtTreeMap.mem_insertIfNew, LawfulEqCmp.compare_eq_iff_eq] at hid'
      exact hid'.symm.imp_right Eq.symm
    refine ⟨⟨h.sound.sameRoom, h.sound.sameSeed, h.sound.sid, h.sound.filed, ?_, h.sound.keyed⟩,
      h.sameRoster, h.held, ?_⟩
    · intro id' hid'
      cases hpending id' hid' with
      | inl hold => exact h.sound.apart id' hold
      | inr hnew => exact hnew ▸ hheld
    · intro id' hid'
      cases hpending id' hid' with
      | inl hold => exact h.pending id' hold
      | inr hnew => exact hnew ▸ hid

theorem foldl_offer (h : Placed C room seed here roster m) (fresh : PubKey → Bytes32)
    {ids : List PubKey} (hids : ∀ id ∈ ids, id ∈ here) :
    Placed C room seed here roster (ids.foldl (Membership.offer fresh) m) := by
  induction ids generalizing m with
  | nil => exact h
  | cons id ids ih =>
    exact ih (offer_placed h fresh (hids id List.mem_cons_self)) fun id' hid' =>
      hids id' (List.mem_cons_of_mem id hid')

theorem settle_placed (h : Placed C room seed here roster m) {id : PubKey} {p : Peer}
    (hid : id ∈ here) (hfree : id ∉ m.byIdentity) (hp : p.identity = id) (hkeyed : Keyed C seed p) :
    Placed C room seed here roster (m.settle id p) := by
  have hother : ∀ (sid : UInt64) (q : Peer), m.peers[sid]? = some q → q.identity ≠ p.identity := by
    intro sid q hq hsame
    have hfiled := h.sound.filed sid q hq
    rw [hsame, hp] at hfiled
    exact hfree (ExtTreeMap.mem_iff_isSome_getElem?.mpr (by rw [hfiled]; rfl))
  have hpeers : ∀ (sid : UInt64) (q : Peer), (m.settle id p).peers[sid]? = some q →
      q = p ∧ sid = p.sessionId ∨ m.peers[sid]? = some q := by
    intro sid q hq
    simp only [Membership.settle, lookup_insert] at hq
    by_cases hsid : p.sessionId = sid
    · rw [if_pos hsid] at hq
      exact Or.inl ⟨(Option.some.inj hq).symm, hsid.symm⟩
    · rw [if_neg hsid] at hq
      exact Or.inr hq
  have hpending : ∀ id' ∈ (m.settle id p).pending, id' ∈ m.pending ∧ id' ≠ id := by
    intro id' hid'
    simp only [Membership.settle, ExtTreeMap.mem_erase, ne_eq,
      LawfulEqCmp.compare_eq_iff_eq] at hid'
    exact ⟨hid'.2, fun heq => hid'.1 heq.symm⟩
  refine ⟨⟨h.sound.sameRoom, h.sound.sameSeed, ?_, ?_, ?_, ?_⟩, h.sameRoster, ?_, ?_⟩
  · intro sid q hq
    cases hpeers sid q hq with
    | inl hnew => rw [hnew.1, hnew.2]
    | inr hold => exact h.sound.sid sid q hold
  · intro sid q hq
    simp only [Membership.settle, lookup_insert]
    cases hpeers sid q hq with
    | inl hnew => rw [hnew.1, hnew.2, if_pos rfl]
    | inr hold =>
      rw [if_neg fun heq => hother sid q hold heq.symm]
      exact h.sound.filed sid q hold
  · intro id' hid' hin
    obtain ⟨hold, hne⟩ := hpending id' hid'
    simp only [Membership.settle, ExtTreeMap.mem_insert, LawfulEqCmp.compare_eq_iff_eq] at hin
    cases hin with
    | inl hsame => exact hne (hsame.symm.trans hp)
    | inr hin => exact h.sound.apart id' hold hin
  · intro sid q hq
    cases hpeers sid q hq with
    | inl hnew => exact hnew.1 ▸ hkeyed
    | inr hold => exact h.sound.keyed sid q hold
  · intro sid q hq
    cases hpeers sid q hq with
    | inl hnew =>
      rw [hnew.1, hp]
      exact hid
    | inr hold => exact h.held sid q hold
  · exact fun id' hid' => h.pending id' (hpending id' hid').1

end Books

section Polls
variable {C : Crypto} {room : RoomId} {seed : Bytes32} {here : List PubKey} {roster : List Member}

theorem derivePeer_keyed {eph peerEphemeral : Bytes32} {id : PubKey} {sessionId : UInt64}
    {r : Reached} {p : Peer} (h : derivePeer C seed eph id id peerEphemeral sessionId r = .ok p) :
    p.identity = id ∧ Keyed C seed p := by
  unfold derivePeer at h
  cases hderive : Session.derive C seed eph id peerEphemeral with
  | error e => simp [hderive] at h
  | ok session =>
    cases hplayback : r.playback with
    | some e => simp [hderive, hplayback] at h
    | none =>
      simp only [hderive, hplayback, Except.ok.injEq] at h
      subst h
      exact ⟨rfl, rfl, eph, peerEphemeral, hderive⟩

theorem tryBridge_keyed {eph : Bytes32} {id : PubKey} {r : Reached} {p : Peer}
    (hhonest : ∀ ack, r.callAck = .ok (some ack) → ack.state = .established → ack.peer = id)
    (h : tryBridge C seed eph id r = .ok (.peer p)) : p.identity = id ∧ Keyed C seed p := by
  obtain ⟨ack, hack, hstate, hmade⟩ := tryBridge_ok h
  rw [hhonest ack hack hstate] at hmade
  exact derivePeer_keyed hmade

theorem tryEstablish_keyed {eph : Bytes32} {id : PubKey} {r : Reached} {p : Peer}
    (h : tryEstablish C seed eph id r = .ok (some p)) : p.identity = id ∧ Keyed C seed p := by
  obtain ⟨ack, hmade⟩ := tryEstablish_ok h
  exact derivePeer_keyed hmade

/-- Where a bridge is placed does not change, and nobody still to be reached is held. -/
structure Due (start : Membership) (ws : List (PubKey × Bytes32)) (m : Membership) : Prop where
  bridges : m.bridgeTo = start.bridgeTo
  free : ∀ w ∈ ws, w.1 ∉ m.byIdentity

variable {start : Membership} {ws : List (PubKey × Bytes32)}

theorem Due.rest {w : PubKey × Bytes32} {m : Membership} (h : Due start (w :: ws) m) :
    Due start ws m :=
  ⟨h.bridges, fun w' hw' => h.free w' (List.mem_cons_of_mem w hw')⟩

theorem triple_settled {w : PubKey × Bytes32} {p : Peer} (hid : w.1 ∈ here)
    (hnew : ∀ w' ∈ ws, w'.1 ≠ w.1) (hp : p.identity = w.1) (hkeyed : Keyed C seed p) :
    Triple (Placed C room seed here roster) (Due start (w :: ws)) (settled w.1 p)
      fun _ m => Due start ws m := by
  intro m hm hdue
  have hfree := hdue.free w List.mem_cons_self
  refine ⟨settle_placed hm hid hfree hp hkeyed, fun _ _ => ⟨hdue.bridges, fun w' hw' hin => ?_⟩⟩
  change w'.1 ∈ m.byIdentity.insert p.identity p.sessionId at hin
  simp only [ExtTreeMap.mem_insert, LawfulEqCmp.compare_eq_iff_eq] at hin
  cases hin with
  | inl hsame => exact hnew w' hw' (hsame.symm.trans hp)
  | inr hin => exact hdue.rest.free w' hw' hin

theorem triple_reach {a : Polled} (hanswered : a.Answered start) {w : PubKey × Bytes32}
    (hwaits : w.1 ∈ start.pending) (hid : w.1 ∈ here) (hnew : ∀ w' ∈ ws, w'.1 ≠ w.1) :
    Triple (Placed C room seed here roster) (Due start (w :: ws)) (reach C a w)
      fun _ m => Due start ws m := by
  refine triple_get_bind fun m hm hdue => ?_
  have hsettled : ∀ p : Peer, p.identity = w.1 ∧ Keyed C m.seed p →
      Triple (Placed C room seed here roster) (fun m' => m' = m) (settled w.1 p)
        fun _ m' => Due start ws m' := by
    intro p hp
    rw [hm.sound.sameSeed] at hp
    exact (triple_settled hid hnew hp.1 hp.2).imp (fun m' hm' => hm' ▸ hdue) fun _ _ h => h
  cases hbridge : m.bridgeTo w.1 with
  | some home =>
    cases htry : tryBridge C m.seed w.2 w.1 (a.reached w.1) with
    | error e => exact triple_bind (triple_fail e) fun _ => triple_false
    | ok bridged =>
      refine triple_pure_bind ?_
      cases bridged with
      | peer p =>
        have hplaced : start.bridgeTo w.1 ≠ none := by
          rw [← hdue.bridges, hbridge]
          exact Option.some_ne_none home
        exact hsettled p (tryBridge_keyed (hanswered w.1 hwaits hplaced) htry)
      | waiting => exact triple_pure fun m' _ hm' => hm' ▸ hdue.rest
      | refused =>
        intro m' hm' hsame
        refine ⟨?_, fun _ _ => hsame ▸ ⟨hdue.bridges, hdue.rest.free⟩⟩
        refine ⟨?_, hm'.sameRoster, hm'.held, hm'.pending⟩
        exact hm'.sound.of_same rfl rfl rfl rfl fun _ h => h
  | none =>
    cases htry : tryEstablish C m.seed w.2 w.1 (a.reached w.1) with
    | error e => exact triple_bind (triple_fail e) fun _ => triple_false
    | ok got =>
      refine triple_pure_bind ?_
      cases got with
      | some p => exact hsettled p (tryEstablish_keyed htry)
      | none => exact triple_pure fun m' _ hm' => hm' ▸ hdue.rest

theorem triple_reachAll {a : Polled} (hanswered : a.Answered start)
    (hwaits : ∀ w ∈ ws, w.1 ∈ start.pending) (hids : ∀ w ∈ ws, w.1 ∈ here)
    (hdistinct : ws.Pairwise fun w w' => w'.1 ≠ w.1) :
    Triple (Placed C room seed here roster) (Due start ws) (reachAll C a ws) fun _ _ => True := by
  induction ws with
  | nil => exact triple_pure fun _ _ _ => trivial
  | cons w ws ih =>
    obtain ⟨hfirst, hrest⟩ := List.pairwise_cons.mp hdistinct
    have hreach : Triple (Placed C room seed here roster) (Due start (w :: ws)) (reach C a w)
        fun _ m => Due start ws m :=
      triple_reach hanswered (hwaits w List.mem_cons_self) (hids w List.mem_cons_self) hfirst
    have hothers := ih (fun w' hw' => hwaits w' (List.mem_cons_of_mem w hw'))
      (fun w' hw' => hids w' (List.mem_cons_of_mem w hw')) hrest
    refine triple_bind hreach fun _ => triple_bind hothers fun _ => triple_pure fun _ _ _ => trivial

theorem reachAll_placed {a : Polled} (hanswered : a.Answered start)
    (h : Placed C room seed here roster start) :
    Placed C room seed here roster
      ((reachAll C a (a.pendingOrder.walk start.pending.toList)).after start) := by
  have hwaiting : ∀ w ∈ a.pendingOrder.walk start.pending.toList, w.1 ∈ start.pending := by
    intro w hw
    have hlisted : (w.1, w.2) ∈ start.pending.toList := by simpa using hw
    exact ExtTreeMap.mem_iff_isSome_getElem?.mpr
      (by rw [ExtTreeMap.mem_toList_iff_getElem?_eq_some.mp hlisted]; rfl)
  have hdistinct : (a.pendingOrder.walk start.pending.toList).Pairwise fun w w' => w'.1 ≠ w.1 := by
    refine (a.pendingOrder.distinct_walk_toList start.pending).imp fun hne heq => hne ?_
    rw [heq]
    exact ReflCmp.compare_self
  have hdue : Due start (a.pendingOrder.walk start.pending.toList) start :=
    ⟨rfl, fun w hw => h.sound.apart w.1 (hwaiting w hw)⟩
  exact (triple_reachAll hanswered hwaiting (fun w hw => h.pending w.1 (hwaiting w hw)) hdistinct
    start h hdue).1

theorem reconnect_placed {a : Polled} {m : Membership} (h : Placed C room seed here roster m)
    (hanswered : a.Answered
      (here.foldl (Membership.offer a.fresh) (m.sweep a.now a.peersOrder).1)) :
    Placed C room seed here roster ((reconnect C a here).after m) := by
  have hoffered := foldl_offer (sweep_placed h a.now a.peersOrder) a.fresh fun _ hid => hid
  have hretain : Keeps (Placed C room seed here roster) (change fun m =>
      { m with unreachable := m.unreachable.filter fun id => id ∈ here }) := fun m hm =>
    ⟨hm.sound.of_same rfl rfl rfl rfl fun _ h => h, hm.sameRoster, hm.held, hm.pending⟩
  have hreached := reachAll_placed hanswered hoffered
  unfold reconnect after
  rw [bind_ok rfl, bind_ok rfl, bind_ok rfl]
  cases hcame : (reachAll C a (a.pendingOrder.walk _)).result _ with
  | error e =>
    rw [bind_error hcame]
    exact hreached
  | ok came =>
    rw [bind_ok hcame]
    exact keeps_bind hretain (fun _ => keeps_pure _) _ hreached

/-- What holds of a membership between polls: the books are sound, and the last roster
proves everybody held. -/
structure Good (C : Crypto) (room : RoomId) (seed : Bytes32) (m : Membership) : Prop where
  sound : Sound C room seed m
  proven : ∀ (sid : UInt64) (p : Peer), m.peers[sid]? = some p →
    ∃ r ∈ m.roster, r.identity = p.identity ∧ RoomId.verify C room r.identity r.proof = true

theorem mem_verified {m : Membership} {id : PubKey} (hid : id ∈ m.verified C roster) :
    ∃ r ∈ roster, r.identity = id ∧ RoomId.verify C m.room r.identity r.proof = true := by
  obtain ⟨r, hr, rfl⟩ := List.mem_map.mp hid
  obtain ⟨hin, hverify⟩ := List.mem_filter.mp hr
  exact ⟨r, hin, rfl, hverify⟩

/-- A poll that got as far as the roster leaves a good membership, wherever it then
failed. -/
theorem good_reconcile {a : Polled} {m : Membership} (h : Sound C room seed m)
    (hanswered : a.Answered (a.offered C roster m)) :
    Good C room seed ((reconcile C a roster).after m) := by
  have hplaced := keepProven_placed h a roster
  have hsame : (keepProven C a roster m).1.verified C roster = m.verified C roster := by
    unfold Membership.verified
    rw [hplaced.sound.sameRoom, h.sameRoom]
  have hafter : Placed C room seed (m.verified C roster) roster
      ((reconcile C a roster).after m) := by
    simp only [Polled.offered, hsame] at hanswered
    have hrest := reconnect_placed hplaced hanswered
    unfold reconcile after
    rw [bind_ok rfl, bind_ok rfl]
    change Placed C room seed _ roster ((reconnect C a
      ((keepProven C a roster m).1.verified C roster) >>= _) (keepProven C a roster m).1).2
    rw [hsame]
    cases hcame : (reconnect C a (m.verified C roster)).result (keepProven C a roster m).1 with
    | error e =>
      rw [bind_error hcame]
      exact hrest
    | ok came =>
      rw [bind_ok hcame]
      exact hrest
  refine ⟨hafter.sound, fun sid p hp => ?_⟩
  rw [hafter.sameRoster, ← h.sameRoom]
  exact mem_verified (hafter.held sid p hp)

theorem keeps_answered {α : Type} {I : Membership → Prop} (a : Except PollError α) :
    Keeps I (answered a) := by
  cases a with
  | ok a => exact keeps_pure a
  | error e => exact keeps_fail e

/-- Fetching a roster notes homes, names them, and notes what the exchange does not know. -/
theorem keeps_fetch_of {I : Membership → Prop}
    (hnoted : ∀ m homes share, I m → I { m with homes, share })
    (hplainly : ∀ m, I m → I { m with unshared := true })
    (hwordless : ∀ m, I m → I { m with unworded := true }) (a : Polled) : Keeps I (fetch a) := by
  have hplain : Keeps I (do
      let roster ← answered a.plain
      pure roster.members) := keeps_bind (keeps_answered _) fun _ => keeps_pure _
  have hhomed : ∀ homed, Keeps I (fetchHomed a homed) := by
    intro homed
    cases homed with
    | some homed => exact keeps_bind (fun m hm => hnoted m _ _ hm) fun _ => keeps_pure _
    | none => exact keeps_bind (keeps_modify hplainly) fun _ => hplain
  refine keeps_bind keeps_get fun m => keeps_ite hplain (keeps_ite ?_ ?_)
  · exact keeps_bind (keeps_answered _) hhomed
  · refine keeps_bind (keeps_answered _) fun homed => ?_
    cases homed with
    | some homed => exact hhomed (some homed)
    | none =>
      exact keeps_bind (keeps_modify hwordless) fun _ => keeps_bind (keeps_answered _) hhomed

theorem keeps_fetch (a : Polled) : Keeps (Good C room seed) (fetch a) := by
  refine keeps_fetch_of (fun m homes share hm => ?_) (fun m hm => ?_) (fun m hm => ?_) a
  all_goals exact ⟨hm.sound.of_same rfl rfl rfl rfl fun _ h => h, hm.proven⟩

theorem good_poll {a : Polled} {m : Membership} (h : Good C room seed m) (hhonest : a.Honest C m) :
    Good C room seed ((poll C a).after m) := by
  have hfetched := keeps_fetch a m h
  unfold poll after
  cases hroster : (fetch a).result m with
  | error e =>
    rw [bind_error hroster]
    exact hfetched
  | ok roster =>
    rw [bind_ok hroster]
    exact good_reconcile hfetched.sound (hhonest roster hroster)

end Polls

section Calls
variable {C : Crypto} {room : RoomId} {me : PubKey} {seed : Bytes32} {m : Membership}

def Proven (C : Crypto) (room : RoomId) (seed : Bytes32) (roster : List Member) (p : Peer) : Prop :=
  Keyed C seed p ∧
    ∃ r ∈ roster, r.identity = p.identity ∧ RoomId.verify C room r.identity r.proof = true

theorem Good.peer (h : Good C room seed m) {sid : UInt64} {p : Peer} (hp : m.peers[sid]? = some p) :
    Proven C room seed m.roster p := ⟨h.sound.keyed sid p hp, h.proven sid p hp⟩

/-- Rows replaced by rows that differ in counter and time only. -/
theorem Good.of_touched {m' : Membership} (h : Good C room seed m)
    (hsame : m' = { m with peers := m'.peers })
    (hpeers : ∀ (sid : UInt64) (p' : Peer), m'.peers[sid]? = some p' → ∃ p, m.peers[sid]? = some p ∧
      p' = { p with outSeq := p'.outSeq, lastHeard := p'.lastHeard }) : Good C room seed m' := by
  have hkept : ∀ (sid : UInt64) (p' : Peer), m'.peers[sid]? = some p' →
      p'.sessionId = sid ∧ m.byIdentity[p'.identity]? = some sid ∧
        Proven C room seed m.roster p' := by
    intro sid p' hp'
    obtain ⟨p, hp, heq⟩ := hpeers sid p' hp'
    obtain ⟨hkeyed, hproof⟩ := h.peer hp
    rw [heq]
    refine ⟨h.sound.sid sid p hp, h.sound.filed sid p hp, ?_, hproof⟩
    exact ⟨hkeyed.derivedWith, hkeyed.derived⟩
  rw [hsame]
  refine ⟨⟨h.sound.sameRoom, h.sound.sameSeed, ?_, ?_, h.sound.apart, ?_⟩, ?_⟩
  · exact fun sid p' hp' => (hkept sid p' hp').1
  · exact fun sid p' hp' => (hkept sid p' hp').2.1
  · exact fun sid p' hp' => (hkept sid p' hp').2.2.1
  · exact fun sid p' hp' => (hkept sid p' hp').2.2.2

theorem good_speak (h : Good C room seed m) (body : Bytes) :
    Good C room seed (m.speak C body).1 := by
  refine h.of_touched rfl fun sid p' hp' => ?_
  simp only [Membership.speak, ExtTreeMap.getElem?_map, Option.map_eq_some_iff] at hp'
  obtain ⟨p, hp, rfl⟩ := hp'
  refine ⟨p, hp, ?_⟩
  by_cases hsealed : (sealedFor C body p).isSome
  · rw [if_pos hsealed]
  · rw [if_neg hsealed]

theorem good_heard (h : Good C room seed m) {sid : UInt64} {p : Peer} (hp : m.peers[sid]? = some p)
    (now : Nat) : Good C room seed (m.heard sid p now) := by
  refine h.of_touched rfl fun sid' p' hp' => ?_
  simp only [Membership.heard, lookup_insert] at hp'
  by_cases hsid : sid = sid'
  · subst hsid
    rw [if_pos rfl] at hp'
    obtain rfl := Option.some.inj hp'
    exact ⟨p, hp, rfl⟩
  · rw [if_neg hsid] at hp'
    exact ⟨p', hp', rfl⟩

theorem good_new (share : List (PubKey × String)) :
    Good C room seed (Membership.new room me seed share) := by
  have hnobody : ∀ (sid : UInt64) (p : Peer),
      (Membership.new room me seed share).peers[sid]? ≠ some p := by
    intro sid p hp
    simp [Membership.new] at hp
  refine ⟨⟨rfl, rfl, ?_, ?_, ?_, ?_⟩, ?_⟩
  · exact fun sid p hp => (hnobody sid p hp).elim
  · exact fun sid p hp => (hnobody sid p hp).elim
  · intro id hid
    simp [Membership.new] at hid
  · exact fun sid p hp => (hnobody sid p hp).elim
  · exact fun sid p hp => (hnobody sid p hp).elim

theorem mem_peers {sid : UInt64} {p : Peer} (h : (sid, p) ∈ m.peers.toList) :
    m.peers[sid]? = some p := ExtTreeMap.mem_toList_iff_getElem?_eq_some.mp h

theorem mem_held {p : Peer} (h : p ∈ m.peers.toList.map Prod.snd) :
    ∃ sid : UInt64, m.peers[sid]? = some p := by
  obtain ⟨row, hrow, rfl⟩ := List.mem_map.mp h
  exact ⟨row.1, mem_peers hrow⟩

theorem mem_present {p : Peer} (h : p ∈ m.present) : ∃ sid : UInt64, m.peers[sid]? = some p :=
  mem_held (List.mem_mergeSort.mp h)

def RoomCall.Good (C : Crypto) (room : RoomId) (seed : Bytes32) (s : RoomCall) : Prop :=
  Voice.Good C room seed s.members ∧ ∀ u ∈ s.uses, Proven C room seed u.roster u.peer

theorem RoomCall.Good.noting {s : RoomCall} (h : s.Good C room seed)
    (hm : Voice.Good C room seed m) {ps : List Peer}
    (hps : ∀ p ∈ ps, Proven C room seed m.roster p) : (s.noting m ps).Good C room seed := by
  refine ⟨hm, fun u hu => ?_⟩
  cases List.mem_append.mp hu with
  | inl hnew =>
    obtain ⟨p, hp, rfl⟩ := List.mem_map.mp hnew
    exact hps p hp
  | inr hold => exact h.2 u hold

theorem opens_held {frame : DatagramFrame} {p : Peer} {plaintext : Bytes}
    (h : m.opens C frame = some (p, plaintext)) : m.peers[frame.sessionId]? = some p := by
  unfold Membership.opens at h
  cases hp : m.peers[frame.sessionId]? with
  | none => simp [hp] at h
  | some q =>
    cases hopen : q.session.openFrame C frame.seq frame.ciphertext with
    | error e => simp [hp, hopen] at h
    | ok text =>
      simp only [hp, hopen, Option.some.injEq, Prod.mk.injEq] at h
      rw [h.1]

def Op.Honest (C : Crypto) (s : RoomCall) : Op → Prop
  | .poll a => a.Honest C s.members
  | _ => True

theorem RoomCall.Good.step {s : RoomCall} (h : s.Good C room seed) {op : Op} (hop : op.Honest C s) :
    (RoomCall.step C s op).Good C room seed := by
  cases op with
  | poll a => exact ⟨good_poll h.1 hop, h.2⟩
  | speak body =>
    refine h.noting (good_speak h.1 body) fun p hp => ?_
    obtain ⟨sid, hheld⟩ := mem_held (List.mem_filter.mp hp).1
    exact h.1.peer hheld
  | hear frame isMedia now =>
    simp only [RoomCall.step]
    cases hopens : s.members.opens C frame with
    | none => exact h
    | some opened =>
      have hheld := opens_held hopens
      have hproven : ∀ p ∈ [opened.1], Proven C room seed s.members.roster p := by
        intro p hp
        rw [List.mem_singleton.mp hp]
        exact h.1.peer hheld
      by_cases hmedia : isMedia opened.2 = true
      · simp only [if_pos hmedia]
        exact h.noting (good_heard h.1 hheld now) hproven
      · simp only [if_neg hmedia]
        exact h.noting h.1 hproven
  | tick =>
    refine h.noting h.1 fun p hp => ?_
    obtain ⟨sid, hheld⟩ := mem_present hp
    exact h.1.peer hheld

/-- Everybody held is held under a session of their own, and proven by the last
roster, and so was everybody a frame was sealed to or opened from, or who was shown. -/
def RoomCall.Holders (C : Crypto) (room : RoomId) (seed : Bytes32) (s : RoomCall) : Prop :=
  (∀ (sid : UInt64) (p : Peer), s.members.peers[sid]? = some p →
    s.members.byIdentity[p.identity]? = some sid ∧ Proven C room seed s.members.roster p) ∧
  ∀ u ∈ s.uses, Proven C room seed u.roster u.peer

/-- Only holders of the room secret hear the room, in a call whose bridges are answered
by who they were placed to. -/
theorem only_holders (C : Crypto) (room : RoomId) (me : PubKey) (seed : Bytes32)
    (share : List (PubKey × String)) (ops : List Op)
    (h : Each (Op.Honest C) (RoomCall.step C)
      (.begin (Membership.new room me seed share)) ops) :
    Always (RoomCall.Holders C room seed) (RoomCall.step C)
      (.begin (Membership.new room me seed share)) ops := by
  have hbegin : (RoomCall.begin (Membership.new room me seed share)).Good C room seed :=
    ⟨good_new share, fun u hu => (List.not_mem_nil hu).elim⟩
  have hgood := h.always (fun s op hs hop => hs.step hop) hbegin
  refine hgood.imp fun s hs => ⟨fun sid p hp => ?_, hs.2⟩
  exact ⟨hs.1.sound.filed sid p hp, hs.1.peer hp⟩

end Calls

/-- A poll that lists 8 at the exchange 20 with a proof of the room 5, and has `who 8`
answer the bridge to it. -/
def answeredBy (who : PubKey → PubKey) : Polled where
  worded := .ok (some ⟨0, [⟨8, RoomId.proof Crypto.toy 5 8, 20⟩]⟩)
  shared := .ok none
  plain := .ok ⟨0, []⟩
  fresh _ := 11
  reached id := ⟨.ok none, .ok (some ⟨.established, 0, 1, who id, 12, 0⟩), none, 1000⟩
  now := 1000
  homesOrder := default
  identityOrder := default
  peersOrder := default
  pendingOrder := default

theorem answeredBy_honest (m : Membership) : (answeredBy id).Honest Crypto.toy m := by
  intro roster hroster id hid hbridge ack hack hstate
  obtain rfl := Option.some.inj (Except.ok.inj hack)
  rfl

/-- Somebody reached, spoken to and shown. -/
theorem only_holders_bridged :
    let begin := RoomCall.begin (Membership.new 5 7 6 [(20, "")])
    let ops := [.poll (answeredBy id), .speak [1], .tick]
    Always (RoomCall.Holders Crypto.toy 5 6) (RoomCall.step Crypto.toy) begin ops ∧
      (run (RoomCall.step Crypto.toy) begin ops).uses.map (fun u => u.peer.identity) = [8, 8] :=
  ⟨only_holders Crypto.toy 5 7 6 [(20, "")] _
    ⟨answeredBy_honest _, trivial, trivial, trivial⟩, by decide +kernel⟩

/-- A bridge to 8 answered by 9, who proved nothing: what is said next is sealed for 9. -/
theorem stranger_hears :
    ¬ Always (RoomCall.Holders Crypto.toy 5 6) (RoomCall.step Crypto.toy)
      (.begin (Membership.new 5 7 6 [(20, "")])) [.poll (answeredBy fun _ => 9), .speak [1]] := by
  intro h
  have hlast := always_iff_prefixes.mp h _ List.prefix_rfl
  have hforged : ∃ u ∈ (run (RoomCall.step Crypto.toy)
      (.begin (Membership.new 5 7 6 [(20, "")]))
      [.poll (answeredBy fun _ => 9), .speak [1]]).uses,
      u.peer.identity = 8 ∧ u.peer.derivedWith = 9 := by decide +kernel
  obtain ⟨u, hu, hidentity, hderived⟩ := hforged
  have hown := (hlast.2 u hu).1.derivedWith
  rw [hidentity, hderived] at hown
  exact absurd hown (by decide)

end Sqex.Voice
