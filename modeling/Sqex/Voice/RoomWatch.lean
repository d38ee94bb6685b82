import Sqex.Voice.RoomReport

/-! A room watched from poll to poll: its books are inverse to one another and what was said adds up
to who is held. -/
namespace Sqex.Voice
open Std Room Runs Call
variable {C : Crypto} {a : Polled} {roster : List Member} {m : Membership} {b : Books}
variable {id x : PubKey}

section Letting

def Books.Owns (b : Books) (p : Peer) : Prop :=
  b.byIdentity[p.identity]? = some p.sessionId ∨
    p.identity ∉ b.byIdentity ∧ p.sessionId ∉ b.peers

theorem restart_books {p : Peer} (h : m.books.Owns p) :
    (m.restart p).books = m.books.strike p.identity := by
  cases h with
  | inl howned =>
    have hsid : m.byIdentity[p.identity]? = some p.sessionId := howned
    simp [Membership.restart, Membership.books, Books.strike, hsid]
  | inr hgone =>
    have hid : p.identity ∉ m.byIdentity := hgone.1
    have hsid : p.sessionId ∉ m.peers := hgone.2
    simp [Membership.restart, Membership.books, Books.strike, hid, erase_of_not_mem hsid]

theorem Books.Owns.strike {p : Peer} (h : b.Owns p) (id : PubKey) : (b.strike id).Owns p := by
  by_cases hid : id = p.identity
  · subst hid
    refine .inr ⟨by simp [Books.strike, ExtTreeMap.mem_erase], ?_⟩
    cases h with
    | inl howned => simp [Books.strike, howned, ExtTreeMap.mem_erase]
    | inr hgone => simpa [Books.strike, hgone.1] using hgone.2
  · cases h with
    | inl howned => exact .inl (by rw [Books.lookup_strike, if_neg hid, howned])
    | inr hgone =>
      refine .inr ⟨by simp [Books.strike, ExtTreeMap.mem_erase, hgone.1], ?_⟩
      unfold Books.strike
      split
      · simp [ExtTreeMap.mem_erase, hgone.2]
      · exact hgone.2

theorem foldl_restart_books {ps : List Peer} (h : ∀ p ∈ ps, m.books.Owns p) :
    (ps.foldl Membership.restart m).books =
      (ps.map (·.identity)).foldl Books.strike m.books := by
  induction ps generalizing m with
  | nil => rfl
  | cons p ps ih =>
    have hfirst := restart_books (h p (by simp))
    rw [List.foldl_cons, List.map_cons, List.foldl_cons, ih fun q hq => ?_, hfirst]
    rw [hfirst]
    exact (h q (by simp [hq])).strike p.identity

theorem foldl_remove_books (ids : List PubKey) (m : Membership) :
    (ids.foldl Membership.remove m).books = ids.foldl Books.strike m.books := by
  induction ids generalizing m with
  | nil => rfl
  | cons id ids ih => exact ih (m.remove id)

theorem lookup_foldl_strike_peers (h : b.Inverse) (ids : List PubKey) (sid : UInt64) :
    (ids.foldl Books.strike b).peers[sid]? =
      b.peers[sid]?.filter fun p => p.identity ∉ ids := by
  induction ids generalizing b with
  | nil => cases hp : b.peers[sid]? <;> simp [hp, Option.filter_some]
  | cons id ids ih =>
    rw [List.foldl_cons, ih (h.strike id), Books.lookup_strike_peers h, Option.filter_filter]
    congr 1
    funext p
    simp

end Letting

section Halves

def Membership.departed (C : Crypto) (a : Polled) (roster : List Member) (m : Membership) :
    List PubKey :=
  ((a.identityOrder.walk m.byIdentity.toList).map Prod.fst).filter
    fun id => id ∉ m.verified C roster

def Membership.quiet (a : Polled) (m : Membership) : List Peer :=
  ((a.peersOrder.walk m.peers.toList).map Prod.snd).filter fun p => a.now - p.lastHeard > stale

theorem mem_departed_iff : id ∈ m.departed C a roster ↔
    id ∈ m.byIdentity ∧ id ∉ m.verified C roster := by
  constructor
  · intro h
    obtain ⟨hlisted, hgone⟩ := List.mem_filter.mp h
    obtain ⟨row, hrow, rfl⟩ := List.mem_map.mp hlisted
    have hheld : m.byIdentity[row.1]? = some row.2 :=
      ExtTreeMap.mem_toList_iff_getElem?_eq_some.mp (by simpa using hrow)
    exact ⟨ExtTreeMap.mem_iff_isSome_getElem?.mpr (by simp [hheld]), by simpa using hgone⟩
  · exact fun h => mem_departed h.1 h.2

theorem mem_quiet_iff {p : Peer} : p ∈ m.quiet a ↔
    (∃ sid : UInt64, m.peers[sid]? = some p) ∧ a.now - p.lastHeard > stale := by
  have hlisted : p ∈ (a.peersOrder.walk m.peers.toList).map Prod.snd ↔
      ∃ sid : UInt64, m.peers[sid]? = some p := by
    simp [ExtTreeMap.mem_toList_iff_getElem?_eq_some]
  unfold Membership.quiet
  rw [List.mem_filter, hlisted]
  simp

structure Membership.Alike (m m' : Membership) : Prop where
  room : m'.room = m.room
  me : m'.me = m.me
  seed : m'.seed = m.seed
  homes : m'.homes = m.homes

/-- Some identities let go of, and nobody new waiting. -/
structure Membership.LetsGo (m m' : Membership) (ids : List PubKey) : Prop where
  alike : m.Alike m'
  books : m'.books = ids.foldl Books.strike m.books
  pending : ∀ id ∈ m'.pending, id ∈ m.pending

variable {m' m'' : Membership} {ids ids' : List PubKey}

theorem Membership.Alike.trans (h : m.Alike m') (h' : m'.Alike m'') : m.Alike m'' :=
  ⟨h'.room.trans h.room, h'.me.trans h.me, h'.seed.trans h.seed, h'.homes.trans h.homes⟩

theorem Membership.LetsGo.trans (h : m.LetsGo m' ids) (h' : m'.LetsGo m'' ids') :
    m.LetsGo m'' (ids ++ ids') where
  alike := h.alike.trans h'.alike
  books := by rw [h'.books, h.books, List.foldl_append]
  pending id hid := h.pending id (h'.pending id hid)

theorem foldl_remove_alike (ids : List PubKey) (m : Membership) :
    m.Alike (ids.foldl Membership.remove m) := by
  induction ids generalizing m with
  | nil => exact ⟨rfl, rfl, rfl, rfl⟩
  | cons id ids ih =>
    have hfirst : m.Alike (m.remove id) := ⟨rfl, rfl, rfl, rfl⟩
    exact hfirst.trans (ih (m.remove id))

theorem foldl_restart_alike (ps : List Peer) (m : Membership) :
    m.Alike (ps.foldl Membership.restart m) := by
  induction ps generalizing m with
  | nil => exact ⟨rfl, rfl, rfl, rfl⟩
  | cons p ps ih =>
    have hfirst : m.Alike (m.restart p) := ⟨rfl, rfl, rfl, rfl⟩
    exact hfirst.trans (ih (m.restart p))

theorem keepProven_letsGo (C : Crypto) (a : Polled) (roster : List Member) (m : Membership) :
    m.LetsGo (keepProven C a roster m).1 (m.departed C a roster) ∧
      (keepProven C a roster m).1.roster = roster ∧
      ∀ id ∈ (keepProven C a roster m).1.pending, id ∈ m.verified C roster := by
  obtain ⟨rejected, hrejected⟩ := reject_same C { m with roster } roster
  let start : Membership := { m with roster, rejected }
  have halike : start.Alike ((m.departed C a roster).foldl Membership.remove start) :=
    foldl_remove_alike _ start
  have hbooks : ((m.departed C a roster).foldl Membership.remove start).books =
      (m.departed C a roster).foldl Books.strike start.books := foldl_remove_books _ start
  obtain ⟨hpending, hroster⟩ := foldl_remove_pending (m.departed C a roster) start
  simp only [keepProven, Membership.depart, hrejected]
  have hwaiting : ∀ id ∈ ((m.departed C a roster).foldl Membership.remove start).pending.filter
      (fun id _ => decide (id ∈ m.verified C roster)),
      id ∈ m.pending ∧ id ∈ m.verified C roster := by
    intro id hid
    rw [hpending] at hid
    simpa [ExtTreeMap.mem_filter] using hid
  exact ⟨⟨⟨halike.room, halike.me, halike.seed, halike.homes⟩, hbooks,
    fun id hid => (hwaiting id hid).1⟩, hroster, fun id hid => (hwaiting id hid).2⟩

theorem keepProven_said (C : Crypto) (a : Polled) (roster : List Member) (m : Membership)
    (s : Finset PubKey) : x ∈ (keepProven C a roster m).2.foldl told s ↔
      x ∈ s ∧ x ∉ m.departed C a roster := by
  obtain ⟨rejected, hrejected⟩ := reject_same C { m with roster } roster
  have hsilent := reject_silent C { m with roster } roster
  simp only [keepProven, Membership.depart, hrejected]
  rw [List.foldl_append, foldl_told_silent hsilent]
  exact mem_foldl_erase RoomEvent.left (fun _ _ => rfl) (m.departed C a roster) s

theorem sweep_letsGo (h : m.books.Inverse) (a : Polled) :
    m.LetsGo (m.sweep a.now a.peersOrder).1 ((m.quiet a).map (·.identity)) ∧
      (m.sweep a.now a.peersOrder).1.roster = m.roster ∧
      (m.sweep a.now a.peersOrder).1.pending = m.pending := by
  have howns : ∀ p ∈ m.quiet a, m.books.Owns p := by
    intro p hp
    obtain ⟨⟨sid, hsid⟩, -⟩ := mem_quiet_iff.mp hp
    have hfiled := h.filed sid p hsid
    rw [← h.sid sid p hsid] at hfiled
    exact .inl hfiled
  obtain ⟨hpending, hroster⟩ := foldl_restart_pending (m.quiet a) m
  refine ⟨⟨foldl_restart_alike (m.quiet a) m, foldl_restart_books howns, fun id hid => ?_⟩,
    hroster, hpending⟩
  rwa [← hpending]

theorem sweep_said (a : Polled) (m : Membership) (s : Finset PubKey) :
    x ∈ (m.sweep a.now a.peersOrder).2.foldl told s ↔
      x ∈ s ∧ x ∉ (m.quiet a).map (·.identity) := by
  have hevents : (m.sweep a.now a.peersOrder).2 =
      ((m.quiet a).map (·.identity)).map .restarted := by
    rw [List.map_map]
    rfl
  rw [hevents]
  exact mem_foldl_erase RoomEvent.restarted (fun _ _ => rfl) _ s

/-- Offers touch nobody's session: whoever waits after them waited, or is offered one now. -/
theorem foldl_offer_waits (fresh : PubKey → Bytes32) (ids : List PubKey) (m : Membership) :
    m.Alike (ids.foldl (Membership.offer fresh) m) ∧
      (ids.foldl (Membership.offer fresh) m).books = m.books ∧
      (ids.foldl (Membership.offer fresh) m).roster = m.roster ∧
      ∀ id ∈ (ids.foldl (Membership.offer fresh) m).pending,
        id ∈ m.pending ∨ id ∈ ids ∧ id ∉ m.byIdentity := by
  induction ids generalizing m with
  | nil => exact ⟨⟨rfl, rfl, rfl, rfl⟩, rfl, rfl, fun id hid => .inl hid⟩
  | cons id ids ih =>
    obtain ⟨halike, hbooks, hroster, hpending⟩ := ih (m.offer fresh id)
    by_cases hheld : id ∈ m.byIdentity
    · have hsame : m.offer fresh id = m := by rw [Membership.offer, if_pos hheld]
      rw [List.foldl_cons]
      rw [hsame] at halike hbooks hroster hpending ⊢
      refine ⟨halike, hbooks, hroster, fun x hx => (hpending x hx).imp_right fun hnew => ?_⟩
      exact ⟨List.mem_cons_of_mem id hnew.1, hnew.2⟩
    · have hnew : m.offer fresh id = { m with pending := m.pending.insertIfNew id (fresh id) } := by
        rw [Membership.offer, if_neg hheld]
      rw [List.foldl_cons]
      rw [hnew] at halike hbooks hroster hpending ⊢
      refine ⟨⟨halike.room, halike.me, halike.seed, halike.homes⟩, hbooks, hroster, fun x hx => ?_⟩
      cases hpending x hx with
      | inl hwaits =>
        rw [ExtTreeMap.mem_insertIfNew, LawfulEqCmp.compare_eq_iff_eq] at hwaits
        cases hwaits with
        | inl heq => exact .inr ⟨by simp [heq], heq ▸ hheld⟩
        | inr hold => exact .inl hold
      | inr hoffered => exact .inr ⟨List.mem_cons_of_mem id hoffered.1, hoffered.2⟩

end Halves

section Offers

/-- A session a poll keeps: its roster proves the peer, who was heard of lately. -/
def Stays (C : Crypto) (a : Polled) (roster : List Member) (m : Membership) (p : Peer) : Prop :=
  p.identity ∈ m.verified C roster ∧ a.now - p.lastHeard ≤ stale

instance (p : Peer) : Decidable (Stays C a roster m p) := by
  unfold Stays
  infer_instance

def Membership.gone (C : Crypto) (a : Polled) (roster : List Member) (m : Membership) :
    List PubKey :=
  m.departed C a roster ++ ((keepProven C a roster m).1.quiet a).map (·.identity)

/-- Who is reached of those waiting in a poll, until a request fails, and whether one does. -/
def reaches (C : Crypto) (a : Polled) (roster : List Member) (m : Membership) : List Peer × Bool :=
  joins C a m.seed m.bridgeTo (a.pendingOrder.walk (a.offered C roster m).pending.toList)

theorem Membership.Alike.bridgeTo {m' : Membership} (h : m.Alike m') :
    m'.bridgeTo = m.bridgeTo := by
  funext id
  rw [Membership.bridgeTo, Membership.bridgeTo, h.homes, h.me]

theorem Membership.Alike.verified {m' : Membership} (h : m.Alike m') (roster : List Member) :
    m'.verified C roster = m.verified C roster := by
  rw [Membership.verified, Membership.verified, h.room]

structure Offered (C : Crypto) (a : Polled) (roster : List Member) (m o : Membership) : Prop where
  alike : m.Alike o
  books : o.books = (m.gone C a roster).foldl Books.strike m.books
  listed : o.roster = roster
  proven : ∀ id ∈ o.pending, id ∈ m.verified C roster
  waits : ∀ id ∈ o.pending, id ∈ m.pending ∨ id ∉ o.byIdentity

theorem offered_offered (h : m.books.Inverse) (a : Polled) (roster : List Member) :
    Offered C a roster m (a.offered C roster m) := by
  obtain ⟨hkept, hkeptRoster, hproven⟩ := keepProven_letsGo C a roster m
  have hinverse : (keepProven C a roster m).1.books.Inverse := by
    rw [hkept.books]
    exact h.foldl_strike _
  obtain ⟨hswept, hsweptRoster, hsame⟩ := sweep_letsGo hinverse a
  obtain ⟨halike, hbooks, hroster, hwaits⟩ := foldl_offer_waits a.fresh
    ((keepProven C a roster m).1.verified C roster)
    ((keepProven C a roster m).1.sweep a.now a.peersOrder).1
  have hgone := hkept.trans hswept
  have hfiled : (a.offered C roster m).byIdentity =
      ((keepProven C a roster m).1.sweep a.now a.peersOrder).1.byIdentity :=
    congrArg Books.byIdentity hbooks
  refine ⟨hgone.alike.trans halike, ?_, ?_, fun id hid => ?_, fun id hid => ?_⟩
  · exact hbooks.trans hgone.books
  · exact hroster.trans (hsweptRoster.trans hkeptRoster)
  · cases hwaits id hid with
    | inl hold =>
      rw [hsame] at hold
      exact hproven id hold
    | inr hnew => exact hkept.alike.verified roster ▸ hnew.1
  · rw [hfiled]
    exact (hwaits id hid).imp (hgone.pending id) And.right

theorem Books.Inverse.mem_iff (h : b.Inverse) : id ∈ b.byIdentity ↔
    ∃ (sid : UInt64) (p : Peer), b.peers[sid]? = some p ∧ p.identity = id := by
  rw [ExtTreeMap.mem_iff_isSome_getElem?, Option.isSome_iff_exists]
  constructor
  · rintro ⟨sid, hsid⟩
    exact ⟨sid, h.named id sid hsid⟩
  · rintro ⟨sid, p, hp, rfl⟩
    exact ⟨sid, h.filed sid p hp⟩

theorem Books.Inverse.peer_inj (h : b.Inverse) {sid sid' : UInt64} {p q : Peer}
    (hp : b.peers[sid]? = some p) (hq : b.peers[sid']? = some q) (hid : p.identity = q.identity) :
    p = q := by
  have hsid := h.filed sid p hp
  rw [hid, h.filed sid' q hq] at hsid
  rw [← Option.some.inj hsid, hq] at hp
  exact (Option.some.inj hp).symm

theorem mem_gone_iff (h : m.books.Inverse) {sid : UInt64} {p : Peer} (hp : m.peers[sid]? = some p) :
    p.identity ∈ m.gone C a roster ↔ ¬ Stays C a roster m p := by
  have hheld : p.identity ∈ m.byIdentity := h.mem_iff.mpr ⟨sid, p, hp, rfl⟩
  have hkept : (keepProven C a roster m).1.peers[sid]? =
      (some p).filter fun q => q.identity ∉ m.departed C a roster := by
    rw [← hp]
    have hstruck := lookup_foldl_strike_peers h (m.departed C a roster) sid
    rw [← (keepProven_letsGo C a roster m).1.books] at hstruck
    exact hstruck
  unfold Membership.gone Stays
  rw [List.mem_append, mem_departed_iff]
  by_cases hproven : p.identity ∈ m.verified C roster
  · have hstill : (keepProven C a roster m).1.peers[sid]? = some p := by
      rw [hkept, Option.filter_some, if_pos]
      simp [mem_departed_iff, hproven]
    have hquiet : p.identity ∈ ((keepProven C a roster m).1.quiet a).map (·.identity) ↔
        a.now - p.lastHeard > stale := by
      constructor
      · intro hmem
        obtain ⟨q, hq, hid⟩ := List.mem_map.mp hmem
        obtain ⟨⟨sid', hsid'⟩, hlate⟩ := mem_quiet_iff.mp hq
        have hinverse : (keepProven C a roster m).1.books.Inverse := by
          rw [(keepProven_letsGo C a roster m).1.books]
          exact h.foldl_strike _
        rw [← hinverse.peer_inj hsid' hstill hid]
        exact hlate
      · exact fun hlate => List.mem_map_of_mem (mem_quiet_iff.mpr ⟨⟨sid, hstill⟩, hlate⟩)
    simp only [hquiet, hproven, not_true, and_false, false_or, true_and]
    omega
  · simp [hproven, hheld]

end Offers

section Polls
variable {o : Membership}

theorem saying_bind {α : Type} {f : Membership → Membership × List RoomEvent}
    {g : List RoomEvent → RoomM α} : (saying f >>= g) m = g (f m).2 (f m).1 := rfl

theorem change_bind {α : Type} {f : Membership → Membership} {g : Unit → RoomM α} :
    (change f >>= g) m = g () (f m) := rfl

theorem reconcile_ok {came : List RoomEvent}
    (h : reachAll C a (a.pendingOrder.walk (a.offered C roster m).pending.toList)
      (a.offered C roster m) = (.ok came, o)) :
    ∃ unreachable, reconcile C a roster m = (.ok ((keepProven C a roster m).2 ++
      (((keepProven C a roster m).1.sweep a.now a.peersOrder).2 ++ came)),
      { o with unreachable }) := by
  simp only [Polled.offered] at h
  have hresult := congrArg Prod.fst h
  have hafter := congrArg Prod.snd h
  have hreconnect : ∃ unreachable, reconnect C a ((keepProven C a roster m).1.verified C roster)
      (keepProven C a roster m).1 =
      (.ok (((keepProven C a roster m).1.sweep a.now a.peersOrder).2 ++ came),
        { o with unreachable }) := by
    rw [reconnect, saying_bind, change_bind, get_bind, bind_ok hresult, change_bind]
    subst hafter
    exact ⟨_, rfl⟩
  obtain ⟨unreachable, hreconnect⟩ := hreconnect
  refine ⟨unreachable, ?_⟩
  rw [reconcile, saying_bind, get_bind, bind_ok (congrArg Prod.fst hreconnect)]
  rw [after, hreconnect]
  rfl

theorem reconcile_error {e : PollError}
    (h : reachAll C a (a.pendingOrder.walk (a.offered C roster m).pending.toList)
      (a.offered C roster m) = (.error e, o)) :
    reconcile C a roster m = (.error e, o) := by
  simp only [Polled.offered] at h
  have hresult := congrArg Prod.fst h
  have hafter := congrArg Prod.snd h
  have hreconnect : reconnect C a ((keepProven C a roster m).1.verified C roster)
      (keepProven C a roster m).1 = (.error e, o) := by
    rw [reconnect, saying_bind, change_bind, get_bind, bind_error hresult]
    exact congrArg (Prod.mk _) hafter
  rw [reconcile, saying_bind, get_bind, bind_error (congrArg Prod.fst hreconnect)]
  exact congrArg (Prod.mk _) (congrArg Prod.snd hreconnect)

/-- What a poll with its roster does: it enters whoever it reaches in the books it comes to them
with, and says who is held then, unless a request fails. -/
theorem reconcile_came (h : m.books.Inverse) (a : Polled) (roster : List Member) :
    Came (a.offered C roster m) ((reconcile C a roster).after m) (reaches C a roster m).1 ∧
      ((reaches C a roster m).2 = true → ∃ e, (reconcile C a roster).result m = .error e) ∧
      ((reaches C a roster m).2 = false → ∃ events,
        (reconcile C a roster).result m = .ok events ∧ ∀ s x, x ∈ events.foldl told s ↔
          (x ∈ s ∧ x ∉ m.gone C a roster) ∨ x ∈ (reaches C a roster m).1.map (·.identity)) := by
  have halike := (offered_offered h a roster (C := C)).alike
  have hcame := reachAll_came C a (a.pendingOrder.walk (a.offered C roster m).pending.toList)
    (a.offered C roster m)
  rw [halike.seed, halike.bridgeTo] at hcame
  obtain ⟨hentered, hfailed, hall⟩ := hcame
  cases hran : reachAll C a (a.pendingOrder.walk (a.offered C roster m).pending.toList)
      (a.offered C roster m) with
  | mk got o =>
    have hresult := congrArg Prod.fst hran
    rw [after, hran] at hentered
    rw [result, hran] at hfailed hall
    cases got with
    | error e =>
      rw [after, result, reconcile_error hran]
      refine ⟨hentered, fun _ => ⟨e, rfl⟩, fun hnone => ?_⟩
      obtain ⟨events, hok, -⟩ := hall hnone
      cases hok
    | ok came =>
      obtain ⟨unreachable, hpoll⟩ := reconcile_ok hran
      rw [after, result, hpoll]
      refine ⟨⟨hentered.books, hentered.pending, hentered.roster⟩, fun hsome => ?_,
        fun hnone => ⟨_, rfl, fun s x => ?_⟩⟩
      · obtain ⟨e, hfails⟩ := hfailed hsome
        cases hfails
      · obtain ⟨events, hok, hheld⟩ := hall hnone
        obtain rfl := Except.ok.inj hok
        rw [List.foldl_append, List.foldl_append]
        refine (hheld _ x).trans (or_congr_left ?_)
        rw [sweep_said, keepProven_said, Membership.gone, List.mem_append, not_or, and_assoc]

end Polls

def Membership.connectingTo (m : Membership) : List PubKey :=
  m.pending.keys.filter fun id => id ∉ m.rebuilding

/-- How many peers are still to be connected to, one that is rebuilt not among them. -/
def Membership.connecting (m : Membership) : Nat := m.connectingTo.length

structure Watched where
  members : Membership
  events : List RoomEvent

/-- What happens to a membership: a poll, and hearing a peer at a time. -/
inductive Turn where
  | poll (a : Polled)
  | heard (sid : UInt64) (now : Nat)

def said : Except PollError (List RoomEvent) → List RoomEvent
  | .ok events => events
  | .error _ => []

def Watched.step (C : Crypto) (w : Watched) : Turn → Watched
  | .poll a => ⟨(poll C a).after w.members, w.events ++ said ((poll C a).result w.members)⟩
  | .heard sid now =>
    match w.members.peers[sid]? with
    | some p => { w with members := w.members.heard sid p now }
    | none => w

/-- The books are inverse, nobody is held and waiting, who is counted as connecting is in the last
roster, and what was said adds up to who is held. -/
structure Watched.Agrees (w : Watched) : Prop where
  inverse : w.members.books.Inverse
  apart : ∀ id ∈ w.members.pending, id ∉ w.members.byIdentity
  listed : ∀ id ∈ w.members.connectingTo, id ∈ w.members.roster.map (·.identity)
  said : ∀ id, id ∈ w.members.byIdentity ↔ id ∈ w.events.foldl told ∅

/-- Who is reached comes under a session id that is nobody else's, held or reached; and where a
request fails, who is held then is who was. -/
structure Orderly (C : Crypto) (a : Polled) (roster : List Member) (m : Membership) : Prop where
  distinct : ((reaches C a roster m).1.map (·.sessionId)).Nodup
  free : ∀ q ∈ (reaches C a roster m).1, ∀ p ∈ m.peers[q.sessionId]?, ¬ Stays C a roster m p
  same : (reaches C a roster m).2 = true → ∀ id, id ∈ m.byIdentity ↔
    (∃ (sid : UInt64) (p : Peer), m.peers[sid]? = some p ∧ p.identity = id ∧
      Stays C a roster m p) ∨ id ∈ (reaches C a roster m).1.map (·.identity)

def Turn.Clean (C : Crypto) (w : Watched) : Turn → Prop
  | .poll a => ∀ roster, (fetch a).result w.members = .ok roster →
    Orderly C a roster ((fetch a).after w.members)
  | .heard _ _ => True

section Turns
variable {w : Watched}

theorem mem_connectingTo (m : Membership) :
    id ∈ m.connectingTo ↔ id ∈ m.pending ∧ id ∉ m.rebuilding := by
  simp [Membership.connectingTo]

theorem fetch_kept (a : Polled) (m : Membership) : ∃ homes share unshared unworded,
    (fetch a).after m = { m with homes, share, unshared, unworded } := by
  have hkeeps : Keeps (fun m' : Membership => ∃ homes share unshared unworded,
      m' = { m with homes, share, unshared, unworded }) (fetch a) := by
    refine keeps_fetch_of (fun m' homes share hm => ?_) (fun m' hm => ?_) (fun m' hm => ?_) a
    all_goals
      obtain ⟨_, _, _, _, rfl⟩ := hm
      exact ⟨_, _, _, _, rfl⟩
  exact hkeeps m ⟨m.homes, m.share, m.unshared, m.unworded, rfl⟩

theorem reaches_nodup (C : Crypto) (a : Polled) (roster : List Member) (m : Membership) :
    ((reaches C a roster m).1.map (·.identity)).Nodup := by
  refine List.Nodup.sublist (joins_sublist C a m.seed m.bridgeTo _) ?_
  have hkeys : ((a.offered C roster m).pending.toList.map Prod.fst).Nodup := by
    rw [ExtTreeMap.map_fst_toList_eq_keys]
    exact ExtTreeMap.nodup_keys
  exact ((a.pendingOrder.perm _).map Prod.fst).nodup_iff.mpr hkeys

theorem reaches_pending {q : Peer} (hq : q ∈ (reaches C a roster m).1) :
    q.identity ∈ (a.offered C roster m).pending := by
  have hlisted := (joins_sublist C a m.seed m.bridgeTo _).subset (List.mem_map_of_mem hq)
  obtain ⟨row, hrow, hid⟩ := List.mem_map.mp hlisted
  have hheld := ExtTreeMap.mem_toList_iff_getElem?_eq_some.mp
    (show (row.1, row.2) ∈ (a.offered C roster m).pending.toList by simpa using hrow)
  rw [← hid]
  exact ExtTreeMap.mem_iff_isSome_getElem?.mpr (by simp [hheld])

theorem mem_offered (h : m.books.Inverse) (a : Polled) (roster : List Member) :
    id ∈ (a.offered C roster m).byIdentity ↔ id ∈ m.byIdentity ∧ id ∉ m.gone C a roster := by
  have hbooks := (offered_offered h a roster (C := C)).books
  have hstruck := Books.mem_foldl_strike m.books (m.gone C a roster) id
  rw [← hbooks] at hstruck
  exact hstruck

/-- Who is held still once a poll comes to try somebody. -/
theorem mem_offered_iff_stays (h : m.books.Inverse) (a : Polled) (roster : List Member) :
    id ∈ (a.offered C roster m).byIdentity ↔
      ∃ (sid : UInt64) (p : Peer), m.peers[sid]? = some p ∧ p.identity = id ∧
        Stays C a roster m p := by
  rw [mem_offered h]
  constructor
  · rintro ⟨hheld, hstill⟩
    obtain ⟨sid, p, hp, rfl⟩ := h.mem_iff.mp hheld
    rw [mem_gone_iff h hp, not_not] at hstill
    exact ⟨sid, p, hp, rfl, hstill⟩
  · rintro ⟨sid, p, hp, rfl, hstays⟩
    refine ⟨h.mem_iff.mpr ⟨sid, p, hp, rfl⟩, ?_⟩
    rwa [mem_gone_iff h hp, not_not]

theorem not_mem_offered_peers_iff (h : m.books.Inverse) (a : Polled) (roster : List Member)
    (sid : UInt64) : sid ∉ (a.offered C roster m).peers ↔
      ∀ p ∈ m.peers[sid]?, ¬ Stays C a roster m p := by
  have hstruck := lookup_foldl_strike_peers h (m.gone C a roster) sid
  rw [← (offered_offered h a roster (C := C)).books] at hstruck
  have hlookup : (a.offered C roster m).peers[sid]? =
      m.peers[sid]?.filter fun p => p.identity ∉ m.gone C a roster := hstruck
  rw [ExtTreeMap.mem_iff_isSome_getElem?, hlookup]
  cases hp : m.peers[sid]? with
  | none => simp
  | some p =>
    rw [Option.filter_some]
    by_cases hstays : Stays C a roster m p
    · simp [mem_gone_iff h hp, hstays]
    · simp [mem_gone_iff h hp, hstays]

theorem reconcile_agrees {events : List RoomEvent} (h : Watched.Agrees ⟨m, events⟩) (a : Polled)
    (roster : List Member) :
    Watched.Agrees ⟨(reconcile C a roster).after m,
      events ++ said ((reconcile C a roster).result m)⟩ ↔ Orderly C a roster m := by
  have hinverse : m.books.Inverse := h.inverse
  have hoffered := offered_offered hinverse a roster (C := C)
  obtain ⟨hcame, hfailed, hall⟩ := reconcile_came hinverse a roster (C := C)
  have hstart : (a.offered C roster m).books.Inverse := by
    rw [hoffered.books]
    exact hinverse.foldl_strike _
  have hwaits : ∀ id ∈ (a.offered C roster m).pending,
      id ∉ (a.offered C roster m).byIdentity := by
    intro id hid
    cases hoffered.waits id hid with
    | inl hold => exact fun hheld => h.apart id hold ((mem_offered hinverse a roster).mp hheld).1
    | inr hnew => exact hnew
  have hafter : ∀ id, id ∈ ((reconcile C a roster).after m).byIdentity ↔
      id ∈ (a.offered C roster m).byIdentity ∨
        id ∈ (reaches C a roster m).1.map (·.identity) := by
    intro id
    have hentered := Books.mem_foldl_enter (a.offered C roster m).books (reaches C a roster m).1 id
    rw [← hcame.books] at hentered
    exact hentered
  have hbooks : ((reconcile C a roster).after m).books.Inverse ↔
      ((reaches C a roster m).1.map (·.sessionId)).Nodup ∧
        ∀ q ∈ (reaches C a roster m).1, ∀ p ∈ m.peers[q.sessionId]?, ¬ Stays C a roster m p := by
    rw [hcame.books, hstart.foldl_enter_iff (reaches_nodup C a roster m) fun q hq =>
      hwaits q.identity (reaches_pending hq)]
    exact and_congr_right fun _ => forall₂_congr fun q _ =>
      not_mem_offered_peers_iff hinverse a roster q.sessionId
  have hapart : ∀ id ∈ ((reconcile C a roster).after m).pending,
      id ∉ ((reconcile C a roster).after m).byIdentity := by
    intro id hid
    obtain ⟨hwaited, hmissed⟩ := hcame.pending id hid
    rw [hafter, not_or]
    exact ⟨hwaits id hwaited, hmissed⟩
  have hlisted : ∀ id ∈ ((reconcile C a roster).after m).connectingTo,
      id ∈ ((reconcile C a roster).after m).roster.map (·.identity) := by
    intro id hid
    have hproven := hoffered.proven id
      (hcame.pending id ((mem_connectingTo _).mp hid).1).1
    rw [hcame.roster, hoffered.listed]
    exact (List.map_subset _ (List.filter_sublist).subset) hproven
  have hsaid : (∀ id, id ∈ ((reconcile C a roster).after m).byIdentity ↔
      id ∈ (events ++ said ((reconcile C a roster).result m)).foldl told ∅) ↔
      ((reaches C a roster m).2 = true → ∀ id, id ∈ m.byIdentity ↔
        (∃ (sid : UInt64) (p : Peer), m.peers[sid]? = some p ∧ p.identity = id ∧
          Stays C a roster m p) ∨ id ∈ (reaches C a roster m).1.map (·.identity)) := by
    cases hfails : (reaches C a roster m).2 with
    | true =>
      obtain ⟨e, he⟩ := hfailed hfails
      rw [he]
      simp only [said, List.append_nil, true_implies, hafter, ← h.said,
        mem_offered_iff_stays hinverse]
      exact forall_congr' fun id => Iff.comm
    | false =>
      obtain ⟨news, hnews, hheld⟩ := hall hfails
      rw [hnews]
      refine iff_of_true (fun id => ?_) (by simp)
      have htold : id ∈ m.byIdentity ↔ id ∈ events.foldl told ∅ := h.said id
      rw [hafter, mem_offered hinverse, said, List.foldl_append, hheld, ← htold]
  constructor
  · intro hagrees
    obtain ⟨hdistinct, hfree⟩ := hbooks.mp hagrees.inverse
    exact ⟨hdistinct, hfree, hsaid.mp hagrees.said⟩
  · intro horderly
    exact ⟨hbooks.mpr ⟨horderly.distinct, horderly.free⟩, hapart, hlisted,
      hsaid.mpr horderly.same⟩

theorem agrees_poll (h : w.Agrees) (a : Polled) :
    (w.step C (.poll a)).Agrees ↔ Turn.Clean C w (.poll a) := by
  obtain ⟨homes, share, unshared, unworded, hfetched⟩ := fetch_kept a w.members
  have hkept : Watched.Agrees ⟨(fetch a).after w.members, w.events⟩ := by
    rw [hfetched]
    exact ⟨h.inverse, h.apart, h.listed, h.said⟩
  simp only [Watched.step, Turn.Clean]
  cases hroster : (fetch a).result w.members with
  | error e =>
    have hpoll : poll C a w.members = (.error e, (fetch a).after w.members) := by
      rw [poll, bind_error hroster]
    rw [result, after, hpoll]
    simpa [said] using hkept
  | ok roster =>
    have hpoll : poll C a w.members = reconcile C a roster ((fetch a).after w.members) := by
      rw [poll, bind_ok hroster]
    rw [result, after, hpoll]
    simp only [Except.ok.injEq, forall_eq']
    exact reconcile_agrees hkept a roster

theorem heard_inverse (h : m.books.Inverse) {sid : UInt64} {p : Peer} (hp : m.peers[sid]? = some p)
    (now : Nat) : (m.heard sid p now).books.Inverse := by
  have hlookup : ∀ sid' : UInt64, (m.heard sid p now).books.peers[sid']? =
      if sid = sid' then some { p with lastHeard := now } else m.peers[sid']? :=
    fun sid' => lookup_insert m.peers sid sid' _
  -- under any session id there is who was there, heard of now or not
  have hheld : ∀ (sid' : UInt64) (q : Peer), (m.heard sid p now).books.peers[sid']? = some q →
      ∃ old, m.peers[sid']? = some old ∧ q.sessionId = old.sessionId ∧
        q.identity = old.identity := by
    intro sid' q hq
    rw [hlookup] at hq
    split at hq
    · rename_i heq
      obtain rfl := Option.some.inj hq
      exact ⟨p, heq ▸ hp, rfl, rfl⟩
    · exact ⟨q, hq, rfl, rfl⟩
  constructor
  · intro sid' q hq
    obtain ⟨old, hold, hsid, -⟩ := hheld sid' q hq
    rw [hsid]
    exact h.sid sid' old hold
  · intro sid' q hq
    obtain ⟨old, hold, -, hid⟩ := hheld sid' q hq
    rw [hid]
    exact h.filed sid' old hold
  · intro id sid' hid
    obtain ⟨old, hold, rfl⟩ := h.named id sid' hid
    have hpeer : m.peers[sid']? = some old := hold
    rw [hlookup]
    by_cases heq : sid = sid'
    · subst heq
      rw [hp] at hpeer
      obtain rfl := Option.some.inj hpeer
      exact ⟨{ p with lastHeard := now }, if_pos rfl, rfl⟩
    · exact ⟨old, by rw [if_neg heq, hpeer], rfl⟩

theorem agrees_heard (h : w.Agrees) (sid : UInt64) (now : Nat) :
    (w.step C (.heard sid now)).Agrees := by
  cases hp : w.members.peers[sid]? with
  | none =>
    have hsame : w.step C (.heard sid now) = w := by simp only [Watched.step, hp]
    rw [hsame]
    exact h
  | some p =>
    have hnow : w.step C (.heard sid now) = { w with members := w.members.heard sid p now } := by
      simp only [Watched.step, hp]
    rw [hnow]
    exact ⟨heard_inverse h.inverse hp now, h.apart, h.listed, h.said⟩

theorem agrees_new (room : RoomId) (me : PubKey) (seed : Bytes32) (share : List (PubKey × String)) :
    Watched.Agrees ⟨Membership.new room me seed share, []⟩ := by
  refine ⟨⟨?_, ?_, ?_⟩, ?_, ?_, ?_⟩ <;>
    simp [Membership.new, Membership.books, Membership.connectingTo]

/-- A room's books agree and what its polls say adds up to who is held, in every run exactly as
long as sessions come under ids of their own and no poll fails that has changed who is held. -/
theorem room_adds_up_iff (C : Crypto) (room : RoomId) (me : PubKey) (seed : Bytes32)
    (share : List (PubKey × String)) (turns : List Turn) :
    Always Watched.Agrees (Watched.step C) ⟨Membership.new room me seed share, []⟩ turns ↔
      Each (Turn.Clean C) (Watched.step C) ⟨Membership.new room me seed share, []⟩ turns := by
  refine always_iff_each (fun w turn hw => ?_) (agrees_new room me seed share)
  cases turn with
  | poll a => exact agrees_poll hw a
  | heard sid now => exact iff_of_true (agrees_heard hw sid now) trivial

def plainly (roster : List PubKey) (openAck : PubKey → Except PollError (Option OpenAck)) :
    Polled where
  worded := .ok none
  shared := .ok none
  plain := .ok ⟨0, roster.map fun id => ⟨id, RoomId.proof Crypto.toy 5 id⟩⟩
  fresh _ := 11
  reached id := ⟨openAck id, .ok none, none, 1000⟩
  now := 1000
  homesOrder := default
  identityOrder := default
  peersOrder := default
  pendingOrder := default

/-- A member leaves in a poll that a request then ends, and nobody says so; two members are
answered one session id, and the one's book names the other. -/
theorem poll_drops_what_it_collected :
    (¬ Always Watched.Agrees (Watched.step Crypto.toy) ⟨Membership.new 5 7 6 [], []⟩
      [.poll (plainly [8] fun _ => .ok (some ⟨.established, 1, 12, 0⟩)),
       .poll (plainly [9] fun _ => .error (.words "refused"))]) ∧
    ¬ Always Watched.Agrees (Watched.step Crypto.toy) ⟨Membership.new 5 7 6 [], []⟩
      [.poll (plainly [8, 9] fun _ => .ok (some ⟨.established, 1, 12, 0⟩))] := by
  constructor
  · intro h
    have hlast := (always_iff_prefixes.mp h _ List.prefix_rfl).said 8
    revert hlast
    decide +kernel
  · intro h
    have hlast := (always_iff_prefixes.mp h _ List.prefix_rfl).inverse
    have hsame : (8 : PubKey) = 9 :=
      @Books.Inverse.inj _ 8 9 1 hlast (by decide +kernel) (by decide +kernel)
    exact absurd hsame (by decide)

end Turns
end Sqex.Voice
