import Sqex.Lib.Rows
import Sqex.Voice.RoomSecret

/-! The two books of a room, which peer a session id is and which session id an identity has, and
what a poll does to them and says of it, unless a request that fails keeps a change from being said.
-/
namespace Sqex.Voice

section Inverses
open Std

structure Books where
  peers : ExtTreeMap UInt64 Peer
  byIdentity : ExtTreeMap PubKey UInt64

def Membership.books (m : Membership) : Books := ⟨m.peers, m.byIdentity⟩

namespace Books
variable {b : Books} {id x : PubKey} {sid : UInt64} {p : Peer}

def strike (b : Books) (id : PubKey) : Books where
  peers := match b.byIdentity[id]? with
    | some sid => b.peers.erase sid
    | none => b.peers
  byIdentity := b.byIdentity.erase id

def enter (b : Books) (p : Peer) : Books where
  peers := b.peers.insert p.sessionId p
  byIdentity := b.byIdentity.insert p.identity p.sessionId

structure Inverse (b : Books) : Prop where
  sid : ∀ (sid : UInt64) (p : Peer), b.peers[sid]? = some p → p.sessionId = sid
  filed : ∀ (sid : UInt64) (p : Peer), b.peers[sid]? = some p →
    b.byIdentity[p.identity]? = some sid
  named : ∀ (id : PubKey) (sid : UInt64), b.byIdentity[id]? = some sid →
    ∃ p, b.peers[sid]? = some p ∧ p.identity = id

theorem Inverse.inj (h : b.Inverse) (hid : b.byIdentity[id]? = some sid)
    (hx : b.byIdentity[x]? = some sid) : id = x := by
  obtain ⟨p, hp, rfl⟩ := h.named id sid hid
  obtain ⟨q, hq, rfl⟩ := h.named x sid hx
  rw [hp] at hq
  rw [Option.some.inj hq]

theorem lookup_strike_peers (h : b.Inverse) (id : PubKey) (sid : UInt64) :
    (b.strike id).peers[sid]? = b.peers[sid]?.filter fun p => p.identity ≠ id := by
  cases hp : b.peers[sid]? with
  | none =>
    unfold strike
    split
    · rw [lookup_erase]
      split
      · rfl
      · simp [hp]
    · simp [hp]
  | some p =>
    have hfiled := h.filed sid p hp
    rw [Option.filter_some]
    by_cases hid : p.identity = id
    · subst hid
      simp [strike, hfiled]
    · rw [if_pos (by simpa using hid)]
      unfold strike
      split
      · rename_i sid' hsid'
        rw [lookup_erase, if_neg, hp]
        rintro rfl
        exact hid (h.inj hfiled hsid')
      · exact hp

theorem lookup_strike (b : Books) (id x : PubKey) :
    (b.strike id).byIdentity[x]? = if id = x then none else b.byIdentity[x]? :=
  lookup_erase b.byIdentity id x

theorem Inverse.strike (h : b.Inverse) (id : PubKey) : (b.strike id).Inverse := by
  have hpeer : ∀ (sid : UInt64) (p : Peer), (b.strike id).peers[sid]? = some p →
      b.peers[sid]? = some p ∧ p.identity ≠ id := by
    intro sid p hp
    rw [lookup_strike_peers h, Option.filter_eq_some_iff] at hp
    simpa using hp
  constructor
  · exact fun sid p hp => h.sid sid p (hpeer sid p hp).1
  · intro sid p hp
    obtain ⟨hheld, hne⟩ := hpeer sid p hp
    rw [lookup_strike, if_neg (Ne.symm hne)]
    exact h.filed sid p hheld
  · intro x sid hx
    rw [lookup_strike] at hx
    split at hx
    · cases hx
    · rename_i hne
      obtain ⟨p, hp, rfl⟩ := h.named x sid hx
      refine ⟨p, ?_, rfl⟩
      rw [lookup_strike_peers h, hp, Option.filter_some, if_pos (by simpa using Ne.symm hne)]

theorem Inverse.foldl_strike (h : b.Inverse) (ids : List PubKey) :
    (ids.foldl Books.strike b).Inverse := by
  induction ids generalizing b with
  | nil => exact h
  | cons id ids ih => exact ih (h.strike id)

theorem mem_foldl_strike (b : Books) (ids : List PubKey) (x : PubKey) :
    x ∈ (ids.foldl strike b).byIdentity ↔ x ∈ b.byIdentity ∧ x ∉ ids := by
  induction ids generalizing b with
  | nil => simp
  | cons id ids ih =>
    rw [List.foldl_cons, ih]
    have hmem : x ∈ (b.strike id).byIdentity ↔ id ≠ x ∧ x ∈ b.byIdentity := by
      simp [Books.strike, ExtTreeMap.mem_erase]
    rw [hmem]
    simp only [List.mem_cons, not_or]
    grind

theorem mem_foldl_enter (b : Books) (ps : List Peer) (x : PubKey) :
    x ∈ (ps.foldl enter b).byIdentity ↔ x ∈ b.byIdentity ∨ x ∈ ps.map (·.identity) := by
  induction ps generalizing b with
  | nil => simp
  | cons p ps ih =>
    rw [List.foldl_cons, ih]
    have hmem : x ∈ (b.enter p).byIdentity ↔ p.identity = x ∨ x ∈ b.byIdentity := by
      simp [Books.enter, ExtTreeMap.mem_insert]
    rw [hmem]
    simp only [List.map_cons, List.mem_cons]
    grind

theorem byIdentity_foldl_enter (b : Books) (ps : List Peer) : (ps.foldl enter b).byIdentity =
    ps.foldl (fun t p => t.insert p.identity p.sessionId) b.byIdentity := by
  induction ps generalizing b with
  | nil => rfl
  | cons p ps ih => exact ih (b.enter p)

theorem lookup_foldl_enter (b : Books) {ps : List Peer} (hids : (ps.map (·.identity)).Nodup)
    (x : PubKey) : (ps.foldl enter b).byIdentity[x]? =
      ((ps.find? (·.identity = x)).map (·.sessionId)).or b.byIdentity[x]? := by
  rw [byIdentity_foldl_enter]
  exact getElem?_foldl_insert (·.identity) (fun p _ => p.sessionId) b.byIdentity ps hids x

theorem Inverse.enter (h : b.Inverse) (hsid : p.sessionId ∉ b.peers)
    (hid : p.identity ∉ b.byIdentity) : (b.enter p).Inverse := by
  have hheld : ∀ (sid : UInt64) (q : Peer), b.peers[sid]? = some q →
      p.sessionId ≠ sid ∧ p.identity ≠ q.identity := by
    intro sid q hq
    constructor
    · rintro rfl
      exact hsid (ExtTreeMap.mem_iff_isSome_getElem?.mpr (by simp [hq]))
    · intro heq
      have hfiled := h.filed sid q hq
      exact hid (ExtTreeMap.mem_iff_isSome_getElem?.mpr (by simp [heq, hfiled]))
  have hpeer : ∀ (sid : UInt64) (q : Peer), (b.enter p).peers[sid]? = some q →
      q = p ∧ sid = p.sessionId ∨ b.peers[sid]? = some q := by
    intro sid q hq
    rw [Books.enter, lookup_insert] at hq
    split at hq
    · rename_i heq
      exact .inl ⟨(Option.some.inj hq).symm, heq.symm⟩
    · exact .inr hq
  constructor
  · intro sid q hq
    obtain ⟨rfl, rfl⟩ | hold := hpeer sid q hq
    · rfl
    · exact h.sid sid q hold
  · intro sid q hq
    rw [Books.enter, lookup_insert]
    obtain ⟨rfl, rfl⟩ | hold := hpeer sid q hq
    · rw [if_pos rfl]
    · rw [if_neg (hheld sid q hold).2]
      exact h.filed sid q hold
  · intro x sid hx
    rw [Books.enter, lookup_insert] at hx
    split at hx
    · rename_i heq
      obtain rfl := Option.some.inj hx
      exact ⟨p, by simp [Books.enter], heq⟩
    · obtain ⟨q, hq, rfl⟩ := h.named x sid hx
      refine ⟨q, ?_, rfl⟩
      rw [Books.enter, lookup_insert, if_neg (hheld sid q hq).1]
      exact hq

theorem Inverse.foldl_enter_iff (h : b.Inverse) {ps : List Peer}
    (hids : (ps.map (·.identity)).Nodup) (hnew : ∀ p ∈ ps, p.identity ∉ b.byIdentity) :
    (ps.foldl Books.enter b).Inverse ↔
      (ps.map (·.sessionId)).Nodup ∧ ∀ p ∈ ps, p.sessionId ∉ b.peers := by
  constructor
  · intro hall
    have hentered : ∀ p ∈ ps, (ps.foldl Books.enter b).byIdentity[p.identity]? =
        some p.sessionId := by
      intro p hp
      cases hfind : ps.find? (·.identity = p.identity) with
      | none => simpa using List.find?_eq_none.mp hfind p hp
      | some q =>
        have hq := List.mem_of_find?_eq_some hfind
        have hsame : q.identity = p.identity := by simpa using List.find?_some hfind
        obtain rfl : q = p := List.inj_on_of_nodup_map hids hq hp hsame
        simp [lookup_foldl_enter b hids, hfind]
    constructor
    · rw [List.nodup_iff_pairwise_ne, List.pairwise_map] at hids ⊢
      refine hids.imp_of_mem fun {p q} hp hq hne heq => hne ?_
      exact hall.inj (hentered p hp) (heq ▸ hentered q hq)
    · intro p hp hmem
      obtain ⟨q, hq⟩ := Option.isSome_iff_exists.mp (ExtTreeMap.mem_iff_isSome_getElem?.mp hmem)
      have hfiled := h.filed p.sessionId q hq
      have hheld : q.identity ∈ b.byIdentity :=
        ExtTreeMap.mem_iff_isSome_getElem?.mpr (by simp [hfiled])
      have hother : ps.find? (·.identity = q.identity) = none :=
        List.find?_eq_none.mpr fun r hr heq => hnew r hr (by
          rw [of_decide_eq_true heq]
          exact hheld)
      have hstays := lookup_foldl_enter b hids q.identity
      rw [hother, Option.map_none, Option.none_or, hfiled] at hstays
      exact hnew p hp (hall.inj (hentered p hp) hstays ▸ hheld)
  · rintro ⟨hsids, hfree⟩
    induction ps generalizing b with
    | nil => exact h
    | cons p ps ih =>
      simp only [List.map_cons, List.nodup_cons] at hids hsids
      have henter := h.enter (hfree p (by simp)) (hnew p (by simp))
      refine ih henter hids.2 (fun q hq => ?_) hsids.2 (fun q hq => ?_)
      · have hold := hnew q (by simp [hq])
        have hne : p.identity ≠ q.identity := fun heq =>
          hids.1 (heq ▸ List.mem_map_of_mem hq)
        simp [Books.enter, ExtTreeMap.mem_insert, hne, hold]
      · have hold := hfree q (by simp [hq])
        have hne : p.sessionId ≠ q.sessionId := fun heq =>
          hsids.1 (heq ▸ List.mem_map_of_mem hq)
        simp [Books.enter, ExtTreeMap.mem_insert, hne, hold]

end Books

end Inverses

section Reports
open Std Runs Call
variable {C : Crypto} {a : Polled} {m m' : Membership} {id x : PubKey}

section Events
variable {s : Finset PubKey}

def told (s : Finset PubKey) : RoomEvent → Finset PubKey
  | .joined id => insert id s
  | .left id => s.erase id
  | .restarted id => s.erase id
  | .rejected _ => s
  | .unreachable _ => s

/-- Whether an event is of nobody joining, leaving or restarting. -/
def RoomEvent.silent : RoomEvent → Bool
  | .rejected _ => true
  | .unreachable _ => true
  | _ => false

theorem foldl_told_silent {events : List RoomEvent} (h : ∀ e ∈ events, e.silent = true)
    (s : Finset PubKey) : events.foldl told s = s := by
  induction events with
  | nil => rfl
  | cons e events ih =>
    have hsame : told s e = s := by
      have he := h e (by simp)
      cases e <;> first | rfl | simp [RoomEvent.silent] at he
    rw [List.foldl_cons, hsame]
    exact ih fun e' he' => h e' (by simp [he'])

theorem mem_foldl_erase (event : PubKey → RoomEvent)
    (hevent : ∀ s id, told s (event id) = s.erase id) (ids : List PubKey) (s : Finset PubKey) :
    x ∈ (ids.map event).foldl told s ↔ x ∈ s ∧ x ∉ ids := by
  induction ids generalizing s with
  | nil => simp
  | cons id ids ih =>
    rw [List.map_cons, List.foldl_cons, ih, hevent, Finset.mem_erase]
    simp only [List.mem_cons, not_or]
    grind

theorem reject_silent (C : Crypto) (m : Membership) (roster : List Room.Member) :
    ∀ e ∈ (m.reject C roster).2, e.silent = true := by
  induction roster generalizing m with
  | nil => simp [Membership.reject]
  | cons r roster ih =>
    unfold Membership.reject
    split
    · exact ih m
    · intro e he
      obtain rfl | he := List.mem_cons.mp he
      · rfl
      · exact ih _ e he

end Events

section Reaching

/-- What trying to reach a member comes to: a failed request, nobody, or a peer. -/
def attempt (C : Crypto) (a : Polled) (seed : Bytes32) (bridgeTo : PubKey → Option PubKey)
    (w : PubKey × Bytes32) : Except PollError (Option Peer) :=
  match bridgeTo w.1 with
  | none => tryEstablish C seed w.2 w.1 (a.reached w.1)
  | some _ =>
    match tryBridge C seed w.2 w.1 (a.reached w.1) with
    | .error e => .error e
    | .ok (.peer p) => .ok (some p)
    | .ok _ => .ok none

/-- Who is reached of those waiting, until a request fails, and whether one does. -/
def joins (C : Crypto) (a : Polled) (seed : Bytes32) (bridgeTo : PubKey → Option PubKey) :
    List (PubKey × Bytes32) → List Peer × Bool
  | [] => ([], false)
  | w :: ws =>
    match attempt C a seed bridgeTo w with
    | .error _ => ([], true)
    | .ok none => joins C a seed bridgeTo ws
    | .ok (some p) => (p :: (joins C a seed bridgeTo ws).1, (joins C a seed bridgeTo ws).2)

theorem derivePeer_identity {seed eph id peer peerEphemeral : Bytes32} {sid : UInt64}
    {r : Reached} {p : Peer} (h : derivePeer C seed eph id peer peerEphemeral sid r = .ok p) :
    p.identity = id := by
  unfold derivePeer at h
  split at h
  · cases h
  · split at h
    · cases h
    · cases h
      rfl

theorem tryEstablish_identity {seed eph : Bytes32} {r : Reached} {p : Peer}
    (h : tryEstablish C seed eph id r = .ok (some p)) : p.identity = id := by
  obtain ⟨ack, hmade⟩ := tryEstablish_ok h
  exact derivePeer_identity hmade

theorem tryBridge_identity {seed eph : Bytes32} {r : Reached} {p : Peer}
    (h : tryBridge C seed eph id r = .ok (.peer p)) : p.identity = id := by
  obtain ⟨ack, -, -, hmade⟩ := tryBridge_ok h
  exact derivePeer_identity hmade

variable {seed : Bytes32} {bridgeTo : PubKey → Option PubKey} {w : PubKey × Bytes32} {p : Peer}
variable {ws : List (PubKey × Bytes32)} {e : PollError}

theorem attempt_identity (h : attempt C a seed bridgeTo w = .ok (some p)) : p.identity = w.1 := by
  unfold attempt at h
  cases hbridge : bridgeTo w.1 with
  | none =>
    rw [hbridge] at h
    exact tryEstablish_identity h
  | some home =>
    cases htry : tryBridge C seed w.2 w.1 (a.reached w.1) with
    | error e => simp [hbridge, htry] at h
    | ok bridged =>
      cases bridged with
      | peer q =>
        simp only [hbridge, htry, Except.ok.injEq, Option.some.injEq] at h
        exact h ▸ tryBridge_identity htry
      | waiting | refused => simp [hbridge, htry] at h

theorem joins_sublist (C : Crypto) (a : Polled) (seed : Bytes32)
    (bridgeTo : PubKey → Option PubKey) (ws : List (PubKey × Bytes32)) :
    ((joins C a seed bridgeTo ws).1.map (·.identity)).Sublist (ws.map Prod.fst) := by
  induction ws with
  | nil => exact List.Sublist.slnil
  | cons w ws ih =>
    unfold joins
    cases htry : attempt C a seed bridgeTo w with
    | error e => exact List.nil_sublist _
    | ok got =>
      cases got with
      | none => exact ih.cons _
      | some p =>
        simp only [List.map_cons, attempt_identity htry]
        exact ih.cons_cons _

theorem reach_error (h : attempt C a m.seed m.bridgeTo w = .error e) :
    reach C a w m = (.error e, m) := by
  unfold attempt at h
  unfold reach
  rw [get_bind]
  cases hbridge : m.bridgeTo w.1 with
  | none =>
    rw [hbridge] at h
    have htry : tryEstablish C m.seed w.2 w.1 (a.reached w.1) = .error e := h
    rw [htry]
    rfl
  | some home =>
    cases htry : tryBridge C m.seed w.2 w.1 (a.reached w.1) with
    | error e' =>
      simp only [hbridge, htry, Except.error.injEq] at h
      subst h
      rfl
    | ok bridged => cases bridged <;> simp [hbridge, htry] at h

theorem reach_nobody (h : attempt C a m.seed m.bridgeTo w = .ok none) :
    ∃ events unreachable, reach C a w m = (.ok events, { m with unreachable }) ∧
      ∀ e ∈ events, e.silent = true := by
  unfold attempt at h
  unfold reach
  rw [get_bind]
  cases hbridge : m.bridgeTo w.1 with
  | none =>
    rw [hbridge] at h
    have htry : tryEstablish C m.seed w.2 w.1 (a.reached w.1) = .ok none := h
    rw [htry]
    exact ⟨[], m.unreachable, rfl, by simp⟩
  | some home =>
    cases htry : tryBridge C m.seed w.2 w.1 (a.reached w.1) with
    | error e' => simp [hbridge, htry] at h
    | ok bridged =>
      cases bridged with
      | peer p => simp [hbridge, htry] at h
      | waiting => exact ⟨[], m.unreachable, rfl, by simp⟩
      | refused =>
        refine ⟨if w.1 ∈ m.unreachable then [] else [.unreachable w.1],
          insert w.1 m.unreachable, rfl, fun e he => ?_⟩
        split at he
        · simp at he
        · obtain rfl : e = .unreachable w.1 := by simpa using he
          rfl

theorem reach_peer (h : attempt C a m.seed m.bridgeTo w = .ok (some p)) :
    reach C a w m = (.ok [.joined p.identity], m.settle w.1 p) := by
  unfold attempt at h
  unfold reach
  rw [get_bind]
  cases hbridge : m.bridgeTo w.1 with
  | none =>
    rw [hbridge] at h
    have htry : tryEstablish C m.seed w.2 w.1 (a.reached w.1) = .ok (some p) := h
    rw [htry]
    rfl
  | some home =>
    cases htry : tryBridge C m.seed w.2 w.1 (a.reached w.1) with
    | error e' => simp [hbridge, htry] at h
    | ok bridged =>
      cases bridged with
      | peer q =>
        simp only [hbridge, htry, Except.ok.injEq, Option.some.injEq] at h
        subst h
        rfl
      | waiting | refused => simp [hbridge, htry] at h

structure Came (m m' : Membership) (ps : List Peer) : Prop where
  books : m'.books = ps.foldl Books.enter m.books
  pending : ∀ id ∈ m'.pending, id ∈ m.pending ∧ id ∉ ps.map (·.identity)
  roster : m'.roster = m.roster

/-- Everybody waiting tried in turn: who is reached is entered, and said, unless a request
fails. -/
theorem reachAll_came (C : Crypto) (a : Polled) (ws : List (PubKey × Bytes32)) (m : Membership) :
    Came m ((reachAll C a ws).after m) (joins C a m.seed m.bridgeTo ws).1 ∧
      ((joins C a m.seed m.bridgeTo ws).2 = true → ∃ e, (reachAll C a ws).result m = .error e) ∧
      ((joins C a m.seed m.bridgeTo ws).2 = false → ∃ events,
        (reachAll C a ws).result m = .ok events ∧ ∀ s x, x ∈ events.foldl told s ↔
          x ∈ s ∨ x ∈ (joins C a m.seed m.bridgeTo ws).1.map (·.identity)) := by
  induction ws generalizing m with
  | nil =>
    refine ⟨⟨rfl, by simp [reachAll, joins, after, pure], rfl⟩, by simp [joins],
      fun _ => ⟨[], rfl, ?_⟩⟩
    simp [joins]
  | cons w ws ih =>
    -- what the rest comes to from where the first leaves it
    have hrest : ∀ (m₁ : Membership) (events : List RoomEvent),
        reach C a w m = (.ok events, m₁) →
        (reachAll C a (w :: ws)).after m = (reachAll C a ws).after m₁ ∧
        (∀ e, (reachAll C a ws).result m₁ = .error e →
          (reachAll C a (w :: ws)).result m = .error e) ∧
        (∀ rest, (reachAll C a ws).result m₁ = .ok rest →
          (reachAll C a (w :: ws)).result m = .ok (events ++ rest)) := by
      intro m₁ events hreach
      have hresult : (reach C a w).result m = .ok events := congrArg Prod.fst hreach
      have hafter : (reach C a w).after m = m₁ := congrArg Prod.snd hreach
      cases hcame : (reachAll C a ws).result m₁ with
      | error e =>
        refine ⟨?_, fun e' he' => ?_, by simp⟩
        · rw [after, reachAll, bind_ok hresult, hafter, bind_error hcame]
        · rw [result, reachAll, bind_ok hresult, hafter, bind_error hcame, he']
      | ok rest =>
        refine ⟨?_, by simp, fun rest' hrest' => ?_⟩
        · rw [after, reachAll, bind_ok hresult, hafter, bind_ok hcame]
          rfl
        · rw [result, reachAll, bind_ok hresult, hafter, bind_ok hcame, ← Except.ok.inj hrest']
          rfl
    cases htry : attempt C a m.seed m.bridgeTo w with
    | error e =>
      have hreach := reach_error htry
      have hresult : (reach C a w).result m = .error e := congrArg Prod.fst hreach
      have hafter : (reach C a w).after m = m := congrArg Prod.snd hreach
      have hall : reachAll C a (w :: ws) m = (.error e, m) := by
        rw [reachAll, bind_error hresult, hafter]
      simp only [joins, htry, after, result, hall]
      exact ⟨⟨rfl, by simp, rfl⟩, fun _ => ⟨e, rfl⟩, by simp⟩
    | ok got =>
      cases got with
      | none =>
        obtain ⟨events, unreachable, hreach, hsilent⟩ := reach_nobody htry
        obtain ⟨hafter, hfails, hcomes⟩ := hrest _ _ hreach
        obtain ⟨hcame, hfailed, hall⟩ := ih { m with unreachable }
        simp only [joins, htry]
        rw [hafter]
        refine ⟨⟨hcame.books, hcame.pending, hcame.roster⟩, fun h => ?_, fun h => ?_⟩
        · obtain ⟨e, he⟩ := hfailed h
          exact ⟨e, hfails e he⟩
        · obtain ⟨rest, hrest', hheld⟩ := hall h
          refine ⟨events ++ rest, hcomes rest hrest', fun s x => ?_⟩
          rw [List.foldl_append, foldl_told_silent hsilent]
          exact hheld s x
      | some p =>
        obtain ⟨hafter, hfails, hcomes⟩ := hrest _ _ (reach_peer htry)
        obtain ⟨hcame, hfailed, hall⟩ := ih (m.settle w.1 p)
        have hidentity := attempt_identity htry
        simp only [joins, htry]
        rw [hafter]
        refine ⟨⟨hcame.books, fun id hid => ?_, hcame.roster⟩, fun h => ?_, fun h => ?_⟩
        · obtain ⟨hpending, hnot⟩ := hcame.pending id hid
          have hne : w.1 ≠ id ∧ id ∈ m.pending := by
            simpa [Membership.settle, ExtTreeMap.mem_erase] using hpending
          refine ⟨hne.2, ?_⟩
          rw [List.map_cons, List.mem_cons, not_or, hidentity]
          exact ⟨Ne.symm hne.1, hnot⟩
        · obtain ⟨e, he⟩ := hfailed h
          exact ⟨e, hfails e he⟩
        · obtain ⟨rest, hrest', hheld⟩ := hall h
          refine ⟨.joined p.identity :: rest, hcomes rest hrest', fun s x => ?_⟩
          have hnow : x ∈ rest.foldl told (told s (.joined p.identity)) ↔
              (x = p.identity ∨ x ∈ s) ∨
                x ∈ (joins C a m.seed m.bridgeTo ws).1.map (·.identity) := by
            rw [← Finset.mem_insert]
            exact hheld (told s (.joined p.identity)) x
          rw [List.foldl_cons, List.map_cons, List.mem_cons, hnow]
          tauto

end Reaching

end Reports

end Sqex.Voice
