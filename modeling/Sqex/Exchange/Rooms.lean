import Sqex.Lib.Collections
import Sqex.Lib.Runs
import Sqex.Proto.Room

/-! The rooms an exchange carries: who is present in each, what its peers last shared of it,
and the roster with homes that a shared join is answered with. -/
namespace Sqex.Room
open Std Runs

def ttlSecs : UInt64 := 30
/-- Shares to one peer are at least this far apart while nothing changes. -/
def shareSecs : UInt64 := 10

/-- How long ago something was, by a clock that may have gone back since. -/
def ago (now since : UInt64) : UInt64 := now - min since now

structure Presence where
  proof : Bytes32
  lastSeen : UInt64
  deriving DecidableEq

/-- What one peer last said about a room. -/
structure Remote where
  members : List HomedMember
  heard : UInt64
  deriving DecidableEq

/-- A room's federation: the peers it is shared with, what each last shared, and when this
exchange last shared its own view. -/
structure Shared where
  peers : ExtTreeMap PubKey (Option Remote)
  lastShared : UInt64
  changed : Bool

def Shared.none : Shared := ⟨∅, 0, false⟩

/-- Every room the exchange carries. One that nobody is in, or nobody shares, is not there. -/
structure Rooms where
  rooms : Bytes32 → ExtTreeMap PubKey Presence
  shared : Bytes32 → Shared

inductive JoinError where
  | full
  deriving DecidableEq

namespace Rooms

def new : Rooms := ⟨fun _ => ∅, fun _ => .none⟩

def setRoom (s : Rooms) (handle : Bytes32) (members : ExtTreeMap PubKey Presence) : Rooms :=
  { s with rooms := Function.update s.rooms handle members }

def setShared (s : Rooms) (handle : Bytes32) (shared : Shared) : Rooms :=
  { s with shared := Function.update s.shared handle shared }

def live (s : Rooms) (handle : Bytes32) (now : UInt64) : ExtTreeMap PubKey Presence :=
  (s.rooms handle).filter fun _ p => ago now p.lastSeen < ttlSecs

def join (s : Rooms) (handle : Bytes32) (identity : PubKey) (proof : Bytes32) (now : UInt64) :
    Rooms × Except JoinError Roster :=
  let members := s.live handle now
  if members.contains identity = false ∧ members.size ≥ maxMembers then
    (s.setRoom handle members, .error .full)
  else
    let members := members.insert identity ⟨proof, now⟩
    let others := (members.toList.filter fun m => m.1 != identity).map fun m => ⟨m.1, m.2.proof⟩
    (s.setRoom handle members,
      .ok ⟨now, others.mergeSort fun (a b : Member) => a.identity ≤ b.identity⟩)

end Rooms

def Shared.name (s : Shared) (share : List PubKey) : Shared :=
  share.foldl (fun s peer =>
    if s.peers.contains peer then s
    else { s with peers := s.peers.insert peer Option.none, changed := true }) s

def Shared.fresh (s : Shared) (o : IterOrder (PubKey × Option Remote)) (now : UInt64) :
    List Remote :=
  ((o.walk s.peers.toList).filterMap Prod.snd).filter fun r => ago now r.heard < ttlSecs

def Shared.forget (s : Shared) (peer : PubKey) : Shared :=
  { s with peers := s.peers.modify peer (fun _ => Option.none) }

def Shared.expire (s : Shared) (now : UInt64) : Shared :=
  { s with peers := s.peers.map fun _ r => r.filter fun r => ago now r.heard < ttlSecs }

def gather (identity : PubKey) (members : List HomedMember) (m : HomedMember) :
    List HomedMember :=
  if m.identity ≠ identity ∧ ¬ members.any (·.identity == m.identity) then members ++ [m]
  else members

namespace Rooms

/-- Join, and ask that the room be shared with `share`. Answers the roster with homes, every
member here and every member a peer has shared, and whether a share is now due. -/
def joinShared (s : Rooms) (handle : Bytes32) (identity : PubKey) (proof : Bytes32)
    (share : List PubKey) (o : IterOrder (PubKey × Option Remote)) (joined now : UInt64) :
    Rooms × Except JoinError (Homed × Bool) :=
  let wasThere := (s.rooms handle).contains identity
  match s.join handle identity proof joined with
  | (s, .error e) => (s, .error e)
  | (s, .ok here) =>
    let named := (s.shared handle).name share
    let shared := if wasThere then named else { named with changed := true }
    let members := (shared.fresh o now).foldl
      (fun members r => r.members.foldl (gather identity) members)
      (here.members.map fun m => ⟨m.identity, m.proof, 0⟩)
    let due := !shared.peers.isEmpty &&
      (shared.changed || decide (ago now shared.lastShared ≥ shareSecs))
    (s.setShared handle shared,
      .ok (⟨now, members.mergeSort fun (a b : HomedMember) => a.identity ≤ b.identity⟩, due))

def takeShare (s : Rooms) (peer : PubKey) (handle : Bytes32) (members : List HomedMember)
    (now : UInt64) : Rooms × Bool :=
  let shared := s.shared handle
  let members := members.map fun m => if m.isLocal then { m with home := peer } else m
  (s.setShared handle { shared with peers := shared.peers.insert peer (some ⟨members, now⟩) },
    !shared.peers.contains peer)

def leave (s : Rooms) (handle : Bytes32) (identity : PubKey) : Rooms :=
  s.setRoom handle ((s.rooms handle).erase identity)

def forgetPeer (s : Rooms) (peer : PubKey) : Rooms :=
  { s with shared := fun handle => (s.shared handle).forget peer }

/-- Forget what is past its time, and the shares of rooms that emptied a while ago. -/
def expire (s : Rooms) (now : UInt64) : Rooms where
  rooms handle := s.live handle now
  shared handle :=
    if (s.live handle now).isEmpty ∧ ago now (s.shared handle).lastShared ≥ ttlSecs then .none
    else (s.shared handle).expire now

end Rooms

inductive RoomCall where
  | join (handle : Bytes32) (identity : PubKey) (proof : Bytes32) (share : List PubKey)
      (o : IterOrder (PubKey × Option Remote)) (joined now : UInt64)
  | takeShare (peer : PubKey) (handle : Bytes32) (members : List HomedMember) (now : UInt64)
  | leave (handle : Bytes32) (identity : PubKey)
  | forgetPeer (peer : PubKey)
  | expire (now : UInt64)

namespace Rooms

def call (s : Rooms) : RoomCall → Rooms
  | .join handle identity proof share o joined now =>
    (s.joinShared handle identity proof share o joined now).1
  | .takeShare peer handle members now => (s.takeShare peer handle members now).1
  | .leave handle identity => s.leave handle identity
  | .forgetPeer peer => s.forgetPeer peer
  | .expire now => s.expire now

def Readable (s : Rooms) : RoomCall → Prop
  | .join handle identity proof share o joined now => ∀ homed due,
      (s.joinShared handle identity proof share o joined now).2 = .ok (homed, due) →
        Homed.decode homed.encode = .ok homed
  | _ => True

/-- The devices that are in a room besides one: those present here, and those in a share that
is not past its time. -/
def others (s : Rooms) (handle : Bytes32) (identity : PubKey) (joined now : UInt64) :
    Finset PubKey :=
  let here := (s.live handle joined).toList.map Prod.fst
  let shared := ((s.shared handle).fresh .asListed now).flatMap (·.members)
  (here ++ shared.map (·.identity)).toFinset.erase identity

def Spans (s : Rooms) : RoomCall → Prop
  | .join handle identity _ _ _ joined now =>
    (s.live handle joined).contains identity = false ∧
        (s.live handle joined).size ≥ maxMembers ∨
      (s.others handle identity joined now).card ≤ maxMembers * maxShare
  | _ => True

end Rooms

section
variable {identity : PubKey} {members more : List HomedMember} {s : Shared} {r : Remote}
  {o : IterOrder (PubKey × Option Remote)} {now : UInt64}

theorem gather_nodup {m : HomedMember} (h : (members.map (·.identity)).Nodup) :
    ((gather identity members m).map (·.identity)).Nodup := by
  unfold gather
  split
  · next hnew =>
    rw [List.map_append, List.nodup_append]
    refine ⟨h, by simp, ?_⟩
    intro a ha b hb heq
    simp only [List.map_cons, List.map_nil, List.mem_singleton] at hb
    obtain ⟨x, hx, rfl⟩ := List.mem_map.mp ha
    exact hnew.2 (List.any_eq_true.mpr ⟨x, hx, by simp [heq, hb]⟩)
  · exact h

theorem mem_gather {m : HomedMember} {a : PubKey} :
    a ∈ (gather identity members m).map (·.identity) ↔
      a ∈ members.map (·.identity) ∨ a = m.identity ∧ a ≠ identity := by
  unfold gather
  split
  · next hnew =>
    simp only [List.map_append, List.map_cons, List.map_nil, List.mem_append, List.mem_singleton]
    constructor
    · intro h
      cases h with
      | inl hin => exact .inl hin
      | inr heq => exact .inr ⟨heq, heq ▸ hnew.1⟩
    · intro h
      cases h with
      | inl hin => exact .inl hin
      | inr hnew => exact .inr hnew.1
  · next hold =>
    refine ⟨.inl, fun h => ?_⟩
    cases h with
    | inl hin => exact hin
    | inr hnew =>
      obtain ⟨rfl, hne⟩ := hnew
      have hany : members.any (·.identity == m.identity) = true := by
        by_contra hnone
        exact hold ⟨hne, hnone⟩
      obtain ⟨x, hx, heq⟩ := List.any_eq_true.mp hany
      exact List.mem_map.mpr ⟨x, hx, by simpa using heq⟩

theorem gathered_nodup (identity : PubKey) (more : List HomedMember)
    (h : (members.map (·.identity)).Nodup) :
    ((more.foldl (gather identity) members).map (·.identity)).Nodup := by
  induction more generalizing members with
  | nil => exact h
  | cons m more ih => exact ih (gather_nodup h)

theorem mem_gathered {a : PubKey} :
    a ∈ (more.foldl (gather identity) members).map (·.identity) ↔
      a ∈ members.map (·.identity) ∨ a ∈ more.map (·.identity) ∧ a ≠ identity := by
  induction more generalizing members with
  | nil => simp
  | cons m more ih =>
    rw [List.foldl_cons, ih, mem_gather, List.map_cons, List.mem_cons]
    tauto

theorem mem_fresh : r ∈ s.fresh o now ↔
    (∃ peer : PubKey, s.peers[peer]? = some (some r)) ∧ ago now r.heard < ttlSecs := by
  simp [Shared.fresh, ExtTreeMap.mem_toList_iff_getElem?_eq_some]

theorem getElem?_name {share : List PubKey} {peer : PubKey} :
    (s.name share).peers[peer]? = some (some r) ↔ s.peers[peer]? = some (some r) := by
  unfold Shared.name
  induction share generalizing s with
  | nil => rfl
  | cons named share ih =>
    rw [List.foldl_cons, ih]
    split
    · rfl
    · next hnew =>
      rw [ExtTreeMap.getElem?_insert]
      split
      · next heq =>
        have hnamed : named = peer := by simpa using heq
        subst hnamed
        have hnone : s.peers[named]? = none := by simpa using hnew
        simp [hnone]
      · rfl

/-- What is fresh is so in whatever order the peers are walked, and naming more of them does
not change it. -/
theorem mem_fresh_name {share : List PubKey} {wasThere : Bool} :
    r ∈ (if wasThere then s.name share else { s.name share with changed := true }).fresh o now ↔
      r ∈ s.fresh .asListed now := by
  cases wasThere <;> simp only [mem_fresh, if_true, Bool.false_eq_true, if_false, getElem?_name]

end

namespace Rooms
variable {s : Rooms} {handle proof : Bytes32} {identity : PubKey} {share : List PubKey}
  {o : IterOrder (PubKey × Option Remote)} {joined now : UInt64}

theorem join_full (h : (s.live handle joined).contains identity = false ∧
    (s.live handle joined).size ≥ maxMembers) :
    s.join handle identity proof joined =
      (s.setRoom handle (s.live handle joined), .error .full) := by
  simp only [join, if_pos h]

theorem join_roster (proof : Bytes32) (h : ¬ ((s.live handle joined).contains identity = false ∧
    (s.live handle joined).size ≥ maxMembers)) :
    ∃ s' roster, s.join handle identity proof joined = (s', .ok roster) ∧
      s'.shared = s.shared ∧ (roster.members.map (·.identity)).Nodup ∧
      ∀ a, a ∈ roster.members.map (·.identity) ↔
        a ∈ (s.live handle joined).toList.map Prod.fst ∧ a ≠ identity := by
  simp only [join, if_neg h]
  refine ⟨_, _, rfl, rfl, ?_, ?_⟩
  · refine ((List.mergeSort_perm _ _).map _).nodup_iff.mpr ?_
    rw [List.map_map]
    have hkeys := ((s.live handle joined).insert identity ⟨proof, joined⟩).nodup_keys
    rw [← ExtTreeMap.map_fst_toList_eq_keys] at hkeys
    exact (hkeys.sublist ((List.filter_sublist).map _))
  · intro a
    rw [((List.mergeSort_perm _ _).map _).mem_iff, List.map_map]
    simp only [List.mem_map, List.mem_filter, Function.comp_apply, bne_iff_ne, Prod.exists,
      ExtTreeMap.mem_toList_iff_getElem?_eq_some, ExtTreeMap.getElem?_insert]
    constructor
    · rintro ⟨key, p, ⟨hp, hne⟩, rfl⟩
      rw [if_neg (by simpa using Ne.symm hne)] at hp
      exact ⟨⟨key, p, hp, rfl⟩, hne⟩
    · rintro ⟨⟨key, p, hp, rfl⟩, hne⟩
      exact ⟨key, p, ⟨by rwa [if_neg (by simpa using Ne.symm hne)], hne⟩, rfl⟩

theorem joinShared_members (proof : Bytes32) (share : List PubKey)
    (o : IterOrder (PubKey × Option Remote)) (now : UInt64)
    (h : ¬ ((s.live handle joined).contains identity = false ∧
    (s.live handle joined).size ≥ maxMembers)) :
    ∃ homed due, (s.joinShared handle identity proof share o joined now).2 = .ok (homed, due) ∧
      homed.members.length = (s.others handle identity joined now).card := by
  obtain ⟨s', roster, hjoin, hshared, hnodup, hmem⟩ := join_roster proof h
  simp only [joinShared, hjoin]
  refine ⟨_, _, rfl, ?_⟩
  rw [List.length_mergeSort, ← List.foldl_flatMap]
  have hhere : (roster.members.map fun m => (⟨m.identity, m.proof, 0⟩ : HomedMember)).map
      (·.identity) = roster.members.map (·.identity) := by simp
  rw [← List.length_map (·.identity),
    ← List.toFinset_card_of_nodup (gathered_nodup identity _ (hhere ▸ hnodup))]
  congr 1
  ext a
  rw [List.mem_toFinset, mem_gathered, hhere, hmem]
  simp only [others, Finset.mem_erase, List.mem_toFinset, List.mem_append, List.mem_map,
    List.mem_flatMap, mem_fresh_name, hshared]
  rw [← or_and_right, and_comm]

/-- An answer is read exactly if who joins is refused or there are not too many others. -/
theorem readable_iff (s : Rooms) (c : RoomCall) : s.Readable c ↔ s.Spans c := by
  cases c with
  | join handle identity proof share o joined now =>
    simp only [Readable, Spans]
    by_cases hfull : (s.live handle joined).contains identity = false ∧
        (s.live handle joined).size ≥ maxMembers
    · have hrefused : (s.joinShared handle identity proof share o joined now).2 =
          .error .full := by
        simp only [joinShared, join_full hfull]
      rw [hrefused]
      simp [hfull]
    · obtain ⟨homed, due, hanswer, hlen⟩ :=
        joinShared_members proof share o now hfull
      simp only [hanswer, hfull, false_or, ← hlen, Except.ok.injEq, Prod.mk.injEq]
      rw [← Homed.decode_encode_iff]
      exact ⟨fun h => h homed due ⟨rfl, rfl⟩, fun h _ _ heq => heq.1 ▸ h⟩
  | takeShare peer handle members now | leave handle identity | forgetPeer peer | expire now =>
    exact Iff.rfl

end Rooms

/-- Over any calls, every roster a join is answered with is one its reader takes exactly if at
each join that is not refused no more than 32 others are in the room, here and at the peers. -/
theorem rosters_readable_iff (calls : List RoomCall) :
    Each Rooms.Readable Rooms.call .new calls ↔ Each Rooms.Spans Rooms.call .new calls := by
  have hany : Each (fun _ _ => True) Rooms.call .new calls := each_of_mem (fun _ _ _ => trivial) _
  have hkeep : ∀ s c, True → True → Rooms.Spans s c → True := fun _ _ _ _ _ => trivial
  exact each_congr hkeep (fun s c _ _ => s.readable_iff c) trivial hany

/-- Five peers with eight members each share a room that a sixth exchange's member joins. -/
theorem five_peers_unreadable :
    ¬∀ calls, Each Rooms.Readable Rooms.call .new calls := by
  intro h
  let shared : Nat → List HomedMember := fun peer =>
    (List.range 8).map fun i => ⟨BitVec.ofNat 256 (1000 + 10 * peer + i), 0, 0⟩
  let shares := (List.range 5).map fun peer =>
    RoomCall.takeShare (BitVec.ofNat 256 (1 + peer)) 7 (shared peer) 100
  have hspans := Rooms.readable_iff _ _ |>.mp
    (each_append.mp (h (shares ++ [.join 7 9 0 [] .asListed 100 100]))).2.1
  simp only [Rooms.Spans] at hspans
  revert hspans
  decide +kernel

end Sqex.Room
