import Mathlib.Data.List.MinMax
import Mathlib.Data.Prod.Lex
import Sqex.Lib.Least
import Sqex.Exchange.OriginOps
import Sqex.Exchange.Rehome
import Sqex.Proto.SystemBody

/-! Several replicas take a channel over at the same fork. Each exchange makes its own
rehome, adopts the others as they reach it, and keeps the earliest. -/
namespace Sqex.Exchange
open Std Runs Least

/-- How two rehomes of one fork are told apart: the earlier, then the one to the lower key. -/
structure Rank where
  posted : UInt64
  subject : PubKey
  deriving DecidableEq

namespace Rank

def key (x : Rank) : Nat ×ₗ Nat := toLex (x.posted.toNat, x.subject.toNat)

theorem key_injective : Function.Injective key := by
  intro x y h
  obtain ⟨hposted, hsubject⟩ := Prod.mk.inj (toLex.injective h)
  cases x
  cases y
  simp only [mk.injEq]
  exact ⟨UInt64.toNat.inj hposted, BitVec.eq_of_toNat_eq hsubject⟩

instance : LinearOrder Rank := LinearOrder.lift' key key_injective

theorem le_iff {x y : Rank} :
    x ≤ y ↔ x.posted < y.posted ∨ x.posted = y.posted ∧ x.subject ≤ y.subject := by
  have hkey : x ≤ y ↔ key x ≤ key y := Iff.rfl
  rw [hkey, key, key, Prod.Lex.toLex_le_toLex, UInt64.lt_iff_toNat_lt, UInt64.toNat_inj,
    BitVec.le_def]

end Rank

structure Move where
  entry : Entry
  stamp : Receipted
  record : System
  stamped : entry.stamp = some stamp
  kind : entry.kind = kindSystem
  decoded : System.decode entry.body = .ok (some record)
  event : record.event = Event.rehomed

namespace Move

def subject (m : Move) : PubKey := m.record.subject

def rank (m : Move) : Rank := ⟨m.entry.posted, m.subject⟩

/-- The move passes what `adoptRehome` checks of it, whatever was taken before. -/
structure Valid (C : Crypto) (channel : Bytes32) (r : Rows) (m : Move) : Prop where
  admin : r.isAdmin m.record.actor = true
  receipted : ∃ c, r.channel = some c ∧
    (receiptTerms ⟨m.subject, c.incarnation, channel⟩ m.entry m.stamp).verify C
      m.stamp.receipt = true
  follows : r.breaksHead C m.entry m.stamp = false

end Move

namespace Rows

def rehomeAt (r : Rows) (fork : UInt64) : Option Rank :=
  (r.entry[fork.toInt64]?).bind fun row =>
    (record (row.entry fork)).bind fun s =>
      if s.event = Event.rehomed then some ⟨row.posted, s.subject⟩ else none

/-- The rehome the log holds at a move's fork is no later than the move. -/
def stands (r : Rows) (m : Move) : Bool := (r.rehomeAt m.entry.seq).any fun x => x ≤ m.rank

/-- The rehome recorded as taken at a fork: the time recorded, and the origin. -/
def taken (here : PubKey) (r : Rows) (fork : UInt64) : Option Rank :=
  (r.lastRehome.filter fun last => last.1 == fork + 1).map fun last =>
    ⟨last.2, r.orderedBy here⟩

theorem settled_eq (here : PubKey) (r : Rows) (m : Move) :
    r.settled here m.entry m.record = (r.taken here m.entry.seq).any fun x => x ≤ m.rank := by
  unfold settled taken
  cases r.lastRehome with
  | none => rfl
  | some last =>
    by_cases hfork : last.1 = m.entry.seq + 1
    · simp [hfork, Option.filter_some, Rank.le_iff, Move.rank, Move.subject, Bool.beq_eq_decide_eq]
    · simp [hfork, Option.filter_some]

end Rows

/-- What an exchange does about the rehomes of a fork: make its own, or take one that was
carried to it. -/
inductive Rehoming where
  | own (m : Move) (w : Around) (caller device subject : PubKey) (domain : String)
      (action : Action) (away : Option UInt64) (minAway : UInt64)
  | carried (m : Move) (domain : String) (now : UInt64)

namespace Rehoming

def move : Rehoming → Move
  | .own m _ _ _ _ _ _ _ _ => m
  | .carried m _ _ => m

def isOwn : Rehoming → Bool
  | .own _ _ _ _ _ _ _ _ _ => true
  | .carried _ _ _ => false

def act (C : Crypto) (h : Host) (channel : Bytes32) (r : Rows) : Rehoming → Rows
  | .own _ w caller device subject domain action away minAway =>
    match r.rehome C h channel w caller device subject domain action away minAway with
    | .ok (r', _) => r'
    | .error _ => r
  | .carried m domain now => (Op.rehomed channel m.entry domain now).act C h.exchange r

def Makes (C : Crypto) (h : Host) (channel : Bytes32) (r : Rows) : Rehoming → Prop
  | .own m w caller device subject domain action away minAway =>
    ∃ r' e, r.rehome C h channel w caller device subject domain action away minAway =
      .ok (r', [e]) ∧ m.entry = e.row.entry e.seq
  | .carried _ _ _ => True

/-- A rehome carried here ranks with what is recorded of the one that stands as it does with the
one that stands; and one to the origin followed already is no earlier. -/
def Fair (here : PubKey) (r : Rows) : Rehoming → Prop
  | .own _ _ _ _ _ _ _ _ _ => True
  | .carried m _ _ => m.subject = here ∨
    if r.originRow = some m.subject then r.stands m = true
    else ((r.taken here m.entry.seq).any fun x => x ≤ m.rank) = r.stands m

instance (here : PubKey) (r : Rows) (t : Rehoming) : Decidable (t.Fair here r) := by
  cases t <;> unfold Fair <;> infer_instance

/-- The rank a turn puts forward: an exchange hears nothing new in its own. -/
def offers (here : PubKey) : Rehoming → List Rank
  | .own m _ _ _ _ _ _ _ _ => [m.rank]
  | .carried m _ _ => if m.subject = here then [] else [m.rank]

theorem rank_of_offers {here : PubKey} (t : Rehoming) {x : Rank} (hx : x ∈ t.offers here) :
    x = t.move.rank := by
  cases t with
  | own m w caller device subject domain action away minAway => simpa [offers, move] using hx
  | carried m domain now =>
    unfold offers at hx
    by_cases hhere : m.subject = here
    · simp [hhere] at hx
    · simpa [hhere, move] using hx

theorem mem_offers {here : PubKey} (t : Rehoming)
    (h : t.isOwn = true ∨ t.move.subject ≠ here) : t.move.rank ∈ t.offers here := by
  cases t with
  | own m w caller device subject domain action away minAway => simp [offers, move]
  | carried m domain now =>
    have hhere : m.subject ≠ here := h.resolve_left (by simp [isOwn])
    simp [offers, move, hhere]

end Rehoming

section Steps
open Rows
variable {C : Crypto} {h : Host} {channel : Bytes32} {fork : UInt64} {r r' : Rows} {m n : Move}

/-- Rows that have nothing else to check a move of this fork against. -/
structure Beside (fork : UInt64) (r r' : Rows) : Prop where
  member : r'.member = r.member
  incarnation : r'.channel.map (·.incarnation) = r.channel.map (·.incarnation)
  entry : ∀ seq row, seq ≠ fork.toInt64 → r'.entry[seq]? = some row → r.entry[seq]? = some row

theorem Move.Valid.beside (hvalid : n.Valid C channel r) (hn : n.entry.seq = fork)
    (hbeside : Beside fork r r') : n.Valid C channel r' := by
  obtain ⟨c, hc, hreceipt⟩ := hvalid.receipted
  constructor
  · rw [isAdmin, hbeside.member]
    exact hvalid.admin
  · have hsame := hbeside.incarnation
    rw [hc, Option.map_some] at hsame
    obtain ⟨c', hc', hincarnation⟩ := Option.map_eq_some_iff.mp hsame
    exact ⟨c', hc', by rw [hincarnation]; exact hreceipt⟩
  · have hbefore : (fork - 1).toInt64 ≠ fork.toInt64 := by
      intro heq
      have hsame : fork - 1 = fork := congrArg Int64.toUInt64 heq
      grind
    have hfollows := hvalid.follows
    unfold breaksHead at hfollows ⊢
    rw [hn] at hfollows ⊢
    cases hrow : r'.entry[(fork - 1).toInt64]? with
    | none => simp
    | some row => rwa [hbeside.entry _ _ hbefore hrow] at hfollows

theorem rehomeAt_of_row {row : EntryRow} {s : System} (hrow : r.entry[fork.toInt64]? = some row)
    (hkind : row.kind = kindSystem) (hbody : System.decode row.body = .ok (some s))
    (hevent : s.event = Event.rehomed) : r.rehomeAt fork = some ⟨row.posted, s.subject⟩ := by
  simp [rehomeAt, hrow, record, EntryRow.entry, hkind, hbody, hevent]

/-- What an exchange's own rehome leaves: its entry at the end of the log, and the origin it
names. -/
structure Made (here subject : PubKey) (r r' : Rows) (e : Ordered) : Prop where
  free : e.seq.toInt64 ∉ r.entry
  entry : r'.entry = r.entry.insert e.seq.toInt64 e.row
  member : r'.member = r.member
  incarnation : r'.channel.map (·.incarnation) = r.channel.map (·.incarnation)
  named : r'.orderedBy here = subject
  body : ∃ s, s.subject = subject ∧ System.decode e.row.body = .ok (some s)

theorem writeSystemBetween_appended {actionPlace place : Place} {s : System} {arg : Bytes}
    {now : UInt64} {e : Ordered}
    (hok : r.writeSystemBetween C h actionPlace place s arg now = .ok (r', e)) :
    ∃ chain c entryHash, Appended C h.seed place now entryHash (systemRow now s.encode)
      { r with chain := chain } r' e c := by
  simp only [writeSystemBetween, bind_eq_ok, Prod.exists, checkAction_ok, order_ok] at hok
  obtain ⟨input, r₁, ⟨-, -, -, rfl⟩, c, happended⟩ := hok
  exact ⟨_, c, _, happended⟩

theorem made_of_appended {here : PubKey} {seed : Option Bytes32} {place : Place} {now : UInt64}
    {entryHash : Bytes32} {s : System} {r₁ : Rows} {e : Ordered} {c : ChannelRow}
    {followed : Option ReplicatedRow} {outgoing : PubKey} (hevent : s.event = Event.rehomed)
    (happended : Appended C seed place now entryHash (systemRow now s.encode) r r₁ e c)
    (hnamed : (followed.map (·.origin)).getD here = s.subject) :
    Made here s.subject r
      (recordOrigin { r₁ with replicated := followed } (e.seq + 1) s.subject outgoing now) e := by
  have hrow : e.row = systemRow now s.encode (stampOf C seed place c now entryHash) := by
    rw [happended.ordered]
  have hseq : e.seq.toInt64 = c.nextSeq := by
    rw [happended.ordered]
    simp
  have hknown : s.event ≠ 0 ∧ s.event ≤ Event.unmuted := by
    rw [hevent]
    decide
  refine ⟨?_, ?_, ?_, ?_, hnamed, s, rfl, ?_⟩
  · rw [hseq]
    exact happended.free
  · rw [hseq, hrow, happended.rows]
    rfl
  · rw [happended.rows]
    rfl
  · rw [happended.rows, happended.channel]
    rfl
  · rw [hrow]
    exact System.decode_encode hknown

theorem Made.rebase {here subject : PubKey} {r₀ : Rows} {e : Ordered}
    (hmade : Made here subject r₀ r' e) (hentry : r₀.entry = r.entry)
    (hmember : r₀.member = r.member) (hchannel : r₀.channel = r.channel) :
    Made here subject r r' e := by
  constructor
  · exact hentry ▸ hmade.free
  · exact hentry ▸ hmade.entry
  · exact hmember ▸ hmade.member
  · exact hchannel ▸ hmade.incarnation
  · exact hmade.named
  · exact hmade.body

theorem rehome_made {w : Around} {caller device subject : PubKey} {domain : String}
    {action : Action} {away : Option UInt64} {minAway : UInt64} {e : Ordered}
    (hok : r.rehome C h channel w caller device subject domain action away minAway =
      .ok (r', [e])) : Made h.exchange subject r r' e := by
  simp only [rehome, bind_eq_ok, channelRow_ok, refuseIf_eq_ok, exists_const] at hok
  obtain ⟨c, -, -, -, hok⟩ := hok
  split at hok
  · simp only [moveAway, bind_eq_ok, refuseIf_eq_ok, exists_const, Prod.exists, pure_eq_ok,
      Prod.mk.injEq, List.cons.injEq, and_true] at hok
    obtain ⟨-, -, r₁, e₁, hwrite, rfl, rfl⟩ := hok
    obtain ⟨chain, c', entryHash, happended⟩ := writeSystemBetween_appended hwrite
    exact Made.rebase (made_of_appended rfl happended rfl) rfl rfl rfl
  · simp only [takeOver, bind_eq_ok, refuseIf_eq_ok, exists_const, Prod.exists, pure_eq_ok,
      Prod.mk.injEq, List.cons.injEq, and_true] at hok
    obtain ⟨hself, -, -, r₁, e₁, hwrite, rfl, rfl⟩ := hok
    obtain ⟨chain, marks, hframe⟩ := r.rebuildStanding_frame
    rw [hframe] at hwrite
    obtain ⟨chain', c', entryHash, happended⟩ := writeSystemBetween_appended hwrite
    have hnamed : h.exchange = subject := by simpa using Eq.symm (by simpa using hself)
    exact Made.rebase (made_of_appended rfl happended hnamed) rfl rfl rfl

theorem cutAt_fork (r : Rows) (m : Move) :
    (r.cutAt m.entry m.stamp)[m.entry.seq.toInt64]? = some (.of m.entry m.stamp) := by
  have hcut : ¬ m.entry.seq.toInt64 ∈
      r.entry.filter fun seq _ => !decide (seq ≥ m.entry.seq.toInt64) := by
    simp [ExtTreeMap.mem_filter]
  rw [cutAt, ExtTreeMap.getElem?_insertIfNew, if_pos ⟨compare_self, hcut⟩]

theorem followRehome_beside {c : ChannelRow} (hc : r.channel = some c) (here : PubKey)
    (domain : String) (now : UInt64) :
    Beside m.entry.seq r (r.followRehome here m.entry m.stamp m.record c domain now) := by
  refine ⟨rfl, by rw [hc]; rfl, ?_⟩
  intro seq row hne hrow
  have hcut : (r.cutAt m.entry m.stamp)[seq]? = some row := hrow
  rw [cutAt, ExtTreeMap.getElem?_insertIfNew, if_neg (by simp [hne.symm])] at hcut
  simp only [ExtTreeMap.getElem?_filter, Option.pfilter_eq_some_iff] at hcut
  exact hcut.1

theorem carried_cases {domain : String} {now : UInt64} (hvalid : m.Valid C channel r)
    (hfair : (Rehoming.carried m domain now).Fair h.exchange r) :
    ((m.subject = h.exchange ∨ r.stands m = true) ∧
      (Rehoming.carried m domain now).act C h channel r = r) ∨
    (m.subject ≠ h.exchange ∧ r.stands m = false ∧ ∃ c, r.channel = some c ∧
      (Rehoming.carried m domain now).act C h channel r =
        r.followRehome h.exchange m.entry m.stamp m.record c domain now) := by
  cases act_rehomed C h.exchange r channel m.entry domain now with
  | inl hfollowed =>
    obtain ⟨stamp, s, c, hacc, hact⟩ := hfollowed
    obtain rfl : m.stamp = stamp := Option.some.inj (m.stamped.symm.trans hacc.stamped)
    obtain rfl : m.record = s :=
      Option.some.inj (Except.ok.inj (m.decoded.symm.trans hacc.decoded))
    have hlate : r.stands m = false := by
      cases hfair with
      | inl hhere => exact absurd hhere hacc.notHere
      | inr hfair =>
        have helse : r.originRow ≠ some m.subject := hacc.elsewhere
        rw [if_neg helse] at hfair
        rw [← hfair, ← settled_eq, hacc.unsettled]
    exact .inr ⟨hacc.notHere, hlate, c, hacc.row, hact⟩
  | inr hleft =>
    obtain ⟨hrefused, hact⟩ := hleft
    refine .inl ⟨?_, hact⟩
    cases hfair with
    | inl hhere => exact .inl hhere
    | inr hfair =>
      by_contra hnot
      obtain ⟨hhere, hlate⟩ := not_or.mp hnot
      have helse : r.originRow ≠ some m.subject := by
        intro horigin
        rw [if_pos horigin] at hfair
        exact hlate hfair
      rw [if_neg helse] at hfair
      obtain ⟨c, hc, hreceipt⟩ := hvalid.receipted
      refine hrefused ⟨m.stamp, m.record, c, m.stamped, m.decoded, m.kind, m.event, hc, helse,
        hhere, hvalid.admin, hreceipt, hvalid.follows, ?_⟩
      rw [settled_eq, hfair]
      simpa using hlate

structure Holds (C : Crypto) (h : Host) (channel : Bytes32) (fork : UInt64)
    (moves : List Move) (r : Rows) (held : Option Rank) : Prop where
  standing : r.rehomeAt fork = held
  named : ∀ x, held = some x → r.orderedBy h.exchange = x.subject
  valid : ∀ m ∈ moves, m.entry.seq = fork ∧ m.Valid C channel r

variable {moves : List Move} {held : Option Rank}

theorem Holds.carried {domain : String} {now : UInt64}
    (hholds : Holds C h channel fork moves r held) (hm : m ∈ moves)
    (hfair : (Rehoming.carried m domain now).Fair h.exchange r) :
    Holds C h channel fork moves ((Rehoming.carried m domain now).act C h channel r)
      (run keep held ((Rehoming.carried m domain now).offers h.exchange)) := by
  obtain ⟨hfork, hvalid⟩ := hholds.valid m hm
  cases carried_cases hvalid hfair with
  | inl hleft =>
    obtain ⟨hearlier, hact⟩ := hleft
    have hkept : run keep held ((Rehoming.carried m domain now).offers h.exchange) = held := by
      by_cases hhere : m.subject = h.exchange
      · rw [Rehoming.offers, if_pos hhere, run_nil]
      · have hstands := hearlier.resolve_left hhere
        rw [stands, hfork, hholds.standing] at hstands
        rw [Rehoming.offers, if_neg hhere, run_cons, run_nil]
        cases held with
        | none => cases hstands
        | some x => exact keep_of_le (by simpa using hstands)
    rw [hact, hkept]
    exact hholds
  | inr hfollowed =>
    obtain ⟨hhere, hlate, c, hc, hact⟩ := hfollowed
    have hkept : run keep held ((Rehoming.carried m domain now).offers h.exchange) =
        some m.rank := by
      rw [stands, hfork, hholds.standing] at hlate
      rw [Rehoming.offers, if_neg hhere, run_cons, run_nil]
      cases held with
      | none => rfl
      | some x => exact keep_of_lt (by simpa using hlate)
    rw [hact, hkept]
    have hbeside := followRehome_beside (m := m) hc h.exchange domain now
    refine ⟨?_, ?_, ?_⟩
    · have hrow : (r.followRehome h.exchange m.entry m.stamp m.record c domain now).entry[
          m.entry.seq.toInt64]? = some (.of m.entry m.stamp) := cutAt_fork r m
      rw [← hfork]
      exact rehomeAt_of_row hrow m.kind m.decoded m.event
    · rintro x hx
      obtain rfl := Option.some.inj hx
      rw [orderedBy, followRehome_originRow]
      rfl
    · intro n hn
      obtain ⟨hnfork, hnvalid⟩ := hholds.valid n hn
      exact ⟨hnfork, hnvalid.beside (hnfork.trans hfork.symm) hbeside⟩

theorem Holds.own {w : Around} {caller device subject : PubKey} {domain : String}
    {action : Action} {away : Option UInt64} {minAway : UInt64}
    (hholds : Holds C h channel fork moves r held) (hm : m ∈ moves)
    (hmakes : (Rehoming.own m w caller device subject domain action away minAway).Makes C h
      channel r) :
    Holds C h channel fork moves
      ((Rehoming.own m w caller device subject domain action away minAway).act C h channel r)
      (run keep held
        ((Rehoming.own m w caller device subject domain action away minAway).offers
          h.exchange)) := by
  obtain ⟨r', e, hok, hentry⟩ := hmakes
  have hmade := rehome_made hok
  have hact : (Rehoming.own m w caller device subject domain action away minAway).act C h channel
      r = r' := by
    rw [Rehoming.act, hok]
  have hfork : e.seq = fork := by
    rw [← (hholds.valid m hm).1, hentry]
    rfl
  -- The place was free: no rehome stood at the fork.
  have hnone : held = none := by
    have hfree : r.entry[fork.toInt64]? = none := by
      rw [← hfork]
      exact ExtTreeMap.getElem?_eq_none hmade.free
    rw [← hholds.standing, Rows.rehomeAt, hfree]
    rfl
  have hrow : r'.entry[fork.toInt64]? = some e.row := by
    rw [hmade.entry, hfork, ExtTreeMap.getElem?_insert_self]
  have hkind : e.row.kind = kindSystem := by
    rw [← m.kind, hentry]
    rfl
  have hbody : System.decode e.row.body = .ok (some m.record) := by
    rw [← m.decoded, hentry]
    rfl
  have hsubject : subject = m.subject := by
    obtain ⟨s, hs, hdecoded⟩ := hmade.body
    obtain rfl := Option.some.inj (Except.ok.inj (hbody.symm.trans hdecoded))
    exact hs.symm
  have hposted : e.row.posted = m.entry.posted := by
    rw [hentry]
    rfl
  have hbeside : Beside fork r r' := by
    refine ⟨hmade.member, hmade.incarnation, ?_⟩
    intro seq row hne hfound
    rwa [hmade.entry, hfork, lookup_insert, if_neg hne.symm] at hfound
  rw [hact, hnone]
  refine ⟨?_, ?_, ?_⟩
  · rw [rehomeAt_of_row hrow hkind hbody m.event, hposted]
    rfl
  · intro x hx
    obtain rfl := Option.some.inj hx
    exact hmade.named.trans hsubject
  · intro n hn
    obtain ⟨hnfork, hnvalid⟩ := hholds.valid n hn
    exact ⟨hnfork, hnvalid.beside hnfork hbeside⟩

theorem Holds.turn {t : Rehoming} (hholds : Holds C h channel fork moves r held)
    (hm : t.move ∈ moves) (hmakes : t.Makes C h channel r) (hfair : t.Fair h.exchange r) :
    Holds C h channel fork moves (t.act C h channel r) (run keep held (t.offers h.exchange)) := by
  cases t with
  | own m w caller device subject domain action away minAway => exact hholds.own hm hmakes
  | carried m domain now => exact hholds.carried hm hfair

/-- Once the earliest is held, a rehome carried again changes nothing. -/
theorem Holds.again {domain : String} {now : UInt64} {x : Rank}
    (hholds : Holds C h channel fork moves r (some x)) (hm : m ∈ moves) (hx : x ≤ m.rank)
    (hfair : (Rehoming.carried m domain now).Fair h.exchange r) :
    (Rehoming.carried m domain now).act C h channel r = r := by
  obtain ⟨hfork, hvalid⟩ := hholds.valid m hm
  cases carried_cases hvalid hfair with
  | inl hleft => exact hleft.2
  | inr hfollowed =>
    obtain ⟨-, hlate, -⟩ := hfollowed
    rw [stands, hfork, hholds.standing] at hlate
    simp [hx] at hlate

end Steps

/-- An exchange, and what it does about the rehomes of a fork: its turns, until it has
processed each, and then those that are carried to it again. -/
structure Party where
  host : Host
  rows : Rows
  turns : List Rehoming
  again : List (Move × String × UInt64)

namespace Party

section
variable (C : Crypto) (channel : Bytes32) (p : Party)

def step (r : Rows) (t : Rehoming) : Rows :=
  t.act C p.host channel r

def carriedAgain : List Rehoming :=
  p.again.map fun a => .carried a.1 a.2.1 a.2.2

def settled : Rows :=
  run (p.step C channel) p.rows p.turns

/-- The exchange has taken none of the moves made for the fork yet, each is valid by what it
holds, and it processes each: its own as it makes it, the others as they are carried to it. -/
structure Processes (fork : UInt64) (moves : List Move) (p : Party) : Prop where
  untaken : p.rows.rehomeAt fork = none
  valid : ∀ m ∈ moves, m.entry.seq = fork ∧ m.Valid C channel p.rows
  known : ∀ t ∈ p.turns, t.move ∈ moves
  makes : Each (fun r t => t.Makes C p.host channel r) (p.step C channel) p.rows p.turns
  own : ∀ m ∈ moves, m.subject = p.host.exchange → ∃ t ∈ p.turns, t.move = m ∧ t.isOwn = true
  others : ∀ m ∈ moves, m.subject ≠ p.host.exchange → ∃ t ∈ p.turns, t.move = m
  again : ∀ a ∈ p.again, a.1 ∈ moves

def Fair (C : Crypto) (channel : Bytes32) (p : Party) : Prop :=
  Each (fun r t => t.Fair p.host.exchange r) (p.step C channel) p.rows (p.turns ++ p.carriedAgain)

instance (C : Crypto) (channel : Bytes32) (p : Party) : Decidable (p.Fair C channel) :=
  inferInstanceAs (Decidable (Each _ _ _ _))

/-- The exchange ends with the move's subject as the channel's origin, and the rehomes carried
again change nothing. -/
def Names (m : Move) (p : Party) : Prop :=
  (p.settled C channel).orderedBy p.host.exchange = m.subject ∧
    run (p.step C channel) (p.settled C channel) p.carriedAgain = p.settled C channel

end

variable {C : Crypto} {channel : Bytes32} {fork : UInt64} {moves : List Move} {p : Party}

theorem offers_iff (hp : p.Processes C channel fork moves) {x : Rank} :
    x ∈ p.turns.flatMap (·.offers p.host.exchange) ↔ ∃ m ∈ moves, m.rank = x := by
  rw [List.mem_flatMap]
  constructor
  · rintro ⟨t, ht, hx⟩
    exact ⟨t.move, hp.known t ht, (t.rank_of_offers hx).symm⟩
  · rintro ⟨m, hm, rfl⟩
    by_cases hhere : m.subject = p.host.exchange
    · obtain ⟨t, ht, rfl, hown⟩ := hp.own m hm hhere
      exact ⟨t, ht, t.mem_offers (.inl hown)⟩
    · obtain ⟨t, ht, rfl⟩ := hp.others m hm hhere
      exact ⟨t, ht, t.mem_offers (.inr hhere)⟩

theorem settled_holds (hp : p.Processes C channel fork moves)
    (hfair : Each (fun r t => t.Fair p.host.exchange r) (p.step C channel) p.rows p.turns)
    {m : Move} (hm : m ∈ moves) (hleast : ∀ n ∈ moves, m.rank ≤ n.rank) :
    Holds C p.host channel fork moves (p.settled C channel) (some m.rank) := by
  have hstart : Holds C p.host channel fork moves p.rows none :=
    ⟨hp.untaken, by simp, hp.valid⟩
  have hknown : Each (fun _ t => t.move ∈ moves) (p.step C channel) p.rows p.turns :=
    each_of_mem (fun t ht _ => hp.known t ht) _
  have hrun := (hknown.and (hp.makes.and hfair)).simulates
    (fun r held t hholds hok => Holds.turn hholds hok.1 hok.2.1 hok.2.2) hstart
  have hmem := (offers_iff hp).mpr ⟨m, hm, rfl⟩
  obtain ⟨x, hkept, hx⟩ := run_keep (List.ne_nil_of_mem hmem)
  obtain ⟨n, hn, rfl⟩ := (offers_iff hp).mp hx.1
  rw [hkept, (hx.2 hmem).antisymm (hleast n hn)] at hrun
  exact hrun

theorem names (hp : p.Processes C channel fork moves) (hfair : p.Fair C channel) {m : Move}
    (hm : m ∈ moves) (hleast : ∀ n ∈ moves, m.rank ≤ n.rank) : p.Names C channel m := by
  obtain ⟨hturns, hagain⟩ := each_append.mp hfair
  have hholds := settled_holds hp hturns hm hleast
  refine ⟨hholds.named _ rfl, hagain.run_fixed ?_⟩
  intro t ht hok
  obtain ⟨a, ha, rfl⟩ := List.mem_map.mp ht
  have hmove := hp.again a ha
  exact hholds.again hmove (hleast _ hmove) hok

/-- Any two exchanges that process the same rehomes of a fork, in any order and at any times,
end with the same origin, the earliest's, where each meets what it recorded of the one before
fairly. -/
theorem rehomes_settle {x y : Party} (hmoves : moves ≠ [])
    (hx : x.Processes C channel fork moves) (hy : y.Processes C channel fork moves)
    (hfair : x.Fair C channel) (hfair' : y.Fair C channel) :
    ∃ m ∈ moves, (∀ n ∈ moves, m.rank ≤ n.rank) ∧ x.Names C channel m ∧
      y.Names C channel m := by
  have hsome : List.argmin Move.rank moves ≠ none := mt List.argmin_eq_none.mp hmoves
  obtain ⟨m, hm⟩ := Option.ne_none_iff_exists'.mp hsome
  have hmem : m ∈ moves := List.argmin_mem hm
  have hleast : ∀ n ∈ moves, m.rank ≤ n.rank := fun n hn => List.le_of_mem_argmin hn hm
  exact ⟨m, hmem, hleast, names hx hfair hmem hleast, names hy hfair' hmem hleast⟩

section Example

/-- The record of a move to the exchange with this seed, in account 60's name. -/
def takingOver (seed : Bytes32) : System :=
  ⟨Event.rehomed, Crypto.toy.publicKey seed, 60, 60, 0, 0, 0⟩

def takenOver (seed : Bytes32) (posted : UInt64) : Move :=
  let first := receiptedBy seed 2 12 (advance Crypto.toy headGenesis 11) (takingOver seed)
  let stamp : Receipted := ⟨12, advance Crypto.toy (advance Crypto.toy headGenesis 11) 12, 0⟩
  let stamp := { stamp with
    receipt := Crypto.toy.sign seed ((receiptTerms (placeUnder seed)
      { first with posted, stamp := some stamp } stamp).input Crypto.toy) }
  { entry := { first with posted, stamp := some stamp }
    stamp
    record := takingOver seed
    stamped := rfl
    kind := rfl
    decoded := System.decode_encode (by simp [takingOver]; decide)
    event := rfl }

/-- Two moves, to the exchanges with these seeds. -/
def early : Move := takenOver 70 100
def late : Move := takenOver 80 150

/-- An exchange that holds channel 9's constitution, and what is carried to it. -/
def bystander (exchange : PubKey) (turns : List Rehoming)
    (again : List (Move × String × UInt64)) : Party :=
  ⟨⟨exchange, none, 0⟩, founded.rows 9, turns, again⟩

theorem founded_valid {m : Move} (hadmin : (founded.rows 9).isAdmin m.record.actor = true)
    (hreceipt : (receiptTerms ⟨m.subject, 8, 9⟩ m.entry m.stamp).verify .toy
      m.stamp.receipt = true)
    (hfollows : (founded.rows 9).breaksHead .toy m.entry m.stamp = false) :
    m.Valid .toy 9 (founded.rows 9) := by
  have hfounded : (founded.rows 9).channel.map (·.incarnation) = some 8 := by decide +kernel
  obtain ⟨c, hc, hincarnation⟩ := Option.map_eq_some_iff.mp hfounded
  exact ⟨hadmin, ⟨c, hc, by rw [hincarnation]; exact hreceipt⟩, hfollows⟩

theorem early_valid : early.entry.seq = 2 ∧ early.Valid .toy 9 (founded.rows 9) :=
  ⟨rfl, founded_valid (by decide +kernel) (by decide +kernel) (by decide +kernel)⟩

theorem late_valid : late.entry.seq = 2 ∧ late.Valid .toy 9 (founded.rows 9) :=
  ⟨rfl, founded_valid (by decide +kernel) (by decide +kernel) (by decide +kernel)⟩

/-- Account 60's move of the channel to the exchange with seed 80, as its device signed it at
the old origin's place. -/
def askedOver : Action :=
  let bare : System :=
    ⟨Event.rehomed, Crypto.toy.publicKey 80, 60, Crypto.toy.publicKey 8, 0, genesis, 0⟩
  match (Rows.actionTerms (placeUnder 40) bare []).input Crypto.toy with
  | .ok input => ⟨0, genesis, Crypto.toy.sign 8 input⟩
  | .error _ => ⟨0, genesis, 0⟩

def heir : Host := ⟨Crypto.toy.publicKey 80, some 80, 1000000⟩

def inherited : Except ChannelError (Rows × List Ordered) :=
  (founded.rows 9).rehome .toy heir 9 (.clear 150) 60 (Crypto.toy.publicKey 8) heir.exchange ""
    askedOver (some 10) 5

def inheritedEntry : Ordered :=
  (inherited.toOption.elim [] (·.2)).headD ⟨0, Rows.systemRow 0 [] ⟨0, 0, 0⟩⟩

theorem inherited_ok : ∃ r, inherited = .ok (r, [inheritedEntry]) := by
  have hone : (inherited.toOption.elim [] (·.2)).length = 1 := by decide +kernel
  obtain ⟨e, he⟩ := List.length_eq_one_iff.mp hone
  have hentry : inheritedEntry = e := by
    rw [inheritedEntry, he]
    rfl
  cases hrun : inherited with
  | error err =>
    rw [hrun] at he
    cases he
  | ok p =>
    rw [hrun] at he
    exact ⟨p.1, by rw [hentry, ← show p.2 = [e] from he]⟩

def inheriting : Move where
  entry := inheritedEntry.row.entry inheritedEntry.seq
  stamp := inheritedEntry.row.stamp
  record := Rows.recordOf Event.rehomed heir.exchange 60 (Crypto.toy.publicKey 8) askedOver
  stamped := rfl
  kind := by decide +kernel
  decoded := by
    have hbody : inheritedEntry.row.body = System.encode (Rows.recordOf Event.rehomed
        heir.exchange 60 (Crypto.toy.publicKey 8) askedOver) := by decide +kernel
    have hknown : Event.rehomed ≠ 0 ∧ Event.rehomed ≤ Event.unmuted := by decide
    exact (congrArg System.decode hbody).trans (System.decode_encode hknown)
  event := rfl

theorem inheriting_valid :
    inheriting.entry.seq = 2 ∧ inheriting.Valid .toy 9 (founded.rows 9) :=
  ⟨by decide +kernel, founded_valid (by decide +kernel) (by decide +kernel) (by decide +kernel)⟩

/-- The heir makes its own move and hears of the earlier one; another exchange hears of both,
its clock a little slow. -/
theorem rehomes_settle_heir :
    let takes := Rehoming.own inheriting (.clear 150) 60 (Crypto.toy.publicKey 8) heir.exchange ""
      askedOver (some 10) 5
    let x : Party := ⟨heir, founded.rows 9, [takes, .carried early "" 160],
      [(inheriting, "", 170), (early, "", 180)]⟩
    let y := bystander 7 [.carried inheriting "" 105, .carried early "" 110]
      [(inheriting, "", 120)]
    ∃ m ∈ [inheriting, early], (∀ n ∈ [inheriting, early], m.rank ≤ n.rank) ∧
      x.Names .toy 9 m ∧ y.Names .toy 9 m := by
  obtain ⟨r, hok⟩ := inherited_ok
  have huntaken : (founded.rows 9).rehomeAt 2 = none := by decide +kernel
  have hvalid : ∀ m ∈ [inheriting, early], m.entry.seq = 2 ∧ m.Valid .toy 9 (founded.rows 9) := by
    simpa using ⟨inheriting_valid, early_valid⟩
  have hnothere : early.subject ≠ heir.exchange := by decide +kernel
  have hown : inheriting.subject = heir.exchange := rfl
  have hy : inheriting.subject ≠ 7 ∧ early.subject ≠ 7 := by decide +kernel
  refine rehomes_settle (by simp) ⟨huntaken, hvalid, ?_, ?_, ?_, ?_, ?_⟩
    ⟨huntaken, hvalid, ?_, ?_, ?_, ?_, ?_⟩ (by decide +kernel) (by decide +kernel)
  · simp [Rehoming.move]
  · exact ⟨⟨r, inheritedEntry, hok, rfl⟩, trivial, trivial⟩
  · simp [hnothere, Rehoming.move, Rehoming.isOwn]
  · simp [hown, Rehoming.move]
  · simp
  · simp [bystander, Rehoming.move]
  · exact ⟨trivial, trivial, trivial⟩
  · simpa using ⟨fun h => absurd h hy.1, fun h => absurd h hy.2⟩
  · simp [bystander, Rehoming.move]
  · simp [bystander]

/-- Two exchanges hear of the same two moves in different orders, each later than it was posted,
and keep the one they heard last. -/
theorem rehomes_settle_apart : ¬ ∀ (channel : Bytes32) (fork : UInt64) (moves : List Move)
    (x y : Party), moves ≠ [] → x.Processes .toy channel fork moves →
      y.Processes .toy channel fork moves →
      ∃ m ∈ moves, (∀ n ∈ moves, m.rank ≤ n.rank) ∧ x.Names .toy channel m ∧
        y.Names .toy channel m := by
  intro hall
  have huntaken : (founded.rows 9).rehomeAt 2 = none := by decide +kernel
  have hvalid : ∀ m ∈ [late, early], m.entry.seq = 2 ∧ m.Valid .toy 9 (founded.rows 9) := by
    simpa using ⟨late_valid, early_valid⟩
  have hprocesses : ∀ exchange turns, late.subject ≠ exchange → early.subject ≠ exchange →
      (∀ t ∈ turns, t.move ∈ [late, early] ∧ t.isOwn = false) →
      (∀ m ∈ [late, early], ∃ t ∈ turns, t.move = m) →
      (bystander exchange turns []).Processes .toy 9 2 [late, early] := by
    intro exchange turns hne hne' hturns hall
    refine ⟨huntaken, hvalid, fun t ht => (hturns t ht).1, ?_, ?_, fun m hm _ => hall m hm, ?_⟩
    · refine each_of_mem (fun t ht r => ?_) _
      cases t with
      | own m w caller device subject domain action away minAway => cases (hturns _ ht).2
      | carried m domain now => trivial
    · simp [bystander, hne, hne']
    · simp [bystander]
  obtain ⟨m, -, -, hx, hy⟩ := hall 9 2 [late, early]
    (bystander 7 [.carried early "" 200, .carried late "" 210] [])
    (bystander 17 [.carried late "" 200, .carried early "" 210] []) (by simp)
    (hprocesses 7 _ (by decide +kernel) (by decide +kernel)
      (by simp [Rehoming.move, Rehoming.isOwn]) (by simp [Rehoming.move]))
    (hprocesses 17 _ (by decide +kernel) (by decide +kernel)
      (by simp [Rehoming.move, Rehoming.isOwn]) (by simp [Rehoming.move]))
  have hapart : ((bystander 7 [.carried early "" 200, .carried late "" 210] []).settled
      .toy 9).orderedBy 7 ≠ ((bystander 17 [.carried late "" 200, .carried early "" 210]
      []).settled .toy 9).orderedBy 17 := by decide +kernel
  exact hapart (hx.1.trans hy.1.symm)

end Example
end Party
end Sqex.Exchange
