import Sqex.Exchange.Replica

/-! Moving a channel's origin on the word of a rehome entry, carried here or
pulled. The receipt, the head and the roster are checked; the signature inside
the entry is not. -/
namespace Sqex.Exchange
open Std Runs
variable {C : Crypto} {r : Rows} {e : Entry} {s : System}

namespace Rows

section
variable (C : Crypto) (self : PubKey) (r : Rows) (e : Entry) (stamp : Receipted) (s : System)

def breaksHead : Bool :=
  decide (1 < e.seq) && (r.entry[(e.seq - 1).toInt64]?).any fun prev =>
    advance C prev.head stamp.entryHash != stamp.head

/-- Another rehome for the same fork is taken already, and stands: the earlier
one, then the one to the lower key. -/
def settled : Bool :=
  r.lastRehome.any fun (fromSeq, movedAt) => fromSeq == e.seq + 1 &&
    (decide (movedAt < e.posted) ||
      movedAt == e.posted && decide (r.orderedBy self ≤ s.subject))

/-- The log cut at the fork, with the rehome entry itself at its place. -/
def cutAt : ExtTreeMap Int64 EntryRow :=
  let cut := r.entry.filter fun seq _ => !decide (seq ≥ e.seq.toInt64)
  cut.insertIfNew e.seq.toInt64 (.of e stamp)

/-- What members posted past the fork, kept for them to post again. -/
def strand : ExtTreeMap Int64 StrandedRow :=
  let past := r.entry.toList.filter fun row =>
    decide (row.1 ≥ e.seq.toInt64) && row.2.kind == kindMember
  past.foldl (fun t row => t.insertIfNew row.1 ⟨row.2.account, row.2.body, row.2.posted⟩)
    r.stranded

/-- The channel is a copy of the new origin's. The window recorded is the channel
row's second column, its epoch. -/
def followed (c : ChannelRow) (domain : String) : ReplicatedRow :=
  match r.replicated with
  | some row => { row with origin := s.subject, originDomain := domain }
  | none => { origin := s.subject, windowSecs := c.epoch, derivable := true,
              equivocation := none, shaped := true, originDomain := domain }

/-- Follow the rehome: strand what was ordered past the fork, cut the log there,
and hold the channel as the new origin's. -/
def followRehome (c : ChannelRow) (domain : String) (now : UInt64) : Rows :=
  let followed : Rows :=
    { r with
      channel := some { c with head := stamp.head, nextSeq := (e.seq + 1).toInt64 }
      entry := r.cutAt e stamp
      stranded := r.strand e
      replicated := some (r.followed s c domain) }
  followed.recordOrigin (e.seq + 1) s.subject (r.orderedBy self) now

def adoptRehome (channel : Bytes32) (r : Rows) (e : Entry) (domain : String) (now : UInt64) :
    Except ChannelError (Option Rows) :=
  match e.stamp with
  | none => .error .noReceipts
  | some stamp =>
    match System.decode e.body with
    | .ok (some s) =>
      if e.kind ≠ kindSystem ∨ s.event ≠ Event.rehomed then .error .systemEntry
      else match r.channel with
      | none => .error .noSuchChannel
      | some c =>
        if r.originRow = some s.subject then .ok none
        else if s.subject = self then .ok none
        else if r.isAdmin s.actor = false then .error .notAnAdmin
        else if (receiptTerms ⟨s.subject, c.incarnation, channel⟩ e stamp).verify C
            stamp.receipt = false then .error .badSignature
        else if r.breaksHead C e stamp then .error .brokenChain
        else if r.settled self e s then .ok none
        else .ok (some (r.followRehome self e stamp s c domain now))
    | _ => .error .systemEntry

structure RehomeAccepted (here : PubKey) (channel : Bytes32) (r : Rows) (e : Entry)
    (stamp : Receipted) (s : System) (c : ChannelRow) : Prop where
  stamped : e.stamp = some stamp
  decoded : System.decode e.body = .ok (some s)
  kind : e.kind = kindSystem
  event : s.event = Event.rehomed
  row : r.channel = some c
  elsewhere : r.originRow ≠ some s.subject
  notHere : s.subject ≠ here
  admin : r.isAdmin s.actor = true
  receipted : (receiptTerms ⟨s.subject, c.incarnation, channel⟩ e stamp).verify C
    stamp.receipt = true
  follows : r.breaksHead C e stamp = false
  unsettled : r.settled here e s = false

end

theorem adoptRehome_accepted {here : PubKey} {channel : Bytes32} {stamp : Receipted}
    {c : ChannelRow} (h : RehomeAccepted C here channel r e stamp s c) (domain : String)
    (now : UInt64) :
    r.adoptRehome C here channel e domain now =
      .ok (some (r.followRehome here e stamp s c domain now)) := by
  simp [adoptRehome, h.stamped, h.decoded, h.kind, h.event, h.row, h.elsewhere, h.notHere,
    h.admin, h.receipted, h.follows, h.unsettled]

theorem accepted_of_adoptRehome {here : PubKey} {channel : Bytes32} {r' : Rows} {domain : String}
    {now : UInt64} (h : r.adoptRehome C here channel e domain now = .ok (some r')) :
    ∃ stamp s c, RehomeAccepted C here channel r e stamp s c ∧
      r' = r.followRehome here e stamp s c domain now := by
  unfold adoptRehome at h
  cases hstamp : e.stamp with
  | none => simp [hstamp] at h
  | some stamp =>
    simp only [hstamp] at h
    split at h
    · rename_i s hdecode
      by_cases hkind : e.kind ≠ kindSystem ∨ s.event ≠ Event.rehomed
      · rw [if_pos hkind] at h
        cases h
      rw [if_neg hkind] at h
      cases hrow : r.channel with
      | none => simp [hrow] at h
      | some c =>
        simp only [hrow] at h
        have hnothing : (Except.ok none : Except ChannelError (Option Rows)) ≠ .ok (some r') := by
          simp
        split_ifs at h with helse hself hadmin hreceipt hbreak hsettled
        · exact absurd h hnothing
        · exact absurd h hnothing
        · exact absurd h hnothing
        · obtain rfl := Option.some.inj (Except.ok.inj h)
          rw [not_or, not_not, not_not] at hkind
          exact ⟨stamp, s, c, ⟨hstamp, hdecode, hkind.1, hkind.2, hrow, helse, hself,
            by simpa using hadmin, by simpa using hreceipt, by simpa using hbreak,
            by simpa using hsettled⟩, rfl⟩
    · cases h

theorem followRehome_originRow (self : PubKey) (r : Rows) (e : Entry) (stamp : Receipted)
    (s : System) (c : ChannelRow) (domain : String) (now : UInt64) :
    (r.followRehome self e stamp s c domain now).originRow = some s.subject := by
  unfold followRehome followed originRow recordOrigin
  cases r.replicated <;> rfl

end Rows

/-- What reaches an exchange about where a channel is ordered: a rehome entry
carried to it, or an entry of a batch pulled from the channel's origin. -/
inductive Op where
  | rehomed (channel : Bytes32) (e : Entry) (domain : String) (now : UInt64)
  | pulled (channel : Bytes32) (places : List Place) (credentials : PubKey → Option PubKey)
      (held : Option (UInt64 × Bytes32)) (e : Entry)

namespace Op

def channel : Op → Bytes32
  | .rehomed channel _ _ _ => channel
  | .pulled channel _ _ _ _ => channel

def entry : Op → Entry
  | .rehomed _ e _ _ => e
  | .pulled _ _ _ _ e => e

def act (C : Crypto) (self : PubKey) (r : Rows) : Op → Rows
  | .rehomed channel e domain now =>
    match r.adoptRehome C self channel e domain now with
    | .ok (some r') => r'
    | _ => r
  | .pulled _ places credentials held e =>
    (takeNext C ⟨self, places, credentials⟩ ⟨r, held, ⟨0, [], false⟩⟩ e).rows

end Op

section
variable (C : Crypto) (st : Channels) (op : Op) (self : PubKey)

def Channels.step : Channels :=
  st.put op.channel (op.act C st.exchange (st.rows op.channel))

/-- A record authorises a move: its signature is the admin's, made at the place
the channel was ordered at. -/
def Authorised (channel : Bytes32) (r : Rows) (s : System) : Prop :=
  r.isAdmin s.actor = true ∧ ∃ c, r.channel = some c ∧
    verifyAction C ⟨⟨r.orderedBy self, c.incarnation, channel⟩, s.actor, s.actorDevice,
      Event.rehomed, s.subject, [], s.chainSeq, s.prev⟩ s.sig = true

/-- The entry names the origin the channel has now, by a record that authorises
the move. -/
def Entitled (channel : Bytes32) (before after : Rows) (e : Entry) : Prop :=
  ∃ s, System.decode e.body = .ok (some s) ∧ s.event = Event.rehomed ∧
    s.subject = after.orderedBy self ∧ Authorised C self channel before s

structure SameHeld (r r' : Rows) : Prop where
  entry : r'.entry = r.entry
  tip : r'.tip = r.tip

/-- Where an operation leaves the origin: a carried rehome leaves the log and its
end too, and a pulled entry does or is the one row added. -/
def Op.Frame (before after : Rows) : Op → Prop
  | .rehomed _ _ _ _ => SameHeld before after
  | .pulled _ _ _ _ e => SameHeld before after ∨ ∃ stamp, e.stamp = some stamp ∧
      e.seq.toInt64 ∉ before.entry ∧
      after.entry = before.entry.insert e.seq.toInt64 (.of e stamp) ∧
      after.tip = (before.advanceHead stamp.head (e.seq + 1)).tip

def OriginMovesByAdmin : Prop :=
  let before := st.rows op.channel
  let after := (st.step C op).rows op.channel
  (∀ channel ≠ op.channel, (st.step C op).rows channel = st.rows channel) ∧
  (after.originRow ≠ before.originRow →
    Entitled C st.exchange op.channel before after op.entry) ∧
  (after.originRow = before.originRow → op.Frame before after)

/-- The record is one the code follows: carried, it passes the checks of
`adoptRehome`; pulled, its entry is accepted at a free position, and it names
another origin than the copy follows. -/
def Op.Moves (r : Rows) (s : System) : Op → Prop
  | .rehomed channel e _ _ => ∃ stamp c, r.RehomeAccepted C self channel e stamp s c
  | .pulled _ places credentials held e =>
    (∃ stamp place, Accepts C ⟨self, places, credentials⟩ ⟨r, held, ⟨0, [], false⟩⟩ e stamp
      place) ∧ e.seq.toInt64 ∉ r.entry ∧ Rows.record e = some s ∧ s.event = Event.rehomed ∧
      r.originRow.isSome = true ∧ Rows.movedTo self s ≠ r.originRow

def Signed : Prop :=
  ∀ s, op.Moves C st.exchange (st.rows op.channel) s →
    Authorised C st.exchange op.channel (st.rows op.channel) s

theorem orderedBy_movedTo {self : PubKey} (h : r.originRow = Rows.movedTo self s) :
    r.orderedBy self = s.subject := by
  rw [Rows.orderedBy, h, Rows.movedTo]
  by_cases hself : s.subject = self
  · rw [if_pos hself]
    exact hself.symm
  · rw [if_neg hself]
    rfl

theorem record_eq_some (h : Rows.record e = some s) :
    System.decode e.body = .ok (some s) := by
  unfold Rows.record at h
  split_ifs at h
  cases hdecode : System.decode e.body with
  | error err => simp [hdecode] at h
  | ok found => simpa [hdecode] using h

/-- The operation followed a record the code lets through. -/
structure Followed (here : PubKey) (r r' : Rows) (op : Op) (s : System) : Prop where
  moves : op.Moves C here r s
  decoded : System.decode op.entry.body = .ok (some s)
  event : s.event = Event.rehomed
  origin : r'.originRow = Rows.movedTo here s
  moved : r'.originRow ≠ r.originRow

structure Left (here : PubKey) (r r' : Rows) (op : Op) : Prop where
  still : ∀ s, ¬ op.Moves C here r s
  origin : r'.originRow = r.originRow
  frame : op.Frame r r'

end

section
variable (C : Crypto) (self : PubKey) (r : Rows)

/-- A carried rehome is followed where every check passes, and changes nothing elsewhere. -/
theorem act_rehomed (channel : Bytes32) (e : Entry) (domain : String) (now : UInt64) :
    (∃ stamp s c, r.RehomeAccepted C self channel e stamp s c ∧
      (Op.rehomed channel e domain now).act C self r =
        r.followRehome self e stamp s c domain now) ∨
    (¬ ∃ stamp s c, r.RehomeAccepted C self channel e stamp s c) ∧
      (Op.rehomed channel e domain now).act C self r = r := by
  by_cases hacc : ∃ stamp s c, r.RehomeAccepted C self channel e stamp s c
  · obtain ⟨stamp, s, c, hacc⟩ := hacc
    exact .inl ⟨stamp, s, c, hacc, by simp [Op.act, Rows.adoptRehome_accepted hacc]⟩
  · refine .inr ⟨hacc, ?_⟩
    cases hadopt : r.adoptRehome C self channel e domain now with
    | error err => simp [Op.act, hadopt]
    | ok adopted =>
      cases adopted with
      | none => simp [Op.act, hadopt]
      | some r' =>
        obtain ⟨stamp, s, c, h, _⟩ := Rows.accepted_of_adoptRehome hadopt
        exact absurd ⟨stamp, s, c, h⟩ hacc

theorem rehomed_cases (channel : Bytes32) (e : Entry) (domain : String) (now : UInt64) :
    (∃ s, Followed C self r ((Op.rehomed channel e domain now).act C self r)
      (.rehomed channel e domain now) s) ∨
    Left C self r ((Op.rehomed channel e domain now).act C self r)
      (.rehomed channel e domain now) := by
  cases act_rehomed C self r channel e domain now with
  | inl hfollowed =>
    obtain ⟨stamp, s, c, hacc, hact⟩ := hfollowed
    have horigin : ((Op.rehomed channel e domain now).act C self r).originRow =
        some s.subject := by
      rw [hact, Rows.followRehome_originRow]
    refine Or.inl ⟨s, ⟨stamp, c, hacc⟩, hacc.decoded, hacc.event, ?_, ?_⟩
    · rw [horigin, Rows.movedTo, if_neg hacc.notHere]
    · rw [horigin]
      exact hacc.elsewhere.symm
  | inr hleft =>
    obtain ⟨hacc, hact⟩ := hleft
    refine Or.inr ⟨?_, by rw [hact], ?_⟩
    · intro s hmoves
      obtain ⟨stamp, c, h⟩ := hmoves
      exact hacc ⟨stamp, s, c, h⟩
    · rw [hact]
      exact ⟨rfl, rfl⟩

theorem pulled_cases (channel : Bytes32) (places : List Place)
    (credentials : PubKey → Option PubKey) (held : Option (UInt64 × Bytes32)) (e : Entry) :
    (∃ s, Followed C self r ((Op.pulled channel places credentials held e).act C self r)
      (.pulled channel places credentials held e) s) ∨
    Left C self r ((Op.pulled channel places credentials held e).act C self r)
      (.pulled channel places credentials held e) := by
  by_cases hacc : ∃ stamp place,
      Accepts C ⟨self, places, credentials⟩ ⟨r, held, ⟨0, [], false⟩⟩ e stamp place
  · obtain ⟨stamp, place, hacc⟩ := hacc
    have hact : (Op.pulled channel places credentials held e).act C self r =
        (r.storePulled C self e stamp).1 := takeNext_accepts hacc
    rw [hact]
    by_cases hfree : e.seq.toInt64 ∈ r.entry
    · rw [Rows.storePulled_held hfree]
      exact Or.inr ⟨fun s hmoves => hmoves.2.1 hfree, rfl, Or.inl ⟨rfl, rfl⟩⟩
    · have hstored := Rows.storePulled_free hfree C self stamp
      have hframe : (Op.pulled channel places credentials held e).Frame r
          (r.storePulled C self e stamp).1 :=
        Or.inr ⟨stamp, hacc.stamped, hfree, hstored.entry, hstored.tip⟩
      have horigin := hstored.origin
      cases hrecord : Rows.record e with
      | none =>
        rw [hrecord] at horigin
        refine Or.inr ⟨?_, horigin, hframe⟩
        intro s hmoves
        exact absurd (hrecord.symm.trans hmoves.2.2.1) (by simp)
      | some s =>
        have hafter : (r.storePulled C self e stamp).1.originRow = r.originAfter self s := by
          rw [horigin, hrecord, Option.elim_some]
        by_cases hmoves : s.event = Event.rehomed ∧ r.originRow.isSome = true ∧
            Rows.movedTo self s ≠ r.originRow
        · obtain ⟨hevent, hsome, hne⟩ := hmoves
          have hto : (r.storePulled C self e stamp).1.originRow = Rows.movedTo self s := by
            obtain ⟨origin, hrow⟩ := Option.isSome_iff_exists.mp hsome
            rw [hafter, Rows.originAfter, if_pos hevent, hrow, Option.bind_some]
          exact Or.inl ⟨s, ⟨⟨stamp, place, hacc⟩, hfree, hrecord, hevent, hsome, hne⟩,
            record_eq_some hrecord, hevent, hto, by rw [hto]; exact hne⟩
        · refine Or.inr ⟨?_, ?_, hframe⟩
          · intro s' hmoves'
            obtain rfl : s = s' := Option.some.inj (hrecord.symm.trans hmoves'.2.2.1)
            exact hmoves hmoves'.2.2.2
          · rw [hafter, Rows.originAfter]
            by_cases hevent : s.event = Event.rehomed
            · rw [if_pos hevent]
              cases hrow : r.originRow with
              | none => rfl
              | some origin =>
                by_contra hne
                exact hmoves ⟨hevent, by simp [hrow], by rw [hrow]; exact hne⟩
            · rw [if_neg hevent]
  · have hnone : ∀ stamp place, ¬ Accepts C ⟨self, places, credentials⟩
        ⟨r, held, ⟨0, [], false⟩⟩ e stamp place := by
      intro stamp place h
      exact hacc ⟨stamp, place, h⟩
    obtain ⟨hentry, hchannel, horigin, -⟩ := takeNext_refuses hnone
    refine Or.inr ⟨fun s hmoves => hacc hmoves.1, horigin, Or.inl ⟨hentry, ?_⟩⟩
    rw [Rows.tip, Rows.tip, ← hchannel]
    rfl

/-- What an operation does to its channel: it follows a record the code lets
through, and the origin is the one named, or it leaves the origin. -/
theorem act_cases (op : Op) :
    (∃ s, Followed C self r (op.act C self r) op s) ∨ Left C self r (op.act C self r) op := by
  cases op with
  | rehomed channel e domain now => exact rehomed_cases C self r channel e domain now
  | pulled channel places credentials held e =>
    exact pulled_cases C self r channel places credentials held e

end

theorem moves_decoded {self : PubKey} {op : Op} (h : op.Moves C self r s) :
    System.decode op.entry.body = .ok (some s) := by
  cases op with
  | rehomed channel e domain now =>
    obtain ⟨stamp, c, hacc⟩ := h
    exact hacc.decoded
  | pulled channel places credentials held e => exact record_eq_some h.2.2.1

/-- One operation moves an origin on an admin's signature exactly when the record
it follows carries one. -/
theorem originMoves_iff_signed (C : Crypto) (st : Channels) (op : Op) :
    OriginMovesByAdmin C st op ↔ Signed C st op := by
  have hrows : (st.step C op).rows op.channel = op.act C st.exchange (st.rows op.channel) :=
    st.put_rows _ _
  have helse : ∀ channel ≠ op.channel, (st.step C op).rows channel = st.rows channel :=
    fun channel h => st.put_elsewhere _ h
  cases act_cases C st.exchange (st.rows op.channel) op with
  | inl hmoved =>
    obtain ⟨s, hmoved⟩ := hmoved
    rw [← hrows] at hmoved
    have hto := orderedBy_movedTo hmoved.origin
    constructor
    · intro h s' hmoves
      obtain ⟨s₁, hdecoded, _, _, hauth⟩ := h.2.1 hmoved.moved
      have heq := hdecoded.symm.trans (moves_decoded hmoves)
      obtain rfl := Option.some.inj (Except.ok.inj heq)
      exact hauth
    · intro h
      refine ⟨helse, fun _ => ?_, fun hsame => absurd hsame hmoved.moved⟩
      exact ⟨s, hmoved.decoded, hmoved.event, hto.symm, h s hmoved.moves⟩
  | inr hleft =>
    rw [← hrows] at hleft
    refine iff_of_true ⟨helse, fun hmoved => absurd hleft.origin hmoved, fun _ => hleft.frame⟩ ?_
    intro s hmoves
    exact absurd hmoves (hleft.still s)

/-- Over every run from any store, each operation moves an origin only on an
admin's signature exactly when each record the code follows carries one. -/
theorem origin_moves_iff (C : Crypto) (st : Channels) (ops : List Op) :
    Each (OriginMovesByAdmin C) (Channels.step C) st ops ↔
      Each (Signed C) (Channels.step C) st ops := by
  have hall : Each (fun _ _ => True) (Channels.step C) st ops :=
    each_of_mem (fun _ _ _ => trivial) st
  have hkeep : ∀ (s : Channels) (i : Op), True → True → Signed C s i → True :=
    fun _ _ _ _ _ => trivial
  exact each_congr hkeep (fun s i _ _ => originMoves_iff_signed C s i) trivial hall

section Example

/-- The place of channel 9 in its incarnation 8, ordered by the exchange with this
seed. -/
def placeUnder (seed : Bytes32) : Place := ⟨Crypto.toy.publicKey seed, 8, 9⟩

def receiptedBy (seed : Bytes32) (seq : UInt64) (entryHash prevHead : Bytes32) (s : System) :
    Entry :=
  let bare : Entry :=
    { seq, kind := kindSystem, account := 0, device := 0, posted := 100, expiresAfter := 0,
      epoch := 0, msgSeq := 0, chainSeq := 0, prev := 0, bodyHash := 0, sig := 0,
      stamp := none, body := s.encode }
  let stamp : Receipted := ⟨entryHash, advance Crypto.toy prevHead entryHash, 0⟩
  { bare with
    stamp := some { stamp with
      receipt := Crypto.toy.sign seed
        ((receiptTerms (placeUnder seed) bare stamp).input Crypto.toy) } }

/-- Exchange 7, once it has pulled channel 9's constitution from its origin: account
60 is the admin. -/
def founded : Channels :=
  let constitution := receiptedBy 40 1 11 headGenesis ⟨Event.created, 60, 60, 60, 0, 0, 0⟩
  (takeUnder Crypto.toy ⟨7, fun _ => .empty⟩ (Crypto.toy.publicKey 40) [] 9
    ⟨8, 0, [constitution]⟩ (fun _ => none) 5).1

/-- A move to a stranger's exchange, in account 60's name and with no signature of
its. -/
def seizing : System := ⟨Event.rehomed, Crypto.toy.publicKey 70, 60, 60, 0, 0, 0⟩

def seizure : Op :=
  .rehomed 9 (receiptedBy 70 2 12 (advance Crypto.toy headGenesis 11) seizing) "" 6

/-- The stranger takes the channel. -/
theorem origin_seized : ¬ ∀ st ops, Each (OriginMovesByAdmin Crypto.toy)
    (Channels.step Crypto.toy) st ops := by
  intro hall
  have hsigned := (originMoves_iff_signed Crypto.toy founded seizure).mp
    (hall founded [seizure]).1
  have hfounded : (founded.rows 9).channel.map (·.incarnation) = some 8 := by decide +kernel
  obtain ⟨c, hrow, hincarnation⟩ := Option.map_eq_some_iff.mp hfounded
  have hmoves : seizure.Moves Crypto.toy founded.exchange (founded.rows 9) seizing := by
    refine ⟨_, c, rfl, by decide +kernel, rfl, rfl, hrow, by decide +kernel, by decide +kernel,
      by decide +kernel, ?_, by decide +kernel, by decide +kernel⟩
    rw [hincarnation]
    decide +kernel
  obtain ⟨_, c', hrow', hverify⟩ := hsigned seizing hmoves
  obtain rfl := Option.some.inj (hrow.symm.trans hrow')
  rw [hincarnation] at hverify
  exact absurd hverify (by decide +kernel)

end Example
end Sqex.Exchange

