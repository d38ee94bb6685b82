import Sqex.Exchange.Holes
import Sqex.Exchange.ReplicaLinked

/-! Pulling a channel again and again: a hole closes where every pull from it stores something
or is refused something, and then everything its origin ordered is asked for. -/
namespace Sqex.Exchange
open Std Runs

namespace Rows

/-- An entry as a copy is served it: always with its stamp, made anew where none was kept. -/
def servedTo (C : Crypto) (h : Host) (place : Place) (p : Int64 × EntryRow) : Entry :=
  let (seq, row) := p
  { row.entry seq.toUInt64 with
    stamp := some ⟨row.entryHash, row.head,
      if row.receipt = 0 then
        receiptOf C h.seed ⟨place, seq.toUInt64, row.posted, row.entryHash, row.head⟩
      else row.receipt⟩ }

end Rows

def pullWithin : Nat → List Entry → List Entry
  | _, [] => []
  | bytes, e :: rest =>
    if bytes + wireLen e > maxPullBytes then [] else e :: pullWithin (bytes + wireLen e) rest

/-- An answer has its first entry, however large. -/
def pullBatch : List Entry → List Entry
  | [] => []
  | e :: rest => e :: pullWithin (wireLen e) rest

structure Answer extends Pulled where
  first : UInt64

def Rows.servePull (C : Crypto) (h : Host) (channel : Bytes32) (r : Rows) (since : UInt64) :
    Except ChannelError Answer := do
  refuseIf (h.seed = none) .noReceipts
  let c ← r.channelRow
  let rows := r.entry.toList.filter fun p => since.toInt64 < p.1
  pure ⟨⟨c.incarnation, c.retentionSecs,
    pullBatch ((rows.take maxPull).map (Rows.servedTo C h (Rows.place h channel c)))⟩,
    r.window.1⟩

structure PulledCopy where
  store : Channels
  holes : Holes

/-- What a pull meets: the origin's rows of the channel, its rows when it is asked again where it
answers again, and whom each batch's devices are vouched for by. -/
structure Pulling where
  host : Host
  log : Rows
  later : Option Rows
  credentials : PubKey → Option PubKey
  again : PubKey → Option PubKey
  now : UInt64

structure Pulls where
  store : Channels
  main : Took
  took : Took
  asked : List UInt64

def Took.and (t again : Took) : Took :=
  ⟨t.stored + again.stored, t.refused ++ again.refused, t.equivocated || again.equivocated⟩

section
variable (C : Crypto) (origin : PubKey) (predecessors : List PubKey) (channel : Bytes32)

/-- Pull a channel from its hole or from the highest entry held, and from where the origin's own
copy starts where this one starts later. -/
def pullOnce (s : PulledCopy) (p : Pulling) : Except ChannelError Pulls := do
  let a ← p.log.servePull C p.host channel (sinceOf s.store s.holes channel)
  let (store, main) :=
    takeUnder C s.store origin predecessors channel a.toPulled p.credentials p.now
  let asked := a.entries.map (·.seq)
  if !main.equivocated && decide (0 < a.first) &&
      decide (a.first < (store.rows channel).window.1) then
    let below : Option Answer :=
      p.later.bind fun log => (log.servePull C p.host channel (a.first - 1)).toOption
    match below with
    | some b =>
      let (store, again) :=
        takeUnder C store origin predecessors channel b.toPulled p.again p.now
      pure ⟨store, main, main.and again, asked ++ b.entries.map (·.seq)⟩
    | none => pure ⟨store, main, main, asked⟩
  else pure ⟨store, main, main, asked⟩

def PulledCopy.step (s : PulledCopy) (p : Pulling) : PulledCopy :=
  match pullOnce C origin predecessors channel s p with
  | .ok d => ⟨d.store, noteHoles s.holes ((∅ : ExtTreeMap Bytes32 Took).insert channel d.took)⟩
  | .error _ => s

def Took.moves (t : Took) : Bool := t.refuses || decide (0 < t.stored)

structure LogOf (inc : Bytes32) (r : Rows) : Prop where
  incarnation : ∀ held ∈ r.incarnation, held = inc
  positive : ∀ seq ∈ r.entry, 0 < seq

/-- What a pull has to come to: from a hole it stores something or is refused something; with
none, an answer that does not hold all its origin has stores something. The origin's channel is
the one the copy is of. -/
structure PullMoves (inc : Bytes32) (s : PulledCopy) (p : Pulling) : Prop where
  answered : ∃ d, pullOnce C origin predecessors channel s p = .ok d ∧
    (s.holes[channel]?.isSome = true → d.took.moves = true) ∧
    (s.holes[channel]? = none → (∃ seq ∈ p.log.entry,
      (s.store.rows channel).highest.toInt64 < seq ∧ seq.toUInt64 ∉ d.asked) →
        0 < d.main.stored)
  log : LogOf inc p.log
  later : ∀ log ∈ p.later, LogOf inc log

end

/-! The positions of a log, in order. -/

theorem mem_seqs {α : Type} {log : ExtTreeMap Int64 α} {seq : Int64} :
    seq ∈ log ↔ seq ∈ log.toList.map Prod.fst := by
  rw [ExtTreeMap.map_fst_toList_eq_keys, ExtTreeMap.mem_keys]

theorem seqs_sorted {α : Type} (log : ExtTreeMap Int64 α) :
    (log.toList.map Prod.fst).Pairwise (· < ·) :=
  List.pairwise_map.mpr (log.ordered_keys_toList.imp fun hlt => Std.compare_eq_lt.mp hlt)

theorem pullWithin_initial (bytes : Nat) (es : List Entry) : pullWithin bytes es <+: es := by
  induction es generalizing bytes with
  | nil => exact List.prefix_rfl
  | cons e es ih =>
    rw [pullWithin]
    split
    · exact List.nil_prefix
    · exact List.cons_prefix_cons.mpr ⟨rfl, ih _⟩

theorem pullBatch_initial (es : List Entry) : pullBatch es <+: es := by
  cases es with
  | nil => exact List.prefix_rfl
  | cons e es => exact List.cons_prefix_cons.mpr ⟨rfl, pullWithin_initial _ es⟩

/-- An answer is what comes first of the log after the position: what of the log it leaves out
is above all it holds. -/
structure Answers (log : Rows) (since : UInt64) (asked : List UInt64) : Prop where
  held : ∀ seq ∈ asked, seq.toInt64 ∈ log.entry ∧ since.toInt64 < seq.toInt64
  first : ∀ seq ∈ log.entry, since.toInt64 < seq → seq.toUInt64 ∉ asked →
    ∀ other ∈ asked, other.toInt64 < seq

theorem pull_answers {C : Crypto} {h : Host} {channel : Bytes32} {log : Rows} {since : UInt64}
    {a : Answer} (hpull : log.servePull C h channel since = .ok a) :
    Answers log since (a.entries.map (·.seq)) ∧ a.first = log.window.1 ∧
      log.incarnation = some a.incarnation := by
  simp only [Rows.servePull, bind_eq_ok, pure_eq_ok] at hpull
  obtain ⟨-, -, c, hc, rfl⟩ := hpull
  have hchannel : log.channel = some c := by
    cases hrow : log.channel with
    | none => simp [Rows.channelRow, hrow] at hc
    | some c' => simpa [Rows.channelRow, hrow] using hc
  refine ⟨?_, rfl, by simp [Rows.incarnation, hchannel]⟩
  let rows := log.entry.toList.filter fun p => since.toInt64 < p.1
  have hseqs : (pullBatch ((rows.take maxPull).map
      (Rows.servedTo C h (Rows.place h channel c)))).map (·.seq) <+:
      rows.map fun p => p.1.toUInt64 := by
    have hprefix := (pullBatch_initial ((rows.take maxPull).map
      (Rows.servedTo C h (Rows.place h channel c)))).map (·.seq)
    refine hprefix.trans ?_
    rw [List.map_map]
    exact (List.take_prefix _ rows).map fun p => p.1.toUInt64
  have hsorted : rows.Pairwise fun a b => a.1 < b.1 :=
    (List.pairwise_map.mp (seqs_sorted log.entry)).filter _
  constructor
  · intro seq hseq
    obtain ⟨p, hp, rfl⟩ := List.mem_map.mp (hseqs.subset hseq)
    have hmem := List.mem_filter.mp hp
    exact ⟨mem_seqs.mpr (List.mem_map.mpr ⟨p, hmem.1, rfl⟩), by simpa using hmem.2⟩
  · intro seq hseq hsince hnot other hother
    obtain ⟨p, hp, rfl⟩ := List.mem_map.mp (mem_seqs.mp hseq)
    have hin : p.1.toUInt64 ∈ rows.map fun p => p.1.toUInt64 :=
      List.mem_map.mpr ⟨p, List.mem_filter.mpr ⟨hp, by simpa using hsince⟩, rfl⟩
    have hpairs : (rows.map fun p => p.1.toUInt64).Pairwise fun a b => a.toInt64 < b.toInt64 :=
      List.pairwise_map.mpr hsorted
    obtain ⟨rest, hrest⟩ := hseqs
    rw [← hrest] at hin hpairs
    cases List.mem_append.mp hin with
    | inl hasked => exact absurd hasked hnot
    | inr hlater => exact (List.pairwise_append.mp hpairs).2.2 other hother _ hlater

theorem highest_spec (r : Rows) : (∀ seq ∈ r.entry, seq ≤ r.highest.toInt64) ∧
    (r.highest.toInt64 ∈ r.entry ∨ r.highest = 0) := by
  have hsorted := seqs_sorted r.entry
  have hhighest : r.highest.toInt64 = (r.entry.toList.map Prod.fst).getLast?.getD 0 := rfl
  cases hlast : (r.entry.toList.map Prod.fst).getLast? with
  | none =>
    have hempty := List.getLast?_eq_none_iff.mp hlast
    refine ⟨fun seq hseq => ?_, .inr ?_⟩
    · rw [mem_seqs, hempty] at hseq
      cases hseq
    · have hzero : r.highest.toInt64 = (0 : UInt64).toInt64 := by rw [hhighest, hlast]; rfl
      exact toInt64_inj.mp hzero
  | some top =>
    obtain ⟨init, hinit⟩ := List.getLast?_eq_some_iff.mp hlast
    rw [hhighest, hlast, Option.getD_some]
    refine ⟨fun seq hseq => ?_, .inl (mem_seqs.mpr (by simp [hinit]))⟩
    rw [mem_seqs, hinit] at hseq
    rw [hinit] at hsorted
    rcases mem_concat.mp hseq with hbelow | rfl
    · exact Int64.le_of_lt ((List.pairwise_append.mp hsorted).2.2 seq hbelow top (by simp))
    · exact Int64.le_refl _

theorem lowest_mem {r : Rows} (h : 0 < r.window.1) : r.window.1.toInt64 ∈ r.entry ∧
    ∀ seq ∈ r.entry, r.window.1.toInt64 ≤ seq := by
  have hsorted := seqs_sorted r.entry
  have hlowest : r.window.1.toInt64 = (r.entry.toList.map Prod.fst).head?.getD 0 := rfl
  cases hseqs : r.entry.toList.map Prod.fst with
  | nil =>
    have hzero : r.window.1 = 0 := toInt64_inj.mp (by rw [hlowest, hseqs]; rfl)
    simp [hzero] at h
  | cons first rest =>
    rw [hseqs] at hsorted
    rw [hlowest, hseqs]
    refine ⟨mem_seqs.mpr (by simp [hseqs]), fun seq hseq => ?_⟩
    rw [mem_seqs, hseqs] at hseq
    cases List.mem_cons.mp hseq with
    | inl heq => rw [heq]; exact Int64.le_refl _
    | inr hin => exact Int64.le_of_lt ((List.pairwise_cons.mp hsorted).1 seq hin)

/-! What taking one answer does to the positions held. -/

theorem takeNext_stored (C : Crypto) (src : Source) (t : Taking) (e : Entry) :
    (takeNext C src t e).took.stored = t.took.stored ∨
      e.seq.toInt64 ∉ t.rows.entry ∧ e.seq.toInt64 ∈ (takeNext C src t e).rows.entry := by
  by_cases hacc : ∃ stamp place, Accepts C src t e stamp place
  · obtain ⟨stamp, place, hacc⟩ := hacc
    by_cases hheld : e.seq.toInt64 ∈ t.rows.entry
    · left
      simp [takeNext, hacc.going, hacc.stamped, hacc.receipted, hacc.consistent, hacc.attributed,
        hacc.follows, Rows.storePulled_held hheld]
    · right
      rw [takeNext_accepts hacc, (Rows.storePulled_free hheld C src.self stamp).entry]
      exact ⟨hheld, by simp⟩
  · exact .inl (takeNext_refuses fun stamp place h => hacc ⟨stamp, place, h⟩).2.2.2

/-- What a batch leaves: all that was held, some of what was asked for, and where something was
stored, something new. -/
structure Gains (old new : Rows) (asked : List UInt64) (stored : UInt64) : Prop where
  keeps : ∀ seq ∈ old.entry, seq ∈ new.entry
  source : ∀ seq ∈ new.entry, seq ∈ old.entry ∨ seq.toUInt64 ∈ asked
  fresh : 0 < stored → ∃ seq ∈ asked, seq.toInt64 ∉ old.entry ∧ seq.toInt64 ∈ new.entry

theorem Gains.rfl (r : Rows) (asked : List UInt64) : Gains r r asked 0 :=
  ⟨fun _ h => h, fun _ h => .inl h, fun h => absurd h (by decide)⟩

theorem Gains.takeNext {C : Crypto} {src : Source} {old : Rows} {t : Taking} {e : Entry}
    {asked : List UInt64} (h : Gains old t.rows asked t.took.stored) (he : e.seq ∈ asked) :
    Gains old (takeNext C src t e).rows asked (takeNext C src t e).took.stored := by
  have hlog := takeNext_entry C src t e
  have hkeeps : ∀ seq ∈ t.rows.entry, seq ∈ (Exchange.takeNext C src t e).rows.entry :=
    keeps_takeNext (fun _ h => h) e
  refine ⟨fun seq hseq => hkeeps seq (h.keeps seq hseq), fun seq hseq => ?_, fun hpos => ?_⟩
  · cases hlog with
    | inl hsame => rw [hsame] at hseq; exact h.source seq hseq
    | inr hput =>
      obtain ⟨stamp, place, -, -, hput⟩ := hput
      rw [hput, ExtTreeMap.mem_insert] at hseq
      cases hseq with
      | inl heq =>
        rw [← LawfulEqCmp.eq_of_compare heq]
        exact .inr he
      | inr hold => exact h.source seq hold
  · cases takeNext_stored C src t e with
    | inl hsame =>
      obtain ⟨seq, hasked, hnot, hin⟩ := h.fresh (hsame ▸ hpos)
      exact ⟨seq, hasked, hnot, hkeeps _ hin⟩
    | inr hnew => exact ⟨e.seq, he, fun hold => hnew.1 (h.keeps _ hold), hnew.2⟩

theorem Gains.run {C : Crypto} {src : Source} {old : Rows} {asked : List UInt64}
    (entries : List Entry) (hentries : ∀ e ∈ entries, e.seq ∈ asked) {t : Taking}
    (h : Gains old t.rows asked t.took.stored) :
    Gains old (Runs.run (Exchange.takeNext C src) t entries).rows asked
      (Runs.run (Exchange.takeNext C src) t entries).took.stored := by
  induction entries generalizing t with
  | nil => exact h
  | cons e entries ih =>
    exact ih (fun e' he' => hentries e' (by simp [he'])) (h.takeNext (hentries e (by simp)))

theorem takeUnder_gains (C : Crypto) {store : Channels} (origin : PubKey)
    (predecessors : List PubKey) {channel : Bytes32} (pulled : Pulled)
    (credentials : PubKey → Option PubKey) (now : UInt64)
    (hone : OfIncarnation pulled.incarnation channel store) :
    let t := takeUnder C store origin predecessors channel pulled credentials now
    OfIncarnation pulled.incarnation channel t.1 ∧
      Gains (store.rows channel) (t.1.rows channel) (pulled.entries.map (·.seq)) t.2.stored := by
  unfold takeUnder
  cases hadopt : (store.rows channel).adopt pulled.incarnation origin pulled.windowSecs now with
  | error err => exact ⟨hone, .rfl _ _⟩
  | ok adopted =>
    obtain ⟨hentry, hinc⟩ := Rows.adopt_entry hone hadopt
    simp only [Channels.put_rows, OfIncarnation, takeBatch]
    constructor
    · exact run_invariant (P := fun t : Taking => ∀ held ∈ t.rows.incarnation,
        held = pulled.incarnation) (fun t e h => by rwa [takeNext_incarnation]) hinc pulled.entries
    · have hstart : Gains (store.rows channel) adopted (pulled.entries.map (·.seq)) 0 := by
        refine ⟨fun seq hseq => ?_, fun seq hseq => ?_, fun h => absurd h (by decide)⟩
        · rwa [hentry]
        · rw [hentry] at hseq
          exact .inl hseq
      exact hstart.run (t := ⟨adopted, lastHead adopted, ⟨0, [], false⟩⟩) pulled.entries
        fun e he => List.mem_map.mpr ⟨e, he, rfl⟩

theorem Gains.trans {a b c : Rows} {asked asked' : List UInt64} {stored stored' : UInt64}
    (h : Gains a b asked stored) (h' : Gains b c asked' stored') :
    (∀ seq ∈ a.entry, seq ∈ c.entry) ∧
      ∀ seq ∈ c.entry, seq ∈ a.entry ∨ seq.toUInt64 ∈ asked ++ asked' := by
  refine ⟨fun seq hseq => h'.keeps seq (h.keeps seq hseq), fun seq hseq => ?_⟩
  cases h'.source seq hseq with
  | inl hold =>
    cases h.source seq hold with
    | inl hfirst => exact .inl hfirst
    | inr hasked => exact .inr (List.mem_append_left _ hasked)
  | inr hasked => exact .inr (List.mem_append_right _ hasked)

structure PulledOnce (channel : Bytes32) (inc : Bytes32) (s : PulledCopy) (p : Pulling) (d : Pulls)
    (main : List UInt64) : Prop where
  answers : Answers p.log (sinceOf s.store s.holes channel) main
  gains : ∃ middle, Gains (s.store.rows channel) middle main d.main.stored ∧
    ∀ seq ∈ middle.entry, seq ∈ (d.store.rows channel).entry
  asked : ∀ seq ∈ main, seq ∈ d.asked
  keeps : ∀ seq ∈ (s.store.rows channel).entry, seq ∈ (d.store.rows channel).entry
  source : ∀ seq ∈ (d.store.rows channel).entry, seq ∈ (s.store.rows channel).entry ∨
    seq.toUInt64 ∈ d.asked
  below : d.asked = main ∨ ∃ log ∈ p.later, ∃ asked, 0 < p.log.window.1 ∧
    Answers log (p.log.window.1 - 1) asked ∧ d.asked = main ++ asked
  incarnation : OfIncarnation inc channel d.store

theorem pullOnce_once {C : Crypto} {origin : PubKey} {predecessors : List PubKey}
    {channel inc : Bytes32} {s : PulledCopy} {p : Pulling} {d : Pulls}
    (hone : OfIncarnation inc channel s.store) (hlog : LogOf inc p.log)
    (hlater : ∀ log ∈ p.later, LogOf inc log)
    (h : pullOnce C origin predecessors channel s p = .ok d) :
    ∃ main, PulledOnce channel inc s p d main := by
  simp only [pullOnce, bind_eq_ok] at h
  obtain ⟨a, ha, h⟩ := h
  obtain ⟨hanswers, hfirst, hinc⟩ := pull_answers ha
  have hsame : a.incarnation = inc := hlog.incarnation _ (by simp [hinc])
  obtain ⟨hone', hgains⟩ := takeUnder_gains C origin predecessors a.toPulled
    p.credentials p.now (hsame ▸ hone)
  rw [hsame] at hone'
  refine ⟨a.entries.map (·.seq), ?_⟩
  have hplain (d' : Pulls) (hd' : d' = ⟨(takeUnder C s.store origin predecessors channel a.toPulled
      p.credentials p.now).1, (takeUnder C s.store origin predecessors channel a.toPulled
      p.credentials p.now).2, (takeUnder C s.store origin predecessors channel a.toPulled
      p.credentials p.now).2, a.entries.map (·.seq)⟩) :
      PulledOnce channel inc s p d' (a.entries.map (·.seq)) := by
    subst hd'
    exact ⟨hanswers, ⟨_, hgains, fun _ h => h⟩, fun _ h => h, hgains.keeps, hgains.source,
      .inl rfl, hone'⟩
  split at h
  · next hbelow =>
    split at h
    · next b hb =>
      obtain ⟨log, hlogs, hpull⟩ := Option.bind_eq_some_iff.mp hb
      have hok : log.servePull C p.host channel (a.first - 1) = .ok b := by
        cases hr : log.servePull C p.host channel (a.first - 1) with
        | error e => simp [hr, Except.toOption] at hpull
        | ok b' => simpa [hr, Except.toOption] using hpull
      obtain ⟨hanswers', -, hinc'⟩ := pull_answers hok
      have hsame' : b.incarnation = inc := (hlater log hlogs).incarnation _ (by simp [hinc'])
      obtain ⟨hone'', hgains'⟩ := takeUnder_gains C origin predecessors b.toPulled
        p.again p.now (hsame' ▸ hone')
      rw [hsame'] at hone''
      obtain ⟨hkeeps, hsource⟩ := hgains.trans hgains'
      simp only [pure_eq_ok] at h
      subst h
      simp only [Bool.and_eq_true, decide_eq_true_eq] at hbelow
      refine ⟨hanswers, ⟨_, hgains, hgains'.keeps⟩, fun seq hseq => List.mem_append_left _ hseq,
        hkeeps, hsource, .inr ⟨log, hlogs, _, ?_, ?_, rfl⟩, hone''⟩
      · rw [← hfirst]
        exact hbelow.1.2
      · rw [← hfirst]
        exact hanswers'
    · exact hplain d (pure_eq_ok.mp h).symm
  · exact hplain d (pure_eq_ok.mp h).symm

structure Copies (inc channel : Bytes32) (s : PulledCopy) : Prop where
  incarnation : OfIncarnation inc channel s.store
  positive : ∀ seq ∈ (s.store.rows channel).entry, 0 < seq
  tries : ∀ hole ∈ s.holes[channel]?, hole.tries < holeTries

def topHeld (channel : Bytes32) (s : PulledCopy) : Int :=
  (s.store.rows channel).highest.toInt64.toInt

theorem topHeld_nonneg {inc channel : Bytes32} {s : PulledCopy} (h : Copies inc channel s) :
    0 ≤ topHeld channel s := by
  unfold topHeld
  cases (highest_spec (s.store.rows channel)).2 with
  | inl hmem => exact Int.le_of_lt (Int64.lt_iff_toInt_lt.mp (h.positive _ hmem))
  | inr hzero => rw [hzero]; decide

theorem le_topHeld {channel : Bytes32} {s : PulledCopy} {seq : Int64}
    (h : seq ∈ (s.store.rows channel).entry) : seq.toInt ≤ topHeld channel s :=
  Int64.le_iff_toInt_le.mp ((highest_spec _).1 seq h)

def patience (channel : Bytes32) (seq : Int64) (s : PulledCopy) : Nat :=
  (holeTries + 1) * (seq.toInt - topHeld channel s).toNat +
    (s.holes[channel]?.map fun hole => holeTries - hole.tries).getD 0

section
variable {C : Crypto} {origin : PubKey} {predecessors : List PubKey} {channel inc : Bytes32}
  {s : PulledCopy} {p : Pulling}

theorem noteHole_tries {hole : Option Hole} {t : Took}
    (h : ∀ held ∈ hole, held.tries < holeTries) :
    ∀ held ∈ noteHole hole t, held.tries < holeTries := by
  intro held hheld
  rw [noteHole] at hheld
  split at hheld
  · simp only at hheld
    split at hheld
    · cases hheld
    · next hlt =>
      obtain rfl := Option.some.inj hheld
      exact Nat.lt_of_not_le hlt
  · split at hheld
    · cases hheld
    · exact h held hheld

theorem step_hole {d : Pulls} (h : pullOnce C origin predecessors channel s p = .ok d) :
    (s.step C origin predecessors channel p).store = d.store ∧
      (s.step C origin predecessors channel p).holes[channel]? =
        noteHole s.holes[channel]? d.took := by
  simp [PulledCopy.step, h, noteHoles_lookup]

theorem Copies.step (h : Copies inc channel s)
    (hmoves : PullMoves C origin predecessors channel inc s p) :
    Copies inc channel (s.step C origin predecessors channel p) := by
  obtain ⟨d, hd, -⟩ := hmoves.answered
  obtain ⟨hstore, hhole⟩ := step_hole hd
  obtain ⟨main, honce⟩ := pullOnce_once h.incarnation hmoves.log hmoves.later hd
  refine ⟨hstore ▸ honce.incarnation, fun seq hseq => ?_, ?_⟩
  · rw [hstore] at hseq
    cases honce.source seq hseq with
    | inl hold => exact h.positive seq hold
    | inr hasked =>
      cases honce.below with
      | inl hmain =>
        rw [hmain] at hasked
        exact hmoves.log.positive _ (honce.answers.held _ hasked).1
      | inr hmore =>
        obtain ⟨log, hlog, asked, -, hanswers, heq⟩ := hmore
        rw [heq] at hasked
        cases List.mem_append.mp hasked with
        | inl hmain => exact hmoves.log.positive _ (honce.answers.held _ hmain).1
        | inr hbelow => exact (hmoves.later log hlog).positive _ (hanswers.held _ hbelow).1
  · rw [hhole]
    exact noteHole_tries h.tries

theorem PullMoves.hole (hmoves : PullMoves C origin predecessors channel inc s p) {hole : Hole}
    (hhole : s.holes[channel]? = some hole) :
    (s.step C origin predecessors channel p).holes[channel]? = none ∨
      ∃ since, (s.step C origin predecessors channel p).holes[channel]? =
        some ⟨since, hole.tries + 1⟩ ∧ hole.tries + 1 < holeTries := by
  obtain ⟨d, hd, hmove, -⟩ := hmoves.answered
  rw [(step_hole hd).2, hhole]
  have htook : d.took.moves = true := hmove (by simp [hhole])
  cases hrefuses : d.took.refuses with
  | true =>
    cases noteHole_refuses hrefuses hole with
    | inl hgone => exact .inl hgone.1
    | inr hopen => exact .inr hopen
  | false =>
    refine .inl (noteHole_fills ?_ _)
    simp only [Took.moves, hrefuses, Bool.false_or] at htook
    simpa [Took.fills, Took.refuses, htook] using hrefuses

theorem hole_closes {hole : Hole} (hhole : s.holes[channel]? = some hole) {ps : List Pulling}
    (hlong : holeTries ≤ hole.tries + ps.length) (htries : hole.tries < holeTries)
    (hmoves : Each (PullMoves C origin predecessors channel inc)
      (PulledCopy.step C origin predecessors channel) s ps) :
    ∃ pre, pre <+: ps ∧
      (run (PulledCopy.step C origin predecessors channel) s pre).holes[channel]? = none := by
  induction ps generalizing s hole with
  | nil =>
    simp only [List.length_nil] at hlong
    omega
  | cons p ps ih =>
    cases hmoves.1.hole hhole with
    | inl hgone => exact ⟨[p], by simp, hgone⟩
    | inr hopen =>
      obtain ⟨since, hopen, hlt⟩ := hopen
      simp only [List.length_cons] at hlong
      obtain ⟨pre, hpre, hgone⟩ := ih hopen (by simp only; omega) hlt hmoves.2
      exact ⟨p :: pre, List.cons_prefix_cons.mpr ⟨rfl, hpre⟩, hgone⟩

end

def Asks (C : Crypto) (origin : PubKey) (predecessors : List PubKey) (channel : Bytes32)
    (s : PulledCopy) (p : Pulling) (seq : Int64) : Prop :=
  ∃ d, pullOnce C origin predecessors channel s p = .ok d ∧ seq.toUInt64 ∈ d.asked

theorem column_le {n m : UInt64} (hle : n ≤ m) (hm : 0 ≤ m.toInt64.toInt) :
    n.toInt64.toInt ≤ m.toInt64.toInt := by
  have hnat := UInt64.le_iff_toNat_le.mp hle
  have hcolumn : (m.toNat : Int) = m.toInt64.toInt := column_toNat hm
  have hlt := column_lt m.toInt64
  rw [column_toInt (n := n) (by omega)]
  omega

section
variable {C : Crypto} {origin : PubKey} {predecessors : List PubKey} {channel inc : Bytes32}
  {s : PulledCopy} {p : Pulling} {seq : Int64}

theorem sinceOf_none {store : Channels} {holes : Holes} (h : holes[channel]? = none) :
    sinceOf store holes channel = (store.rows channel).highest := by
  rw [sinceOf, h]

theorem sinceOf_le (h : Copies inc channel s) :
    (sinceOf s.store s.holes channel).toInt64.toInt ≤ topHeld channel s := by
  refine column_le ?_ (topHeld_nonneg h)
  unfold sinceOf
  split
  · have hmin (n m : UInt64) : min n m ≤ n := by
      have hif : min n m = if n ≤ m then n else m := rfl
      rw [hif]
      split
      · exact UInt64.le_refl _
      · next hnot => exact UInt64.le_of_lt (UInt64.not_le.mp hnot)
    exact hmin _ _
  · exact UInt64.le_refl _

theorem PulledOnce.asked_lt {d : Pulls} {main : List UInt64}
    (honce : PulledOnce channel inc s p d main) (h : Copies inc channel s)
    (hpositive : LogOf inc p.log) (hlow : topHeld channel s < seq.toInt) (hlog : seq ∈ p.log.entry)
    (hlater : ∀ log ∈ p.later, seq ∈ log.entry) (hnot : seq.toUInt64 ∉ d.asked) :
    ∀ other ∈ d.asked, other.toInt64 < seq := by
  have hmain : ∀ other ∈ main, other.toInt64 < seq := by
    refine honce.answers.first seq hlog ?_ fun hmem => hnot (honce.asked _ hmem)
    have := sinceOf_le h
    exact Int64.lt_iff_toInt_lt.mpr (by omega)
  intro other hother
  cases honce.below with
  | inl heq => exact hmain other (heq ▸ hother)
  | inr hmore =>
    obtain ⟨log, hmem, asked, hfirst, hanswers, heq⟩ := hmore
    rw [heq] at hother hnot
    cases List.mem_append.mp hother with
    | inl hin => exact hmain other hin
    | inr hin =>
      refine hanswers.first seq (hlater log hmem) ?_
        (fun hmem => hnot (List.mem_append_right _ hmem)) other hin
      obtain ⟨hheld, hleast⟩ := lowest_mem hfirst
      have hpos := Int64.lt_iff_toInt_lt.mp (hpositive.positive _ hheld)
      have hle := Int64.le_iff_toInt_le.mp (hleast seq hlog)
      have hzero : (0 : Int64).toInt = 0 := rfl
      have hnonneg : 0 ≤ p.log.window.1.toInt64.toInt := by omega
      have hcolumn : (p.log.window.1.toNat : Int) = p.log.window.1.toInt64.toInt :=
        column_toNat hnonneg
      have hlt := column_lt p.log.window.1.toInt64
      have hone : (1 : UInt64).toNat = 1 := rfl
      have hsub : (p.log.window.1 - 1).toNat = p.log.window.1.toNat - 1 := by
        refine UInt64.toNat_sub_of_le _ _ (UInt64.le_iff_toNat_le.mpr ?_)
        omega
      refine Int64.lt_iff_toInt_lt.mpr ?_
      rw [column_toInt (by omega), hsub]
      omega

theorem PulledOnce.topHeld_le {d : Pulls} {main : List UInt64} {s' : PulledCopy}
    (honce : PulledOnce channel inc s p d main) (hstore : s'.store = d.store)
    (h' : Copies inc channel s') : topHeld channel s ≤ topHeld channel s' := by
  cases (highest_spec (s.store.rows channel)).2 with
  | inl hmem => exact le_topHeld (s := s') (by rw [hstore]; exact honce.keeps _ hmem)
  | inr hzero =>
    have hstart : topHeld channel s = 0 := by
      unfold topHeld
      rw [hzero]
      rfl
    rw [hstart]
    exact topHeld_nonneg h'

theorem PullMoves.unasked (hmoves : PullMoves C origin predecessors channel inc s p)
    (h : Copies inc channel s) (hlow : topHeld channel s < seq.toInt) (hlog : seq ∈ p.log.entry)
    (hlater : ∀ log ∈ p.later, seq ∈ log.entry)
    (hnot : ¬ Asks C origin predecessors channel s p seq) :
    topHeld channel (s.step C origin predecessors channel p) < seq.toInt ∧
      patience channel seq (s.step C origin predecessors channel p) <
        patience channel seq s := by
  have h' := h.step hmoves
  obtain ⟨d, hd, -, hreach⟩ := hmoves.answered
  obtain ⟨hstore, hhole⟩ := step_hole hd
  obtain ⟨main, honce⟩ := pullOnce_once h.incarnation hmoves.log hmoves.later hd
  have hunasked : seq.toUInt64 ∉ d.asked := fun hmem => hnot ⟨d, hd, hmem⟩
  have hlt := honce.asked_lt h hmoves.log hlow hlog hlater hunasked
  have hup := honce.topHeld_le hstore h'
  have htop : topHeld channel (s.step C origin predecessors channel p) < seq.toInt := by
    cases (highest_spec ((s.step C origin predecessors channel p).store.rows channel)).2 with
    | inl hmem =>
      rw [hstore] at hmem
      cases honce.source _ hmem with
      | inl hold =>
        have := le_topHeld (s := s) hold
        unfold topHeld at this hlow ⊢
        rw [hstore]
        omega
      | inr hasked =>
        have := Int64.lt_iff_toInt_lt.mp (hlt _ hasked)
        unfold topHeld
        rw [hstore]
        exact this
    | inr hzero =>
      have := topHeld_nonneg h
      unfold topHeld at this hlow ⊢
      rw [hzero]
      have hz : (0 : UInt64).toInt64.toInt = 0 := rfl
      omega
  refine ⟨htop, ?_⟩
  have htries : holeTries = 30 := rfl
  have hunit : holeTries + 1 = 31 := rfl
  simp only [patience, hunit]
  cases hhere : s.holes[channel]? with
  | some hole =>
    have hlast := h.tries hole hhere
    cases hmoves.hole hhere with
    | inl hgone =>
      simp only [hgone, Option.map_none, Option.getD_none, Option.map_some, Option.getD_some]
      omega
    | inr hopen =>
      obtain ⟨since, hopen, hmore⟩ := hopen
      simp only [hopen, Option.map_some, Option.getD_some]
      omega
  | none =>
    have habove : (s.store.rows channel).highest.toInt64 < seq := Int64.lt_iff_toInt_lt.mpr hlow
    obtain ⟨middle, hgains, hkept⟩ := honce.gains
    obtain ⟨new, hnew, -, hin⟩ := hgains.fresh (hreach hhere ⟨seq, hlog, habove, hunasked⟩)
    have hmore := Int64.lt_iff_toInt_lt.mp (honce.answers.held new hnew).2
    rw [sinceOf_none hhere] at hmore
    have hle : new.toInt64.toInt ≤ topHeld channel (s.step C origin predecessors channel p) :=
      le_topHeld (by rw [hstore]; exact hkept _ hin)
    have hnext : ((s.step C origin predecessors channel p).holes[channel]?.map fun hole =>
        holeTries - hole.tries).getD 0 ≤ holeTries := by
      cases (s.step C origin predecessors channel p).holes[channel]? with
      | none | some hole => simp
    have hstart : (s.store.rows channel).highest.toInt64.toInt = topHeld channel s := rfl
    simp only [Option.map_none, Option.getD_none]
    omega

theorem asked_within (h : Copies inc channel s) {ps : List Pulling}
    (hlow : topHeld channel s < seq.toInt) (hlong : patience channel seq s < ps.length)
    (hmoves : Each (PullMoves C origin predecessors channel inc)
      (PulledCopy.step C origin predecessors channel) s ps)
    (hheld : ∀ p ∈ ps, seq ∈ p.log.entry ∧ ∀ log ∈ p.later, seq ∈ log.entry) :
    ∃ pre p, pre ++ [p] <+: ps ∧
      Asks C origin predecessors channel (run (PulledCopy.step C origin predecessors channel) s pre)
        p seq := by
  induction ps generalizing s with
  | nil => simp at hlong
  | cons p ps ih =>
    obtain ⟨hlog, hlater⟩ := hheld p (by simp)
    by_cases hasks : Asks C origin predecessors channel s p seq
    · exact ⟨[], p, by simp, hasks⟩
    · obtain ⟨hlow', hless⟩ := hmoves.1.unasked h hlow hlog hlater hasks
      simp only [List.length_cons] at hlong
      obtain ⟨pre, q, hpre, hasked⟩ := ih (h.step hmoves.1) hlow' (by omega) hmoves.2
        fun q hq => hheld q (by simp [hq])
      exact ⟨p :: pre, q, List.cons_prefix_cons.mpr ⟨rfl, hpre⟩, hasked⟩

end

theorem Seeded.tries {holes : Holes} (h : Seeded holes) (channel : Bytes32) :
    ∀ hole ∈ holes[channel]?, hole.tries < holeTries := by
  have hseed (store : Channels) (channels : List Bytes32) {holes : Holes}
      (hold : ∀ hole ∈ holes[channel]?, hole.tries < holeTries) :
      ∀ hole ∈ (seedHoles store holes channels)[channel]?, hole.tries < holeTries := by
    induction channels generalizing holes with
    | nil => exact hold
    | cons c channels ih =>
      refine ih fun hole hhole => ?_
      cases hgap : (store.rows c).lowestGap with
      | none => exact hold hole (by simpa [hgap] using hhole)
      | some seq =>
        simp only [hgap, lookup_insert] at hhole
        split at hhole
        · obtain rfl := Option.some.inj hhole
          exact (by decide : 0 < holeTries)
        · exact hold hole hhole
  induction h with
  | none => simp
  | found store channels => exact hseed store channels (by simp)
  | more holes store channels _ ih => exact hseed store channels ih
  | noted holes took _ ih =>
    rw [noteHoles_lookup]
    split
    · exact noteHole_tries ih
    · exact ih

/-! The hole a map of holes has for a channel, over the pulls of every channel. -/

theorem exists_take_filterMap {α β : Type} (f : α → Option β) (l : List α) (j : Nat) :
    ∃ k, (l.take k).filterMap f = (l.filterMap f).take j := by
  induction l generalizing j with
  | nil => exact ⟨0, by simp⟩
  | cons a l ih =>
    cases ha : f a with
    | none =>
      obtain ⟨k, hk⟩ := ih j
      exact ⟨k + 1, by simp [ha, hk]⟩
    | some b =>
      cases j with
      | zero => exact ⟨0, by simp⟩
      | succ j =>
        obtain ⟨k, hk⟩ := ih j
        exact ⟨k + 1, by simp [ha, hk]⟩

theorem hole_gone_iff {holes : Holes} {channel : Bytes32} {hole : Hole}
    (hhole : holes[channel]? = some hole) (htries : hole.tries < holeTries)
    (pulls : List (ExtTreeMap Bytes32 Took)) :
    (∃ k, (resultsOf channel (pulls.take k)).length ≤ holeTries ∧
        (run noteHoles holes (pulls.take k))[channel]? = none) ↔
      (∃ t ∈ (resultsOf channel pulls).take holeTries, t.fills = true) ∨
        holeTries ≤ hole.tries +
          ((resultsOf channel pulls).take holeTries).countP Took.refuses := by
  rw [← closes_iff htries]
  constructor
  · rintro ⟨k, hlength, hgone⟩
    rw [run_noteHoles, hhole] at hgone
    have hinitial : resultsOf channel (pulls.take k) <+: resultsOf channel pulls :=
      (List.take_prefix k pulls).filterMap _
    have htake := List.prefix_iff_eq_take.mp hinitial
    refine ⟨(resultsOf channel (pulls.take k)).length, ?_⟩
    rwa [List.take_take, Nat.min_eq_left hlength, ← htake]
  · rintro ⟨j, hgone⟩
    obtain ⟨k, hk⟩ := exists_take_filterMap (·[channel]?) pulls (min j holeTries)
    have hresults : resultsOf channel (pulls.take k) =
        (resultsOf channel pulls).take (min j holeTries) := hk
    refine ⟨k, ?_, ?_⟩
    · rw [hresults, List.length_take]
      omega
    · rw [run_noteHoles, hhole, hresults, ← List.take_take]
      exact hgone

/-- A hole is given up on or filled. Over any pulls, it has gone after `holeTries` of its channel
exactly when one of those filled it or enough were refused something. In a run of pulls that each
come to something it has gone by then; and every entry its origin goes on holding above the highest
held is asked for. -/
theorem holes_close (C : Crypto) (origin : PubKey) (predecessors : List PubKey)
    (channel : Bytes32) :
    (∀ holes, Seeded holes → ∀ hole, holes[channel]? = some hole → ∀ pulls,
      holeTries ≤ (resultsOf channel pulls).length →
      ((∃ k, (resultsOf channel (pulls.take k)).length ≤ holeTries ∧
          (run noteHoles holes (pulls.take k))[channel]? = none) ↔
        (∃ t ∈ (resultsOf channel pulls).take holeTries, t.fills = true) ∨
          holeTries ≤ hole.tries +
            ((resultsOf channel pulls).take holeTries).countP Took.refuses)) ∧
    ∀ inc s, Seeded s.holes → LogOf inc (s.store.rows channel) →
      (∀ hole, s.holes[channel]? = some hole → ∀ ps, holeTries ≤ ps.length →
        Each (PullMoves C origin predecessors channel inc)
          (PulledCopy.step C origin predecessors channel) s ps →
        ∃ pre, pre <+: ps ∧
          (run (PulledCopy.step C origin predecessors channel) s pre).holes[channel]? = none) ∧
      ∀ seq : Int64, (s.store.rows channel).highest.toInt64 < seq → ∃ n, ∀ ps : List Pulling,
        n ≤ ps.length →
        Each (PullMoves C origin predecessors channel inc)
          (PulledCopy.step C origin predecessors channel) s ps →
        (∀ p ∈ ps, seq ∈ p.log.entry ∧ ∀ log ∈ p.later, seq ∈ log.entry) →
        ∃ pre p, pre ++ [p] <+: ps ∧ Asks C origin predecessors channel
          (run (PulledCopy.step C origin predecessors channel) s pre) p seq := by
  refine ⟨fun holes hseeded hole hhole pulls _ =>
    hole_gone_iff hhole (hseeded.tries channel hole hhole) pulls, fun inc s hseeded hlog => ?_⟩
  have hcopies : Copies inc channel s :=
    ⟨hlog.incarnation, hlog.positive, hseeded.tries channel⟩
  constructor
  · intro hole hhole ps hlong hmoves
    exact hole_closes hhole (by omega) (hseeded.tries channel hole hhole) hmoves
  · intro seq habove
    refine ⟨patience channel seq s + 1, fun ps hlong hmoves hheld => ?_⟩
    exact asked_within hcopies (Int64.lt_iff_toInt_lt.mp habove) hlong hmoves hheld

section Example

def headAt : Nat → Bytes32
  | 0 => genesis
  | n + 1 => advance .toy (headAt n) 70

/-- A row that the exchange wrote and nobody knows the meaning of. -/
def unknownRow (seq : UInt64) : EntryRow :=
  { kind := kindSystem, account := 5, device := 5, posted := seq, expiresAfter := 0, epoch := 0,
    msgSeq := 0, chainSeq := 0, prev := genesis, bodyHash := 0, sig := 0, body := [],
    entryHash := 70, head := headAt seq.toNat, receipt := 0 }

def gapped : Rows :=
  { Rows.empty with
    channel := some ⟨.priv, 0, 0, "", "", 1, 4, 5, 1, 1, 8, 0, none⟩
    entry := ((∅ : ExtTreeMap Int64 EntryRow).insert 1 (unknownRow 1)).insert 3 (unknownRow 3) }

def gappedCopy : PulledCopy :=
  let store : Channels :=
    ⟨7, fun _ => { gapped with replicated := some ⟨originKey, 0, true, none, true, ""⟩ }⟩
  ⟨store, holesIn store [9]⟩

def askedAgain : Pulling :=
  ⟨⟨originKey, some originSeed, 0⟩, gapped, none, fun _ => none, fun _ => none, 100⟩

/-- A pull from the origin with the entry missing here, and one more. -/
def filling : Pulling :=
  { askedAgain with
    log := { gapped with entry := (gapped.entry.insert 2 (unknownRow 2)).insert 4 (unknownRow 4) } }

theorem gappedCopy_log : LogOf 8 (gappedCopy.store.rows 9) where
  incarnation _ hheld := (Option.some.inj hheld).symm
  positive := by
    have hall : (gapped.entry.toList.map Prod.fst).all (0 < ·) = true := by decide +kernel
    exact fun seq hseq => of_decide_eq_true (List.all_eq_true.mp hall seq (mem_seqs.mp hseq))

theorem filling_le : ∀ seq ∈ filling.log.entry, 0 < seq ∧ seq ≤ 4 := by
  have hall : (filling.log.entry.toList.map Prod.fst).all
      (fun seq => decide (0 < seq ∧ seq ≤ 4)) = true := by decide +kernel
  exact fun seq hseq => of_decide_eq_true (List.all_eq_true.mp hall seq (mem_seqs.mp hseq))

theorem filling_log : LogOf 8 filling.log :=
  ⟨fun _ hheld => (Option.some.inj hheld).symm, fun seq hseq => (filling_le seq hseq).1⟩

theorem filling_later : ∀ log ∈ filling.later, LogOf 8 log := fun _ h => nomatch h

theorem filling_answered (s : PulledCopy) :
    ∃ a, filling.log.servePull .toy filling.host 9 (sinceOf s.store s.holes 9) = .ok a ∧
      pullOnce .toy originKey [] 9 s filling = .ok
        (let t := takeUnder .toy s.store originKey [] 9 a.toPulled (fun _ => none) 100
        ⟨t.1, t.2, t.2, a.entries.map (·.seq)⟩) := by
  refine ⟨_, rfl, ?_⟩
  simp only [pullOnce, filling, askedAgain, Option.bind_none]
  exact ite_self _

/-- What has the origin's last entry finds nothing to store or refuse. -/
theorem filling_idle {s : PulledCopy} {d : Pulls}
    (hd : pullOnce .toy originKey [] 9 s filling = .ok d) (hhole : s.holes[(9 : Bytes32)]? = none)
    (htop : 4 ≤ topHeld 9 s) : d.took = ⟨0, [], false⟩ := by
  obtain ⟨a, ha, hpull⟩ := filling_answered s
  obtain rfl := Except.ok.inj (hpull.symm.trans hd)
  have hnone : a.entries = [] := by
    refine List.eq_nil_iff_forall_not_mem.mpr fun e he => ?_
    obtain ⟨hheld, hafter⟩ := (pull_answers ha).1.held e.seq (List.mem_map_of_mem he)
    have hle := Int64.le_iff_toInt_le.mp (filling_le _ hheld).2
    rw [sinceOf_none hhole, Int64.lt_iff_toInt_lt] at hafter
    exact absurd (hle.trans htop) (by simpa [topHeld] using hafter)
  simp only [takeUnder, hnone]
  split <;> rfl

/-- The pull that fills the hole, and any more of them. -/
theorem filling_moves (n : Nat) : Each (PullMoves .toy originKey [] 9 8)
    (PulledCopy.step .toy originKey [] 9) gappedCopy (List.replicate n filling) := by
  have hcaught (n : Nat) (s : PulledCopy) (hone : Copies 8 9 s)
      (hhole : s.holes[(9 : Bytes32)]? = none) (htop : 4 ≤ topHeld 9 s) :
      Each (PullMoves .toy originKey [] 9 8) (PulledCopy.step .toy originKey [] 9) s
        (List.replicate n filling) := by
    induction n generalizing s with
    | zero => trivial
    | succ n ih =>
      obtain ⟨a, -, hd⟩ := filling_answered s
      have hmoves : PullMoves .toy originKey [] 9 8 s filling := by
        refine ⟨⟨_, hd, fun hopen => ?_, fun _ habove => ?_⟩, filling_log, filling_later⟩
        · rw [hhole] at hopen
          cases hopen
        · obtain ⟨seq, hseq, hlt, -⟩ := habove
          have hle := Int64.le_iff_toInt_le.mp (filling_le seq hseq).2
          rw [Int64.lt_iff_toInt_lt] at hlt
          exact absurd (hle.trans htop) (by simpa [topHeld] using hlt)
      have hstep := hone.step hmoves
      obtain ⟨hstore, hnoted⟩ := step_hole hd
      obtain ⟨main, honce⟩ := pullOnce_once hone.incarnation filling_log filling_later hd
      refine ⟨hmoves, ih _ hstep ?_ (htop.trans (honce.topHeld_le hstore hstep))⟩
      rw [hnoted, hhole, filling_idle hd hhole htop]
      rfl
  cases n with
  | zero => trivial
  | succ n =>
    have hone : Copies 8 9 gappedCopy := ⟨gappedCopy_log.incarnation, gappedCopy_log.positive,
      (Seeded.found gappedCopy.store [9]).tries 9⟩
    obtain ⟨a, -, hd⟩ := filling_answered gappedCopy
    have hstores : (pullOnce .toy originKey [] 9 gappedCopy filling).toOption.any (·.took.moves) =
        true := by decide +kernel
    have hmoves : PullMoves .toy originKey [] 9 8 gappedCopy filling := by
      refine ⟨⟨_, hd, fun _ => ?_, fun hnone => absurd hnone (by decide +kernel)⟩, filling_log,
        filling_later⟩
      rwa [hd] at hstores
    exact ⟨hmoves, hcaught n _ (hone.step hmoves) (by decide +kernel) (by decide +kernel)⟩

/-- The copy's hole, filled by the first of its pulls. -/
theorem holes_close_filled :
    let pulls := List.replicate holeTries
      ((∅ : ExtTreeMap Bytes32 Took).insert 9 ⟨1, [], false⟩)
    (∃ k, (resultsOf 9 (pulls.take k)).length ≤ holeTries ∧
      (run noteHoles gappedCopy.holes (pulls.take k))[(9 : Bytes32)]? = none) ∧
    (∃ pre, pre <+: List.replicate holeTries filling ∧
      (run (PulledCopy.step .toy originKey [] 9) gappedCopy pre).holes[(9 : Bytes32)]? = none) ∧
    ∃ n pre p, pre ++ [p] <+: List.replicate n filling ∧ Asks .toy originKey [] 9
      (run (PulledCopy.step .toy originKey [] 9) gappedCopy pre) p 4 := by
  have hseeded : Seeded gappedCopy.holes := .found gappedCopy.store [9]
  have hhole : gappedCopy.holes[(9 : Bytes32)]? = some ⟨1, 0⟩ := by decide +kernel
  obtain ⟨hgone, hruns⟩ := holes_close .toy originKey [] 9
  obtain ⟨hcloses, hasks⟩ := hruns 8 gappedCopy hseeded gappedCopy_log
  obtain ⟨n, hasks⟩ := hasks 4 (by decide +kernel)
  refine ⟨(hgone gappedCopy.holes hseeded _ hhole _ (by decide +kernel)).mpr
    (.inl ⟨⟨1, [], false⟩, ?_, rfl⟩), hcloses _ hhole _ (by simp) (filling_moves _),
    n, hasks (List.replicate n filling) (by simp) (filling_moves n) fun p hp => ?_⟩
  · decide +kernel
  · rw [List.eq_of_mem_replicate hp]
    exact ⟨by decide +kernel, fun _ h => nomatch h⟩

/-- What the origin no longer has is asked for without end: nothing is stored, nothing refused. -/
theorem hole_stays :
    ¬ ∀ (C : Crypto) (origin : PubKey) (predecessors : List PubKey) (channel : Bytes32)
      (s : PulledCopy), Seeded s.holes → ∀ hole, s.holes[channel]? = some hole →
      ∀ ps : List Pulling, holeTries ≤ ps.length →
        ∃ pre, pre <+: ps ∧
          (run (PulledCopy.step C origin predecessors channel) s pre).holes[channel]? = none := by
  intro hall
  obtain ⟨pre, hpre, hgone⟩ := hall Crypto.toy originKey [] 9 gappedCopy
    (.found gappedCopy.store [9]) ⟨1, 0⟩ (by decide +kernel)
    (List.replicate holeTries askedAgain) (by simp)
  obtain ⟨hlength, hsame⟩ := List.prefix_replicate_iff.mp hpre
  have hkept : ((List.range 31).all fun n =>
      (run (PulledCopy.step Crypto.toy originKey [] 9) gappedCopy
        (List.replicate n askedAgain)).holes[(9 : Bytes32)]? == some ⟨1, 0⟩) = true := by
    decide +kernel
  have hhere := List.all_eq_true.mp hkept pre.length (List.mem_range.mpr (by
    have : holeTries = 30 := rfl
    omega))
  rw [← hsame, hgone] at hhere
  cases hhere

end Example

end Sqex.Exchange
