import Sqex.Exchange.Catchup
import Sqex.Exchange.ReadMarks

/-! What one catch-up answers, beside what fetching each channel would have: the entries and
the envelopes, what is said to be left, and what is recorded as delivered. -/
namespace Sqex.Exchange.Catchup
open Std Runs
variable {C : Crypto} {h : Host} {account device : PubKey} {now : UInt64} {budget spent : Nat}
  {st st' : Store} {n : Named} {c : Caught} {es : Entries} {named : List Named}
variable {caught : List Caught}

section
variable (C : Crypto) (h : Host) (account : PubKey) (st : Store)

def Store.above (n : Named) : List Entry :=
  ((st.tables n.channel).rows.entry.toList.filter fun p => n.since.toInt64 < p.1).map
    (Rows.served C h none)

def Store.fetched (n : Named) : Except ChannelError Fetched :=
  ((st.tables n.channel).fetch C h n.channel account n.since false).map Prod.snd

structure Answers (device : PubKey) (now : UInt64) (st : Store) (n : Named) (c : Caught) :
    Prop where
  channel : c.channel = n.channel
  silent : c.status ≠ .ok → c.fetched = none ∧ c.got = none
  absent : c.status = .absent → ∃ e, st.fetched C h account n = .error e
  cut : c.status = .ok → ∃ f, st.fetched C h account n = .ok f ∧
    c.fetched.map (·.toFetched) = some { f with entries := c.entries } ∧
    c.entries <+: f.entries
  got : c.status = .ok →
    c.got = (st.getKeys account device n.channel n.sinceEpoch now).toOption
  whole : c.status = .ok → c.more = false → c.entries = st.above C h n

/-- The answer at a place ran the budget out: it reached it, or the next entry would have gone
over it. -/
def RanOut (budget spent : Nat) (st : Store) (named : List Named) (caught : List Caught) (i : Nat) :
    Prop :=
  ∃ (n : Named) (c : Caught), named[i]? = some n ∧ caught[i]? = some c ∧ c.status = .ok ∧
    (budget ≤ spent + ((caught.take (i + 1)).map Caught.len).sum ∨
      ∃ (f : Fetched) (e : Entry), st.fetched C h account n = .ok f ∧
        f.entries[c.entries.length]? = some e ∧
        budget < spent + ((caught.take (i + 1)).map Caught.len).sum + wireLen e)

/-- A mark is no higher than it was, or within what the account was handed. -/
def Delivered (st' : Store) (caught : List Caught) : Prop :=
  ∀ (channel : Bytes32) (who : PubKey) (row : CursorRow),
    (st'.tables channel).cursor[who]? = some row →
      (∃ was, (st.tables channel).cursor[who]? = some was ∧ row.delivered ≤ was.delivered) ∨
      who = account ∧ ∃ c ∈ caught, c.channel = channel ∧
        ∃ e ∈ c.entries, row.delivered ≤ e.seq.toInt64

structure Agrees (device : PubKey) (budget : Nat) (now : UInt64) (spent : Nat) (st : Store)
    (named : List Named) (st' : Store) (caught : List Caught) : Prop where
  answers : List.Forall₂ (Answers C h account device now st) named caught
  deferred : ∀ (j : Nat) (c : Caught), caught[j]? = some c →
    (c.status = .deferred ↔ ∃ i < j, RanOut C h account budget spent st named caught i)
  delivered : Delivered account st st' caught

end

def Roomy (es : List Entry) : Prop := es.length ≤ 1 ∨ (es.map wireLen).sum ≤ maxBatchBytes

/-- Each channel that is looked at either fits what is left of the budget, with the entries
above its cursor within the bytes of a batch, or does not, with the account's mark already at
the end of the batch. -/
def Fits (C : Crypto) (h : Host) (account device : PubKey) (budget : Nat) (now : UInt64) :
    Store → Nat → List Named → Prop
  | _, _, [] => True
  | st, spent, n :: rest =>
    match st.fetch C h account device n.channel n.since now with
    | .error _ => Fits C h account device budget now st spent rest
    | .ok (st', es) =>
      let size := spent +
        (lenOf (st.getKeys account device n.channel n.sinceEpoch now).toOption + es.encodedLen)
      if es.entries ≠ [] ∧ budget < size then
        ∃ row, (st.tables n.channel).cursor[account]? = some row ∧
          ∀ e ∈ es.entries, e.seq.toInt64 ≤ row.delivered
      else Roomy ((st.above C h n).take maxBatch) ∧
        (size < budget → Fits C h account device budget now st' size rest)

instance (cursor : Option CursorRow) (es : List Entry) :
    Decidable (∃ row, cursor = some row ∧ ∀ e ∈ es, e.seq.toInt64 ≤ row.delivered) :=
  decidable_of_iff (cursor.any fun row => es.all fun e => e.seq.toInt64 ≤ row.delivered)
    (by simp [Option.any_eq_true])

instance (es : List Entry) : Decidable (Roomy es) :=
  inferInstanceAs (Decidable (es.length ≤ 1 ∨ (es.map wireLen).sum ≤ maxBatchBytes))

instance Fits.instDecidable : (st : Store) → (spent : Nat) → (named : List Named) →
    Decidable (Fits C h account device budget now st spent named)
  | _, _, [] => inferInstanceAs (Decidable True)
  | st, spent, n :: rest =>
    match hf : st.fetch C h account device n.channel n.since now with
    | .error _ =>
      have := Fits.instDecidable st spent rest
      decidable_of_iff (Fits C h account device budget now st spent rest) (by simp [Fits, hf])
    | .ok (st', es) =>
      have := Fits.instDecidable st' (spent + (lenOf (st.getKeys account device n.channel
        n.sinceEpoch now).toOption + es.encodedLen)) rest
      decidable_of_iff (if es.entries ≠ [] ∧ budget < spent + (lenOf (st.getKeys account device
          n.channel n.sinceEpoch now).toOption + es.encodedLen) then
        ∃ row, (st.tables n.channel).cursor[account]? = some row ∧
          ∀ e ∈ es.entries, e.seq.toInt64 ≤ row.delivered
        else Roomy ((st.above C h n).take maxBatch) ∧
          (spent + (lenOf (st.getKeys account device n.channel n.sinceEpoch now).toOption +
            es.encodedLen) < budget →
            Fits C h account device budget now st' (spent + (lenOf (st.getKeys account device
              n.channel n.sinceEpoch now).toOption + es.encodedLen)) rest))
        (by simp only [Fits, hf])

theorem Entries.cut_length (hlen : es.entries.length ≤ spent) : es.cut spent = es := by
  simp [Entries.cut, List.take_of_length_le hlen]

theorem Entries.encodedLen_cut_le (j : Nat) : (es.cut j).encodedLen ≤ es.encodedLen := by
  have hsum : (es.entries.map wireLen).sum =
      ((es.entries.take j).map wireLen).sum + ((es.entries.drop j).map wireLen).sum := by
    rw [← List.sum_append, ← List.map_append, List.take_append_drop]
  simp only [Entries.encodedLen, Entries.cut]
  omega

theorem Entries.encodedLen_cut_succ {j : Nat} {e : Entry} (he : es.entries[j]? = some e) :
    (es.cut (j + 1)).encodedLen = (es.cut j).encodedLen + wireLen e := by
  obtain ⟨hlt, rfl⟩ := List.getElem?_eq_some_iff.mp he
  simp only [Entries.encodedLen, Entries.cut, List.take_add_one, he, Option.toList_some,
    List.map_append, List.sum_append, List.map_cons, List.map_nil, List.sum_singleton]
  omega

theorem Entries.keptFrom_spec (budget spent : Nat) (es : Entries) (left : Nat) : ∀ kept,
    kept ≤ es.keptFrom budget spent kept left ∧ es.keptFrom budget spent kept left ≤ kept + left ∧
    (es.keptFrom budget spent kept left < kept + left →
      budget < spent + (es.cut (es.keptFrom budget spent kept left + 1)).encodedLen) ∧
    (kept < es.keptFrom budget spent kept left →
      spent + (es.cut (es.keptFrom budget spent kept left)).encodedLen ≤ budget) := by
  induction left with
  | zero => intro kept; simp [Entries.keptFrom]
  | succ left ih =>
    intro kept
    by_cases hover : spent + (es.cut (kept + 1)).encodedLen > budget
    · have hstop : es.keptFrom budget spent kept (left + 1) = kept := by
        simp [Entries.keptFrom, hover]
      rw [hstop]
      exact ⟨Nat.le_refl _, Nat.le_add_right _ _, fun _ => hover, fun hlt => by omega⟩
    · have hgo : es.keptFrom budget spent kept (left + 1) =
          es.keptFrom budget spent (kept + 1) left := by
        simp [Entries.keptFrom, hover]
      obtain ⟨hlow, hhigh, hcut, hfits⟩ := ih (kept + 1)
      rw [hgo]
      refine ⟨by omega, by omega, fun hlt => hcut (by omega), fun _ => ?_⟩
      by_cases hmore : kept + 1 < es.keptFrom budget spent (kept + 1) left
      · exact hfits hmore
      · have heq : es.keptFrom budget spent (kept + 1) left = kept + 1 := by omega
        rw [heq]
        omega

theorem Entries.kept_le : es.kept budget spent ≤ es.entries.length := by
  have hspec := (Entries.keptFrom_spec budget spent es es.entries.length 0).2.1
  simpa [Entries.kept] using hspec

theorem Entries.over_of_cut (hcut : es.kept budget spent < es.entries.length) :
    budget < spent + (es.cut (es.kept budget spent + 1)).encodedLen := by
  have hspec := (Entries.keptFrom_spec budget spent es es.entries.length 0).2.2.1
  exact hspec (by simpa [Entries.kept] using hcut)

theorem Entries.cut_iff :
    es.kept budget spent < es.entries.length ↔
      es.entries ≠ [] ∧ budget < spent + es.encodedLen := by
  constructor
  · intro hcut
    have hover := Entries.over_of_cut hcut
    have hle := es.encodedLen_cut_le (es.kept budget spent + 1)
    refine ⟨fun hnil => ?_, by omega⟩
    simp [hnil] at hcut
  · rintro ⟨hne, hover⟩
    by_contra hwhole
    have hall : es.kept budget spent = es.entries.length :=
      Nat.le_antisymm Entries.kept_le (Nat.not_lt.mp hwhole)
    have hpos : 0 < es.entries.length := List.length_pos_iff.mpr hne
    have hfits := (Entries.keptFrom_spec budget spent es es.entries.length 0).2.2.2
    have hlast : spent + (es.cut (es.kept budget spent)).encodedLen ≤ budget :=
      hfits (by rw [← Entries.kept, hall]; exact hpos)
    rw [hall, Entries.cut_length (Nat.le_refl _)] at hlast
    omega

theorem within_initial (es : List Entry) : ∀ bytes, within bytes es <+: es := by
  induction es with
  | nil => simp [within]
  | cons e rest ih =>
    intro bytes
    unfold within
    split_ifs
    · simp
    · exact List.cons_prefix_cons.mpr ⟨rfl, ih _⟩

theorem batch_initial (es : List Entry) : batch es <+: es := by
  cases es with
  | nil => simp [batch]
  | cons e rest => exact List.cons_prefix_cons.mpr ⟨rfl, within_initial rest _⟩

theorem within_eq_self_iff (es : List Entry) : ∀ bytes, bytes ≤ maxBatchBytes ∨ es ≠ [] →
    (within bytes es = es ↔ bytes + (es.map wireLen).sum ≤ maxBatchBytes ∨ es = []) := by
  induction es with
  | nil => simp [within]
  | cons e rest ih =>
    intro bytes _
    by_cases hover : bytes + wireLen e > maxBatchBytes
    · simp [within, hover]
      omega
    · have hih := ih (bytes + wireLen e) (.inl (by omega))
      simp only [within, hover, if_false, List.cons.injEq, true_and, hih, List.map_cons,
        List.sum_cons, reduceCtorEq, or_false]
      constructor
      · rintro (hsum | rfl)
        · omega
        · simp
          omega
      · intro hsum
        exact .inl (by omega)

theorem batch_eq_self_iff (es : List Entry) : batch es = es ↔ Roomy es := by
  cases es with
  | nil => simp [batch, Roomy]
  | cons e rest =>
    cases rest with
    | nil => simp [batch, Roomy, within]
    | cons e' rest =>
      have hwithin := within_eq_self_iff (e' :: rest) (wireLen e) (.inr (by simp))
      simp only [batch, List.cons.injEq, true_and, hwithin, Roomy, List.length_cons, List.map_cons,
        List.sum_cons, reduceCtorEq, or_false]
      omega

/-! What a fetch hands over, and what it leaves. -/

theorem reading_fetch_ok {channel : Bytes32} {t t' : Reading} {caller : PubKey} {since : UInt64}
    {f : Fetched} (hf : t.fetch C h channel caller since false = .ok (t', f)) :
    t'.rows = t.rows ∧ f.entries = t.rows.entriesAfter C h none since ∧
      t'.cursor = match f.entries.getLast? with
        | some e => (t.upsert caller ⟨e.seq.toInt64, 0, true⟩ fun row =>
            { row with delivered := max row.delivered e.seq.toInt64 }).cursor
        | none => t.cursor := by
  unfold Reading.fetch at hf
  obtain ⟨c, _, hf⟩ := bind_eq_ok.mp hf
  obtain ⟨_, _, hf⟩ := bind_eq_ok.mp hf
  obtain ⟨_, _, hf⟩ := bind_eq_ok.mp hf
  obtain ⟨_, _, hf⟩ := bind_eq_ok.mp hf
  obtain ⟨_, _, hf⟩ := bind_eq_ok.mp hf
  simp only [Bool.false_eq_true, if_false, pure_eq_ok, Prod.mk.injEq] at hf
  obtain ⟨rfl, rfl⟩ := hf
  dsimp only
  split <;> simp_all [Reading.upsert]

theorem reading_fetch_congr {channel : Bytes32} {t t' : Reading} {caller : PubKey}
    {since : UInt64} (hrows : t'.rows = t.rows) :
    (t'.fetch C h channel caller since false).map Prod.snd =
      (t.fetch C h channel caller since false).map Prod.snd := by
  obtain ⟨rows, cursor⟩ := t
  obtain ⟨rows', cursor'⟩ := t'
  cases hrows
  simp only [Reading.fetch, bind, Except.bind]
  cases hc : rows.channelRow with
  | error e => rfl
  | ok c =>
    cases he : rows.notEquivocated with
    | error e => rfl
    | ok u =>
      cases hd : rows.derivable with
      | error e => rfl
      | ok u =>
        dsimp only
        cases hr : refuseIf (rows.readableBy caller = false) rows.unreadable with
        | error e | ok u => rfl

theorem Store.tables_insert (st : Store) (channel : Bytes32) (t : Reading)
    (signals : Bytes32 × PubKey → List Pending) (channel' : Bytes32) :
    Store.tables { st with channels := st.channels.insert channel t, signals } channel' =
      if channel' = channel then t else st.tables channel' := by
  simp only [Store.tables, ExtTreeMap.getElem?_insert, Std.compare_eq_iff_eq]
  by_cases heq : channel' = channel
  · simp [heq]
  · simp [heq, Ne.symm heq]

structure Looked (C : Crypto) (h : Host) (account : PubKey) (st : Store) (n : Named)
    (st' : Store) (es : Entries) : Prop where
  fetched : st.fetched C h account n = .ok es.toFetched
  rows : ∀ channel, (st'.tables channel).rows = (st.tables channel).rows
  envelope : st'.envelope = st.envelope
  entries : es.entries = batch ((st.above C h n).take maxBatch)
  others : ∀ (channel : Bytes32) (who : PubKey), ¬ (channel = n.channel ∧ who = account) →
    (st'.tables channel).cursor[who]? = (st.tables channel).cursor[who]?
  idle : es.entries = [] →
    (st'.tables n.channel).cursor[account]? = (st.tables n.channel).cursor[account]?
  marked : ∀ e, es.entries.getLast? = some e →
    (st'.tables n.channel).cursor[account]? =
      some (match (st.tables n.channel).cursor[account]? with
        | some row => { row with delivered := max row.delivered e.seq.toInt64 }
        | none => ⟨e.seq.toInt64, 0, true⟩)

theorem Store.looked
    (hf : st.fetch C h account device n.channel n.since now = .ok (st', es)) :
    Looked C h account st n st' es := by
  obtain ⟨⟨t, f⟩, ht, hst⟩ := bind_eq_ok.mp hf
  obtain ⟨hrows, hentries, hcursor⟩ := reading_fetch_ok ht
  rw [pure_eq_ok, Prod.mk.injEq] at hst
  obtain ⟨rfl, rfl⟩ := hst
  have htables := fun channel' => st.tables_insert n.channel t
    (Function.update st.signals (n.channel, account)
      (takeSignals (st.signals (n.channel, account)) device now).2) channel'
  refine ⟨?_, fun channel => ?_, rfl, ?_, fun channel who hne => ?_, fun hnil => ?_, fun e he => ?_⟩
  · rw [Store.fetched, ht]
    rfl
  · rw [htables]
    split_ifs with heq
    · rw [hrows, heq]
    · rfl
  · dsimp only
    rw [hentries, Store.above, ← List.map_take]
    rfl
  · rw [htables]
    split_ifs with heq
    · have hwho : ¬ account = who := fun hwho => hne ⟨heq, hwho.symm⟩
      subst heq
      rw [hcursor]
      cases f.entries.getLast? with
      | none => rfl
      | some e => simp [Reading.upsert, ExtTreeMap.getElem?_insert, hwho]
    · rfl
  · rw [htables, if_pos rfl, hcursor, show f.entries = [] from hnil]
    rfl
  · have hlast : f.entries.getLast? = some e := he
    rw [htables, if_pos rfl, hcursor, hlast]
    exact ExtTreeMap.getElem?_insert_self

theorem Store.fetched_of_error {e : ChannelError}
    (hf : st.fetch C h account device n.channel n.since now = .error e) :
    st.fetched C h account n = .error e := by
  unfold Store.fetched
  cases ht : (st.tables n.channel).fetch C h n.channel account n.since false with
  | error e' =>
    rw [Store.fetch, ht] at hf
    simpa [bind, Except.bind, Except.map] using hf
  | ok r =>
    rw [Store.fetch, ht] at hf
    simp [bind, Except.bind, pure, Except.pure] at hf

/-- The same rows and envelopes, whatever the marks and the signals. -/
structure Alike (st st' : Store) : Prop where
  rows : ∀ channel, (st'.tables channel).rows = (st.tables channel).rows
  envelope : st'.envelope = st.envelope

theorem Looked.alike (hl : Looked C h account st n st' es) : Alike st st' :=
  ⟨hl.rows, hl.envelope⟩

namespace Alike

theorem fetched (ha : Alike st st') : st'.fetched C h account = st.fetched C h account := by
  funext n
  exact reading_fetch_congr (ha.rows n.channel)

theorem above (ha : Alike st st') : st'.above C h = st.above C h := by
  funext n
  simp only [Store.above, ha.rows]

theorem getKeys (ha : Alike st st') : st'.getKeys = st.getKeys := by
  funext account device channel sinceEpoch now
  simp only [Store.getKeys, ha.rows, ha.envelope]

theorem answers_iff (ha : Alike st st') :
    Answers C h account device now st' n c ↔ Answers C h account device now st n c := by
  constructor
  · intro hc
    exact ⟨hc.channel, hc.silent, ha.fetched ▸ hc.absent, ha.fetched ▸ hc.cut,
      ha.getKeys ▸ hc.got, ha.above ▸ hc.whole⟩
  · intro hc
    exact ⟨hc.channel, hc.silent, ha.fetched ▸ hc.absent, ha.fetched ▸ hc.cut,
      ha.getKeys ▸ hc.got, ha.above ▸ hc.whole⟩

theorem ranOut_iff (ha : Alike st st') {i : Nat} :
    RanOut C h account budget spent st' named caught i ↔
      RanOut C h account budget spent st named caught i := by
  simp only [RanOut, ha.fetched]

end Alike

/-- The entries a channel holds come in the order of their positions. -/
theorem Store.above_sorted (st : Store) (n : Named) :
    (st.above C h n).Pairwise fun a b => a.seq.toInt64 < b.seq.toInt64 := by
  have hseq : ∀ p : Int64 × EntryRow, (Rows.served C h none p).seq.toInt64 = p.1 := by
    intro p
    simp [Rows.served, EntryRow.entry]
  have hkeys := (st.tables n.channel).rows.entry.ordered_keys_toList
  simp only [Store.above, List.pairwise_map, hseq]
  refine (hkeys.imp fun hlt => ?_).filter _
  exact Std.compare_eq_lt.mp hlt

theorem Looked.sorted (hl : Looked C h account st n st' es) :
    es.entries.Pairwise fun a b => a.seq.toInt64 < b.seq.toInt64 := by
  rw [hl.entries]
  exact (st.above_sorted n).sublist
    ((batch_initial _).sublist.trans (List.take_sublist maxBatch _))

theorem Looked.le_last (hl : Looked C h account st n st' es) {e last : Entry}
    (he : e ∈ es.entries) (hlast : es.entries.getLast? = some last) :
    e.seq.toInt64 ≤ last.seq.toInt64 := by
  obtain ⟨init, hinit⟩ := List.getLast?_eq_some_iff.mp hlast
  have hsorted := hl.sorted
  rw [hinit] at he hsorted
  rcases mem_concat.mp he with hmem | rfl
  · have hlt := (List.pairwise_append.mp hsorted).2.2 e hmem last (by simp)
    exact Int64.le_of_lt hlt
  · exact Int64.le_refl _

section
variable {got : Option Got}

theorem ok_entries (budget spent : Nat) (channel : Bytes32) (got : Option Got) (es : Entries) :
    (Caught.ok budget spent channel got es).entries =
      es.entries.take (es.kept budget (spent + lenOf got)) := rfl

theorem ok_length :
    (Caught.ok budget spent n.channel got es).entries.length =
      es.kept budget (spent + lenOf got) := by
  rw [ok_entries, List.length_take]
  exact Nat.min_eq_left Entries.kept_le

theorem ok_len :
    (Caught.ok budget spent n.channel got es).len =
      lenOf got + (es.cut (es.kept budget (spent + lenOf got))).encodedLen := rfl

theorem ok_cut_iff :
    (Caught.ok budget spent n.channel got es).entries.length < es.entries.length ↔
      es.entries ≠ [] ∧ budget < spent + (lenOf got + es.encodedLen) := by
  rw [ok_length, Entries.cut_iff, Nat.add_assoc]

theorem ok_whole (hwhole : ¬ (es.entries ≠ [] ∧ budget < spent + (lenOf got + es.encodedLen))) :
    (Caught.ok budget spent n.channel got es).entries = es.entries ∧
      (Caught.ok budget spent n.channel got es).len = lenOf got + es.encodedLen := by
  have hkept : es.entries.length ≤ es.kept budget (spent + lenOf got) := by
    rw [← ok_cut_iff (n := n), ok_length] at hwhole
    exact Nat.not_lt.mp hwhole
  rw [ok_entries, ok_len, Entries.cut_length hkept, List.take_of_length_le hkept]
  exact ⟨rfl, rfl⟩

theorem Looked.answers_iff (hl : Looked C h account st n st' es)
    (hgot : got = (st.getKeys account device n.channel n.sinceEpoch now).toOption) :
    Answers C h account device now st n (Caught.ok budget spent n.channel got es) ↔
      (es.entries ≠ [] ∧ budget < spent + (lenOf got + es.encodedLen)) ∨
        Roomy ((st.above C h n).take maxBatch) := by
  have hmore : (Caught.ok budget spent n.channel got es).more = false ↔
      es.entries.length < maxBatch ∧
        ¬ (es.entries ≠ [] ∧ budget < spent + (lenOf got + es.encodedLen)) := by
    rw [← ok_cut_iff (n := n), ok_length]
    simp [Caught.ok]
  have hlength : (batch ((st.above C h n).take maxBatch)).length ≤
      ((st.above C h n).take maxBatch).length := (batch_initial _).length_le
  constructor
  · intro hanswers
    by_contra hneither
    obtain ⟨hfull, hcrowded⟩ := not_or.mp hneither
    have hshort : es.entries.length < ((st.above C h n).take maxBatch).length := by
      rw [hl.entries]
      refine Nat.lt_of_le_of_ne hlength fun heq => hcrowded ?_
      exact (batch_eq_self_iff _).mp ((batch_initial _).eq_of_length heq)
    have hsize : es.entries.length < maxBatch := by
      have htake := List.length_take_le maxBatch (st.above C h n)
      omega
    have habove := hanswers.whole rfl (hmore.mpr ⟨hsize, hfull⟩)
    rw [(ok_whole hfull).1] at habove
    rw [habove, List.length_take] at hshort
    omega
  · intro hroom
    refine ⟨rfl, fun hne => absurd rfl hne, fun habsent => by simp [Caught.ok] at habsent,
      fun _ => ?_, fun _ => hgot, fun _ hlast => ?_⟩
    · exact ⟨es.toFetched, hl.fetched, rfl, List.take_prefix _ _⟩
    · obtain ⟨hsize, hfull⟩ := hmore.mp hlast
      have hroomy := hroom.resolve_left hfull
      rw [(ok_whole hfull).1, hl.entries, (batch_eq_self_iff _).mpr hroomy]
      rw [hl.entries, (batch_eq_self_iff _).mpr hroomy, List.length_take] at hsize
      exact List.take_of_length_le (by omega)

theorem Looked.ranOut_iff (hl : Looked C h account st n st' es) :
    RanOut C h account budget spent st (n :: named)
        (Caught.ok budget spent n.channel got es :: caught) 0 ↔
      (es.entries ≠ [] ∧ budget < spent + (lenOf got + es.encodedLen)) ∨
        budget ≤ spent + (Caught.ok budget spent n.channel got es).len := by
  have hnext : ∀ e, es.entries[(Caught.ok budget spent n.channel got es).entries.length]? = some e →
      spent + lenOf got + (es.cut (es.kept budget (spent + lenOf got) + 1)).encodedLen =
        spent + (Caught.ok budget spent n.channel got es).len + wireLen e := by
    intro e he
    rw [ok_length] at he
    rw [Entries.encodedLen_cut_succ he, ok_len]
    omega
  rw [← ok_cut_iff (n := n)]
  constructor
  · rintro ⟨n', c, hn, hc, _, hspent | ⟨f, e, hf, he, _⟩⟩
    · obtain rfl : _ = c := by simpa using hc
      exact .inr (by simpa using hspent)
    · obtain rfl : _ = c := by simpa using hc
      obtain rfl : n = n' := by simpa using hn
      rw [hl.fetched] at hf
      cases hf
      exact .inl (List.getElem?_eq_some_iff.mp he).1
  · rintro (hcut | hspent)
    · refine ⟨n, _, rfl, rfl, rfl, .inr ⟨es.toFetched, _, hl.fetched,
        List.getElem?_eq_getElem hcut, ?_⟩⟩
      have hover : budget < spent + lenOf got +
          (es.cut (es.kept budget (spent + lenOf got) + 1)).encodedLen :=
        Entries.over_of_cut (by rwa [← ok_length (n := n)])
      rw [hnext _ (List.getElem?_eq_getElem hcut)] at hover
      simpa using hover
    · exact ⟨n, _, rfl, rfl, rfl, .inl (by simpa using hspent)⟩

end

theorem Looked.delivered_refl : Delivered account st st [] :=
  fun _ _ row hrow => .inl ⟨row, hrow, Int64.le_refl _⟩

theorem Delivered.trans {mid : Store} (hfirst : Delivered account st mid [c])
    (hrest : Delivered account mid st' caught) : Delivered account st st' (c :: caught) := by
  intro channel who row hrow
  rcases hrest channel who row hrow with ⟨mark, hmark, hle⟩ | ⟨hwho, c', hc', hrest'⟩
  · rcases hfirst channel who mark hmark with ⟨was, hwas, hle'⟩ | ⟨hwho, c', hc', hch, e, he, hle'⟩
    · exact .inl ⟨was, hwas, Int64.le_trans hle hle'⟩
    · obtain rfl := List.mem_singleton.mp hc'
      exact .inr ⟨hwho, c', by simp, hch, e, he, Int64.le_trans hle hle'⟩
  · exact .inr ⟨hwho, c', List.mem_cons_of_mem _ hc', hrest'⟩

theorem Delivered.of_idle {idle : List Caught} (hd : Delivered account st st' caught)
    (hidle : ∀ c ∈ caught, c ∈ idle ∨ c.entries = []) : Delivered account st st' idle := by
  intro channel who row hrow
  rcases hd channel who row hrow with hwas | ⟨hwho, c, hc, hch, e, he, hle⟩
  · exact .inl hwas
  · rcases hidle c hc with hmem | hnil
    · exact .inr ⟨hwho, c, hmem, hch, e, he, hle⟩
    · simp [hnil] at he

theorem Looked.raised (hl : Looked C h account st n st' es) :
    (∀ e ∈ es.entries, ∃ row, (st'.tables n.channel).cursor[account]? = some row ∧
      e.seq.toInt64 ≤ row.delivered) ∧
    ∀ (channel : Bytes32) (who : PubKey) (was : CursorRow),
      (st.tables channel).cursor[who]? = some was →
        ∃ row, (st'.tables channel).cursor[who]? = some row ∧ was.delivered ≤ row.delivered := by
  have hmax : ∀ a b : Int64, a ≤ max a b ∧ b ≤ max a b := by
    intro a b
    rw [max_int64]
    split_ifs with hle
    · exact ⟨hle, Int64.le_refl _⟩
    · exact ⟨Int64.le_refl _, Int64.le_of_lt (Int64.not_le.mp hle)⟩
  constructor
  · intro e he
    obtain ⟨last, hlast⟩ : ∃ last, es.entries.getLast? = some last := by
      cases hlast : es.entries.getLast? with
      | none => simp [List.getLast?_eq_none_iff.mp hlast] at he
      | some last => exact ⟨last, rfl⟩
    refine ⟨_, hl.marked last hlast, ?_⟩
    have hle := hl.le_last he hlast
    cases (st.tables n.channel).cursor[account]? with
    | none => exact hle
    | some row => exact Int64.le_trans hle (hmax _ _).2
  · intro channel who was hwas
    by_cases hhere : channel = n.channel ∧ who = account
    · obtain ⟨rfl, rfl⟩ := hhere
      cases hlast : es.entries.getLast? with
      | none =>
        refine ⟨was, ?_, Int64.le_refl _⟩
        rw [hl.idle (List.getLast?_eq_none_iff.mp hlast), hwas]
      | some last =>
        refine ⟨_, hl.marked last hlast, ?_⟩
        simp only [hwas]
        exact (hmax _ _).1
    · exact ⟨was, (hl.others channel who hhere).trans hwas, Int64.le_refl _⟩

/-- What a look records is within what it hands over where that is the batch's last entry, or
where the mark was there. -/
theorem Looked.delivered (hl : Looked C h account st n st' es) (hchannel : c.channel = n.channel)
    (hkept : ∀ last, es.entries.getLast? = some last → last ∈ c.entries ∨
      ∃ row, (st.tables n.channel).cursor[account]? = some row ∧ last.seq.toInt64 ≤ row.delivered) :
    Delivered account st st' [c] := by
  intro channel who row hrow
  by_cases hhere : channel = n.channel ∧ who = account
  · obtain ⟨rfl, rfl⟩ := hhere
    cases hlast : es.entries.getLast? with
    | none =>
      rw [hl.idle (List.getLast?_eq_none_iff.mp hlast)] at hrow
      exact .inl ⟨row, hrow, Int64.le_refl _⟩
    | some last =>
      rw [hl.marked last hlast] at hrow
      cases hwas : (st.tables n.channel).cursor[who]? with
      | none =>
        obtain rfl : _ = row := by simpa [hwas] using hrow
        have hmem : last ∈ c.entries := by
          refine (hkept last hlast).resolve_right ?_
          simp [hwas]
        exact .inr ⟨rfl, c, by simp, hchannel, last, hmem, Int64.le_refl _⟩
      | some was =>
        obtain rfl : _ = row := by simpa [hwas] using hrow
        dsimp only
        rw [max_int64]
        split_ifs with hle
        · rcases hkept last hlast with hmem | ⟨row, hrow, hdone⟩
          · exact .inr ⟨rfl, c, by simp, hchannel, last, hmem, Int64.le_refl _⟩
          · obtain rfl : was = row := by simpa [hwas] using hrow
            exact .inl ⟨was, rfl, hdone⟩
        · exact .inl ⟨was, rfl, Int64.le_refl _⟩
  · exact .inl ⟨row, (hl.others channel who hhere).symm.trans hrow, Int64.le_refl _⟩

/-- Where a catch-up agrees, so does what comes after an answer that hands a whole batch over. -/
theorem Looked.delivered_rest {mid : Store} (hl : Looked C h account st n mid es)
    (hwhole : c.entries = es.entries) (hchannel : c.channel = n.channel)
    (hd : Delivered account st st' (c :: caught)) :
    Delivered account mid st' caught := by
  intro channel who row hrow
  rcases hd channel who row hrow with ⟨was, hwas, hle⟩ | ⟨hwho, c', hc', hch, e, he, hle⟩
  · obtain ⟨mark, hmark, hraised⟩ := hl.raised.2 channel who was hwas
    exact .inl ⟨mark, hmark, Int64.le_trans hle hraised⟩
  · rcases List.mem_cons.mp hc' with rfl | hrest
    · obtain ⟨mark, hmark, hraised⟩ := hl.raised.1 e (hwhole ▸ he)
      rw [← hch, hchannel, hwho]
      exact .inl ⟨mark, hmark, Int64.le_trans hle hraised⟩
    · exact .inr ⟨hwho, c', hrest, hch, e, he, hle⟩

/-- An answer that leaves some of its batch out, and records no more than it hands over, has
the mark already there. -/
theorem Looked.marked_of_cut {kept : Nat} (hl : Looked C h account st n st' es)
    (hentries : c.entries = es.entries.take kept) (hcut : kept < es.entries.length)
    (hidle : ∀ c' ∈ caught, c'.entries = []) (hd : Delivered account st st' (c :: caught)) :
    ∃ row, (st.tables n.channel).cursor[account]? = some row ∧
      ∀ e ∈ es.entries, e.seq.toInt64 ≤ row.delivered := by
  obtain ⟨last, hlast⟩ : ∃ last, es.entries.getLast? = some last := by
    cases hlast : es.entries.getLast? with
    | none => simp [List.getLast?_eq_none_iff.mp hlast] at hcut
    | some last => exact ⟨last, rfl⟩
  obtain ⟨row, hrow, hle⟩ := hl.raised.1 last (List.mem_of_getLast? hlast)
  rcases hd n.channel account row hrow with ⟨was, hwas, hback⟩ | ⟨_, c', hc', _, e, he, hback⟩
  · refine ⟨was, hwas, fun e he => ?_⟩
    exact Int64.le_trans (hl.le_last he hlast) (Int64.le_trans hle hback)
  · exfalso
    rcases List.mem_cons.mp hc' with rfl | hrest
    · have hearlier : e.seq.toInt64 < last.seq.toInt64 := by
        have hsplit := List.take_append_drop kept es.entries
        have hsorted := hl.sorted
        rw [← hsplit] at hsorted hlast
        have hdrop : es.entries.drop kept ≠ [] := by
          simpa using hcut
        rw [List.getLast?_append_of_ne_nil _ hdrop] at hlast
        rw [hentries] at he
        exact (List.pairwise_append.mp hsorted).2.2 e he last (List.mem_of_getLast? hlast)
      have hback' := Int64.le_trans hle hback
      exact Int64.not_le.mpr hearlier hback'
    · rw [hidle c' hrest] at he
      cases he

theorem answers_exhausted (st : Store) (spent : Nat) (named : List Named) :
    answers C h account device budget now st spent true named =
      (st, named.map fun n => .deferred n.channel) := by
  induction named with
  | nil => rfl
  | cons n rest ih => simp [answers, ih]

theorem answers_absent {e : ChannelError}
    (hf : st.fetch C h account device n.channel n.since now = .error e) :
    answers C h account device budget now st spent false (n :: named) =
      ((answers C h account device budget now st spent false named).1,
        .absent n.channel :: (answers C h account device budget now st spent false named).2) := by
  simp [answers, hf]

theorem answers_over (hf : st.fetch C h account device n.channel n.since now = .ok (st', es))
    (hc : Caught.ok budget spent n.channel
      (st'.getKeys account device n.channel n.sinceEpoch now).toOption es = c)
    (hover : c.entries.length < es.entries.length ∨ budget ≤ spent + c.len) :
    answers C h account device budget now st spent false (n :: named) =
      (st', c :: named.map fun n => .deferred n.channel) := by
  have hout : (decide (c.entries.length < es.entries.length) ||
      decide (spent + c.len ≥ budget)) = true := by
    simpa using hover
  simp only [answers, hf, hc, hout, answers_exhausted]

theorem answers_within (hf : st.fetch C h account device n.channel n.since now = .ok (st', es))
    (hc : Caught.ok budget spent n.channel
      (st'.getKeys account device n.channel n.sinceEpoch now).toOption es = c)
    (hover : ¬ (c.entries.length < es.entries.length ∨ budget ≤ spent + c.len)) :
    answers C h account device budget now st spent false (n :: named) =
      ((answers C h account device budget now st' (spent + c.len) false named).1,
        c :: (answers C h account device budget now st' (spent + c.len) false named).2) := by
  have hout : (decide (c.entries.length < es.entries.length) ||
      decide (spent + c.len ≥ budget)) = false := by
    simpa using hover
  simp only [answers, hf, hc, hout]

theorem ranOut_succ {i : Nat} :
    RanOut C h account budget spent st (n :: named) (c :: caught) (i + 1) ↔
      RanOut C h account budget (spent + c.len) st named caught i := by
  simp only [RanOut, List.getElem?_cons_succ, List.take_succ_cons, List.map_cons, List.sum_cons,
    Nat.add_assoc]

theorem ranOut_of_status (hstatus : c.status ≠ .ok) :
    ¬ RanOut C h account budget spent st (n :: named) (c :: caught) 0 := by
  rintro ⟨_, c', _, hc', hok, _⟩
  obtain rfl : c = c' := by simpa using hc'
  exact hstatus hok

theorem answers_deferred (named : List Named) : ∀ (st : Store) (spent : Nat) (j : Nat) (c : Caught),
    (answers C h account device budget now st spent false named).2[j]? = some c →
      (c.status = .deferred ↔ ∃ i < j, RanOut C h account budget spent st named
        (answers C h account device budget now st spent false named).2 i) := by
  induction named with
  | nil => intro st spent j c hc; simp [answers] at hc
  | cons n rest ih =>
    intro st spent j c hc
    cases hf : st.fetch C h account device n.channel n.since now with
    | error e =>
      rw [answers_absent hf] at hc ⊢
      cases j with
      | zero =>
        obtain rfl : _ = c := by simpa using hc
        simp [Caught.absent]
      | succ j =>
        have hlen : (Caught.absent n.channel).len = 0 := rfl
        rw [ih st spent j c (by simpa using hc), Nat.exists_lt_succ_left]
        simp only [ranOut_succ, hlen, Nat.add_zero, or_iff_right
          (ranOut_of_status (c := Caught.absent n.channel) (by simp [Caught.absent]))]
    | ok r =>
      obtain ⟨st', es⟩ := r
      have hl := Store.looked hf
      obtain ⟨c', hc'⟩ : ∃ c', Caught.ok budget spent n.channel
          (st'.getKeys account device n.channel n.sinceEpoch now).toOption es = c' := ⟨_, rfl⟩
      have hran : ∀ caught, RanOut C h account budget spent st (n :: rest) (c' :: caught) 0 ↔
          c'.entries.length < es.entries.length ∨ budget ≤ spent + c'.len := by
        intro caught
        rw [← hc', hl.ranOut_iff, ok_cut_iff]
      have hstatus : c'.status = .ok := hc' ▸ rfl
      by_cases hover : c'.entries.length < es.entries.length ∨ budget ≤ spent + c'.len
      · rw [answers_over hf hc' hover] at hc ⊢
        cases j with
        | zero =>
          obtain rfl : c' = c := by simpa using hc
          simp [hstatus]
        | succ j =>
          obtain ⟨n', _, rfl⟩ := by simpa using hc
          rw [Nat.exists_lt_succ_left, hran]
          simp [Caught.deferred, hover]
      · rw [answers_within hf hc' hover] at hc ⊢
        cases j with
        | zero =>
          obtain rfl : c' = c := by simpa using hc
          simp [hstatus]
        | succ j =>
          rw [ih _ _ j c (by simpa using hc), Nat.exists_lt_succ_left, hran, or_iff_right hover]
          simp only [ranOut_succ, hl.alike.ranOut_iff]

/-- What an answer that is not absent comes down to. -/
structure Called (C : Crypto) (h : Host) (account device : PubKey) (budget : Nat) (now : UInt64)
    (st : Store) (spent : Nat) (n : Named) (es : Entries) (st' : Store) (c : Caught) : Prop where
  status : c.status = .ok
  channel : c.channel = n.channel
  kept : c.entries = es.entries.take c.entries.length
  answers : Answers C h account device now st n c ↔
    c.entries.length < es.entries.length ∨ Roomy ((st.above C h n).take maxBatch)
  ran : ∀ rest caught, RanOut C h account budget spent st (n :: rest) (c :: caught) 0 ↔
    c.entries.length < es.entries.length ∨ budget ≤ spent + c.len
  fits : ∀ rest, Fits C h account device budget now st spent (n :: rest) ↔
    if c.entries.length < es.entries.length then
      ∃ row, (st.tables n.channel).cursor[account]? = some row ∧
        ∀ e ∈ es.entries, e.seq.toInt64 ≤ row.delivered
    else Roomy ((st.above C h n).take maxBatch) ∧
      (spent + c.len < budget → Fits C h account device budget now st' (spent + c.len) rest)

theorem called (hf : st.fetch C h account device n.channel n.since now = .ok (st', es))
    (hc : Caught.ok budget spent n.channel
      (st'.getKeys account device n.channel n.sinceEpoch now).toOption es = c) :
    Called C h account device budget now st spent n es st' c := by
  have hl := Store.looked hf
  have hkeys : st'.getKeys account device n.channel n.sinceEpoch now =
      st.getKeys account device n.channel n.sinceEpoch now := by
    rw [hl.alike.getKeys]
  subst hc
  refine ⟨rfl, rfl, ?_, ?_, fun rest caught => ?_, fun rest => ?_⟩
  · rw [ok_length, ok_entries]
  · rw [hl.answers_iff (congrArg Except.toOption hkeys), ok_cut_iff]
  · rw [hl.ranOut_iff, ok_cut_iff]
  · simp only [Fits, hf, hkeys, ok_cut_iff]
    split_ifs with hcut
    · rfl
    · rw [(ok_whole hcut).2]

theorem agrees_of_fits (named : List Named) : ∀ (st : Store) (spent : Nat),
    Fits C h account device budget now st spent named →
      List.Forall₂ (Answers C h account device now st) named
        (answers C h account device budget now st spent false named).2 ∧
      Delivered account st (answers C h account device budget now st spent false named).1
        (answers C h account device budget now st spent false named).2 := by
  have hlater : ∀ (st : Store) (named : List Named), List.Forall₂
      (Answers C h account device now st) named (named.map fun n => .deferred n.channel) := by
    intro st named
    refine List.forall₂_map_right_iff.mpr (List.forall₂_same.mpr fun n _ => ?_)
    constructor <;> simp [Caught.deferred]
  induction named with
  | nil => exact fun st spent _ => ⟨.nil, Looked.delivered_refl⟩
  | cons n rest ih =>
    intro st spent hfits
    cases hf : st.fetch C h account device n.channel n.since now with
    | error e =>
      rw [Fits, hf] at hfits
      obtain ⟨hanswers, hdelivered⟩ := ih st spent hfits
      rw [answers_absent hf]
      have habsent : Answers C h account device now st n (.absent n.channel) := by
        refine ⟨rfl, fun _ => ⟨rfl, rfl⟩, fun _ => ⟨e, Store.fetched_of_error hf⟩, ?_, ?_, ?_⟩ <;>
          simp [Caught.absent]
      refine ⟨.cons habsent hanswers, hdelivered.of_idle fun c hc => ?_⟩
      exact .inl (List.mem_cons_of_mem _ hc)
    | ok r =>
      obtain ⟨st', es⟩ := r
      have hl := Store.looked hf
      obtain ⟨c, hc⟩ : ∃ c, Caught.ok budget spent n.channel
          (st'.getKeys account device n.channel n.sinceEpoch now).toOption es = c := ⟨_, rfl⟩
      have hcall := called hf hc
      rw [hcall.fits] at hfits
      by_cases hcut : c.entries.length < es.entries.length
      · obtain ⟨row, hrow, hmark⟩ := by simpa only [hcut, if_true] using hfits
        have hfirst : Delivered account st st' [c] := by
          refine hl.delivered hcall.channel fun last hlast => .inr ⟨row, hrow, ?_⟩
          exact hmark last (List.mem_of_getLast? hlast)
        rw [answers_over hf hc (.inl hcut)]
        refine ⟨.cons (hcall.answers.mpr (.inl hcut)) (hlater st rest), ?_⟩
        refine hfirst.of_idle fun c' hc' => .inl ?_
        rw [List.mem_singleton.mp hc']
        exact List.mem_cons_self
      · obtain ⟨hroomy, hrest⟩ := by simpa only [hcut, if_false] using hfits
        have hanswer := hcall.answers.mpr (.inr hroomy)
        have hfirst : Delivered account st st' [c] := by
          refine hl.delivered hcall.channel fun last hlast => .inl ?_
          rw [hcall.kept, List.take_of_length_le (Nat.not_lt.mp hcut)]
          exact List.mem_of_getLast? hlast
        by_cases hspent : budget ≤ spent + c.len
        · rw [answers_over hf hc (.inr hspent)]
          refine ⟨.cons hanswer (hlater st rest), ?_⟩
          refine hfirst.of_idle fun c' hc' => .inl ?_
          rw [List.mem_singleton.mp hc']
          exact List.mem_cons_self
        · obtain ⟨hanswers, hdelivered⟩ := ih st' (spent + c.len) (hrest (Nat.not_le.mp hspent))
          rw [answers_within hf hc (not_or.mpr ⟨hcut, hspent⟩)]
          refine ⟨.cons hanswer (hanswers.imp fun n c hc => ?_), hfirst.trans hdelivered⟩
          exact hl.alike.answers_iff.mp hc

theorem fits_of_agrees (named : List Named) : ∀ (st : Store) (spent : Nat),
    List.Forall₂ (Answers C h account device now st) named
      (answers C h account device budget now st spent false named).2 →
    Delivered account st (answers C h account device budget now st spent false named).1
      (answers C h account device budget now st spent false named).2 →
    Fits C h account device budget now st spent named := by
  induction named with
  | nil => exact fun st spent _ _ => trivial
  | cons n rest ih =>
    intro st spent hanswers hdelivered
    cases hf : st.fetch C h account device n.channel n.since now with
    | error e =>
      rw [answers_absent hf] at hanswers hdelivered
      rw [Fits, hf]
      refine ih st spent (List.forall₂_cons.mp hanswers).2 (hdelivered.of_idle fun c hc => ?_)
      rcases List.mem_cons.mp hc with rfl | hmem
      · exact .inr rfl
      · exact .inl hmem
    | ok r =>
      obtain ⟨st', es⟩ := r
      have hl := Store.looked hf
      obtain ⟨c, hc⟩ : ∃ c, Caught.ok budget spent n.channel
          (st'.getKeys account device n.channel n.sinceEpoch now).toOption es = c := ⟨_, rfl⟩
      have hcall := called hf hc
      rw [hcall.fits]
      by_cases hcut : c.entries.length < es.entries.length
      · rw [answers_over hf hc (.inl hcut)] at hdelivered
        rw [if_pos hcut]
        refine hl.marked_of_cut hcall.kept hcut (fun c' hc' => ?_) hdelivered
        obtain ⟨n', _, rfl⟩ := List.mem_map.mp hc'
        rfl
      · rw [if_neg hcut]
        have hwhole : c.entries = es.entries := by
          rw [hcall.kept, List.take_of_length_le (Nat.not_lt.mp hcut)]
        by_cases hspent : budget ≤ spent + c.len
        · rw [answers_over hf hc (.inr hspent)] at hanswers
          have hfirst := (List.forall₂_cons.mp hanswers).1
          refine ⟨(hcall.answers.mp hfirst).resolve_left hcut, fun hlt => ?_⟩
          omega
        · rw [answers_within hf hc (not_or.mpr ⟨hcut, hspent⟩)] at hanswers hdelivered
          obtain ⟨hfirst, hrest⟩ := List.forall₂_cons.mp hanswers
          refine ⟨(hcall.answers.mp hfirst).resolve_left hcut, fun _ => ?_⟩
          refine ih st' _ (hrest.imp fun n c hc => hl.alike.answers_iff.mpr hc) ?_
          exact hl.delivered_rest hwhole hcall.channel hdelivered

theorem agrees_iff (st : Store) (named : List Named) :
    Agrees C h account device budget now 0 st named
        (answers C h account device budget now st 0 false named).1
        (answers C h account device budget now st 0 false named).2 ↔
      Fits C h account device budget now st 0 named := by
  constructor
  · exact fun hagrees => fits_of_agrees named st 0 hagrees.answers hagrees.delivered
  · intro hfits
    obtain ⟨hanswers, hdelivered⟩ := agrees_of_fits named st 0 hfits
    exact ⟨hanswers, answers_deferred named st 0, hdelivered⟩

end Sqex.Exchange.Catchup
