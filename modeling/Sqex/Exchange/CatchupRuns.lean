import Sqex.Exchange.CatchupAgrees

/-! A device that comes back for the rest: what it has collected once a channel says there is no
more, beside what a fetch loop gives. -/
namespace Sqex.Exchange.Catchup
open Std Runs
variable {C : Crypto} {h : Host} {account me : PubKey} {oneTime : PubKey → UInt16}

def fetchLoop (C : Crypto) (h : Host) (channel : Bytes32) (caller : PubKey) :
    Nat → Reading → UInt64 → List Entry
  | 0, _, _ => []
  | fuel + 1, t, since =>
    match t.fetch C h channel caller since false with
    | .error _ => []
    | .ok (t', f) =>
      match f.entries.getLast? with
      | none => []
      | some e => f.entries ++ fetchLoop C h channel caller fuel t' e.seq

/-- Where a device got to in each channel, and the entries it holds. -/
structure Device where
  position : Bytes32 → UInt64
  collected : Bytes32 → List Entry

def Device.absorb (d : Device) (c : Caught) : Device :=
  match c.entries.getLast? with
  | none => d
  | some e =>
    ⟨Function.update d.position c.channel e.seq,
      Function.update d.collected c.channel (d.collected c.channel ++ c.entries)⟩

structure Away where
  store : Store
  used : Bytes32 → List Int64
  device : Device

/-- The device catches up, naming channels and its epoch in each, or anything else happens to
the exchange. -/
inductive Move where
  | catchUp (budget : UInt32) (channels : List (Bytes32 × UInt32)) (now : UInt64)
  | change (store : Store)

/-- Tables in which an entry is as it was or has lost its body, and a new one comes after every
position that was used. -/
def after (used : List Int64) (old new : Rows) : Rows :=
  { new with entry := new.entry.filter fun seq row =>
      match old.entry[seq]? with
      | some was => decide (row = was ∨ row = { was with body := [] })
      | none => used.all fun u => decide (u < seq) }

namespace Away

def start (store : Store) (since : Bytes32 → UInt64) : Away where
  store := store
  used channel := (store.tables channel).rows.entry.keys
  device := ⟨since, fun _ => []⟩

def request (s : Away) (budget : UInt32) (channels : List (Bytes32 × UInt32)) : Request :=
  ⟨budget, channels.map fun p => ⟨p.1, s.device.position p.1, p.2⟩⟩

/-- The exchange's new tables, as far as they may follow the old. -/
def next (s : Away) (store : Store) : Store :=
  { store with channels := store.channels.map fun channel t =>
      { t with rows := after (s.used channel) (s.store.tables channel).rows t.rows } }

def step (C : Crypto) (h : Host) (account me : PubKey) (oneTime : PubKey → UInt16) (s : Away) :
    Move → Away
  | .catchUp budget channels now =>
    let r := answer C h s.store oneTime account me (s.request budget channels) now
    { s with store := r.1, device := r.2.caught.foldl Device.absorb s.device }
  | .change store =>
    { s with
      store := s.next store
      used := fun channel => s.used channel ++ ((s.next store).tables channel).rows.entry.keys }

def Fits (C : Crypto) (h : Host) (account me : PubKey) (s : Away) : Move → Prop
  | .catchUp budget channels now =>
    Catchup.Fits C h account me (min budget.toNat maxCatchupBytes) now s.store 0
      (s.request budget channels).named
  | .change _ => True

end Away

instance : (s : Away) → (m : Move) → Decidable (s.Fits C h account me m)
  | s, .catchUp budget channels now => inferInstanceAs (Decidable (Catchup.Fits C h account me
      (min budget.toNat maxCatchupBytes) now s.store 0 (s.request budget channels).named))
  | _, .change _ => inferInstanceAs (Decidable True)

def Remains (e handed : Entry) : Prop := e = handed ∨ e = { handed with body := [] }

/-- The device holds every entry of a channel above a position and up to another. -/
def Holds (C : Crypto) (h : Host) (r : Rows) (collected : List Entry) (since : UInt64)
    (bound : Int64) : Prop :=
  ∀ (seq : Int64) (row : EntryRow), r.entry[seq]? = some row → since.toInt64 < seq →
    seq ≤ bound → ∃ e ∈ collected, Remains (Rows.served C h none (seq, row)) e

structure Gathered (C : Crypto) (h : Host) (since : Bytes32 → UInt64) (s : Away) : Prop where
  used : ∀ (channel : Bytes32) (seq : Int64), seq ∈ (s.store.tables channel).rows.entry →
    seq ∈ s.used channel
  position : ∀ channel, s.device.position channel = since channel ∨
    (s.device.position channel).toInt64 ∈ s.used channel
  holds : ∀ channel, Holds C h (s.store.tables channel).rows (s.device.collected channel)
    (since channel) (s.device.position channel).toInt64

theorem mem_fetchLoop {channel : Bytes32} {caller : PubKey} {e : Entry} (fuel : Nat) :
    ∀ (t : Reading) (since : UInt64), e ∈ fetchLoop C h channel caller fuel t since →
      ∃ (seq : Int64) (row : EntryRow), t.rows.entry[seq]? = some row ∧ since.toInt64 < seq ∧
        e = Rows.served C h none (seq, row) := by
  have hentry : ∀ (t : Reading) (since : UInt64) (e : Entry),
      e ∈ t.rows.entriesAfter C h none since → ∃ (seq : Int64) (row : EntryRow),
        t.rows.entry[seq]? = some row ∧ since.toInt64 < seq ∧
          e = Rows.served C h none (seq, row) := by
    intro t since e he
    obtain ⟨⟨seq, row⟩, hp, rfl⟩ := List.mem_map.mp ((batch_initial _).subset he)
    obtain ⟨hmem, hlt⟩ := List.mem_filter.mp (List.mem_of_mem_take hp)
    exact ⟨seq, row, ExtTreeMap.mem_toList_iff_getElem?_eq_some.mp hmem,
      of_decide_eq_true hlt, rfl⟩
  induction fuel with
  | zero => intro t since he; cases he
  | succ fuel ih =>
    intro t since he
    unfold fetchLoop at he
    cases hf : t.fetch C h channel caller since false with
    | error e => simp [hf] at he
    | ok r =>
      obtain ⟨t', f⟩ := r
      obtain ⟨hrows, hentries, -⟩ := reading_fetch_ok hf
      cases hlast : f.entries.getLast? with
      | none => simp [hf, hlast] at he
      | some last =>
        simp only [hf, hlast, List.mem_append] at he
        rcases he with he | he
        · exact hentry t since e (hentries ▸ he)
        · obtain ⟨seq, row, hrow, hlt, rfl⟩ := ih t' last.seq he
          have hmem := List.mem_of_getLast? hlast
          rw [hentries] at hmem
          obtain ⟨seq', row', -, hlt', rfl⟩ := hentry t since last hmem
          have hpos : (Rows.served C h none (seq', row')).seq.toInt64 = seq' := by
            simp [Rows.served, EntryRow.entry]
          rw [hpos] at hlt
          exact ⟨seq, row, hrows ▸ hrow, Int64.lt_trans hlt' hlt, rfl⟩

namespace Holds
variable {r : Rows} {collected collected' : List Entry} {since : UInt64} {bound : Int64}

theorem mono (hh : Holds C h r collected since bound) (hsub : ∀ e ∈ collected, e ∈ collected') :
    Holds C h r collected' since bound := by
  intro seq row hrow hlt hle
  obtain ⟨e, he, hremains⟩ := hh seq row hrow hlt hle
  exact ⟨e, hsub e he, hremains⟩

theorem start (C : Crypto) (h : Host) (r : Rows) (since : UInt64) :
    Holds C h r collected since since.toInt64 := by
  intro seq row hrow hlt hle
  exact absurd hle (Int64.not_le.mpr hlt)

end Holds

/-- What comes before an entry of a sorted list's first part is in that part. -/
theorem mem_of_initial {xs ys : List Entry}
    (hsorted : xs.Pairwise fun a b => a.seq.toInt64 < b.seq.toInt64) (hinit : ys <+: xs)
    {x y : Entry} (hx : x ∈ xs) (hy : y ∈ ys) (hle : x.seq.toInt64 ≤ y.seq.toInt64) : x ∈ ys := by
  obtain ⟨zs, rfl⟩ := hinit
  rcases List.mem_append.mp hx with hmem | hmem
  · exact hmem
  · have hlt := (List.pairwise_append.mp hsorted).2.2 y hy x hmem
    exact absurd hle (Int64.not_le.mpr hlt)

section
variable {now : UInt64} {st : Store} {n : Named} {c : Caught}

theorem Answers.above_initial (hc : Answers C h account me now st n c) :
    c.entries <+: st.above C h n := by
  by_cases hok : c.status = .ok
  · obtain ⟨f, hf, -, hinit⟩ := hc.cut hok
    obtain ⟨⟨t', f'⟩, hfetch, rfl⟩ := map_eq_ok.mp hf
    refine hinit.trans ?_
    rw [(reading_fetch_ok hfetch).2.1]
    refine (batch_initial _).trans ?_
    rw [List.map_take]
    exact List.take_prefix _ _
  · simp [Caught.entries, (hc.silent hok).1]

theorem mem_above {seq : Int64} {row : EntryRow}
    (hrow : (st.tables n.channel).rows.entry[seq]? = some row) (hlt : n.since.toInt64 < seq) :
    Rows.served C h none (seq, row) ∈ st.above C h n := by
  refine List.mem_map.mpr ⟨(seq, row), List.mem_filter.mpr ⟨?_, by simpa using hlt⟩, rfl⟩
  exact ExtTreeMap.mem_toList_iff_getElem?_eq_some.mpr hrow

theorem seq_of_mem_above {e : Entry} (he : e ∈ st.above C h n) :
    e.seq.toInt64 ∈ (st.tables n.channel).rows.entry := by
  obtain ⟨⟨seq, row⟩, hp, rfl⟩ := List.mem_map.mp he
  have hrow := ExtTreeMap.mem_toList_iff_getElem?_eq_some.mp (List.mem_filter.mp hp).1
  have hseq : (Rows.served C h none (seq, row)).seq.toInt64 = seq := by
    simp [Rows.served, EntryRow.entry]
  rw [hseq, ExtTreeMap.mem_iff_isSome_getElem?, hrow]
  rfl

theorem Answers.holds (hc : Answers C h account me now st n c) {collected : List Entry}
    {since : UInt64} (hh : Holds C h (st.tables n.channel).rows collected since n.since.toInt64) :
    (∀ e ∈ c.entries, Holds C h (st.tables n.channel).rows (collected ++ c.entries) since
      e.seq.toInt64) ∧
    (c.status = .ok → c.more = false → ∀ bound,
      Holds C h (st.tables n.channel).rows (collected ++ c.entries) since bound) := by
  have hnew : ∀ (seq : Int64) (row : EntryRow),
      (st.tables n.channel).rows.entry[seq]? = some row → since.toInt64 < seq →
      (n.since.toInt64 < seq → Rows.served C h none (seq, row) ∈ c.entries) →
        ∃ e ∈ collected ++ c.entries, Remains (Rows.served C h none (seq, row)) e := by
    intro seq row hrow hlt hin
    by_cases hbelow : n.since.toInt64 < seq
    · exact ⟨_, List.mem_append_right _ (hin hbelow), .inl rfl⟩
    · obtain ⟨e, he, hremains⟩ := hh seq row hrow hlt (Int64.not_lt.mp hbelow)
      exact ⟨e, List.mem_append_left _ he, hremains⟩
  constructor
  · intro e he seq row hrow hlt hle
    refine hnew seq row hrow hlt fun hbelow => ?_
    refine mem_of_initial (st.above_sorted n) hc.above_initial (mem_above hrow hbelow) he ?_
    simpa [Rows.served, EntryRow.entry] using hle
  · intro hok hmore bound seq row hrow hlt _
    refine hnew seq row hrow hlt fun hbelow => ?_
    rw [hc.whole hok hmore]
    exact mem_above hrow hbelow

end

theorem absorb_all {st : Store} {now : UInt64} {since first : Bytes32 → UInt64}
    {used : Bytes32 → List Int64}
    (hused : ∀ (channel : Bytes32) (seq : Int64), seq ∈ (st.tables channel).rows.entry →
      seq ∈ used channel) {named : List Named} {caught : List Caught}
    (hanswers : List.Forall₂ (Answers C h account me now st) named caught) :
    (∀ n ∈ named, n.since = first n.channel) → ∀ d : Device,
    (∀ channel, d.position channel = since channel ∨ (d.position channel).toInt64 ∈ used channel) →
    (∀ channel, Holds C h (st.tables channel).rows (d.collected channel) (since channel)
      (first channel).toInt64) →
    (∀ channel, Holds C h (st.tables channel).rows (d.collected channel) (since channel)
      (d.position channel).toInt64) →
    (∀ channel, (caught.foldl Device.absorb d).position channel = since channel ∨
      ((caught.foldl Device.absorb d).position channel).toInt64 ∈ used channel) ∧
    (∀ channel, Holds C h (st.tables channel).rows ((caught.foldl Device.absorb d).collected channel)
      (since channel) ((caught.foldl Device.absorb d).position channel).toInt64) ∧
    (∀ channel, ∀ e ∈ d.collected channel,
      e ∈ (caught.foldl Device.absorb d).collected channel) ∧
    ∀ c ∈ caught, c.status = .ok → c.more = false → ∀ bound,
      Holds C h (st.tables c.channel).rows
        ((caught.foldl Device.absorb d).collected c.channel) (since c.channel) bound := by
  induction hanswers with
  | nil => exact fun _ d hposition _ hholds => ⟨hposition, hholds, fun _ _ he => he, by simp⟩
  | @cons n c named caught hc _ ih =>
    intro hnamed d hposition hfirst hholds
    have hn : n.since = first n.channel := hnamed n List.mem_cons_self
    have hcollected : ∀ channel, (d.absorb c).collected channel =
        if channel = n.channel then d.collected channel ++ c.entries else d.collected channel := by
      intro channel
      unfold Device.absorb
      cases hlast : c.entries.getLast? with
      | none => simp [List.getLast?_eq_none_iff.mp hlast]
      | some e =>
        by_cases heq : channel = n.channel
        · simp [heq, hc.channel]
        · simp [heq, hc.channel]
    have hmono : ∀ channel, ∀ e ∈ d.collected channel, e ∈ (d.absorb c).collected channel := by
      intro channel e he
      rw [hcollected]
      split_ifs
      · exact List.mem_append_left _ he
      · exact he
    have hadds := hc.holds (hn ▸ hfirst n.channel)
    have hhere : (d.absorb c).collected n.channel = d.collected n.channel ++ c.entries := by
      rw [hcollected, if_pos rfl]
    have hmoved : ∀ channel, (d.absorb c).position channel = d.position channel ∨
        channel = n.channel ∧ ∃ e ∈ c.entries, (d.absorb c).position channel = e.seq := by
      intro channel
      unfold Device.absorb
      cases hlast : c.entries.getLast? with
      | none => exact .inl rfl
      | some e =>
        by_cases heq : channel = n.channel
        · refine .inr ⟨heq, e, List.mem_of_getLast? hlast, ?_⟩
          simp [heq, hc.channel]
        · refine .inl ?_
          simp [heq, hc.channel]
    have hposition' : ∀ channel, (d.absorb c).position channel = since channel ∨
        ((d.absorb c).position channel).toInt64 ∈ used channel := by
      intro channel
      rcases hmoved channel with heq | ⟨rfl, e, he, heq⟩
      · rw [heq]
        exact hposition channel
      · rw [heq]
        exact .inr (hused n.channel _ (seq_of_mem_above (hc.above_initial.subset he)))
    have hholds' : ∀ channel, Holds C h (st.tables channel).rows ((d.absorb c).collected channel)
        (since channel) ((d.absorb c).position channel).toInt64 := by
      intro channel
      rcases hmoved channel with heq | ⟨rfl, e, he, heq⟩
      · exact heq ▸ (hholds channel).mono (hmono channel)
      · rw [heq, hhere]
        exact hadds.1 e he
    obtain ⟨hend, hheld, hkept, hall⟩ := ih
      (fun n' hn' => hnamed n' (List.mem_cons_of_mem _ hn')) (d.absorb c) hposition'
      (fun channel => (hfirst channel).mono (hmono channel)) hholds'
    refine ⟨hend, hheld, fun channel e he => hkept channel e (hmono channel e he), ?_⟩
    intro c' hc' hok hmore bound
    rcases List.mem_cons.mp hc' with rfl | hrest
    · rw [hc.channel]
      refine (hadds.2 hok hmore bound).mono fun e he => hkept n.channel e ?_
      rw [hhere]
      exact he
    · exact hall c' hrest hok hmore bound

theorem gathered_start (store : Store) (since : Bytes32 → UInt64) :
    Gathered C h since (Away.start store since) :=
  ⟨fun _ _ hseq => ExtTreeMap.mem_keys.mpr hseq, fun _ => .inl rfl, fun _ => Holds.start C h _ _⟩

theorem answers_alike {budget : Nat} {now : UInt64} (named : List Named) :
    ∀ (st : Store) (spent : Nat),
      Alike st (answers C h account me budget now st spent false named).1 := by
  induction named with
  | nil => exact fun st spent => ⟨fun _ => rfl, rfl⟩
  | cons n rest ih =>
    intro st spent
    cases hf : st.fetch C h account me n.channel n.since now with
    | error e =>
      rw [answers_absent hf]
      exact ih st spent
    | ok r =>
      obtain ⟨st', es⟩ := r
      have hl := Store.looked hf
      obtain ⟨c, hc⟩ : ∃ c, Caught.ok budget spent n.channel
          (st'.getKeys account me n.channel n.sinceEpoch now).toOption es = c := ⟨_, rfl⟩
      by_cases hover : c.entries.length < es.entries.length ∨ budget ≤ spent + c.len
      · rw [answers_over hf hc hover]
        exact hl.alike
      · rw [answers_within hf hc hover]
        have hrest := ih st' (spent + c.len)
        exact ⟨fun channel => (hrest.rows channel).trans (hl.rows channel),
          hrest.envelope.trans hl.envelope⟩

namespace Away
variable {s : Away} {since : Bytes32 → UInt64}

theorem caught_up (hs : Gathered C h since s) {budget : UInt32}
    {channels : List (Bytes32 × UInt32)} {now : UInt64}
    (hfits : s.Fits C h account me (.catchUp budget channels now)) :
    Gathered C h since (s.step C h account me oneTime (.catchUp budget channels now)) ∧
    ∀ c ∈ (answer C h s.store oneTime account me (s.request budget channels) now).2.caught,
      c.status = .ok → c.more = false → ∀ bound,
        Holds C h (s.store.tables c.channel).rows
          ((s.step C h account me oneTime (.catchUp budget channels now)).device.collected
            c.channel) (since c.channel) bound := by
  have hanswers := (agrees_of_fits _ _ _ hfits).1
  have hnamed : ∀ n ∈ (s.request budget channels).named,
      n.since = s.device.position n.channel := by
    intro n hn
    obtain ⟨p, _, rfl⟩ := List.mem_map.mp hn
    rfl
  obtain ⟨hposition, hholds, -, hall⟩ := absorb_all hs.used hanswers hnamed s.device hs.position
    hs.holds hs.holds
  have hrows : ∀ channel, ((s.step C h account me oneTime
      (.catchUp budget channels now)).store.tables channel).rows = (s.store.tables channel).rows :=
    (answers_alike (s.request budget channels).named s.store 0).rows
  refine ⟨⟨fun channel seq hseq => ?_, hposition, fun channel => ?_⟩, hall⟩
  · refine hs.used channel seq ?_
    rw [← hrows channel]
    exact hseq
  · have hchannel := hholds channel
    rw [← hrows channel] at hchannel
    exact hchannel

theorem row_of_next {store : Store} {channel : Bytes32} {seq : Int64} {row : EntryRow}
    (hrow : ((s.next store).tables channel).rows.entry[seq]? = some row) :
    (∃ was, (s.store.tables channel).rows.entry[seq]? = some was ∧
      (row = was ∨ row = { was with body := [] })) ∨ ∀ u ∈ s.used channel, u < seq := by
  simp only [Store.tables, next, ExtTreeMap.getElem?_map] at hrow
  cases hch : store.channels[channel]? with
  | none => simp [hch, Rows.empty] at hrow
  | some t =>
    simp only [hch, Option.map_some, Option.getD_some, after, ExtTreeMap.getElem?_filter',
      Option.filter_eq_some_iff] at hrow
    obtain ⟨_, hkeep⟩ := hrow
    cases hwas : (s.store.channels[channel]?.getD ⟨.empty, ∅⟩).rows.entry[seq]? with
    | none =>
      rw [hwas] at hkeep
      exact .inr (by simpa using hkeep)
    | some was =>
      rw [hwas] at hkeep
      exact .inl ⟨was, hwas, of_decide_eq_true hkeep⟩

theorem gathered_step (hs : Gathered C h since s) (m : Move) (hfits : s.Fits C h account me m) :
    Gathered C h since (s.step C h account me oneTime m) := by
  cases m with
  | catchUp budget channels now => exact (caught_up hs hfits).1
  | change store =>
    refine ⟨fun channel seq hseq => ?_, fun channel => ?_, fun channel seq row hrow hlt hle => ?_⟩
    · exact List.mem_append_right _ (ExtTreeMap.mem_keys.mpr hseq)
    · exact (hs.position channel).imp_right (List.mem_append_left _)
    · rcases row_of_next hrow with ⟨was, hwas, hrow⟩ | hnew
      · obtain ⟨e, he, hremains⟩ := hs.holds channel seq was hwas hlt hle
        refine ⟨e, he, ?_⟩
        rcases hrow with rfl | rfl
        · exact hremains
        · have hbare : Rows.served C h none (seq, { was with body := [] }) =
              { Rows.served C h none (seq, was) with body := [] } := rfl
          refine .inr (hbare.trans ?_)
          rcases hremains with heq | heq
          · rw [heq]
          · rw [heq]
      · rcases hs.position channel with heq | hused
        · rw [show (s.step C h account me oneTime (.change store)).device.position channel =
            since channel from heq] at hle
          exact absurd hle (Int64.not_le.mpr hlt)
        · exact absurd hle (Int64.not_le.mpr (hnew _ hused))

end Away

/-- A catch-up agrees with fetching, `more` false only where nothing was left out, the channels
deferred those after the one that ran the budget out, and nothing recorded as delivered beyond what
was handed over, exactly where each channel it looks at fits. A device whose catch-ups all fit holds
once a channel says there is no more every entry a fetch loop gives. -/
theorem catchup_agrees (C : Crypto) (h : Host) (account me : PubKey)
    (oneTime : PubKey → UInt16) :
    (∀ (st : Store) (req : Request) (now : UInt64),
      Agrees C h account me (min req.budget.toNat maxCatchupBytes) now 0 st req.named
          (answer C h st oneTime account me req now).1
          (answer C h st oneTime account me req now).2.caught ↔
        Fits C h account me (min req.budget.toNat maxCatchupBytes) now st 0 req.named) ∧
    ∀ (st : Store) (since : Bytes32 → UInt64) (moves : List Move) (budget : UInt32)
      (channels : List (Bytes32 × UInt32)) (now : UInt64),
      Each (Away.Fits C h account me) (Away.step C h account me oneTime) (Away.start st since)
          (moves ++ [.catchUp budget channels now]) →
        ∀ c ∈ (answer C h (run (Away.step C h account me oneTime) (Away.start st since)
            moves).store oneTime account me ((run (Away.step C h account me oneTime)
            (Away.start st since) moves).request budget channels) now).2.caught,
          c.status = .ok → c.more = false → ∀ fuel, ∀ e ∈ fetchLoop C h c.channel account fuel
            ((run (Away.step C h account me oneTime) (Away.start st since)
              moves).store.tables c.channel) (since c.channel),
            ∃ e' ∈ (run (Away.step C h account me oneTime) (Away.start st since)
              (moves ++ [.catchUp budget channels now])).device.collected c.channel,
              Remains e e' := by
  refine ⟨fun st req now => agrees_iff st req.named, ?_⟩
  intro st since moves budget channels now hfits c hc hok hmore fuel e he
  obtain ⟨hmoves, hlast, -⟩ := each_append.mp hfits
  have hgathered : Gathered C h since
      (run (Away.step C h account me oneTime) (Away.start st since) moves) :=
    hmoves.run (P := Gathered C h since) (fun s m hs hm => Away.gathered_step hs m hm)
      (gathered_start st since)
  have hall := (Away.caught_up hgathered hlast).2 c hc hok hmore
  obtain ⟨seq, row, hrow, hlt, rfl⟩ := mem_fetchLoop fuel _ _ he
  rw [run_append]
  exact hall seq seq row hrow hlt (Int64.le_refl _)

def message (chainSeq : UInt64) : EntryRow :=
  ⟨1, 5, 5, 10, 0, 1, chainSeq, chainSeq, 0, 0, 0, [1, 2, 3], 0, 0, 0⟩

/-- Account 5's channel, with account 1 in it, holding some messages. -/
def talk (held : List (Int64 × EntryRow)) : Store where
  channels := ({} : ExtTreeMap Bytes32 Reading).insert 7 ⟨{ Rows.empty with
    channel := some ⟨.priv, 0, 0, "", "", 1, 4, 5, 1, 1, 9, 0, none⟩
    member := (({} : ExtTreeMap PubKey MemberRow).insert 5 ⟨.admin, 1, true, true, false⟩).insert 1
      ⟨.member, 2, true, false, false⟩
    entry := ExtTreeMap.ofList held }, ∅⟩
  envelope _ := []
  signals _ := []

def unread : Store := talk [(1, message 0), (2, message 1)]

def meanwhile : List Move :=
  [.catchUp 4096 [(7, 0)] 20,
    .change (talk [(1, { message 0 with body := [] }), (2, message 1), (3, message 2)])]

/-- The device holds all three at the end. -/
theorem catchup_agrees_meanwhile :
    let s := run (Away.step Paired.flatDigest Paired.exchange 1 1 fun _ => 0)
      (Away.start unread fun _ => 0) meanwhile
    let s' := run (Away.step Paired.flatDigest Paired.exchange 1 1 fun _ => 0)
      (Away.start unread fun _ => 0) (meanwhile ++ [.catchUp 4096 [(7, 0)] 30])
    ∀ c ∈ (answer Paired.flatDigest Paired.exchange s.store (fun _ => 0) 1 1
      (s.request 4096 [(7, 0)]) 30).2.caught, c.status = .ok → c.more = false → ∀ fuel,
      ∀ e ∈ fetchLoop Paired.flatDigest Paired.exchange c.channel 1 fuel
        (s.store.tables c.channel) 0, ∃ e' ∈ s'.device.collected c.channel, Remains e e' :=
  (catchup_agrees Paired.flatDigest Paired.exchange 1 1 fun _ => 0).2 unread (fun _ => 0)
    meanwhile 4096 [(7, 0)] 30 (by decide +kernel)

/-- A catch-up with no room for any entry hands none over, and records both as delivered. -/
theorem delivered_unsent : ¬ Agrees Paired.flatDigest Paired.exchange 1 1
    (min (0 : UInt32).toNat maxCatchupBytes) 20 0 unread [⟨7, 0, 0⟩]
    (answer Paired.flatDigest Paired.exchange unread (fun _ => 0) 1 1 ⟨0, [⟨7, 0, 0⟩]⟩ 20).1
    (answer Paired.flatDigest Paired.exchange unread (fun _ => 0) 1 1 ⟨0, [⟨7, 0, 0⟩]⟩
      20).2.caught := by
  intro hagrees
  have hmark : ((answer Paired.flatDigest Paired.exchange unread (fun _ => 0) 1 1
      ⟨0, [⟨7, 0, 0⟩]⟩ 20).1.tables 7).cursor[(1 : PubKey)]? = some ⟨2, 0, true⟩ := by
    decide +kernel
  have hnone : (answer Paired.flatDigest Paired.exchange unread (fun _ => 0) 1 1
      ⟨0, [⟨7, 0, 0⟩]⟩ 20).2.caught.all (·.entries.isEmpty) = true := by
    decide +kernel
  have hbefore : (unread.tables 7).cursor[(1 : PubKey)]? = none := by
    decide +kernel
  rcases hagrees.delivered 7 1 _ hmark with ⟨was, hwas, -⟩ | ⟨-, c, hc, -, e, he, -⟩
  · rw [hbefore] at hwas
    cases hwas
  · have hempty := List.isEmpty_iff.mp (List.all_eq_true.mp hnone c hc)
    rw [hempty] at he
    cases he

end Sqex.Exchange.Catchup
