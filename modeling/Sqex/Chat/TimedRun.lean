import Sqex.Chat.Timed
import Sqex.Lib.Columns

/-! What timers there are, and that what they are of goes at its time, and alone, in every run
that gives a number one timer. -/
namespace Sqex.Chat
open Std
variable {e : Entry} {made : List Entry} {now : UInt64}

/-! What a statement does to timers, signed entries and history. -/

namespace Shelf
variable (s : Shelf)

@[simp] theorem redactMessage_timed (seq : UInt64) : (s.redactMessage seq).timed = s.timed := by
  rw [redactMessage]
  split <;> rfl

@[simp] theorem redactMessage_entry (seq : UInt64) : (s.redactMessage seq).entry = s.entry := by
  rw [redactMessage]
  split <;> rfl

@[simp] theorem redactMessage_history (seq : UInt64) :
    (s.redactMessage seq).history = s.history := by
  rw [redactMessage]
  split <;> rfl

theorem honour_eq (t : Timeline) (body : Option Body) :
    s.honour t body = s ∨ ∃ seq, s.honour t body = s.redactMessage seq := by
  unfold honour
  split
  · rename_i target
    split_ifs
    · exact .inr ⟨target, rfl⟩
    · exact .inl rfl
  · exact .inl rfl

theorem honour_kept (t : Timeline) (body : Option Body) : (s.honour t body).timed = s.timed ∧
    (s.honour t body).entry = s.entry ∧ (s.honour t body).history = s.history := by
  rcases honour_eq s t body with h | ⟨seq, h⟩ <;> simp [h]

theorem keep_kept (C : Crypto) (keepSigned : Bool) (e : Entry) (plain : Option Bytes) :
    (s.keep C keepSigned e plain).timed =
      (if e.expiresAfter > 0 then s.timed.insert e.seq.toInt64 (runsOut e) else s.timed) ∧
    (s.keep C keepSigned e plain).entry =
      (if keepSigned ∧ e.stamp.isSome then s.entry.insertIfNew e.seq.toInt64 e else s.entry) ∧
    (s.keep C keepSigned e plain).history = s.history := by
  rw [keep]
  split <;> split_ifs <;> simp [putCommit, putMessage, putEntry, noteTimer]

end Shelf

section
variable (R : Reader) (t : Terms) (f : Folding)

/-- An entry that is kept goes into the shelf and has its say there; any other leaves no more than
its counter. -/
theorem take_shelf (i : Served) : ∃ s : Shelf,
    (s = f.shelf ∨ s = f.shelf.recordSeen (counterOf i.entry)) ∧
      if f.keeps R t i then ∃ plain timeline body, (f.take R t i).shelf =
        (s.keep R.crypto t.keepSigned i.entry plain).honour timeline body
      else (f.take R t i).shelf = s := by
  by_cases hspent : countered R.crypto i.entry ∧ counterOf i.entry ∈ f.replay
  · exact ⟨f.shelf, .inl rfl, by simp [Folding.keeps, Folding.take, hspent]⟩
  · refine ⟨if (plainOf R.crypto t.sight.channel f.shelf i.entry).isSome ∧
      i.entry.kind = kindMember then f.shelf.recordSeen (counterOf i.entry) else f.shelf,
      (ite_eq_or_eq _ _ _).symm, ?_⟩
    simp only [Folding.take, if_neg hspent, Folding.judge]
    by_cases hforged : (verdictFor R.crypto t.sight t.bound i.entry f.chains).1 = .forged
    · simp [Folding.keeps, hforged]
    · by_cases hout : ranOut i.now i.entry = true
      · simp [Folding.keeps, hforged, hout]
      · have hkeeps : f.keeps R t i = true := by
          simpa [Folding.keeps, hforged, hout, imp_iff_not_or] using hspent
        rw [if_pos hkeeps, if_neg hforged, if_neg hout]
        exact ⟨_, _, _, rfl⟩

theorem take_kept (i : Served) :
    (f.take R t i).shelf.timed =
      (if f.keeps R t i ∧ i.entry.expiresAfter > 0 then
        f.shelf.timed.insert i.entry.seq.toInt64 (runsOut i.entry) else f.shelf.timed) ∧
    (f.take R t i).shelf.entry =
      (if f.keeps R t i ∧ t.keepSigned ∧ i.entry.stamp.isSome then
        f.shelf.entry.insertIfNew i.entry.seq.toInt64 i.entry else f.shelf.entry) ∧
    (f.take R t i).shelf.history = f.shelf.history := by
  obtain ⟨s, hs, htaken⟩ := take_shelf R t f i
  have hsame : s.timed = f.shelf.timed ∧ s.entry = f.shelf.entry ∧
      s.history = f.shelf.history := by
    rcases hs with rfl | rfl <;> exact ⟨rfl, rfl, rfl⟩
  split_ifs at htaken with hkeeps
  · obtain ⟨plain, timeline, body, htaken⟩ := htaken
    simp [htaken, hkeeps, hsame, Shelf.honour_kept, Shelf.keep_kept]
  · simp [htaken, hkeeps, hsame]

end

/-! Timers and signed entries are of what was written. -/

/-- Each number written has the timer of what was written there, and no other has one. -/
structure TimersOf (timed : ExtTreeMap Int64 UInt64) (made : List Entry) : Prop where
  timers : ∀ e ∈ made, timed[e.seq.toInt64]? = if e.expiresAfter > 0 then some (runsOut e) else none
  owned : ∀ seq ∈ timed, ∃ e ∈ made, e.seq.toInt64 = seq

def EntriesOf (entry : ExtTreeMap Int64 Entry) (made : List Entry) : Prop :=
  ∀ (seq : Int64) (e : Entry), entry[seq]? = some e → e ∈ made ∧ e.seq.toInt64 = seq

theorem SameTimer.runsOut {e' : Entry} (h : SameTimer e e') : runsOut e = runsOut e' := by
  rw [Chat.runsOut, Chat.runsOut, h.1, h.2]

theorem TimersOf.add {timed : ExtTreeMap Int64 UInt64} (h : TimersOf timed made)
    (hsame : ∀ e' ∈ made, e'.seq = e.seq → SameTimer e' e) :
    TimersOf (if e.expiresAfter > 0 then timed.insert e.seq.toInt64 (runsOut e) else timed)
      (made ++ [e]) where
  timers := by
    intro e' he'
    by_cases hseq : e'.seq = e.seq
    · -- The number has this timer, or none, from before.
      have htimer : SameTimer e' e := by
        rcases Runs.mem_concat.mp he' with hold | rfl
        · exact hsame e' hold hseq
        · exact ⟨rfl, rfl⟩
      rw [hseq, htimer.runsOut, htimer.2]
      split_ifs with htimed
      · simp
      · rw [getElem?_eq_none_iff]
        intro hmem
        obtain ⟨held, hheld, hnumber⟩ := h.owned _ hmem
        have huntimed := h.timers held hheld
        rw [(hsame held hheld (toInt64_inj.mp hnumber)).2, if_neg htimed, hnumber,
          getElem?_eq_none_iff] at huntimed
        exact huntimed hmem
    · have hold : e' ∈ made := by
        rcases List.mem_append.mp he' with hold | hnew
        · exact hold
        · exact absurd (congrArg Entry.seq (List.mem_singleton.mp hnew)) hseq
      have hne : e.seq.toInt64 ≠ e'.seq.toInt64 := fun heq => hseq (toInt64_inj.mp heq).symm
      rw [← h.timers e' hold]
      split_ifs with htimed
      · rw [lookup_insert, if_neg hne]
      · rfl
  owned := by
    intro seq hmem
    by_cases hseq : e.seq.toInt64 = seq
    · exact ⟨e, by simp, hseq⟩
    · have hheld : seq ∈ timed := by
        split_ifs at hmem
        · rw [ExtTreeMap.mem_insert, LawfulEqCmp.compare_eq_iff_eq] at hmem
          exact hmem.resolve_left hseq
        · exact hmem
      obtain ⟨held, hmade, hnumber⟩ := h.owned seq hheld
      exact ⟨held, List.mem_append_left _ hmade, hnumber⟩

theorem EntriesOf.add {entry : ExtTreeMap Int64 Entry} (h : EntriesOf entry made) :
    EntriesOf (entry.insertIfNew e.seq.toInt64 e) (made ++ [e]) := by
  intro seq x hx
  rw [ExtTreeMap.getElem?_insertIfNew] at hx
  split_ifs at hx with hnew
  · obtain rfl := Option.some.inj hx
    exact ⟨by simp, LawfulEqCmp.compare_eq_iff_eq.mp hnew.1⟩
  · exact ⟨List.mem_append_left _ (h seq x hx).1, (h seq x hx).2⟩

theorem EntriesOf.mono {entry : ExtTreeMap Int64 Entry} {made' : List Entry}
    (h : EntriesOf entry made) (hsub : made ⊆ made') : EntriesOf entry made' :=
  fun seq e he => ⟨hsub (h seq e he).1, (h seq e he).2⟩

section
variable (R : Reader) (t : Terms)

/-- What is made of the entries kept grows by the one that was, as each is taken up. -/
theorem foldRun_kept {P : Folding → List Entry → Prop}
    (htake : ∀ f made i, P f made →
      P (f.take R t i) (made ++ if f.keeps R t i then [i.entry] else []))
    (f : Folding) (entries : List Served) (made : List Entry) (h : P f made) :
    P (foldRun R t f entries) (made ++ keptOf R t f entries) := by
  induction entries generalizing f made with
  | nil => simpa [keptOf, foldRun] using h
  | cons i is ih =>
    rw [foldRun_cons, keptOf, ← List.append_assoc]
    exact ih _ _ (htake f made i h)

theorem foldRun_timers (f : Folding) (entries : List Served) (made : List Entry)
    (h : TimersOf f.shelf.timed made)
    (hsame : ∀ e ∈ keptOf R t f entries, ∀ e' ∈ made ++ keptOf R t f entries,
      e'.seq = e.seq → SameTimer e' e) :
    TimersOf (foldRun R t f entries).shelf.timed (made ++ keptOf R t f entries) := by
  induction entries generalizing f made with
  | nil => simpa [keptOf, foldRun] using h
  | cons i is ih =>
    have htimed := (take_kept R t f i).1
    rw [foldRun_cons, keptOf]
    rw [keptOf] at hsame
    by_cases hkeeps : f.keeps R t i = true
    · rw [if_pos hkeeps] at hsame ⊢
      rw [← List.append_assoc]
      rw [← List.append_assoc] at hsame
      simp only [hkeeps, true_and] at htimed
      refine ih (f.take R t i) (made ++ [i.entry]) ?_ fun e he => ?_
      · rw [htimed]
        exact h.add fun e' he' => hsame i.entry (by simp) e' (by simp [he'])
      · exact hsame e (by simp [he])
    · rw [if_neg hkeeps, List.nil_append] at hsame ⊢
      rw [if_neg fun hboth => hkeeps hboth.1] at htimed
      exact ih (f.take R t i) made (htimed ▸ h) hsame

theorem foldRun_entries (f : Folding) (entries : List Served) (made : List Entry)
    (h : EntriesOf f.shelf.entry made) :
    EntriesOf (foldRun R t f entries).shelf.entry (made ++ keptOf R t f entries) := by
  refine foldRun_kept R t (P := fun f made => EntriesOf f.shelf.entry made)
    (fun f made i h => ?_) f entries made h
  rw [(take_kept R t f i).2.1]
  by_cases hkeeps : f.keeps R t i = true
  · simp only [hkeeps, true_and, if_true]
    split_ifs
    · exact h.add
    · exact h.mono (by simp)
  · simpa [hkeeps] using h

theorem foldRun_history (f : Folding) (entries : List Served) :
    (foldRun R t f entries).shelf.history = f.shelf.history := by
  induction entries generalizing f with
  | nil => rfl
  | cons i is ih =>
    rw [foldRun_cons, ih, (take_kept R t f i).2.2]

end

/-! Deriving epochs changes what lies beside the messages. -/

theorem advanceTo_beside (C : Crypto) (ceiling : UInt32) (fuel : Nat) (chain : Agreement.Chain)
    (s : Shelf) : s.beside (advanceTo C ceiling fuel chain s).2 =
      (advanceTo C ceiling fuel chain s).2 := by
  induction fuel generalizing chain s with
  | zero => rfl
  | succ fuel ih =>
    rw [advanceTo]
    split_ifs
    · split
      · rfl
      · split
        · rfl
        · exact ih _ _
    · rfl

theorem advanceAgreement_beside (C : Crypto) (s : Shelf) :
    s.beside (advanceAgreement C s) = advanceAgreement C s := by
  unfold advanceAgreement
  split
  · rfl
  · rename_i chain hchain
    have hto := advanceTo_beside C s.highestCommit s.highestCommit.toNat chain s
    exact congrArg (fun done : Shelf => done.forgetContributionsTo
      (advanceTo C s.highestCommit s.highestCommit.toNat chain s).1.epoch) hto

section
variable (R : Reader) (t : Terms) (s : Shelf) (timeline : Timeline) (since : UInt64)
  (entries : List Served)

theorem starting_kept : (starting t s timeline since).shelf.timed = s.timed ∧
    (starting t s timeline since).shelf.entry = s.entry ∧
    (starting t s timeline since).shelf.history = s.history := by
  simp only [starting, Folding.start]
  split_ifs <;> exact ⟨rfl, rfl, rfl⟩

theorem ended_kept (C : Crypto) (f : Folding) : (ended C f).shelf.timed = f.shelf.timed ∧
    (ended C f).shelf.entry = f.shelf.entry ∧ (ended C f).shelf.history = f.shelf.history := by
  rw [ended]
  split_ifs
  · have hbeside := advanceAgreement_beside C f.shelf
    exact ⟨(congrArg Shelf.timed hbeside.symm :), (congrArg Shelf.entry hbeside.symm :),
      (congrArg Shelf.history hbeside.symm :)⟩
  · exact ⟨rfl, rfl, rfl⟩

end

/-! What holds of a store in a run that keeps to that. -/

namespace Cabinet

structure Timekept (c : Cabinet) : Prop where
  timers : TimersOf c.shelf.timed c.made
  entries : EntriesOf c.shelf.entry c.made
  small : ∀ e ∈ c.made, (runsOut e).toNat < 2 ^ 63
  history : ∀ a ∈ c.shelf.history, ∀ (seq : Int64) (e : Entry), a.entries[seq]? = some e →
    e ∈ c.past
  past : ∀ e ∈ c.past, e.expiresAfter = 0
  aside : ∀ e ∈ c.aside, e.expiresAfter = 0
  commits : ∀ e ∈ c.commits, e.expiresAfter = 0
  gone : ∀ e ∈ c.gone, e.expiresAfter > 0 ∧ e ∉ c.made

theorem ranOut_untimed (h : e.expiresAfter = 0) :
    ranOut now e = false := by
  simp [ranOut, h]

variable {c : Cabinet}

theorem Timekept.out_eq (h : c.Timekept) (hnow : now.toNat < 2 ^ 63) (he : e ∈ c.made) :
    c.out now e.seq.toInt64 = ranOut now e := by
  have hcolumn : (runsOut e).toInt64 ≤ now.toInt64 ↔ runsOut e ≤ now := by
    rw [Int64.le_iff_toInt_le, column_toInt (h.small e he), column_toInt hnow,
      UInt64.le_iff_toNat_le]
    omega
  rw [out, h.timers.timers e he, ranOut]
  split_ifs with htimed
  · simp [hcolumn, htimed]
  · simp [htimed]

theorem expired_kept (s : Shelf) (now : UInt64) (seq : Int64) :
    (s.expired now).message[seq]? =
      (if (s.timed[seq]?.any fun until_ => until_.toInt64 ≤ now.toInt64) then none
        else s.message[seq]?) ∧
    (s.expired now).entry[seq]? =
      (if (s.timed[seq]?.any fun until_ => until_.toInt64 ≤ now.toInt64) then none
        else s.entry[seq]?) ∧
    (s.expired now).timed[seq]? =
      (if (s.timed[seq]?.any fun until_ => until_.toInt64 ≤ now.toInt64) then none
        else s.timed[seq]?) := by
  simp only [Shelf.expired, lookup_filter_key]
  cases s.timed[seq]?.any fun until_ => until_.toInt64 ≤ now.toInt64 <;> exact ⟨rfl, rfl, rfl⟩

theorem expireTimed_kept (c : Cabinet) (now : UInt64) (seq : Int64) :
    (c.expireTimed now).shelf.message[seq]? =
      (if c.out now seq then none else c.shelf.message[seq]?) ∧
    (c.expireTimed now).shelf.entry[seq]? =
      (if c.out now seq then none else c.shelf.entry[seq]?) ∧
    (c.expireTimed now).shelf.timed[seq]? =
      (if c.out now seq then none else c.shelf.timed[seq]?) := expired_kept c.shelf now seq

theorem Timekept.clear (h : c.Timekept) (hnow : now.toNat < 2 ^ 63) :
    (c.expireTimed now).Clear now where
  messages := by
    intro seq row _ e he hseq
    have hmade := List.mem_filter.mp he
    rw [← h.out_eq hnow hmade.1]
    simpa using hmade.2
  entries := by
    intro seq e he
    rw [(expireTimed_kept c now seq).2.1] at he
    split_ifs at he with hout
    obtain ⟨hmade, rfl⟩ := h.entries seq e he
    rw [← h.out_eq hnow hmade]
    simpa using hout
  history := by
    intro a ha
    exact ⟨fun seq e he => ranOut_untimed (h.past e (h.history a ha seq e he)),
      fun seq row _ e he _ => ranOut_untimed (h.past e he)⟩
  stranded := fun seq row _ e he _ => ranOut_untimed (h.aside e he)
  commits := fun seq x _ e he _ => ranOut_untimed (h.commits e he)

theorem Timekept.expire (h : c.Timekept) (hnow : now.toNat < 2 ^ 63) :
    (c.expireTimed now).Timekept where
  timers := by
    constructor
    · intro e he
      obtain ⟨hmade, hin⟩ := List.mem_filter.mp he
      rw [(expireTimed_kept c now _).2.2, if_neg (by simpa using hin), h.timers.timers e hmade]
    · intro seq hmem
      rw [ExtTreeMap.mem_iff_isSome_getElem?, (expireTimed_kept c now seq).2.2] at hmem
      split_ifs at hmem with hout
      · simp at hmem
      · obtain ⟨e, he, rfl⟩ := h.timers.owned seq (ExtTreeMap.mem_iff_isSome_getElem?.mpr hmem)
        exact ⟨e, List.mem_filter.mpr ⟨he, by simpa using hout⟩, rfl⟩
  entries := by
    intro seq e he
    rw [(expireTimed_kept c now seq).2.1] at he
    split_ifs at he with hout
    obtain ⟨hmade, rfl⟩ := h.entries seq e he
    exact ⟨List.mem_filter.mpr ⟨hmade, by simpa using hout⟩, rfl⟩
  small := fun e he => h.small e (List.mem_of_mem_filter he)
  history := h.history
  past := h.past
  aside := h.aside
  commits := h.commits
  gone := by
    intro e he
    rcases List.mem_append.mp he with hbefore | hnow'
    · exact ⟨(h.gone e hbefore).1, fun hmade => (h.gone e hbefore).2 (List.mem_of_mem_filter hmade)⟩
    · obtain ⟨hmade, hout⟩ := List.mem_filter.mp hnow'
      refine ⟨?_, fun hleft => by simpa [hout] using (List.mem_filter.mp hleft).2⟩
      have hran := h.out_eq hnow hmade
      rw [hout] at hran
      have hboth : e.expiresAfter > 0 ∧ now ≥ runsOut e := by simpa [ranOut] using hran.symm
      exact hboth.1

theorem mem_keptOf (R : Reader) (t : Terms) {f : Folding} {entries : List Served}
    (he : e ∈ keptOf R t f entries) : ∃ i ∈ entries, i.entry = e ∧ ranOut i.now e = false := by
  induction entries generalizing f with
  | nil => simp [keptOf] at he
  | cons i is ih =>
    rw [keptOf] at he
    rcases List.mem_append.mp he with hhere | hlater
    · split_ifs at hhere with hkeeps
      · obtain rfl := List.mem_singleton.mp hhere
        simp only [Folding.keeps, Bool.and_eq_true, Bool.not_eq_true'] at hkeeps
        exact ⟨i, by simp, rfl, hkeeps.2⟩
      · simp at hhere
    · obtain ⟨j, hj, hentry⟩ := ih hlater
      exact ⟨j, by simp [hj], hentry⟩

theorem Timekept.fold (h : c.Timekept) {R : Reader} {t : Terms} {timeline : Timeline}
    {since : UInt64} {entries : List Served}
    (hcareful : c.Careful (.fold R t timeline since entries)) :
    (c.act (.fold R t timeline since entries)).Timekept := by
  obtain ⟨hfits, hcommits, hclock⟩ := hcareful
  obtain ⟨htimed, hentry, hhistory⟩ := starting_kept t c.shelf timeline since
  obtain ⟨hendTimed, hendEntry, hendHistory⟩ := ended_kept R.crypto
    (foldRun R t (starting t c.shelf timeline since) entries)
  constructor
  · simp only [act, foldEntries_eq, hendTimed]
    exact foldRun_timers R t _ entries c.made (htimed ▸ h.timers) fun e he => (hfits e he).2
  · simp only [act, foldEntries_eq, hendEntry]
    exact foldRun_entries R t _ entries c.made (hentry ▸ h.entries)
  · intro e he
    rcases List.mem_append.mp he with hold | hnew
    · exact h.small e hold
    · exact (hfits e hnew).1
  · simp only [act, foldEntries_eq, hendHistory, foldRun_history, hhistory]
    exact h.history
  · exact h.past
  · exact h.aside
  · intro e he
    rcases List.mem_append.mp he with hold | hnew
    · exact h.commits e hold
    · exact hcommits e hnew
  · intro e he
    refine ⟨(h.gone e he).1, fun hmade => ?_⟩
    rcases List.mem_append.mp hmade with hold | hnew
    · exact (h.gone e he).2 hold
    · obtain ⟨i, hi, rfl, hleft⟩ := mem_keptOf R t hnew
      rw [hclock i hi he] at hleft
      contradiction

theorem import_entries (C : Crypto) (v : Sight) (bound : Bindings) {a : Archived} {chains : Chains}
    {entries : List Entry} {seq : Int64}
    (he : (a.import' C v bound chains entries).1.entries[seq]? = some e) :
    a.entries[seq]? = some e ∨ e ∈ (a.import' C v bound chains entries).2 := by
  induction entries generalizing a chains with
  | nil => exact .inl he
  | cons x xs ih =>
    simp only [Archived.import'] at he ⊢
    by_cases htakes : a.takes C v bound chains x = true
    · rw [if_pos htakes] at he ⊢
      rcases ih he with hkept | hnew
      · simp only [Archived.keep, ExtTreeMap.getElem?_insertIfNew] at hkept
        split_ifs at hkept
        · obtain rfl := Option.some.inj hkept
          exact .inr (by simp)
        · exact .inl hkept
      · exact .inr (List.mem_cons_of_mem _ hnew)
    · rw [if_neg htakes] at he ⊢
      exact ih he

theorem importEarlier_history (C : Crypto) (v : Sight) (bound : Bindings) (origin : PubKey)
    {s : Shelf} {entries : List Entry} {a : Archived}
    (ha : a ∈ (importEarlier C v bound origin s entries).1.history) {seq : Int64}
    (he : a.entries[seq]? = some e) : (∃ b ∈ s.history, b.entries[seq]? = some e) ∨
      e ∈ (importEarlier C v bound origin s entries).2 := by
  unfold importEarlier at ha ⊢
  split_ifs at ha ⊢
  · exact .inl ⟨a, ha, he⟩
  · cases hfound : s.history.find? (·.inst = v.inst) with
    | some held =>
      simp only [hfound] at ha ⊢
      obtain ⟨b, hb, rfl⟩ := List.mem_map.mp ha
      split_ifs at he
      · exact (import_entries C v bound he).imp_left fun hheld =>
          ⟨held, List.mem_of_find?_eq_some hfound, hheld⟩
      · exact .inl ⟨b, hb, he⟩
    | none =>
      simp only [hfound] at ha ⊢
      rcases Runs.mem_concat.mp ha with hold | rfl
      · exact .inl ⟨a, hold, he⟩
      · exact (import_entries C v bound he).imp_left fun hnone => by simp at hnone

theorem importEarlier_rest (C : Crypto) (v : Sight) (bound : Bindings) (origin : PubKey)
    (s : Shelf) (entries : List Entry) : (importEarlier C v bound origin s entries).1 =
      { s with history := (importEarlier C v bound origin s entries).1.history } := by
  unfold importEarlier
  split_ifs
  · rfl
  · split <;> rfl

theorem Timekept.importEarlier (h : c.Timekept) {C : Crypto} {v : Sight} {bound : Bindings}
    {origin : PubKey} {entries : List Entry}
    (hcareful : c.Careful (.importEarlier C v bound origin entries)) :
    (c.act (.importEarlier C v bound origin entries)).Timekept := by
  have hrest := importEarlier_rest C v bound origin c.shelf entries
  exact {
    timers := (congrArg Shelf.timed hrest :) ▸ h.timers
    entries := (congrArg Shelf.entry hrest :) ▸ h.entries
    small := h.small
    history := by
      intro a ha seq e he
      rcases importEarlier_history C v bound origin ha he with ⟨b, hb, hheld⟩ | hnew
      · exact List.mem_append_left _ (h.history b hb seq e hheld)
      · exact List.mem_append_right _ hnew
    past := by
      intro e he
      rcases List.mem_append.mp he with hold | hnew
      · exact h.past e hold
      · exact hcareful e hnew
    aside := h.aside
    commits := h.commits
    gone := h.gone }

theorem Timekept.reset (h : c.Timekept) {origin : PubKey}
    (hcareful : c.shelf.timed = ∅) : (c.act (.reset origin)).Timekept where
  timers := by
    have htimed : (c.shelf.reset origin).timed = ∅ := by
      rw [Shelf.reset, Shelf.archived]
      split_ifs <;> exact hcareful
    simp only [act, htimed]
    exact ⟨by simp, by simp⟩
  entries := by
    intro seq e he
    simp [act, Shelf.reset] at he
  small := by simp [act]
  history := by
    intro a ha seq e he
    simp only [act, Shelf.reset, Shelf.archived] at ha
    split_ifs at ha
    · exact List.mem_append_left _ (h.history a ha seq e he)
    · rcases Runs.mem_concat.mp ha with hold | rfl
      · exact List.mem_append_left _ (h.history a hold seq e he)
      · exact List.mem_append_right _ (h.entries seq e he).1
  past := by
    intro e he
    rcases List.mem_append.mp he with hold | hmade
    · exact h.past e hold
    · have htimer := h.timers.timers e hmade
      rw [hcareful, ExtTreeMap.getElem?_empty] at htimer
      by_contra htimed
      have hpos : e.expiresAfter > 0 := by grind
      simp [hpos] at htimer
  aside := h.aside
  commits := h.commits
  gone := fun e he => ⟨(h.gone e he).1, by simp [act]⟩

theorem Timekept.forkFound (h : c.Timekept) {R : Reader} {x : Fork}
    (hcareful : c.Careful (.forkFound R x)) : (c.act (.forkFound R x)).Timekept where
  timers := by
    constructor
    · intro e he
      obtain ⟨hmade, hbelow⟩ := List.mem_filter.mp he
      simp only [act, Shelf.truncated, lookup_filter_key]
      rw [if_pos hbelow]
      exact h.timers.timers e hmade
    · intro seq hmem
      simp only [act, Shelf.truncated, ExtTreeMap.mem_iff_isSome_getElem?,
        lookup_filter_key] at hmem
      split_ifs at hmem with hbelow
      · obtain ⟨e, he, rfl⟩ := h.timers.owned seq (ExtTreeMap.mem_iff_isSome_getElem?.mpr hmem)
        exact ⟨e, List.mem_filter.mpr ⟨he, hbelow⟩, rfl⟩
      · simp at hmem
  entries := by
    intro seq e he
    simp only [act, Shelf.truncated, lookup_filter_key] at he
    split_ifs at he with hbelow
    obtain ⟨hmade, rfl⟩ := h.entries seq e he
    exact ⟨List.mem_filter.mpr ⟨hmade, hbelow⟩, rfl⟩
  small := fun e he => h.small e (List.mem_of_mem_filter he)
  history := h.history
  past := h.past
  aside := by
    intro e he
    rcases List.mem_append.mp he with hold | hnew
    · exact h.aside e hold
    · obtain ⟨hmade, hnumber⟩ := List.mem_filter.mp hnew
      obtain ⟨row, hrow, hseq⟩ := List.mem_map.mp (of_decide_eq_true hnumber)
      have htimer := h.timers.timers e hmade
      rw [← hseq, hcareful row hrow] at htimer
      by_contra htimed
      have hpos : e.expiresAfter > 0 := by grind
      simp [hpos] at htimer
  commits := h.commits
  gone := fun e he =>
    ⟨(h.gone e he).1, fun hmade => (h.gone e he).2 (List.mem_of_mem_filter hmade)⟩

theorem Timekept.post (h : c.Timekept) {plain : Bytes} (hcareful : c.Careful (.post e plain)) :
    (c.act (.post e plain)).Timekept where
  timers := by
    have htimed : (c.shelf.posted e plain).timed =
        if e.expiresAfter > 0 then c.shelf.timed.insert e.seq.toInt64 (runsOut e)
        else c.shelf.timed := by
      rw [Shelf.posted]
      split_ifs <;> rfl
    simp only [act, htimed]
    exact h.timers.add fun e' he' => (hcareful.1 e (by simp)).2 e' (by simp [he'])
  entries := by
    have hentry : (c.shelf.posted e plain).entry = c.shelf.entry := by
      rw [Shelf.posted]
      split_ifs <;> rfl
    simp only [act, hentry]
    exact h.entries.mono (by simp)
  small := by
    intro e' he'
    rcases List.mem_append.mp he' with hold | hnew
    · exact h.small e' hold
    · exact (hcareful.1 e' hnew).1
  history := by
    have hhistory : (c.shelf.posted e plain).history = c.shelf.history := by
      rw [Shelf.posted]
      split_ifs <;> rfl
    simp only [act, hhistory]
    exact h.history
  past := h.past
  aside := h.aside
  commits := h.commits
  gone := by
    intro e' he'
    refine ⟨(h.gone e' he').1, fun hmade => ?_⟩
    rcases Runs.mem_concat.mp hmade with hold | rfl
    · exact (h.gone e' he').2 hold
    · exact hcareful.2 he'

theorem Timekept.act (h : c.Timekept) {d : Doing} (hcareful : c.Careful d) :
    (c.act d).Timekept := by
  cases d with
  | fold R t timeline since entries => exact h.fold hcareful
  | noteCommits C entries =>
    have hrest := noteCommits_rest (C := C) c.shelf entries
    refine ⟨(congrArg Shelf.timed hrest :) ▸ h.timers, (congrArg Shelf.entry hrest :) ▸ h.entries,
      h.small, (congrArg Shelf.history hrest :) ▸ h.history, h.past, h.aside, ?_, h.gone⟩
    intro e he
    rcases List.mem_append.mp he with hold | hnew
    · exact h.commits e hold
    · exact hcareful e hnew
  | post e plain => exact h.post hcareful
  | redact target =>
    exact ⟨by simpa [Cabinet.act] using h.timers, by simpa [Cabinet.act] using h.entries, h.small,
      by simpa [Cabinet.act] using h.history, h.past, h.aside, h.commits, h.gone⟩
  | beside other => exact { h with }
  | reset origin => exact h.reset hcareful
  | importEarlier C v bound origin entries => exact h.importEarlier hcareful
  | forkFound R x => exact h.forkFound hcareful
  | dropStranded seq => exact { h with }

end Cabinet

end Sqex.Chat
