import Sqex.Chat.TimedRun

/-! What each row held was written of, in every run, and that timed messages go at their time. -/
namespace Sqex.Chat
open Std
variable {made commits : List Entry} {s : Shelf} {f : Folding} {c : Cabinet}

def RowsOf (rows : ExtTreeMap Int64 MessageRow) (made : List Entry) : Prop :=
  ∀ (seq : Int64) (row : MessageRow), rows[seq]? = some row →
    ∃ e ∈ made, e.seq.toInt64 = seq ∧ row.account = e.account ∧ row.posted = e.posted

theorem RowsOf.mono {rows : ExtTreeMap Int64 MessageRow} {made' : List Entry} (h : RowsOf rows made)
    (hsub : made ⊆ made') : RowsOf rows made' := by
  intro seq row hrow
  obtain ⟨e, he, hof⟩ := h seq row hrow
  exact ⟨e, hsub he, hof⟩

theorem RowsOf.insert {rows : ExtTreeMap Int64 MessageRow} (h : RowsOf rows made) (e : Entry)
    {r : MessageRow} (haccount : r.account = e.account) (hposted : r.posted = e.posted) :
    RowsOf (rows.insert e.seq.toInt64
      ((rows[e.seq.toInt64]?.map fun held : MessageRow => held.again r).getD r))
      (made ++ [e]) := by
  intro seq x hx
  rw [lookup_insert] at hx
  split_ifs at hx with hseq
  · subst hseq
    cases hheld : rows[e.seq.toInt64]? with
    | none =>
      simp only [hheld, Option.map_none, Option.getD_none, Option.some.injEq] at hx
      exact ⟨e, by simp, rfl, hx ▸ haccount, hx ▸ hposted⟩
    | some held =>
      simp only [hheld, Option.map_some, Option.getD_some, Option.some.injEq] at hx
      obtain ⟨old, hold, hof⟩ := h _ held hheld
      exact ⟨old, List.mem_append_left _ hold, hx ▸ hof⟩
  · obtain ⟨old, hold, hof⟩ := h seq x hx
    exact ⟨old, List.mem_append_left _ hold, hof⟩

theorem RowsOf.redact (h : RowsOf s.message made) (target : UInt64) :
    RowsOf (s.redactMessage target).message made := by
  rw [Shelf.redactMessage]
  cases hheld : s.message[target.toInt64]? with
  | none => exact h
  | some held =>
    intro seq row hrow
    rw [lookup_insert] at hrow
    split_ifs at hrow with hseq
    · obtain rfl := Option.some.inj hrow
      exact hseq ▸ h _ held hheld
    · exact h seq row hrow

theorem keep_message (s : Shelf) (C : Crypto) (keepSigned : Bool) (e : Entry)
    (plain : Option Bytes) : (s.keep C keepSigned e plain).message =
      if e.body = [] then ((s.putMessage e.seq (rowOf e plain)).redactMessage e.seq).message
      else (s.putMessage e.seq (rowOf e plain)).message := by
  have hredact : ∀ a b : Shelf, a.message = b.message →
      (a.redactMessage e.seq).message = (b.redactMessage e.seq).message := by
    intro a b hmessage
    simp only [Shelf.redactMessage, hmessage]
    cases b.message[e.seq.toInt64]? with
    | none => exact hmessage
    | some held => rfl
  rw [Shelf.keep]
  split <;> split_ifs
  all_goals first
    | rfl
    | exact hredact _ _ rfl

theorem RowsOf.put (h : RowsOf s.message made) (e : Entry) (plain : Option Bytes) :
    RowsOf (s.putMessage e.seq (rowOf e plain)).message (made ++ [e]) :=
  h.insert e (r := rowOf e plain) rfl rfl

theorem RowsOf.honour (h : RowsOf s.message made) (t : Timeline) (body : Option Body) :
    RowsOf (s.honour t body).message made := by
  rcases s.honour_eq t body with hsame | ⟨target, hredact⟩
  · rwa [hsame]
  · rw [hredact]
    exact h.redact target

theorem RowsOf.keep (h : RowsOf s.message made) (C : Crypto) (keepSigned : Bool) (e : Entry)
    (plain : Option Bytes) :
    RowsOf (s.keep C keepSigned e plain).message (made ++ [e]) := by
  rw [keep_message]
  split_ifs
  · exact (h.put e plain).redact e.seq
  · exact h.put e plain

section
variable (R : Reader) (t : Terms)

theorem RowsOf.take (h : RowsOf f.shelf.message made) (i : Served) :
    RowsOf (f.take R t i).shelf.message
      (made ++ if f.keeps R t i then [i.entry] else []) := by
  obtain ⟨s, hs, htaken⟩ := take_shelf R t f i
  have hrows : RowsOf s.message made := by
    rcases hs with rfl | rfl <;> exact h
  split_ifs at htaken ⊢ with hkeeps
  · obtain ⟨plain, timeline, body, htaken⟩ := htaken
    exact htaken ▸ (hrows.keep R.crypto t.keepSigned i.entry plain).honour timeline body
  · exact htaken ▸ hrows.mono (List.subset_append_left _ _)

theorem foldRun_rows (f : Folding) (entries : List Served) (made : List Entry)
    (h : RowsOf f.shelf.message made) :
    RowsOf (foldRun R t f entries).shelf.message (made ++ keptOf R t f entries) :=
  foldRun_kept R t (P := fun f made => RowsOf f.shelf.message made)
    (fun _ _ i h => h.take R t i) f entries made h

end

theorem import_rows (C : Crypto) (v : Sight) (bound : Bindings) {a : Archived} {chains : Chains}
    {entries : List Entry} (h : RowsOf a.messages made) :
    RowsOf (a.import' C v bound chains entries).1.messages
      (made ++ (a.import' C v bound chains entries).2) := by
  induction entries generalizing a chains made with
  | nil => simpa [Archived.import'] using h
  | cons x xs ih =>
    simp only [Archived.import']
    by_cases htakes : a.takes C v bound chains x = true
    · have hkept : RowsOf (a.keep C v.channel x).messages (made ++ [x]) := by
        rw [Archived.keep]
        exact h.insert x rfl rfl
      rw [if_pos htakes]
      simpa using ih hkept
    · rw [if_neg htakes]
      exact ih h

theorem importEarlier_rows (C : Crypto) (v : Sight) (bound : Bindings) (origin : PubKey)
    {entries past : List Entry} (h : ∀ a ∈ s.history, RowsOf a.messages past) :
    ∀ a ∈ (importEarlier C v bound origin s entries).1.history,
      RowsOf a.messages (past ++ (importEarlier C v bound origin s entries).2) := by
  intro a ha
  have hold : ∀ b ∈ s.history, RowsOf b.messages
      (past ++ (importEarlier C v bound origin s entries).2) :=
    fun b hb => (h b hb).mono (List.subset_append_left _ _)
  unfold importEarlier at ha hold ⊢
  split_ifs at ha hold ⊢
  · exact hold a ha
  · cases hfound : s.history.find? (·.inst = v.inst) with
    | some held =>
      simp only [hfound] at ha hold ⊢
      obtain ⟨b, hb, rfl⟩ := List.mem_map.mp ha
      split_ifs
      · exact import_rows C v bound (h held (List.mem_of_find?_eq_some hfound))
      · exact hold b hb
    | none =>
      simp only [hfound] at ha hold ⊢
      rcases Runs.mem_concat.mp ha with hheld | rfl
      · exact hold a hheld
      · refine import_rows C v bound ?_
        intro seq row hrow
        simp at hrow

def CommitsOf (rows : ExtTreeMap Int64 Commit) (commits : List Entry) : Prop :=
  ∀ seq ∈ rows, ∃ e ∈ commits, e.seq.toInt64 = seq

theorem CommitsOf.put {rows : ExtTreeMap Int64 Commit} (h : CommitsOf rows commits) (e : Entry)
    (x : Commit) :
    CommitsOf (rows.insertIfNew e.seq.toInt64 x) (commits ++ [e]) := by
  intro seq hmem
  rw [ExtTreeMap.mem_insertIfNew] at hmem
  cases hmem with
  | inl hnew => exact ⟨e, by simp, LawfulEqCmp.compare_eq_iff_eq.mp hnew⟩
  | inr hold =>
    obtain ⟨held, hheld, hseq⟩ := h seq hold
    exact ⟨held, List.mem_append_left _ hheld, hseq⟩

theorem keep_commitment (s : Shelf) (C : Crypto) (keepSigned : Bool) (e : Entry)
    (plain : Option Bytes) : (s.keep C keepSigned e plain).commitment =
      ((commitOf C e).map fun x => s.commitment.insertIfNew e.seq.toInt64 x).getD s.commitment := by
  have hredact : ∀ (s : Shelf) seq, (s.redactMessage seq).commitment = s.commitment := by
    intro s seq
    rw [Shelf.redactMessage]
    split <;> rfl
  rw [Shelf.keep]
  split <;> split_ifs <;>
    simp_all [Shelf.putCommit, Shelf.putMessage, Shelf.putEntry, Shelf.noteTimer]

section
variable (R : Reader) (t : Terms)

theorem commitsIn_append (C : Crypto) (xs ys : List Entry) :
    Cabinet.commitsIn C (xs ++ ys) = Cabinet.commitsIn C xs ++ Cabinet.commitsIn C ys :=
  List.filter_append ..

theorem CommitsOf.take (h : CommitsOf f.shelf.commitment commits) (i : Served) :
    CommitsOf (f.take R t i).shelf.commitment (commits ++
      Cabinet.commitsIn R.crypto (if f.keeps R t i then [i.entry] else [])) := by
  obtain ⟨s, hs, htaken⟩ := take_shelf R t f i
  have hsame : s.commitment = f.shelf.commitment := by
    rcases hs with rfl | rfl <;> rfl
  have hhonour : ∀ (s : Shelf) t body, (s.honour t body).commitment = s.commitment := by
    intro s t body
    rcases s.honour_eq t body with hsame | ⟨target, hredact⟩
    · rw [hsame]
    · rw [hredact, Shelf.redactMessage]
      split <;> rfl
  have hmono : ∀ new, CommitsOf f.shelf.commitment (commits ++ new) := fun new seq hmem => by
    obtain ⟨held, hheld, hseq⟩ := h seq hmem
    exact ⟨held, List.mem_append_left _ hheld, hseq⟩
  split_ifs at htaken ⊢ with hkeeps
  · obtain ⟨plain, timeline, body, htaken⟩ := htaken
    rw [htaken, hhonour, keep_commitment, hsame]
    cases hcommit : commitOf R.crypto i.entry with
    | none => exact hmono _
    | some x => simpa [Cabinet.commitsIn, hcommit] using h.put i.entry x
  · exact htaken ▸ hsame ▸ hmono _

theorem foldRun_commits (f : Folding) (entries : List Served) (commits : List Entry)
    (h : CommitsOf f.shelf.commitment commits) :
    CommitsOf (foldRun R t f entries).shelf.commitment
      (commits ++ Cabinet.commitsIn R.crypto (keptOf R t f entries)) := by
  have hstart : CommitsOf f.shelf.commitment (commits ++ Cabinet.commitsIn R.crypto []) := by
    simpa [Cabinet.commitsIn] using h
  exact foldRun_kept R t (P := fun f made =>
    CommitsOf f.shelf.commitment (commits ++ Cabinet.commitsIn R.crypto made))
    (fun f made i h => by
      rw [commitsIn_append, ← List.append_assoc]
      exact h.take R t i) f entries [] hstart

end

theorem CommitsOf.note {C : Crypto} (h : CommitsOf s.commitment commits) (entries : List Served) :
    CommitsOf (noteCommits C s entries).commitment
      (commits ++ Cabinet.commitsIn C (entries.map (·.entry))) := by
  induction entries generalizing s commits with
  | nil => simpa [noteCommits, Cabinet.commitsIn] using h
  | cons i is ih =>
    have hnote : noteCommits C s (i :: is) = noteCommits C (s.noteCommit C i.entry) is := rfl
    rw [hnote, Shelf.noteCommit]
    cases hcommit : commitOf C i.entry with
    | none => simpa [Cabinet.commitsIn, hcommit] using ih h
    | some x => simpa [Cabinet.commitsIn, hcommit] using ih (s := s.putCommit _ x) (h.put i.entry x)

theorem putStranded_posted {rows : List (Int64 × MessageRow)} {fork : UInt64}
    {held : ExtTreeMap Int64 StrandedRow} {seq : Int64} {row : StrandedRow}
    (h : (rows.foldl (putStranded fork) held)[seq]? = some row) :
    held[seq]? = some row ∨ ∃ r ∈ rows, r.1 = seq ∧ row.posted = r.2.posted := by
  induction rows generalizing held with
  | nil => exact .inl h
  | cons r rows ih =>
    cases ih h with
    | inl hfirst =>
      simp only [putStranded, lookup_filter_key, ExtTreeMap.getElem?_insertIfNew] at hfirst
      split_ifs at hfirst with hkept hnew
      · obtain rfl := Option.some.inj hfirst
        exact .inr ⟨r, by simp, LawfulEqCmp.compare_eq_iff_eq.mp hnew.1, rfl⟩
      · exact .inl hfirst
    | inr hlater =>
      obtain ⟨r', hr', hof⟩ := hlater
      exact .inr ⟨r', List.mem_cons_of_mem r hr', hof⟩

namespace Cabinet

structure Written (c : Cabinet) : Prop where
  messages : RowsOf c.shelf.message c.made
  history : ∀ a ∈ c.shelf.history, RowsOf a.messages c.past
  stranded : ∀ (seq : Int64) (row : StrandedRow), c.stranded[seq]? = some row →
    ∃ e ∈ c.aside, e.seq.toInt64 = seq ∧ row.posted = e.posted
  commits : CommitsOf c.shelf.commitment c.commits

theorem Written.fold (h : c.Written) (R : Reader) (t : Terms) (timeline : Timeline) (since : UInt64)
    (entries : List Served) :
    (c.act (.fold R t timeline since entries)).Written where
  messages := by
    have hstart : (starting t c.shelf timeline since).shelf.message = c.shelf.message := by
      simp only [starting, Folding.start]
      split_ifs <;> rfl
    have hend : ∀ f : Folding, (ended R.crypto f).shelf.message = f.shelf.message := by
      intro f
      rw [ended]
      split_ifs
      · exact (congrArg Shelf.message (advanceAgreement_beside R.crypto f.shelf).symm :)
      · rfl
    simp only [Cabinet.act, foldEntries_eq, hend]
    exact foldRun_rows R t _ entries c.made (hstart ▸ h.messages)
  history := by
    simp only [Cabinet.act, foldEntries_eq, (ended_kept _ _ ).2.2, foldRun_history,
      (starting_kept _ _ _ _).2.2]
    exact h.history
  stranded := h.stranded
  commits := by
    have hstart : (starting t c.shelf timeline since).shelf.commitment = c.shelf.commitment := by
      simp only [starting, Folding.start]
      split_ifs <;> rfl
    have hend : ∀ f : Folding, (ended R.crypto f).shelf.commitment = f.shelf.commitment := by
      intro f
      rw [ended]
      split_ifs
      · exact (congrArg Shelf.commitment (advanceAgreement_beside R.crypto f.shelf).symm :)
      · rfl
    simp only [Cabinet.act, foldEntries_eq, hend]
    exact foldRun_commits R t _ entries c.commits (hstart ▸ h.commits)

theorem Written.act (h : c.Written) (d : Doing) : (c.act d).Written := by
  cases d with
  | fold R t timeline since entries => exact h.fold R t timeline since entries
  | noteCommits C entries =>
    have hrest := noteCommits_rest (C := C) c.shelf entries
    exact ⟨(congrArg Shelf.message hrest :) ▸ h.messages,
      (congrArg Shelf.history hrest :) ▸ h.history, h.stranded, h.commits.note entries⟩
  | post e plain =>
    have hrest : (c.shelf.posted e plain).message = (c.shelf.putMessage e.seq
        ⟨e.account, e.posted, kindMember, some plain⟩).message ∧
        (c.shelf.posted e plain).history = c.shelf.history ∧
        (c.shelf.posted e plain).commitment = c.shelf.commitment := by
      rw [Shelf.posted]
      split_ifs <;> exact ⟨rfl, rfl, rfl⟩
    refine ⟨?_, ?_, h.stranded, ?_⟩
    · simp only [Cabinet.act, hrest.1]
      exact h.messages.insert e (r := ⟨e.account, e.posted, kindMember, some plain⟩) rfl rfl
    · simp only [Cabinet.act, hrest.2.1]
      exact h.history
    · simp only [Cabinet.act, hrest.2.2]
      exact h.commits
  | redact target =>
    refine ⟨h.messages.redact target, by simpa [Cabinet.act] using h.history, h.stranded, ?_⟩
    simp only [Cabinet.act, Shelf.redactMessage]
    split <;> exact h.commits
  | beside other => exact { h with }
  | reset origin =>
    refine ⟨fun seq row hrow => by simp [Cabinet.act, Shelf.reset] at hrow, fun a ha => ?_,
      h.stranded, ?_⟩
    · simp only [Cabinet.act, Shelf.reset, Shelf.archived] at ha
      split_ifs at ha
      · exact (h.history a ha).mono (List.subset_append_left _ _)
      · rcases Runs.mem_concat.mp ha with hold | rfl
        · exact (h.history a hold).mono (List.subset_append_left _ _)
        · exact h.messages.mono (List.subset_append_right _ _)
    · simp only [Cabinet.act, Shelf.reset, Shelf.archived]
      split_ifs <;> exact h.commits
  | importEarlier C v bound origin entries =>
    have hrest := importEarlier_rest C v bound origin c.shelf entries
    exact ⟨(congrArg Shelf.message hrest :) ▸ h.messages,
      importEarlier_rows C v bound origin h.history, h.stranded,
      (congrArg Shelf.commitment hrest :) ▸ h.commits⟩
  | forkFound R x =>
    refine ⟨fun seq row hrow => ?_, h.history, fun seq row hrow => ?_, h.commits⟩
    · simp only [Cabinet.act, Shelf.truncated, lookup_filter_key] at hrow
      split_ifs at hrow with hbelow
      obtain ⟨e, he, rfl, hof⟩ := h.messages seq row hrow
      exact ⟨e, List.mem_filter.mpr ⟨he, hbelow⟩, rfl, hof⟩
    · cases putStranded_posted hrow with
      | inl hold =>
        obtain ⟨e, he, hof⟩ := h.stranded seq row hold
        exact ⟨e, List.mem_append_left _ he, hof⟩
      | inr hnew =>
        obtain ⟨r, hr, rfl, hposted⟩ := hnew
        have hheld := ExtTreeMap.mem_toList_iff_getElem?_eq_some.mp (List.mem_of_mem_filter hr)
        obtain ⟨e, he, hseq, -, hof⟩ := h.messages r.1 r.2 hheld
        refine ⟨e, List.mem_append_right _ (List.mem_filter.mpr ⟨he, ?_⟩), hseq, hposted.trans hof⟩
        simpa [hseq] using ⟨r.2, hr⟩
  | dropStranded seq =>
    refine { h with stranded := fun n row hrow => h.stranded n row ?_ }
    simp only [Cabinet.act, ExtTreeMap.getElem?_erase] at hrow
    split_ifs at hrow
    exact hrow

theorem Written.expire (h : c.Written) (now : UInt64) :
    (c.expireTimed now).Written where
  messages := by
    intro seq row hrow
    rw [(expireTimed_kept c now seq).1] at hrow
    split_ifs at hrow with hout
    obtain ⟨e, he, rfl, hof⟩ := h.messages seq row hrow
    exact ⟨e, List.mem_filter.mpr ⟨he, by simpa using hout⟩, rfl, hof⟩
  history := h.history
  stranded := h.stranded
  commits := h.commits

end Cabinet

end Sqex.Chat
