import Sqex.Chat.Fold
import Sqex.Lib.Runs

/-! Whether a fork verdict is evidence, and whether a fork is ever missed, over any split of a
log into batches. -/
namespace Sqex.Chat
open Runs

/-- A fetch or an import of entries of one incarnation: what they are judged under, and the
store and timeline they are folded into. -/
structure Batch where
  keys : List PubKey
  bound : Bindings
  admins : List PubKey
  keepSigned : Bool
  shelf : Shelf
  timeline : Timeline
  since : UInt64
  entries : List Served

namespace Batch

def sight (channel inst : Bytes32) (b : Batch) : Sight := ⟨b.keys, channel, inst⟩

def fold (R : Reader) (channel inst : Bytes32) (b : Batch) : Folding :=
  foldEntries R ⟨b.sight channel inst, b.bound, b.admins, b.keepSigned⟩ b.shelf b.timeline b.since
    b.entries

end Batch

abbrev Judged := List (Entry × Verdict)

def judgeBatch (R : Reader) (channel inst : Bytes32) (j : Judged) (b : Batch) : Judged :=
  j ++ (b.fold R channel inst).judged

def SamePosition (e e' : Entry) : Prop := e'.device = e.device ∧ e'.chainSeq = e.chainSeq

instance (e e' : Entry) : Decidable (SamePosition e e') := inferInstanceAs (Decidable (_ ∧ _))

def Signed (p : Entry × Verdict) : Prop := p.1.kind ≠ kindSystem ∧ p.2 ≠ .forged

instance : DecidablePred Signed := fun _ => inferInstanceAs (Decidable (_ ∧ _))

/-- A fork verdict has another entry at the position beside it, and two different entries at
a position have a fork verdict between them. -/
structure Evident (j : Judged) : Prop where
  evidence : ∀ e, (e, .fork) ∈ j → ∃ p ∈ j, p.1 ≠ e ∧ Signed p ∧ SamePosition e p.1
  noticed : ∀ p ∈ j, ∀ p' ∈ j, Signed p → Signed p' → SamePosition p.1 p'.1 → p.1 ≠ p'.1 →
    ∃ q ∈ j, (q.1 = p.1 ∨ q.1 = p'.1) ∧ q.2 = .fork

section
variable (C : Crypto) (v : Sight) (bound : Bindings)

def Attested (e : Entry) : Prop :=
  e.kind ≠ kindSystem ∧ (signedUnder C v e).isSome = true ∧ attribution bound e ≠ some .forged

def Chained (e : Entry) : Prop :=
  e.kind ≠ kindSystem ∧ (signedUnder C v e).isSome = true ∧ attribution bound e = none

def linkUnder (e : Entry) : Option Bytes32 :=
  (signedUnder C v e).map fun place => link C ((e.terms place).inputHashed C e.bodyHash)

instance : DecidablePred (Chained C v bound) := fun _ => inferInstanceAs (Decidable (_ ∧ _ ∧ _))

/-- The first, of those the chain judges, at an entry's position. -/
def firstAt (pre : List Entry) (e : Entry) : Option Entry :=
  pre.find? fun e' => decide (Chained C v bound e' ∧ SamePosition e e')

/-- An entry in its turn, after those of its batch before it: above its device's others, and
linked where it is the next to the first at a position; or at the position of another of them. -/
def InTurn (pre : List Entry) (e : Entry) : Prop :=
  (∀ e' ∈ pre, Chained C v bound e' → e'.device = e.device → e'.chainSeq < e.chainSeq ∧
      (firstAt C v bound pre e' = some e' → e.chainSeq = e'.chainSeq + 1 →
        linkUnder C v e' = some e.prev)) ∨
    ∃ e' ∈ pre, e' ≠ e ∧ Chained C v bound e' ∧ SamePosition e e'

def Endless (pre : List Entry) (device : PubKey) : Prop :=
  ∀ e ∈ pre, Chained C v bound e → e.device = device → e.chainSeq.toNat + 1 < 2 ^ 64

/-- Entries at one position are one entry, or come in one batch and are both judged by the
chain, which has not come to its end. -/
def Together (j : Judged) (pre : List Entry) (e : Entry) : Prop :=
  (∀ p ∈ j, Signed p → SamePosition e p.1 → p.1 = e) ∧
    ∀ e' ∈ pre, Attested C v bound e' → SamePosition e e' → e' = e ∨
      (Chained C v bound e' ∧ Chained C v bound e ∧
        Endless C v bound pre e.device)

def Orderly (j : Judged) : List Entry → List Entry → Prop
  | _, [] => True
  | pre, e :: es =>
    ((Chained C v bound e → InTurn C v bound pre e) ∧
      (Attested C v bound e → Together C v bound j pre e)) ∧ Orderly j (pre ++ [e]) es

instance : DecidablePred (Attested C v bound) := fun _ => inferInstanceAs (Decidable (_ ∧ _ ∧ _))

instance (pre : List Entry) (e : Entry) : Decidable (InTurn C v bound pre e) :=
  inferInstanceAs (Decidable (_ ∨ _))

instance (pre : List Entry) (device : PubKey) : Decidable (Endless C v bound pre device) :=
  inferInstanceAs (Decidable (∀ e ∈ pre, Chained C v bound e → e.device = device →
    e.chainSeq.toNat + 1 < 2 ^ 64))

instance (j : Judged) (pre : List Entry) (e : Entry) : Decidable (Together C v bound j pre e) :=
  inferInstanceAs (Decidable (_ ∧ _))

instance Orderly.instDecidable (j : Judged) :
    (pre es : List Entry) → Decidable (Orderly C v bound j pre es)
  | _, [] => inferInstanceAs (Decidable True)
  | pre, e :: es =>
    have := Orderly.instDecidable j (pre ++ [e]) es
    inferInstanceAs (Decidable (_ ∧ Orderly C v bound j (pre ++ [e]) es))

def judgeAll : Chains → List Entry → Judged
  | _, [] => []
  | chains, e :: es =>
    (e, (verdictFor C v bound e chains).1) :: judgeAll (verdictFor C v bound e chains).2 es

end

section
variable (R : Reader) (t : Terms) (f : Folding)

theorem foldRun_judged (entries : List Served) :
    (foldRun R t f entries).judged = f.judged ++ judgeAll R.crypto t.sight t.bound f.chains
      ((passing R.crypto f.replay entries).map Served.entry) := by
  refine foldRun_rule (P := fun f passed after => after.judged = f.judged ++
    judgeAll R.crypto t.sight t.bound f.chains (passed.map Served.entry))
    (fun _ => by simp [judgeAll]) (fun _ _ _ _ h => h) (fun f i is after hskip ih => ?_) f entries
  rw [ih]
  simp only [Folding.take, if_neg hskip, Folding.judge_judged, Folding.judge_chains,
    List.map_cons, judgeAll, List.append_assoc, List.singleton_append]

end

theorem judgeBatch_eq (R : Reader) (channel inst : Bytes32) (j : Judged) (b : Batch) :
    judgeBatch R channel inst j b = j ++ judgeAll R.crypto (b.sight channel inst) b.bound
      (fun _ => none) ((passing R.crypto b.shelf.seen b.entries).map Served.entry) := by
  have hseen : ∀ s : Shelf, (Folding.start s b.timeline b.since).judged = [] ∧
      (Folding.start s b.timeline b.since).replay = s.seen := fun _ => ⟨rfl, rfl⟩
  simp only [judgeBatch, Batch.fold, foldEntries]
  rw [apply_ite Folding.judged, ite_self, foldRun_judged]
  simp only [Folding.start, List.nil_append]
  split_ifs <;> rfl

section
variable {C : Crypto} {v : Sight} {bound : Bindings} {e : Entry} {ch : Chains}

theorem verdictFor_chained (h : Chained C v bound e) :
    ∃ place, signedUnder C v e = some place ∧ verdictFor C v bound e ch = chained C place e ch := by
  obtain ⟨hkind, hsigned, hown⟩ := h
  obtain ⟨place, hplace⟩ := Option.isSome_iff_exists.mp hsigned
  exact ⟨place, hplace, by simp only [verdictFor, if_neg hkind, hplace, hown]⟩

/-- What is said of an entry whose device is not its account is never of its chain. -/
theorem attribution_said {verdict : Verdict} (h : attribution bound e = some verdict) :
    verdict = .forged ∨ verdict = .unattributed := by
  simp only [attribution] at h
  grind

theorem verdictFor_unchained (h : ¬Chained C v bound e) :
    (verdictFor C v bound e ch).2 = ch ∧ (verdictFor C v bound e ch).1 ≠ .fork := by
  simp only [verdictFor]
  split
  · simp
  · rename_i hkind
    split
    · simp
    · rename_i place hplace
      split
      · rename_i verdict hsaid
        rcases attribution_said hsaid with rfl | rfl <;> simp
      · rename_i hown
        exact absurd ⟨hkind, by simp [hplace], hown⟩ h

theorem chained_fork {place : Place} : (chained C place e ch).1 = .fork ↔
    ∃ seq head, ch e.device = some (seq, head) ∧ ¬(e.chainSeq = seq ∧ e.prev = head) ∧
      e.chainSeq ≤ seq := by
  simp only [chained]
  grind

theorem signed_verdictFor : Signed (e, (verdictFor C v bound e ch).1) ↔ Attested C v bound e := by
  simp only [Signed, Attested, verdictFor]
  by_cases hkind : e.kind = kindSystem
  · simp [hkind]
  · cases hplace : signedUnder C v e with
    | none => simp [hkind]
    | some place =>
      cases hsaid : attribution bound e with
      | none => simp [hkind, chained_ne_forged]
      | some verdict => simp [hkind]

theorem Chained.attested (h : Chained C v bound e) : Attested C v bound e :=
  ⟨h.1, h.2.1, by simp [h.2.2]⟩

end

/-! Where the chains of a batch stand. -/

section
variable (C : Crypto) (v : Sight) (bound : Bindings)

/-- Every mark is one that an entry left, and stands above every entry that was judged by it. -/
structure Followed (pre : List Entry) (ch : Chains) : Prop where
  left : ∀ d seq head, ch d = some (seq, head) →
    ∃ e ∈ pre, Chained C v bound e ∧ e.device = d ∧ seq = e.chainSeq + 1 ∧
      linkUnder C v e = some head ∧ (Endless C v bound pre d → firstAt C v bound pre e = some e)
  above : ∀ e ∈ pre, Chained C v bound e → Endless C v bound pre e.device →
    ∃ seq head, ch e.device = some (seq, head) ∧ e.chainSeq < seq

variable {C v bound} {pre : List Entry} {e : Entry} {ch : Chains}

/-- Where the chain stands after an entry: where the entry left it, or, where that would be
behind, where it stood. -/
theorem chained_moves {place : Place} (hplace : signedUnder C v e = some place) :
    (∃ head, linkUnder C v e = some head ∧
        (chained C place e ch).2 = Function.update ch e.device (some (e.chainSeq + 1, head)) ∧
        ∀ seq head, ch e.device = some (seq, head) → seq ≤ e.chainSeq) ∨
      ((chained C place e ch).2 = ch ∧
        ∃ seq head, ch e.device = some (seq, head) ∧ e.chainSeq < seq) := by
  have hlink : linkUnder C v e = some (link C ((e.terms place).inputHashed C e.bodyHash)) := by
    rw [linkUnder, hplace]
    rfl
  simp only [chained]
  cases hmark : ch e.device with
  | none => exact Or.inl ⟨_, hlink, rfl, by simp⟩
  | some mark =>
    obtain ⟨seq, head⟩ := mark
    simp only
    split_ifs with hnext hbehind hhere
    · exact Or.inl ⟨_, hlink, rfl, by grind⟩
    · exact Or.inl ⟨_, hlink, rfl, by grind⟩
    · exact Or.inr ⟨rfl, seq, head, rfl, by grind⟩
    · exact Or.inl ⟨_, hlink, rfl, by grind⟩

theorem followed_start : Followed C v bound [] fun _ => none where
  left := by simp
  above := by simp

theorem Endless.of_append {device : PubKey} (h : Endless C v bound (pre ++ [e]) device) :
    Endless C v bound pre device := fun e' he' => h e' (by simp [he'])

theorem Followed.left_append (h : Followed C v bound pre ch) {d : PubKey} {seq : UInt64}
    {head : Bytes32} (hmark : ch d = some (seq, head)) :
    ∃ e' ∈ pre ++ [e], Chained C v bound e' ∧ e'.device = d ∧ seq = e'.chainSeq + 1 ∧
      linkUnder C v e' = some head ∧
        (Endless C v bound (pre ++ [e]) d → firstAt C v bound (pre ++ [e]) e' = some e') := by
  obtain ⟨e', he', hin, hdevice, hseq, hlink, hfirst⟩ := h.left d seq head hmark
  refine ⟨e', by simp [he'], hin, hdevice, hseq, hlink, fun hend => ?_⟩
  have hhere : pre.find? (fun e'' => decide (Chained C v bound e'' ∧ SamePosition e' e'')) =
    some e' := hfirst hend.of_append
  rw [firstAt, List.find?_append, hhere, Option.some_or]

theorem Followed.stays (h : Followed C v bound pre ch) (hout : ¬Chained C v bound e) :
    Followed C v bound (pre ++ [e]) ch where
  left _ _ _ := h.left_append
  above e' he' hin hend := by
    rcases mem_concat.mp he' with hpre | rfl
    · exact h.above e' hpre hin hend.of_append
    · exact absurd hin hout

/-- An entry the chain judges leaves a mark, or is behind the one there is. -/
theorem Followed.moves {place : Place} (h : Followed C v bound pre ch)
    (hin : Chained C v bound e) (hplace : signedUnder C v e = some place) :
    Followed C v bound (pre ++ [e]) (chained C place e ch).2 := by
  rcases @chained_moves C v e ch place hplace with ⟨link, hlink, hch, hbehind⟩ | ⟨hch, hahead⟩
  · rw [hch]
    refine ⟨fun d seq head hmark => ?_, fun e' he' hin' hend => ?_⟩
    · by_cases hd : d = e.device
      · subst hd
        simp only [Function.update_self, Option.some.injEq, Prod.mk.injEq] at hmark
        refine ⟨e, by simp, hin, rfl, hmark.1.symm, by rw [← hmark.2]; exact hlink, fun hend => ?_⟩
        have hnone : pre.find? (fun e' => decide (Chained C v bound e' ∧ SamePosition e e')) =
            none := by
          simp only [List.find?_eq_none, decide_eq_true_eq]
          rintro e' he' ⟨hin', hdevice, hsame⟩
          obtain ⟨seq, head, hmark, hlt⟩ := h.above e' he' hin' (hdevice ▸ hend.of_append)
          exact absurd (hsame ▸ hbehind seq head (hdevice ▸ hmark)) (UInt64.not_le.mpr hlt)
        rw [firstAt, List.find?_append, hnone]
        simp [hin, SamePosition]
      · rw [Function.update_of_ne hd] at hmark
        exact h.left_append hmark
    · by_cases hd : e'.device = e.device
      · have hfits : e.chainSeq.toNat + 1 < 2 ^ 64 := hend e (by simp) hin hd.symm
        have hnext : e.chainSeq < e.chainSeq + 1 := by
          rw [UInt64.lt_iff_toNat_lt, UInt64.toNat_add]
          simp
          omega
        refine ⟨e.chainSeq + 1, link, by rw [hd, Function.update_self], ?_⟩
        rcases mem_concat.mp he' with hpre | rfl
        · obtain ⟨seq, head, hmark, hlt⟩ := h.above e' hpre hin' hend.of_append
          have hle := hbehind seq head (hd ▸ hmark)
          grind
        · exact hnext
      · rw [Function.update_of_ne hd]
        rcases List.mem_append.mp he' with hpre | hlast
        · exact h.above e' hpre hin' hend.of_append
        · exact absurd (by rw [List.mem_singleton.mp hlast]) hd
  · rw [hch]
    refine ⟨fun d seq head hmark => ?_, fun e' he' hin' hend => ?_⟩
    · exact h.left_append hmark
    · rcases mem_concat.mp he' with hpre | rfl
      · exact h.above e' hpre hin' hend.of_append
      · exact hahead

theorem Followed.judged (h : Followed C v bound pre ch) (e : Entry) :
    Followed C v bound (pre ++ [e]) (verdictFor C v bound e ch).2 := by
  by_cases hin : Chained C v bound e
  · obtain ⟨place, hplace, hverdict⟩ := @verdictFor_chained C v bound e ch hin
    rw [hverdict]
    exact h.moves hin hplace
  · rw [(verdictFor_unchained hin).1]
    exact h.stays hin

theorem Followed.forked (h : Followed C v bound pre ch) (hin : Chained C v bound e)
    (hturn : InTurn C v bound pre e) (hfork : (verdictFor C v bound e ch).1 = .fork) :
    ∃ e' ∈ pre, e' ≠ e ∧ Chained C v bound e' ∧ SamePosition e e' := by
  rcases hturn with hturn | hbeside
  · exfalso
    obtain ⟨place, hplace, hverdict⟩ := @verdictFor_chained C v bound e ch hin
    rw [hverdict] at hfork
    obtain ⟨seq, head, hmark, hnext, hbehind⟩ := chained_fork.mp hfork
    obtain ⟨e', he', hin', hdevice, rfl, hleft, hfirst⟩ := h.left _ _ _ hmark
    obtain ⟨hlt, hlinked⟩ := hturn e' he' hin' hdevice
    have hend : Endless C v bound pre e.device := fun e'' he'' hin'' hd => by
      have hlt := UInt64.lt_iff_toNat_lt.mp (hturn e'' he'' hin'' hd).1
      have hmax := e.chainSeq.toNat_lt
      omega
    have hseq : e.chainSeq = e'.chainSeq + 1 := by
      rw [UInt64.lt_iff_toNat_lt] at hlt
      rw [UInt64.le_iff_toNat_le, UInt64.toNat_add] at hbehind
      apply UInt64.toNat_inj.mp
      rw [UInt64.toNat_add]
      have hmax := e.chainSeq.toNat_lt
      simp at hbehind ⊢
      omega
    rw [hlinked (hfirst hend) hseq, Option.some.injEq] at hleft
    exact hnext ⟨hseq, hleft⟩
  · exact hbeside

theorem Followed.passed (h : Followed C v bound pre ch) (hin : Chained C v bound e) {e' : Entry}
    (he' : e' ∈ pre) (hin' : Chained C v bound e') (hsame : SamePosition e e')
    (hend : Endless C v bound pre e.device) : (verdictFor C v bound e ch).1 = .fork := by
  obtain ⟨seq, head, hmark, hlt⟩ := h.above e' he' hin' (hsame.1 ▸ hend)
  obtain ⟨place, hplace, hverdict⟩ := @verdictFor_chained C v bound e ch hin
  rw [hsame.1] at hmark
  rw [hsame.2] at hlt
  rw [hverdict, chained_fork]
  exact ⟨seq, head, hmark, by grind, by grind⟩

end

theorem SamePosition.symm {e e' : Entry} (h : SamePosition e e') : SamePosition e' e :=
  ⟨h.1.symm, h.2.symm⟩

theorem Evident.add {j : Judged} {q : Entry × Verdict} (h : Evident j)
    (hevidence : q.2 = .fork → ∃ p ∈ j, p.1 ≠ q.1 ∧ Signed p ∧ SamePosition q.1 p.1)
    (hnoticed : Signed q → ∀ p ∈ j, Signed p → SamePosition q.1 p.1 → p.1 ≠ q.1 → q.2 = .fork) :
    Evident (j ++ [q]) where
  evidence e hfork := by
    rcases mem_concat.mp hfork with hbefore | rfl
    · obtain ⟨p, hp, hother⟩ := h.evidence e hbefore
      exact ⟨p, by simp [hp], hother⟩
    · obtain ⟨p, hp, hother⟩ := hevidence rfl
      exact ⟨p, by simp [hp], hother⟩
  noticed p hp p' hp' hsigned hsigned' hsame hne := by
    rcases mem_concat.mp hp with hbefore | rfl
    · rcases mem_concat.mp hp' with hbefore' | rfl
      · obtain ⟨r, hr, hforked⟩ := h.noticed p hbefore p' hbefore' hsigned hsigned' hsame hne
        exact ⟨r, by simp [hr], hforked⟩
      · exact ⟨p', by simp, Or.inr rfl, hnoticed hsigned' p hbefore hsigned hsame.symm hne⟩
    · rcases mem_concat.mp hp' with hbefore' | rfl
      · exact ⟨p, by simp, Or.inl rfl, hnoticed hsigned p' hbefore' hsigned' hsame hne.symm⟩
      · exact absurd rfl hne

section
variable (C : Crypto) (v : Sight) (bound : Bindings)

structure Underway (j done : Judged) (ch : Chains) : Prop where
  evident : Evident (j ++ done)
  signed : ∀ p ∈ done, Signed p ↔ Attested C v bound p.1
  followed : Followed C v bound (done.map Prod.fst) ch

variable {C v bound} {j done : Judged} {ch : Chains}

theorem Underway.judged {e : Entry} (h : Underway C v bound j done ch)
    (hturn : Chained C v bound e → InTurn C v bound (done.map Prod.fst) e)
    (htogether : Attested C v bound e → Together C v bound j (done.map Prod.fst) e) :
    Underway C v bound j (done ++ [(e, (verdictFor C v bound e ch).1)])
      (verdictFor C v bound e ch).2 where
  evident := by
    rw [← List.append_assoc]
    apply h.evident.add
    · intro hfork
      have hin : Chained C v bound e := not_not.mp fun hout => (verdictFor_unchained hout).2 hfork
      obtain ⟨e', he', hne, hin', hsame⟩ := h.followed.forked hin (hturn hin) hfork
      obtain ⟨p, hp, rfl⟩ := List.mem_map.mp he'
      exact ⟨p, by simp [hp], hne, (h.signed p hp).mpr hin'.attested, hsame⟩
    · intro hsigned p hp hsigned' hsame hne
      obtain ⟨hearlier, hbeside⟩ := htogether (signed_verdictFor.mp hsigned)
      rcases List.mem_append.mp hp with hp | hp
      · exact absurd (hearlier p hp hsigned' hsame) hne
      · have hpre : p.1 ∈ done.map Prod.fst := List.mem_map_of_mem hp
        obtain ⟨hin', hin, hend⟩ :=
          (hbeside p.1 hpre ((h.signed p hp).mp hsigned') hsame).resolve_left hne
        exact h.followed.passed hin hpre hin' hsame hend
  signed p hp := by
    rcases mem_concat.mp hp with hp | rfl
    · exact h.signed p hp
    · exact signed_verdictFor
  followed := by
    rw [List.map_append]
    exact h.followed.judged e

theorem Underway.judgedAll {es : List Entry} (h : Underway C v bound j done ch)
    (horderly : Orderly C v bound j (done.map Prod.fst) es) :
    Evident (j ++ done ++ judgeAll C v bound ch es) := by
  induction es generalizing done ch with
  | nil => simpa [judgeAll] using h.evident
  | cons e es ih =>
    obtain ⟨⟨hturn, htogether⟩, hrest⟩ := horderly
    have hnext := ih (h.judged hturn htogether) (by simpa using hrest)
    simpa [judgeAll] using hnext

end

def inOrder (R : Reader) (channel inst : Bytes32) (j : Judged) (b : Batch) : Prop :=
  Orderly R.crypto (b.sight channel inst) b.bound j []
    ((passing R.crypto b.shelf.seen b.entries).map Served.entry)

instance (R : Reader) (channel inst : Bytes32) (j : Judged) (b : Batch) :
    Decidable (inOrder R channel inst j b) :=
  inferInstanceAs (Decidable (Orderly R.crypto (b.sight channel inst) b.bound j [] _))

theorem judgeBatch_evident (R : Reader) (channel inst : Bytes32) (j : Judged) (b : Batch)
    (h : Evident j) (horder : inOrder R channel inst j b) :
    Evident (judgeBatch R channel inst j b) := by
  have hstart : Underway R.crypto (b.sight channel inst) b.bound j [] fun _ => none :=
    ⟨by simpa using h, by simp, followed_start⟩
  rw [judgeBatch_eq]
  simpa using hstart.judgedAll horder

theorem evident_start : Evident [] := ⟨by simp, by simp⟩

/-- However a log is split into batches, where every batch is in order a fork verdict is
evidence and no fork is missed. -/
theorem forks_evident (R : Reader) (channel inst : Bytes32) (batches : List Batch)
    (h : Each (inOrder R channel inst) (judgeBatch R channel inst) [] batches) :
    Always Evident (judgeBatch R channel inst) [] batches :=
  h.always (fun j b hj hb => judgeBatch_evident R channel inst j b hj hb) evident_start

def postChained (seq msgSeq chainSeq : UInt64) (prev : Bytes32) (body : Bytes)
    (bodyHash : Bytes32) : Entry :=
  let e : Entry := {
    seq := seq, kind := kindMember, account := 4, device := 4, posted := 9, expiresAfter := 0,
    epoch := 0, msgSeq := msgSeq, chainSeq := chainSeq, prev := prev, bodyHash := bodyHash,
    sig := 0, stamp := none, body := body }
  { e with sig := Crypto.toy.sign 3 ((e.terms ⟨9, 1, 2⟩).input Crypto.toy) }

/-- The link a post leaves, over the hash of its body. -/
def linkChained (e : Entry) : Bytes32 := link Crypto.toy ((e.terms ⟨9, 1, 2⟩).input Crypto.toy)

def readerChained : Reader := ⟨Crypto.toy, fun _ => none⟩

def batchOf (entries : List Entry) : Batch where
  keys := [9]
  bound := fun _ => none
  admins := []
  keepSigned := false
  shelf := .empty
  timeline := .new
  since := 0
  entries := entries.map fun e => ⟨10, e⟩

def forkedBatches : List Batch :=
  let first := postChained 1 1 0 genesis [5] (Crypto.toy.sha256 [5])
  let other := postChained 2 2 0 genesis [6] (Crypto.toy.sha256 [6])
  let next := postChained 3 3 1 (linkChained first) [7] (Crypto.toy.sha256 [7])
  [batchOf [first, other, next],
    batchOf [postChained 4 4 2 (linkChained next) [8] (Crypto.toy.sha256 [8])]]

theorem forks_evident_noticed :
    ((judgeBatch readerChained 2 1 [] (forkedBatches.headD (batchOf []))).map Prod.snd =
        [.valid, .fork, .valid]) ∧
      Always Evident (judgeBatch readerChained 2 1) [] forkedBatches :=
  ⟨by decide +kernel, forks_evident _ _ _ _ (by decide +kernel)⟩

/-- A post served with a hash that is not its body's makes a fork of the next. -/
theorem forks_not_evident : ¬∀ (R : Reader) (channel inst : Bytes32) (batches : List Batch),
    Always Evident (judgeBatch R channel inst) [] batches := by
  intro h
  let first := postChained 1 1 0 genesis [5] 0
  let next := postChained 2 2 1 (linkChained first) [6] (Crypto.toy.sha256 [6])
  have hevident := (h readerChained 2 1 [batchOf [first, next]]).2.start
  have hjudged : judgeBatch readerChained 2 1 [] (batchOf [first, next]) =
      [(first, .valid), (next, .fork)] := by decide +kernel
  rw [hjudged] at hevident
  obtain ⟨p, hp, hne, -, hsame⟩ := hevident.evidence next (by simp)
  revert p
  decide +kernel

end Sqex.Chat
