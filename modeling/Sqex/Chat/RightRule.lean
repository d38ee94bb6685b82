import Sqex.Chat.Collecting

/-! Whether each envelope is read under the rule it was sealed under, whatever the order in
which keys and commits are put, entries are served and envelopes are collected. -/
namespace Sqex.Chat
open Std ChannelKey Runs
variable {c : Commit} {epoch : UInt32} {entries : List Served} {envelopes : List Envelope}
  {forged : Entry → Bool}

/-- The rule a commit's envelopes, or an admin's, are sealed under for an account. -/
def ruleOf (me : PubKey) (commits : List Commit) : Rule :=
  if commits.any (·.admits me) then .welcome
  else if commits = [] then .epochKeys
  else .secret

structure Keyed where
  epoch : UInt32
  commits : List Commit
  sealed : List (Envelope × Rule)
  device : Collecting

def Keyed.fresh (pool : Pool) : Keyed := ⟨0, [], [], ⟨.empty, pool, 0, []⟩⟩

inductive KeyStep where
  /-- A committer puts the envelopes of its commit. The entry comes after, or never. -/
  | putCommit (c : Commit) (envelopes : List Envelope)
  /-- An admin puts keys: of the next epoch, or of the one in force for somebody new. -/
  | putKeys (epoch : UInt32) (envelopes : List Envelope)
  | poll (since last : UInt64) (epoch : UInt32) (entries : List Served) (served : List Envelope)
  | catchup (since : UInt64) (fetched : Option (List Served × UInt64)) (served : List Envelope)
  | collectKeys (last : UInt64) (asked : Option (List Served × UInt64)) (served : List Envelope)
  /-- Whatever else the client does to its store, and the prekeys it mints. -/
  | otherwise (shelf : Shelf) (pool : Pool)

section
variable (C : Crypto) (u : Unsealer)

section
variable (forged : Entry → Bool) (k : Keyed)

/-- Envelopes put at an epoch: each ends there, and none was opened before it was sealed. -/
def Keyed.Sealable (epoch : UInt32) (envelopes : List Envelope) : Prop :=
  ∀ e ∈ envelopes, e.toEpoch = epoch ∧ e ∉ k.device.read.map Prod.fst

instance (k : Keyed) (epoch : UInt32) (envelopes : List Envelope) :
    Decidable (k.Sealable epoch envelopes) := inferInstanceAs (Decidable (∀ e ∈ _, _ ∧ _))

def keyStep : KeyStep → Keyed
  | .putCommit c envelopes =>
    if c.epoch.toNat = k.epoch.toNat + 1 ∧ k.Sealable c.epoch envelopes then
      { k with
        epoch := c.epoch
        commits := k.commits ++ [c]
        sealed := k.sealed ++ envelopes.map fun e => (e, ruleOf u.me [c]) }
    else k
  | .putKeys epoch envelopes =>
    if (epoch = k.epoch ∨ epoch.toNat = k.epoch.toNat + 1) ∧ k.Sealable epoch envelopes then
      { k with
        epoch := epoch
        sealed := k.sealed ++ envelopes.map fun e => (e, .epochKeys) }
    else k
  | .poll since last epoch entries served =>
    { k with device := k.device.poll C u since last epoch entries served }
  | .catchup since fetched served => { k with device := k.device.catchup C u since fetched served }
  | .collectKeys last asked served =>
    { k with device := k.device.collectKeys C u last asked served }
  | .otherwise shelf pool => { k with device := { k.device with shelf := shelf, pool := pool } }

def Keyed.Right : Prop :=
  ∀ e r r', (e, r) ∈ k.device.read → (e, r') ∈ k.sealed → r = r'

def Genuine (entries : List Served) : Prop :=
  ∀ i ∈ entries, ∀ c, commitOf C i.entry = some c → c ∈ k.commits

/-- A device that holds no chain and knows of no commit, and takes the log for read, is served
no envelope of a commit. -/
def Foretold (s : Shelf) (settled : Bool) (served : List Envelope) : Prop :=
  agreedChannel s.agreement s = false → settled = true →
    ∀ e ∈ served, ∀ r, (e, r) ∈ k.sealed → r = .epochKeys

def Fetched (since last : UInt64) (entries : List Served) (served : List Envelope) : Prop :=
  Genuine C k entries ∧
    Foretold k (noteCommits C k.device.shelf entries) (reached since entries last) served

def Foreseen : KeyStep → Prop
  | .putCommit _ _ => True
  | .putKeys epoch _ => ∀ c ∈ k.commits, c.epoch ≠ epoch
  | .poll since last _ entries served => Fetched C k since last entries served
  | .catchup _ none served => Foretold k k.device.shelf true served
  | .catchup since (some (entries, last)) served => Fetched C k since last entries served
  | .collectKeys last asked served =>
    if k.device.shelf.since ≥ last then Foretold k k.device.shelf true served
    else ∀ entries last', asked = some (entries, last') →
      Fetched C k k.device.shelf.since last' entries served
  | .otherwise shelf _ => ∀ epoch, ∀ c ∈ shelf.commitsAt epoch, c ∈ k.commits

def KeyStep.without : KeyStep → KeyStep
  | .poll since last epoch entries served =>
    .poll since last epoch (entries.filter fun i => !forged i.entry) served
  | .catchup since fetched served =>
    .catchup since (fetched.map fun f => (f.1.filter fun i => !forged i.entry, f.2)) served
  | .collectKeys last asked served =>
    .collectKeys last (asked.map fun f => (f.1.filter fun i => !forged i.entry, f.2)) served
  | step => step

/-- The forged entries carry no signed commit, and none of them is what the log is taken for
read by. -/
def Inert (since last : UInt64) (entries : List Served) : Prop :=
  (∀ i ∈ entries, forged i.entry = true → commitOf C i.entry = none) ∧
    reached since (entries.filter fun i => !forged i.entry) last = reached since entries last

def Unswayed : KeyStep → Prop
  | .poll since last _ entries _ => Inert C forged since last entries
  | .catchup since (some (entries, last)) _ => Inert C forged since last entries
  | .collectKeys _ (some (entries, last)) _ =>
    Inert C forged k.device.shelf.since last entries
  | _ => True

end

end

section
variable {C : Crypto} {u : Unsealer} {held : Option Agreement.Chain} {settled : Bool}
  {s : Collecting} {e : Envelope} {k : Keyed}

theorem ruleOf_nil (me : PubKey) : ruleOf me [] = .epochKeys := rfl

theorem ruleOf_eq {me : PubKey} {commits : List Commit} (hne : commits ≠ [])
    (hall : ∀ c' ∈ commits, c' = c) : ruleOf me commits = ruleOf me [c] := by
  obtain ⟨c', hc'⟩ := List.exists_mem_of_ne_nil _ hne
  have hmem : c ∈ commits := hall c' hc' ▸ hc'
  have hany : commits.any (·.admits me) = c.admits me := by
    cases hc : c.admits me with
    | true => exact List.any_eq_true.mpr ⟨c, hmem, hc⟩
    | false => exact List.any_eq_false.mpr fun c' hc' => by simp [hall c' hc', hc]
  simp [ruleOf, hany, hne]

theorem advanceTo_commitment (ceiling : UInt32) (fuel : Nat) (chain : Agreement.Chain)
    (s : Shelf) : (advanceTo C ceiling fuel chain s).2.commitment = s.commitment := by
  induction fuel generalizing chain s with
  | zero => rfl
  | succ fuel ih =>
    simp only [advanceTo]
    split
    · split
      · rfl
      · split
        · rfl
        · exact ih _ _
    · rfl

theorem advanceAgreement_commitment (s : Shelf) :
    (advanceAgreement C s).commitment = s.commitment := by
  simp only [advanceAgreement]
  split
  · rfl
  · exact advanceTo_commitment _ _ _ s

theorem putKeys_commitment (s : Shelf) (keys : List (UInt32 × Bytes32)) :
    (s.putKeys keys).commitment = s.commitment := by
  induction keys generalizing s with
  | nil => rfl
  | cons key keys ih => exact ih (s.putKey key.1 key.2)

/-- What one envelope comes to: the commits noted stay, and if it is opened it is read under
the rule they tell, which is asked where they are told of. -/
structure Opens (u : Unsealer) (held : Option Agreement.Chain) (settled : Bool)
    (e : Envelope) (s s' : Collecting) : Prop where
  commitment : s'.shelf.commitment = s.shelf.commitment
  read : s'.read = s.read ∨
    s'.read = s.read ++ [(e, ruleOf u.me (s.shelf.commitsAt e.toEpoch))] ∧
      if agreedChannel held s.shelf then s.shelf.commitsAt e.toEpoch ≠ [] else settled = true

theorem keepSlots_spec (slots : List Bytes32) :
    (keepSlots C u s e slots).shelf.commitment = s.shelf.commitment ∧
      (keepSlots C u s e slots).read =
        s.read ++ [(e, ruleOf u.me (s.shelf.commitsAt e.toEpoch))] := by
  simp only [keepSlots]
  split
  · next _ _ commit hfind =>
    have hany : (s.shelf.commitsAt e.toEpoch).any (·.admits u.me) = true :=
      List.any_eq_true.mpr ⟨commit, List.mem_of_find?_eq_some hfind, by
        simpa using List.find?_some hfind⟩
    rw [ruleOf, if_pos hany]
    split
    · exact ⟨rfl, rfl⟩
    · exact ⟨putKeys_commitment _ _, rfl⟩
  · next hfind hempty =>
    have hany : (s.shelf.commitsAt e.toEpoch).any (·.admits u.me) = false :=
      List.any_eq_false.mpr (List.find?_eq_none.mp hfind)
    have hne : s.shelf.commitsAt e.toEpoch ≠ [] := by simpa using hempty
    rw [ruleOf, hany, if_neg Bool.false_ne_true, if_neg hne]
    split
    · exact ⟨rfl, rfl⟩
    · exact ⟨advanceAgreement_commitment _, rfl⟩
  · next hfind hempty =>
    have hnil : s.shelf.commitsAt e.toEpoch = [] := by simpa using hempty
    exact ⟨putKeys_commitment _ _, by rw [hnil, ruleOf_nil]⟩

theorem absorbOne_opens : Opens u held settled e s (absorbOne C u held settled s e) := by
  by_cases hagreed : agreedChannel held s.shelf = true ∧ s.shelf.commitsAt e.toEpoch = []
  · rw [absorbOne, if_pos hagreed]
    exact ⟨rfl, .inl rfl⟩
  by_cases hbehind : agreedChannel held s.shelf = false ∧ settled = false
  · rw [absorbOne, if_neg hagreed, if_pos hbehind]
    exact ⟨rfl, .inl rfl⟩
  have hknown : if agreedChannel held s.shelf then s.shelf.commitsAt e.toEpoch ≠ []
      else settled = true := by
    cases hchannel : agreedChannel held s.shelf with
    | true => simpa [hchannel] using hagreed
    | false => simpa [hchannel] using hbehind
  rw [absorbOne, if_neg hagreed, if_neg hbehind]
  split
  · exact ⟨rfl, .inl rfl⟩
  · dsimp only
    split
    · exact ⟨rfl, .inl rfl⟩
    · split
      · split
        · exact ⟨rfl, .inl rfl⟩
        · next slots _ =>
          have hspec := keepSlots_spec (C := C) (u := u)
            (s := { s with pool := (s.pool.take e.prekeyId).2 }) (e := e) slots
          exact ⟨hspec.1, .inr ⟨hspec.2, hknown⟩⟩
      · exact ⟨rfl, .inl rfl⟩

/-- What was read beyond `s` of the envelopes served: each under the rule the commits noted
tell, and asked where they are told of. -/
structure Gathered (u : Unsealer) (settled : Bool) (served : List Envelope)
    (s s' : Collecting) : Prop where
  commitment : s'.shelf.commitment = s.shelf.commitment
  read : ∀ e r, (e, r) ∈ s'.read → (e, r) ∈ s.read ∨ e ∈ served ∧
    r = ruleOf u.me (s.shelf.commitsAt e.toEpoch) ∧
    if agreedChannel s.shelf.agreement s.shelf then s.shelf.commitsAt e.toEpoch ≠ []
    else settled = true

theorem commitsAt_congr {s s' : Shelf} (h : s'.commitment = s.commitment) :
    s'.commitsAt = s.commitsAt := by
  funext epoch
  rw [Shelf.commitsAt, Shelf.commitsAt, h]

theorem agreedChannel_congr {s s' : Shelf} (h : s'.commitment = s.commitment) :
    agreedChannel held s' = agreedChannel held s := by
  rw [agreedChannel, agreedChannel, Shelf.highestCommit, Shelf.highestCommit, h]

theorem absorbKeys_gathered (served : List Envelope) :
    Gathered u settled served s (absorbKeys C u settled s served) := by
  have hfold : ∀ (served' : List Envelope) (s' : Collecting), served' ⊆ served →
      Gathered u settled served s s' → Gathered u settled served s
        (served'.foldl (absorbOne C u s.shelf.agreement settled) s') := by
    intro served'
    induction served' with
    | nil => exact fun s' _ h => h
    | cons e served' ih =>
      intro s' hsub hs'
      have hopens : Opens u s.shelf.agreement settled e s' _ := absorbOne_opens (C := C)
      refine ih _ (List.subset_of_cons_subset hsub) ⟨hopens.commitment.trans hs'.commitment, ?_⟩
      intro e' r hread
      cases hopens.read with
      | inl hsame => exact hs'.read e' r (hsame ▸ hread)
      | inr hmore =>
        rw [hmore.1, List.mem_append, List.mem_singleton] at hread
        cases hread with
        | inl hread => exact hs'.read e' r hread
        | inr heq =>
          cases heq
          have hknown := hmore.2
          rw [agreedChannel_congr hs'.commitment, commitsAt_congr hs'.commitment] at hknown
          exact .inr ⟨hsub (by simp), by rw [commitsAt_congr hs'.commitment], hknown⟩
  have hstart : Gathered u settled served s { s with opened := 0 } := ⟨rfl, fun _ _ => .inl⟩
  have hdone := hfold served _ (List.Subset.refl _) hstart
  rw [absorbKeys]
  split
  · exact ⟨hdone.commitment, hdone.read⟩
  · exact hdone

theorem mem_commitsAt {s : Shelf} :
    c ∈ s.commitsAt epoch ↔ (∃ seq : Int64, s.commitment[seq]? = some c) ∧ c.epoch = epoch := by
  simp [Shelf.commitsAt, ExtTreeMap.mem_toList_iff_getElem?_eq_some]

theorem mem_noteCommits {s : Shelf} (h : c ∈ (noteCommits C s entries).commitsAt epoch) :
    c ∈ s.commitsAt epoch ∨ ∃ i ∈ entries, commitOf C i.entry = some c := by
  obtain ⟨⟨seq, hseq⟩, hepoch⟩ := mem_commitsAt.mp h
  rw [noteCommits_commitment] at hseq
  cases Option.or_eq_some_iff.mp hseq with
  | inl hheld => exact .inl (mem_commitsAt.mpr ⟨⟨seq, hheld⟩, hepoch⟩)
  | inr hfirst =>
    obtain ⟨i, hi, hcommit⟩ := List.exists_of_findSome?_eq_some hfirst.2
    refine .inr ⟨i, hi, ?_⟩
    split at hcommit
    · exact hcommit
    · cases hcommit

structure KeyInv (u : Unsealer) (k : Keyed) : Prop where
  below : ∀ c ∈ k.commits, c.epoch.toNat ≤ k.epoch.toNat
  one : ∀ c ∈ k.commits, ∀ c' ∈ k.commits, c'.epoch = c.epoch → c' = c
  sealed : ∀ e r, (e, r) ∈ k.sealed → e.toEpoch.toNat ≤ k.epoch.toNat ∧
    r = ruleOf u.me (k.commits.filter (·.epoch = e.toEpoch))
  noted : ∀ epoch, ∀ c ∈ k.device.shelf.commitsAt epoch, c ∈ k.commits
  right : k.Right

theorem KeyInv.told (h : KeyInv u k) {s : Shelf}
    (hnoted : ∀ epoch, ∀ c ∈ s.commitsAt epoch, c ∈ k.commits) (hne : s.commitsAt epoch ≠ []) :
    ruleOf u.me (s.commitsAt epoch) = ruleOf u.me (k.commits.filter (·.epoch = epoch)) := by
  obtain ⟨c, hc⟩ := List.exists_mem_of_ne_nil _ hne
  have hepoch : c.epoch = epoch := (mem_commitsAt.mp hc).2
  have hput : c ∈ k.commits := hnoted epoch c hc
  have hfilter : k.commits.filter (·.epoch = epoch) ≠ [] :=
    List.ne_nil_of_mem (List.mem_filter.mpr ⟨hput, by simpa using hepoch⟩)
  have hheld : ∀ c' ∈ s.commitsAt epoch, c' = c := fun c' hc' =>
    h.one c hput c' (hnoted epoch c' hc') ((mem_commitsAt.mp hc').2.trans hepoch.symm)
  have hthere : ∀ c' ∈ k.commits.filter (·.epoch = epoch), c' = c := by
    intro c' hc'
    obtain ⟨hput', hepoch'⟩ := List.mem_filter.mp hc'
    exact h.one c hput c' hput' ((of_decide_eq_true hepoch').trans hepoch.symm)
  rw [ruleOf_eq hne hheld, ruleOf_eq hfilter hthere]

theorem KeyInv.gathered (h : KeyInv u k) {served : List Envelope} {s s' : Collecting}
    (hnoted : ∀ epoch, ∀ c ∈ s.shelf.commitsAt epoch, c ∈ k.commits)
    (hread : s.read = k.device.read) (hgathered : Gathered u settled served s s')
    (hforetold : Foretold k s.shelf settled served) : KeyInv u { k with device := s' } := by
  refine ⟨h.below, h.one, h.sealed, ?_, ?_⟩
  · rw [commitsAt_congr hgathered.commitment]
    exact hnoted
  · intro e r r' hr hsealed
    cases hgathered.read e r hr with
    | inl hbefore => exact h.right e r r' (hread ▸ hbefore) hsealed
    | inr hnow =>
      obtain ⟨hserved, hrule, hknown⟩ := hnow
      by_cases hne : s.shelf.commitsAt e.toEpoch = []
      · -- nothing is told of the epoch: the log was taken for read, and no chain is held
        rw [hne, ruleOf_nil] at hrule
        cases hchannel : agreedChannel s.shelf.agreement s.shelf with
        | true => simp [hchannel, hne] at hknown
        | false =>
          have hsettled : settled = true := by simpa [hchannel] using hknown
          exact hrule.trans (hforetold hchannel hsettled e hserved r' hsealed).symm
      · rw [hrule, (h.sealed e r' hsealed).2, h.told hnoted hne]

theorem KeyInv.noting (h : KeyInv u k) (hgenuine : Genuine C k entries) :
    ∀ epoch, ∀ c ∈ (noteCommits C k.device.shelf entries).commitsAt epoch, c ∈ k.commits := by
  intro epoch c hc
  cases mem_noteCommits hc with
  | inl hbefore => exact h.noted epoch c hbefore
  | inr hentry =>
    obtain ⟨i, hi, hcommit⟩ := hentry
    exact hgenuine i hi c hcommit

theorem KeyInv.fetched (h : KeyInv u k) {since last : UInt64} {served : List Envelope}
    (hfetched : Fetched C k since last entries served) :
    KeyInv u { k with device := (absorbKeys C u (reached since entries last)
        (k.device.note C entries) served) } :=
  h.gathered (s := k.device.note C entries) (h.noting hfetched.1) rfl
    (absorbKeys_gathered served) hfetched.2

theorem KeyInv.right_sealed (h : KeyInv u k) {rule : Rule}
    (hunread : ∀ e ∈ envelopes, e ∉ k.device.read.map Prod.fst) :
    ∀ e r r', (e, r) ∈ k.device.read →
      (e, r') ∈ k.sealed ++ envelopes.map (fun e => (e, rule)) → r = r' := by
  intro e r r' hr hr'
  cases List.mem_append.mp hr' with
  | inl hold => exact h.right e r r' hr hold
  | inr hnew =>
    obtain ⟨e', he', heq⟩ := List.mem_map.mp hnew
    cases heq
    exact absurd (List.mem_map_of_mem hr) (hunread e he')

theorem KeyInv.putCommit (h : KeyInv u k) :
    KeyInv u (keyStep C u k (.putCommit c envelopes)) := by
  simp only [keyStep]
  split
  · next hput =>
    obtain ⟨hepoch, hsealable⟩ := hput
    have hlater : ∀ c' ∈ k.commits, c'.epoch ≠ c.epoch := by
      intro c' hc' heq
      have hbelow := h.below c' hc'
      rw [heq] at hbelow
      omega
    constructor
    · intro c' hc'
      cases List.mem_append.mp hc' with
      | inl hold => exact (h.below c' hold).trans (by dsimp only; omega)
      | inr hnew => rw [List.mem_singleton.mp hnew]
    · intro c₁ hc₁ c₂ hc₂ heq
      simp only [List.mem_append, List.mem_singleton] at hc₁ hc₂
      cases hc₁ with
      | inl hold₁ => cases hc₂ with
        | inl hold₂ => exact h.one c₁ hold₁ c₂ hold₂ heq
        | inr hnew₂ => exact absurd (hnew₂ ▸ heq).symm (hlater c₁ hold₁)
      | inr hnew₁ => cases hc₂ with
        | inl hold₂ => exact absurd (hnew₁ ▸ heq) (hlater c₂ hold₂)
        | inr hnew₂ => rw [hnew₁, hnew₂]
    · intro e r hr
      simp only [List.mem_append, List.mem_map] at hr
      cases hr with
      | inl hold =>
        obtain ⟨hbelow, hrule⟩ := h.sealed e r hold
        have hbefore : c.epoch ≠ e.toEpoch := by
          intro heq
          rw [← heq] at hbelow
          omega
        refine ⟨hbelow.trans (by dsimp only; omega), ?_⟩
        simpa [List.filter_append, hbefore] using hrule
      | inr hnew =>
        obtain ⟨e', he', heq⟩ := hnew
        cases heq
        have hend : e.toEpoch = c.epoch := (hsealable e he').1
        have hnone : k.commits.filter (·.epoch = c.epoch) = [] := by
          simpa [List.filter_eq_nil_iff] using hlater
        simp [hend, List.filter_append, hnone]
    · exact fun epoch c' hc' => List.mem_append_left _ (h.noted epoch c' hc')
    · exact h.right_sealed fun e he => (hsealable e he).2
  · exact h

theorem KeyInv.putKeys (h : KeyInv u k) (hunkeyed : ∀ c ∈ k.commits, c.epoch ≠ epoch) :
    KeyInv u (keyStep C u k (.putKeys epoch envelopes)) := by
  simp only [keyStep]
  split
  · next hput =>
    obtain ⟨hepoch, hsealable⟩ := hput
    have hle : k.epoch.toNat ≤ epoch.toNat := by
      cases hepoch with
      | inl heq => rw [heq]
      | inr hnext => omega
    constructor
    · exact fun c hc => (h.below c hc).trans hle
    · exact h.one
    · intro e r hr
      simp only [List.mem_append, List.mem_map] at hr
      cases hr with
      | inl hold => exact ⟨(h.sealed e r hold).1.trans hle, (h.sealed e r hold).2⟩
      | inr hnew =>
        obtain ⟨e', he', heq⟩ := hnew
        cases heq
        have hend : e.toEpoch = epoch := (hsealable e he').1
        have hnone : k.commits.filter (·.epoch = epoch) = [] := by
          simpa [List.filter_eq_nil_iff] using hunkeyed
        simp [hend, hnone, ruleOf_nil]
    · exact h.noted
    · exact h.right_sealed fun e he => (hsealable e he).2
  · exact h

theorem KeyInv.step (h : KeyInv u k) {step : KeyStep} (hforeseen : Foreseen C k step) :
    KeyInv u (keyStep C u k step) := by
  cases step with
  | putCommit c envelopes => exact h.putCommit
  | putKeys epoch envelopes => exact h.putKeys hforeseen
  | poll since last epoch entries served =>
    simp only [keyStep, Collecting.poll]
    split
    · exact h.fetched hforeseen
    · exact ⟨h.below, h.one, h.sealed, h.noting hforeseen.1, h.right⟩
  | catchup since fetched served =>
    cases fetched with
    | none => exact h.gathered h.noted rfl (absorbKeys_gathered served) hforeseen
    | some fetched => exact h.fetched hforeseen
  | collectKeys last asked served =>
    simp only [Foreseen] at hforeseen
    simp only [keyStep, Collecting.collectKeys]
    by_cases hread : k.device.shelf.since ≥ last
    · rw [if_pos hread] at hforeseen
      rw [if_pos (.inl hread), decide_eq_true hread]
      exact h.gathered h.noted rfl (absorbKeys_gathered served) hforeseen
    · rw [if_neg hread] at hforeseen
      have hunread : Foretold k k.device.shelf false served := by simp [Foretold]
      split
      · rw [decide_eq_false hread]
        exact h.gathered h.noted rfl (absorbKeys_gathered served) hunread
      · cases asked with
        | none => exact h.gathered h.noted rfl (absorbKeys_gathered served) hunread
        | some asked => exact h.fetched (hforeseen asked.1 asked.2 rfl)
  | otherwise shelf pool => exact ⟨h.below, h.one, h.sealed, hforeseen, h.right⟩

theorem noteCommits_without (s : Shelf) (entries : List Served)
    (h : ∀ i ∈ entries, forged i.entry = true → commitOf C i.entry = none) :
    noteCommits C s (entries.filter fun i => !forged i.entry) = noteCommits C s entries := by
  induction entries generalizing s with
  | nil => rfl
  | cons i is ih =>
    have hrest := ih (s.noteCommit C i.entry) fun j hj => h j (by simp [hj])
    cases hforged : forged i.entry with
    | true =>
      have hkept : s.noteCommit C i.entry = s := by
        rw [Shelf.noteCommit, h i (by simp) hforged]
      rw [hkept] at hrest
      simpa [List.filter_cons, hforged, noteCommits, hkept] using hrest
    | false => simpa [List.filter_cons, hforged, noteCommits] using hrest

theorem keyStep_without {step : KeyStep} (h : Unswayed C forged k step) :
    keyStep C u k (step.without forged) = keyStep C u k step := by
  cases step with
  | putCommit c envelopes | putKeys epoch envelopes | otherwise shelf pool => rfl
  | poll since last epoch entries served =>
    have hnote : k.device.note C (entries.filter fun i => !forged i.entry) =
        k.device.note C entries := by
      rw [Collecting.note, Collecting.note, noteCommits_without _ _ h.1]
    simp only [KeyStep.without, keyStep, Collecting.poll]
    rw [hnote, h.2]
  | catchup since fetched served =>
    cases fetched with
    | none => rfl
    | some fetched =>
      simp only [KeyStep.without, Option.map_some, keyStep, Collecting.catchup, Collecting.note,
        noteCommits_without _ _ h.1, h.2]
  | collectKeys last asked served =>
    cases asked with
    | none => rfl
    | some asked =>
      simp only [KeyStep.without, Option.map_some, keyStep, Collecting.collectKeys,
        Collecting.note, noteCommits_without _ _ h.1, h.2]

theorem run_without {steps : List KeyStep} (h : Each (Unswayed C forged) (keyStep C u) k steps) :
    run (keyStep C u) k (steps.map (·.without forged)) = run (keyStep C u) k steps := by
  induction steps generalizing k with
  | nil => rfl
  | cons step steps ih =>
    rw [List.map_cons, run_cons, run_cons, keyStep_without h.1]
    exact ih h.2

theorem keyInv_fresh (pool : Pool) : KeyInv u (.fresh pool) := by
  constructor <;> simp [Keyed.fresh, Keyed.Right, Shelf.commitsAt, Shelf.empty]

end

/-- Over any puts, fetches and collections of a channel's keys, each envelope is read under the rule
it was sealed under while every commit noted was put, no admin's keys are put at a commit's epoch
and every commit's envelope is foretold; and what is forged then changes nothing. -/
theorem envelopes_read_right (C : Crypto) (u : Unsealer) (pool : Pool) (steps : List KeyStep)
    (hforeseen : Each (Foreseen C) (keyStep C u) (.fresh pool) steps) :
    Always Keyed.Right (keyStep C u) (.fresh pool) steps ∧
      ∀ forged, Each (Unswayed C forged) (keyStep C u) (.fresh pool) steps →
        run (keyStep C u) (.fresh pool) (steps.map (·.without forged)) =
          run (keyStep C u) (.fresh pool) steps := by
  have hinv : Always (KeyInv u) (keyStep C u) (.fresh pool) steps :=
    hforeseen.always (fun _ _ h hstep => h.step hstep) (keyInv_fresh pool)
  exact ⟨hinv.imp fun _ h => h.right, fun _ => run_without⟩

/-- An admin's keys, collected beside the copy of a commit that nobody signed. -/
theorem envelopes_read_right_unsigned :
    let e : Envelope := ⟨5, 4, 0, 1, 1, 1, 0, [7]⟩
    let u : Unsealer := ⟨9, fun _ => true, fun secret _ => some [secret]⟩
    let pool := ((Pool.new 5).mintNext .toy 8).1
    let posted : Entry := {
      seq := 2, kind := 1, account := 4, device := 4, posted := 9, expiresAfter := 0,
      epoch := 0, msgSeq := 1, chainSeq := 0, prev := genesis, bodyHash := 0, sig := 0,
      stamp := none, body := [5] }
    let copy : Entry := { posted with seq := 1, kind := kindMember }
    let steps : List KeyStep := [.putKeys 1 [e],
      .catchup 0 (some ([⟨10, copy⟩, ⟨10, posted⟩], 2)) [e]]
    (run (keyStep .toy u) (.fresh pool) steps).device.read = [(e, .epochKeys)] ∧
      Always Keyed.Right (keyStep .toy u) (.fresh pool) steps ∧
      run (keyStep .toy u) (.fresh pool) (steps.map (·.without (· = copy))) =
        run (keyStep .toy u) (.fresh pool) steps := by
  intro e u pool posted copy steps
  have hcopy : commitOf .toy copy = none := by decide +kernel
  have hposted : commitOf .toy posted = none := by decide +kernel
  have hsealed : (keyStep .toy u (.fresh pool) (.putKeys 1 [e])).sealed =
      [(e, .epochKeys)] := by decide +kernel
  have hforeseen : Each (Foreseen .toy) (keyStep .toy u) (.fresh pool) steps := by
    refine ⟨by simp [Foreseen, Keyed.fresh], ⟨?_, ?_⟩, trivial⟩
    · simp [Genuine, hcopy, hposted]
    · intro _ _ e' _ r hr
      rw [hsealed, List.mem_singleton] at hr
      exact congrArg Prod.snd hr
  have hunswayed : Each (Unswayed .toy (· = copy)) (keyStep .toy u) (.fresh pool) steps := by
    refine ⟨trivial, ⟨?_, by decide +kernel⟩, trivial⟩
    intro i _ hi
    rw [of_decide_eq_true hi, hcopy]
  have hright := envelopes_read_right .toy u pool steps hforeseen
  exact ⟨by decide +kernel, hright.1, hright.2 _ hunswayed⟩

/-- The envelope of a commit whose entry has not come, collected by a device that holds no
chain. -/
theorem unentered_read_as_keys : ¬∀ (C : Crypto) (u : Unsealer) (pool : Pool)
    (steps : List KeyStep), Always Keyed.Right (keyStep C u) (.fresh pool) steps := by
  intro h
  let e : Envelope := ⟨5, 4, 0, 1, 1, 1, 0, [7]⟩
  have hright := (h .toy ⟨9, fun _ => true, fun secret _ => some [secret]⟩
    ((Pool.new 5).mintNext .toy 8).1 [.putCommit ⟨1, 9, [], [], 0, 0, 0⟩ [e],
      .catchup 0 (some ([], 0)) [e]]).2.2 e .epochKeys .secret
  revert hright
  decide +kernel

end Sqex.Chat
