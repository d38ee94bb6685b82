import Sqex.Chat.Agreed

/-! What an epoch key binds. Where the hash is injective on what is hashed, two histories
that end in one key started from one chain and are made of the same commits. -/
namespace Sqex.Agreed
open Agreement

section
variable (C : Crypto) (previous : Bytes32) (commit : Commit)

def digest (input : Bytes) : Bytes32 := take32 (C.sha512 input)

def transcriptInput : Bytes :=
  chainContext ++ Bytes32.toBytes previous ++ commit.signingInput

def chainInput (commitSecret transcript : Bytes32) : Bytes :=
  chainContext ++ Bytes32.toBytes previous ++ Bytes32.toBytes commitSecret ++
    Bytes32.toBytes transcript

def keyInput (chain transcript : Bytes32) : Bytes :=
  epochContext ++ Bytes32.toBytes chain ++ Bytes32.toBytes transcript

theorem transcript_digest :
    transcript C previous commit = digest C (transcriptInput previous commit) := rfl

theorem length_chainContext : chainContext.length = 13 := by decide +kernel

theorem length_epochContext : epochContext.length = 13 := by decide +kernel

/-! The inputs of the three derivations differ in length. -/

theorem length_transcriptInput :
    (transcriptInput previous commit).length =
      147 + 32 * (commit.adds.length + commit.removes.length) := by
  simp only [transcriptInput, List.length_append, length_chainContext, Bytes32.length_toBytes,
    Commit.length_signingInput]
  omega

theorem length_chainInput (commitSecret t : Bytes32) :
    (chainInput previous commitSecret t).length = 109 := by
  simp only [chainInput, List.length_append, length_chainContext, Bytes32.length_toBytes]

theorem length_keyInput (c t : Bytes32) : (keyInput c t).length = 77 := by
  simp only [keyInput, List.length_append, length_epochContext, Bytes32.length_toBytes]

theorem toBytes_inj {a b : Bytes32} (h : Bytes32.toBytes a = Bytes32.toBytes b) : a = b := by
  rw [← Bytes32.ofNat_toBytes a, h, Bytes32.ofNat_toBytes]

theorem toBytes_append_inj {a b : Bytes32} {x y : Bytes}
    (h : Bytes32.toBytes a ++ x = Bytes32.toBytes b ++ y) : a = b ∧ x = y := by
  obtain ⟨hword, hrest⟩ := List.append_inj h (by simp)
  exact ⟨toBytes_inj hword, hrest⟩

theorem chainInput_inj {a b s t u v : Bytes32} (h : chainInput a s u = chainInput b t v) :
    a = b ∧ s = t ∧ u = v := by
  simp only [chainInput, List.append_assoc] at h
  obtain ⟨hprevious, h⟩ := toBytes_append_inj (List.append_cancel_left h)
  obtain ⟨hsecret, h⟩ := toBytes_append_inj h
  exact ⟨hprevious, hsecret, toBytes_inj h⟩

theorem keyInput_inj {a b u v : Bytes32} (h : keyInput a u = keyInput b v) : a = b ∧ u = v := by
  simp only [keyInput, List.append_assoc] at h
  obtain ⟨hchain, h⟩ := toBytes_append_inj (List.append_cancel_left h)
  exact ⟨hchain, toBytes_inj h⟩

/-- A commit as the transcript covers it: everything bar the signature. -/
def unsigned (c : Commit) : Commit := { c with sig := 0 }

theorem signingInput_inj {c d : Commit} (hc : c.WellFormed) (hd : d.WellFormed)
    (h : c.signingInput = d.signingInput) : unsigned c = unsigned d := by
  have hencode : (unsigned c).encode = (unsigned d).encode :=
    congrArg (· ++ Bytes64.toBytes 0) h
  have hwc : (unsigned c).WellFormed := ⟨hc.1, hc.2, hc.3, hc.4, hc.5⟩
  have hwd : (unsigned d).WellFormed := ⟨hd.1, hd.2, hd.3, hd.4, hd.5⟩
  have hdecode := congrArg Commit.decode hencode
  rw [Commit.decode_encode hwc, Commit.decode_encode hwd] at hdecode
  exact Except.ok.inj hdecode

theorem transcriptInput_inj {a b : Bytes32} {c d : Commit} (hc : c.WellFormed)
    (hd : d.WellFormed) (h : transcriptInput a c = transcriptInput b d) :
    a = b ∧ unsigned c = unsigned d := by
  simp only [transcriptInput, List.append_assoc] at h
  obtain ⟨hprevious, hinput⟩ := toBytes_append_inj (List.append_cancel_left h)
  exact ⟨hprevious, signingInput_inj hc hd hinput⟩

/-- A channel's history as its founder has it: the chain it drew, and what was committed. -/
structure History where
  channel : Bytes32
  drawn : Bytes32
  members : List PubKey
  log : List Sent

/-- What a history binds of an entry: the commit bar its signature, and its secret. -/
def Sent.bound (p : Sent) : Commit × Bytes32 := (unsigned p.commit, p.secret)

def stepInputs (s : Chain) (p : Sent) : List Bytes :=
  let next := s.next C p.commit p.secret
  [transcriptInput s.transcript p.commit, chainInput s.chain p.secret next.transcript,
    keyInput next.chain next.transcript]

end

def inputsFrom (C : Crypto) : Chain → List Sent → List Bytes
  | _, [] => []
  | s, p :: log => stepInputs C s p ++ inputsFrom C (s.next C p.commit p.secret) log

namespace History

def Valid (C : Crypto) (h : History) : Prop := Agreed.Valid C h.drawn h.members h.log

def chain (C : Crypto) (h : History) : Chain := (founder C h.drawn h.members h.log).chain
def key (C : Crypto) (h : History) : Bytes32 := (h.chain C).key C
def inputs (C : Crypto) (h : History) : List Bytes := inputsFrom C (Chain.create h.drawn) h.log

end History

def next (C : Crypto) (s : Chain) (p : Sent) : Chain := s.next C p.commit p.secret

def Bound (C : Crypto) (S : Set Bytes) (s : Chain) (p : Sent) : Prop :=
  p.commit.WellFormed ∧ s.Takes C p.commit p.secret ∧ ∀ b ∈ stepInputs C s p, b ∈ S

section
variable {C : Crypto} {S : Set Bytes}

theorem chain_of_run {d : Device} {log : List Sent}
    (h : Runs.Each (fun d p => p.Valid C d) (step C) d log)
    (hinputs : ∀ b ∈ inputsFrom C d.chain log, b ∈ S) :
    (Runs.run (step C) d log).chain = Runs.run (next C) d.chain log ∧
      Runs.Each (Bound C S) (next C) d.chain log := by
  induction log generalizing d with
  | nil => exact ⟨rfl, trivial⟩
  | cons p log ih =>
    have hstep : (step C d p).chain = next C d.chain p := by
      rw [step, hear_valid h.1]
      rfl
    have hrest := ih h.2 fun b hb => hinputs b (by
      rw [hstep] at hb
      exact List.mem_append_right _ hb)
    rw [hstep] at hrest
    have hbound : Bound C S d.chain p :=
      ⟨h.1.1, h.1.2.2, fun b hb => hinputs b (List.mem_append_left _ hb)⟩
    exact ⟨hrest.1, hbound, hrest.2⟩

theorem transcript_inj (hinj : Set.InjOn (digest C) S) {s s' : Chain} {p p' : Sent}
    (h : Bound C S s p) (h' : Bound C S s' p')
    (heq : (next C s p).transcript = (next C s' p').transcript) :
    s.transcript = s'.transcript ∧ unsigned p.commit = unsigned p'.commit := by
  have hin : transcriptInput s.transcript p.commit ∈ S := h.2.2 _ (by simp [stepInputs])
  have hin' : transcriptInput s'.transcript p'.commit ∈ S := h'.2.2 _ (by simp [stepInputs])
  have hdigest : digest C (transcriptInput s.transcript p.commit) =
      digest C (transcriptInput s'.transcript p'.commit) := by
    rw [← transcript_digest, ← transcript_digest]
    simpa only [next, Chain.next, Chain.welcomed, h.2.1.2.1, h'.2.1.2.1] using heq
  exact transcriptInput_inj h.1 h'.1 (hinj hin hin' hdigest)

theorem epoch_of_unsigned {c d : Commit} (h : unsigned c = unsigned d) : c.epoch = d.epoch := by
  have hepoch : (unsigned c).epoch = (unsigned d).epoch := congrArg Commit.epoch h
  exact hepoch

theorem next_inj (hinj : Set.InjOn (digest C) S) (s : Chain) (p : Sent) (s' : Chain) (p' : Sent)
    (h : Bound C S s p) (h' : Bound C S s' p') (heq : next C s p = next C s' p') :
    s = s' ∧ p.bound = p'.bound := by
  have ht := congrArg Chain.transcript heq
  obtain ⟨htranscript, hcommit⟩ := transcript_inj hinj h h' ht
  have hin : chainInput s.chain p.secret (next C s p).transcript ∈ S :=
    h.2.2 _ (by simp [stepInputs, next])
  have hin' : chainInput s'.chain p'.secret (next C s' p').transcript ∈ S :=
    h'.2.2 _ (by simp [stepInputs, next])
  obtain ⟨hchain, hsecret, -⟩ := chainInput_inj (hinj hin hin' (congrArg Chain.chain heq))
  have hepoch : s.epoch = s'.epoch := by
    have hnext := epoch_of_unsigned hcommit
    rw [h.2.1.1, h'.2.1.1] at hnext
    exact (UInt32.add_left_inj 1).mp hnext
  exact ⟨Chain.ext hepoch hchain htranscript, by rw [Sent.bound, Sent.bound, hcommit, hsecret]⟩

theorem mem_inputs_end (s : Chain) {log : List Sent} (hne : log ≠ []) :
    let e := Runs.run (next C) s log
    keyInput e.chain e.transcript ∈ inputsFrom C s log := by
  induction log generalizing s with
  | nil => exact absurd rfl hne
  | cons p log ih =>
    cases log with
    | nil => simp [inputsFrom, stepInputs, next]
    | cons q log => exact List.mem_append_right _ (ih (next C s p) (by simp))

/-- Chains that come to one value and one transcript stand at one epoch: the last commit,
which the transcript covers, says which. -/
theorem ends_eq (hinj : Set.InjOn (digest C) S) {s s' : Chain} {log log' : List Sent}
    (h : Runs.Each (Bound C S) (next C) s log) (h' : Runs.Each (Bound C S) (next C) s' log')
    (hne : log ≠ []) (hne' : log' ≠ [])
    (hchain : (Runs.run (next C) s log).chain = (Runs.run (next C) s' log').chain)
    (htranscript : (Runs.run (next C) s log).transcript =
      (Runs.run (next C) s' log').transcript) :
    Runs.run (next C) s log = Runs.run (next C) s' log' := by
  have hsplit := List.dropLast_append_getLast hne
  have hsplit' := List.dropLast_append_getLast hne'
  rw [← hsplit, Runs.each_append] at h
  rw [← hsplit', Runs.each_append] at h'
  rw [← hsplit, ← hsplit', Runs.run_append, Runs.run_append] at htranscript hchain ⊢
  obtain ⟨-, hcommit⟩ := transcript_inj hinj h.2.1 h'.2.1 htranscript
  exact Chain.ext (epoch_of_unsigned hcommit) hchain htranscript

theorem History.length_eq {h h' : History} (hvalid : h.Valid C) (hvalid' : h'.Valid C)
    (hlen : h.log.length < 2 ^ 32) (hlen' : h'.log.length < 2 ^ 32)
    (hend : h.chain C = h'.chain C) : h.log.length = h'.log.length := by
  have hepoch := founder_epoch hvalid (Nat.le_refl h.log.length)
  have hepoch' := founder_epoch hvalid' (Nat.le_refl h'.log.length)
  rw [List.take_length] at hepoch hepoch'
  have hsame : UInt32.ofNat h.log.length = UInt32.ofNat h'.log.length := by
    rw [← hepoch, ← hepoch']
    exact congrArg Chain.epoch hend
  have hnat := congrArg UInt32.toNat hsame
  simp only [UInt32.toNat_ofNat'] at hnat
  rwa [Nat.mod_eq_of_lt hlen, Nat.mod_eq_of_lt hlen'] at hnat

/-- Two histories that end in one key are one: the chains they started from, their epochs,
and every commit and secret, in order. -/
theorem History.eq_of_key (hinj : Set.InjOn (digest C) S) {h h' : History} (hvalid : h.Valid C)
    (hvalid' : h'.Valid C) (hne : h.log ≠ []) (hne' : h'.log ≠ [])
    (hlen : h.log.length < 2 ^ 32) (hlen' : h'.log.length < 2 ^ 32)
    (hinputs : ∀ b ∈ h.inputs C, b ∈ S) (hinputs' : ∀ b ∈ h'.inputs C, b ∈ S)
    (hkey : h.key C = h'.key C) :
    h.drawn = h'.drawn ∧ h.chain C = h'.chain C ∧
      h.log.map Sent.bound = h'.log.map Sent.bound := by
  obtain ⟨hrun, hbound⟩ := chain_of_run hvalid hinputs
  obtain ⟨hrun', hbound'⟩ := chain_of_run hvalid' hinputs'
  have hin := hinputs _ (mem_inputs_end (Chain.create h.drawn) hne)
  have hin' := hinputs' _ (mem_inputs_end (Chain.create h'.drawn) hne')
  have hdigest := hkey
  simp only [History.key, History.chain, founder, hrun, hrun', Chain.key] at hdigest
  obtain ⟨hchain, htranscript⟩ := keyInput_inj (hinj hin hin' hdigest)
  have hends := ends_eq hinj hbound hbound' hne hne' hchain htranscript
  have hend : h.chain C = h'.chain C := by
    simpa only [History.chain, founder, hrun, hrun'] using hends
  obtain ⟨hstart, hlog⟩ := hbound.run_inj (next_inj hinj) hbound'
    (History.length_eq hvalid hvalid' hlen hlen' hend) hends
  exact ⟨congrArg Chain.chain hstart, hend, hlog⟩

/-- An agreed epoch key binds the history, where the hash is injective on the inputs `S`:
histories hashed within `S` that end in one key have the founding chain, the epoch and every
commit and secret in common; and no chain value is a transcript or an epoch key. -/
theorem epoch_key_binds (hinj : Set.InjOn (digest C) S) :
    (∀ h h' : History, h.Valid C → h'.Valid C → h.log ≠ [] → h'.log ≠ [] →
      h.log.length < 2 ^ 32 → h'.log.length < 2 ^ 32 →
      (∀ b ∈ h.inputs C, b ∈ S) → (∀ b ∈ h'.inputs C, b ∈ S) → h.key C = h'.key C →
      h.drawn = h'.drawn ∧ h.chain C = h'.chain C ∧
        h.log.map Sent.bound = h'.log.map Sent.bound) ∧
    (∀ c secret t, chainInput c secret t ∈ S →
      (∀ previous commit, transcriptInput previous commit ∈ S →
        chain C c secret t ≠ transcript C previous commit) ∧
      (∀ c' t', keyInput c' t' ∈ S → chain C c secret t ≠ epochKey C c' t')) := by
  refine ⟨fun h h' hvalid hvalid' hne hne' hlen hlen' hin hin' hkey =>
    History.eq_of_key hinj hvalid hvalid' hne hne' hlen hlen' hin hin' hkey, ?_⟩
  intro c secret t hchain
  constructor
  · intro previous commit htranscript heq
    have hinput := congrArg List.length (hinj hchain htranscript heq)
    rw [length_chainInput, length_transcriptInput] at hinput
    omega
  · intro c' t' hkey heq
    have hinput := congrArg List.length (hinj hchain hkey heq)
    rw [length_chainInput, length_keyInput] at hinput
    omega

end

instance (C : Crypto) (h : History) : Decidable (h.Valid C) :=
  inferInstanceAs (Decidable (Agreed.Valid C h.drawn h.members h.log))

/-- One log of commits over one drawn chain, in a channel of any name. -/
def twoHistory (channel : Bytes32) : History := ⟨channel, 5, [2], twoCommits⟩

/-- The first commit is theirs, and the second brings another secret. -/
def twoOtherwise : History :=
  let s₀ := Chain.create 5
  let first := Sent.after Crypto.toy s₀ 1 7 [] []
  let s₁ := s₀.next Crypto.toy first.commit first.secret
  ⟨1, 5, [2], [first, Sent.after Crypto.toy s₁ 1 6 [9] []]⟩

def twoInputs : List Bytes := (twoHistory 1).inputs Crypto.toy ++ twoOtherwise.inputs Crypto.toy

theorem toy_injOn : Set.InjOn (digest Crypto.toy) {b | b ∈ twoInputs} := by
  have hinj : ∀ x ∈ twoInputs, ∀ y ∈ twoInputs,
      digest Crypto.toy x = digest Crypto.toy y → x = y := by decide +kernel
  exact fun x hx y hy => hinj x hx y hy

/-- The other secret makes another key, and the chain the first secret made is no key. -/
theorem epoch_key_binds_two :
    (twoHistory 1).key Crypto.toy ≠ twoOtherwise.key Crypto.toy ∧
      let c := Chain.create 5
      let t := transcript Crypto.toy c.transcript (Sent.after Crypto.toy c 1 7 [] []).commit
      ∀ c' t', keyInput c' t' ∈ twoInputs →
        chain Crypto.toy c.chain 7 t ≠ epochKey Crypto.toy c' t' := by
  obtain ⟨hbinds, hapart⟩ := epoch_key_binds toy_injOn
  constructor
  · intro hkey
    have hsame := hbinds (twoHistory 1) twoOtherwise (by decide +kernel) (by decide +kernel)
      (by decide) (by decide) (by decide) (by decide)
      (fun _ hb => List.mem_append_left _ hb) (fun _ hb => List.mem_append_right _ hb) hkey
    exact absurd hsame.2.2 (by decide +kernel)
  · exact (hapart _ 7 _ (by decide +kernel)).2

/-- The channel is no part of what is hashed: two of them that start from one chain and
commit alike end in one key. -/
theorem channel_unbound :
    Set.InjOn (digest Crypto.toy) {b | b ∈ (twoHistory 1).inputs Crypto.toy} ∧
      (twoHistory 1).Valid Crypto.toy ∧ (twoHistory 2).Valid Crypto.toy ∧
      (twoHistory 2).inputs Crypto.toy = (twoHistory 1).inputs Crypto.toy ∧
      (twoHistory 1).key Crypto.toy = (twoHistory 2).key Crypto.toy ∧
      (twoHistory 1).channel ≠ (twoHistory 2).channel := by
  have hvalid : (twoHistory 1).Valid Crypto.toy := by decide +kernel
  exact ⟨toy_injOn.mono fun _ hb => List.mem_append_left _ hb, hvalid, hvalid, rfl, rfl,
    by decide⟩

end Sqex.Agreed
