import Mathlib.Data.List.Nodup
import Sqex.Lib.Runs

/-! What the steps of a run give out, the rule by which it gives nothing out twice, and when two
systems side by side give out the same. -/
namespace Sqex.Runs

section Emitted
variable {σ ι β : Type*}

def emitted (out : σ → ι → List β) (step : σ → ι → σ) : σ → List ι → List β
  | _, [] => []
  | s, i :: is => out s i ++ emitted out step (step s i) is

theorem emitted_append (out : σ → ι → List β) (step : σ → ι → σ) (s : σ) (is js : List ι) :
    emitted out step s (is ++ js) =
      emitted out step s is ++ emitted out step (run step s is) js := by
  induction is generalizing s with
  | nil => rfl
  | cons i is ih => rw [List.cons_append, emitted, emitted, ih, run_cons, List.append_assoc]

theorem forall_emitted_iff {P : β → Prop} {out : σ → ι → List β} {step : σ → ι → σ} {s : σ}
    {is : List ι} :
    (∀ b ∈ emitted out step s is, P b) ↔ Each (fun s i => ∀ b ∈ out s i, P b) step s is := by
  induction is generalizing s with
  | nil => simp [emitted, Each]
  | cons i is ih =>
    rw [emitted, Each, ← ih]
    constructor
    · exact fun h => ⟨fun b hb => h b (by simp [hb]), fun b hb => h b (by simp [hb])⟩
    · intro h b hb
      cases List.mem_append.mp hb with
      | inl hnow => exact h.1 b hnow
      | inr hlater => exact h.2 b hlater

/-- Where what a step gives out is in order, and what was given out before stays in the past and
comes before all that is given out after it, all that a run gives out is in order. -/
theorem emitted_pairwise {I : σ → Prop} {R : β → β → Prop} {Past : σ → β → Prop}
    {out : σ → ι → List β} {step : σ → ι → σ} (keep : ∀ s i, I s → I (step s i))
    (hout : ∀ s i, I s → (out s i).Pairwise R ∧ ∀ b ∈ out s i, Past (step s i) b)
    (hpast : ∀ s i, I s → ∀ a, Past s a → Past (step s i) a ∧ ∀ b ∈ out s i, R a b) {s : σ}
    (hs : I s) (is : List ι) :
    (emitted out step s is).Pairwise R ∧
      ∀ a, Past s a → ∀ b ∈ emitted out step s is, R a b := by
  induction is generalizing s with
  | nil => simp [emitted]
  | cons i is ih =>
    obtain ⟨hrest, hlater⟩ := ih (keep s i hs)
    obtain ⟨hone, hgiven⟩ := hout s i hs
    constructor
    · exact List.pairwise_append.mpr ⟨hone, hrest, fun a ha => hlater a (hgiven a ha)⟩
    · intro a ha b hb
      obtain ⟨hstays, hnow⟩ := hpast s i hs a ha
      cases List.mem_append.mp hb with
      | inl hthis => exact hnow b hthis
      | inr hnext => exact hlater a hstays b hnext

/-- Where each step gives out what is not spent yet, spends it, and unspends nothing, a run
gives nothing out twice, and nothing that was spent when it started. -/
theorem emitted_fresh {I : σ → Prop} {Spent : σ → β → Prop} {out : σ → ι → List β}
    {step : σ → ι → σ} (keep : ∀ s i, I s → I (step s i))
    (hout : ∀ s i, I s → (out s i).Nodup ∧ ∀ b ∈ out s i, ¬ Spent s b ∧ Spent (step s i) b)
    (hspent : ∀ s i, I s → ∀ b, Spent s b → Spent (step s i) b) {s : σ} (hs : I s)
    (is : List ι) :
    (emitted out step s is).Nodup ∧ ∀ b ∈ emitted out step s is, ¬ Spent s b := by
  have hfresh (s i) (h : I s) (a) (ha : Spent s a) : Spent (step s i) a ∧ ∀ b ∈ out s i, a ≠ b :=
    ⟨hspent s i h a ha, fun b hb heq => ((hout s i h).2 b hb).1 (heq ▸ ha)⟩
  have hall := emitted_pairwise keep
    (fun s i h => ⟨(hout s i h).1, fun b hb => ((hout s i h).2 b hb).2⟩) hfresh hs is
  exact ⟨hall.1, fun b hb hagain => hall.2 b hagain b hb rfl⟩

/-- What a run gives out has, where the run ends, each property that a step gives to what it
gives out and takes from nothing. -/
theorem emitted_of {I : σ → Prop} {P : σ → β → Prop} {out : σ → ι → List β} {step : σ → ι → σ}
    (keep : ∀ s i, I s → I (step s i)) (hout : ∀ s i, I s → ∀ b ∈ out s i, P (step s i) b)
    (hkeep : ∀ s i, I s → ∀ b, P s b → P (step s i) b) {s : σ} (hs : I s) (is : List ι) :
    (∀ b, P s b → P (run step s is) b) ∧ ∀ b ∈ emitted out step s is, P (run step s is) b := by
  induction is generalizing s with
  | nil => simp [emitted, run]
  | cons i is ih =>
    obtain ⟨hstays, hlater⟩ := ih (keep s i hs)
    refine ⟨fun b hb => hstays b (hkeep s i hs b hb), fun b hb => ?_⟩
    cases List.mem_append.mp hb with
    | inl hnow => exact hstays b (hout s i hs b hnow)
    | inr hrest => exact hlater b hrest

/-- Where each step gives out nothing of some kind, or one that goes on from the last there was,
all of the kind that a run gives out go on from each other. -/
theorem emitted_chain {R : β → β → Prop} {Last : σ → β → Prop} {kind : β → Bool}
    {out : σ → ι → List β} {step : σ → ι → σ}
    (hstep : ∀ s i a, Last s a → ((out s i).filter kind = [] ∧ Last (step s i) a) ∨
      ∃ b, (out s i).filter kind = [b] ∧ R a b ∧ Last (step s i) b) {s : σ} {a : β}
    (h : Last s a) (is : List ι) : (a :: (emitted out step s is).filter kind).IsChain R := by
  induction is generalizing s a with
  | nil => simp [emitted]
  | cons i is ih =>
    rw [emitted, List.filter_append]
    obtain ⟨hnone, hlast⟩ | ⟨b, hone, hnext, hlast⟩ := hstep s i a h
    · rw [hnone]
      exact ih hlast
    · rw [hone]
      exact List.isChain_cons_cons.mpr ⟨hnext, ih hlast⟩

end Emitted

section Beside
variable {σ τ ι β : Type*} {out : σ → ι → List β} {out' : τ → ι → List β} {step : σ → ι → σ}
variable {step' : τ → ι → τ}

/-- Where a relation between two systems is kept by the inputs that are allowed, and under it an
input gives out as much in both, and the same exactly if it is ok, runs give out the same exactly
if each of their inputs is ok. -/
theorem emitted_eq_iff {R : σ → τ → Prop} {allowed ok : τ → ι → Prop}
    (keep : ∀ s t i, R s t → allowed t i → R (step s i) (step' t i))
    (hlength : ∀ s t i, R s t → (out s i).length = (out' t i).length)
    (hagree : ∀ s t i, R s t → allowed t i → (out s i = out' t i ↔ ok t i)) {s : σ} {t : τ}
    {is : List ι} (hs : R s t) (h : Each allowed step' t is) :
    emitted out step s is = emitted out' step' t is ↔ Each ok step' t is := by
  induction is generalizing s t with
  | nil => simp [emitted, Each]
  | cons i is ih =>
    have hrest := ih (keep s t i hs h.1) h.2
    have hnow := hagree s t i hs h.1
    constructor
    · intro heq
      obtain ⟨hout, hlater⟩ := List.append_inj heq (hlength s t i hs)
      exact ⟨hnow.mp hout, hrest.mp hlater⟩
    · rintro ⟨hok, hlater⟩
      rw [emitted, emitted, hnow.mpr hok, hrest.mpr hlater]

/-- A system that a quiet input leaves as another sees it gives out what the other does without
the quiet inputs. -/
theorem emitted_filter {loud : ι → Bool} (view : τ → σ)
    (hloud : ∀ t i, loud i = true → view (step' t i) = step (view t) i ∧
      out' t i = out (view t) i)
    (hquiet : ∀ t i, loud i = false → view (step' t i) = view t ∧ out' t i = []) (t : τ)
    (is : List ι) : emitted out step (view t) (is.filter loud) = emitted out' step' t is := by
  induction is generalizing t with
  | nil => rfl
  | cons i is ih =>
    cases hi : loud i with
    | true =>
      obtain ⟨hview, hout⟩ := hloud t i hi
      rw [List.filter_cons_of_pos hi, emitted, emitted, hout, ← hview, ih]
    | false =>
      obtain ⟨hview, hout⟩ := hquiet t i hi
      rw [List.filter_cons_of_neg (by simp [hi]), emitted, hout, List.nil_append, ← hview, ih]

/-- Where a relation between two systems is kept by inputs that are alike, and under it they give
out the same, runs of inputs alike do. -/
theorem emitted_alike {κ : Type*} {out₂ : τ → κ → List β} {step₂ : τ → κ → τ} {R : σ → τ → Prop}
    {like : ι → κ → Prop}
    (keep : ∀ s t i j, R s t → like i j → R (step s i) (step₂ t j) ∧ out s i = out₂ t j) {s : σ}
    {t : τ} {is : List ι} {js : List κ} (hs : R s t) (h : List.Forall₂ like is js) :
    R (run step s is) (run step₂ t js) ∧ emitted out step s is = emitted out₂ step₂ t js := by
  induction h generalizing s t with
  | nil => exact ⟨hs, rfl⟩
  | cons hlike _ ih =>
    obtain ⟨hnext, hout⟩ := keep _ _ _ _ hs hlike
    obtain ⟨hend, hrest⟩ := ih hnext
    exact ⟨hend, by rw [emitted, emitted, hout, hrest]⟩

end Beside

end Sqex.Runs
