import Mathlib.Data.List.Basic

/-! Runs of a step function over a list of inputs: what holds of every state a
run passes through, what holds of every step it takes, and the rules that carry
a one-step fact to a whole run. -/
namespace Sqex.Runs
variable {σ ι : Type*}

section
variable (step : σ → ι → σ) (s : σ)

def run (is : List ι) : σ := is.foldl step s

@[simp] theorem run_nil : run step s [] = s := rfl

@[simp] theorem run_cons (i : ι) (is : List ι) :
    run step s (i :: is) = run step (step s i) is := rfl

theorem run_append (is js : List ι) :
    run step s (is ++ js) = run step (run step s is) js := List.foldl_append

end

theorem mem_concat {α : Type*} {xs : List α} {a b : α} : b ∈ xs ++ [a] ↔ b ∈ xs ∨ b = a := by
  rw [List.mem_append, List.mem_singleton]

theorem forall_mem_concat {α : Type*} {xs : List α} {a : α} {p : α → Prop} :
    (∀ b ∈ xs ++ [a], p b) ↔ (∀ b ∈ xs, p b) ∧ p a := by
  rw [List.forall_mem_append, List.forall_mem_singleton]

/-- `P` of the state a run starts in and of every state it reaches. -/
def Always (P : σ → Prop) (step : σ → ι → σ) : σ → List ι → Prop
  | s, [] => P s
  | s, i :: is => P s ∧ Always P step (step s i) is

def Each (ok : σ → ι → Prop) (step : σ → ι → σ) : σ → List ι → Prop
  | _, [] => True
  | s, i :: is => ok s i ∧ Each ok step (step s i) is

instance Each.instDecidable (ok : σ → ι → Prop) [∀ s i, Decidable (ok s i)]
    (step : σ → ι → σ) : (s : σ) → (is : List ι) → Decidable (Each ok step s is)
  | _, [] => inferInstanceAs (Decidable True)
  | s, i :: is =>
    have := Each.instDecidable ok step (step s i) is
    inferInstanceAs (Decidable (ok s i ∧ Each ok step (step s i) is))

variable {P : σ → Prop} {ok : σ → ι → Prop} {step : σ → ι → σ} {s : σ} {is : List ι}

theorem Always.start (h : Always P step s is) : P s := by
  cases is with
  | nil => exact h
  | cons i is => exact h.1

theorem Always.imp {Q : σ → Prop} (hpq : ∀ s, P s → Q s)
    (h : Always P step s is) : Always Q step s is := by
  induction is generalizing s with
  | nil => exact hpq s h
  | cons i is ih => exact ⟨hpq s h.1, ih h.2⟩

theorem always_iff_prefixes : Always P step s is ↔ ∀ pre, pre <+: is → P (run step s pre) := by
  induction is generalizing s with
  | nil => simp [Always]
  | cons i is ih =>
    constructor
    · rintro ⟨hs, hrest⟩ pre hpre
      cases pre with
      | nil => exact hs
      | cons j pre =>
        obtain ⟨rfl, htail⟩ := List.cons_prefix_cons.mp hpre
        exact ih.mp hrest pre htail
    · intro h
      refine ⟨h [] List.nil_prefix, ih.mpr fun pre hpre => ?_⟩
      exact h (i :: pre) (List.cons_prefix_cons.mpr ⟨rfl, hpre⟩)

/-- What every allowed step preserves holds throughout a run of allowed steps. -/
theorem Each.always (keep : ∀ s i, P s → ok s i → P (step s i))
    (hs : P s) (h : Each ok step s is) : Always P step s is := by
  induction is generalizing s with
  | nil => exact hs
  | cons i is ih => exact ⟨hs, ih (keep s i hs h.1) h.2⟩

theorem Each.run (keep : ∀ s i, P s → ok s i → P (step s i))
    (hs : P s) (h : Each ok step s is) : P (run step s is) :=
  always_iff_prefixes.mp (h.always keep hs) is List.prefix_rfl

theorem Each.imp_of {ok' : σ → ι → Prop}
    (keep : ∀ s i, P s → ok s i → P (step s i)) (himp : ∀ s i, P s → ok s i → ok' s i)
    (hs : P s) (h : Each ok step s is) : Each ok' step s is := by
  induction is generalizing s with
  | nil => trivial
  | cons i is ih => exact ⟨himp s i hs h.1, ih (keep s i hs h.1) h.2⟩

theorem Each.simulates {τ κ : Type*} {R : σ → τ → Prop} {step' : τ → κ → τ} {does : ι → List κ}
    (sim : ∀ s t i, R s t → ok s i → R (step s i) (Runs.run step' t (does i))) {t : τ}
    (hs : R s t) (h : Each ok step s is) :
    R (Runs.run step s is) (Runs.run step' t (is.flatMap does)) := by
  induction is generalizing s t with
  | nil => exact hs
  | cons i is ih =>
    rw [List.flatMap_cons, run_append]
    exact ih (sim s t i hs h.1) h.2

theorem each_append {js : List ι} :
    Each ok step s (is ++ js) ↔ Each ok step s is ∧ Each ok step (Runs.run step s is) js := by
  induction is generalizing s with
  | nil => simp [Each]
  | cons i is ih => simp only [List.cons_append, Each, ih, run_cons, and_assoc]

theorem Each.and {p q : σ → ι → Prop} (hp : Each p step s is) (hq : Each q step s is) :
    Each (fun s i => p s i ∧ q s i) step s is := by
  induction is generalizing s with
  | nil => trivial
  | cons i is ih => exact ⟨⟨hp.1, hq.1⟩, ih hp.2 hq.2⟩

theorem Each.run_fixed (h : Each ok step s is) (hfixed : ∀ i ∈ is, ok s i → step s i = s) :
    Runs.run step s is = s := by
  induction is with
  | nil => rfl
  | cons i is ih =>
    have hstep : step s i = s := hfixed i (by simp) h.1
    have hrest : Each ok step s is := by
      have hlater := h.2
      rwa [hstep] at hlater
    rw [run_cons, hstep]
    exact ih hrest fun j hj => hfixed j (by simp [hj])

theorem each_of_mem (h : ∀ i ∈ is, ∀ s, ok s i) (s : σ) : Each ok step s is := by
  induction is generalizing s with
  | nil => trivial
  | cons i is ih => exact ⟨h i (by simp) s, ih (fun j hj => h j (by simp [hj])) _⟩

theorem run_invariant (keep : ∀ s i, P s → P (step s i)) (hs : P s) (is : List ι) :
    P (Runs.run step s is) := by
  have hall : Each (fun _ _ => True) step s is := each_of_mem (fun _ _ _ => trivial) s
  exact hall.run (fun s i hs _ => keep s i hs) hs

/-- Under `I`, which allowed steps keep, a step leads to `P` exactly when it is allowed: then
`P` holds throughout a run exactly when each of its steps is allowed. -/
theorem always_iff_each_of {I : σ → Prop}
    (keep : ∀ s i, I s → ok s i → I (step s i)) (hholds : ∀ s, I s → P s)
    (hstep : ∀ s i, I s → (P (step s i) ↔ ok s i)) (hs : I s) :
    Always P step s is ↔ Each ok step s is := by
  constructor
  · intro h
    induction is generalizing s with
    | nil => trivial
    | cons i is ih =>
      have hok : ok s i := (hstep s i hs).mp h.2.start
      exact ⟨hok, ih (keep s i hs hok) h.2⟩
  · exact fun h => (h.always keep hs).imp hholds

/-- Under `P`, one step keeps `P` exactly when it is allowed: then a run keeps
`P` throughout exactly when each of its steps is allowed. -/
theorem always_iff_each (hstep : ∀ s i, P s → (P (step s i) ↔ ok s i)) (hs : P s) :
    Always P step s is ↔ Each ok step s is :=
  always_iff_each_of (fun s i hs hok => (hstep s i hs).mpr hok) (fun _ hs => hs) hstep hs

/-- Where allowed steps that meet in a state came from one state, and by inputs alike as
`rep` sees them, so did runs as long as each other. -/
theorem Each.run_inj {κ : Type*} {rep : ι → κ}
    (hstep : ∀ s i s' i', ok s i → ok s' i' → step s i = step s' i' → s = s' ∧ rep i = rep i')
    {s' : σ} {is' : List ι} (h : Each ok step s is) (h' : Each ok step s' is')
    (hlen : is.length = is'.length) (hend : Runs.run step s is = Runs.run step s' is') :
    s = s' ∧ is.map rep = is'.map rep := by
  induction is generalizing s s' is' with
  | nil =>
    obtain rfl : is' = [] := List.length_eq_zero_iff.mp hlen.symm
    exact ⟨hend, rfl⟩
  | cons i is ih =>
    cases is' with
    | nil => simp at hlen
    | cons i' is' =>
      obtain ⟨hnext, hrest⟩ := ih h.2 h'.2 (by simpa using hlen) hend
      obtain ⟨hs, hrep⟩ := hstep s i s' i' h.1 h'.1 hnext
      exact ⟨hs, by rw [List.map_cons, List.map_cons, hrep, hrest]⟩

/-- Two conditions on steps that agree wherever an invariant holds agree on runs. -/
theorem each_congr {I : σ → Prop} {p q : σ → ι → Prop}
    (keep : ∀ s i, I s → ok s i → q s i → I (step s i))
    (hpq : ∀ s i, I s → ok s i → (p s i ↔ q s i)) (hs : I s)
    (hok : Each ok step s is) : Each p step s is ↔ Each q step s is := by
  induction is generalizing s with
  | nil => exact Iff.rfl
  | cons i is ih =>
    constructor
    · rintro ⟨hp, hrest⟩
      have hq := (hpq s i hs hok.1).mp hp
      exact ⟨hq, (ih (keep s i hs hok.1 hq) hok.2).mp hrest⟩
    · rintro ⟨hq, hrest⟩
      exact ⟨(hpq s i hs hok.1).mpr hq, (ih (keep s i hs hok.1 hq) hok.2).mpr hrest⟩

/-- What a step cannot repair holds throughout a run exactly when it holds at the
end of it. -/
theorem always_iff_end {I : σ → Prop}
    (keep : ∀ s i, I s → I (step s i)) (back : ∀ s i, I s → P (step s i) → P s) (hs : I s) :
    Always (fun s => I s ∧ P s) step s is ↔ P (run step s is) := by
  induction is generalizing s with
  | nil => exact and_iff_right hs
  | cons i is ih =>
    have hrest := ih (keep s i hs)
    constructor
    · exact fun h => hrest.mp h.2
    · intro h
      have htail := hrest.mpr h
      exact ⟨⟨hs, back s i hs htail.start.2⟩, htail⟩

end Sqex.Runs
