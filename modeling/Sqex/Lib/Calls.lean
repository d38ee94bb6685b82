import Mathlib.Logic.Basic

/-! Calls that may fail: over a state, keeping what they changed by then, with the rules that carry
an invariant through one; and what a sequence of them did, where it returned. -/
namespace Sqex

section Stateful
/-- A call over a state: what it returns or why it failed, and the state after. -/
def Call (ε σ α : Type) : Type := σ → Except ε α × σ

namespace Call
variable {ε σ α β : Type}

instance : Monad (Call ε σ) where
  pure a s := (.ok a, s)
  bind m f s :=
    match m s with
    | (.ok a, s') => f a s'
    | (.error e, s') => (.error e, s')

def result (m : Call ε σ α) (s : σ) : Except ε α := (m s).1
def after (m : Call ε σ α) (s : σ) : σ := (m s).2

def fail (e : ε) : Call ε σ α := fun s => (.error e, s)
def get : Call ε σ σ := fun s => (.ok s, s)
def modify (f : σ → σ) : Call ε σ Unit := fun s => (.ok (), f s)

def expect (e : ε) : Option α → Call ε σ α
  | some a => pure a
  | none => fail e

def doIf (c : Prop) [Decidable c] (m : Call ε σ Unit) : Call ε σ Unit :=
  if c then m else pure ()

def failIf (c : Prop) [Decidable c] (e : ε) : Call ε σ Unit := doIf c (fail e)

def attempt (m : Call ε σ α) : Call ε σ (Except ε α) := fun s => (.ok (m.result s), m.after s)

def forEach (f : α → Call ε σ Unit) : List α → Call ε σ Unit
  | [] => pure ()
  | a :: as => do
    f a
    forEach f as

/-- Under the invariant `I`, a call started where `P` holds keeps `I`, returned or
failed, and leaves `Q` of what it returned. -/
def Triple (I P : σ → Prop) (m : Call ε σ α) (Q : α → σ → Prop) : Prop :=
  ∀ s, I s → P s → I (m.after s) ∧ ∀ a, m.result s = .ok a → Q a (m.after s)

def Keeps (I : σ → Prop) (m : Call ε σ α) : Prop := ∀ s, I s → I (m.after s)

theorem bind_ok {m : Call ε σ α} {f : α → Call ε σ β} {s : σ} {a : α}
    (h : m.result s = .ok a) : (m >>= f) s = f a (m.after s) := by
  have hrun : m s = (.ok a, m.after s) := Prod.ext h rfl
  change (match m s with
    | (.ok a, s') => f a s'
    | (.error e, s') => (.error e, s')) = f a (m.after s)
  rw [hrun]

theorem bind_error {m : Call ε σ α} {f : α → Call ε σ β} {s : σ} {e : ε}
    (h : m.result s = .error e) : (m >>= f) s = (.error e, m.after s) := by
  have hrun : m s = (.error e, m.after s) := Prod.ext h rfl
  change (match m s with
    | (.ok a, s') => f a s'
    | (.error e, s') => (.error e, s')) = _
  rw [hrun]

theorem get_bind {f : σ → Call ε σ α} {s : σ} : (get >>= f) s = f s s := rfl

/-- A check a call starts with: it stops there, or the rest goes on from the same state. -/
theorem failIf_bind {c : Prop} [Decidable c] {e : ε} {f : Unit → Call ε σ α} {s : σ} :
    (failIf c e >>= f) s = if c then (.error e, s) else f () s := by
  by_cases hc : c
  · simp only [failIf, doIf, if_pos hc]
    rfl
  · simp only [failIf, doIf, if_neg hc]
    rfl

variable {I P : σ → Prop} {Q : α → σ → Prop} {R : β → σ → Prop}
variable {m : Call ε σ α} {f : α → Call ε σ β} {c : Prop} [Decidable c]

theorem triple_pure {a : α} (h : ∀ s, I s → P s → Q a s) : Triple I P (pure a : Call ε σ α) Q := by
  intro s hI hP
  refine ⟨hI, fun b hb => ?_⟩
  obtain rfl := Except.ok.inj hb
  exact h s hI hP

theorem triple_fail (e : ε) : Triple I P (fail e : Call ε σ α) Q := by
  intro s hI _
  exact ⟨hI, fun a ha => by cases ha⟩

theorem triple_get : Triple I P (get : Call ε σ σ) fun d s => d = s ∧ P s := by
  intro s hI hP
  refine ⟨hI, fun d hd => ?_⟩
  obtain rfl := Except.ok.inj hd
  exact ⟨rfl, hP⟩

theorem triple_expect (e : ε) (a : Option α) :
    Triple I P (expect e a : Call ε σ α) fun b s => a = some b ∧ P s := by
  cases a with
  | none => exact triple_fail e
  | some a => exact triple_pure fun s _ hP => ⟨rfl, hP⟩

/-- Two calls in turn: what the first leaves is what the second starts from. -/
theorem triple_bind (hm : Triple I P m Q)
    (hf : ∀ a, Triple I (Q a) (f a) R) : Triple I P (m >>= f) R := by
  intro s hI hP
  obtain ⟨hI', hQ⟩ := hm s hI hP
  cases hresult : m.result s with
  | ok a =>
    have hrun := bind_ok (f := f) hresult
    obtain ⟨hI'', hR⟩ := hf a (m.after s) hI' (hQ a hresult)
    unfold after result
    rw [hrun]
    exact ⟨hI'', hR⟩
  | error e =>
    have hrun := bind_error (f := f) hresult
    unfold after result
    rw [hrun]
    exact ⟨hI', fun a ha => by cases ha⟩

theorem triple_pure_bind {a : α} (hf : Triple I P (f a) R) : Triple I P (pure a >>= f) R := hf

theorem triple_ite {n : Call ε σ α} (hm : c → Triple I P m Q) (hn : ¬ c → Triple I P n Q) :
    Triple I P (if c then m else n) Q := by
  by_cases hc : c
  · rw [if_pos hc]
    exact hm hc
  · rw [if_neg hc]
    exact hn hc

theorem triple_doIf {m : Call ε σ Unit}
    (hm : c → Triple I P m fun _ _ => True) : Triple I P (doIf c m) fun _ _ => True :=
  triple_ite hm fun _ => triple_pure fun _ _ _ => trivial

theorem triple_failIf (hc : c) (e : ε) {R : Unit → σ → Prop} :
    Triple I P (failIf c e : Call ε σ Unit) R := by
  unfold failIf doIf
  rw [if_pos hc]
  exact triple_fail e

theorem triple_false : Triple I (fun _ => False) m Q :=
  fun _ _ h => h.elim

theorem Triple.imp {P' : σ → Prop} {Q' : α → σ → Prop}
    (h : Triple I P m Q) (hP : ∀ s, P' s → P s) (hQ : ∀ a s, Q a s → Q' a s) :
    Triple I P' m Q' := by
  intro s hI hP'
  obtain ⟨hI', hQ'⟩ := h s hI (hP s hP')
  exact ⟨hI', fun a ha => hQ a _ (hQ' a ha)⟩

theorem Triple.keeps (h : Triple I (fun _ => True) m Q) : Keeps I m :=
  fun s hI => (h s hI trivial).1

theorem Keeps.triple (h : Keeps I m) : Triple I P m fun _ _ => True :=
  fun s hI _ => ⟨h s hI, fun _ _ => trivial⟩

/-- What is read is the state the rest starts from, and the invariant holds of it. -/
theorem triple_get_bind {f : σ → Call ε σ β}
    (hf : ∀ d, I d → P d → Triple I (fun s => s = d) (f d) R) : Triple I P (get >>= f) R :=
  fun s hI hP => hf s hI hP s hI rfl

theorem keeps_pure (a : α) : Keeps I (pure a : Call ε σ α) := fun _ h => h

theorem keeps_fail (e : ε) : Keeps I (fail e : Call ε σ α) := fun _ h => h

theorem keeps_get : Keeps I (get : Call ε σ σ) := fun _ h => h

theorem keeps_modify {f : σ → σ} (h : ∀ s, I s → I (f s)) : Keeps I (modify f : Call ε σ Unit) := h

theorem keeps_expect (e : ε) (a : Option α) : Keeps I (expect e a : Call ε σ α) :=
  (triple_expect e a).keeps

theorem keeps_attempt (hm : Keeps I m) : Keeps I (attempt m) := hm

theorem keeps_bind (hm : Keeps I m) (hf : ∀ a, Keeps I (f a)) : Keeps I (m >>= f) := by
  have hboth : Triple I (fun _ => True) (m >>= f) fun _ _ => True :=
    triple_bind hm.triple fun a => (hf a).triple
  exact hboth.keeps

theorem keeps_ite {n : Call ε σ α} (hm : Keeps I m)
    (hn : Keeps I n) : Keeps I (if c then m else n) := by
  by_cases hc : c
  · rw [if_pos hc]
    exact hm
  · rw [if_neg hc]
    exact hn

theorem keeps_doIf {m : Call ε σ Unit} (hm : Keeps I m) :
    Keeps I (doIf c m) := keeps_ite hm (keeps_pure ())

theorem keeps_doIf_of {m : Call ε σ Unit} (hm : c → Keeps I m) : Keeps I (doIf c m) := by
  by_cases hc : c
  · exact keeps_doIf (hm hc)
  · intro s hI
    simpa [doIf, hc] using keeps_pure () s hI

theorem keeps_get_bind {f : σ → Call ε σ β} (hf : ∀ d, I d → Keeps I (f d)) :
    Keeps I (get >>= f) := fun s hI => hf s hI s hI

theorem keeps_failIf (e : ε) : Keeps I (failIf c e : Call ε σ Unit) := keeps_doIf (keeps_fail e)

theorem keeps_forEach_of {f : α → Call ε σ Unit} {as : List α}
    (hf : ∀ a ∈ as, Keeps I (f a)) : Keeps I (forEach f as) := by
  induction as with
  | nil => exact keeps_pure ()
  | cons a as ih =>
    have hrest := ih fun a' ha' => hf a' (List.mem_cons_of_mem a ha')
    exact keeps_bind (hf a List.mem_cons_self) fun _ => hrest

theorem keeps_forEach {f : α → Call ε σ Unit} (hf : ∀ a, Keeps I (f a)) (as : List α) :
    Keeps I (forEach f as) := keeps_forEach_of fun a _ => hf a

end Call

end Stateful

section Outcomes
variable {ε α β : Type} {b : β}

theorem bind_eq_ok {x : Except ε α} {f : α → Except ε β} :
    (x >>= f) = .ok b ↔ ∃ a, x = .ok a ∧ f a = .ok b := by
  cases x with
  | error e | ok a => simp [bind, Except.bind]

@[simp] theorem pure_eq_ok {a b : α} : (pure a : Except ε α) = .ok b ↔ a = b := by
  simp [pure, Except.pure]

theorem map_eq_ok {x : Except ε α} {f : α → β} : x.map f = .ok b ↔ ∃ a, x = .ok a ∧ f a = b := by
  cases x with
  | error e | ok a => simp [Except.map]

end Outcomes

end Sqex
