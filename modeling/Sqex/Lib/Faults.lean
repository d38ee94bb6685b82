import Sqex.Lib.Calls

/-! A store written statement by statement, and a fault at one of the statements: it fails
alone, or everything stops there. -/
namespace Sqex
variable {σ ε : Type}

/-- A fault: how many statements are carried out before it, and whether all stops at it. -/
structure Fault where
  after : Nat
  stops : Bool
  deriving DecidableEq

structure Faulty (σ : Type) where
  store : σ
  fault : Option Fault

namespace Faulty

def clean (s : σ) : Faulty σ := ⟨s, none⟩

/-- The store and what is left of a fault struck already: an end stays one. -/
def struck (s : σ) (stops : Bool) : Faulty σ := ⟨s, if stops then some ⟨0, true⟩ else none⟩

def attempted (f : σ → Option σ) (s : σ) : σ := (f s).getD s

def applied (fs : List (σ → Option σ)) (s : σ) : σ := fs.foldl (fun s f => attempted f s) s

@[simp] theorem applied_nil (s : σ) : applied [] s = s := rfl

@[simp] theorem applied_cons (f : σ → Option σ) (fs : List (σ → Option σ)) (s : σ) :
    applied (f :: fs) s = applied fs (attempted f s) := rfl

@[simp] theorem applied_append (fs gs : List (σ → Option σ)) (s : σ) :
    applied (fs ++ gs) s = applied gs (applied fs s) := List.foldl_append

def Succeed : List (σ → Option σ) → σ → Prop
  | [], _ => True
  | f :: fs, s => (f s).isSome ∧ Succeed fs (attempted f s)

theorem succeed_map (fs : List (σ → σ)) (s : σ) :
    Succeed (fs.map fun f s => some (f s)) s := by
  induction fs generalizing s with
  | nil => trivial
  | cons f fs ih => exact ⟨rfl, ih _⟩

def exec (e : ε) (f : σ → Option σ) : Call ε (Faulty σ) Unit := fun d =>
  match d.fault with
  | some ⟨0, stops⟩ => (.error e, struck d.store stops)
  | fault =>
    let ahead := fault.map fun x => ⟨x.after - 1, x.stops⟩
    match f d.store with
    | some s => (.ok (), ⟨s, ahead⟩)
    | none => (.error e, ⟨d.store, ahead⟩)

def execAll (e : ε) (fs : List (σ → Option σ)) : Call ε (Faulty σ) Unit := Call.forEach (exec e) fs

def tryAll (e : ε) (fs : List (σ → Option σ)) : Call ε (Faulty σ) Unit :=
  Call.forEach (fun f => do let _ ← Call.attempt (exec e f)) fs

variable {e : ε} {f : σ → Option σ} {fs : List (σ → Option σ)} {s : σ} {n : Nat} {stops : Bool}

theorem exec_clean (h : (f s).isSome) : exec e f (clean s) = (.ok (), clean (attempted f s)) := by
  obtain ⟨s', hs⟩ := Option.isSome_iff_exists.mp h
  simp [exec, clean, attempted, hs]

theorem exec_zero : exec e f ⟨s, some ⟨0, stops⟩⟩ = (.error e, struck s stops) := rfl

theorem exec_succ (h : (f s).isSome) :
    exec e f ⟨s, some ⟨n + 1, stops⟩⟩ = (.ok (), ⟨attempted f s, some ⟨n, stops⟩⟩) := by
  obtain ⟨s', hs⟩ := Option.isSome_iff_exists.mp h
  simp [exec, attempted, hs]

theorem execAll_cons_ok {d d' : Faulty σ} (h : exec e f d = (.ok (), d')) :
    execAll e (f :: fs) d = execAll e fs d' := by
  have hresult : (exec e f).result d = .ok () := by rw [Call.result, h]
  have hafter : (exec e f).after d = d' := by rw [Call.after, h]
  have hrest := Call.bind_ok (f := fun _ => execAll e fs) hresult
  rwa [hafter] at hrest

theorem execAll_cons_error {d d' : Faulty σ} (h : exec e f d = (.error e, d')) :
    execAll e (f :: fs) d = (.error e, d') := by
  have hresult : (exec e f).result d = .error e := by rw [Call.result, h]
  have hafter : (exec e f).after d = d' := by rw [Call.after, h]
  have hrest := Call.bind_error (f := fun _ => execAll e fs) hresult
  rwa [hafter] at hrest

theorem execAll_clean (h : Succeed fs s) :
    execAll e fs (clean s) = (.ok (), clean (applied fs s)) := by
  induction fs generalizing s with
  | nil => rfl
  | cons f fs ih => rw [execAll_cons_ok (exec_clean h.1), ih h.2, applied_cons]

theorem execAll_cut (h : Succeed fs s) (hn : n < fs.length) :
    execAll e fs ⟨s, some ⟨n, stops⟩⟩ = (.error e, struck (applied (fs.take n) s) stops) := by
  induction fs generalizing s n with
  | nil => simp at hn
  | cons f fs ih =>
    cases n with
    | zero => exact execAll_cons_error exec_zero
    | succ n =>
      rw [execAll_cons_ok (exec_succ h.1), ih h.2 (by simpa using hn), List.take_succ_cons,
        applied_cons]

theorem execAll_past (h : Succeed fs s) (hn : fs.length ≤ n) :
    execAll e fs ⟨s, some ⟨n, stops⟩⟩ =
      (.ok (), ⟨applied fs s, some ⟨n - fs.length, stops⟩⟩) := by
  induction fs generalizing s n with
  | nil => rfl
  | cons f fs ih =>
    cases n with
    | zero => simp at hn
    | succ n =>
      rw [execAll_cons_ok (exec_succ h.1), ih h.2 (by simpa using hn), applied_cons]
      simp

theorem tryAll_cons (d : Faulty σ) :
    tryAll e (f :: fs) d = tryAll e fs ((exec e f).after d) := rfl

theorem tryAll_ok {d : Faulty σ} : (tryAll e fs).result d = .ok () := by
  induction fs generalizing d with
  | nil => rfl
  | cons f fs ih =>
    rw [Call.result, tryAll_cons]
    exact ih

theorem exec_after_clean : (exec e f).after (clean s) = clean (attempted f s) := by
  cases hs : f s <;> simp [exec, Call.after, clean, attempted, hs]

theorem exec_after_succ :
    (exec e f).after ⟨s, some ⟨n + 1, stops⟩⟩ = ⟨attempted f s, some ⟨n, stops⟩⟩ := by
  cases hs : f s <;> simp [exec, Call.after, attempted, hs]

theorem tryAll_clean : tryAll e fs (clean s) = (.ok (), clean (applied fs s)) := by
  induction fs generalizing s with
  | nil => rfl
  | cons f fs ih => rw [tryAll_cons, exec_after_clean, ih, applied_cons]

theorem tryAll_struck : tryAll e fs (struck s true) = (.ok (), struck s true) := by
  induction fs generalizing s with
  | nil => rfl
  | cons f fs ih => exact ih

/-- A fault among statements that are tried each: an end leaves those before it, and a
failure leaves out the one. -/
theorem tryAll_cut (hn : n < fs.length) :
    tryAll e fs ⟨s, some ⟨n, stops⟩⟩ =
      (.ok (), struck (applied (if stops then fs.take n else fs.eraseIdx n) s) stops) := by
  induction fs generalizing s n with
  | nil => simp at hn
  | cons f fs ih =>
    cases n with
    | zero =>
      rw [tryAll_cons]
      cases stops with
      | true => exact tryAll_struck
      | false => exact tryAll_clean
    | succ n =>
      rw [tryAll_cons, exec_after_succ, ih (by simpa using hn)]
      cases stops <;> simp

theorem tryAll_past (hn : fs.length ≤ n) :
    tryAll e fs ⟨s, some ⟨n, stops⟩⟩ =
      (.ok (), ⟨applied fs s, some ⟨n - fs.length, stops⟩⟩) := by
  induction fs generalizing s n with
  | nil => rfl
  | cons f fs ih =>
    cases n with
    | zero => simp at hn
    | succ n =>
      rw [tryAll_cons, exec_after_succ, ih (by simpa using hn), applied_cons]
      simp

/-- What every statement keeps is kept, wherever the fault strikes. -/
theorem keeps_exec {I : σ → Prop} (h : ∀ s s', I s → f s = some s' → I s') :
    Call.Keeps (fun d : Faulty σ => I d.store) (exec e f) := by
  intro d hd
  simp only [Call.after, exec]
  split
  · exact hd
  · cases hs : f d.store with
    | none => exact hd
    | some s => exact h d.store s hd hs

theorem keeps_tryAll {I : σ → Prop} (h : ∀ f ∈ fs, ∀ s s', I s → f s = some s' → I s') :
    Call.Keeps (fun d : Faulty σ => I d.store) (tryAll e fs) := by
  refine Call.keeps_forEach_of fun f hf => ?_
  exact Call.keeps_bind (Call.keeps_attempt (keeps_exec (h f hf))) fun _ => Call.keeps_pure ()

end Faulty
end Sqex
