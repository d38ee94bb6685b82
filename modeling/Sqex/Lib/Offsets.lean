import Mathlib.Data.List.Basic
import Sqex.Lib.Calls

/-! Values read off some bytes: at an offset, what stands where, and readers that take exactly what
was written; and off the front, in the order they were written in. -/
namespace Sqex.Offsets
variable {ε α : Type} {b v w : List UInt8} {o n : Nat} {x : α}

def slice (b : List UInt8) (o n : Nat) : List UInt8 := (b.drop o).take n

def Stands (b : List UInt8) (o : Nat) (w : List UInt8) : Prop :=
  o ≤ b.length ∧ w <+: b.drop o

theorem stands_iff_slice : Stands b o w ↔ o + w.length ≤ b.length ∧ slice b o w.length = w := by
  rw [Stands, List.prefix_iff_eq_take, slice]
  constructor
  · intro ⟨ho, heq⟩
    have hlen : w.length ≤ (b.drop o).length := by
      have hcut := congrArg List.length heq
      rw [List.length_take] at hcut
      omega
    rw [List.length_drop] at hlen
    exact ⟨by omega, heq.symm⟩
  · intro ⟨hlen, heq⟩
    exact ⟨by omega, heq.symm⟩

theorem Stands.length (h : Stands b o w) : o + w.length ≤ b.length := (stands_iff_slice.mp h).1

theorem stands_nil : Stands b o [] ↔ o ≤ b.length := by
  simp [Stands]

theorem Stands.slice (h : Stands b o w) : slice b o w.length = w := (stands_iff_slice.mp h).2

theorem length_slice (h : o + n ≤ b.length) : (slice b o n).length = n := by
  rw [Offsets.slice, List.length_take, List.length_drop]
  omega

theorem stands_slice (h : o + n ≤ b.length) : Stands b o (slice b o n) := by
  rw [stands_iff_slice, length_slice h]
  exact ⟨h, rfl⟩

theorem stands_append : Stands b o (v ++ w) ↔ Stands b o v ∧ Stands b (o + v.length) w := by
  constructor
  · intro h
    have hlen := h.length
    rw [List.length_append] at hlen
    have hfirst : v <+: b.drop o := (List.prefix_append v w).trans h.2
    obtain ⟨rest, hrest⟩ := h.2
    refine ⟨⟨h.1, hfirst⟩, by omega, rest, ?_⟩
    rw [← List.drop_drop, ← hrest, List.append_assoc, List.drop_left]
  · intro ⟨hv, hw⟩
    refine ⟨hv.1, ?_⟩
    obtain ⟨rest, hrest⟩ := hv.2
    have hdrop : b.drop (o + v.length) = rest := by
      rw [← List.drop_drop, ← hrest, List.drop_left]
    rw [← hrest]
    exact List.prefix_append_right_inj v |>.mpr (hdrop ▸ hw.2)

/-- Of a field with more behind it only what is read counts: what is behind says that it fits. -/
theorem stands_field {p : Prop} {n : Nat} (hlen : v.length = n)
    (hv : Stands b o v ↔ o + n ≤ b.length ∧ p) : Stands b o (v ++ w) ↔ p ∧ Stands b (o + n) w := by
  rw [stands_append, hv, hlen, and_assoc, and_iff_right_iff_imp]
  exact fun h => h.2.1

theorem stands_cons {x : UInt8} : Stands b o (x :: w) ↔ Stands b o [x] ∧ Stands b (o + 1) w :=
  stands_append (v := [x])

theorem stands_whole : Stands b 0 w ∧ w.length = b.length ↔ b = w := by
  constructor
  · intro ⟨hstands, hlen⟩
    have hinitial : w <+: b := by simpa using hstands.2
    exact (hinitial.eq_of_length hlen).symm
  · rintro rfl
    simp [Stands]

theorem stands_rest : Stands b o w ∧ b.length = o + w.length ↔ o ≤ b.length ∧ b.drop o = w := by
  constructor
  · intro ⟨⟨ho, hfront⟩, hlen⟩
    exact ⟨ho, (hfront.eq_of_length (by rw [List.length_drop]; omega)).symm⟩
  · rintro ⟨ho, rfl⟩
    exact ⟨⟨ho, List.prefix_rfl⟩, by rw [List.length_drop]; omega⟩

/-- Some bytes are two parts when the first stands at the front and the second is the rest. -/
theorem eq_append_iff : b = v ++ w ↔ Stands b 0 v ∧ b.drop v.length = w := by
  constructor
  · rintro rfl
    exact ⟨⟨Nat.zero_le _, List.prefix_append v w⟩, List.drop_left⟩
  · rintro ⟨⟨-, hfirst⟩, rfl⟩
    exact (List.prefix_iff_eq_append.mp hfirst).symm

theorem length_flatMap {write : α → List UInt8} {width : Nat}
    (hwidth : ∀ x, (write x).length = width) {xs : List α} :
    (xs.flatMap write).length = xs.length * width := by
  induction xs with
  | nil => simp
  | cons x xs ih => rw [List.flatMap_cons, List.length_append, ih, hwidth, List.length_cons,
      Nat.succ_mul, Nat.add_comm]

theorem stands_self : Stands w 0 w := (stands_whole.mpr rfl).1

theorem stands_flatMap {write : α → List UInt8} {width : Nat}
    (hwidth : ∀ x, (write x).length = width) {xs : List α} : Stands b o (xs.flatMap write) ↔
      o ≤ b.length ∧ ∀ i, ∀ h : i < xs.length, Stands b (o + i * width) (write xs[i]) := by
  induction xs generalizing o with
  | nil => simp [stands_nil]
  | cons x xs ih =>
    rw [List.flatMap_cons, stands_append, ih, hwidth]
    constructor
    · intro ⟨hfirst, _, hrest⟩
      refine ⟨hfirst.1, fun i hi => ?_⟩
      cases i with
      | zero => simpa using hfirst
      | succ i =>
        have hnext := hrest i (by simpa using hi)
        rwa [show o + width + i * width = o + (i + 1) * width by rw [Nat.succ_mul]; omega] at hnext
    · intro ⟨ho, hall⟩
      have hfirst := hall 0 (by simp)
      rw [Nat.zero_mul, Nat.add_zero, List.getElem_cons_zero] at hfirst
      refine ⟨hfirst, hwidth x ▸ hfirst.length, fun i hi => ?_⟩
      have hnext := hall (i + 1) (by simpa using hi)
      rwa [show o + (i + 1) * width = o + width + i * width by rw [Nat.succ_mul]; omega] at hnext

/-- A loop over the first `n` numbers that returned gave a value for each. -/
theorem mapM_range_eq_ok {f : Nat → Except ε α} {xs : List α} :
    (List.range n).mapM f = .ok xs ↔
      xs.length = n ∧ ∀ i, ∀ h : i < xs.length, f i = .ok xs[i] := by
  induction n generalizing xs with
  | zero =>
    simp only [List.range_zero, List.mapM_nil, pure_eq_ok, List.length_eq_zero_iff]
    constructor
    · rintro rfl
      simp
    · rintro ⟨rfl, -⟩
      rfl
  | succ n ih =>
    rw [List.range_succ, List.mapM_append]
    simp only [List.mapM_cons, List.mapM_nil, bind_eq_ok, pure_eq_ok]
    constructor
    · rintro ⟨ys, hys, zs, ⟨x, hx, rest, rfl, rfl⟩, rfl⟩
      obtain ⟨hlen, hall⟩ := ih.mp hys
      refine ⟨by simp [hlen], fun i hi => ?_⟩
      by_cases hlast : i < ys.length
      · rw [List.getElem_append_left hlast]
        exact hall i hlast
      · have hi' : i = n := by
          rw [List.length_append, List.length_singleton] at hi
          omega
        subst hi'
        simpa [hlen] using hx
    · rintro ⟨hlen, hall⟩
      have hne : xs ≠ [] := by
        rintro rfl
        simp at hlen
      refine ⟨xs.dropLast, ih.mpr ⟨by simp [hlen], fun i hi => ?_⟩, [xs.getLast hne],
        ⟨xs.getLast hne, ?_, [], rfl, rfl⟩, List.dropLast_append_getLast hne⟩
      · rw [List.getElem_dropLast]
        exact hall i _
      · rw [List.getLast_eq_getElem]
        simpa [hlen] using hall n (by omega)

theorem stands_mapM {write : α → List UInt8} {read : List UInt8 → Nat → Except ε α} {width : Nat}
    (hwidth : ∀ x, (write x).length = width)
    (hread : ∀ b o x, Stands b o (write x) ↔ o + width ≤ b.length ∧ read b o = .ok x)
    {xs : List α} : Stands b o (xs.flatMap write) ↔ o + xs.length * width ≤ b.length ∧
      (List.range xs.length).mapM (fun i => read b (o + i * width)) = .ok xs := by
  rw [stands_flatMap hwidth, mapM_range_eq_ok]
  simp only [hread]
  constructor
  · intro ⟨ho, hall⟩
    refine ⟨?_, trivial, fun i hi => (hall i hi).2⟩
    cases hlen : xs.length with
    | zero => simpa using ho
    | succ n =>
      have hlast := (hall n (by omega)).1
      rw [Nat.succ_mul]
      omega
  · intro ⟨hlen, _, hall⟩
    refine ⟨by omega, fun i hi => ⟨?_, hall i hi⟩⟩
    have hle : (i + 1) * width ≤ xs.length * width := Nat.mul_le_mul_right width hi
    rw [Nat.succ_mul] at hle
    omega

theorem stands_map {write : α → List UInt8} {read : List UInt8 → Nat → α} {width : Nat}
    (hwidth : ∀ x, (write x).length = width)
    (hread : ∀ b o x, Stands b o (write x) ↔ o + width ≤ b.length ∧ read b o = x)
    {xs : List α} : Stands b o (xs.flatMap write) ↔ o + xs.length * width ≤ b.length ∧
      (List.range xs.length).map (fun i => read b (o + i * width)) = xs := by
  have hok : ∀ b o x, Stands b o (write x) ↔
      o + width ≤ b.length ∧ (.ok (read b o) : Except Unit α) = .ok x := by simpa using hread
  have hpure : Stands b o (xs.flatMap write) ↔ _ := stands_mapM hwidth hok
  have hmap : (List.range xs.length).mapM
      (fun i => (.ok (read b (o + i * width)) : Except Unit α)) =
      .ok ((List.range xs.length).map fun i => read b (o + i * width)) := List.mapM_pure
  rwa [hmap, Except.ok.injEq] at hpure

abbrev ReaderAt (ε α : Type) := List UInt8 → Nat → Except ε (α × Nat)

def Codec (read : ReaderAt ε α) (write : α → List UInt8) (Fits : α → Prop) : Prop :=
  ∀ b o x o', o ≤ b.length →
    (read b o = .ok (x, o') ↔ (Stands b o (write x) ∧ o' = o + (write x).length) ∧ Fits x)

def readMany (read : ReaderAt ε α) : Nat → ReaderAt ε (List α)
  | 0, _, o => pure ([], o)
  | n + 1, b, o => do
    let (x, o) ← read b o
    let (xs, o) ← readMany read n b o
    pure (x :: xs, o)

theorem Codec.many {read : ReaderAt ε α} {write : α → List UInt8} {Fits : α → Prop}
    (h : Codec read write Fits) (n : Nat) :
    Codec (readMany read n) (·.flatMap write) fun xs => xs.length = n ∧ ∀ x ∈ xs, Fits x := by
  induction n with
  | zero =>
    intro b o xs o' ho
    simp only [readMany, pure_eq_ok, Prod.mk.injEq, List.length_eq_zero_iff]
    constructor
    · rintro ⟨rfl, rfl⟩
      simpa [stands_nil] using ho
    · rintro ⟨⟨-, rfl⟩, rfl, -⟩
      simp
  | succ n ih =>
    intro b o xs o' ho
    simp only [readMany, bind_eq_ok, pure_eq_ok, Prod.mk.injEq, Prod.exists]
    constructor
    · rintro ⟨x, mid, hx, tail, last, htail, rfl, rfl⟩
      obtain ⟨⟨hstands, rfl⟩, hfits⟩ := (h _ _ _ _ ho).mp hx
      obtain ⟨⟨hrest, rfl⟩, hlen, hall⟩ := (ih _ _ _ _ hstands.length).mp htail
      rw [List.flatMap_cons, stands_append, List.length_append, List.length_cons, hlen,
        List.forall_mem_cons]
      exact ⟨⟨⟨hstands, hrest⟩, Nat.add_assoc _ _ _⟩, rfl, hfits, hall⟩
    · rintro ⟨⟨hstands, rfl⟩, hlen, hall⟩
      cases xs with
      | nil => simp at hlen
      | cons x xs =>
        rw [List.flatMap_cons, stands_append] at hstands
        rw [List.forall_mem_cons] at hall
        have hx := (h b o x _ ho).mpr ⟨⟨hstands.1, rfl⟩, hall.1⟩
        have htail := (ih b _ xs _ hstands.1.length).mpr
          ⟨⟨hstands.2, rfl⟩, by simpa using hlen, hall.2⟩
        refine ⟨x, _, hx, xs, _, htail, rfl, ?_⟩
        rw [List.flatMap_cons, List.length_append, Nat.add_assoc]

theorem Codec.many_eq_ok {read : ReaderAt ε α} {write : α → List UInt8} {Fits : α → Prop}
    (h : Codec read write Fits) {xs : List α} {o' : Nat} (ho : o ≤ b.length) :
    readMany read n b o = .ok (xs, o') ↔
      (Stands b o (xs.flatMap write) ∧ o' = o + (xs.flatMap write).length) ∧
        xs.length = n ∧ ∀ x ∈ xs, Fits x := h.many n b o xs o' ho

end Sqex.Offsets

namespace Sqex.Wire
variable {α β : Type} {w w' : List UInt8} {x : α} {y : β}

abbrev Reading (α : Type) := StateT (List UInt8) Option α

def take (n : Nat) : Reading (List UInt8) := fun b =>
  if n ≤ b.length then some (b.take n, b.drop n) else none

def whole (r : Reading α) (b : List UInt8) : Option α :=
  match r b with
  | some (x, []) => some x
  | _ => none

/-- Written as `w`, a value is read as it was, whatever follows. -/
def Reads (r : Reading α) (w : List UInt8) (x : α) : Prop :=
  ∀ rest, r (w ++ rest) = some (x, rest)

theorem reads_pure (x : α) : Reads (pure x) [] x := fun _ => rfl

theorem Reads.run_bind {r : Reading α} (h : Reads r w x) (k : α → Reading β)
    (rest : List UInt8) : (r >>= k) (w ++ rest) = k x rest := by
  have hrun : (r >>= k) (w ++ rest) = (r (w ++ rest)).bind fun p => k p.1 p.2 := rfl
  rw [hrun, h]
  rfl

theorem Reads.bind {r : Reading α} {k : α → Reading β} (h : Reads r w x)
    (hk : Reads (k x) w' y) : Reads (r >>= k) (w ++ w') y := by
  intro rest
  rw [List.append_assoc, h.run_bind]
  exact hk rest

theorem Reads.last {r : Reading α} {k : α → Reading β} (h : Reads r w x) (hk : k x = pure y) :
    Reads (r >>= k) w y := by
  have hboth : Reads (r >>= k) (w ++ []) y := h.bind (hk ▸ reads_pure y)
  rwa [List.append_nil] at hboth

theorem Reads.map {r : Reading α} (h : Reads r w x) (f : α → β) : Reads (f <$> r) w (f x) := by
  intro rest
  have hrun : (f <$> r) (w ++ rest) = (r (w ++ rest)).map fun p => (f p.1, p.2) := by
    cases h' : r (w ++ rest) <;> simp [Functor.map, StateT.map, h']
  rw [hrun, h]
  rfl

theorem reads_take {n : Nat} (hn : w.length = n) : Reads (take n) w w := by
  intro rest
  subst hn
  simp [take]

def Spans (r : Reading α) (n : Nat) : Prop :=
  ∀ b x rest, r b = some (x, rest) → b.length = rest.length + n

theorem spans_take (n : Nat) : Spans (take n) n := by
  intro b x rest h
  unfold take at h
  split at h
  · next hn =>
    simp only [Option.some.injEq, Prod.mk.injEq] at h
    rw [← h.2, List.length_drop]
    omega
  · simp at h

theorem Spans.map {r : Reading α} {n : Nat} (h : Spans r n) (f : α → β) : Spans (f <$> r) n := by
  intro b y rest hy
  have hrun : (f <$> r) b = (r b).map fun p => (f p.1, p.2) := by
    cases h' : r b <;> simp [Functor.map, StateT.map, h']
  rw [hrun, Option.map_eq_some_iff] at hy
  obtain ⟨⟨x, left⟩, hx, hpair⟩ := hy
  simp only [Prod.mk.injEq] at hpair
  exact hpair.2 ▸ h b x left hx

theorem Spans.bind {r : Reading α} {k : α → Reading β} {n m : Nat} (h : Spans r n)
    (hk : ∀ x, Spans (k x) m) : Spans (r >>= k) (n + m) := by
  intro b y rest hy
  have hrun : (r >>= k) b = (r b).bind fun p => k p.1 p.2 := rfl
  rw [hrun, Option.bind_eq_some_iff] at hy
  obtain ⟨⟨x, left⟩, hx, hy⟩ := hy
  have hfirst := h b x left hx
  have hsecond := hk x left y rest hy
  omega

theorem spans_pure (x : α) : Spans (pure x) 0 := by
  intro b y rest hy
  have hrun : (pure x : Reading α) b = some (x, b) := rfl
  rw [hrun, Option.some.injEq, Prod.mk.injEq] at hy
  rw [hy.2]
  rfl

end Sqex.Wire
