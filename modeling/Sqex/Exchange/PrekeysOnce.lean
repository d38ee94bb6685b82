import Sqex.Exchange.Prekeys

/-! A one-time prekey is served once at most, and an id once accepted is never accepted
again, over every order of calls. -/
namespace Sqex.Prekeys
open Runs
variable {C : Crypto} {s s' : Prekeys} {device other : PubKey}

@[simp] theorem isKind_of (d device : PubKey) (kind : UInt8) (p : Prekey) :
    (PrekeyRow.of d p).isKind device kind = (d == device && p.kind == kind) := rfl

structure Sound (s : Prekeys) : Prop where
  made : ∀ r ∈ s.prekey, ∃ p, r = PrekeyRow.of r.device p
  noted : ∀ r ∈ s.prekey, (r.device, r.id) ∈ s.seen
  few : ∀ device, (s.oneTime device).length ≤ maxStored

theorem sound_opened : Sound opened := ⟨by simp [opened], by simp [opened], by simp [opened, oneTime]⟩

theorem Sound.fewer (h : Sound s) (hrows : s'.prekey.Sublist s.prekey)
    (hseen : s'.seen = s.seen) : Sound s' where
  made r hr := h.made r (hrows.subset hr)
  noted r hr := by
    rw [hseen]
    exact h.noted r (hrows.subset hr)
  few device := by
    have hshort : (s'.oneTime device).length ≤ (s.oneTime device).length :=
      (hrows.filter _).length_le
    exact hshort.trans (h.few device)

def retired (device : PubKey) (batch : List Prekey) (rows : List PrekeyRow) : List PrekeyRow :=
  if batch.any (·.kind == Prekey.kindFallback) then withoutFallback device rows else rows

theorem insertNext_ok {p : Prekey} (h : s.insertNext device p = .ok s') :
    (device, p.id) ∉ s.seen ∧ s'.seen = (device, p.id) :: s.seen ∧
      s'.prekey = retired device [p] s.prekey ++ [.of device p] := by
  unfold insertNext at h
  by_cases hseen : (device, p.id) ∈ s.seen
  · simp [hseen] at h
  · rw [if_neg hseen] at h
    dsimp only at h
    split at h
    · simp at h
    · obtain rfl := Except.ok.inj h
      exact ⟨hseen, rfl, by simp [retired, retire]⟩

/-- A batch that was stored: its ids are new and differ, and its standing part is added to
what it left. -/
theorem insertEach_ok {batch : List Prekey} (h : insertEach device s batch = .ok s') :
    (batch.map fun p => (device, p.id)).Nodup ∧
      (∀ p ∈ batch, (device, p.id) ∉ s.seen) ∧
      (∀ k, k ∈ s'.seen ↔ k ∈ s.seen ∨ k ∈ batch.map fun p => (device, p.id)) ∧
      s'.prekey = retired device batch s.prekey ++
        (Prekey.standing batch).map (PrekeyRow.of device) := by
  induction batch generalizing s with
  | nil =>
    obtain rfl := Except.ok.inj h
    simp [retired, Prekey.standing]
  | cons p ps ih =>
    rw [insertEach] at h
    cases hnext : s.insertNext device p with
    | error e => simp [hnext] at h
    | ok s₁ =>
      rw [hnext] at h
      obtain ⟨hnew, hseen, hrows⟩ := insertNext_ok hnext
      obtain ⟨hnodup, hfresh, hseen', hrows'⟩ := ih h
      have hother : ∀ q ∈ ps, (device, q.id) ≠ (device, p.id) ∧ (device, q.id) ∉ s.seen := by
        intro q hq
        have hq := hfresh q hq
        rw [hseen] at hq
        simpa using hq
      refine ⟨?_, ?_, ?_, ?_⟩
      · refine List.nodup_cons.mpr ⟨fun hmem => ?_, hnodup⟩
        obtain ⟨q, hq, heq⟩ := List.mem_map.mp hmem
        exact (hother q hq).1 heq
      · intro q hq
        rcases List.mem_cons.mp hq with rfl | hq
        · exact hnew
        · exact (hother q hq).2
      · intro k
        rw [hseen', hseen, List.map_cons, List.mem_cons, List.mem_cons]
        tauto
      · rw [hrows', hrows]
        by_cases hp : p.kind = Prekey.kindFallback <;>
          by_cases hps : ps.any (·.kind == Prekey.kindFallback) = true <;>
          simp [retired, Prekey.standing, hp, hps, withoutFallback, List.filter_append,
            List.filter_filter]

structure Stored (s : Prekeys) (device : PubKey) (batch : List Prekey) (s' : Prekeys) : Prop where
  kinds : ∀ p ∈ batch, p.kind = Prekey.kindOneTime ∨ p.kind = Prekey.kindFallback
  room : (s.oneTime device).length +
    (batch.filter fun p => p.kind == Prekey.kindOneTime).length ≤ maxStored
  distinct : (batch.map fun p => (device, p.id)).Nodup
  fresh : ∀ p ∈ batch, (device, p.id) ∉ s.seen
  seen : ∀ k, k ∈ s'.seen ↔ k ∈ s.seen ∨ k ∈ batch.map fun p => (device, p.id)
  rows : s'.prekey = retired device batch s.prekey ++
    (Prekey.standing batch).map (PrekeyRow.of device)

theorem publish_ok {batch : List Prekey} {n : UInt16}
    (h : s.publish C device batch = .ok (n, s')) : Stored s device batch s' := by
  unfold publish at h
  split_ifs at h with hsigned hseen
  dsimp only at h
  split at h
  · simp at h
  · rename_i hroom
    split at h
    · rename_i s₁ hinsert
      obtain ⟨-, rfl⟩ := Prod.mk.inj (Except.ok.inj h)
      obtain ⟨hdistinct, hfresh, hseen, hrows⟩ := insertEach_ok hinsert
      refine ⟨fun p hp => ?_, by omega, hdistinct, hfresh, hseen, hrows⟩
      by_contra hkind
      refine hsigned (List.any_eq_true.mpr ⟨p, hp, ?_⟩)
      rw [not_or] at hkind
      unfold Prekey.verify
      split <;> simp_all [Except.isOk, Except.toBool]
    · simp at h

theorem mem_retired {batch : List Prekey} {rows : List PrekeyRow} {r : PrekeyRow}
    (h : r ∈ retired device batch rows) : r ∈ rows := by
  unfold retired withoutFallback at h
  split at h
  · exact List.mem_of_mem_filter h
  · exact h

theorem filter_retired {batch : List Prekey} {rows : List PrekeyRow} {f : PrekeyRow → Bool}
    (hf : ∀ r, f r = true → r.isKind device Prekey.kindFallback = false) :
    (retired device batch rows).filter f = rows.filter f := by
  unfold retired withoutFallback
  split
  · rw [List.filter_filter]
    refine List.filter_congr fun r _ => ?_
    cases hr : f r with
    | false => rfl
    | true => simp [hf r hr]
  · rfl

theorem standing_sublist (batch : List Prekey) : (Prekey.standing batch).Sublist batch := by
  induction batch with
  | nil => exact List.Sublist.refl []
  | cons p ps ih =>
    rw [Prekey.standing]
    split
    · exact ih.cons p
    · exact ih.cons_cons p

theorem filter_standing (batch : List Prekey) :
    (Prekey.standing batch).filter (fun p => p.kind == Prekey.kindOneTime) =
      batch.filter fun p => p.kind == Prekey.kindOneTime := by
  induction batch with
  | nil => rfl
  | cons p ps ih =>
    rw [Prekey.standing]
    split
    · rename_i hgone
      have hkind : (p.kind == Prekey.kindOneTime) = false := by
        rw [hgone.1]
        rfl
      simp [hkind, ih]
    · simp [List.filter_cons, ih]

namespace Stored
variable {batch : List Prekey}

theorem oneTime_length (h : Stored s device batch s') :
    (s'.oneTime device).length =
      (s.oneTime device).length + (batch.filter fun p => p.kind == Prekey.kindOneTime).length := by
  have hold : (retired device batch s.prekey).filter (PrekeyRow.isKind device Prekey.kindOneTime) =
      s.oneTime device := by
    refine filter_retired fun r hr => ?_
    have hkind : r.kind = Prekey.kindOneTime := by simp_all [PrekeyRow.isKind]
    simp [PrekeyRow.isKind, hkind, Prekey.kindOneTime, Prekey.kindFallback]
  have hnew : ((Prekey.standing batch).map (PrekeyRow.of device)).filter
      (PrekeyRow.isKind device Prekey.kindOneTime) =
      (batch.filter fun p => p.kind == Prekey.kindOneTime).map (PrekeyRow.of device) := by
    rw [List.filter_map, ← filter_standing]
    congr 2
    funext p
    simp
  rw [oneTime, h.rows, List.filter_append, hold, hnew, List.length_append, List.length_map]

theorem apart (h : Stored s device batch s') (hother : other ≠ device) :
    s'.heldFor other = s.heldFor other := by
  have hold : (retired device batch s.prekey).filter (fun r => r.device == other) =
      s.heldFor other := by
    refine filter_retired fun r hr => ?_
    have hdevice : r.device = other := by simpa using hr
    simp [PrekeyRow.isKind, hdevice, hother]
  have hnew : ((Prekey.standing batch).map (PrekeyRow.of device)).filter
      (fun r => r.device == other) = [] := by
    simp [PrekeyRow.of, Ne.symm hother]
  rw [heldFor, h.rows, List.filter_append, hold, hnew, List.append_nil]

theorem sound (h : Stored s device batch s') (hs : Sound s) : Sound s' where
  made r hr := by
    rw [h.rows, List.mem_append] at hr
    rcases hr with hold | hnew
    · exact hs.made r (mem_retired hold)
    · obtain ⟨p, -, rfl⟩ := List.mem_map.mp hnew
      exact ⟨p, rfl⟩
  noted r hr := by
    rw [h.rows, List.mem_append] at hr
    rcases hr with hold | hnew
    · exact (h.seen _).mpr (.inl (hs.noted r (mem_retired hold)))
    · obtain ⟨p, hp, rfl⟩ := List.mem_map.mp hnew
      have hbatch := (standing_sublist batch).subset hp
      exact (h.seen _).mpr (.inr (List.mem_map_of_mem hbatch))
  few d := by
    by_cases hd : d = device
    · subst hd
      rw [h.oneTime_length]
      exact h.room
    · have hheld : ∀ t : Prekeys, t.oneTime d =
          (t.heldFor d).filter (PrekeyRow.isKind d Prekey.kindOneTime) := by
        intro t
        rw [oneTime, heldFor, List.filter_filter]
        refine List.filter_congr fun r _ => ?_
        simp [PrekeyRow.isKind]
        tauto
      rw [hheld, h.apart hd, ← hheld]
      exact hs.few d

end Stored

theorem oldest_mem {row : PrekeyRow} (h : s.oldest device = some row) :
    row ∈ s.prekey ∧ row.device = device ∧ row.kind = Prekey.kindOneTime := by
  have hmem : row ∈ s.oneTime device := by
    have hsorted := List.mem_of_mem_head? (Option.mem_def.mpr h)
    exact (List.perm_insertionSort _ _).mem_iff.mp hsorted
  obtain ⟨hrow, hkind⟩ := List.mem_filter.mp hmem
  simp only [PrekeyRow.isKind, Bool.and_eq_true, beq_iff_eq] at hkind
  exact ⟨hrow, hkind.1, hkind.2⟩

theorem step_cases (C : Crypto) (s : Prekeys) (c : Act) :
    (∃ device batch, c = .publish device batch ∧ (s.publish C device batch).isOk = true ∧
        Stored s device batch (s.step C c)) ∨
      (s.accepts C c = [] ∧ (s.step C c).seen = s.seen ∧
        (s.step C c).prekey.Sublist s.prekey ∧
        ∀ other ≠ c.device, (s.step C c).heldFor other = s.heldFor other) := by
  cases c with
  | publish device batch =>
    cases h : s.publish C device batch with
    | ok r => exact .inl ⟨device, batch, rfl, by rw [h]; rfl, by simpa [step, h] using publish_ok h⟩
    | error e =>
      have hstep : s.step C (.publish device batch) = s := by simp [step, h]
      rw [hstep]
      refine .inr ⟨?_, rfl, List.Sublist.refl _, fun _ _ => rfl⟩
      simp [accepts, h, Except.isOk, Except.toBool]
  | take device now =>
    have hrest : ∀ row : PrekeyRow, ∀ other ≠ device,
        (s.prekey.filter fun r => ! r.isId device row.id).filter (fun r => r.device == other) =
          s.heldFor other := by
      intro row other hother
      rw [List.filter_filter, heldFor]
      refine List.filter_congr fun r _ => ?_
      by_cases hr : r.device = other
      · simp [PrekeyRow.isId, hr, hother]
      · simp [hr]
    refine .inr ⟨rfl, ?_⟩
    simp only [step, take]
    split
    · exact ⟨rfl, List.filter_sublist, hrest _⟩
    · split <;> exact ⟨rfl, List.Sublist.refl _, fun _ _ => rfl⟩
  | count device now => exact .inr ⟨rfl, rfl, List.Sublist.refl _, fun _ _ => rfl⟩
  | clear device now =>
    refine .inr ⟨rfl, ?_⟩
    simp only [step, clear]
    split
    · exact ⟨rfl, List.Sublist.refl _, fun _ _ => rfl⟩
    · refine ⟨rfl, List.filter_sublist, fun other hother => ?_⟩
      change (s.prekey.filter fun r => ! (r.device == device)).filter
        (fun r => r.device == other) = s.heldFor other
      rw [List.filter_filter, heldFor]
      refine List.filter_congr fun r _ => ?_
      have hdevice : other ≠ device := hother
      by_cases hr : r.device = other
      · simp [hr, hdevice]
      · simp [hr]

theorem Sound.step (C : Crypto) (s : Prekeys) (c : Act) (hs : Sound s) : Sound (s.step C c) := by
  rcases step_cases C s c with ⟨device, batch, rfl, -, hstored⟩ | ⟨-, hseen, hrows, -⟩
  · exact hstored.sound hs
  · exact hs.fewer hrows hseen

def Spent (s : Prekeys) (k : PubKey × UInt32) : Prop :=
  k ∈ s.seen ∧ ∀ r ∈ s.prekey, (r.device, r.id) = k → r.kind ≠ Prekey.kindOneTime

theorem Spent.step {k : PubKey × UInt32} (h : Spent s k) (c : Act) : Spent (s.step C c) k := by
  rcases step_cases C s c with ⟨device, batch, rfl, -, hstored⟩ | ⟨-, hseen, hrows, -⟩
  · refine ⟨(hstored.seen k).mpr (.inl h.1), fun r hr hkey => ?_⟩
    rw [hstored.rows, List.mem_append] at hr
    rcases hr with hold | hnew
    · exact h.2 r (mem_retired hold) hkey
    · obtain ⟨p, hp, rfl⟩ := List.mem_map.mp hnew
      obtain rfl := hkey
      exact absurd h.1 (hstored.fresh p ((standing_sublist batch).subset hp))
  · exact ⟨by rw [hseen]; exact h.1, fun r hr => h.2 r (hrows.subset hr)⟩

theorem accepts_fresh (c : Act) :
    (s.accepts C c).Nodup ∧ ∀ k ∈ s.accepts C c, k ∉ s.seen ∧ k ∈ (s.step C c).seen := by
  rcases step_cases C s c with ⟨device, batch, rfl, hok, hstored⟩ | ⟨hnone, -⟩
  · rw [accepts, if_pos hok]
    refine ⟨hstored.distinct, fun k hk => ⟨?_, (hstored.seen k).mpr (.inr hk)⟩⟩
    obtain ⟨p, hp, rfl⟩ := List.mem_map.mp hk
    exact hstored.fresh p hp
  · simp [hnone]

theorem serves_fresh (hs : Sound s) (c : Act) :
    (s.serves c).Nodup ∧ ∀ k ∈ s.serves c, ¬ Spent s k ∧ Spent (s.step C c) k := by
  cases c with
  | take device now =>
    cases hold : s.oldest device with
    | some row =>
      obtain ⟨hrow, hdevice, hkind⟩ := oldest_mem hold
      obtain ⟨p, hp⟩ := hs.made row hrow
      have hserves : s.serves (.take device now) = [(device, row.id)] := by
        have hwire : Prekey.unwire row.wire = some p := by
          rw [hp]
          exact Prekey.unwire_wire p
        have hid : p.id = row.id := by rw [hp]; rfl
        have hpkind : p.kind = Prekey.kindOneTime := by
          rw [← hkind, hp]
          rfl
        simp [serves, take, hold, served, hwire, hpkind, hid]
      rw [hserves]
      refine ⟨List.nodup_singleton _, fun k hk => ?_⟩
      obtain rfl := List.mem_singleton.mp hk
      refine ⟨fun hspent => hspent.2 row hrow (by rw [hdevice]) hkind, ?_, fun r hr hkey => ?_⟩
      · have hnoted := hs.noted row hrow
        rw [hdevice] at hnoted
        simpa [step, take, hold] using hnoted
      · have hgone : ! r.isId device row.id = true := by
          simp only [step, take, hold] at hr
          simpa using (List.mem_filter.mp hr).2
        obtain ⟨hd, hi⟩ := Prod.mk.inj hkey
        simp [PrekeyRow.isId, hd, hi] at hgone
    | none =>
      have hserves : s.serves (.take device now) = [] := by
        simp only [serves, take, hold]
        cases hfall : s.prekey.find? (PrekeyRow.isKind device Prekey.kindFallback) with
        | none => simp [Taken.none]
        | some row =>
          have hrow := List.mem_of_find?_eq_some hfall
          have hkind := List.find?_some hfall
          obtain ⟨p, hp⟩ := hs.made row hrow
          have hwire : Prekey.unwire row.wire = some p := by
            rw [hp]
            exact Prekey.unwire_wire p
          have hpkind : p.kind = Prekey.kindFallback := by
            have hrkind : row.kind = Prekey.kindFallback := by
              simp only [PrekeyRow.isKind, Bool.and_eq_true, beq_iff_eq] at hkind
              exact hkind.2
            rw [← hrkind, hp]
            rfl
          have hnot : ¬ p.kind = Prekey.kindOneTime := by
            rw [hpkind]
            decide
          simp [served, hwire, hnot]
      simp [hserves]
  | publish device batch => simp [serves]
  | count device now => simp [serves]
  | clear device now => simp [serves]

/-- A publish leaves the exchange as it was, or holding the whole batch but for a fallback
that a later one of the batch replaces. -/
def Whole (C : Crypto) (s : Prekeys) : Act → Prop
  | .publish device batch =>
    match s.publish C device batch with
    | .error _ => s.step C (.publish device batch) = s
    | .ok _ => (s.step C (.publish device batch)).prekey =
        retired device batch s.prekey ++ (Prekey.standing batch).map (PrekeyRow.of device)
  | _ => True

def Apart (C : Crypto) (s : Prekeys) (c : Act) : Prop :=
  ∀ other ≠ c.device, (s.step C c).heldFor other = s.heldFor other

/-- Over every order of calls from an empty store: no one-time prekey is served twice, no id
is accepted twice, no device has too many stored, each publish is whole and each call keeps
to its device. -/
theorem served_at_most_once (C : Crypto) (calls : List Act) :
    (emitted serves (step C) opened calls).Nodup ∧
      (emitted (accepts C) (step C) opened calls).Nodup ∧
      Always (fun s => ∀ device, (s.oneTime device).length ≤ maxStored) (step C) opened calls ∧
      Each (fun s c => Whole C s c ∧ Apart C s c) (step C) opened calls := by
  refine ⟨?_, ?_, ?_, each_of_mem (fun c _ s => ?_) opened⟩
  · exact (emitted_fresh (Sound.step C) (fun s c hs => serves_fresh hs c)
      (fun s c _ k hk => hk.step c) sound_opened calls).1
  · have hkept : ∀ (s : Prekeys) (c : Act), True → ∀ k, k ∈ s.seen → k ∈ (s.step C c).seen := by
      intro s c _ k hk
      rcases step_cases C s c with ⟨device, batch, rfl, -, hstored⟩ | ⟨-, hseen, -⟩
      · exact (hstored.seen k).mpr (.inl hk)
      · rwa [hseen]
    exact (emitted_fresh (fun _ _ _ => trivial) (fun s c _ => accepts_fresh c) hkept trivial
      calls).1
  · have hall : Each (fun _ _ => True) (step C) opened calls :=
      each_of_mem (fun _ _ _ => trivial) opened
    exact (hall.always (fun s c hs _ => hs.step C s c) sound_opened).imp fun s hs => hs.few
  · constructor
    · cases c with
      | publish device batch =>
        unfold Whole
        cases h : s.publish C device batch with
        | error e => simp [step, h]
        | ok r => simpa [step, h] using (publish_ok h).rows
      | take | count | clear => trivial
    · rcases step_cases C s c with ⟨device, batch, rfl, -, hstored⟩ | ⟨-, -, -, hother⟩
      · exact fun other hother => hstored.apart hother
      · exact hother

def fallbacks : List Prekey :=
  [.forSecret .toy 1 Prekey.kindFallback 1 5, .forSecret .toy 1 Prekey.kindFallback 2 6]

/-- A batch that is accepted and not stored whole: its second fallback replaces its first. -/
theorem fallbacks_not_whole :
    let device := Crypto.toy.publicKey 1
    let stored := (step .toy opened (.publish device fallbacks)).prekey
    ¬ ((∀ p ∈ fallbacks, PrekeyRow.of device p ∈ stored) ∨ stored = opened.prekey) := by
  decide +kernel

end Sqex.Prekeys
