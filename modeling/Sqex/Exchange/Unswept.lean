import Sqex.Exchange.Limiter
import Sqex.Exchange.Resolution
import Sqex.Lib.Rows

/-! The store that is swept beside the store as it would stand unswept: they answer alike,
except of a publication that a sweep forgot and that a refresh made live again. -/
namespace Sqex.Resolution
open Runs Std
variable {s : Endpoints} {w : World} {now : UInt64} {k : PubKey} {act : Act}

namespace Endpoints

section
variable (now : UInt64) (identity k : PubKey)

theorem lookup_refresh (ttlSecs : UInt32) (s : Endpoints) :
    (s.refresh now identity ttlSecs).published[k]? =
      if identity = k then s.published[k]?.map fun p =>
        { p with expiresAt := max p.expiresAt (Saturating.add now ttlSecs.toUInt64) }
      else s.published[k]? := by
  unfold refresh
  cases hrow : s.published[identity]? with
  | none =>
    by_cases hk : identity = k
    · subst hk
      simp [hrow]
    · simp [hk]
  | some p =>
    rw [lookup_insert]
    by_cases hk : identity = k
    · subst hk
      simp [hrow]
    · simp [hk]

theorem lookup_setSuccessor (successor : Successor) (s : Endpoints) :
    (s.setSuccessor now identity successor).published[k]? =
      if identity = k then some { s.published[k]?.getD ⟨[], [], now, now, none⟩ with
        successor := some successor }
      else s.published[k]? := by
  unfold setSuccessor
  cases hrow : s.published[identity]? with
  | none =>
    rw [lookup_insert]
    by_cases hk : identity = k
    · subst hk
      simp [hrow]
    · simp [hk]
  | some p =>
    rw [lookup_insert]
    by_cases hk : identity = k
    · subst hk
      simp [hrow]
    · simp [hk]

theorem lookup_publish (ttlSecs : UInt32) (endpoints : List Endpoint) (capabilities : List String)
    (s : Endpoints) :
    (s.publish now identity ttlSecs endpoints capabilities).1.published[k]? =
      if identity = k ∧ claimable endpoints capabilities = true then
        some ⟨endpoints, capabilities, now, Saturating.add now ttlSecs.toUInt64, s.successor k⟩
      else s.published[k]? := by
  unfold publish
  by_cases hclaim : claimable endpoints capabilities = true
  · rw [if_pos hclaim, lookup_insert]
    by_cases hk : identity = k
    · subst hk
      simp [hclaim, successor]
    · simp [hk]
  · rw [if_neg hclaim, if_neg (fun h => hclaim h.2)]

theorem lookup_sweep (s : Endpoints) :
    (s.sweep now).published[k]? = s.published[k]?.filter (Published.kept now) := by
  rw [sweep, ExtTreeMap.getElem?_filter']

end

end Endpoints

/-- A store that was swept, beside the one as it would stand unswept. -/
structure Follows (s : Endpoints) (w : World) : Prop where
  same : ∀ k, w.forgotten k = false → s.published[k]? = w.store.published[k]?
  named : ∀ k, s.successor k = w.store.successor k
  emptied : ∀ k, w.forgotten k = true → ∀ p, s.published[k]? = some p → p.endpoints = []

theorem follows_opened (clock : UInt64) (s : Endpoints) : Follows s (.opened clock s) :=
  ⟨fun _ _ => rfl, fun _ => rfl, fun _ h => by simp [World.opened] at h⟩

theorem Follows.sweep (h : Follows s w) (now : UInt64) :
    Follows (s.sweep now) (w.step (now, .sweep)) where
  same k hk := by
    simp only [World.step, Bool.or_eq_false_iff] at hk
    rw [Endpoints.lookup_sweep, h.same k hk.1]
    cases hrow : w.store.published[k]? with
    | none => simp [World.step, hrow]
    | some p =>
      have hkept : p.kept now = true := by simpa [hrow] using hk.2
      simp [World.step, hrow, hkept]
  named k := by
    have hnamed := h.named k
    have hswept : (s.sweep now).successor k = s.successor k := by
      rw [Endpoints.successor, Endpoints.lookup_sweep, Endpoints.successor]
      cases s.published[k]? with
      | none => rfl
      | some p =>
        cases hkept : p.kept now with
        | true => rw [Option.filter_some, if_pos hkept]
        | false =>
          have hnone : p.successor = none := by simpa using (Bool.or_eq_false_iff.mp hkept).2
          simp [hkept, hnone]
    rw [hswept, hnamed]
    rfl
  emptied k hk p hp := by
    simp only [World.step, Bool.or_eq_true] at hk
    rw [Endpoints.lookup_sweep, Option.filter_eq_some_iff] at hp
    cases hforgotten : w.forgotten k with
    | true => exact h.emptied k hforgotten p hp.1
    | false =>
      have hrow := h.same k hforgotten
      rw [hp.1] at hrow
      simp [hforgotten, ← hrow, hp.2] at hk

theorem Follows.refresh (h : Follows s w) (now : UInt64) (identity : PubKey) (ttlSecs : UInt32) :
    Follows (s.refresh now identity ttlSecs) (w.step (now, .refresh identity ttlSecs)) where
  same k hk := by
    have hsame := h.same k (by simpa [World.step, World.publishes] using hk)
    simp only [World.step, Endpoints.step, Endpoints.lookup_refresh, hsame]
  named k := by
    have hnamed : (s.published[k]?.bind Published.successor) =
        w.store.published[k]?.bind Published.successor := h.named k
    simp only [World.step, Endpoints.step, Endpoints.successor, Endpoints.lookup_refresh]
    split
    · simpa [Option.bind_map, Function.comp_def] using hnamed
    · exact hnamed
  emptied k hk p hp := by
    have hempty := h.emptied k (by simpa [World.step, World.publishes] using hk)
    rw [Endpoints.lookup_refresh] at hp
    split at hp
    · obtain ⟨q, hq, rfl⟩ := Option.map_eq_some_iff.mp hp
      exact hempty q hq
    · exact hempty p hp

theorem Follows.setSuccessor (h : Follows s w) (now : UInt64) (identity : PubKey)
    (successor : Successor) : Follows (s.setSuccessor now identity successor)
      (w.step (now, .setSuccessor identity successor)) where
  same k hk := by
    have hsame := h.same k (by simpa [World.step, World.publishes] using hk)
    simp only [World.step, Endpoints.step, Endpoints.lookup_setSuccessor, hsame]
  named k := by
    have hnamed : (s.published[k]?.bind Published.successor) =
        w.store.published[k]?.bind Published.successor := h.named k
    simp only [World.step, Endpoints.step, Endpoints.successor, Endpoints.lookup_setSuccessor]
    split
    · rfl
    · exact hnamed
  emptied k hk p hp := by
    have hempty := h.emptied k (by simpa [World.step, World.publishes] using hk)
    rw [Endpoints.lookup_setSuccessor] at hp
    split at hp
    · obtain rfl := Option.some.inj hp
      cases hrow : s.published[k]? with
      | none => rfl
      | some q => exact hempty q hrow
    · exact hempty p hp

theorem Follows.publish (h : Follows s w) (now : UInt64) (identity : PubKey) (ttlSecs : UInt32)
    (endpoints : List Endpoint) (capabilities : List String) :
    Follows (s.publish now identity ttlSecs endpoints capabilities).1
      (w.step (now, .publish identity ttlSecs endpoints capabilities)) := by
  have hlookup : ∀ k, identity = k ∧ Endpoints.claimable endpoints capabilities = true →
      (s.publish now identity ttlSecs endpoints capabilities).1.published[k]? =
        (w.store.publish now identity ttlSecs endpoints capabilities).1.published[k]? := by
    intro k hk
    rw [Endpoints.lookup_publish, Endpoints.lookup_publish, if_pos hk, if_pos hk, h.named k]
  constructor
  · intro k hk
    by_cases hpublished : identity = k ∧ Endpoints.claimable endpoints capabilities = true
    · exact hlookup k hpublished
    · have hforgotten : w.forgotten k = false := by
        simpa [World.step, World.publishes, hpublished] using hk
      simp only [World.step, Endpoints.step, Endpoints.lookup_publish, if_neg hpublished]
      exact h.same k hforgotten
  · intro k
    by_cases hpublished : identity = k ∧ Endpoints.claimable endpoints capabilities = true
    · simp only [World.step, Endpoints.step, Endpoints.successor, hlookup k hpublished]
    · simp only [World.step, Endpoints.step, Endpoints.successor, Endpoints.lookup_publish,
        if_neg hpublished]
      exact h.named k
  · intro k hk p hp
    simp only [World.step, World.publishes, Bool.and_eq_true, Bool.not_eq_true',
      Bool.and_eq_false_iff, beq_eq_false_iff_ne] at hk
    rw [Endpoints.lookup_publish, if_neg (by grind)] at hp
    exact h.emptied k hk.1 p hp

theorem Follows.step (h : Follows s w) (turn : UInt64 × Act) :
    Follows (s.step turn) (w.step turn) := by
  obtain ⟨now, act⟩ := turn
  have hread : ∀ w' : World, w'.store = w.store → w'.forgotten = w.forgotten → Follows s w' := by
    intro w' hstore hforgotten
    refine ⟨?_, ?_, ?_⟩
    · simpa only [hstore, hforgotten] using h.same
    · simpa only [hstore] using h.named
    · simpa only [hforgotten] using h.emptied
  cases act with
  | publish identity ttlSecs endpoints capabilities =>
    exact h.publish now identity ttlSecs endpoints capabilities
  | refresh identity ttlSecs => exact h.refresh now identity ttlSecs
  | setSuccessor identity successor => exact h.setSuccessor now identity successor
  | sweep => exact h.sweep now
  | resolve | successor | len =>
    exact hread _ rfl (funext fun k => by simp [World.step, World.publishes])

section Answers

theorem Follows.live_iff (h : Follows s w) (now : UInt64) (k : PubKey) :
    s.published[k]?.any (Published.live now) = true ↔
      w.forgotten k = false ∧ w.store.published[k]?.any (Published.live now) = true := by
  cases hforgotten : w.forgotten k with
  | false => rw [h.same k hforgotten]; simp
  | true =>
    cases hrow : s.published[k]? with
    | none => simp
    | some p =>
      have hempty := h.emptied k hforgotten p hrow
      simp [Published.live, hempty]

theorem found_resolve (now : UInt64) (k : PubKey) (lastSeen : UInt64) (s : Endpoints) :
    (s.resolve now k lastSeen).found = s.published[k]?.any (Published.live now) := by
  unfold Endpoints.resolve
  cases s.published[k]? with
  | none => rfl
  | some p => cases hlive : p.live now <;> simp [hlive, Resolved.none]

theorem resolve_of_dead {lastSeen : UInt64}
    (h : s.published[k]?.any (Published.live now) = false) :
    s.resolve now k lastSeen = .none now := by
  unfold Endpoints.resolve
  cases hrow : s.published[k]? with
  | none => rfl
  | some p =>
    have hdead : p.live now = false := by simpa [hrow] using h
    simp [hdead]

theorem Follows.resolve_iff (h : Follows s w) (now : UInt64) (k : PubKey) (lastSeen : UInt64) :
    s.resolve now k lastSeen = w.store.resolve now k lastSeen ↔ ¬ w.Revived now k := by
  constructor
  · intro heq hrevived
    have hfound := congrArg Resolved.found heq
    rw [found_resolve, found_resolve, hrevived.2] at hfound
    have hlive := ((h.live_iff now k).mp hfound).1
    rw [hrevived.1] at hlive
    simp at hlive
  · intro hnot
    cases hforgotten : w.forgotten k with
    | false => unfold Endpoints.resolve; rw [h.same k hforgotten]
    | true =>
      have hgone : s.published[k]?.any (Published.live now) = false := by
        rw [Bool.eq_false_iff, Ne, h.live_iff now k, hforgotten]
        simp
      have hdead : w.store.published[k]?.any (Published.live now) = false := by
        simpa [World.Revived, hforgotten] using hnot
      rw [resolve_of_dead hgone, resolve_of_dead hdead]

theorem mem_live (now : UInt64) (k : PubKey) (s : Endpoints) :
    (k ∈ s.published.filter fun _ p => p.live now) ↔
      s.published[k]?.any (Published.live now) = true := by
  rw [ExtTreeMap.mem_iff_isSome_getElem?, ExtTreeMap.getElem?_filter']
  cases s.published[k]? with
  | none => simp
  | some p => cases hlive : p.live now <;> simp [Option.filter_some, hlive]

theorem Follows.len_iff (h : Follows s w) (now : UInt64) :
    s.len now = w.store.len now ↔ ∀ k, ¬ w.Revived now k := by
  unfold Endpoints.len
  rw [size_eq_iff_of_subset]
  · constructor
    · intro hall k hrevived
      have hlive := (mem_live now k s).mp (hall k ((mem_live now k w.store).mpr hrevived.2))
      have hnot := ((h.live_iff now k).mp hlive).1
      rw [hrevived.1] at hnot
      simp at hnot
    · intro hnone k hk
      have hlive := (mem_live now k w.store).mp hk
      refine (mem_live now k s).mpr ((h.live_iff now k).mpr ⟨?_, hlive⟩)
      exact Bool.eq_false_iff.mpr fun hforgotten => hnone k ⟨hforgotten, hlive⟩
  · intro k hk
    exact (mem_live now k w.store).mpr ((h.live_iff now k).mp ((mem_live now k s).mp hk)).2

def World.answers (w : World) (turn : UInt64 × Act) : List Answer := w.store.answers turn

theorem Follows.answers_iff (h : Follows s w) (turn : UInt64 × Act) :
    s.answers turn = w.answers turn ↔ w.Unrevived turn := by
  obtain ⟨now, act⟩ := turn
  cases act with
  | publish identity ttlSecs endpoints capabilities =>
    have hresult : (s.publish now identity ttlSecs endpoints capabilities).2 =
        (w.store.publish now identity ttlSecs endpoints capabilities).2 := by
      unfold Endpoints.publish
      split <;> rfl
    simp [Endpoints.answers, World.answers, World.Unrevived, hresult]
  | resolve key lastSeen =>
    simp [Endpoints.answers, World.answers, World.Unrevived, h.resolve_iff]
  | successor key => simp [Endpoints.answers, World.answers, World.Unrevived, h.named]
  | len => simp [Endpoints.answers, World.answers, World.Unrevived, h.len_iff]
  | refresh | setSuccessor | sweep =>
    simp [Endpoints.answers, World.answers, World.Unrevived]

theorem length_answers (s s' : Endpoints) (turn : UInt64 × Act) :
    (s.answers turn).length = (s'.answers turn).length := by
  obtain ⟨now, act⟩ := turn
  cases act <;> rfl

theorem emitted_asked (w : World) (turns : List (UInt64 × Act)) :
    emitted Endpoints.answers Endpoints.step w.store (turns.filter asked) =
      emitted World.answers World.step w turns := by
  refine emitted_filter World.store (fun w turn hasked => ?_) (fun w turn hquiet => ?_) w turns
  · obtain ⟨now, act⟩ := turn
    refine ⟨?_, rfl⟩
    cases act with
    | sweep => simp [asked] at hasked
    | _ => rfl
  · obtain ⟨_, act⟩ := turn
    have hsweep : act = .sweep := by simpa [asked] using hquiet
    subst hsweep
    exact ⟨rfl, rfl⟩

/-- The store answers as it would unswept exactly if nothing it reads is a publication that a
sweep forgot and that is live again. -/
theorem answers_iff (clock : UInt64) (s : Endpoints) (turns : List (UInt64 × Act)) :
    emitted Endpoints.answers Endpoints.step s turns =
        emitted Endpoints.answers Endpoints.step s (turns.filter asked) ↔
      Each World.Unrevived World.step (.opened clock s) turns := by
  have hasked := emitted_asked (.opened clock s) turns
  have hevery : Each (fun _ _ => True) World.step (.opened clock s) turns :=
    each_of_mem (fun _ _ _ => trivial) _
  simp only [World.opened] at hasked ⊢
  rw [hasked]
  exact @emitted_eq_iff _ _ _ _ Endpoints.answers World.answers Endpoints.step World.step Follows
    (fun _ _ => True) World.Unrevived (fun s w turn h _ => h.step turn)
    (fun s w turn _ => length_answers _ _ _) (fun s w turn h _ => h.answers_iff turn) _ _ _
    (follows_opened clock s) hevery

end Answers

section Refreshed

def World.Extends (w : World) : UInt64 × Act → Prop
  | (_, .refresh identity ttlSecs) => w.forgotten identity = true ∧ ttlSecs ≠ 0 ∧
    w.store.published[identity]?.any (fun p => ! p.endpoints.isEmpty) = true
  | _ => False

def World.Expired (w : World) : Prop := ∀ k, w.forgotten k = true → ∀ p,
  w.store.published[k]? = some p → p.endpoints = [] ∨ p.expiresAt ≤ w.clock

theorem expiresAt_max_le {p : Published} {clock : UInt64} (h : p.expiresAt ≤ clock)
    (hclock : clock ≤ now) :
    max p.expiresAt (Saturating.add now (0 : UInt32).toUInt64) ≤ now := by
  have hadd := Saturating.toNat_add now (0 : UInt32).toUInt64
  have hzero : (0 : UInt32).toUInt64.toNat = 0 := rfl
  have hnow := now.toNat_lt
  rw [max_uint64]
  split
  · rw [UInt64.le_iff_toNat_le]
    omega
  · exact UInt64.le_trans h hclock

theorem World.Expired.step {turn : UInt64 × Act} (h : w.Expired) (hclock : w.clock ≤ turn.1)
    (hextends : ¬ w.Extends turn) : (w.step turn).Expired := by
  obtain ⟨now, act⟩ := turn
  have hlater : ∀ k p, w.forgotten k = true → w.store.published[k]? = some p →
      p.endpoints = [] ∨ p.expiresAt ≤ now := by
    intro k p hk hp
    obtain hempty | hexpired := h k hk p hp
    · exact .inl hempty
    · exact .inr (UInt64.le_trans hexpired hclock)
  intro k hk p hp
  cases act with
  | sweep =>
    simp only [World.step, Bool.or_eq_true] at hk hp
    obtain hold | hnew := hk
    · exact hlater k p hold hp
    · simp only [hp, Option.any_some, Published.kept, Bool.not_eq_true', Bool.or_eq_false_iff,
        decide_eq_false_iff_not, UInt64.not_lt] at hnew
      exact .inr hnew.1
  | publish identity ttlSecs endpoints capabilities =>
    simp only [World.step, World.publishes, Bool.and_eq_true, Bool.not_eq_true',
      Bool.and_eq_false_iff, beq_eq_false_iff_ne] at hk
    simp only [World.step, Endpoints.step] at hp
    rw [Endpoints.lookup_publish, if_neg (by grind)] at hp
    exact hlater k p hk.1 hp
  | refresh identity ttlSecs =>
    have hforgotten : w.forgotten k = true := by simpa [World.step, World.publishes] using hk
    simp only [World.step, Endpoints.step, Endpoints.lookup_refresh] at hp
    split at hp
    · rename_i hidentity
      subst hidentity
      obtain ⟨q, hq, rfl⟩ := Option.map_eq_some_iff.mp hp
      obtain hempty | hexpired := h identity hforgotten q hq
      · exact .inl hempty
      · by_cases hempty : q.endpoints = []
        · exact .inl hempty
        · have hzero : ttlSecs = 0 := by
            by_contra hpositive
            exact hextends ⟨hforgotten, hpositive, by simpa [hq] using hempty⟩
          subst hzero
          exact .inr (expiresAt_max_le hexpired hclock)
    · exact hlater k p hforgotten hp
  | setSuccessor identity successor =>
    have hforgotten : w.forgotten k = true := by simpa [World.step, World.publishes] using hk
    simp only [World.step, Endpoints.step, Endpoints.lookup_setSuccessor] at hp
    split at hp
    · obtain rfl := Option.some.inj hp
      cases hrow : w.store.published[k]? with
      | none => exact .inl rfl
      | some q => exact hlater k q hforgotten hrow
    · exact hlater k p hforgotten hp
  | resolve | successor | len =>
    exact hlater k p (by simpa [World.step, World.publishes] using hk) hp

/-- On a clock that does not go back, it takes a refresh for what was forgotten to be live. -/
theorem each_unrevived (clock : UInt64) (s : Endpoints) (turns : List (UInt64 × Act))
    (h : Each (fun w turn => w.clock ≤ turn.1 ∧ ¬ w.Extends turn) World.step (.opened clock s)
      turns) : Each World.Unrevived World.step (.opened clock s) turns := by
  have hopened : (World.opened clock s).Expired := fun k hk => by simp [World.opened] at hk
  refine h.imp_of (fun w turn hw hok => hw.step hok.1 hok.2) (fun w turn hw hok => ?_) hopened
  have hdead : ∀ k, ¬ w.Revived turn.1 k := by
    rintro k ⟨hforgotten, hlive⟩
    cases hp : w.store.published[k]? with
    | none => simp [hp] at hlive
    | some p =>
      simp only [hp, Option.any_some, Published.live, Bool.and_eq_true, decide_eq_true_eq,
        Bool.not_eq_true', List.isEmpty_eq_false_iff] at hlive
      obtain hempty | hexpired := hw k hforgotten p hp
      · exact hlive.2 hempty
      · exact absurd (UInt64.le_trans hexpired hok.1) (UInt64.not_le.mpr hlive.1)
  obtain ⟨now, act⟩ := turn
  cases act with
  | resolve key lastSeen => exact hdead key
  | len => exact hdead
  | _ => trivial

theorem each_unrevived_expired :
    let host : Endpoint := ⟨0, [104], 443, 0, 0⟩
    let turns : List (UInt64 × Act) := [(1, .publish 5 10 [host] []), (2, .refresh 5 30),
      (20, .sweep), (21, .resolve 5 0), (40, .sweep), (41, .refresh 5 0), (41, .resolve 5 0),
      (41, .len)]
    ((run World.step (.opened 0 .opened) turns).forgotten 5) = true ∧
      Each World.Unrevived World.step (.opened 0 .opened) turns :=
  ⟨by decide +kernel, each_unrevived 0 .opened _ ⟨⟨by decide, id⟩,
    ⟨by decide, fun h => absurd h.1 (by decide)⟩, ⟨by decide, id⟩, ⟨by decide, id⟩,
    ⟨by decide, id⟩, ⟨by decide, fun h => h.2.1 rfl⟩, ⟨by decide, id⟩, ⟨by decide, id⟩, trivial⟩⟩

end Refreshed

end Sqex.Resolution

/-! Two stores that forget lazily. The limiter's sweep is not seen; the resolution store's is seen
exactly where a publication it forgot is live again. -/
namespace Sqex.Sweeping
open Runs Resolution

/-- Whether an answer is a key's live set. -/
def finds : Answer → Bool
  | .resolved r => r.found
  | _ => false

/-- Sweeping the resolution store changes no answer exactly if nothing it reads is live again after
a sweep forgot it. Sweeping the limiter changes none; it grants a bucket in a window the burst and
the refill at most; and it grants who waits as long as it said. -/
theorem sweeping_unseen (clock : UInt64) (store : Endpoints) (asks : List (UInt64 × Act))
    (start : ℚ) (file : Metering.FileLimits) (takes : List (ℚ × Metering.Act))
    (htimes : Each Metering.World.Timely Metering.World.step (.opened start file.resolve) takes) :
    (emitted Endpoints.answers Endpoints.step store asks =
        emitted Endpoints.answers Endpoints.step store (asks.filter asked) ↔
      Each World.Unrevived World.step (.opened clock store) asks) ∧
    emitted Metering.World.answers Metering.World.step (.opened start file.resolve)
        (takes.filter Metering.asked) =
      emitted Metering.World.answers Metering.World.step (.opened start file.resolve) takes ∧
    (∀ (key : Metering.Key) (first last : ℚ), 0 < (file.resolve.of key.1).burst → first ≤ last →
      ((emitted Metering.World.grants Metering.World.step (.opened start file.resolve)
          takes).countP (Metering.World.within first last key) : ℚ) ≤
        (file.resolve.of key.1).burst + (file.resolve.of key.1).perSec * (last - first)) ∧
    (∀ (before between : List (ℚ × Metering.Act)) (now later : ℚ) (key : Metering.Key)
        (secs : UInt64),
      takes = before ++ (now, .take key) :: (between ++ [(later, .take key)]) →
      (∀ turn ∈ between, turn.2 ≠ .take key) →
      Metering.World.answers (run Metering.World.step (.opened start file.resolve) before)
        (now, .take key) = [.error secs] →
      now + (secs.toNat : ℚ) ≤ later →
      Metering.World.answers (run Metering.World.step (.opened start file.resolve)
        (before ++ (now, .take key) :: between)) (later, .take key) = [.ok ()]) := by
  have hsound := Metering.World.sound_opened start file
  refine ⟨answers_iff clock store asks, Metering.World.answers_eq start file takes htimes,
    fun key first last hlimited hwindow => ?_, ?_⟩
  · obtain ⟨hburst, hrefill, -⟩ := hsound.refills hlimited
    have hroom := Metering.World.room_opened_le start file.resolve hwindow hlimited.le hrefill.le
    exact (hsound.granted_le hlimited takes htimes).trans hroom
  · rintro before between now later key secs rfl hothers hrefused hwait
    obtain ⟨hbefore, hclock, hrest⟩ := each_append.mp htimes
    obtain ⟨hbetween, hlater, -⟩ := each_append.mp hrest
    have hreached := hbefore.run (fun w turn h ht => h.step ht) hsound
    have hgranted := hreached.granted_after hclock
      (by simpa [Metering.World.answers] using hrefused) hbetween hothers hlater hwait
    rw [run_append, run_cons, Metering.World.answers, hgranted]

def onePost : Metering.FileLimits :=
  ⟨some (1, 60), none, none, none, none, none, none, none, none, none, none, none⟩

def poster : Metering.Key := (.posts, 1#256, 0#256)

/-- Refused at the first second and told 59 more, a poster is granted at the sixtieth, swept or
not. -/
theorem sweeping_unseen_posts :
    emitted Metering.World.answers Metering.World.step (.opened 0 onePost.resolve)
        [(0, .take poster), (1, .take poster), (60, .take poster)] =
      emitted Metering.World.answers Metering.World.step (.opened 0 onePost.resolve)
        [(0, .take poster), (1, .take poster), (30, .sweep), (60, .take poster)] ∧
    Metering.World.answers (run Metering.World.step (.opened 0 onePost.resolve)
      [(0, .take poster), (1, .take poster), (30, .sweep)]) (60, .take poster) = [.ok ()] := by
  have hall := sweeping_unseen 0 .opened [] 0 onePost
    [(0, .take poster), (1, .take poster), (30, .sweep), (60, .take poster)]
    (by norm_num [Each, Metering.World.Timely, Metering.World.clock_step, Metering.World.opened])
  refine ⟨hall.2.1, ?_⟩
  have hrefused : Metering.World.answers (run Metering.World.step (.opened 0 onePost.resolve)
      [(0, .take poster)]) (1, .take poster) = [.error 59] := by
    decide +kernel
  exact hall.2.2.2 [(0, .take poster)] [(30, .sweep)] 1 60 poster 59 rfl (by simp) hrefused
    (by decide +kernel)

def lapsed : List (UInt64 × Act) :=
  [(100, .publish 1#256 10 [⟨4, [10, 0, 0, 1], 443, 0, 0⟩] []), (200, .sweep),
    (201, .refresh 1#256 60), (202, .resolve 1#256 0)]

/-- Swept it is not found, and unswept it is. -/
theorem sweep_loses : emitted Endpoints.answers Endpoints.step .opened lapsed ≠
    emitted Endpoints.answers Endpoints.step .opened (lapsed.filter asked) := by
  intro heq
  have hfinds := congrArg (List.map finds) heq
  revert hfinds
  decide +kernel

end Sqex.Sweeping
