import Mathlib.Data.Rat.Floor
import Sqex.Lib.Traces
import Sqex.Proto.Primitives

/-! Rate limits: a bucket of tokens for each kind of thing, account and scope, filled as time goes
by. Tokens and times are exact here. A bucket that a sweep forgot is one that was full, so a limiter
decides as it would without the sweeps. -/
namespace Sqex.Metering

section Buckets
open Runs

inductive Kind where
  | posts | signals | joins | creates | uploads | reports
  | peering | calls | tunnels | feedAppends | feedRows | feedSets
  deriving DecidableEq

/-- `burst` tokens, refilled at `perSec`. Zero burst is unlimited. -/
structure Limit where
  burst : ℚ
  perSec : ℚ
  deriving DecidableEq

namespace Limit

def per (n secs : UInt32) : Limit := ⟨n.toNat, n.toNat / secs.toNat⟩

def unlimited : Limit := ⟨0, 0⟩

end Limit

structure Limits where
  posts : Limit
  signals : Limit
  joins : Limit
  creates : Limit
  uploads : Limit
  reports : Limit
  peering : Limit
  calls : Limit
  tunnels : Limit
  feedAppends : Limit
  feedRows : Limit
  feedSets : Limit

namespace Limits

def default : Limits where
  posts := .per 30 60
  signals := .per 60 60
  joins := .per 20 3600
  creates := .per 10 3600
  uploads := .per 60 3600
  reports := .per 20 3600
  peering := .per 60 3600
  calls := .per 20 3600
  -- a burst of four, ten an hour
  tunnels := ⟨4, 10 / 3600⟩
  feedAppends := .per 60 3600
  feedRows := .per 20000 3600
  feedSets := .per 32 3600

def of (kind : Kind) (l : Limits) : Limit :=
  match kind with
  | .posts => l.posts
  | .signals => l.signals
  | .joins => l.joins
  | .creates => l.creates
  | .uploads => l.uploads
  | .reports => l.reports
  | .peering => l.peering
  | .calls => l.calls
  | .tunnels => l.tunnels
  | .feedAppends => l.feedAppends
  | .feedRows => l.feedRows
  | .feedSets => l.feedSets

end Limits

structure FileLimits where
  posts : Option (UInt32 × UInt32)
  signals : Option (UInt32 × UInt32)
  joins : Option (UInt32 × UInt32)
  creates : Option (UInt32 × UInt32)
  uploads : Option (UInt32 × UInt32)
  reports : Option (UInt32 × UInt32)
  peering : Option (UInt32 × UInt32)
  calls : Option (UInt32 × UInt32)
  tunnels : Option (UInt32 × UInt32)
  feedAppends : Option (UInt32 × UInt32)
  feedRows : Option (UInt32 × UInt32)
  feedSets : Option (UInt32 × UInt32)

namespace FileLimits

def pick (v : Option (UInt32 × UInt32)) (otherwise : Limit) : Limit :=
  match v with
  | none => otherwise
  | some (n, secs) => if n = 0 ∨ secs = 0 then .unlimited else .per n secs

def resolve (f : FileLimits) : Limits where
  posts := pick f.posts Limits.default.posts
  signals := pick f.signals Limits.default.signals
  joins := pick f.joins Limits.default.joins
  creates := pick f.creates Limits.default.creates
  uploads := pick f.uploads Limits.default.uploads
  reports := pick f.reports Limits.default.reports
  peering := pick f.peering Limits.default.peering
  calls := pick f.calls Limits.default.calls
  tunnels := pick f.tunnels Limits.default.tunnels
  feedAppends := pick f.feedAppends Limits.default.feedAppends
  feedRows := pick f.feedRows Limits.default.feedRows
  feedSets := pick f.feedSets Limits.default.feedSets

end FileLimits

structure Bucket where
  tokens : ℚ
  lookedAt : ℚ

abbrev Key := Kind × PubKey × Bytes32

structure Limiter where
  limits : Limits
  buckets : Key → Option Bucket

/-- A number cast to 64 bits: its whole part, kept within them. -/
def castUInt64 (x : ℚ) : UInt64 := UInt64.ofNat (min x.floor.toNat (2 ^ 64 - 1))

namespace Limiter

def new (limits : Limits) : Limiter := ⟨limits, fun _ => none⟩

def put (key : Key) (b : Bucket) (l : Limiter) : Limiter :=
  { l with buckets := fun k => if k = key then some b else l.buckets k }

/-- Take one token, or say how many whole seconds until one is there. -/
def take (now : ℚ) (key : Key) (l : Limiter) : Limiter × Except UInt64 Unit :=
  let limit := l.limits.of key.1
  if limit.burst ≤ 0 then (l, .ok ())
  else
    let b := (l.buckets key).getD ⟨limit.burst, now⟩
    let tokens := min (b.tokens + (now - b.lookedAt) * limit.perSec) limit.burst
    if 1 ≤ tokens then (l.put key ⟨tokens - 1, now⟩, .ok ())
    else
      let wait := castUInt64 (max ((1 - tokens) / limit.perSec).ceil 1)
      (l.put key ⟨tokens, now⟩, .error wait)

def sweep (now : ℚ) (l : Limiter) : Limiter :=
  { l with buckets := fun k => (l.buckets k).filter fun b =>
      b.tokens + (now - b.lookedAt) * (l.limits.of k.1).perSec < (l.limits.of k.1).burst }

end Limiter

inductive Act where
  | take (key : Key)
  | sweep
  deriving DecidableEq

structure World where
  clock : ℚ
  limiter : Limiter

namespace World

def opened (clock : ℚ) (limits : Limits) : World := ⟨clock, .new limits⟩

def step (w : World) : ℚ × Act → World
  | (now, .take key) => ⟨now, (w.limiter.take now key).1⟩
  | (now, .sweep) => ⟨now, w.limiter.sweep now⟩

def answers (w : World) : ℚ × Act → List (Except UInt64 Unit)
  | (now, .take key) => [(w.limiter.take now key).2]
  | (_, .sweep) => []

def grants (w : World) : ℚ × Act → List (Key × ℚ)
  | (now, .take key) =>
    match (w.limiter.take now key).2 with
    | .ok _ => [(key, now)]
    | .error _ => []
  | (_, .sweep) => []

def Timely (w : World) (turn : ℚ × Act) : Prop := w.clock ≤ turn.1

end World

def asked (turn : ℚ × Act) : Bool := turn.2 != .sweep

end Buckets

section Swept
open Runs
variable {l l' : Limiter} {w : World} {now t t' : ℚ} {key k : Key}

/-- A limit as the exchange sets them: none, or for a token at least, and one in 2^32 seconds. -/
def Limit.Served (limit : Limit) : Prop :=
  limit.burst ≤ 0 ∨ (1 ≤ limit.burst ∧ 1 ≤ limit.perSec * 2 ^ 32)

theorem Limit.served_per {n secs : UInt32} (hn : n ≠ 0) (hsecs : secs ≠ 0) :
    (Limit.per n secs).Served := by
  have hn_pos : 1 ≤ n.toNat := by
    have hzero : (0 : UInt32).toNat = 0 := rfl
    have hne : n.toNat ≠ 0 := fun h => hn (UInt32.toNat_inj.mp (h.trans hzero.symm))
    omega
  have hsecs_pos : 0 < secs.toNat := by
    have hzero : (0 : UInt32).toNat = 0 := rfl
    have hne : secs.toNat ≠ 0 := fun h => hsecs (UInt32.toNat_inj.mp (h.trans hzero.symm))
    omega
  have hburst : (1 : ℚ) ≤ n.toNat := by exact_mod_cast hn_pos
  have hpos : (0 : ℚ) < secs.toNat := by exact_mod_cast hsecs_pos
  have hlt : (secs.toNat : ℚ) ≤ 2 ^ 32 := by exact_mod_cast secs.toNat_lt.le
  refine .inr ⟨hburst, ?_⟩
  rw [per, div_mul_eq_mul_div, le_div_iff₀ hpos]
  nlinarith

theorem served_default (kind : Kind) : (Limits.default.of kind).Served := by
  have hper : ∀ n secs : UInt32, n ≠ 0 ∧ secs ≠ 0 → (Limit.per n secs).Served :=
    fun n secs h => Limit.served_per h.1 h.2
  cases kind with
  | tunnels => exact .inr (by norm_num [Limits.default, Limits.of])
  | _ => exact hper _ _ (by decide)

theorem served_pick {v : Option (UInt32 × UInt32)} {otherwise : Limit} (h : otherwise.Served) :
    (FileLimits.pick v otherwise).Served := by
  cases v with
  | none => exact h
  | some v =>
    unfold FileLimits.pick
    by_cases hzero : v.1 = 0 ∨ v.2 = 0
    · simp only [if_pos hzero]
      exact .inl le_rfl
    · simp only [if_neg hzero]
      exact Limit.served_per (fun h => hzero (.inl h)) (fun h => hzero (.inr h))

theorem served_resolve (f : FileLimits) (kind : Kind) : (f.resolve.of kind).Served := by
  have hdefault := served_default kind
  cases kind <;> exact served_pick hdefault

namespace Limiter

def level (now : ℚ) (key : Key) (l : Limiter) : ℚ :=
  match l.buckets key with
  | none => (l.limits.of key.1).burst
  | some b => min (b.tokens + (now - b.lookedAt) * (l.limits.of key.1).perSec)
      (l.limits.of key.1).burst

theorem level_le_burst (now : ℚ) (key : Key) (l : Limiter) :
    l.level now key ≤ (l.limits.of key.1).burst := by
  unfold level
  split
  · exact le_rfl
  · exact min_le_right _ _

theorem level_put (t : ℚ) (key : Key) (b : Bucket) (l : Limiter) :
    (l.put key b).level t key =
      min (b.tokens + (t - b.lookedAt) * (l.limits.of key.1).perSec) (l.limits.of key.1).burst := by
  simp [level, put]

theorem level_put_of_ne (t : ℚ) (b : Bucket) (l : Limiter) (hne : k ≠ key) :
    (l.put key b).level t k = l.level t k := by
  simp [level, put, hne]

section Refill
variable (hrefill : 0 ≤ (l.limits.of key.1).perSec)
include hrefill

theorem level_later (hle : t ≤ t') : l.level t' key =
    min (l.level t key + (t' - t) * (l.limits.of key.1).perSec) (l.limits.of key.1).burst := by
  have hfilled : 0 ≤ (t' - t) * (l.limits.of key.1).perSec :=
    mul_nonneg (sub_nonneg.mpr hle) hrefill
  unfold level
  split
  · rw [min_eq_right (by linarith)]
  · rename_i b _
    have hsum : b.tokens + (t - b.lookedAt) * (l.limits.of key.1).perSec +
        (t' - t) * (l.limits.of key.1).perSec =
          b.tokens + (t' - b.lookedAt) * (l.limits.of key.1).perSec := by ring
    rw [← min_add_add_right, hsum, min_assoc, min_eq_right (by linarith :
      (l.limits.of key.1).burst ≤ (l.limits.of key.1).burst +
        (t' - t) * (l.limits.of key.1).perSec)]

theorem level_sweep (hle : now ≤ t) : (l.sweep now).level t key = l.level t key := by
  unfold level sweep
  cases hrow : l.buckets key with
  | none => simp [hrow]
  | some b =>
    by_cases hkept : b.tokens + (now - b.lookedAt) * (l.limits.of key.1).perSec <
        (l.limits.of key.1).burst
    · simp only [hrow, Option.filter_some, decide_eq_true_eq, if_pos hkept]
    · have hfilled := mul_le_mul_of_nonneg_right (sub_le_sub_right hle b.lookedAt) hrefill
      simp only [hrow, Option.filter_some, decide_eq_true_eq, if_neg hkept]
      rw [min_eq_right]
      linarith

end Refill

theorem take_eq (hlimited : 0 < (l.limits.of key.1).burst) (now : ℚ) :
    l.take now key = if 1 ≤ l.level now key then (l.put key ⟨l.level now key - 1, now⟩, .ok ())
      else (l.put key ⟨l.level now key, now⟩, .error (castUInt64
        (max ((1 - l.level now key) / (l.limits.of key.1).perSec).ceil 1))) := by
  have hlevel : min (((l.buckets key).getD ⟨(l.limits.of key.1).burst, now⟩).tokens +
      (now - ((l.buckets key).getD ⟨(l.limits.of key.1).burst, now⟩).lookedAt) *
        (l.limits.of key.1).perSec) (l.limits.of key.1).burst = l.level now key := by
    unfold level
    cases l.buckets key with
    | none => simp
    | some b => rfl
  simp only [take, if_neg (not_le.mpr hlimited), hlevel]

end Limiter

theorem castUInt64_ceil_ge {x : ℚ} (hx : x ≤ 2 ^ 32) :
    x ≤ ((castUInt64 (max x.ceil 1)).toNat : ℚ) := by
  have hceil : x.ceil ≤ 2 ^ 32 := Rat.ceil_le_iff.mpr (by exact_mod_cast hx)
  have hwhole : max (x.ceil : ℚ) 1 = ((max x.ceil 1 : Int) : ℚ) := by push_cast; rfl
  have hnat : (((max x.ceil 1).toNat : Int) : ℚ) = ((max x.ceil 1 : Int) : ℚ) := by
    rw [Int.toNat_of_nonneg (by omega)]
  have hcast : (castUInt64 (max x.ceil 1)).toNat = (max x.ceil 1).toNat := by
    rw [castUInt64, hwhole, Rat.floor_intCast, UInt64.toNat_ofNat']
    omega
  rw [hcast]
  calc x ≤ (x.ceil : ℚ) := Rat.le_ceil
    _ ≤ max (x.ceil : ℚ) 1 := le_max_left _ _
    _ = ((max x.ceil 1).toNat : ℚ) := by rw [hwhole, ← hnat]; norm_cast

namespace World

/-- The buckets of a limiter hold no less than nothing, and were not looked at in the future. -/
structure Sound (w : World) : Prop where
  served : ∀ kind, (w.limiter.limits.of kind).Served
  tokens : ∀ key b, w.limiter.buckets key = some b → 0 ≤ b.tokens
  looked : ∀ key b, w.limiter.buckets key = some b → b.lookedAt ≤ w.clock

theorem sound_opened (clock : ℚ) (f : FileLimits) : Sound (opened clock f.resolve) :=
  ⟨served_resolve f, by simp [opened, Limiter.new], by simp [opened, Limiter.new]⟩

theorem Sound.refills (h : w.Sound) (hlimited : 0 < (w.limiter.limits.of key.1).burst) :
    1 ≤ (w.limiter.limits.of key.1).burst ∧ 0 < (w.limiter.limits.of key.1).perSec ∧
      1 ≤ (w.limiter.limits.of key.1).perSec * 2 ^ 32 := by
  obtain hnone | ⟨hburst, hrate⟩ := h.served key.1
  · linarith
  · exact ⟨hburst, by linarith, hrate⟩

theorem Sound.level_nonneg (h : w.Sound) (hlimited : 0 < (w.limiter.limits.of key.1).burst)
    (hnow : w.clock ≤ now) : 0 ≤ w.limiter.level now key := by
  obtain ⟨hburst, hrefill, -⟩ := h.refills hlimited
  unfold Limiter.level
  split
  · linarith
  · rename_i b hb
    have htokens := h.tokens key b hb
    have hlooked := h.looked key b hb
    have hfilled : 0 ≤ (now - b.lookedAt) * (w.limiter.limits.of key.1).perSec :=
      mul_nonneg (by linarith) hrefill.le
    exact le_min (by linarith) (by linarith)

theorem limits_step (w : World) (turn : ℚ × Act) :
    (w.step turn).limiter.limits = w.limiter.limits := by
  obtain ⟨now, act⟩ := turn
  cases act with
  | take key =>
    simp only [step, Limiter.take]
    split_ifs <;> rfl
  | sweep => rfl

theorem Sound.put (h : w.Sound) (hclock : w.clock ≤ now) {v : ℚ} (hv : 0 ≤ v) :
    Sound ⟨now, w.limiter.put key ⟨v, now⟩⟩ where
  served := h.served
  tokens k b hb := by
    simp only [Limiter.put] at hb
    split at hb
    · obtain rfl := Option.some.inj hb
      exact hv
    · exact h.tokens k b hb
  looked k b hb := by
    simp only [Limiter.put] at hb
    split at hb
    · obtain rfl := Option.some.inj hb
      exact le_rfl
    · exact (h.looked k b hb).trans hclock

theorem Sound.step {turn : ℚ × Act} (h : w.Sound) (ht : w.Timely turn) : (w.step turn).Sound := by
  obtain ⟨now, act⟩ := turn
  have hclock : w.clock ≤ now := ht
  cases act with
  | take key =>
    by_cases hlimited : 0 < (w.limiter.limits.of key.1).burst
    · have hnonneg := h.level_nonneg hlimited hclock
      rw [World.step, Limiter.take_eq hlimited]
      split
      · exact h.put hclock (by linarith)
      · exact h.put hclock hnonneg
    · have hsame : (w.limiter.take now key).1 = w.limiter := by
        rw [Limiter.take, if_pos (not_lt.mp hlimited)]
      rw [World.step, hsame]
      exact ⟨h.served, h.tokens, fun k b hb => (h.looked k b hb).trans hclock⟩
  | sweep =>
    refine ⟨h.served, fun k b hb => ?_, fun k b hb => ?_⟩
    · exact h.tokens k b (Option.filter_eq_some_iff.mp hb).1
    · exact (h.looked k b (Option.filter_eq_some_iff.mp hb).1).trans hclock

section Levels
variable {turn : ℚ × Act}

theorem level_take (h : w.Sound) (hlimited : 0 < (w.limiter.limits.of key.1).burst)
    (hle : now ≤ t) : (w.limiter.take now key).1.level t key =
      if 1 ≤ w.limiter.level now key then
        min (w.limiter.level now key - 1 + (t - now) * (w.limiter.limits.of key.1).perSec)
          (w.limiter.limits.of key.1).burst
      else w.limiter.level t key := by
  have hrefill := (h.refills hlimited).2.1.le
  rw [Limiter.take_eq hlimited]
  split
  · exact Limiter.level_put _ _ _ _
  · rw [Limiter.level_put, Limiter.level_later hrefill hle]

theorem level_step_of_ne (h : w.Sound) (hlimited : 0 < (w.limiter.limits.of key.1).burst)
    (hact : turn.2 ≠ .take key) (hle : turn.1 ≤ t) :
    (w.step turn).limiter.level t key = w.limiter.level t key := by
  obtain ⟨now, act⟩ := turn
  cases act with
  | take other =>
    have hne : key ≠ other := fun heq => hact (by rw [heq])
    simp only [step, Limiter.take]
    split_ifs
    · rfl
    · exact Limiter.level_put_of_ne t _ _ hne
    · exact Limiter.level_put_of_ne t _ _ hne
  | sweep => exact Limiter.level_sweep (h.refills hlimited).2.1.le hle

theorem level_step_le (h : w.Sound) (hlimited : 0 < (w.limiter.limits.of key.1).burst)
    (hle : turn.1 ≤ t) : (w.step turn).limiter.level t key ≤ w.limiter.level t key := by
  by_cases hact : turn.2 = .take key
  · obtain ⟨now, act⟩ := turn
    subst hact
    rw [step, level_take h hlimited hle]
    split
    · rw [Limiter.level_later (h.refills hlimited).2.1.le hle]
      exact min_le_min_right _ (by linarith)
    · exact le_rfl
  · exact (level_step_of_ne h hlimited hact hle).le

end Levels

section Sweeps

def skip (w : World) (turn : ℚ × Act) : World := if asked turn then w.step turn else w

/-- Two limiters with as much in each bucket, now and later. -/
structure Alike (u w : World) : Prop where
  left : u.Sound
  right : w.Sound
  behind : u.clock ≤ w.clock
  limits : u.limiter.limits = w.limiter.limits
  level : ∀ key, 0 < (w.limiter.limits.of key.1).burst → ∀ t, w.clock ≤ t →
    u.limiter.level t key = w.limiter.level t key

theorem Alike.take_eq {u : World} (h : Alike u w) (hclock : w.clock ≤ now) (key : Key) :
    (u.limiter.take now key).2 = (w.limiter.take now key).2 := by
  by_cases hlimited : 0 < (w.limiter.limits.of key.1).burst
  · have hlimited' : 0 < (u.limiter.limits.of key.1).burst := by rwa [h.limits]
    rw [Limiter.take_eq hlimited', Limiter.take_eq hlimited, h.level key hlimited now hclock,
      h.limits]
    split <;> rfl
  · have hlimited' : (u.limiter.limits.of key.1).burst ≤ 0 := by
      rw [h.limits]
      exact not_lt.mp hlimited
    rw [Limiter.take, Limiter.take, if_pos hlimited', if_pos (not_lt.mp hlimited)]

theorem Alike.step {u : World} {turn : ℚ × Act} (h : Alike u w) (ht : w.Timely turn) :
    Alike (u.skip turn) (w.step turn) := by
  have hclock : u.clock ≤ turn.1 := h.behind.trans ht
  by_cases hasked : asked turn = true
  · rw [skip, if_pos hasked]
    refine ⟨h.left.step hclock, h.right.step ht, ?_, ?_, fun k hlimited t hle => ?_⟩
    · obtain ⟨now, act⟩ := turn
      cases act <;> exact le_rfl
    · rw [limits_step, limits_step, h.limits]
    · have hnow : turn.1 ≤ t := by
        obtain ⟨now, act⟩ := turn
        cases act <;> exact hle
      rw [limits_step] at hlimited
      have hlimited' : 0 < (u.limiter.limits.of k.1).burst := by rwa [h.limits]
      have hlater := h.level k hlimited t (le_trans ht hnow)
      by_cases hact : turn.2 = .take k
      · obtain ⟨now, act⟩ := turn
        subst hact
        rw [World.step, World.step, level_take h.left hlimited' hnow,
          level_take h.right hlimited hnow, h.level k hlimited now ht, h.limits, hlater]
      · rw [level_step_of_ne h.left hlimited' hact hnow,
          level_step_of_ne h.right hlimited hact hnow, hlater]
  · rw [skip, if_neg hasked]
    obtain ⟨now, act⟩ := turn
    obtain rfl : act = .sweep := by simpa [asked] using hasked
    refine ⟨h.left, h.right.step ht, hclock, h.limits, fun k hlimited t hle => ?_⟩
    rw [level_step_of_ne h.right hlimited (by simp) hle]
    exact h.level k hlimited t (le_trans ht hle)

theorem answers_eq (clock : ℚ) (f : FileLimits) (turns : List (ℚ × Act))
    (htimes : Each Timely step (opened clock f.resolve) turns) :
    emitted answers step (opened clock f.resolve) (turns.filter asked) =
      emitted answers step (opened clock f.resolve) turns := by
  have hsound := sound_opened clock f
  have halike : Alike (opened clock f.resolve) (opened clock f.resolve) :=
    ⟨hsound, hsound, le_rfl, rfl, fun _ _ _ _ => rfl⟩
  have hskip : emitted answers step (opened clock f.resolve) (turns.filter asked) =
      emitted answers skip (opened clock f.resolve) turns := by
    refine emitted_filter id (fun w turn hasked => ⟨by simp [skip, hasked], rfl⟩)
      (fun w turn hquiet => ⟨by simp [skip, hquiet], ?_⟩) _ turns
    obtain ⟨now, act⟩ := turn
    obtain rfl : act = .sweep := by simpa [asked] using hquiet
    rfl
  have hlength : ∀ (u w : World) (turn : ℚ × Act),
      (u.answers turn).length = (w.answers turn).length := by
    rintro u w ⟨now, act⟩
    cases act <;> rfl
  rw [hskip]
  have hagree : ∀ u w turn, Alike u w → w.Timely turn →
      (u.answers turn = w.answers turn ↔ True) := by
    rintro u w ⟨now, act⟩ h ht
    cases act with
    | take key => simp [answers, h.take_eq ht key]
    | sweep => simp [answers]
  exact (@emitted_eq_iff _ _ _ _ answers answers skip step Alike Timely (fun _ _ => True)
    (fun u w turn h ht => h.step ht) (fun u w turn _ => hlength u w turn) hagree _ _ _ halike
    htimes).mpr (each_of_mem (fun _ _ _ => trivial) _)

end Sweeps

section Windows
variable {start stop : ℚ}

/-- Whether a grant is one to a key, in a window of time. -/
def within (start stop : ℚ) (key : Key) (g : Key × ℚ) : Bool :=
  g.1 = key ∧ start ≤ g.2 ∧ g.2 ≤ stop

/-- What may be granted to a key yet, in a window of time. -/
def room (start stop : ℚ) (key : Key) (w : World) : ℚ :=
  if max w.clock start ≤ stop then w.limiter.level (max w.clock start) key +
    (stop - max w.clock start) * (w.limiter.limits.of key.1).perSec
  else 0

theorem Sound.room_nonneg (h : w.Sound) (hlimited : 0 < (w.limiter.limits.of key.1).burst) :
    0 ≤ w.room start stop key := by
  have hrefill := (h.refills hlimited).2.1.le
  unfold room
  split
  · rename_i hle
    have hfilled := mul_nonneg (sub_nonneg.mpr hle) hrefill
    have hlevel := h.level_nonneg hlimited (le_max_left w.clock start)
    linarith
  · exact le_rfl

theorem Sound.room_ge (h : w.Sound) (hlimited : 0 < (w.limiter.limits.of key.1).burst)
    (hstart : max w.clock start ≤ t) (hstop : t ≤ stop) :
    w.limiter.level t key + (stop - t) * (w.limiter.limits.of key.1).perSec ≤
      w.room start stop key := by
  have hrefill := (h.refills hlimited).2.1.le
  rw [room, if_pos (hstart.trans hstop)]
  have hlater := Limiter.level_later hrefill hstart
  have hle := min_le_left (w.limiter.level (max w.clock start) key +
    (t - max w.clock start) * (w.limiter.limits.of key.1).perSec) (w.limiter.limits.of key.1).burst
  rw [← hlater] at hle
  linarith

theorem grants_of_ne {turn : ℚ × Act} (hact : turn.2 ≠ .take key) :
    (w.grants turn).countP (within start stop key) = 0 := by
  obtain ⟨now, act⟩ := turn
  cases act with
  | take other =>
    have hne : other ≠ key := fun heq => hact (by rw [heq])
    simp only [grants]
    split <;> simp [within, hne]
  | sweep => rfl

theorem clock_step (w : World) (turn : ℚ × Act) : (w.step turn).clock = turn.1 := by
  obtain ⟨now, act⟩ := turn
  cases act <;> rfl

theorem Sound.room_step_le {turn : ℚ × Act} (h : w.Sound) (ht : w.Timely turn)
    (hlimited : 0 < (w.limiter.limits.of key.1).burst) :
    (w.step turn).room start stop key ≤ w.room start stop key := by
  rw [room, clock_step, limits_step]
  split
  · rename_i hstop
    have hstart : max w.clock start ≤ max turn.1 start := max_le_max_right start ht
    have hroom := h.room_ge hlimited hstart hstop
    have hlevel := level_step_le h hlimited (le_max_left turn.1 start)
    linarith
  · exact h.room_nonneg hlimited

theorem Sound.room_step {turn : ℚ × Act} (h : w.Sound) (ht : w.Timely turn)
    (hlimited : 0 < (w.limiter.limits.of key.1).burst) :
    ((w.grants turn).countP (within start stop key) : ℚ) + (w.step turn).room start stop key ≤
      w.room start stop key := by
  have hle : (w.step turn).room start stop key ≤ w.room start stop key :=
    h.room_step_le ht hlimited
  by_cases hact : turn.2 = .take key
  · obtain ⟨now, act⟩ := turn
    subst hact
    have hgrants : w.grants (now, .take key) =
        if 1 ≤ w.limiter.level now key then [(key, now)] else [] := by
      by_cases hfull : 1 ≤ w.limiter.level now key <;>
        simp [grants, Limiter.take_eq hlimited, hfull]
    by_cases hin : 1 ≤ w.limiter.level now key ∧ start ≤ now ∧ now ≤ stop
    · obtain ⟨hfull, hstart, hstop⟩ := hin
      have hroom := h.room_ge hlimited (max_le ht hstart) hstop
      have hburst := Limiter.level_le_burst now key w.limiter
      have hlevel : (w.step (now, .take key)).limiter.level now key =
          w.limiter.level now key - 1 := by
        rw [World.step, level_take h hlimited le_rfl, if_pos hfull, sub_self, zero_mul, add_zero,
          min_eq_left (by linarith)]
      have hafter : (w.step (now, .take key)).room start stop key =
          w.limiter.level now key - 1 + (stop - now) * (w.limiter.limits.of key.1).perSec := by
        rw [room, clock_step, limits_step, max_eq_left hstart, if_pos hstop, hlevel]
      rw [hgrants, if_pos hfull, hafter, List.countP_singleton, within]
      simp only [hstart, hstop, and_self, decide_true, if_true, Nat.cast_one]
      linarith
    · have hnone : (w.grants (now, .take key)).countP (within start stop key) = 0 := by
        rw [hgrants]
        split
        · rename_i hfull
          have hout : ¬ (start ≤ now ∧ now ≤ stop) := fun hwindow => hin ⟨hfull, hwindow⟩
          simp [within, hout]
        · rfl
      rw [hnone, Nat.cast_zero, zero_add]
      exact hle
  · rw [grants_of_ne hact, Nat.cast_zero, zero_add]
    exact hle

theorem Sound.granted_le (h : w.Sound) (hlimited : 0 < (w.limiter.limits.of key.1).burst)
    (turns : List (ℚ × Act)) (htimes : Each Timely World.step w turns) :
    ((emitted grants World.step w turns).countP (within start stop key) : ℚ) ≤
      w.room start stop key := by
  induction turns generalizing w with
  | nil => simpa [emitted] using h.room_nonneg hlimited
  | cons turn turns ih =>
    have hrest := ih (h.step htimes.1) (by rwa [limits_step]) htimes.2
    have hturn : ((w.grants turn).countP (within start stop key) : ℚ) +
        (w.step turn).room start stop key ≤ w.room start stop key :=
      h.room_step htimes.1 hlimited
    rw [emitted, List.countP_append, Nat.cast_add]
    linarith

theorem room_opened_le (clock : ℚ) (limits : Limits) (hwindow : start ≤ stop)
    (hburst : 0 ≤ (limits.of key.1).burst) (hrefill : 0 ≤ (limits.of key.1).perSec) :
    (opened clock limits).room start stop key ≤
      (limits.of key.1).burst + (limits.of key.1).perSec * (stop - start) := by
  have hfilled := mul_nonneg hrefill (sub_nonneg.mpr hwindow)
  unfold room
  split
  · have hlevel := Limiter.level_le_burst (max clock start) key (.new limits)
    have hlater := mul_le_mul_of_nonneg_left
      (sub_le_sub_left (le_max_right clock start) stop) hrefill
    simp only [opened, Limiter.new] at hlevel ⊢
    linarith
  · linarith

end Windows

section Waits

theorem clock_le_run {turns : List (ℚ × Act)} (htimes : Each Timely World.step w turns) :
    w.clock ≤ (run World.step w turns).clock := by
  induction turns generalizing w with
  | nil => exact le_rfl
  | cons turn turns ih =>
    have hrest := ih htimes.2
    rw [clock_step] at hrest
    exact le_trans htimes.1 hrest

theorem Sound.level_run (h : w.Sound) (hlimited : 0 < (w.limiter.limits.of key.1).burst)
    {turns : List (ℚ × Act)} (htimes : Each Timely World.step w turns)
    (hothers : ∀ turn ∈ turns, turn.2 ≠ .take key) (hle : (run World.step w turns).clock ≤ t) :
    (run World.step w turns).limiter.level t key = w.limiter.level t key ∧
      (run World.step w turns).limiter.limits = w.limiter.limits := by
  induction turns generalizing w with
  | nil => exact ⟨rfl, rfl⟩
  | cons turn turns ih =>
    have hlater := clock_le_run htimes.2
    rw [clock_step] at hlater
    obtain ⟨hlevel, hlimits⟩ := ih (h.step htimes.1) (by rwa [limits_step]) htimes.2
      (fun i hi => hothers i (by simp [hi])) hle
    rw [run_cons, hlevel, hlimits, limits_step]
    exact ⟨level_step_of_ne h hlimited (hothers turn (by simp)) (hlater.trans hle), rfl⟩

theorem Sound.granted_after (h : w.Sound) (hclock : w.clock ≤ now) {secs : UInt64}
    (hrefused : (w.limiter.take now key).2 = .error secs) {between : List (ℚ × Act)}
    (htimes : Each Timely World.step (w.step (now, .take key)) between)
    (hothers : ∀ turn ∈ between, turn.2 ≠ .take key)
    (hlater : (run World.step (w.step (now, .take key)) between).clock ≤ t)
    (hwait : now + (secs.toNat : ℚ) ≤ t) :
    ((run World.step (w.step (now, .take key)) between).limiter.take t key).2 = .ok () := by
  by_cases hlimited : 0 < (w.limiter.limits.of key.1).burst
  · obtain ⟨hburst, hrefill, hrate⟩ := h.refills hlimited
    have hnonneg := h.level_nonneg hlimited hclock
    have hafter : (w.step (now, .take key)).Sound := h.step hclock
    have hlimits := limits_step w (now, .take key)
    obtain ⟨hlevel, hlimits'⟩ := hafter.level_run (by rwa [hlimits]) htimes hothers hlater
    rw [hlimits] at hlimits'
    have hsecs : (0 : ℚ) ≤ secs.toNat := Nat.cast_nonneg _
    have hle : now ≤ t := by linarith
    rw [Limiter.take_eq hlimited] at hrefused
    by_cases hfull : 1 ≤ w.limiter.level now key
    · rw [if_pos hfull] at hrefused
      cases hrefused
    · rw [if_neg hfull] at hrefused
      -- the seconds told are no fewer than it takes to refill what is missing of a token
      have htold : (1 - w.limiter.level now key) / (w.limiter.limits.of key.1).perSec ≤
          (secs.toNat : ℚ) := by
        rw [← Except.error.inj hrefused]
        refine castUInt64_ceil_ge ?_
        rw [div_le_iff₀ hrefill]
        linarith
      have hmissing := (div_le_iff₀ hrefill).mp htold
      have hfilled : (secs.toNat : ℚ) * (w.limiter.limits.of key.1).perSec ≤
          (t - now) * (w.limiter.limits.of key.1).perSec :=
        mul_le_mul_of_nonneg_right (by linarith) hrefill.le
      have htoken : 1 ≤ (run World.step (w.step (now, .take key)) between).limiter.level t key := by
        rw [hlevel, World.step, level_take h hlimited hle, if_neg hfull,
          Limiter.level_later hrefill.le hle]
        exact le_min (by linarith) hburst
      rw [Limiter.take_eq (by rwa [hlimits']), if_pos htoken]
  · rw [Limiter.take, if_pos (not_lt.mp hlimited)] at hrefused
    cases hrefused

end Waits

end World

end Swept

end Sqex.Metering
