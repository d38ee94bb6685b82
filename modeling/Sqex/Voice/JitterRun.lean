import Sqex.Voice.Jitter

/-! Runs of the jitter buffer, with what was taken of it kept beside it, and the
invariant its states keep. -/
namespace Sqex.Voice
open Std Runs

namespace Jitter

/-- The slot whose frame the next `pop` hands out, if it hands one out. -/
def popSlot (j : Jitter) : Option Nat :=
  match j.fill with
  | .ok (some k) => if k.cursor ∈ k.frames then some k.cursor else none
  | _ => none

/-- The slot whose frame the next `trim` hands out, if it hands one out. -/
def trimSlot (j : Jitter) : Option Nat :=
  if j.overfull ∧ j.cursor ∈ j.frames then some j.cursor else none

/-- Where the next `pop` fills an empty slot with something waiting further on, how many
sequence numbers lie strictly between the last frame played and the oldest one waiting. -/
def missing (j : Jitter) : Option Nat :=
  if j.playing ∧ j.cursor ∉ j.frames then
    j.oldest.map fun next =>
      match j.lastPlayed with
      | some prev => next.2.seq.toNat - prev.1.toNat - 1
      | none => 0
  else none

inductive Op where
  | push (seq : UInt64) (timestamp : UInt32) (body : Body)
  | pop
  | trim

end Jitter

/-- A gap being crossed: how many packets were missing when it was entered, and the slots
filled since. -/
structure Crossing where
  missing : Nat
  filled : List Playout

/-- A buffer in use. Nothing it does reads the other two. -/
structure Listening where
  jitter : Jitter
  /-- The slots of the frames handed out, the newest first. -/
  handed : List Nat
  gap : Option Crossing

namespace Listening
open Jitter

def begin (depth : Nat) : Listening := ⟨.new depth, [], none⟩

/-- A frame handed out ends the gap it lies beyond. -/
def hand (s : Listening) (j : Jitter) (slot : Nat) : Listening := ⟨j, slot :: s.handed, none⟩

def fillGap (s : Listening) (slot : Playout) : Option Crossing :=
  match s.gap with
  | some g => some ⟨g.missing, g.filled ++ [slot]⟩
  | none => s.jitter.missing.map fun n => ⟨n, [slot]⟩

def step (s : Listening) : Jitter.Op → Listening
  | .push seq timestamp body => { s with jitter := s.jitter.push seq timestamp body }
  | .pop =>
    match s.jitter.pop, s.jitter.popSlot with
    | .ok (_, j), some slot => s.hand j slot
    | .ok (out, j), none => { s with jitter := j, gap := s.fillGap out }
    | .error _, _ => s
  | .trim =>
    match s.jitter.trimSlot with
    | some slot => s.hand s.jitter.trim.2 slot
    | none => { s with jitter := s.jitter.trim.2 }

end Listening

namespace Jitter
variable {j k : Jitter} {c : Nat} {media : Media}

/-- What every frame waiting and the numbers beside it keep within, once there is a
cursor to be behind. -/
structure Bounded (j : Jitter) : Prop where
  slots : ∀ t ∈ j.frames, t < 2 ^ 32
  held : ∀ t ∈ j.frames, j.cursor ≤ t
  coasted : j.coasted ≤ coastLimit
  depth : j.depth < 2 ^ 32

def Behind (j : Jitter) : Prop :=
  ∃ seq ts, j.lastPlayed = some (seq, ts) ∧ ts.toNat < j.cursor

/-- What is left of a gap being crossed reaches a frame that is waiting. -/
def Reaches (j : Jitter) : Prop :=
  ∃ t ∈ j.frames, t ≤ j.cursor + j.concealRun + j.silentRun

structure Fits (j : Jitter) : Prop where
  slots : ∀ t ∈ j.frames, t < 2 ^ 32
  coasted : j.coasted ≤ coastLimit
  cursor : j.cursor ≤ 2 ^ 32 + j.coasted
  bounded : j.playing → j.Bounded
  behind : j.playing → j.Behind
  reaches : 0 < j.concealRun + j.silentRun → j.playing ∧ j.Reaches

structure Started (j k : Jitter) : Prop where
  bounded : k.Bounded
  playing : k.playing
  held : k.cursor ∈ k.frames
  few : j.depth < j.frames.size
  lastPlayed : k.lastPlayed = j.lastPlayed
  /-- Where it starts, against any slot: a backlog is counted, less is started whole. -/
  past : ∀ p, p < k.cursor ↔
    if j.frames.size > j.depth * 3 then j.depth < (j.frames.filter fun t _ => p < t).size
    else ∀ t ∈ j.frames, p < t

theorem Fits.depth_lt (h : j.Fits) (hlt : j.depth < j.frames.size) : j.depth < 2 ^ 32 := by
  have := size_le_of_forall_lt h.slots
  omega

theorem startAt_started (h : j.Fits) (hback : j.frames.size > j.depth * 3)
    (hlt : j.depth < j.frames.size) (hc : j.frames.keys.reverse[j.depth]? = some c) :
    Started j (j.startAt c) := by
  have hmem : c ∈ j.frames := by simpa using List.mem_of_getElem? hc
  have hkept : ∀ t ∈ (j.startAt c).frames, t ∈ j.frames ∧ c ≤ t := by
    intro t ht
    obtain ⟨hin, hle⟩ := ExtTreeMap.mem_filter.mp ht
    exact ⟨hin, by simpa using hle⟩
  have hbounded : (j.startAt c).Bounded := {
    slots := fun t ht => h.slots t (hkept t ht).1
    held := fun t ht => (hkept t ht).2
    coasted := h.coasted
    depth := h.depth_lt hlt }
  refine ⟨hbounded, rfl, ?_, hlt, rfl, fun p => ?_⟩
  · exact ExtTreeMap.mem_filter.mpr ⟨hmem, by simp [startAt]⟩
  · rw [if_pos hback]
    exact lt_reverse_keys_iff hc

theorem start_oldest_started (h : j.Fits) (hback : ¬ j.frames.size > j.depth * 3)
    (hlt : j.depth < j.frames.size) (hc : j.frames.keys.head? = some c) :
    Started j { j with cursor := c, playing := true } := by
  rw [← ExtTreeMap.minKey?_eq_head?_keys] at hc
  obtain ⟨hmem, hmin⟩ := ExtTreeMap.minKey?_eq_some_iff_mem_and_forall.mp hc
  have hle : ∀ t ∈ j.frames, c ≤ t := fun t ht => by
    simpa [Nat.isLE_compare] using hmin t ht
  refine ⟨⟨h.slots, hle, h.coasted, h.depth_lt hlt⟩, rfl, hmem, hlt, rfl, fun p => ?_⟩
  rw [if_neg hback]
  constructor
  · intro hp t ht
    exact Nat.lt_of_lt_of_le hp (hle t ht)
  · intro hall
    exact hall c hmem

theorem fill_cases (h : j.Fits) :
    (j.playing ∧ j.fill = .ok (some j)) ∨
    (¬ j.playing ∧ j.frames.size ≤ j.depth ∧ j.fill = .ok none) ∨
    (¬ j.playing ∧ ∃ k, j.fill = .ok (some k) ∧ Started j k) := by
  unfold fill
  by_cases hplaying : j.playing
  · left
    simp [hplaying]
  by_cases hfew : j.frames.size ≤ j.depth
  · right; left
    simp [hplaying, hfew]
  have hlt : j.depth < j.frames.size := by omega
  right; right
  refine ⟨hplaying, ?_⟩
  by_cases hback : j.frames.size > j.depth * 3
  · have hlen : j.depth < j.frames.keys.reverse.length := by simpa using hlt
    have hc := List.getElem?_eq_getElem hlen
    refine ⟨_, ?_, startAt_started h hback hlt hc⟩
    rw [if_neg hplaying, if_neg hfew, if_pos hback, hc]
  · cases hc : j.frames.keys.head? with
    | none =>
      have hempty : j.frames = ∅ := by simpa [← ExtTreeMap.minKey?_eq_head?_keys] using hc
      simp [hempty] at hlt
    | some c =>
      refine ⟨_, ?_, start_oldest_started h hback hlt hc⟩
      rw [if_neg hplaying, if_neg hfew, if_neg hback]

/-- A buffer that has just let a frame go: the cursor one on, and no gap. -/
structure HandedOut (j k : Jitter) : Prop where
  frames : k.frames = j.frames.erase j.cursor
  cursor : k.cursor = j.cursor + 1
  lastPlayed : ∃ seq, k.lastPlayed = some (seq, UInt32.ofNat j.cursor)
  coasted : k.coasted ≤ j.coasted
  noRun : k.concealRun + k.silentRun = 0
  depth : k.depth = j.depth
  playing : k.playing = j.playing

theorem play_handedOut (j : Jitter) (media : Media) : HandedOut j (j.play media).2 := by
  cases hbody : media.body <;> constructor <;> simp [play, hbody]

theorem trim_handedOut {slot : Nat} (h : j.trimSlot = some slot) :
    slot = j.cursor ∧ j.playing ∧ j.cursor ∈ j.frames ∧ HandedOut j j.trim.2 := by
  unfold trimSlot at h
  split at h
  case isFalse => simp at h
  case isTrue hover =>
    obtain ⟨hover, hmem⟩ := hover
    have hplaying : j.playing := by
      unfold overfull at hover
      simp only [Bool.and_eq_true] at hover
      exact hover.1
    have hget := ExtTreeMap.getElem?_eq_some_getElem hmem
    refine ⟨(Option.some.inj h).symm, hplaying, hmem, ?_⟩
    cases hbody : j.frames[j.cursor].body <;> constructor <;>
      simp [trim, hover, hget, hbody]

theorem trim_none (h : j.trimSlot = none) : j.trim.2 = j := by
  unfold trim
  by_cases hover : j.overfull
  · have hnot : j.cursor ∉ j.frames := by
      intro hmem
      simp [trimSlot, hover, hmem] at h
    simp [hover, ExtTreeMap.getElem?_eq_none hnot]
  · simp [hover]

theorem Bounded.handedOut (h : j.Bounded) (hk : HandedOut j k) : k.Bounded := by
  have hin : ∀ t ∈ k.frames, t ∈ j.frames ∧ t ≠ j.cursor := by
    intro t ht
    rw [hk.frames, ExtTreeMap.mem_erase] at ht
    exact ⟨ht.2, fun heq => ht.1 (by simp [heq])⟩
  refine ⟨fun t ht => h.slots t (hin t ht).1, fun t ht => ?_, ?_, ?_⟩
  · obtain ⟨hjt, hne⟩ := hin t ht
    have := h.held t hjt
    rw [hk.cursor]
    omega
  · have := hk.coasted
    have := h.coasted
    omega
  · rw [hk.depth]
    exact h.depth

theorem HandedOut.fits (h : j.Bounded) (hmem : j.cursor ∈ j.frames) (hk : HandedOut j k) :
    k.Fits := by
  have hbounded := h.handedOut hk
  have hslot := h.slots j.cursor hmem
  refine ⟨hbounded.slots, hbounded.coasted, ?_, fun _ => hbounded, fun _ => ?_, fun hrun => ?_⟩
  · rw [hk.cursor]
    omega
  · obtain ⟨seq, hlast⟩ := hk.lastPlayed
    refine ⟨seq, _, hlast, ?_⟩
    have hts : (UInt32.ofNat j.cursor).toNat = j.cursor := by
      simp
      omega
    rw [hk.cursor, hts]
    omega
  · have := hk.noRun
    omega

theorem stall_fits (h : j.Fits) (hplaying : j.playing) (hempty : j.frames.isEmpty) :
    j.stall.2.Fits := by
  have hframes : j.frames = ∅ := by simpa using hempty
  have hbounded := h.bounded hplaying
  obtain ⟨seq, ts, hlast, hts⟩ := h.behind hplaying
  have hnoRun : j.concealRun + j.silentRun = 0 := by
    by_contra hrun
    obtain ⟨-, t, ht, -⟩ := h.reaches (by omega)
    simp [hframes] at ht
  by_cases hcoast : j.inPause ∧ j.coasted < coastLimit
  · have hcursor := h.cursor
    have hstall : j.stall.2 = { j with
        coasted := j.coasted + 1
        cursor := j.cursor + 1
        stats := { j.stats with silent := j.stats.silent + 1 } } := by simp [stall, hcoast]
    rw [hstall]
    refine ⟨h.slots, hcoast.2, ?_, fun _ => ⟨h.slots, ?_, hcoast.2, hbounded.depth⟩,
      fun _ => ⟨seq, ts, hlast, ?_⟩, fun hrun => ?_⟩
    · simp only
      omega
    · simp [hframes]
    · simp only
      omega
    · simp only at hrun
      omega
  · have hstall : j.stall.2 = { j with
        stats := { j.stats with underruns := j.stats.underruns + 1 }
        playing := false
        inPause := false
        concealRun := 0
        silentRun := 0 } := by simp [stall, hcoast]
    rw [hstall]
    exact ⟨h.slots, h.coasted, h.cursor, by simp, by simp, by simp⟩

@[simp] theorem stall_lastPlayed (j : Jitter) : j.stall.2.lastPlayed = j.lastPlayed := by
  unfold stall
  split <;> rfl

theorem stall_noRun (h : j.concealRun + j.silentRun = 0) :
    j.stall.2.concealRun + j.stall.2.silentRun = 0 := by
  unfold stall
  split
  · exact h
  · rfl

theorem oldest_eq_some {ts : Nat} {next : Media} :
    j.oldest = some (ts, next) ↔ j.frames[ts]? = some next ∧ ∀ t ∈ j.frames, ts ≤ t := by
  unfold oldest
  rw [← ExtTreeMap.minKey?_eq_head?_keys]
  constructor
  · intro h
    obtain ⟨t, hmin, hmap⟩ := Option.bind_eq_some_iff.mp h
    obtain ⟨media, hget, heq⟩ := Option.map_eq_some_iff.mp hmap
    obtain ⟨rfl, rfl⟩ := Prod.mk.inj heq
    obtain ⟨-, hle⟩ := ExtTreeMap.minKey?_eq_some_iff_mem_and_forall.mp hmin
    exact ⟨hget, fun s hs => by simpa [Nat.isLE_compare] using hle s hs⟩
  · rintro ⟨hget, hle⟩
    have hmem : ts ∈ j.frames := ExtTreeMap.mem_iff_isSome_getElem?.mpr (by simp [hget])
    have hmin : j.frames.minKey? = some ts :=
      ExtTreeMap.minKey?_eq_some_iff_mem_and_forall.mpr
        ⟨hmem, fun s hs => by simpa [Nat.isLE_compare] using hle s hs⟩
    simp [hmin, hget]

theorem exists_oldest (h : ¬ j.frames.isEmpty) : ∃ ts next, j.oldest = some (ts, next) := by
  unfold oldest
  rw [← ExtTreeMap.minKey?_eq_head?_keys]
  cases hmin : j.frames.minKey? with
  | none =>
    have hempty : j.frames = ∅ := by simpa using hmin
    simp [hempty] at h
  | some ts =>
    obtain ⟨hmem, -⟩ := ExtTreeMap.minKey?_eq_some_iff_mem_and_forall.mp hmin
    refine ⟨ts, j.frames[ts], ?_⟩
    simp [ExtTreeMap.getElem?_eq_some_getElem hmem]

/-- Two frames in order, the cursor between them: the slots from the cursor to the second
are all accounted for, and no more of them as loss than packets are missing. -/
theorem classify_between (prev : UInt64 × UInt32) (seq : UInt64) {ts cursor : Nat}
    (hts : ts < 2 ^ 32) (hprev : prev.2.toNat < cursor) (hcursor : cursor < ts) :
    let gap := classify prev (seq, UInt32.ofNat ts)
    gap.lost ≤ seq.toNat - prev.1.toNat - 1 ∧ ts ≤ cursor + gap.lost + gap.silent := by
  have hofNat : (UInt32.ofNat ts).toNat = ts := by
    simp
    omega
  have hsub : (UInt32.ofNat ts - prev.2).toNat = ts - prev.2.toNat := by
    rw [UInt32.toNat_sub_of_le, hofNat]
    rw [UInt32.le_iff_toNat_le, hofNat]
    omega
  simp only [classify, hsub]
  omega

structure InGap (j : Jitter) : Prop where
  playing : j.playing
  empty : j.cursor ∉ j.frames
  waiting : ¬ j.frames.isEmpty

/-- What measuring a gap leaves: only the runs may differ, and they reach a frame that is
waiting. Where there was no run the loss is no more than the packets missing. -/
structure Measured (j : Jitter) : Prop where
  rest : j.measure = { j with
    concealRun := j.measure.concealRun, silentRun := j.measure.silentRun }
  reaches : ∃ t ∈ j.frames, j.cursor < t ∧
    t ≤ j.cursor + j.measure.concealRun + j.measure.silentRun
  entered : j.concealRun + j.silentRun = 0 →
    ∃ n, j.missing = some n ∧ j.measure.concealRun ≤ n
  crossing : 0 < j.concealRun + j.silentRun → j.measure = j

theorem InGap.above (hgap : j.InGap) (h : j.Fits) {t : Nat} (ht : t ∈ j.frames) :
    j.cursor < t := by
  have hle := (h.bounded hgap.playing).held t ht
  have hne : t ≠ j.cursor := fun heq => hgap.empty (heq ▸ ht)
  omega

theorem InGap.measured (hgap : j.InGap) (h : j.Fits) : Measured j := by
  by_cases hrun : j.concealRun = 0 ∧ j.silentRun = 0
  · obtain ⟨ts, next, hold⟩ := exists_oldest hgap.waiting
    obtain ⟨hget, -⟩ := oldest_eq_some.mp hold
    have hmem : ts ∈ j.frames := ExtTreeMap.mem_iff_isSome_getElem?.mpr (by simp [hget])
    obtain ⟨seq, p, hlast, hp⟩ := h.behind hgap.playing
    have habove := hgap.above h hmem
    have hclass := classify_between (seq, p) next.seq (h.slots ts hmem) hp habove
    have hmeasure : j.measure = { j with
        concealRun := (classify (seq, p) (next.seq, UInt32.ofNat ts)).lost
        silentRun := (classify (seq, p) (next.seq, UInt32.ofNat ts)).silent } := by
      simp [measure, hrun, hlast, hold]
    refine ⟨by rw [hmeasure], ⟨ts, hmem, habove, ?_⟩, fun _ => ?_, fun hpos => ?_⟩
    · rw [hmeasure]
      exact hclass.2
    · refine ⟨next.seq.toNat - seq.toNat - 1, ?_, ?_⟩
      · simp [missing, hgap.playing, hgap.empty, hold, hlast]
      · rw [hmeasure]
        exact hclass.1
    · omega
  · have hmeasure : j.measure = j := by simp only [measure, if_neg hrun]
    have hpos : 0 < j.concealRun + j.silentRun := by omega
    obtain ⟨-, t, ht, hreach⟩ := h.reaches hpos
    refine ⟨by rw [hmeasure], ⟨t, ht, hgap.above h ht, ?_⟩, fun hzero => ?_, fun _ => hmeasure⟩
    · rw [hmeasure]
      exact hreach
    · omega

/-- What crossing a gap by one slot does: it conceals while there is loss left to conceal,
and only then falls silent. -/
structure Crossed (j : Jitter) (out : Playout) (k : Jitter) : Prop where
  fits : k.Fits
  frames : k.frames = j.frames
  cursor : k.cursor = j.cursor + 1
  lastPlayed : k.lastPlayed = j.lastPlayed
  playing : k.playing
  reaches : k.Reaches
  slot : (0 < j.measure.concealRun ∧ out = .conceal ∧
      k.concealRun + 1 = j.measure.concealRun) ∨
    (j.measure.concealRun = 0 ∧ out = j.quiet ∧ k.concealRun = 0)

theorem InGap.crossed (hgap : j.InGap) (h : j.Fits) :
    ∃ out k, j.cross = .ok (out, k) ∧ Crossed j out k := by
  obtain ⟨hrest, ⟨t, ht, habove, hreach⟩, -, -⟩ := hgap.measured h
  have hbounded := h.bounded hgap.playing
  obtain ⟨seq, p, hlast, hp⟩ := h.behind hgap.playing
  have hcursor := h.slots t ht
  have hfits : ∀ (conceal silent : Nat) (stats : Stats), t ≤ j.cursor + 1 + conceal + silent →
      Fits { j with
        cursor := j.cursor + 1, concealRun := conceal, silentRun := silent, stats } := by
    intro conceal silent stats hle
    refine ⟨h.slots, h.coasted, ?_, fun _ => ⟨h.slots, fun s hs => hgap.above h hs,
      h.coasted, hbounded.depth⟩, fun _ => ⟨seq, p, hlast, ?_⟩, fun _ => ⟨hgap.playing, t, ht, hle⟩⟩
    · simp only
      omega
    · simp only
      omega
  by_cases hconceal : 0 < j.measure.concealRun
  · refine ⟨_, _, ?_, hfits (j.measure.concealRun - 1) j.measure.silentRun
      { j.stats with concealed := j.stats.concealed + 1 } (by omega), rfl, rfl, rfl, hgap.playing,
      ⟨t, ht, by simp only; omega⟩, .inl ⟨hconceal, rfl, ?_⟩⟩
    · rw [cross, hrest]
      simp [hconceal]
    · simp only
      omega
  · have hsilent : ¬ j.measure.silentRun = 0 := by omega
    refine ⟨j.quiet, _, ?_, hfits 0 (j.measure.silentRun - 1)
      { j.stats with silent := j.stats.silent + 1 } (by omega), rfl, rfl, rfl, hgap.playing,
      ⟨t, ht, by simp only; omega⟩, .inr ⟨by omega, rfl, rfl⟩⟩
    have hzero : j.measure.concealRun = 0 := by omega
    rw [cross, hrest]
    simp [hzero, hsilent, quiet]

inductive Popped (j : Jitter) (out : Playout) (k : Jitter) : Prop where
  | filling (waits : ¬ j.playing) (few : j.frames.size ≤ j.depth) (same : k = j)
      (out_eq : out = .idle) (slot : j.popSlot = none)
  | handed (i : Jitter) (media : Media)
      (start : j.playing ∧ i = j ∨ ¬ j.playing ∧ Started j i) (bounded : i.Bounded)
      (held : i.frames[i.cursor]? = some media) (played : (out, k) = i.play media)
      (slot : j.popSlot = some i.cursor)
  | stalled (playing : j.playing) (empty : j.frames.isEmpty) (stall : (out, k) = j.stall)
      (slot : j.popSlot = none)
  | crossed (gap : j.InGap) (cross : Crossed j out k) (slot : j.popSlot = none)

theorem pop_cases (h : j.Fits) : ∃ out k, j.pop = .ok (out, k) ∧ Popped j out k := by
  obtain ⟨hplaying, hfill⟩ | ⟨hwaits, hfew, hfill⟩ | ⟨hwaits, i, hfill, hi⟩ := fill_cases h
  · have hpop : j.pop = j.next := by simp [pop, hfill]
    rw [hpop, next]
    cases hget : j.frames[j.cursor]? with
    | some media =>
      have hmem : j.cursor ∈ j.frames := ExtTreeMap.mem_iff_isSome_getElem?.mpr (by simp [hget])
      exact ⟨_, _, rfl, .handed j media (.inl ⟨hplaying, rfl⟩) (h.bounded hplaying) hget rfl
        (by simp [popSlot, hfill, hmem])⟩
    | none =>
      have hmem : j.cursor ∉ j.frames := by
        rw [ExtTreeMap.mem_iff_isSome_getElem?, hget]
        simp
      have hslot : j.popSlot = none := by simp [popSlot, hfill, hmem]
      by_cases hempty : j.frames.isEmpty
      · simp only [hempty, if_pos]
        exact ⟨_, _, rfl, .stalled hplaying hempty rfl hslot⟩
      · have hgap : j.InGap := ⟨hplaying, hmem, hempty⟩
        obtain ⟨out, k, hcross, hcrossed⟩ := hgap.crossed h
        simp only [hempty, Bool.false_eq_true, if_false]
        exact ⟨out, k, hcross, .crossed hgap hcrossed hslot⟩
  · exact ⟨.idle, j, by simp [pop, hfill], .filling hwaits hfew rfl rfl (by simp [popSlot, hfill])⟩
  · have hheld := hi.held
    have hget := ExtTreeMap.getElem?_eq_some_getElem hheld
    have hpop : j.pop = .ok (i.play i.frames[i.cursor]) := by
      simp [pop, hfill, next, hget]
    exact ⟨_, _, hpop, .handed i _ (.inr ⟨hwaits, hi⟩) hi.bounded hget rfl
      (by simp [popSlot, hfill, hi.held])⟩

theorem Popped.fits {out : Playout} (hp : Popped j out k) (h : j.Fits) : k.Fits := by
  cases hp with
  | filling _ _ same _ _ =>
    rw [same]
    exact h
  | handed i media _ bounded held played _ =>
    have hmem : i.cursor ∈ i.frames := ExtTreeMap.mem_iff_isSome_getElem?.mpr (by simp [held])
    obtain rfl : k = (i.play media).2 := congrArg Prod.snd played
    exact (play_handedOut i media).fits bounded hmem
  | stalled playing empty stall _ =>
    obtain rfl : k = j.stall.2 := congrArg Prod.snd stall
    exact stall_fits h playing empty
  | crossed _ cross _ => exact cross.fits

theorem Popped.unhanded {out : Playout} (hp : Popped j out k) (h : j.popSlot = none) :
    k.lastPlayed = j.lastPlayed ∧ (j.playing ∨ j.frames.size ≤ j.depth) := by
  cases hp with
  | filling _ few same _ _ => exact ⟨by rw [same], .inr few⟩
  | handed i _ _ _ _ _ slot => simp [slot] at h
  | stalled playing _ stall _ =>
    obtain rfl : k = j.stall.2 := congrArg Prod.snd stall
    exact ⟨stall_lastPlayed j, .inl playing⟩
  | crossed gap cross _ => exact ⟨cross.lastPlayed, .inl gap.playing⟩

theorem Popped.of_slot {out : Playout} {slot : Nat} (hp : Popped j out k)
    (h : j.popSlot = some slot) :
    ∃ i media, (j.playing ∧ i = j ∨ ¬ j.playing ∧ Started j i) ∧ i.Bounded ∧
      i.frames[i.cursor]? = some media ∧ (out, k) = i.play media ∧ slot = i.cursor := by
  cases hp with
  | filling _ _ _ _ hnone => simp [hnone] at h
  | handed i media start bounded held played hslot =>
    exact ⟨i, media, start, bounded, held, played, Option.some.inj (h.symm.trans hslot)⟩
  | stalled _ _ _ hnone | crossed _ _ hnone => simp [hnone] at h

structure Pushed (j k : Jitter) : Prop where
  frames : k.frames = j.frames ∨ ∃ slot media, slot < 2 ^ 32 ∧
    (j.playing → j.cursor ≤ slot) ∧ k.frames = j.frames.insert slot media
  cursor : k.cursor = j.cursor
  lastPlayed : k.lastPlayed = j.lastPlayed
  coasted : k.coasted = j.coasted
  concealRun : k.concealRun = j.concealRun
  silentRun : k.silentRun = j.silentRun
  depth : k.depth = j.depth
  playing : k.playing = j.playing

theorem push_pushed (j : Jitter) (seq : UInt64) (timestamp : UInt32) (body : Body) :
    Pushed j (j.push seq timestamp body) := by
  unfold push
  by_cases hlate : j.playing ∧ timestamp.toNat < j.cursor
  · simp only [hlate, and_self, if_true]
    constructor <;> simp [hlate]
  · simp only [hlate, if_false]
    refine ⟨.inr ⟨timestamp.toNat, ⟨seq, body⟩, timestamp.toNat_lt, fun hplaying => ?_, rfl⟩,
      rfl, rfl, rfl, rfl, rfl, rfl, rfl⟩
    exact Nat.le_of_not_lt fun hlt => hlate ⟨hplaying, hlt⟩

theorem Pushed.mem_of_mem (hk : Pushed j k) {t : Nat} (ht : t ∈ j.frames) : t ∈ k.frames := by
  obtain heq | ⟨slot, media, -, -, heq⟩ := hk.frames
  · rwa [heq]
  · rw [heq]
    exact ExtTreeMap.mem_insert.mpr (.inr ht)

theorem Pushed.of_mem (hk : Pushed j k) {t : Nat} (ht : t ∈ k.frames) :
    t ∈ j.frames ∨ t < 2 ^ 32 ∧ (j.playing → j.cursor ≤ t) := by
  obtain heq | ⟨slot, media, hlt, hle, heq⟩ := hk.frames
  · left
    rwa [← heq]
  · rw [heq, ExtTreeMap.mem_insert] at ht
    obtain hslot | hmem := ht
    · obtain rfl : slot = t := by simpa using hslot
      exact .inr ⟨hlt, hle⟩
    · exact .inl hmem

theorem Pushed.fits (hk : Pushed j k) (h : j.Fits) : k.Fits := by
  have hslots : ∀ t ∈ k.frames, t < 2 ^ 32 := by
    intro t ht
    obtain hmem | ⟨hlt, -⟩ := hk.of_mem ht
    · exact h.slots t hmem
    · exact hlt
  refine ⟨hslots, ?_, ?_, fun hplaying => ⟨hslots, fun t ht => ?_, ?_, ?_⟩, fun hplaying => ?_,
    fun hrun => ?_⟩
  · simpa [hk.coasted] using h.coasted
  · simpa [hk.cursor, hk.coasted] using h.cursor
  · rw [hk.playing] at hplaying
    rw [hk.cursor]
    obtain hmem | ⟨-, hle⟩ := hk.of_mem ht
    · exact (h.bounded hplaying).held t hmem
    · exact hle hplaying
  · simpa [hk.coasted] using h.coasted
  · rw [hk.playing] at hplaying
    simpa [hk.depth] using (h.bounded hplaying).depth
  · rw [hk.playing] at hplaying
    obtain ⟨seq, ts, hlast, hts⟩ := h.behind hplaying
    exact ⟨seq, ts, by rw [hk.lastPlayed, hlast], by rwa [hk.cursor]⟩
  · rw [hk.concealRun, hk.silentRun] at hrun
    obtain ⟨hplaying, t, ht, hreach⟩ := h.reaches hrun
    refine ⟨by rwa [hk.playing], t, hk.mem_of_mem ht, ?_⟩
    rwa [hk.cursor, hk.concealRun, hk.silentRun]

theorem trim_fits (h : j.Fits) : j.trim.2.Fits := by
  cases hslot : j.trimSlot with
  | none => rwa [trim_none hslot]
  | some slot =>
    obtain ⟨-, hplaying, hmem, hk⟩ := trim_handedOut hslot
    exact hk.fits (h.bounded hplaying) hmem

theorem new_fits (depth : Nat) : (new depth).Fits := by
  refine ⟨?_, ?_, ?_, ?_, ?_, ?_⟩ <;> simp [new]

/-- The thresholds are computed only where the depth is far below 2 ^ 62, and the cursor
stays just above 2 ^ 32. -/
theorem Fits.no_overflow (h : j.Fits) :
    (j.playing ∨ j.depth < j.frames.size → j.depth * 3 < 2 ^ 64) ∧ j.cursor + 1 < 2 ^ 64 := by
  have hcursor := h.cursor
  have hcoasted := h.coasted
  unfold coastLimit at hcoasted
  constructor
  · intro hneeded
    have hdepth : j.depth < 2 ^ 32 := by
      cases hneeded with
      | inl hplaying => exact (h.bounded hplaying).depth
      | inr hlt => exact h.depth_lt hlt
    omega
  · omega

end Jitter

namespace Listening
open Jitter

theorem step_fits {s : Listening} (h : s.jitter.Fits) (op : Jitter.Op) :
    (s.step op).jitter.Fits := by
  cases op with
  | push seq timestamp body => exact (push_pushed _ _ _ _).fits h
  | pop =>
    obtain ⟨out, k, hpop, hp⟩ := pop_cases h
    have hk := hp.fits h
    cases hslot : s.jitter.popSlot <;> simpa [step, hpop, hslot, hand] using hk
  | trim =>
    have hk := trim_fits h
    cases hslot : s.jitter.trimSlot <;> simpa [step, hslot, hand] using hk

end Listening
end Sqex.Voice
