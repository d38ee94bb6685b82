import Sqex.Voice.JitterRun

/-! Every frame that arrives is accounted for: late, doubled, trimmed, gone stale, handed to
playout or still held. -/
namespace Sqex.Voice
open Std Runs

/-- What a frame is played as. -/
def Body.played : Body → Playout
  | .audio packet => .frame packet
  | .comfort c => .comfort c

def Playout.isFrame : Playout → Bool
  | .frame _ => true
  | _ => false

theorem size_filter_add {m : ExtTreeMap Nat Media} (c : Nat) :
    (m.filter fun slot _ => slot < c).size + (m.filter fun slot _ => c ≤ slot).size = m.size := by
  simp only [← ExtTreeMap.length_toList, ExtTreeMap.toList_filter]
  have hall := m.toList.length_eq_length_filter_add fun p => p.1 < c
  have hrest : m.toList.filter (fun p => !decide (p.1 < c)) =
      m.toList.filter fun p => decide (c ≤ p.1) := by
    congr 1
    funext p
    rw [← decide_not]
    exact decide_eq_decide.mpr (by omega)
  rw [hrest] at hall
  omega

namespace Jitter
variable {j k : Jitter} {pushed n : Nat}

/-- Where `n` frames were handed to playout, whatever arrived is counted once. -/
def Accounts (j : Jitter) (pushed n : Nat) : Prop :=
  j.stats.received = pushed ∧ j.stats.received = j.stats.late + j.stats.duplicate +
    j.stats.trimmed + j.stats.stale + n + j.frames.size

theorem new_accounts (depth : Nat) : (new depth).Accounts 0 0 := by
  simp [Accounts, new]

theorem Accounts.push (h : j.Accounts pushed n) (seq : UInt64) (timestamp : UInt32) (body : Body) :
    (j.push seq timestamp body).Accounts (pushed + 1) n := by
  unfold Accounts at h ⊢
  unfold Jitter.push
  by_cases hlate : j.playing ∧ timestamp.toNat < j.cursor
  · simp only [hlate, and_self, if_true]
    omega
  · simp only [hlate, if_false, ExtTreeMap.size_insert, ← ExtTreeMap.mem_iff_contains]
    by_cases hknown : timestamp.toNat ∈ j.frames
    · simp only [hknown, if_true]
      omega
    · simp only [hknown, if_false]
      omega

theorem size_erase_mem {m : ExtTreeMap Nat Media} {c : Nat} (h : c ∈ m) :
    (m.erase c).size + 1 = m.size := by
  have hpos : m.size ≠ 0 := by
    intro hzero
    have hempty : m = ∅ := ExtTreeMap.eq_empty_iff_size_eq_zero.mpr hzero
    simp [hempty] at h
  rw [ExtTreeMap.size_erase, if_pos (ExtTreeMap.mem_iff_contains.mp h)]
  omega

theorem Accounts.trim (h : j.Accounts pushed n) : j.trim.2.Accounts pushed n := by
  cases hslot : j.trimSlot with
  | none => rwa [trim_none hslot]
  | some slot =>
    obtain ⟨-, -, hmem, -⟩ := trim_handedOut hslot
    have hover : j.overfull = true := by
      by_contra hnot
      simp [trimSlot, hnot] at hslot
    obtain ⟨media, hmedia⟩ := Option.isSome_iff_exists.mp (ExtTreeMap.mem_iff_isSome_getElem?.mp hmem)
    have hsize := size_erase_mem hmem
    unfold Accounts at h ⊢
    unfold Jitter.trim
    cases hbody : media.body <;> simp only [hover, hmedia, hbody] <;> simp <;> omega

theorem Accounts.fill (h : j.Accounts pushed n) (hfill : j.fill = .ok (some k)) : k.Accounts pushed n := by
  unfold Jitter.fill at hfill
  split at hfill
  case isTrue => cases hfill; exact h
  case isFalse =>
    split at hfill
    case isTrue => cases hfill
    case isFalse =>
      split at hfill
      case isTrue =>
        split at hfill
        case h_1 c _ =>
          cases hfill
          have hsplit := size_filter_add (m := j.frames) c
          simp only [Accounts, startAt] at h ⊢
          omega
        case h_2 => cases hfill
      case isFalse =>
        split at hfill
        case h_1 => cases hfill; exact h
        case h_2 => cases hfill

theorem Accounts.play {media : Media} (h : j.Accounts pushed n) (hmem : j.cursor ∈ j.frames) :
    (j.play media).2.Accounts pushed (n + 1) := by
  have hsize := size_erase_mem hmem
  unfold Accounts at h ⊢
  cases hbody : media.body <;> simp only [Jitter.play, hbody] <;> omega

/-- A slot filled without a frame takes none out of the buffer, and counts none. -/
theorem Accounts.stall (h : j.Accounts pushed n) : j.stall.2.Accounts pushed n := by
  unfold Jitter.stall
  split <;> exact h

theorem Accounts.measure (h : j.Accounts pushed n) : j.measure.Accounts pushed n := by
  unfold Jitter.measure
  split
  · split <;> exact h
  · exact h

theorem Accounts.cross {out : Playout} (h : j.Accounts pushed n) (hcross : j.cross = .ok (out, k)) :
    k.Accounts pushed n := by
  have hmeasured := h.measure
  unfold Jitter.cross at hcross
  simp only at hcross
  split at hcross
  · cases hcross
    exact hmeasured
  · split at hcross
    · cases hcross
    · cases hcross
      exact hmeasured

theorem Accounts.next {out : Playout} (h : j.Accounts pushed n) (hnext : j.next = .ok (out, k)) :
    k.Accounts pushed (n + if j.cursor ∈ j.frames then 1 else 0) := by
  unfold Jitter.next at hnext
  cases hmedia : j.frames[j.cursor]? with
  | some media =>
    have hmem : j.cursor ∈ j.frames := ExtTreeMap.mem_iff_isSome_getElem?.mpr (by simp [hmedia])
    rw [hmedia, Except.ok.injEq] at hnext
    rw [if_pos hmem, ← show (j.play media).2 = k by rw [hnext]]
    exact h.play hmem
  | none =>
    have hnot : j.cursor ∉ j.frames := by simp [ExtTreeMap.mem_iff_isSome_getElem?, hmedia]
    rw [if_neg hnot]
    simp only [hmedia] at hnext
    split at hnext
    · rw [Except.ok.injEq] at hnext
      rw [← show j.stall.2 = k by rw [hnext]]
      exact h.stall
    · exact h.cross hnext

theorem play_played (j : Jitter) (media : Media) : (j.play media).1 = media.body.played := by
  unfold Jitter.play
  cases media.body <;> rfl

theorem quiet_isFrame (j : Jitter) : j.quiet.isFrame = false := by
  unfold quiet
  split <;> rfl

theorem stall_isFrame (j : Jitter) : j.stall.1.isFrame = false := by
  unfold Jitter.stall
  split
  · exact quiet_isFrame j
  · rfl

/-- What `pop` answers is as a frame of the buffer is played, or is no sound of one. -/
theorem Popped.plays {out : Playout} (hp : Popped j out k) :
    if j.popSlot.isSome then ∃ body : Body, out = body.played else out.isFrame = false := by
  cases hp with
  | filling _ _ _ out_eq slot => simp [slot, out_eq, Playout.isFrame]
  | handed i media _ _ _ played slot =>
    rw [slot]
    exact ⟨media.body, (congrArg Prod.fst played).trans (play_played i media)⟩
  | stalled _ _ stall slot =>
    have hout : out = j.stall.1 := congrArg Prod.fst stall
    simp [slot, hout, stall_isFrame]
  | crossed _ cross slot =>
    obtain ⟨-, rfl, -⟩ | ⟨-, rfl, -⟩ := cross.slot
    · simp [slot, Playout.isFrame]
    · simp [slot, quiet_isFrame]

theorem Accounts.pop {out : Playout} (h : j.Accounts pushed n) (hpop : j.pop = .ok (out, k)) :
    k.Accounts pushed (n + if j.popSlot.isSome then 1 else 0) := by
  unfold Jitter.pop at hpop
  cases hfill : j.fill with
  | error e => simp [hfill] at hpop
  | ok filled =>
    cases filled with
    | none =>
      simp only [hfill, Except.ok.injEq, Prod.mk.injEq] at hpop
      simpa [popSlot, hfill, ← hpop.2] using h
    | some i =>
      simp only [hfill] at hpop
      have hcount : (if j.popSlot.isSome then 1 else 0) =
          if i.cursor ∈ i.frames then 1 else 0 := by
        by_cases hmem : i.cursor ∈ i.frames <;> simp [popSlot, hfill, hmem]
      rw [hcount]
      exact (h.fill hfill).next hpop

end Jitter

/-- A buffer, how often `push` was called, what `pop` answered, and what of that it took out of
the buffer. -/
structure Counting where
  jitter : Jitter
  pushed : Nat
  answered : List Playout
  handed : List Playout

namespace Counting
open Jitter

def new (depth : Nat) : Counting := ⟨.new depth, 0, [], []⟩

def step (s : Counting) : Jitter.Op → Counting
  | .push seq timestamp body =>
    { s with jitter := s.jitter.push seq timestamp body, pushed := s.pushed + 1 }
  | .pop =>
    match s.jitter.pop with
    | .ok (out, j) =>
      let handed := if s.jitter.popSlot.isSome then s.handed ++ [out] else s.handed
      { s with jitter := j, answered := s.answered ++ [out], handed }
    | .error _ => s
  | .trim => { s with jitter := s.jitter.trim.2 }

structure Conserved (s : Counting) : Prop where
  fits : s.jitter.Fits
  accounts : s.jitter.Accounts s.pushed s.handed.length
  played : ∀ out ∈ s.handed, ∃ body : Body, out = body.played
  frames : s.handed.filter Playout.isFrame = s.answered.filter Playout.isFrame

theorem Conserved.step {s : Counting} (h : s.Conserved) (op : Jitter.Op) :
    (s.step op).Conserved := by
  cases op with
  | push seq timestamp body =>
    exact ⟨(push_pushed _ _ _ _).fits h.fits, h.accounts.push seq timestamp body, h.played,
      h.frames⟩
  | trim => exact ⟨trim_fits h.fits, h.accounts.trim, h.played, h.frames⟩
  | pop =>
    obtain ⟨out, k, hpop, hp⟩ := pop_cases h.fits
    have haccounts := h.accounts.pop hpop
    have hplays := hp.plays
    simp only [Counting.step, hpop]
    cases hslot : s.jitter.popSlot with
    | none =>
      simp only [hslot, Option.isSome_none, Bool.false_eq_true, if_false, add_zero]
        at haccounts hplays
      exact ⟨hp.fits h.fits, haccounts, h.played, by simp [h.frames, hplays]⟩
    | some slot =>
      simp only [hslot, Option.isSome_some, if_true] at haccounts hplays
      refine ⟨hp.fits h.fits, by simpa using haccounts, ?_, by simp [h.frames]⟩
      exact forall_mem_concat.mpr ⟨h.played, hplays⟩

/-- However frames arrive and are asked for, what arrived is what was late, doubled, trimmed or
stale, what playout was handed, and what is held; and all the sound playout was answered with is
of frames it was handed. -/
theorem frames_conserved (depth : Nat) (ops : List Jitter.Op) :
    let s := run step (new depth) ops
    s.jitter.stats.received = s.pushed ∧
      s.jitter.stats.received = s.jitter.stats.late + s.jitter.stats.duplicate +
        s.jitter.stats.trimmed + s.jitter.stats.stale + s.handed.length + s.jitter.frames.size ∧
      (∀ out ∈ s.handed, ∃ body : Body, out = body.played) ∧
      s.handed.filter Playout.isFrame = s.answered.filter Playout.isFrame := by
  have hstart : (new depth).Conserved :=
    ⟨Jitter.new_fits depth, Jitter.new_accounts depth, by simp [new], rfl⟩
  obtain ⟨-, ⟨hpushed, haccounts⟩, hplayed, hframes⟩ :=
    run_invariant (P := Conserved) (fun _ op h => h.step op) hstart ops
  exact ⟨hpushed, haccounts, hplayed, hframes⟩

end Counting
end Sqex.Voice

/-! Crossing a gap. The two runs are measured once, on entering it, and always reach the
oldest frame that waits: frames that come in meanwhile only bring that nearer. So the runs
are never used up inside a gap, no subtraction goes below zero, and nothing is concealed
after the silence began. -/
namespace Sqex.Voice
open Std Runs Jitter

/-- A slot the peer chose not to fill. -/
def Playout.Quiet : Playout → Prop
  | .comfort _ | .silence => True
  | _ => False

namespace Crossing

/-- Slots concealed come first, and are no more than the packets that were missing. -/
def Split (g : Crossing) : Prop :=
  ∃ n rest, g.filled = List.replicate n .conceal ++ rest ∧ (∀ out ∈ rest, out.Quiet) ∧
    n ≤ g.missing

def Holds (g : Crossing) (j : Jitter) : Prop :=
  ∃ n rest, g.filled = List.replicate n .conceal ++ rest ∧ (∀ out ∈ rest, out.Quiet) ∧
    n + j.concealRun ≤ g.missing ∧ (0 < j.concealRun → rest = [])

theorem Holds.split {g : Crossing} {j : Jitter} (h : g.Holds j) : g.Split := by
  obtain ⟨n, rest, hfilled, hquiet, hle, -⟩ := h
  exact ⟨n, rest, hfilled, hquiet, by omega⟩

end Crossing

namespace Jitter
variable {j k : Jitter} {out : Playout}

theorem quiet_quiet (j : Jitter) : j.quiet.Quiet := by
  cases hc : j.comfort <;> simp [quiet, hc, Playout.Quiet]

theorem Crossed.holds (hk : Crossed j out k) (g : Crossing) (hg : g.Holds j.measure) :
    Crossing.Holds ⟨g.missing, g.filled ++ [out]⟩ k := by
  obtain ⟨n, rest, hfilled, hquiet, hle, hfirst⟩ := hg
  obtain ⟨hpos, rfl, hrun⟩ | ⟨hzero, rfl, hrun⟩ := hk.slot
  · have hrest := hfirst hpos
    subst hrest
    refine ⟨n + 1, [], ?_, by simp, by simp only; omega, fun _ => rfl⟩
    simp [hfilled, List.replicate_succ']
  · refine ⟨n, rest ++ [j.quiet], by simp [hfilled], fun out hout => ?_, by simp only; omega,
      fun hpos => by omega⟩
    obtain hmem | hmem := List.mem_append.mp hout
    · exact hquiet out hmem
    · obtain rfl : out = j.quiet := by simpa using hmem
      exact quiet_quiet j

end Jitter

namespace Listening
variable {s : Listening}

/-- Between gaps nothing is left of one; inside one the rest of it reaches a frame that
waits. -/
structure Crosses (s : Listening) : Prop where
  fits : s.jitter.Fits
  between : s.gap = none → s.jitter.concealRun + s.jitter.silentRun = 0
  inside : ∀ g, s.gap = some g → s.jitter.playing ∧ s.jitter.Reaches ∧ g.Holds s.jitter

theorem crosses_begin (depth : Nat) : (begin depth).Crosses :=
  ⟨new_fits depth, fun _ => rfl, fun _ hg => by simp [begin] at hg⟩

theorem crosses_hand {j k : Jitter} {slot : Nat} (hk : HandedOut j k) (hfits : k.Fits) :
    (s.hand k slot).Crosses :=
  ⟨hfits, fun _ => hk.noRun, fun _ hg => by simp [hand] at hg⟩

/-- Pushing into a gap brings the frame beyond it no further. -/
theorem Crosses.push (h : s.Crosses) (seq : UInt64) (timestamp : UInt32) (body : Body) :
    (s.step (.push seq timestamp body)).Crosses := by
  have hk := push_pushed s.jitter seq timestamp body
  refine ⟨hk.fits h.fits, fun hgap => ?_, fun g hg => ?_⟩
  · change (s.jitter.push seq timestamp body).concealRun +
      (s.jitter.push seq timestamp body).silentRun = 0
    rw [hk.concealRun, hk.silentRun]
    exact h.between hgap
  · obtain ⟨hplaying, ⟨t, ht, hreach⟩, hholds⟩ := h.inside g hg
    refine ⟨by rwa [← hk.playing] at hplaying, ⟨t, hk.mem_of_mem ht, ?_⟩, ?_⟩
    · change t ≤ (s.jitter.push seq timestamp body).cursor +
        (s.jitter.push seq timestamp body).concealRun +
        (s.jitter.push seq timestamp body).silentRun
      rwa [hk.cursor, hk.concealRun, hk.silentRun]
    · unfold Crossing.Holds at hholds ⊢
      change ∃ n rest, _ ∧ _ ∧ n + (s.jitter.push seq timestamp body).concealRun ≤ _ ∧
        (0 < (s.jitter.push seq timestamp body).concealRun → _)
      rwa [hk.concealRun]

theorem Crosses.cross {out : Playout} {k : Jitter} (h : s.Crosses) (hgap : s.jitter.InGap)
    (hk : Crossed s.jitter out k) :
    ∃ g, s.fillGap out = some g ∧ g.Holds k := by
  obtain ⟨-, -, hentered, hcrossing⟩ := hgap.measured h.fits
  cases hg : s.gap with
  | none =>
    obtain ⟨n, hmissing, hle⟩ := hentered (h.between hg)
    have hnone : Crossing.Holds ⟨n, []⟩ s.jitter.measure :=
      ⟨0, [], rfl, by simp, by simpa using hle, fun _ => rfl⟩
    exact ⟨_, by simp [fillGap, hg, hmissing], hk.holds _ hnone⟩
  | some g =>
    obtain ⟨-, ⟨t, ht, hreach⟩, hholds⟩ := h.inside g hg
    have habove := hgap.above h.fits ht
    have hsame := hcrossing (by omega)
    rw [← hsame] at hholds
    exact ⟨⟨g.missing, g.filled ++ [out]⟩, by simp [fillGap, hg], hk.holds g hholds⟩

theorem Crosses.step (h : s.Crosses) (op : Jitter.Op) : (s.step op).Crosses := by
  cases op with
  | push seq timestamp body => exact h.push seq timestamp body
  | trim =>
    cases hslot : s.jitter.trimSlot with
    | none => simpa [Listening.step, hslot, trim_none hslot] using h
    | some slot =>
      obtain ⟨-, hplaying, hmem, hk⟩ := trim_handedOut hslot
      have hstep : s.step .trim = s.hand s.jitter.trim.2 slot := by simp [Listening.step, hslot]
      rw [hstep]
      exact crosses_hand hk (trim_fits h.fits)
  | pop =>
    obtain ⟨out, k, hpop, hp⟩ := pop_cases h.fits
    have hfits := hp.fits h.fits
    cases hp with
    | filling waits few same out_eq slot =>
      have hgap : s.gap = none := by
        cases hg : s.gap with
        | none => rfl
        | some g => exact absurd (h.inside g hg).1 waits
      have hfill : s.fillGap out = none := by simp [fillGap, hgap, missing, waits]
      have hstep : s.step .pop = { s with jitter := s.jitter, gap := none } := by
        simp [Listening.step, hpop, slot, same, hfill]
      rw [hstep, ← hgap]
      exact h
    | handed i media start bounded held played slot =>
      have hstep : s.step .pop = s.hand k i.cursor := by
        simp [Listening.step, hpop, slot]
      rw [hstep]
      obtain rfl : k = (i.play media).2 := congrArg Prod.snd played
      exact crosses_hand (play_handedOut i media) hfits
    | stalled playing empty stall slot =>
      have hempty : s.jitter.frames = ∅ := by simpa using empty
      have hgap : s.gap = none := by
        cases hg : s.gap with
        | none => rfl
        | some g =>
          obtain ⟨-, ⟨t, ht, -⟩, -⟩ := h.inside g hg
          simp [hempty] at ht
      have hfill : s.fillGap out = none := by
        simp [fillGap, hgap, missing, oldest, hempty]
      have hstep : s.step .pop = { s with jitter := k, gap := none } := by
        simp [Listening.step, hpop, slot, hfill]
      rw [hstep]
      obtain rfl : k = s.jitter.stall.2 := congrArg Prod.snd stall
      exact ⟨hfits, fun _ => stall_noRun (h.between hgap), fun g hg => by simp at hg⟩
    | crossed gap cross slot =>
      obtain ⟨g, hfill, hholds⟩ := h.cross gap cross
      have hstep : s.step .pop = { s with jitter := k, gap := some g } := by
        simp [Listening.step, hpop, slot, hfill]
      rw [hstep]
      refine ⟨hfits, fun hnone => by simp at hnone, fun g' hg' => ?_⟩
      obtain rfl : g = g' := Option.some.inj hg'
      exact ⟨cross.playing, cross.reaches, hholds⟩

theorem run_crosses (depth : Nat) (ops : List Jitter.Op) :
    (run step (begin depth) ops).Crosses :=
  run_invariant (fun _ op h => h.step op) (crosses_begin depth) ops

/-- In every state a buffer reaches, what is held lies at or past the cursor and the cursor past
what was played; `pop` does not panic, and nothing it computes overflows; and no more slots of a gap
were concealed than packets were missing when it was entered, and none after the silence began. -/
theorem jitter_sound (depth : Nat) (ops : List Jitter.Op) :
    let s := run step (begin depth) ops
    (s.jitter.playing → (∀ t ∈ s.jitter.frames, s.jitter.cursor ≤ t) ∧
      ∃ seq ts, s.jitter.lastPlayed = some (seq, ts) ∧ ts.toNat < s.jitter.cursor) ∧
    (∃ out j, s.jitter.pop = .ok (out, j)) ∧
    (s.jitter.playing ∨ s.jitter.depth < s.jitter.frames.size → s.jitter.depth * 3 < 2 ^ 64) ∧
    s.jitter.cursor + 1 < 2 ^ 64 ∧
    ∀ g, s.gap = some g → g.Split := by
  intro s
  have h : s.Crosses := run_crosses depth ops
  obtain ⟨out, j, hpop, -⟩ := pop_cases h.fits
  obtain ⟨hdepth, hcursor⟩ := h.fits.no_overflow
  refine ⟨fun hplaying => ⟨(h.fits.bounded hplaying).held, h.fits.behind hplaying⟩,
    ⟨out, j, hpop⟩, hdepth, hcursor, fun g hg => ?_⟩
  obtain ⟨-, -, hholds⟩ := h.inside g hg
  exact hholds.split

end Listening
end Sqex.Voice
