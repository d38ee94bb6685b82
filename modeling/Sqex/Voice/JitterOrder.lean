import Sqex.Voice.JitterRun

/-! The order frames are handed out in. While the buffer plays, a frame behind the cursor is
refused; once it has run dry there is no cursor. Frames therefore go forward exactly as long as
every refill starts past what was played. -/
namespace Sqex.Voice
open Std Runs Jitter

namespace Jitter

/-- A refill starts past a slot: of a backlog, more than `depth` frames lie beyond it, of
less than one, all do. -/
def StartsPast (j : Jitter) (last : Nat) : Prop :=
  if j.frames.size > j.depth * 3 then j.depth < (j.frames.filter fun t _ => last < t).size
  else ∀ t ∈ j.frames, last < t

end Jitter

namespace Listening
variable {s : Listening}

def Forward (s : Listening) : Prop := s.handed.Pairwise (· > ·)

def Remembers (s : Listening) : Prop :=
  ∀ slot, s.handed.head? = some slot ↔
    ∃ seq ts, s.jitter.lastPlayed = some (seq, ts) ∧ ts.toNat = slot

def RefillsPast (s : Listening) : Jitter.Op → Prop
  | .pop => ¬ s.jitter.playing → s.jitter.depth < s.jitter.frames.size →
    ∀ last ∈ s.jitter.lastPlayed, s.jitter.StartsPast last.2.toNat
  | _ => True

theorem remembers_begin (depth : Nat) : (begin depth).Remembers := by
  intro slot
  simp [begin, Jitter.new]

theorem remembers_hand {j k : Jitter} {slot : Nat} (hslot : slot = j.cursor)
    (h : j.Bounded) (hmem : j.cursor ∈ j.frames) (hk : HandedOut j k) :
    (s.hand k slot).Remembers := by
  obtain ⟨seq, hlast⟩ := hk.lastPlayed
  have hlt := h.slots _ hmem
  intro t
  have hts : (UInt32.ofNat j.cursor).toNat = j.cursor := by
    simp
    omega
  constructor
  · intro ht
    obtain rfl : slot = t := by simpa [hand] using ht
    exact ⟨seq, _, hlast, by rw [hts, hslot]⟩
  · rintro ⟨seq', ts, hlast', rfl⟩
    obtain ⟨rfl, rfl⟩ := Prod.mk.inj (Option.some.inj (hlast.symm.trans hlast'))
    simp [hand, hts, hslot]

/-- Where `pop` hands out a frame, whether it lies past every frame before it: always while
playing, and at a refill exactly where the refill starts past the last one. -/
theorem popped_past {j i : Jitter} (h : j.Fits)
    (hstart : j.playing ∧ i = j ∨ ¬ j.playing ∧ Started j i) {last : UInt64 × UInt32}
    (hlast : j.lastPlayed = some last) :
    last.2.toNat < i.cursor ↔
      (¬ j.playing → j.depth < j.frames.size → j.StartsPast last.2.toNat) := by
  obtain ⟨hplaying, rfl⟩ | ⟨hwaits, hi⟩ := hstart
  · obtain ⟨seq, ts, hlast', hts⟩ := h.behind hplaying
    obtain rfl := Option.some.inj (hlast.symm.trans hlast')
    simp [hts, hplaying]
  · have hpast := hi.past last.2.toNat
    simpa [hwaits, hi.few, StartsPast] using hpast

theorem forward_hand {k : Jitter} {slot : Nat} (hs : s.Remembers) (hf : s.Forward) :
    (s.hand k slot).Forward ↔ ∀ last ∈ s.jitter.lastPlayed, last.2.toNat < slot := by
  unfold Forward hand
  rw [List.pairwise_cons]
  constructor
  · rintro ⟨hall, -⟩ ⟨seq, ts⟩ hlast
    have hhead := (hs ts.toNat).mpr ⟨seq, ts, hlast, rfl⟩
    exact hall _ (List.mem_of_head? hhead)
  · intro hlast
    refine ⟨fun t ht => ?_, hf⟩
    cases hhanded : s.handed with
    | nil => simp [hhanded] at ht
    | cons first rest =>
      obtain ⟨seq, ts, hplayed, rfl⟩ := (hs first).mp (by simp [hhanded])
      have hfirst := hlast _ hplayed
      rw [hhanded] at ht
      obtain rfl | hrest := List.mem_cons.mp ht
      · exact hfirst
      · unfold Forward at hf
        rw [hhanded] at hf
        have hbelow := (List.pairwise_cons.mp hf).1 t hrest
        simp only at hfirst
        omega

theorem remembers_of_same {s' : Listening} (hs : s.Remembers)
    (hhanded : s'.handed = s.handed) (hlast : s'.jitter.lastPlayed = s.jitter.lastPlayed) :
    s'.Remembers := by
  intro slot
  rw [hhanded, hlast]
  exact hs slot

theorem step_forward (h : s.jitter.Fits) (hs : s.Remembers) (op : Jitter.Op) :
    (s.step op).Remembers ∧ (s.Forward → ((s.step op).Forward ↔ s.RefillsPast op)) ∧
      ((s.step op).Forward → s.Forward) := by
  cases op with
  | push seq timestamp body =>
    have hk := push_pushed s.jitter seq timestamp body
    exact ⟨remembers_of_same hs rfl hk.lastPlayed, by simp [Forward, step, RefillsPast],
      fun hf => hf⟩
  | trim =>
    cases hslot : s.jitter.trimSlot with
    | none => simpa [step, hslot, trim_none hslot, RefillsPast, Forward] using hs
    | some slot =>
      obtain ⟨rfl, hplaying, hmem, hk⟩ := trim_handedOut hslot
      have hbounded := h.bounded hplaying
      have hstep : s.step .trim = s.hand s.jitter.trim.2 s.jitter.cursor := by
        simp [step, hslot]
      rw [hstep]
      refine ⟨remembers_hand rfl hbounded hmem hk, fun hf => ?_,
        fun hf => (List.pairwise_cons.mp hf).2⟩
      rw [forward_hand hs hf]
      refine ⟨fun _ => trivial, fun _ last hlast => ?_⟩
      exact (popped_past h (.inl ⟨hplaying, rfl⟩) hlast).mpr fun hwaits => absurd hplaying hwaits
  | pop =>
    obtain ⟨out, k, hpop, hp⟩ := pop_cases h
    cases hslot : s.jitter.popSlot with
    | none =>
      obtain ⟨hlast, hstart⟩ := hp.unhanded hslot
      have hstep : s.step .pop = { s with jitter := k, gap := s.fillGap out } := by
        simp [step, hpop, hslot]
      rw [hstep]
      refine ⟨remembers_of_same hs rfl hlast, fun hf => ⟨fun _ hwaits hfew => ?_, fun _ => hf⟩,
        fun hf => hf⟩
      obtain hplaying | hle := hstart
      · exact absurd hplaying hwaits
      · omega
    | some slot =>
      have hstep : s.step .pop = s.hand k slot := by simp [step, hpop, hslot]
      rw [hstep]
      obtain ⟨i, media, hstart, hbounded, hheld, hplayed, rfl⟩ := hp.of_slot hslot
      obtain rfl : k = (i.play media).2 := congrArg Prod.snd hplayed
      have hmem : i.cursor ∈ i.frames :=
        ExtTreeMap.mem_iff_isSome_getElem?.mpr (by simp [hheld])
      refine ⟨remembers_hand rfl hbounded hmem (play_handedOut i media), fun hf => ?_,
        fun hf => (List.pairwise_cons.mp hf).2⟩
      rw [forward_hand hs hf]
      constructor
      · intro hall hwaits hfew last hlast
        exact (popped_past h hstart hlast).mp (hall last hlast) hwaits hfew
      · intro hpast last hlast
        exact (popped_past h hstart hlast).mpr fun hwaits hfew => hpast hwaits hfew last hlast

/-- Frames go forward over a whole run exactly where every refill after something was
played starts past it. -/
theorem forward_iff_refills_past (depth : Nat) (ops : List Jitter.Op) :
    (run step (begin depth) ops).Forward ↔ Each RefillsPast step (begin depth) ops := by
  have keep : ∀ (s : Listening) (op : Jitter.Op), (s.jitter.Fits ∧ s.Remembers) →
      ((s.step op).jitter.Fits ∧ (s.step op).Remembers) :=
    fun s op h => ⟨step_fits h.1 op, (step_forward h.1 h.2 op).1⟩
  have hbegin : (begin depth).jitter.Fits ∧ (begin depth).Remembers :=
    ⟨new_fits depth, remembers_begin depth⟩
  have hend : Always (fun s : Listening => (s.jitter.Fits ∧ s.Remembers) ∧ s.Forward) step
      (begin depth) ops ↔ (run step (begin depth) ops).Forward :=
    always_iff_end keep (fun s op h => (step_forward h.1 h.2 op).2.2) hbegin
  rw [← hend]
  refine always_iff_each (fun s op h => ?_) ⟨hbegin, List.Pairwise.nil⟩
  obtain ⟨⟨hfits, hremembers⟩, hf⟩ := h
  have hiff := (step_forward hfits hremembers op).2.1 hf
  exact ⟨fun hafter => hiff.mp hafter.2, fun hok => ⟨keep s op ⟨hfits, hremembers⟩, hiff.mpr hok⟩⟩

/-- Two frames played, the buffer run dry, and the same two datagrams once more. -/
def repeatedOps : List Jitter.Op :=
  [.push 0 0 (.audio [7]), .push 1 1 (.audio [8]), .pop, .pop, .pop,
    .push 0 0 (.audio [7]), .push 1 1 (.audio [8]), .pop]

/-- The first slot is handed out again after the second. -/
theorem replayed_after_underrun :
    (run step (begin 1) repeatedOps).handed = [0, 1, 0] ∧
      ¬ (run step (begin 1) repeatedOps).Forward := by
  have hhanded : (run step (begin 1) repeatedOps).handed = [0, 1, 0] := by decide +kernel
  refine ⟨hhanded, ?_⟩
  unfold Forward
  rw [hhanded]
  decide

end Listening
end Sqex.Voice
