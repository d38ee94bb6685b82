import Mathlib.Data.List.Basic
import Mathlib.Data.List.Induction

/-! Values framed behind their lengths, taken off a stream that arrives in pieces. A piece is not a
frame, so what is taken must not hang on where the stream was cut. -/
namespace Sqex.Frames
variable {β ε α : Type}

/-- How frames stand in a stream: so many bytes that say a length, and what that many hold. -/
structure Format (β ε α : Type) where
  header : Nat
  size : List β → Nat
  limit : Nat
  refuse : Nat → ε
  decode : List β → Except ε α

inductive Turn (β ε α : Type) where
  | wait
  | refused (e : ε) (rest : List β)
  | frame (x : α) (rest : List β)

/-- What some bytes come to: the frames in them, what is left, and what stopped the taking. -/
structure Taken (β ε α : Type) where
  frames : List α
  rest : List β
  halted : Option ε

namespace Format
variable (F : Format β ε α)

/-- The frame at the front of some bytes. A length that is not honoured is refused before what
it measures is there. -/
def next (b : List β) : Turn β ε α :=
  if b.length < F.header then .wait
  else
    let len := F.size (b.take F.header)
    if len = 0 ∨ F.limit < len then .refused (F.refuse len) b
    else if b.length < F.header + len then .wait
    else
      match F.decode ((b.drop F.header).take len) with
      | .error e => .refused e (b.drop (F.header + len))
      | .ok x => .frame x (b.drop (F.header + len))

variable {F}

/-- A turn that takes a frame leaves fewer bytes. -/
theorem length_next {b rest : List β} {x : α} (h : F.next b = .frame x rest) :
    rest.length < b.length := by
  simp only [next] at h
  split_ifs at h with hheader hlen hbody
  split at h
  · cases h
  · obtain ⟨-, rfl⟩ := Turn.frame.inj h
    rw [List.length_drop]
    omega

/-- Every frame at the front, one after another. -/
def take (F : Format β ε α) (b : List β) : Taken β ε α :=
  match _ : F.next b with
  | .wait => ⟨[], b, none⟩
  | .refused e rest => ⟨[], rest, some e⟩
  | .frame x rest =>
    let taken := F.take rest
    { taken with frames := x :: taken.frames }
termination_by b.length
decreasing_by exact length_next ‹_›

variable {b rest y : List β} {e : ε} {x : α}

theorem take_wait (h : F.next b = .wait) : F.take b = ⟨[], b, none⟩ := by
  rw [take]
  split <;> simp_all

theorem take_refused (h : F.next b = .refused e rest) : F.take b = ⟨[], rest, some e⟩ := by
  rw [take]
  split <;> simp_all

theorem take_frame (h : F.next b = .frame x rest) :
    F.take b = ⟨x :: (F.take rest).frames, (F.take rest).rest, (F.take rest).halted⟩ := by
  rw [take]
  split <;> simp_all

/-! A turn reads no further than its frame. -/

theorem next_append (h : F.next b ≠ .wait) :
    F.next (b ++ y) = match F.next b with
      | .wait => .wait
      | .refused e rest => .refused e (rest ++ y)
      | .frame x rest => .frame x (rest ++ y) := by
  by_cases hheader : b.length < F.header
  · simp [next, hheader] at h
  have hmore : ¬ (b ++ y).length < F.header := by
    rw [List.length_append]
    omega
  have hsize : (b ++ y).take F.header = b.take F.header :=
    List.take_append_of_le_length (by omega)
  simp only [next, hheader, hmore, if_false, hsize] at h ⊢
  by_cases hlen : F.size (b.take F.header) = 0 ∨ F.limit < F.size (b.take F.header)
  · simp only [hlen, if_true]
  by_cases hbody : b.length < F.header + F.size (b.take F.header)
  · simp [hlen, hbody] at h
  have hbody' : ¬ (b ++ y).length < F.header + F.size (b.take F.header) := by
    rw [List.length_append]
    omega
  have hframe : ((b ++ y).drop F.header).take (F.size (b.take F.header)) =
      (b.drop F.header).take (F.size (b.take F.header)) := by
    rw [List.drop_append_of_le_length (by omega), List.take_append_of_le_length (by
      rw [List.length_drop]
      omega)]
  simp only [hlen, hbody, hbody', if_false, hframe, List.drop_append_of_le_length
    (Nat.not_lt.mp hbody)]
  cases F.decode ((b.drop F.header).take (F.size (b.take F.header))) <;> rfl

theorem next_append_frame (h : F.next b = .frame x rest) (y : List β) :
    F.next (b ++ y) = .frame x (rest ++ y) := by
  rw [next_append (by simp [h]), h]

theorem next_append_refused (h : F.next b = .refused e rest) (y : List β) :
    F.next (b ++ y) = .refused e (rest ++ y) := by
  rw [next_append (by simp [h]), h]

/-- Bytes read all at once are read as far as a part of them goes, and on from there. -/
theorem take_append (b y : List β) : F.take (b ++ y) =
    match (F.take b).halted with
    | some e => ⟨(F.take b).frames, (F.take b).rest ++ y, some e⟩
    | none =>
      let on := F.take ((F.take b).rest ++ y)
      ⟨(F.take b).frames ++ on.frames, on.rest, on.halted⟩ := by
  induction hn : b.length using Nat.strongRecOn generalizing b with
  | _ n ih =>
    cases hnext : F.next b with
    | wait => simp [take_wait hnext]
    | refused e rest =>
      simp [take_refused hnext, take_refused (next_append_refused hnext y)]
    | frame x rest =>
      have hrest := ih rest.length (hn ▸ length_next hnext) rest rfl
      rw [take_frame hnext, take_frame (next_append_frame hnext y), hrest]
      cases (F.take rest).halted <;> simp

end Format

/-- A reader of a stream: what it holds back, what it was given, and what ended it. -/
structure Reader (β ε α : Type) where
  held : List β
  given : List α
  failed : Option ε

namespace Reader
variable (F : Format β ε α)

def opened : Reader β ε α := ⟨[], [], none⟩

/-- Take a piece. The frames of a piece that ends the stream are lost with it. -/
def feed (r : Reader β ε α) (piece : List β) : Reader β ε α :=
  match r.failed with
  | some _ => r
  | none =>
    let taken := F.take (r.held ++ piece)
    match taken.halted with
    | some e => ⟨taken.rest, r.given, some e⟩
    | none => ⟨taken.rest, r.given ++ taken.frames, none⟩

/-- A reader stands where some bytes read all at once would leave it. -/
structure At (r : Reader β ε α) (b : List β) : Prop where
  failed : r.failed = (F.take b).halted
  whole : r.failed = none → r.given = (F.take b).frames ∧ r.held = (F.take b).rest
  initial : r.given <+: (F.take b).frames

variable {F} {r : Reader β ε α} {b : List β}

theorem at_opened (hheader : 0 < F.header) : (opened : Reader β ε α).At F [] := by
  have hnil : F.take [] = ⟨[], [], none⟩ := Format.take_wait (by simp [Format.next, hheader])
  constructor <;> simp [opened, hnil]

theorem At.feed (h : r.At F b) (piece : List β) : (r.feed F piece).At F (b ++ piece) := by
  have happend := Format.take_append (F := F) b piece
  have hfailed := h.failed
  cases hhalted : r.failed with
  | some e =>
    rw [hhalted] at hfailed
    rw [← hfailed] at happend
    have hsame : r.feed F piece = r := by simp [Reader.feed, hhalted]
    rw [hsame]
    exact ⟨by rw [happend, hhalted], by simp [hhalted], by simpa [happend] using h.initial⟩
  | none =>
    rw [hhalted] at hfailed
    rw [← hfailed] at happend
    obtain ⟨hgiven, hheld⟩ := h.whole hhalted
    simp only [Reader.feed, hhalted, hheld]
    cases hon : (F.take ((F.take b).rest ++ piece)).halted with
    | some e =>
      refine ⟨by simp [happend, hon], by simp, ?_⟩
      simp [happend, hgiven]
    | none => exact ⟨by simp [happend, hon], by simp [happend, hgiven], by simp [happend, hgiven]⟩

end Reader

section Written
variable {F : Format β ε α} {write : α → List β} {xs : List α} {part : List β}

/-- What is written is the next frame, whatever follows it. -/
def Writes (F : Format β ε α) (write : α → List β) (x : α) : Prop :=
  ∀ rest, F.next (write x ++ rest) = .frame x rest

/-- Less than a frame is no frame: what a turn took of it, it would take of the whole. -/
theorem next_part {x : α} (h : Writes F write x) (hpart : part <+: write x)
    (hne : part.length < (write x).length) : F.next part = .wait := by
  obtain ⟨more, hmore⟩ := hpart
  have hwhole : F.next (part ++ more) = .frame x [] := by simpa [hmore] using h []
  cases hnext : F.next part with
  | wait => rfl
  | refused e rest => simp [Format.next_append_refused hnext] at hwhole
  | frame y rest =>
    rw [Format.next_append_frame hnext, Turn.frame.injEq, List.append_eq_nil_iff] at hwhole
    have hlen := congrArg List.length hmore
    simp [hwhole.2.2] at hlen
    omega

/-- However little of what was written is there, its whole frames are taken, and only they. -/
theorem take_cut {b : List β} (hheader : 0 < F.header) (h : ∀ x ∈ xs, Writes F write x)
    (hcut : b <+: xs.flatMap write) :
    ∃ n ≤ xs.length, (F.take b).frames = xs.take n ∧ (F.take b).halted = none ∧
      ∀ k ≤ xs.length, (xs.take k).flatMap write <+: b ↔ k ≤ n := by
  induction xs generalizing b with
  | nil =>
    have hnil : b = [] := List.prefix_nil.mp hcut
    have hwait : F.next b = .wait := by simp [Format.next, hnil, hheader]
    refine ⟨0, Nat.le_refl _, by simp [Format.take_wait hwait],
      by simp [Format.take_wait hwait], fun k hk => ?_⟩
    simpa using hk
  | cons x xs ih =>
    rw [List.forall_mem_cons] at h
    rw [List.flatMap_cons] at hcut
    by_cases hlen : b.length < (write x).length
    · have hpart : b <+: write x :=
        List.prefix_of_prefix_length_le hcut (List.prefix_append _ _) (by omega)
      have hwait := next_part h.1 hpart hlen
      refine ⟨0, Nat.zero_le _, by simp [Format.take_wait hwait],
        by simp [Format.take_wait hwait], ?_⟩
      intro k hk
      cases k with
      | zero => simp
      | succ k =>
        have hlong : ¬ (write x ++ (xs.take k).flatMap write) <+: b := by
          intro hprefix
          have hle := hprefix.length_le
          rw [List.length_append] at hle
          omega
        simpa using hlong
    · have hfirst : write x <+: b :=
        List.prefix_of_prefix_length_le (List.prefix_append _ _) hcut (by omega)
      obtain ⟨b', rfl⟩ := hfirst
      obtain ⟨n, hn, hframes, hhalted, hcount⟩ :=
        ih h.2 ((List.prefix_append_right_inj _).mp hcut)
      refine ⟨n + 1, by simpa using hn, ?_, ?_, ?_⟩
      · rw [Format.take_frame (h.1 b'), hframes, List.take_succ_cons]
      · rw [Format.take_frame (h.1 b'), hhalted]
      · intro k hk
        cases k with
        | zero => simp
        | succ k =>
          rw [List.take_succ_cons, List.flatMap_cons, List.prefix_append_right_inj,
            hcount k (by simpa using hk)]
          omega

end Written
end Sqex.Frames
