import Mathlib.Data.List.Perm.Basic
import Sqex.Exchange.Tails

/-! What the operator at the far end of a tail is shown of it, in any order of steps. -/
namespace Sqex.Tails
open Runs

/-- The wanted records a line is news of. -/
def Sent.accounts : Sent → List Nat
  | .posted p => [p.index]
  | .own _ reports => reports

def Sent.carried : Sent → Nat
  | .posted _ => 1
  | .own _ _ => 0

def Sent.told : Sent → Nat
  | .posted _ => 0
  | .own line _ =>
    match line.record with
    | .dropped records => records
    | _ => 0

@[simp] theorem Sent.line_posted (p : Posted) : (Sent.posted p).line = p.line := rfl

@[simp] theorem Sent.line_own (line : Line) (reports : List Nat) :
    (Sent.own line reports).line = line := rfl

def Publisher.numbered : Publisher → List Posted
  | .offering p => [p]
  | .refused p => [p]
  | _ => []

def Publisher.indices : Publisher → List Nat
  | .offering p => [p.index]
  | .refused p => [p.index]
  | .owing index => [index]
  | .idle => []

def Pump.held : Pump → List Sent
  | .writing s => [s]
  | .ended (some s) => [s]
  | _ => []

def Pump.missing : Pump → List Nat
  | .missed _ losses => losses
  | _ => []

namespace Tail

/-- The wanted records the operator has news of. -/
def settled (t : Tail) : List Nat := t.written.flatMap Sent.accounts

/-- The wanted records that are neither written nor told to be lost: in the pump's hand, in the
queue, in the publisher's hand, or counted in a drop that is still to be told. -/
def pending (t : Tail) : List Nat :=
  t.pump.held.flatMap Sent.accounts ++ t.queue.map Posted.index ++ t.publisher.indices ++
    (t.pump.missing ++ t.losses)

structure Honest (t : Tail) : Prop where
  inOrder : t.written.map (·.line.seq) = List.range t.written.length
  accounted : t.published =
    (t.written.map Sent.carried).sum + ((t.written.map Sent.told).sum + t.pending.length)
  reported : ∀ s ∈ t.written, s.told + s.carried = s.accounts.length
  first : ∀ n p, t.written[n]? = some (.posted p) →
    ∀ i < p.index, i ∈ (t.written.take n).flatMap Sent.accounts
  once : t.settled.Nodup

def numbers (t : Tail) : List Nat :=
  t.written.map (·.line.seq) ++ t.pump.held.map (·.line.seq) ++ t.queue.map (·.line.seq) ++
    t.publisher.numbered.map (·.line.seq)

def Clear (t : Tail) : Act → Prop
  | .number _ => t.queue = [] ∧ t.publisher.numbered = []
  | _ => True

variable {t t' : Tail} {act : Act}

theorem numbers_own (h : t.numbers = List.range t.seq) (hheld : t.pump.held = [])
    (hqueue : t.queue = []) (hnone : t.publisher.numbered = []) (now : UInt64) (record : Record)
    (reports : List Nat) :
    ({ t with seq := t.seq + 1, pump := .writing (.own ⟨now, t.seq, record⟩ reports) } :
      Tail).numbers = List.range (t.seq + 1) := by
  have hbefore : t.written.map (·.line.seq) = List.range t.seq := by
    simpa [numbers, hheld, hqueue, hnone] using h
  simp [numbers, hqueue, hnone, Pump.held, hbefore, List.range_succ]

theorem numbers_giveBack (h : t.numbers = List.range t.seq) {p : Posted}
    (hrefused : t.publisher = .refused p) :
    ({ t with seq := t.seq - 1, publisher := .owing p.index } : Tail).numbers =
      List.range (t.seq - 1) := by
  have hsplit : t.written.map (·.line.seq) ++ t.pump.held.map (·.line.seq) ++
      t.queue.map (·.line.seq) ++ [p.line.seq] = List.range t.seq := by
    simpa [numbers, hrefused, Publisher.numbered] using h
  cases hseq : t.seq with
  | zero => simp [hseq] at hsplit
  | succ n =>
    rw [hseq, List.range_succ] at hsplit
    have hbefore := (List.append_inj' hsplit rfl).1
    simpa [numbers, Publisher.numbered] using hbefore

theorem numbers_moved (h : t.numbers = List.range t.seq) (hmoved : Moved t act t')
    (hclear : t.Clear act) : t'.numbers = List.range t'.seq := by
  cases hmoved with
  | stays => exact h
  | published record now hidle =>
    simp only [numbers, hidle, Publisher.numbered, List.map_nil, List.append_nil] at h
    simp [numbers, Publisher.numbered, h, List.range_succ]
  | queued hoffering | refused hoffering => simpa [numbers, hoffering, Publisher.numbered] using h
  | gaveBack hrefused => exact numbers_giveBack h hrefused
  | counted howing => simpa [numbers, howing, Publisher.numbered] using h
  | closed => exact h
  | swapped htop | awaited htop => simpa [numbers, htop, Pump.held] using h
  | drop now hmissed =>
    exact numbers_own h (by simp [hmissed, Pump.held]) hclear.1 hclear.2 now _ _
  | beat now hdue => exact numbers_own h (by simp [hdue, Pump.held]) hclear.1 hclear.2 now _ _
  | received hwaiting hqueue => simpa [numbers, hwaiting, hqueue, Pump.held] using h
  | gone hwaiting | ticked hwaiting => simpa [numbers, hwaiting, Pump.held] using h
  | wrote hwriting | failed hwriting => simpa [numbers, hwriting, Pump.held] using h

def Placed (t : Tail) : Prop :=
  ∀ i, (t.settled ++ t.pending).count i = (List.range t.published).count i

theorem placed_moved (h : t.Placed) (hmoved : Moved t act t') : t'.Placed := by
  intro i
  have hi := h i
  simp only [settled, pending, List.count_append] at hi
  cases hmoved with
  | stays => exact h i
  | published record now hidle =>
    simp only [hidle, Publisher.indices, List.count_nil] at hi
    simp only [settled, pending, Publisher.indices, List.count_append, List.range_succ]
    omega
  | queued hoffering | refused hoffering =>
    simpa [settled, pending, hoffering, Publisher.indices] using h i
  | gaveBack hrefused => simpa [settled, pending, hrefused, Publisher.indices] using h i
  | counted howing =>
    simp only [howing, Publisher.indices] at hi
    simp only [settled, pending, Publisher.indices, List.count_append, List.count_nil]
    omega
  | closed => exact h i
  | swapped htop | awaited htop => simpa [settled, pending, htop, Pump.held, Pump.missing] using h i
  | drop now hmissed =>
    simp only [hmissed, Pump.held, Pump.missing, List.flatMap_nil, List.count_nil] at hi
    simp only [settled, pending, Pump.held, Pump.missing, List.flatMap_cons, List.flatMap_nil,
      Sent.accounts, List.count_append, List.count_nil]
    omega
  | beat now hdue =>
    simpa [settled, pending, hdue, Pump.held, Pump.missing, Sent.accounts] using h i
  | received hwaiting hqueue =>
    simpa [settled, pending, hwaiting, hqueue, Pump.held, Pump.missing, Sent.accounts] using h i
  | gone hwaiting | ticked hwaiting =>
    simpa [settled, pending, hwaiting, Pump.held, Pump.missing] using h i
  | wrote hwriting =>
    simp only [hwriting, Pump.held, Pump.missing, List.flatMap_cons, List.flatMap_nil,
      List.count_append, List.count_nil] at hi
    simp only [settled, pending, Pump.held, Pump.missing, List.flatMap_append,
      List.flatMap_cons, List.flatMap_nil, List.count_append, List.count_nil]
    omega
  | failed hwriting => simpa [settled, pending, hwriting, Pump.held, Pump.missing] using h i

structure Counted (t : Tail) : Prop where
  dropped : t.dropped = t.losses.length
  missed : ∀ records losses, t.pump = .missed records losses → records = losses.length
  lines : ∀ s ∈ t.written ++ t.pump.held, s.told + s.carried = s.accounts.length

theorem counted_moved (h : t.Counted) (hmoved : Moved t act t') : t'.Counted := by
  obtain ⟨hdropped, hmissed, hlines⟩ := h
  have hhold : ∀ s : Sent, s.told + s.carried = s.accounts.length →
      ∀ r ∈ t.written ++ [s], r.told + r.carried = r.accounts.length := by
    intro s hs r hr
    cases List.mem_append.mp hr with
    | inl hwritten => exact hlines r (List.mem_append_left _ hwritten)
    | inr hself =>
      rw [List.mem_singleton] at hself
      exact hself ▸ hs
  cases hmoved with
  | stays | published record now hidle | queued hoffering | refused hoffering | gaveBack hrefused =>
    exact ⟨hdropped, hmissed, hlines⟩
  | counted howing => exact ⟨by simp [hdropped], hmissed, hlines⟩
  | closed => exact ⟨hdropped, hmissed, hlines⟩
  | swapped htop =>
    rw [htop] at hlines
    exact ⟨rfl, by simp [hdropped], hlines⟩
  | awaited htop =>
    rw [htop] at hlines
    exact ⟨hdropped, by simp, hlines⟩
  | drop now hpump =>
    have hcount := hmissed _ _ hpump
    exact ⟨hdropped, by simp, hhold _ (by simp [Sent.told, Sent.carried, Sent.accounts, hcount])⟩
  | beat now hdue | received hwaiting hqueue => exact ⟨hdropped, by simp, hhold _ rfl⟩
  | gone hwaiting =>
    rw [hwaiting] at hlines
    exact ⟨hdropped, by simp, hlines⟩
  | ticked hwaiting =>
    rw [hwaiting] at hlines
    exact ⟨hdropped, by simp, hlines⟩
  | wrote hwriting =>
    rw [hwriting] at hlines
    exact ⟨hdropped, by simp, by simpa [Pump.held] using hlines⟩
  | failed hwriting =>
    rw [hwriting] at hlines
    exact ⟨hdropped, by simp, hlines⟩

def Sent.indices : Sent → List Nat
  | .posted p => [p.index]
  | .own _ _ => []

/-- The records on their way to the sink, in the order they will get there. -/
def ahead (t : Tail) : List Nat :=
  t.pump.held.flatMap Sent.indices ++ t.queue.map Posted.index ++ t.publisher.indices

def Prompt (t : Tail) : Act → Prop
  | .count => t.pump = .waiting → t.queue ≠ []
  | _ => True

/-- A loss not told of yet is of a record behind the one that is written next. -/
structure Timely (t : Tail) : Prop where
  ordered : t.ahead.Pairwise (· < ·)
  known : ∀ i ∈ t.ahead, i < t.published
  waits : t.pump = .waiting → ∀ i ∈ t.losses, ∃ p queue, t.queue = p :: queue ∧ p.index < i
  holds : ∀ p, t.pump = .writing (.posted p) → ∀ i ∈ t.losses, p.index < i
  first : ∀ n p, t.written[n]? = some (.posted p) →
    ∀ i < p.index, i ∈ (t.written.take n).flatMap Sent.accounts

/-- What takes no record and writes none: the records ahead stay in order. -/
theorem Timely.kept (h : t.Timely) (hahead : t'.ahead.Sublist t.ahead)
    (hpublished : t'.published = t.published) (hwritten : t'.written = t.written)
    (hwaits : t'.pump = .waiting →
      ∀ i ∈ t'.losses, ∃ p queue, t'.queue = p :: queue ∧ p.index < i)
    (hholds : ∀ p, t'.pump = .writing (.posted p) → ∀ i ∈ t'.losses, p.index < i) :
    t'.Timely where
  ordered := h.ordered.sublist hahead
  known i hi := hpublished ▸ h.known i (hahead.subset hi)
  waits := hwaits
  holds := hholds
  first := hwritten ▸ h.first

theorem Timely.counted (h : t.Timely) {index : Nat} (howing : t.publisher = .owing index)
    (hprompt : t.Prompt .count) :
    ({ t with dropped := t.dropped + 1, losses := t.losses ++ [index], publisher := .idle } :
      Tail).Timely := by
  have hordered := h.ordered
  simp only [ahead, howing, Publisher.indices, List.pairwise_append, List.mem_append,
    List.mem_singleton] at hordered
  obtain ⟨-, -, hlast⟩ := hordered
  refine h.kept ?_ rfl rfl ?_ ?_
  · simp [ahead, howing, Publisher.indices]
  · intro hwaiting i hi
    cases List.mem_append.mp hi with
    | inl hbefore => exact h.waits hwaiting i hbefore
    | inr hself =>
      rw [List.mem_singleton] at hself
      subst hself
      cases hqueue : t.queue with
      | nil => exact absurd hqueue (hprompt hwaiting)
      | cons p queue => exact ⟨p, queue, rfl, hlast p.index (by simp [hqueue]) i rfl⟩
  · intro p hwriting i hi
    cases List.mem_append.mp hi with
    | inl hbefore => exact h.holds p hwriting i hbefore
    | inr hself =>
      rw [List.mem_singleton] at hself
      subst hself
      have hheld : p.index ∈ t.pump.held.flatMap Sent.indices := by
        simp only at hwriting
        simp [hwriting, Pump.held, Sent.indices]
      exact hlast p.index (.inl hheld) i rfl

theorem Timely.accounted_before (h : t.Timely) (hplaced : t.Placed) {p : Posted}
    (hwriting : t.pump = .writing (.posted p)) {i : Nat} (hi : i < p.index) : i ∈ t.settled := by
  have hahead : t.ahead = p.index :: (t.queue.map Posted.index ++ t.publisher.indices) := by
    simp [ahead, hwriting, Pump.held, Sent.indices]
  have hpending : t.pending =
      p.index :: (t.queue.map Posted.index ++ t.publisher.indices ++ t.losses) := by
    simp [pending, hwriting, Pump.held, Pump.missing, Sent.accounts]
  have hknown : p.index < t.published := h.known p.index (by simp [hahead])
  have hplace : i ∈ t.settled ++ t.pending := by
    have hrange : i ∈ List.range t.published := List.mem_range.mpr (by omega)
    rw [← List.count_pos_iff, hplaced i]
    exact List.count_pos_iff.mpr hrange
  have hordered := h.ordered
  rw [hahead, List.pairwise_cons] at hordered
  rw [hpending, List.mem_append, List.mem_cons, List.mem_append] at hplace
  obtain hsettled | hself | hlater | hloss := hplace
  · exact hsettled
  · omega
  · have hlt := hordered.1 i hlater
    omega
  · have hlt := h.holds p hwriting i hloss
    omega

theorem Timely.wrote (h : t.Timely) (hplaced : t.Placed) {s : Sent}
    (hwriting : t.pump = .writing s) :
    ({ t with written := t.written ++ [s], pump := .top } : Tail).Timely where
  ordered := h.ordered.sublist (by simp [ahead, hwriting, Pump.held])
  known i hi := by
    refine h.known i ?_
    simp only [ahead, Pump.held, List.flatMap_nil, List.nil_append] at hi
    simp only [ahead, List.append_assoc]
    exact List.mem_append_right _ hi
  waits := by simp
  holds := by simp
  first n p hp i hi := by
    by_cases hn : n < t.written.length
    · rw [List.getElem?_append_left hn] at hp
      rw [List.take_append_of_le_length (by omega)]
      exact h.first n p hp i hi
    · rw [List.getElem?_append_right (by omega)] at hp
      have hself : s = .posted p ∧ n = t.written.length := by
        rw [List.getElem?_singleton] at hp
        split at hp
        · next hzero => exact ⟨Option.some.inj hp, by omega⟩
        · cases hp
      obtain ⟨rfl, rfl⟩ := hself
      rw [List.take_left]
      exact h.accounted_before hplaced hwriting hi

theorem timely_moved (h : t.Timely) (hcounted : t.Counted) (hplaced : t.Placed)
    (hmoved : Moved t act t') (hprompt : t.Prompt act) : t'.Timely := by
  cases hmoved with
  | stays => exact h
  | published record now hidle =>
    have hordered := h.ordered
    have hknown := h.known
    simp only [ahead, hidle, Publisher.indices, List.append_nil] at hordered hknown
    refine ⟨?_, ?_, h.waits, h.holds, h.first⟩
    · simp only [ahead, Publisher.indices]
      rw [List.pairwise_append]
      exact ⟨hordered, List.pairwise_singleton _ _, by simpa using hknown⟩
    · intro i hi
      simp only [ahead, Publisher.indices] at hi ⊢
      cases List.mem_append.mp hi with
      | inl hbefore => exact (hknown i hbefore).trans (by omega)
      | inr hself => exact (List.mem_singleton.mp hself).symm ▸ Nat.lt_succ_self _
  | @queued p hoffering =>
    refine h.kept (by simp [ahead, hoffering, Publisher.indices]) rfl rfl ?_ h.holds
    intro hwaiting i hi
    obtain ⟨q, queue, hqueue, hlt⟩ := h.waits hwaiting i hi
    exact ⟨q, queue ++ [p], by simp [hqueue], hlt⟩
  | refused hoffering =>
    exact h.kept (by simp [ahead, hoffering, Publisher.indices]) rfl rfl h.waits h.holds
  | gaveBack hrefused =>
    exact h.kept (by simp [ahead, hrefused, Publisher.indices]) rfl rfl h.waits h.holds
  | counted howing => exact h.counted howing hprompt
  | closed => exact ⟨h.ordered, h.known, h.waits, h.holds, h.first⟩
  | swapped htop =>
    exact h.kept (by simp [ahead, htop, Pump.held]) rfl rfl (by simp) (by simp)
  | awaited htop hnone =>
    have hlosses : t.losses = [] := by
      have hlength := hcounted.dropped
      exact List.length_eq_zero_iff.mp (by omega)
    exact h.kept (by simp [ahead, htop, Pump.held]) rfl rfl (by simp [hlosses]) (by simp)
  | drop now hpump =>
    exact h.kept (by simp [ahead, hpump, Pump.held, Sent.indices]) rfl rfl (by simp) (by simp)
  | beat now hdue =>
    exact h.kept (by simp [ahead, hdue, Pump.held, Sent.indices]) rfl rfl (by simp) (by simp)
  | received hwaiting hqueue =>
    refine h.kept (by simp [ahead, hwaiting, hqueue, Pump.held, Sent.indices]) rfl rfl
      (by simp) ?_
    intro q hq i hi
    obtain ⟨first, rest, hfirst, hlt⟩ := h.waits hwaiting i hi
    simp only [hqueue, List.cons.injEq] at hfirst
    simp only [Pump.writing.injEq, Sent.posted.injEq] at hq
    rw [← hq, hfirst.1]
    exact hlt
  | gone hwaiting =>
    exact h.kept (by simp [ahead, hwaiting, Pump.held]) rfl rfl (by simp) (by simp)
  | ticked hwaiting =>
    exact h.kept (by simp [ahead, hwaiting, Pump.held]) rfl rfl (by simp) (by simp)
  | wrote hwriting => exact h.wrote hplaced hwriting
  | failed hwriting =>
    exact h.kept (by simp [ahead, hwriting, Pump.held]) rfl rfl (by simp) (by simp)

structure Kept (t : Tail) : Prop where
  counted : t.Counted
  placed : t.Placed

theorem kept_start : ({} : Tail).Kept :=
  ⟨⟨rfl, by simp, by simp [Pump.held]⟩, fun i => by simp [settled, pending, Pump.held,
    Pump.missing, Publisher.indices]⟩

theorem kept_step (kinds : UInt16) (t : Tail) (act : Act) (h : t.Kept) : (step kinds t act).Kept :=
  ⟨counted_moved h.counted (moved_step kinds t act), placed_moved h.placed (moved_step kinds t act)⟩

/-- Whatever the order of the steps, each wanted record is written, told to be lost or pending. -/
theorem Kept.accounted (h : t.Kept) : t.published =
    (t.written.map Sent.carried).sum + ((t.written.map Sent.told).sum + t.pending.length) := by
  have hlength : (t.settled ++ t.pending).length = t.published := by
    rw [(List.perm_iff_count.mpr h.placed).length_eq, List.length_range]
  have hsum : ∀ written : List Sent, (∀ s ∈ written, s.told + s.carried = s.accounts.length) →
      (written.flatMap Sent.accounts).length =
        (written.map Sent.carried).sum + (written.map Sent.told).sum := by
    intro written hlines
    induction written with
    | nil => rfl
    | cons s written ih =>
      have hs := hlines s (by simp)
      have hrest := ih fun r hr => hlines r (by simp [hr])
      simp only [List.flatMap_cons, List.length_append, List.map_cons, List.sum_cons]
      omega
  have hsettled := hsum t.written fun s hs => h.counted.lines s (List.mem_append_left _ hs)
  rw [List.length_append, settled] at hlength
  omega

/-- The pump takes a number while no line is numbered and unwritten, and a loss is counted
while the pump has a line to take before it waits on nothing. -/
def Allowed (t : Tail) (act : Act) : Prop := t.Clear act ∧ t.Prompt act

structure Sound (t : Tail) : Prop extends t.Kept where
  numbers : t.numbers = List.range t.seq
  timely : t.Timely

theorem sound_start : ({} : Tail).Sound where
  toKept := kept_start
  numbers := rfl
  timely := ⟨by simp [ahead, Pump.held, Publisher.indices],
    by simp [ahead, Pump.held, Publisher.indices], by simp, by simp, by simp⟩

theorem sound_step (kinds : UInt16) (t : Tail) (act : Act) (h : t.Sound) (hok : t.Allowed act) :
    (step kinds t act).Sound where
  toKept := kept_step kinds t act h.toKept
  numbers := numbers_moved h.numbers (moved_step kinds t act) hok.1
  timely := timely_moved h.timely h.counted h.placed (moved_step kinds t act) hok.2

theorem Sound.inOrder (h : t.Sound) :
    t.written.map (·.line.seq) = List.range t.written.length := by
  have hsplit := h.numbers
  simp only [Tail.numbers, List.append_assoc] at hsplit
  have hstart : t.written.map (·.line.seq) = (List.range t.seq).take t.written.length := by
    rw [← hsplit, List.take_append_of_le_length (by simp), List.take_of_length_le (by simp)]
  have hle : t.written.length ≤ t.seq := by
    have hlength := congrArg List.length hsplit
    simp only [List.length_append, List.length_map, List.length_range] at hlength
    omega
  rw [hstart, List.take_range, Nat.min_eq_left hle]

theorem Sound.honest (h : t.Sound) : t.Honest where
  inOrder := h.inOrder
  accounted := h.toKept.accounted
  reported s hs := h.counted.lines s (List.mem_append_left _ hs)
  first := h.timely.first
  once := by
    have hnodup : (t.settled ++ t.pending).Nodup :=
      (List.perm_iff_count.mpr h.placed).nodup_iff.mpr List.nodup_range
    exact (List.nodup_append.mp hnodup).1

theorem Sound.numbered_early (h : t.Sound) {now : UInt64}
    (htakes : t.pump = .due ∨ ∃ records losses, t.pump = .missed records losses)
    (hearly : ¬ t.Clear (.number now)) : ¬ ((t.number now).write true).Honest := by
  intro hhonest
  have hwritten : ∃ record reports, ((t.number now).write true).written =
      t.written ++ [.own ⟨now, t.seq, record⟩ reports] := by
    obtain hdue | ⟨records, losses, hmissed⟩ := htakes
    · exact ⟨.heartbeat, [], by simp [number, hdue, write]⟩
    · exact ⟨.dropped records, losses, by simp [number, hmissed, write]⟩
  obtain ⟨record, reports, hwritten⟩ := hwritten
  have horder := hhonest.inOrder
  rw [hwritten, List.map_append, h.inOrder, List.length_append, List.length_singleton,
    List.range_succ] at horder
  have hseq : t.seq = t.written.length := by simpa using horder
  have hlength := congrArg List.length h.numbers
  simp only [Tail.numbers, List.length_append, List.length_map, List.length_range] at hlength
  refine hearly ⟨List.length_eq_zero_iff.mp ?_, List.length_eq_zero_iff.mp ?_⟩ <;> omega

theorem Sound.counted_late (h : t.Sound) {kinds : UInt16} {record : Record} {now : UInt64}
    {index : Nat} (howing : t.publisher = .owing index) (hsubscribed : t.subscribed = true)
    (hwanted : wanted kinds record.kind = true) (hlate : ¬ t.Prompt .count) :
    ¬ (run (step kinds) t [.count, .publish record now, .trySend, .recv, .write true]).Honest := by
  obtain ⟨hwaiting, hqueue⟩ := Classical.not_imp.mp hlate
  have hnone : t.queue = [] := not_not.mp hqueue
  intro hhonest
  have hwritten : (run (step kinds) t
      [.count, .publish record now, .trySend, .recv, .write true]).written =
      t.written ++ [.posted ⟨t.published, now, t.seq, record⟩] := by
    simp [step, count, publish, trySend, recv, write, howing, hsubscribed, hwanted, hwaiting, hnone,
      queueMax]
  have hindex : index ∈ t.ahead := by simp [ahead, howing, Publisher.indices]
  have hfirst := hhonest.first t.written.length ⟨t.published, now, t.seq, record⟩
    (by rw [hwritten]; simp) index (h.timely.known index hindex)
  rw [hwritten, List.take_left] at hfirst
  have hnodup : (t.settled ++ t.pending).Nodup :=
    (List.perm_iff_count.mpr h.placed).nodup_iff.mpr List.nodup_range
  have hpending : index ∈ t.pending := by simp [pending, howing, Publisher.indices]
  exact (List.nodup_append.mp hnodup).2.2 index hfirst index hpending rfl

end Tail

/-- While the pump takes a number only with no line numbered and unwritten, and no loss is counted
with the pump waiting on an empty queue, an operator is shown what it is owed. -/
theorem tail_honest (kinds : UInt16) (acts : List Act)
    (h : Each Tail.Allowed (step kinds) {} acts) : Always Tail.Honest (step kinds) {} acts :=
  (h.always (Tail.sound_step kinds) Tail.sound_start).imp fun _ => Tail.Sound.honest

def offers (record : Record) (n : Nat) : List Act :=
  (List.replicate n [.publish record 0, .trySend]).flatten

theorem run_offers {kinds : UInt16} {record : Record} (hwanted : wanted kinds record.kind = true)
    {n : Nat} (hn : n ≤ queueMax) : run (step kinds) {} (offers record n) =
      { seq := n, published := n, queue := (List.range n).map fun i => ⟨i, 0, i, record⟩ } := by
  induction n with
  | zero => rfl
  | succ n ih =>
    have hroom : n < queueMax := by omega
    have hsplit : offers record (n + 1) = offers record n ++ [.publish record 0, .trySend] := by
      simp [offers, List.replicate_succ']
    rw [hsplit, run_append, ih (by omega)]
    simp [step, Tail.publish, Tail.trySend, hwanted, hroom, List.range_succ]

/-- One more than the queue holds; then the pump goes round. -/
def overflowing (record : Record) : List Act :=
  offers record queueMax ++ [.publish record 0, .trySend, .giveBack, .count, .swap, .number 0,
    .write true, .swap, .recv, .write true]

theorem overflow_tells_of_the_end :
    (run (step wantAll) {} (overflowing (.event 0 none 0 0))).written.map (·.line.seq) =
        [512, 0] ∧
      ¬ ∀ kinds acts, Always Tail.Honest (step kinds) {} acts := by
  have hwanted : wanted wantAll (Record.event 0 none 0 0).kind = true := by decide
  have hqueue : (List.range queueMax).map
      (fun i => (⟨i, 0, i, .event 0 none 0 0⟩ : Posted)) =
      ⟨0, 0, 0, .event 0 none 0 0⟩ :: (List.range 511).map
        (fun i => ⟨i + 1, 0, i + 1, .event 0 none 0 0⟩) := by
    rw [queueMax, List.range_succ_eq_map, List.map_cons, List.map_map]
    rfl
  have hseqs : (run (step wantAll) {} (overflowing (.event 0 none 0 0))).written.map
      (·.line.seq) = [512, 0] := by
    rw [overflowing, run_append, run_offers hwanted (Nat.le_refl _), hqueue]
    simp [step, Tail.publish, Tail.trySend, Tail.giveBack, Tail.count, Tail.swap, Tail.number,
      Tail.write, Tail.recv, hwanted, queueMax]
  refine ⟨hseqs, fun hall => ?_⟩
  have hwhole := hall wantAll (overflowing (.event 0 none 0 0))
  have hend := (always_iff_prefixes.mp hwhole _ List.prefix_rfl).inOrder
  have hlength := congrArg List.length hseqs
  rw [List.length_map] at hlength
  rw [hseqs, hlength] at hend
  cases hend

def drains (n : Nat) : List Act := (List.replicate n [.recv, .write true, .swap]).flatten

theorem run_drains {kinds : UInt16} {n : Nat} {t : Tail} (hwaiting : t.pump = .waiting)
    (hnone : t.dropped = 0) (hn : n ≤ t.queue.length) : run (step kinds) t (drains n) =
      { t with queue := t.queue.drop n, written := t.written ++ (t.queue.take n).map .posted } := by
  induction n generalizing t with
  | zero => simp [drains]
  | succ n ih =>
    obtain ⟨p, rest, hqueue⟩ := List.exists_cons_of_length_pos (Nat.lt_of_lt_of_le n.succ_pos hn)
    have hnext : run (step kinds) t [.recv, .write true, .swap] =
        { t with queue := rest, written := t.written ++ [.posted p] } := by
      simp [step, Tail.recv, Tail.write, Tail.swap, hwaiting, hqueue, hnone]
    have hrest := ih (t := { t with queue := rest, written := t.written ++ [.posted p] })
      hwaiting hnone (by simpa [hqueue] using hn)
    have hsplit : drains (n + 1) = [.recv, .write true, .swap] ++ drains n := rfl
    rw [hsplit, run_append, hnext, hrest, hqueue]
    simp

/-- The loss is counted while one line is left to take, and told of after it. -/
def tellingInTime (record : Record) : List Act :=
  offers record queueMax ++ ([.swap, .publish record 0, .trySend, .giveBack] ++
    (drains (queueMax - 1) ++ [.count, .recv, .write true, .swap, .number 0, .write true]))

theorem each_rounds {kinds : UInt16} {n : Nat} {round : List Act}
    (h : ∀ act ∈ round, ∀ t : Tail, t.Allowed act) (t : Tail) :
    Each Tail.Allowed (step kinds) t (List.replicate n round).flatten := by
  refine each_of_mem (fun act hact => ?_) t
  obtain ⟨acts, hacts, hact⟩ := List.mem_flatten.mp hact
  exact h act (List.eq_of_mem_replicate hacts ▸ hact)

theorem allowed_telling {kinds : UInt16} {record : Record}
    (hwanted : wanted kinds record.kind = true) :
    Each Tail.Allowed (step kinds) {} (tellingInTime record) := by
  have hlost {t : Tail} (hidle : t.publisher = .idle) (htop : t.pump = .top)
      (hnone : t.dropped = 0) (hsubscribed : t.subscribed = true)
      (hfull : t.queue.length = queueMax) :
      run (step kinds) t [.swap, .publish record 0, .trySend, .giveBack] = { t with
        pump := .waiting, published := t.published + 1, publisher := .owing t.published } := by
    simp [step, Tail.swap, Tail.publish, Tail.trySend, Tail.giveBack, hidle, htop, hnone,
      hsubscribed, hfull, hwanted]
  have hend {t : Tail} {i : Nat} (howing : t.publisher = .owing i) (hwaiting : t.pump = .waiting)
      (hnone : t.dropped = 0) (hone : t.queue.length = 1) : Each Tail.Allowed (step kinds) t
        [.count, .recv, .write true, .swap, .number 0, .write true] := by
    obtain ⟨p, hqueue⟩ := List.length_eq_one_iff.mp hone
    simp [Each, Tail.Allowed, Tail.Clear, Tail.Prompt, step, Tail.count, Tail.recv, Tail.write,
      Tail.swap, Publisher.numbered, howing, hwaiting, hnone, hqueue]
  rw [tellingInTime, each_append, each_append, each_append, run_offers hwanted (Nat.le_refl _),
    hlost rfl rfl rfl rfl (by simp), run_drains rfl rfl (by simp)]
  refine ⟨each_rounds ?_ _, ⟨⟨trivial, trivial⟩, ⟨trivial, trivial⟩, ⟨trivial, trivial⟩,
    ⟨trivial, trivial⟩, trivial⟩, each_rounds ?_ _, hend rfl rfl rfl ?_⟩
  · simp [Tail.Allowed, Tail.Clear, Tail.Prompt]
  · simp [Tail.Allowed, Tail.Clear, Tail.Prompt]
  · simp [queueMax]

theorem tail_honest_telling :
    Always Tail.Honest (step wantAll) {} (tellingInTime (.event 0 none 0 0)) :=
  tail_honest wantAll _ (allowed_telling (by decide))

end Sqex.Tails
