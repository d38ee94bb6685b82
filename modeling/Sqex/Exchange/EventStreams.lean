import Sqex.Exchange.Events

/-! One event stream: what a publisher and the pump each leave of it, in any order. -/
namespace Sqex.Events
variable {ε : Type}

def Before : Written ε → Written ε → Prop
  | .event p, .event q => p.number < q.number
  | .resync mark _, .event q => mark < q.number
  | _, _ => True

def Written.place : Written ε → Option Nat
  | .event p => some p.number
  | .heartbeat => none
  | .resync mark _ => some mark

namespace Stream

def hand (x : Stream ε) : List (Posted ε) :=
  match x.stage with
  | .writing (some p) => [p]
  | _ => []

def ahead (x : Stream ε) : List (Posted ε) := x.hand ++ x.queue

def line (x : Stream ε) : List (Written ε) := x.written ++ x.ahead.map .event

def Owes (x : Stream ε) : Prop :=
  x.behind.isSome = true ∨ ∃ mark, x.stage = .draining mark ∨ x.stage = .resyncing mark

def Accounted (x : Stream ε) (n : Nat) : Prop :=
  (∃ p, .event p ∈ x.written ∧ p.number = n) ∨ ∃ mark seen, .resync mark seen ∈ x.written ∧ n < seen

def Coming (x : Stream ε) (n : Nat) : Prop := (∃ p ∈ x.ahead, p.number = n) ∨ x.Owes

structure Fit (x : Stream ε) (known : Nat) : Prop where
  known_le : known ≤ x.sent.length
  line : x.line.Pairwise Before
  below : ∀ w ∈ x.line, ∀ k ∈ w.place, k < known
  truth : ∀ p, .event p ∈ x.line → x.sent[p.number]? = some p.event
  marked : ∀ mark ∈ x.behind, mark < known
  drains : ∀ mark, x.stage = .draining mark → mark < known
  cleared : ∀ mark, x.stage = .resyncing mark → mark < known ∧ ∀ p ∈ x.queue, mark < p.number
  kept : x.stage ≠ .ended → ∀ n < known, x.Accounted n ∨ x.Coming n
  bounded : x.queue.length ≤ queueMax

variable {x : Stream ε} {known : Nat}

theorem mem_line {w : Written ε} :
    w ∈ x.line ↔ w ∈ x.written ∨ ∃ p ∈ x.ahead, .event p = w := by
  simp [line]

theorem fit_fresh (who device : PubKey) : (fresh who device : Stream ε).Fit 0 := by
  refine ⟨?_, ?_, ?_, ?_, ?_, ?_, ?_, ?_, ?_⟩ <;> simp [fresh, Stream.line, ahead, hand]

theorem Fit.visit (h : x.Fit known) (event : ε) : (x.visit event).Fit known where
  known_le := by
    have hle := h.known_le
    simp only [Stream.visit, List.length_append, List.length_singleton]
    omega
  line := h.line
  below := h.below
  truth p hp := by
    have hlt := h.below _ hp _ rfl
    have hle := h.known_le
    simp only [Stream.visit]
    rw [List.getElem?_append_left (by omega)]
    exact h.truth p hp
  marked := h.marked
  drains := h.drains
  cleared := h.cleared
  kept := h.kept
  bounded := h.bounded

/-- A stream that owes a resync owes it for whatever comes as well. -/
theorem Fit.skipped (h : x.Fit known) (howes : x.behind.isSome = true) {n : Nat} (hle : known ≤ n)
    (hn : n ≤ x.sent.length) : x.Fit n where
  known_le := hn
  line := h.line
  below w hw k hk := (h.below w hw k hk).trans_le hle
  truth := h.truth
  marked mark hmark := (h.marked mark hmark).trans_le hle
  drains mark hmark := (h.drains mark hmark).trans_le hle
  cleared mark hmark := ⟨(h.cleared mark hmark).1.trans_le hle, (h.cleared mark hmark).2⟩
  kept _ _ _ := .inr (.inr (.inl howes))
  bounded := h.bounded

theorem Fit.fallBehind (h : x.Fit known) (hflying : known + 1 = x.sent.length) :
    x.fallBehind.Fit x.sent.length where
  known_le := Nat.le_refl _
  line := h.line
  below w hw k hk := (h.below w hw k hk).trans (by omega)
  truth := h.truth
  marked mark hmark := by
    simp only [Stream.fallBehind, Option.mem_some_iff] at hmark
    omega
  drains mark hmark := (h.drains mark hmark).trans (by omega)
  cleared mark hmark := ⟨(h.cleared mark hmark).1.trans (by omega), (h.cleared mark hmark).2⟩
  kept _ _ _ := .inr (.inr (.inl rfl))
  bounded := h.bounded

theorem push_line (x : Stream ε) (event : ε) :
    (x.push event).line = x.line ++ [.event ⟨x.sent.length - 1, event⟩] := by
  simp [line, ahead, hand, push]

theorem Fit.push (h : x.Fit known) (hflying : known + 1 = x.sent.length) {event : ε}
    (hlast : x.sent[known]? = some event) (hroom : x.queue.length < queueMax) :
    (x.push event).Fit x.sent.length := by
  have hnumber : x.sent.length - 1 = known := by omega
  have hqueue : (x.push event).queue = x.queue ++ [⟨known, event⟩] := by
    simp only [Stream.push, hnumber]
  refine ⟨Nat.le_refl _, ?_, ?_, ?_, ?_, ?_, ?_, ?_, ?_⟩
  · rw [push_line, List.pairwise_append]
    refine ⟨h.line, List.pairwise_singleton _ _, ?_⟩
    intro w hw v hv
    rw [List.mem_singleton] at hv
    subst hv
    cases w with
    | event p =>
      have hlt := h.below _ hw _ rfl
      simp only [Before]
      omega
    | heartbeat => trivial
    | resync mark seen =>
      have hlt := h.below _ hw _ rfl
      simp only [Before]
      omega
  · rw [push_line]
    intro w hw k hk
    cases List.mem_append.mp hw with
    | inl hold => exact (h.below w hold k hk).trans (by omega)
    | inr hnew =>
      rw [List.mem_singleton] at hnew
      subst hnew
      simp only [Written.place, Option.mem_some_iff] at hk
      omega
  · rw [push_line]
    intro p hp
    cases List.mem_append.mp hp with
    | inl hold => exact h.truth p hold
    | inr hnew =>
      rw [List.mem_singleton] at hnew
      cases hnew
      rw [hnumber]
      exact hlast
  · exact fun mark hmark => (h.marked mark hmark).trans (by omega)
  · exact fun mark hmark => (h.drains mark hmark).trans (by omega)
  · intro mark hmark
    obtain ⟨hlt, hafter⟩ := h.cleared mark hmark
    refine ⟨hlt.trans (by omega), ?_⟩
    rw [hqueue]
    intro p hp
    cases List.mem_append.mp hp with
    | inl hold => exact hafter p hold
    | inr hnew =>
      rw [List.mem_singleton] at hnew
      subst hnew
      exact hlt
  · intro hrunning n hn
    have hahead : (x.push event).ahead = x.ahead ++ [⟨known, event⟩] := by
      simp [ahead, hand, Stream.push, hnumber]
    by_cases hnew : n = known
    · refine .inr (.inl ⟨⟨known, event⟩, ?_, hnew.symm⟩)
      rw [hahead]
      exact List.mem_append_right _ (List.mem_singleton_self _)
    · refine (h.kept hrunning n (by omega)).imp_right fun hcoming => ?_
      refine hcoming.imp_left fun hp => ?_
      obtain ⟨p, hp, hpn⟩ := hp
      exact ⟨p, by rw [hahead]; exact List.mem_append_left _ hp, hpn⟩
  · rw [hqueue, List.length_append, List.length_singleton]
    exact hroom

theorem Fit.dropped {y : Stream ε} (h : x.Fit known) (hwritten : y.written = x.written)
    (hsent : y.sent = x.sent) (hahead : y.ahead.Sublist x.ahead)
    (hmarked : ∀ mark ∈ y.behind, mark < known)
    (hdrains : ∀ mark, y.stage = .draining mark → mark < known)
    (hcleared : ∀ mark, y.stage = .resyncing mark → mark < known ∧ ∀ p ∈ y.queue, mark < p.number)
    (hkept : y.stage ≠ .ended → y.Owes ∨ x.stage ≠ .ended ∧ y.ahead = x.ahead ∧ ¬ x.Owes)
    (hbounded : y.queue.length ≤ queueMax) : y.Fit known := by
  have hline : y.line.Sublist x.line := by
    rw [Stream.line, Stream.line, hwritten]
    exact (List.Sublist.refl _).append (hahead.map _)
  refine ⟨hsent ▸ h.known_le, h.line.sublist hline, ?_, ?_, hmarked, hdrains, hcleared, ?_, hbounded⟩
  · exact fun w hw => h.below w (hline.subset hw)
  · rw [hsent]
    exact fun p hp => h.truth p (hline.subset hp)
  · intro hrunning n hn
    cases hkept hrunning with
    | inl howes => exact .inr (.inr howes)
    | inr hsame =>
      obtain ⟨hbefore, hahead, hpaid⟩ := hsame
      refine (h.kept hbefore n hn).imp (fun hdone => ?_) fun hcoming => ?_
      · rw [Accounted, hwritten]
        exact hdone
      · left
        rw [hahead]
        exact hcoming.resolve_right hpaid

theorem Fit.wrote {y : Stream ε} (h : x.Fit known) {w : Written ε}
    (hwritten : y.written = x.written ++ [w]) (hsent : y.sent = x.sent)
    (hstage : y.stage = .top) (hqueue : y.queue = x.queue) (hbehind : y.behind = x.behind)
    (hline : y.line.Pairwise Before) (hmem : ∀ v ∈ y.line, v = w ∨ v ∈ x.line)
    (hplace : ∀ k ∈ w.place, k < known)
    (htruth : ∀ p, .event p = w → x.sent[p.number]? = some p.event)
    (hkept : ∀ n < known, y.Accounted n ∨ y.Coming n) : y.Fit known where
  known_le := hsent ▸ h.known_le
  line := hline
  below v hv k hk := by
    cases hmem v hv with
    | inl hnew => subst hnew; exact hplace k hk
    | inr hold => exact h.below v hold k hk
  truth p hp := by
    rw [hsent]
    cases hmem _ hp with
    | inl hnew => exact htruth p hnew
    | inr hold => exact h.truth p hold
  marked := by rw [hbehind]; exact h.marked
  drains mark hmark := by rw [hstage] at hmark; cases hmark
  cleared mark hmark := by rw [hstage] at hmark; cases hmark
  kept _ := hkept
  bounded := by rw [hqueue]; exact h.bounded

/-- What is no event itself goes between what was written and what waits, with nothing in hand. -/
theorem Fit.told {y : Stream ε} (h : x.Fit known) {w : Written ε}
    (hwritten : y.written = x.written ++ [w]) (hsent : y.sent = x.sent)
    (hstage : y.stage = .top) (hqueue : y.queue = x.queue) (hbehind : y.behind = x.behind)
    (hahead : x.ahead = x.queue) (hpast : ∀ v, Before v w)
    (hnext : ∀ p ∈ x.queue, Before w (.event p)) (hevent : ∀ p, w ≠ .event p)
    (hplace : ∀ k ∈ w.place, k < known)
    (hkept : ∀ n < known, y.Accounted n ∨ y.Coming n) : y.Fit known := by
  have hline : y.line = x.written ++ w :: x.queue.map .event := by
    simp [Stream.line, ahead, hand, hstage, hwritten, hqueue]
  have hpair := h.line
  rw [Stream.line, hahead, List.pairwise_append] at hpair
  obtain ⟨hbefore, hwaiting, hcross⟩ := hpair
  refine h.wrote hwritten hsent hstage hqueue hbehind ?_ ?_ hplace
    (fun p hp => absurd hp.symm (hevent p)) hkept
  · rw [hline, List.pairwise_append, List.pairwise_cons]
    refine ⟨hbefore, ⟨fun v hv => ?_, hwaiting⟩, fun u hu v hv => ?_⟩
    · obtain ⟨p, hp, rfl⟩ := List.mem_map.mp hv
      exact hnext p hp
    · rcases List.mem_cons.mp hv with rfl | hold
      · exact hpast u
      · exact hcross u hu v hold
  · intro v hv
    rw [hline, List.mem_append, List.mem_cons] at hv
    rw [Stream.line, hahead, List.mem_append]
    tauto

theorem Fit.swap (h : x.Fit known) (hstage : x.stage = .top) (act : Act) :
    (x.pump act).Fit known := by
  have hhand : x.hand = [] := by simp [hand, hstage]
  simp only [pump, hstage]
  split
  · next mark hbehind =>
    have hmark : mark < known := h.marked mark hbehind
    refine h.dropped rfl rfl ?_ ?_ ?_ ?_ ?_ h.bounded
    · simp [ahead, hand, hstage]
    · simp
    · intro m hm
      cases hm
      exact hmark
    · intro m hm
      cases hm
    · exact fun _ => .inl (.inr ⟨mark, .inl rfl⟩)
  · next hbehind =>
    have hpaid : ¬ x.Owes := by simp [Owes, hbehind, hstage]
    refine h.dropped rfl rfl ?_ h.marked ?_ ?_ ?_ h.bounded
    · simp [ahead, hand, hstage]
    · intro m hm
      cases hm
    · intro m hm
      cases hm
    · exact fun _ => .inr ⟨by simp [hstage], by simp [ahead, hand, hstage], hpaid⟩

theorem Fit.drain (h : x.Fit known) {mark : Nat} (hstage : x.stage = .draining mark) (act : Act) :
    (x.pump act).Fit known := by
  have hmark : mark < known := h.drains mark hstage
  simp only [pump, hstage]
  split
  · next p queue hqueue =>
    have hlength := h.bounded
    rw [hqueue, List.length_cons] at hlength
    refine h.dropped rfl rfl ?_ h.marked ?_ ?_ ?_ (by simp only; omega)
    · simp [ahead, hand, hstage, hqueue]
    · intro m hm
      cases hm
      exact hmark
    · intro m hm
      cases hm
    · exact fun _ => .inl (.inr ⟨mark, .inl rfl⟩)
  · next hqueue =>
    refine h.dropped rfl rfl ?_ h.marked ?_ ?_ ?_ h.bounded
    · simp [ahead, hand, hstage]
    · intro m hm
      cases hm
    · intro m hm
      cases hm
      exact ⟨hmark, by simp [hqueue]⟩
    · exact fun _ => .inl (.inr ⟨mark, .inr rfl⟩)

theorem Fit.resync (h : x.Fit known) {mark : Nat} (hstage : x.stage = .resyncing mark) (act : Act) :
    (x.pump act).Fit known := by
  obtain ⟨hmark, hafter⟩ := h.cleared mark hstage
  have hahead : x.ahead = x.queue := by simp [ahead, hand, hstage]
  simp only [pump, hstage]
  split
  · refine h.dropped rfl rfl ?_ h.marked ?_ ?_ ?_ h.bounded
    · simp [ahead, hand, hstage]
    · intro m hm
      cases hm
    · intro m hm
      cases hm
    · exact fun hrunning => absurd rfl hrunning
  · refine h.told rfl rfl rfl rfl rfl hahead (fun v => by cases v <;> trivial) hafter
      (fun _ => nofun) ?_ fun n hn => .inl (.inr ⟨mark, x.sent.length,
        List.mem_append_right _ (List.mem_singleton_self _), ?_⟩)
    · intro k hk
      simp only [Written.place, Option.mem_some_iff] at hk
      omega
    · have hle := h.known_le
      omega

theorem Fit.await (h : x.Fit known) (hstage : x.stage = .waiting) (act : Act) :
    (x.pump act).Fit known := by
  have hahead : x.ahead = x.queue := by simp [ahead, hand, hstage]
  have hkept : ∀ y : Stream ε, y.behind = x.behind → y.ahead = x.ahead → y.stage ≠ .ended →
      y.Owes ∨ x.stage ≠ .ended ∧ y.ahead = x.ahead ∧ ¬ x.Owes := by
    intro y hbehind hsame _
    by_cases howes : x.Owes
    · left
      obtain hset | ⟨mark, hmark⟩ := howes
      · exact .inl (hbehind ▸ hset)
      · simp [hstage] at hmark
    · exact .inr ⟨by simp [hstage], hsame, howes⟩
  have hneither : ∀ y : Stream ε, (∀ m, y.stage ≠ .draining m) → (∀ m, y.stage ≠ .resyncing m) →
      (∀ mark, y.stage = .draining mark → mark < known) ∧
        ∀ mark, y.stage = .resyncing mark → mark < known ∧ ∀ p ∈ y.queue, mark < p.number :=
    fun y hd hr => ⟨fun m hm => absurd hm (hd m), fun m hm => absurd hm (hr m)⟩
  simp only [pump, hstage]
  split
  · obtain ⟨hd, hr⟩ := hneither { x with stage := .writing none } (by simp) (by simp)
    exact h.dropped rfl rfl (by simp [ahead, hand, hstage]) h.marked hd hr
      (hkept _ rfl (by simp [ahead, hand, hstage])) h.bounded
  · split
    · next p queue hqueue =>
      have hlength := h.bounded
      rw [hqueue, List.length_cons] at hlength
      have hsame : ({ x with queue, stage := .writing (some p) } : Stream ε).ahead = x.ahead := by
        simp [ahead, hand, hstage, hqueue]
      obtain ⟨hd, hr⟩ := hneither { x with queue, stage := .writing (some p) } (by simp) (by simp)
      exact h.dropped rfl rfl (by rw [hsame]) h.marked hd hr (hkept _ rfl hsame)
        (by simp only; omega)
    · split
      · exact h
      · obtain ⟨hd, hr⟩ := hneither { x with stage := .ended } (by simp) (by simp)
        exact h.dropped rfl rfl (by simp [ahead, hand, hstage]) h.marked hd hr
          (fun hrunning => absurd rfl hrunning) h.bounded

theorem Fit.kept_wrote {y : Stream ε} (h : x.Fit known) {w : Written ε}
    (hrunning : x.stage ≠ .ended) (hwritten : y.written = x.written ++ [w])
    (hbehind : y.behind = x.behind) (hstage : ∃ hand, x.stage = .writing hand)
    (hahead : ∀ p ∈ x.ahead, p ∈ y.ahead ∨ w = .event p) {n : Nat} (hn : n < known) :
    y.Accounted n ∨ y.Coming n := by
  have hmem : ∀ v, v ∈ x.written → v ∈ y.written := fun v hv => by
    rw [hwritten]
    exact List.mem_append_left _ hv
  cases h.kept hrunning n hn with
  | inl hdone =>
    left
    refine hdone.imp (fun hp => ?_) fun hr => ?_
    · obtain ⟨p, hp, hpn⟩ := hp
      exact ⟨p, hmem _ hp, hpn⟩
    · obtain ⟨mark, seen, hr, hlt⟩ := hr
      exact ⟨mark, seen, hmem _ hr, hlt⟩
  | inr hcoming =>
    cases hcoming with
    | inl hp =>
      obtain ⟨p, hp, hpn⟩ := hp
      cases hahead p hp with
      | inl hstill => exact .inr (.inl ⟨p, hstill, hpn⟩)
      | inr hnow =>
        subst hnow
        refine .inl (.inl ⟨p, ?_, hpn⟩)
        rw [hwritten]
        exact List.mem_append_right _ (List.mem_singleton_self _)
    | inr howes =>
      obtain ⟨hand, hstage⟩ := hstage
      obtain hset | ⟨mark, hmark⟩ := howes
      · exact .inr (.inr (.inl (hbehind ▸ hset)))
      · simp [hstage] at hmark

theorem Fit.write (h : x.Fit known) {held : Option (Posted ε)} (hstage : x.stage = .writing held)
    (act : Act) : (x.pump act).Fit known := by
  have hrunning : x.stage ≠ .ended := by simp [hstage]
  simp only [pump, hstage]
  split
  · refine h.dropped rfl rfl ?_ h.marked ?_ ?_ ?_ h.bounded
    · simp [ahead, hand]
    · intro m hm
      cases hm
    · intro m hm
      cases hm
    · exact fun hgoing => absurd rfl hgoing
  · cases held with
    | some p =>
      have hahead : x.ahead = p :: x.queue := by simp [ahead, hand, hstage]
      -- what was in hand is where it was in the line
      have hline : Stream.line { x with written := x.written ++ [.event p], stage := .top } =
          x.line := by
        rw [Stream.line, Stream.line, hahead]
        simp [ahead, hand]
      have hp : .event p ∈ x.line := mem_line.mpr (.inr ⟨p, by simp [hahead], rfl⟩)
      refine h.wrote rfl rfl rfl rfl rfl ?_ ?_ ?_ ?_ ?_
      · rw [hline]
        exact h.line
      · rw [hline]
        exact fun v hv => .inr hv
      · exact h.below _ hp
      · intro q hq
        cases hq
        exact h.truth p hp
      · intro n hn
        refine h.kept_wrote (w := .event p) hrunning ?_ ?_ ⟨_, hstage⟩ (fun q hq => ?_) hn
        · rfl
        · rfl
        · rw [hahead, List.mem_cons] at hq
          exact hq.elim (fun heq => .inr (by rw [heq])) .inl
    | none =>
      have hahead : x.ahead = x.queue := by simp [ahead, hand, hstage]
      refine h.told rfl rfl rfl rfl rfl hahead (fun v => by cases v <;> trivial)
        (fun _ _ => trivial) (fun _ => nofun) nofun fun n hn => ?_
      refine h.kept_wrote (w := .heartbeat) hrunning ?_ ?_ ⟨_, hstage⟩
        (fun q hq => .inl (hahead ▸ hq)) hn
      · rfl
      · rfl

theorem Fit.pump (h : x.Fit known) (act : Act) : (x.pump act).Fit known := by
  cases hstage : x.stage with
  | top => exact h.swap hstage act
  | draining mark => exact h.drain hstage act
  | resyncing mark => exact h.resync hstage act
  | waiting => exact h.await hstage act
  | writing hand => exact h.write hstage act
  | ended =>
    have hsame : x.pump act = x := by simp [Stream.pump, hstage]
    rwa [hsame]

/-! Left to its pump, a stream runs dry. -/

def Dry (x : Stream ε) : Prop :=
  x.queue = [] ∧ x.behind = none ∧ (x.stage = .top ∨ x.stage = .waiting)

theorem Fit.accounted (h : x.Fit known) (hdry : x.Dry) : ∀ n < known, x.Accounted n := by
  obtain ⟨hqueue, hbehind, hstage⟩ := hdry
  have hahead : x.ahead = [] := by
    cases hstage with
    | inl htop => simp [ahead, hand, htop, hqueue]
    | inr hwaiting => simp [ahead, hand, hwaiting, hqueue]
  have hpaid : ¬ x.Owes := by
    cases hstage with
    | inl htop => simp [Owes, hbehind, htop]
    | inr hwaiting => simp [Owes, hbehind, hwaiting]
  have hrunning : x.stage ≠ .ended := by
    cases hstage with
    | inl htop => simp [htop]
    | inr hwaiting => simp [hwaiting]
  intro n hn
  refine (h.kept hrunning n hn).resolve_right fun hcoming => ?_
  cases hcoming with
  | inl hp => simp [hahead] at hp
  | inr howes => exact hpaid howes

/-- What a pump still has to do. A flag it has not seen costs it the most: it may have to wait for
a beat to see it. -/
def weight (x : Stream ε) : Nat :=
  4 * x.queue.length + (if x.behind.isSome then 8 else 0) +
    match x.stage with
    | .top => 2
    | .draining _ => 4
    | .resyncing _ => 3
    | .waiting => if x.behind.isSome then 5 else 1
    | .writing _ => 3
    | .ended => 0

theorem pump_lighter (hrunning : x.stage ≠ .ended) : x.Dry ∨ ∃ act, act ≠ .fail ∧
    (x.pump act).stage ≠ .ended ∧ (x.pump act).weight < x.weight := by
  cases hstage : x.stage with
  | top =>
    right
    refine ⟨.go, by decide, ?_⟩
    cases hbehind : x.behind with
    | none | some mark => simp [pump, weight, hstage, hbehind]
  | draining mark =>
    right
    refine ⟨.go, by decide, ?_⟩
    cases hqueue : x.queue with
    | nil => simp [pump, weight, hstage, hqueue]
    | cons p queue =>
      simp only [pump, weight, hstage, hqueue, ne_eq, reduceCtorEq, not_false_eq_true, true_and,
        List.length_cons]
      omega
  | resyncing mark =>
    right
    exact ⟨.go, by decide, by simp [pump, weight, hstage]⟩
  | waiting =>
    cases hqueue : x.queue with
    | cons p queue =>
      right
      refine ⟨.go, by decide, ?_⟩
      simp only [pump, weight, hstage, hqueue, reduceCtorEq, if_false, ne_eq, not_false_eq_true,
        true_and, List.length_cons]
      split <;> omega
    | nil =>
      cases hbehind : x.behind with
      | none => exact .inl ⟨hqueue, hbehind, .inr hstage⟩
      | some mark =>
        right
        exact ⟨.beat, by decide, by simp [pump, weight, hstage, hqueue, hbehind]⟩
  | writing hand =>
    right
    exact ⟨.go, by decide, by simp [pump, weight, hstage]⟩
  | ended => exact absurd hstage hrunning

theorem pump_dries (hrunning : x.stage ≠ .ended) :
    ∃ acts : List Act, (∀ act ∈ acts, act ≠ .fail) ∧ (acts.foldl pump x).Dry := by
  induction hweight : x.weight using Nat.strong_induction_on generalizing x with
  | _ n ih =>
    cases pump_lighter hrunning with
    | inl hdry => exact ⟨[], by simp, hdry⟩
    | inr hstep =>
      obtain ⟨act, hact, hstill, hless⟩ := hstep
      obtain ⟨acts, hacts, hdry⟩ := ih _ (hweight ▸ hless) hstill rfl
      refine ⟨act :: acts, ?_, hdry⟩
      simpa using ⟨hact, hacts⟩

end Stream
end Sqex.Events
