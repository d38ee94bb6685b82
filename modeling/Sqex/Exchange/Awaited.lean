import Sqex.Exchange.Introductions

/-! Nobody waits for what it could be told: what each turn of the rendezvous leaves of those
who wait, and the promise over whole runs. -/
namespace Sqex.Rendezvous
open Runs
variable {addr : SocketAddr} {first : Introduced} {wait : Option Nat}

variable {s s' : Hall} {k k' : Key} {now : Nat} {t : Task} {i : Nat}

theorem pairOf_back (k : Key) : pairOf k.back = pairOf k := by
  unfold pairOf Key.back
  by_cases h : k.asker ≤ k.peer
  · by_cases h' : k.peer ≤ k.asker
    · simp [BitVec.le_antisymm h h']
    · simp [h, h']
  · have h' : k.peer ≤ k.asker := by
      rw [BitVec.le_def] at h ⊢
      omega
    simp [h, h']

theorem pairOf_cases (k : Key) :
    pairOf k = (k.asker, k.peer) ∨ pairOf k = (k.peer, k.asker) := by
  unfold pairOf
  split
  · exact .inl rfl
  · exact .inr rfl

theorem of_pairOf_eq (h : pairOf k' = pairOf k) :
    k' = k.over k'.family ∨ k' = k.back.over k'.family := by
  obtain ⟨asker, peer, family⟩ := k'
  have hpair : (asker = k.asker ∧ peer = k.peer) ∨ (asker = k.peer ∧ peer = k.asker) := by
    cases pairOf_cases ⟨asker, peer, family⟩ with
    | inl hk' =>
      rw [hk'] at h
      cases pairOf_cases k with
      | inl hk => rw [hk] at h; exact .inl (Prod.mk.inj h)
      | inr hk => rw [hk] at h; exact .inr (Prod.mk.inj h)
    | inr hk' =>
      rw [hk'] at h
      cases pairOf_cases k with
      | inl hk => rw [hk] at h; exact .inr (Prod.mk.inj h).symm
      | inr hk => rw [hk] at h; exact .inl (Prod.mk.inj h).symm
  cases hpair with
  | inl hsame => left; simp [Key.over, hsame]
  | inr hswapped => right; simp [Key.over, Key.back, hswapped]

theorem Table.Quiet.later {asked : Table} {now' : Nat} (hle : now ≤ now')
    (h : asked.Quiet now k) : asked.Quiet now' k := by
  refine ⟨fun hboth => h.1 ?_, fun f hf => ?_⟩
  · exact ⟨alive_earlier hle hboth.1, alive_earlier hle hboth.2⟩
  · by_contra halive
    have hearlier := alive_earlier hle (by simpa using halive)
    rw [h.2 f hf] at hearlier
    cases hearlier

theorem Table.Quiet.congr {asked asked' : Table}
    (hsame : ∀ k', pairOf k' = pairOf k → asked'.alive now k' = asked.alive now k')
    (h : asked.Quiet now k) : asked'.Quiet now k := by
  refine ⟨?_, fun f hf => ?_⟩
  · rw [hsame k rfl, hsame k.back (pairOf_back k)]
    exact h.1
  · rw [hsame (k.back.over f) (pairOf_back k)]
    exact h.2 f hf

/-- Whoever waits has nothing to be told, or is about to be woken; and a notifier that is in
use is its pair's. -/
structure Waits (s : Hall) : Prop where
  quiet : ∀ t ∈ s.tasks, t.stage.waits = true →
    s.asked.Quiet s.clock t.key ∨ s.Owed (pairOf t.key)
  bound : ∀ t ∈ s.tasks, ∀ n ∈ t.stage.notify, s.waiters (pairOf t.key) = some n

theorem waits_new : Waits .new := ⟨by simp [Hall.new], by simp [Hall.new]⟩

theorem Waits.moved {stage : Stage} (h : Waits s) (ht : s.tasks[i]? = some t)
    (hfree : t.stage.notifies = false) (hasked : s'.asked = s.asked)
    (hwaiters : ∀ p n, s.waiters p = some n → s'.waiters p = some n)
    (htasks : s'.tasks = s.tasks.set i { t with stage }) (hclock : s.clock ≤ s'.clock)
    (hquiet : stage.waits = true → t.stage.waits = true ∨ s.asked.Quiet s'.clock t.key)
    (hbound : ∀ n ∈ stage.notify, s'.waiters (pairOf t.key) = some n) : Waits s' := by
  have howed : ∀ p, s.Owed p → s'.Owed p := by
    rintro p ⟨u, hu, hnotifies, hpair⟩
    obtain ⟨j, hj⟩ := List.getElem?_of_mem hu
    refine ⟨u, ?_, hnotifies, hpair⟩
    have hne : i ≠ j := by
      rintro rfl
      rw [Option.some.inj (hj.symm.trans ht), hfree] at hnotifies
      cases hnotifies
    rw [htasks]
    exact List.mem_of_getElem? (by rwa [List.getElem?_set_ne hne])
  have hmem := List.mem_of_getElem? ht
  have hold : ∀ u ∈ s.tasks, u.stage.waits = true →
      s'.asked.Quiet s'.clock u.key ∨ s'.Owed (pairOf u.key) := by
    intro u hu hwaits
    rw [hasked]
    exact (h.quiet u hu hwaits).imp (fun hq => hq.later hclock) (howed _)
  refine ⟨?_, ?_⟩
  · intro u hu hwaits
    rw [htasks] at hu
    cases List.mem_or_eq_of_mem_set hu with
    | inl hu => exact hold u hu hwaits
    | inr hu =>
      subst hu
      cases hquiet hwaits with
      | inl hbefore => exact hold t hmem hbefore
      | inr hnow => exact .inl (hasked ▸ hnow)
  · intro u hu n hn
    rw [htasks] at hu
    cases List.mem_or_eq_of_mem_set hu with
    | inl hu => exact hwaiters _ _ (h.bound u hu n hn)
    | inr hu => subst hu; exact hbound n hn

theorem Waits.later (h : Waits s) (hasked : s'.asked = s.asked) (hwaiters : s'.waiters = s.waiters)
    (htasks : s'.tasks = s.tasks) (hclock : s.clock ≤ s'.clock) : Waits s' := by
  refine ⟨?_, ?_⟩
  · intro u hu hwaits
    rw [htasks] at hu
    rw [hasked, Hall.Owed, htasks]
    exact (h.quiet u hu hwaits).imp_left fun hq => hq.later hclock
  · rw [htasks, hwaiters]
    exact h.bound

section
variable (s) (k) (answer : Introduced) (pair : PubKey × PubKey)

@[simp] theorem tell_asked : (s.tell k answer).asked = s.asked := by unfold Hall.tell; split <;> rfl
@[simp] theorem tell_waiters : (s.tell k answer).waiters = s.waiters := by
  unfold Hall.tell; split <;> rfl
@[simp] theorem tell_tasks : (s.tell k answer).tasks = s.tasks := by unfold Hall.tell; split <;> rfl
@[simp] theorem tell_clock : (s.tell k answer).clock = s.clock := by unfold Hall.tell; split <;> rfl

@[simp] theorem notifier_asked : (s.notifier pair).2.asked = s.asked := by
  unfold Hall.notifier; split <;> rfl
@[simp] theorem notifier_tasks : (s.notifier pair).2.tasks = s.tasks := by
  unfold Hall.notifier; split <;> rfl
@[simp] theorem notifier_asks : (s.notifier pair).2.asks = s.asks := by
  unfold Hall.notifier; split <;> rfl
@[simp] theorem notifier_told : (s.notifier pair).2.told = s.told := by
  unfold Hall.notifier; split <;> rfl
@[simp] theorem notifier_clock : (s.notifier pair).2.clock = s.clock := by
  unfold Hall.notifier; split <;> rfl

theorem notifier_self : (s.notifier pair).2.waiters pair = some (s.notifier pair).1 := by
  unfold Hall.notifier
  split
  · next n hn => exact hn
  · simp

theorem notifier_kept {p : PubKey × PubKey} {n : Nat} (h : s.waiters p = some n) :
    (s.notifier pair).2.waiters p = some n := by
  unfold Hall.notifier
  split
  · exact h
  · next hnone =>
    have hne : p ≠ pair := by
      rintro rfl
      rw [hnone] at h
      cases h
    simpa [hne] using h

theorem notifier_of_some {n : Nat} (h : s.waiters pair = some n) : (s.notifier pair).1 = n := by
  have hself := notifier_self s pair
  rw [notifier_kept s pair h] at hself
  exact (Option.some.inj hself).symm

end

/-! What each turn leaves of those who wait. -/

/-- A request that does not make its pair leaves whoever waits of the pair with nothing to be
told, as long as the peer waits over no other family. -/
theorem quiet_of_unmade (hne : k.asker ≠ k.peer) (hunmade : s.asked.alive now k.back = false)
    (hpair : pairOf k' = pairOf k)
    (hfamily : k'.asker = k.peer → k'.peer = k.asker → k'.family = k.family)
    (h : s.asked.Quiet now k') : (s.asked.record now k addr).1.Quiet now k' := by
  have halive : ∀ q : Key, q ≠ k → (s.asked.record now k addr).1.alive now q =
      s.asked.alive now q := fun q hq => by simp [Table.alive_record hne, hq]
  have hswap : ∀ f, k.back.over f ≠ k := fun f heq => hne (congrArg Key.peer heq)
  obtain hsame | hswapped := of_pairOf_eq hpair
  · have hback : k'.back = k.back.over k'.family := by rw [hsame]; rfl
    refine ⟨?_, ?_⟩
    · rw [hback, halive _ (hswap _)]
      by_cases hk : k' = k
      · subst hk
        have hself : k'.back.over k'.family = k'.back := rfl
        simp [hself, hunmade]
      · rw [halive _ hk, ← hback]
        exact h.1
    · intro f hf
      have hother : k'.back.over f ≠ k := by
        rw [hback]
        exact hswap f
      rw [halive _ hother]
      exact h.2 f hf
  · have hasker : k'.asker = k.peer := by rw [hswapped]; rfl
    have hpeer : k'.peer = k.asker := by rw [hswapped]; rfl
    have hfam := hfamily hasker hpeer
    have hk : k' = k.back := by rw [hswapped, hfam]; rfl
    subst hk
    refine ⟨?_, ?_⟩
    · rw [halive _ (Table.back_ne hne), hunmade]
      simp
    · intro f hf
      have hover : k.back.back.over f ≠ k := fun heq => hf (congrArg Key.family heq)
      rw [halive _ hover]
      exact h.2 f hf

theorem begun_notify (first : Introduced) (wait : Option Nat) :
    (Hall.begun first wait).notify = none := by
  unfold Hall.begun
  split
  · rfl
  · rfl
  · split <;> rfl

theorem begun_waits (h : (Hall.begun first wait).waits = true) : first.answer = .waiting := by
  unfold Hall.begun at h
  split at h
  · cases h
  · cases h
  · next hanswer => exact hanswer

theorem begun_notifies (wait : Option Nat) (h : first.answer = .ready) :
    (Hall.begun first wait).notifies = true := by
  simp [Hall.begun, h, Stage.notifies]

theorem Waits.asking (h : Waits s) (hr : Records s) (htimely : s.clock ≤ now)
    (hfamily : k.asker ≠ k.peer → s.asked.alive now k.back = false → ∀ u ∈ s.tasks,
      u.stage.waits = true → u.key.asker = k.peer → u.key.peer = k.asker →
        u.key.family = k.family) :
    Waits (s.asking now k addr (Hall.begun (s.asked.record now k addr).2 wait)) := by
  have howed : ∀ p, s.Owed p →
      (s.asking now k addr (Hall.begun (s.asked.record now k addr).2 wait)).Owed p := by
    rintro p ⟨u, hu, howes⟩
    exact ⟨u, List.mem_append_left _ hu, howes⟩
  refine ⟨?_, ?_⟩
  · intro u hu hwaits
    simp only [Hall.asking, List.mem_append, List.mem_singleton] at hu
    cases hu with
    | inr hnew =>
      subst hnew
      have hanswer := begun_waits hwaits
      left
      by_cases hne : k.asker = k.peer
      · -- a caller asking for itself finds nobody, as nobody is recorded so
        have hnone : ∀ q : Key, q.asker = q.peer → s.asked.alive now q = false := by
          intro q hq
          by_contra halive
          obtain ⟨a, ha, -⟩ := Table.alive_iff.mp (by simpa using halive)
          exact hr.others q a ha hq
        simp only [Hall.asking, Table.record, if_pos hne]
        exact ⟨by simp [hnone k hne], fun f _ => hnone _ hne.symm⟩
      · exact Table.record_waiting hne hanswer
    | inl hold =>
      refine (h.quiet u hold hwaits).elim (fun hq => ?_) fun ho => .inr (howed _ ho)
      have hq := hq.later htimely
      by_cases hne : k.asker = k.peer
      · left
        simpa [Hall.asking, Table.record, hne] using hq
      by_cases hpair : pairOf u.key = pairOf k
      · by_cases hmade : s.asked.alive now k.back = true
        · right
          refine ⟨_, List.mem_append_right _ (List.mem_singleton_self _), ?_, hpair.symm⟩
          exact begun_notifies wait ((Table.record_ready hne).mpr hmade)
        · have hunmade : s.asked.alive now k.back = false := by simpa using hmade
          exact .inl (quiet_of_unmade hne hunmade hpair
            (hfamily hne hunmade u hold hwaits) hq)
      · left
        refine hq.congr fun q hqpair => ?_
        have hother : q ≠ k := fun heq => hpair (by rw [← hqpair, heq])
        simp [Hall.asking, Table.alive_record hne, hother]
  · intro u hu n hn
    simp only [Hall.asking, List.mem_append, List.mem_singleton] at hu
    cases hu with
    | inl hold => exact h.bound u hold n hn
    | inr hnew =>
      subst hnew
      simp [begun_notify] at hn

theorem Waits.notified (h : Waits s) (ht : s.tasks[i]? = some t)
    (hstage : t.stage = .notifying first) (htimely : s.clock ≤ now)
    (hregistered : ∀ u ∈ s.tasks, pairOf u.key = pairOf t.key → u.stage.between = false) :
    Waits { s.run now i t with clock := now } := by
  have hrun : s.run now i t = { (s.notifier (pairOf t.key)).2 with
      tasks := (s.tasks.set i { t with stage := .done first }).map
        (Hall.wake (s.notifier (pairOf t.key)).1) } := by
    simp [Hall.run, hstage, Hall.move]
  have hkey : ∀ n u, (Hall.wake n u).key = u.key := by
    intro n u
    unfold Hall.wake
    split <;> rfl
  rw [hrun]
  refine ⟨?_, ?_⟩
  · intro u' hu' hwaits
    obtain ⟨u, hu, rfl⟩ := List.mem_map.mp hu'
    have hasleep : u.stage ≠ .parked (s.notifier (pairOf t.key)).1 := by
      intro hparked
      simp [Hall.wake, hparked, Stage.waits] at hwaits
    have hsame : Hall.wake (s.notifier (pairOf t.key)).1 u = u := by
      rw [Hall.wake, if_neg hasleep]
    rw [hsame] at hwaits ⊢
    cases List.mem_or_eq_of_mem_set hu with
    | inr hdone =>
      subst hdone
      cases hwaits
    | inl hu =>
      by_cases hpair : pairOf u.key = pairOf t.key
      · -- of the pair, so it is registered, and with its notifier
        have hbetween := hregistered u hu hpair
        obtain ⟨key, stage⟩ := u
        cases stage with
        | parked n =>
          have hn := h.bound _ hu n rfl
          rw [hpair] at hn
          exact absurd (by rw [notifier_of_some s _ hn]) hasleep
        | recorded | holding n => cases hbetween
        | notifying first | woken n | done answer => cases hwaits
      · refine (h.quiet u hu hwaits).imp (fun hq => ?_) fun ho => ?_
        · simpa using hq.later htimely
        · obtain ⟨v, hv, hnotifies, hvpair⟩ := ho
          obtain ⟨j, hj⟩ := List.getElem?_of_mem hv
          have hne : i ≠ j := by
            rintro rfl
            rw [Option.some.inj (hj.symm.trans ht)] at hvpair
            exact hpair hvpair.symm
          have hawake : Hall.wake (s.notifier (pairOf t.key)).1 v = v := by
            obtain ⟨key, stage⟩ := v
            cases stage <;> first | rfl | cases hnotifies
          refine ⟨v, List.mem_map.mpr ⟨v, ?_, hawake⟩, hnotifies, hvpair⟩
          exact List.mem_of_getElem? (by rwa [List.getElem?_set_ne hne])
  · intro u' hu' n hn
    obtain ⟨u, hu, rfl⟩ := List.mem_map.mp hu'
    have hnotify : (Hall.wake (s.notifier (pairOf t.key)).1 u).stage.notify = u.stage.notify := by
      unfold Hall.wake
      split
      · next hparked => rw [hparked]; rfl
      · rfl
    rw [hnotify] at hn
    rw [hkey]
    cases List.mem_or_eq_of_mem_set hu with
    | inl hu => exact notifier_kept s _ (h.bound u hu n hn)
    | inr hdone => subst hdone; cases hn

theorem Waits.swept (h : Waits s) (htimely : s.clock ≤ now)
    (hused : ∀ u ∈ s.tasks, u.stage.notify.isSome = true → ∃ f ∈ [Family.v4, .v6],
      s.asked.alive now (u.key.over f) = true ∨ s.asked.alive now (u.key.back.over f) = true) :
    Waits { s.sweep now with clock := now } := by
  refine ⟨?_, ?_⟩
  · intro u hu hwaits
    refine (h.quiet u hu hwaits).imp_left fun hq => ?_
    exact (hq.later htimely).congr fun q _ => Table.alive_filter
  · intro u hu n hn
    have hkept : ∀ q, s.asked.alive now q = true → (s.asked.retain now q).isSome = true := by
      intro q hq
      obtain ⟨a, ha, hlive⟩ := Table.alive_iff.mp hq
      simp [Table.retain, ha, Option.filter, hlive]
    obtain ⟨f, hf, halive⟩ := hused u hu (by rw [hn]; rfl)
    simp only [Hall.sweep, Option.filter_eq_some_iff]
    refine ⟨h.bound u hu n hn, List.any_eq_true.mpr ⟨f, hf, ?_⟩⟩
    rw [Bool.or_eq_true]
    cases pairOf_cases u.key with
    | inl hpair =>
      rw [hpair]
      exact halive.imp (hkept _) (hkept _)
    | inr hpair =>
      rw [hpair]
      exact halive.symm.imp (hkept _) (hkept _)

structure Sound (s : Hall) : Prop where
  records : Records s
  waits : Waits s

theorem Sound.later (h : Sound s) (htimely : s.clock ≤ now) : Sound { s with clock := now } :=
  ⟨h.records.dropped (fun _ _ ha => ha) rfl rfl htimely, h.waits.later rfl rfl rfl htimely⟩

theorem Records.tell_now (h : Records s) (htimely : s.clock ≤ now) {answer : Introduced}
    (hdiscloses : Discloses s.asked now k answer) :
    Records { s.tell k answer with clock := now } :=
  (h.tell hdiscloses).dropped (fun _ _ ha => ha) rfl rfl (by simpa using htimely)

theorem Sound.asked (h : Sound s) {asker peer : PubKey} (htimely : s.clock ≤ now)
    (hproper : Proper s ⟨now, .ask asker addr peer wait⟩) :
    Sound (step s ⟨now, .ask asker addr peer wait⟩) := by
  let k : Key := ⟨asker, peer, .of (canonical addr)⟩
  let answer := (s.asked.record now k (canonical addr)).2
  let s' := s.asking now k (canonical addr) (Hall.begun answer wait)
  have hstep : step s ⟨now, .ask asker addr peer wait⟩ = s'.tell k answer := by
    simp only [step, Hall.ask, Hall.tell, s', answer, k, Hall.asking]
    split <;> rfl
  have hrecords : Records s' := h.records.asking htimely fun hne => (hproper hne).1
  have hwaits : Waits s' := h.waits.asking h.records htimely fun hne => (hproper hne).2
  have hdiscloses : Discloses s'.asked now k answer := by
    by_cases hne : k.asker = k.peer
    · intro hready
      simp [answer, Table.record, hne, Introduced.waiting] at hready
    · exact discloses_record hne s.asked
  rw [hstep]
  exact ⟨hrecords.tell hdiscloses, hwaits.later (by simp) (by simp) (by simp) (by simp)⟩

theorem Sound.told (h : Sound s) (ht : s.tasks[i]? = some t) (hfree : t.stage.notifies = false)
    {stage : Stage} (htimely : s.clock ≤ now)
    (hquiet : stage.waits = true → (s.asked.poll now t.key).answer = .waiting)
    (hbound : ∀ n ∈ stage.notify, n ∈ t.stage.notify) :
    Sound { (s.move i t stage).tell t.key (s.asked.poll now t.key) with clock := now } := by
  refine ⟨?_, ?_⟩
  · have hmoved : Records (s.move i t stage) :=
      h.records.dropped (fun _ _ ha => ha) rfl rfl (Nat.le_refl _)
    exact hmoved.tell_now htimely (discloses_poll h.records now t.key)
  · refine h.waits.moved ht hfree (by simp [Hall.move]) (fun p n hn => by simpa [Hall.move] using hn)
      (by simp [Hall.move]; rfl) htimely (fun hwaits => ?_) fun n hn => ?_
    · exact .inr (Table.poll_waiting_iff.mp (hquiet hwaits))
    · simpa [Hall.move] using h.waits.bound t (List.mem_of_getElem? ht) n (hbound n hn)

theorem Sound.ran (h : Sound s) (ht : s.tasks[i]? = some t) (htimely : s.clock ≤ now)
    (hproper : t.stage.notifies = true →
      ∀ u ∈ s.tasks, pairOf u.key = pairOf t.key → u.stage.between = false) :
    Sound { s.run now i t with clock := now } := by
  cases hstage : t.stage with
  | notifying first =>
    refine ⟨?_, h.waits.notified ht hstage htimely (hproper (by rw [hstage]; rfl))⟩
    refine h.records.dropped ?_ ?_ ?_ htimely <;> simp [Hall.run, hstage, Hall.move]
  | recorded =>
    have hrun : s.run now i t = (s.notifier (pairOf t.key)).2.move i t
        (.holding (s.notifier (pairOf t.key)).1) := by simp [Hall.run, hstage]
    rw [hrun]
    refine ⟨?_, ?_⟩
    · refine h.records.dropped ?_ ?_ ?_ htimely <;> simp [Hall.move]
    · refine h.waits.moved ht (by rw [hstage]; rfl) (by simp [Hall.move])
        (fun p n hn => notifier_kept s _ hn) (by simp [Hall.move]; rfl) htimely
        (fun _ => .inl (by rw [hstage]; rfl)) fun n hn => ?_
      cases hn
      exact notifier_self s _
  | holding n =>
    have hrun : s.run now i t = s.move i t (.parked n) := by simp [Hall.run, hstage]
    rw [hrun]
    refine ⟨h.records.dropped (fun _ _ ha => ha) rfl rfl htimely, ?_⟩
    refine h.waits.moved ht (by rw [hstage]; rfl) rfl (fun _ _ hn => hn) rfl htimely
      (fun _ => .inl (by rw [hstage]; rfl)) fun m hm => ?_
    exact h.waits.bound t (List.mem_of_getElem? ht) m (by rw [hstage]; exact hm)
  | parked n =>
    have hrun : s.run now i t = s := by simp [Hall.run, hstage]
    rw [hrun]
    exact h.later htimely
  | woken n =>
    have hrun : s.run now i t = s.polled now i t n := by simp [Hall.run, hstage]
    rw [hrun]
    refine h.told ht (by rw [hstage]; rfl) htimely ?_ ?_
    · intro hwaits
      by_contra hanswer
      simp [hanswer, Stage.waits] at hwaits
    · intro m hm
      rw [hstage]
      split at hm
      · exact hm
      · cases hm
  | done answer =>
    have hrun : s.run now i t = s := by simp [Hall.run, hstage]
    rw [hrun]
    exact h.later htimely

theorem Sound.deadline (h : Sound s) (ht : s.tasks[i]? = some t) (htimely : s.clock ≤ now) :
    Sound { s.deadline now i t with clock := now } := by
  cases hstage : t.stage with
  | parked n =>
    have hdeadline : s.deadline now i t = (s.move i t (.done (s.asked.poll now t.key))).tell t.key
        (s.asked.poll now t.key) := by simp [Hall.deadline, hstage]
    rw [hdeadline]
    exact h.told ht (by rw [hstage]; rfl) htimely (fun hwaits => by cases hwaits)
      fun m hm => by cases hm
  | _ =>
    have hdeadline : s.deadline now i t = s := by simp [Hall.deadline, hstage]
    rw [hdeadline]
    exact h.later htimely

theorem Sound.step {turn : Turn} (h : Sound s) (htimely : Timely s turn)
    (hproper : Proper s turn) : Sound (step s turn) := by
  obtain ⟨now, move⟩ := turn
  cases move with
  | ask asker addr peer wait => exact h.asked htimely hproper
  | poll asker peer family =>
    exact ⟨h.records.tell_now htimely (discloses_poll h.records now _),
      h.waits.later (by simp [Rendezvous.step]) (by simp [Rendezvous.step])
        (by simp [Rendezvous.step]) htimely⟩
  | run i =>
    simp only [Rendezvous.step]
    cases ht : s.tasks[i]? with
    | none => exact h.later htimely
    | some t => exact h.ran ht htimely (hproper t ht)
  | deadline i =>
    simp only [Rendezvous.step]
    cases ht : s.tasks[i]? with
    | none => exact h.later htimely
    | some t => exact h.deadline ht htimely
  | sweep =>
    refine ⟨h.records.dropped ?_ rfl rfl htimely, h.waits.swept htimely hproper⟩
    intro k a ha
    exact (Option.filter_eq_some_iff.mp ha).1

theorem Sound.mutual (h : Sound s) : Mutual s where
  told := h.records.told
  together := h.records.together
  answered t ht n hparked := by
    have hquiet := h.waits.quiet t ht (by rw [hparked]; rfl)
    rwa [Table.poll_waiting_iff]

theorem introductions_mutual (turns : List Turn) (htimely : Each Timely step .new turns)
    (hproper : Each Proper step .new turns) : Always Mutual step .new turns := by
  have hkeep : ∀ s turn, Sound s → Timely s turn ∧ Proper s turn → Sound (step s turn) :=
    fun _ _ h hok => h.step hok.1 hok.2
  exact ((htimely.and hproper).always hkeep ⟨records_new, waits_new⟩).imp fun _ h => h.mutual

def here : SocketAddr := ⟨.v4 7, 5400⟩
def there : SocketAddr := ⟨.v4 8, 5401⟩

/-- One side waits, the other asks a while later, and both are told. -/
def meeting : List Turn :=
  [⟨0, .ask 1 here 2 (some 30)⟩, ⟨0, .run 0⟩, ⟨0, .run 0⟩, ⟨5, .sweep⟩, ⟨10, .ask 2 there 1 (some 30)⟩,
    ⟨10, .run 1⟩, ⟨11, .run 0⟩]

theorem introductions_mutual_meeting : Always Mutual step .new meeting :=
  introductions_mutual meeting (by decide +kernel) (by decide +kernel)

/-- One side asks again once the start it was given is past. -/
def again : List Turn :=
  [⟨0, .ask 1 here 2 none⟩, ⟨10, .ask 2 there 1 none⟩, ⟨20, .ask 1 here 2 none⟩]

def missed : List Turn :=
  [⟨0, .ask 1 here 2 (some 30)⟩, ⟨1, .ask 2 there 1 none⟩, ⟨1, .run 1⟩, ⟨1, .run 0⟩, ⟨1, .run 0⟩]

theorem stale_and_missed :
    ¬ Always Mutual step .new again ∧ ¬ Always Mutual step .new missed := by
  constructor
  · intro h
    have hfair := (always_iff_prefixes.mp h again List.prefix_rfl).told
    have hstart : ∀ x ∈ (run step .new again).told, ∀ m ∈ x.mine, m.arrived ≤ x.startAt := by
      intro x hx m hm
      obtain ⟨m', r, hm', -, -, -, -, -, hle, -⟩ := hfair x hx
      rwa [Option.some.inj (hm.symm.trans hm')]
    revert hstart
    decide +kernel
  · intro h
    have hend := always_iff_prefixes.mp h missed List.prefix_rfl
    have hanswered := hend.answered ⟨⟨1, 2, .v4⟩, .parked 0⟩ (by decide +kernel) 0 rfl
    revert hanswered
    decide +kernel

end Sqex.Rendezvous
