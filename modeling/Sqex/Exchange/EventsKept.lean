import Sqex.Exchange.EventStreams

/-! Every event stream over any interleaving: nothing published is lost without a resync, and
the registry is who is subscribed. -/
namespace Sqex.Events
open Std Runs
variable {ε : Type}

theorem countP_set {α : Type} {p : α → Bool} {xs : List α} {i : Nat} {x : α} (h : xs[i]? = some x)
    (y : α) : (xs.set i y).countP p + (if p x then 1 else 0) =
      xs.countP p + (if p y then 1 else 0) := by
  induction xs generalizing i with
  | nil => simp at h
  | cons z xs ih =>
    cases i with
    | zero =>
      simp only [List.getElem?_cons_zero, Option.some.injEq] at h
      subst h
      simp only [List.set_cons_zero, List.countP_cons]
      omega
    | succ i =>
      have htail := ih (by simpa using h)
      simp only [List.set_cons_succ, List.countP_cons]
      omega

theorem map_set_same {α β : Type} {f : α → β} {xs : List α} {i : Nat} {x y : α}
    (h : xs[i]? = some x) (hsame : f y = f x) : (xs.set i y).map f = xs.map f := by
  refine List.ext_getElem? fun j => ?_
  simp only [List.getElem?_map]
  by_cases hj : i = j
  · subst hj
    have hlt := (List.getElem?_eq_some_iff.mp h).1
    simp [List.getElem?_set_self hlt, h, hsame]
  · rw [List.getElem?_set_ne hj]

/-- The event a publisher has on its way into a stream. -/
def Walk.into (w : Walk ε) : Option Nat := if w.hop = .visit then none else w.todo.head?

/-- The streams a publication under way has not come to. -/
def Walk.unvisited (w : Walk ε) : List Nat := if w.hop = .visit then w.todo else w.todo.tail

/-- What an input publishes to a stream: its event, as often as it names who is subscribed. -/
def Input.reaches (x : Stream ε) : Input ε → List ε
  | .publish recipients event =>
    if x.subscribed then List.replicate (recipients.count x.who) event else []
  | .publishToDevice who device event =>
    if x.subscribed ∧ x.who = who ∧ x.device = device then [event] else []
  | .subscribe .. | .unsubscribe _ | .hop | .pump .. => []

namespace Subscribers

section
variable (s : Subscribers ε) (id : Nat) (x : Stream ε)

/-- What an input publishes to the stream of a number. One that finds the lock taken waits. -/
def publishes (input : Input ε) : List ε :=
  if s.walk.isSome then [] else ((s.streams[id]?).map input.reaches).getD []

/-- All that inputs publish to the stream of a number. -/
def publishedTo (id : Nat) (s : Subscribers ε) : List (Input ε) → List ε
  | [] => []
  | input :: inputs => s.publishes id input ++ publishedTo id (step s input) inputs

/-- What a publication under way has still to hand to a stream. -/
def onItsWay : List ε :=
  (s.walk.map fun w => List.replicate (w.unvisited.count id) w.event).getD []

/-- How many events of a stream have found their place. -/
def known : Nat :=
  if s.walk.bind Walk.into = some id then x.sent.length - 1 else x.sent.length

structure Delivered : Prop where
  ordered : x.written.Pairwise Before
  truth : ∀ p, .event p ∈ x.written → x.sent[p.number]? = some p.event
  kept : x.stage ≠ .ended → ∀ n < x.sent.length, x.Accounted n ∨ x.Coming n ∨
    (s.walk.bind Walk.into = some id ∧ n + 1 = x.sent.length)
  bounded : x.queue.length ≤ queueMax

def Settles : Prop :=
  x.stage ≠ .ended → ∃ later : List (Input ε),
    (∀ i ∈ later, i = .hop ∨ i = .pump id .go ∨ i = .pump id .beat) ∧
      ∃ y, (run step s later).streams[id]? = some y ∧ y.sent = x.sent ++ s.onItsWay id ∧
        ∀ n < y.sent.length, y.Accounted n

structure Kept : Prop where
  delivered : ∀ id x, s.streams[id]? = some x → s.Delivered id x
  settles : ∀ id x, s.streams[id]? = some x → s.Settles id x
  listening : ∀ device, s.listening device = true ↔
    ∃ x ∈ s.streams, x.subscribed = true ∧ x.device = device
  capped : ∀ who, s.streams.countP (fun x => x.subscribed && x.who = who) ≤ maxPerIdentity

structure Registered : Prop where
  listed : ∀ who (sub : Sub), sub ∈ s.subs who ↔ ∃ x, s.streams[sub.id]? = some x ∧
    x.subscribed = true ∧ x.who = who ∧ x.device = sub.device
  distinct : ∀ who, ((s.subs who).map Sub.id).Nodup
  counted : ∀ who, (s.subs who).length = s.streams.countP fun x => x.subscribed && x.who = who
  capped : ∀ who, (s.subs who).length ≤ maxPerIdentity
  devices : ∀ device : PubKey, s.byDevice[device]?.getD 0 =
    s.streams.countP fun x => x.subscribed && x.device = device

end

variable {s s' : Subscribers ε} {x : Stream ε} {id : Nat} {who device : PubKey}

theorem subs_insert (m : ExtTreeMap PubKey (List Sub)) (a b : PubKey) (l : List Sub) :
    (m.insert a l)[b]?.getD [] = if a = b then l else m[b]?.getD [] := by
  rw [lookup_insert]
  split <;> rfl

theorem registered_new : Registered (new : Subscribers ε) := by
  refine ⟨?_, ?_, ?_, ?_, ?_⟩ <;> simp [new, subs]

def facts (x : Stream ε) : Bool × PubKey × PubKey := (x.subscribed, x.who, x.device)

theorem Registered.same (h : Registered s) (hsubs : ∀ who, s'.subs who = s.subs who)
    (hdevice : s'.byDevice = s.byDevice) (hfacts : s'.streams.map facts = s.streams.map facts) :
    Registered s' := by
  have hcount : ∀ p : Bool × PubKey × PubKey → Bool,
      s'.streams.countP (p ∘ facts) = s.streams.countP (p ∘ facts) := by
    intro p
    rw [← List.countP_map, ← List.countP_map, hfacts]
  have hget : ∀ i : Nat, (s'.streams[i]?).map facts = (s.streams[i]?).map facts := by
    intro i
    rw [← List.getElem?_map, ← List.getElem?_map, hfacts]
  refine ⟨?_, ?_, ?_, ?_, ?_⟩
  · intro who sub
    rw [hsubs, h.listed]
    have hsome : ∀ l : Option (Stream ε), (∃ x, l = some x ∧ x.subscribed = true ∧ x.who = who ∧
        x.device = sub.device) ↔ l.map facts = some (true, who, sub.device) := by
      intro l
      cases l with
      | none => simp
      | some x => simp [facts]
    rw [hsome, hsome, hget]
  · simpa only [hsubs] using h.distinct
  · intro who
    rw [hsubs, h.counted]
    exact (hcount fun f => f.1 && f.2.1 = who).symm
  · simpa only [hsubs] using h.capped
  · intro device
    rw [hdevice, h.devices]
    exact (hcount fun f => f.1 && f.2.2 = device).symm

theorem getElem?_concat_iff {α : Type} {xs : List α} {a b : α} {i : Nat} :
    (xs ++ [a])[i]? = some b ↔ xs[i]? = some b ∨ (i = xs.length ∧ b = a) := by
  by_cases hi : i < xs.length
  · rw [List.getElem?_append_left hi]
    simp [Nat.ne_of_lt hi]
  · rw [List.getElem?_append_right (Nat.le_of_not_lt hi), List.getElem?_eq_none (Nat.le_of_not_lt hi)]
    by_cases heq : i = xs.length
    · simp [heq, eq_comm]
    · have hlt : xs.length < i := by omega
      simp [heq, Nat.sub_ne_zero_of_lt hlt]

theorem Registered.id_lt (h : Registered s) {sub : Sub} (hsub : sub ∈ s.subs who) :
    sub.id < s.streams.length := by
  obtain ⟨x, hx, -⟩ := (h.listed who sub).mp hsub
  exact (List.getElem?_eq_some_iff.mp hx).1

theorem Registered.subscribe (h : Registered s) : Registered (s.subscribe who device) := by
  unfold Subscribers.subscribe
  by_cases hfull : maxPerIdentity ≤ (s.subs who).length
  · simp only [if_pos hfull]
    refine h.same (fun a => ?_) rfl rfl
    rw [subs, subs_insert]
    split
    · next heq => rw [heq]
    · rfl
  · simp only [if_neg hfull]
    have hsubs : ∀ a, subs { s with
        byDevice := s.byDevice.insert device (s.byDevice[device]?.getD 0 + 1)
        byIdentity := s.byIdentity.insert who (s.subs who ++ [⟨s.streams.length, device⟩])
        streams := s.streams ++ [.fresh who device] } a =
          if who = a then s.subs who ++ [⟨s.streams.length, device⟩] else s.subs a := fun a => by
      rw [subs, subs_insert]
      rfl
    refine ⟨?_, ?_, ?_, ?_, ?_⟩
    · intro a sub
      rw [hsubs]
      simp only [getElem?_concat_iff]
      by_cases ha : who = a
      · subst ha
        rw [if_pos rfl, List.mem_append, List.mem_singleton, h.listed]
        constructor
        · rintro (⟨x, hx, hfacts⟩ | rfl)
          · exact ⟨x, .inl hx, hfacts⟩
          · exact ⟨_, .inr ⟨rfl, rfl⟩, rfl, rfl, rfl⟩
        · rintro ⟨x, hx | ⟨hid, rfl⟩, hsubscribed, hwho, hdevice⟩
          · exact .inl ⟨x, hx, hsubscribed, hwho, hdevice⟩
          · right
            obtain ⟨id, device'⟩ := sub
            simp only at hid hdevice
            rw [hid, ← hdevice]
            rfl
      · rw [if_neg ha, h.listed]
        constructor
        · rintro ⟨x, hx, hfacts⟩
          exact ⟨x, .inl hx, hfacts⟩
        · rintro ⟨x, hx | ⟨-, rfl⟩, hsubscribed, hwho, hdevice⟩
          · exact ⟨x, hx, hsubscribed, hwho, hdevice⟩
          · exact absurd hwho ha
    · intro a
      rw [hsubs]
      split
      · rw [List.map_append, List.nodup_append]
        refine ⟨h.distinct who, by simp, ?_⟩
        simp only [List.mem_map, List.map_cons, List.map_nil, List.mem_singleton]
        rintro _ ⟨sub, hsub, rfl⟩ _ rfl
        exact Nat.ne_of_lt (h.id_lt hsub)
      · exact h.distinct a
    · intro a
      rw [hsubs, List.countP_append, ← h.counted a]
      split
      · next ha => subst ha; simp [Stream.fresh]
      · next ha => simp [Stream.fresh, ha]
    · intro a
      rw [hsubs]
      split
      · rw [List.length_append, List.length_singleton]
        omega
      · exact h.capped a
    · intro a
      rw [lookup_insert, List.countP_append, ← h.devices a]
      split
      · next ha => subst ha; simp [Stream.fresh]
      · next ha => simp [Stream.fresh, ha]

theorem leave_getD (m : ExtTreeMap PubKey Nat) (a b : PubKey) :
    (leave m a)[b]?.getD 0 = if a = b then m[b]?.getD 0 - 1 else m[b]?.getD 0 := by
  unfold leave
  by_cases hab : a = b
  · subst hab
    cases hm : m[a]? with
    | none => simp [hm]
    | some n =>
      rw [if_pos rfl]
      simp only
      split
      · next hlast =>
        rw [lookup_erase, if_pos rfl]
        simp only [Option.getD_none, Option.getD_some]
        omega
      · rw [lookup_insert, if_pos rfl]
        rfl
  · rw [if_neg hab]
    cases m[a]? with
    | none => rfl
    | some n =>
      simp only
      split
      · rw [lookup_erase, if_neg hab]
      · rw [lookup_insert, if_neg hab]

theorem subs_unsubscribe (who : PubKey) : (s.unsubscribe id x).subs who =
    if x.who = who then (s.subs who).filter (·.id ≠ id) else s.subs who := by
  unfold Subscribers.unsubscribe
  by_cases hwho : x.who = who
  · subst hwho
    rw [if_pos rfl]
    cases hsubs : s.byIdentity[x.who]? with
    | none => simp [subs, hsubs]
    | some l =>
      have hl : s.subs x.who = l := by simp [subs, hsubs]
      simp only [hl]
      by_cases hempty : (l.filter (·.id ≠ id)).isEmpty = true
      · simp only [subs, hempty, if_true, lookup_erase, Option.getD_none]
        exact (List.isEmpty_iff.mp hempty).symm
      · simp only [subs, hempty, Bool.false_eq_true, if_false]
        rw [subs_insert, if_pos rfl]
  · rw [if_neg hwho]
    cases s.byIdentity[x.who]? with
    | none => rfl
    | some l =>
      simp only [subs]
      split
      · rw [lookup_erase, if_neg hwho]
      · rw [subs_insert, if_neg hwho]

theorem Registered.mem_iff (h : Registered s) (hx : s.streams[id]? = some x) :
    (∃ sub ∈ s.subs x.who, sub.id = id) ↔ x.subscribed = true := by
  constructor
  · rintro ⟨sub, hsub, rfl⟩
    obtain ⟨y, hy, hsubscribed, -⟩ := (h.listed x.who sub).mp hsub
    rwa [Option.some.inj (hx.symm.trans hy)]
  · intro hsubscribed
    exact ⟨⟨id, x.device⟩, (h.listed _ _).mpr ⟨x, hx, hsubscribed, rfl, rfl⟩, rfl⟩

theorem length_filter_id {l : List Sub} (h : (l.map Sub.id).Nodup) (id : Nat) :
    (l.filter (·.id ≠ id)).length + (if ∃ sub ∈ l, sub.id = id then 1 else 0) = l.length := by
  induction l with
  | nil => simp
  | cons sub l ih =>
    simp only [List.map_cons, List.nodup_cons, List.mem_map, not_exists, not_and] at h
    have htail := ih h.2
    by_cases hid : sub.id = id
    · have hnone : ¬ ∃ other ∈ l, other.id = id := by
        rintro ⟨other, hother, heq⟩
        exact h.1 other hother (heq.trans hid.symm)
      rw [if_neg hnone] at htail
      rw [List.filter_cons_of_neg (by simpa using hid), if_pos ⟨sub, by simp, hid⟩]
      simp only [List.length_cons]
      omega
    · rw [List.filter_cons_of_pos (by simpa using hid)]
      simp only [List.length_cons, List.mem_cons, exists_eq_or_imp, hid, false_or]
      omega

theorem Registered.unsubscribe (h : Registered s) (hx : s.streams[id]? = some x) :
    Registered (s.unsubscribe id x) := by
  have hlength := length_filter_id (h.distinct x.who) id
  simp only [h.mem_iff hx] at hlength
  cases hmine : s.byIdentity[x.who]? with
  | none =>
    have hnothing : s.unsubscribe id x = s := by simp [Subscribers.unsubscribe, hmine]
    rwa [hnothing]
  | some l =>
    have hl : s.subs x.who = l := by simp [subs, hmine]
    rw [hl] at hlength
    have hstreams : (s.unsubscribe id x).streams =
        s.streams.set id { x with subscribed := false } := by
      simp [Subscribers.unsubscribe, hmine]
    have hdevices : (s.unsubscribe id x).byDevice = if (l.filter (·.id ≠ id)).length < l.length
        then leave s.byDevice x.device else s.byDevice := by
      simp only [Subscribers.unsubscribe, hmine]
    by_cases hsubscribed : x.subscribed = true
    · rw [if_pos hsubscribed] at hlength
      have hlt : (l.filter (·.id ≠ id)).length < l.length := by omega
      have hcount : ∀ p : Stream ε → Bool, p { x with subscribed := false } = false →
          (s.unsubscribe id x).streams.countP p + (if p x then 1 else 0) = s.streams.countP p := by
        intro p hp
        have hset := countP_set hx (p := p) { x with subscribed := false }
        rw [hp] at hset
        rw [hstreams]
        simpa using hset
      refine ⟨?_, ?_, ?_, ?_, ?_⟩
      · intro who sub
        rw [subs_unsubscribe, hstreams]
        by_cases hid : sub.id = id
        · have hset : (s.streams.set id { x with subscribed := false })[sub.id]? =
              some { x with subscribed := false } := by
            rw [hid, List.getElem?_set_self (List.getElem?_eq_some_iff.mp hx).1]
          rw [hset]
          constructor
          · intro hsub
            split at hsub
            · simp [hid] at hsub
            · next hother =>
              obtain ⟨y, hy, -, hwho, -⟩ := (h.listed who sub).mp hsub
              rw [hid, hx] at hy
              exact absurd (by rw [Option.some.inj hy, hwho]) hother
          · rintro ⟨y, hy, hyes, -⟩
            rw [← Option.some.inj hy] at hyes
            cases hyes
        · rw [List.getElem?_set_ne (Ne.symm hid), ← h.listed]
          split
          · simp [hid]
          · rfl
      · intro who
        rw [subs_unsubscribe]
        split
        · exact (h.distinct who).sublist (List.filter_sublist.map _)
        · exact h.distinct who
      · intro who
        have hleft := hcount (fun y => y.subscribed && y.who = who) rfl
        rw [← h.counted who] at hleft
        rw [subs_unsubscribe]
        split
        · next hwho =>
          subst hwho
          simp only [hsubscribed, Bool.true_and, decide_true, if_true] at hleft
          rw [hl] at hleft ⊢
          omega
        · next hwho =>
          simp only [hsubscribed, Bool.true_and, decide_eq_true_eq, if_neg hwho] at hleft
          omega
      · intro who
        rw [subs_unsubscribe]
        split
        · exact (List.length_filter_le _ _).trans (h.capped who)
        · exact h.capped who
      · intro device
        have hleft := hcount (fun y => y.subscribed && y.device = device) rfl
        rw [← h.devices device] at hleft
        rw [hdevices, if_pos hlt, leave_getD]
        split
        · next hdevice =>
          subst hdevice
          simp only [hsubscribed, Bool.true_and, decide_true, if_true] at hleft
          omega
        · next hdevice =>
          simp only [hsubscribed, Bool.true_and, decide_eq_true_eq, if_neg hdevice] at hleft
          omega
    · rw [if_neg hsubscribed] at hlength
      have hall : l.filter (·.id ≠ id) = l := List.filter_sublist.eq_of_length (by omega)
      refine h.same (fun who => ?_) ?_ ?_
      · rw [subs_unsubscribe]
        split
        · next hwho => rw [← hwho, hl, hall]
        · rfl
      · rw [hdevices, if_neg (by rw [hall]; exact Nat.lt_irrefl _)]
      · rw [hstreams]
        refine map_set_same hx ?_
        simp only [facts, Prod.mk.injEq, and_true]
        simpa using hsubscribed

structure Sound (s : Subscribers ε) : Prop where
  registered : Registered s
  fits : ∀ id (x : Stream ε), s.streams[id]? = some x → x.Fit (s.known id x)
  -- what is on its way into a stream is the last event published to it
  flying : ∀ w, s.walk = some w → ∀ id, w.into = some id → ∀ x : Stream ε,
    s.streams[id]? = some x → x.sent.getLast? = some w.event

theorem sound_new : Sound (new : Subscribers ε) :=
  ⟨registered_new, by simp [new], by simp [new]⟩

theorem known_free (h : s.walk.bind Walk.into = none) : s.known id x = x.sent.length := by
  simp [known, h]

theorem Sound.fit_free (h : Sound s) (hinto : s.walk.bind Walk.into = none)
    (hx : s.streams[id]? = some x) : x.Fit x.sent.length := by
  rw [← known_free hinto]
  exact h.fits id x hx

theorem Sound.changed {y : Stream ε} (h : Sound s) (hx : s.streams[id]? = some x)
    (hidentity : s'.byIdentity = s.byIdentity) (hdevice : s'.byDevice = s.byDevice)
    (hstreams : s'.streams = s.streams.set id y) (hfacts : facts y = facts x)
    (hfit : y.Fit (s'.known id y))
    (hothers : ∀ i z, i ≠ id → s'.known i z = s.known i z)
    (hflying : ∀ w, s'.walk = some w → ∀ i, w.into = some i → ∀ z : Stream ε,
      s'.streams[i]? = some z → z.sent.getLast? = some w.event) : Sound s' := by
  have hlt := (List.getElem?_eq_some_iff.mp hx).1
  refine ⟨?_, ?_, hflying⟩
  · refine h.registered.same (fun who => by rw [subs, hidentity]; rfl) hdevice ?_
    rw [hstreams, map_set_same hx hfacts]
  · intro i z hz
    rw [hstreams] at hz
    by_cases hi : i = id
    · subst hi
      rw [List.getElem?_set_self hlt] at hz
      exact Option.some.inj hz ▸ hfit
    · rw [List.getElem?_set_ne (Ne.symm hi)] at hz
      rw [hothers i z hi]
      exact h.fits i z hz

/-- What one step of a publisher under way can do. -/
inductive Hopped (s : Subscribers ε) (w : Walk ε) : Subscribers ε → Prop
  | out : w.todo = [] → Hopped s w { s with walk := none }
  | gone {id rest} : w.todo = id :: rest → s.streams[id]? = none →
    Hopped s w { s with walk := some (w.next rest w.count) }
  | passed {id rest x} : w.todo = id :: rest → s.streams[id]? = some x → w.hop = .visit →
    x.behind.isSome = true → Hopped s w { s with
      streams := s.streams.set id (x.visit w.event), walk := some (w.next rest w.count) }
  | visited {id rest x} : w.todo = id :: rest → s.streams[id]? = some x → w.hop = .visit →
    Hopped s w { s with
      streams := s.streams.set id (x.visit w.event), walk := some { w with hop := .send } }
  | pushed {id rest x} : w.todo = id :: rest → s.streams[id]? = some x → w.hop = .send →
    x.queue.length < queueMax → Hopped s w { s with
      streams := s.streams.set id (x.push w.event), walk := some (w.next rest (w.count + 1)) }
  | full : w.hop = .send → Hopped s w { s with walk := some { w with hop := .mark } }
  | marked {id rest x} : w.todo = id :: rest → s.streams[id]? = some x → w.hop = .mark →
    Hopped s w { s with
      streams := s.streams.set id x.fallBehind, walk := some (w.next rest w.count) }

theorem hopped (s : Subscribers ε) (w : Walk ε) : Hopped s w (s.hop w) := by
  unfold Subscribers.hop
  split
  · next htodo => exact .out htodo
  · next id rest htodo =>
    split
    · next hx => exact .gone htodo hx
    · next x hx =>
      split
      · next hhop =>
        split
        · next hbehind => exact .passed htodo hx hhop hbehind
        · exact .visited htodo hx hhop
      · next hhop =>
        split
        · next hroom => exact .pushed htodo hx hhop hroom
        · exact .full hhop
      · next hhop => exact .marked htodo hx hhop

theorem Walk.into_cons {w : Walk ε} {rest : List Nat} (htodo : w.todo = id :: rest) :
    w.into = if w.hop = .visit then none else some id := by
  simp [Walk.into, htodo]

theorem Sound.flown (h : Sound s) {w : Walk ε} (hw : s.walk = some w) (hnow : w.into = some id)
    (hx : s.streams[id]? = some x) :
    x.sent[x.sent.length - 1]? = some w.event ∧ 0 < x.sent.length ∧ x.Fit (x.sent.length - 1) := by
  have hlast := h.flying w hw id hnow x hx
  have hfit := h.fits id x hx
  have hsome : x.sent ≠ [] := by
    rintro hnil
    simp [hnil] at hlast
  have hsent : s.known id x = x.sent.length - 1 := by simp [known, hw, hnow]
  exact ⟨List.getLast?_eq_getElem? ▸ hlast, List.length_pos_iff.mpr hsome, hsent ▸ hfit⟩

theorem Sound.hop (h : Sound s) {w : Walk ε} (hw : s.walk = some w) : Sound (s.hop w) := by
  have hinto : ∀ rest count, (w.next rest count).into = none := fun rest count => rfl
  have hknown : ∀ {id rest}, w.todo = id :: rest → ∀ i (z : Stream ε), i ≠ id →
      s.known i z = z.sent.length := by
    intro id rest htodo i z hi
    have hother : w.into ≠ some i := by
      rw [Walk.into_cons htodo]
      split
      · simp
      · simpa using hi.symm
    simp [known, hw, hother]
  have hvisit : ∀ {id : Nat} {x : Stream ε}, s.streams[id]? = some x → w.hop = .visit → x.Fit x.sent.length := by
    intro id x hx hhop
    exact h.fit_free (by simp [hw, Walk.into, hhop]) hx
  have hflown : ∀ {id : Nat} {rest} {x : Stream ε}, w.todo = id :: rest → s.streams[id]? = some x → w.hop ≠ .visit →
      x.sent[x.sent.length - 1]? = some w.event ∧ 0 < x.sent.length ∧ x.Fit (x.sent.length - 1) :=
    fun htodo hx hhop => h.flown hw (by rw [Walk.into_cons htodo, if_neg hhop]) hx
  have hopped := s.hopped w
  generalize s.hop w = s' at hopped
  cases hopped with
  | out htodo =>
    refine ⟨h.registered.same (fun _ => rfl) rfl rfl, fun id x hx => ?_, by simp⟩
    rw [known_free rfl]
    exact h.fit_free (by simp [hw, Walk.into, htodo]) hx
  | @gone id rest htodo hx =>
    refine ⟨h.registered.same (fun _ => rfl) rfl rfl, fun i z hz => ?_, by simp [hinto]⟩
    have hi : i ≠ id := by
      rintro rfl
      simp [hx] at hz
    have hfit := h.fits i z hz
    rw [hknown htodo i z hi] at hfit
    rwa [known_free (by simp [hinto])]
  | passed htodo hx hhop hbehind =>
    refine h.changed hx rfl rfl rfl rfl ?_ (fun i z hi => ?_) (by simp [hinto])
    · rw [known_free (by simp [hinto])]
      exact ((hvisit hx hhop).visit w.event).skipped hbehind (by simp [Stream.visit])
        (Nat.le_refl _)
    · rw [hknown htodo i z hi, known_free (by simp [hinto])]
  | @visited id rest x htodo hx hhop =>
    have hnow : ({ w with hop := .send } : Walk ε).into = some id := by
      simp [Walk.into, htodo]
    refine h.changed hx rfl rfl rfl rfl ?_ (fun i z hi => ?_) ?_
    · have hsent : known { s with
          streams := s.streams.set id (x.visit w.event)
          walk := some { w with hop := .send } } id (x.visit w.event) = x.sent.length := by
        simp [known, hnow, Stream.visit]
      rw [hsent]
      exact (hvisit hx hhop).visit w.event
    · rw [hknown htodo i z hi]
      simp [known, hnow, Ne.symm hi]
    · intro w' hw' i hi z hz
      cases hw'
      rw [hnow] at hi
      cases hi
      simp only [List.getElem?_set_self (List.getElem?_eq_some_iff.mp hx).1,
        Option.some.injEq] at hz
      subst hz
      simp [Stream.visit]
  | pushed htodo hx hhop hroom =>
    obtain ⟨hlast, hpos, hfit⟩ := hflown htodo hx (by simp [hhop])
    refine h.changed hx rfl rfl rfl rfl ?_ (fun i z hi => ?_) (by simp [hinto])
    · rw [known_free (by simp [hinto])]
      exact hfit.push (by omega) hlast hroom
    · rw [hknown htodo i z hi, known_free (by simp [hinto])]
  | full hhop =>
    have hsame : ({ w with hop := .mark } : Walk ε).into = w.into := by simp [Walk.into, hhop]
    refine ⟨h.registered.same (fun _ => rfl) rfl rfl, fun i z hz => ?_, ?_⟩
    · have hsent : known { s with walk := some { w with hop := .mark } } i z = s.known i z := by
        simp [known, hw, hsame]
      rw [hsent]
      exact h.fits i z hz
    · intro w' hw' i hi z hz
      cases hw'
      rw [hsame] at hi
      exact h.flying w hw i hi z hz
  | marked htodo hx hhop =>
    obtain ⟨-, hpos, hfit⟩ := hflown htodo hx (by simp [hhop])
    refine h.changed hx rfl rfl rfl rfl ?_ (fun i z hi => ?_) (by simp [hinto])
    · rw [known_free (by simp [hinto])]
      exact hfit.fallBehind (by omega)
    · rw [hknown htodo i z hi, known_free (by simp [hinto])]

theorem Sound.pumped (h : Sound s) (hx : s.streams[id]? = some x) (act : Stream.Act) :
    Sound { s with streams := s.streams.set id (x.pump act) } := by
  have hsent : (x.pump act).sent = x.sent := by
    unfold Stream.pump
    split <;> (try split) <;> (try split) <;> (try split) <;> rfl
  have hfacts : facts (x.pump act) = facts x := by
    unfold Stream.pump
    split <;> (try split) <;> (try split) <;> (try split) <;> rfl
  refine h.changed hx rfl rfl rfl hfacts ?_ (fun _ _ _ => rfl) ?_
  · have hknown : known { s with streams := s.streams.set id (x.pump act) } id (x.pump act) =
        s.known id x := by simp [known, hsent]
    rw [hknown]
    exact (h.fits id x hx).pump act
  · intro w hw i hi z hz
    by_cases heq : id = i
    · subst heq
      simp only [List.getElem?_set_self (List.getElem?_eq_some_iff.mp hx).1,
        Option.some.injEq] at hz
      rw [← hz, hsent]
      exact h.flying w hw id hi x hx
    · simp only [List.getElem?_set_ne heq] at hz
      exact h.flying w hw i hi z hz

theorem Sound.subscribe (h : Sound s) (hwalk : s.walk = none) :
    Sound (s.subscribe who device) := by
  refine ⟨h.registered.subscribe, ?_, ?_⟩
  · intro i z hz
    rw [known_free (by simp only [Subscribers.subscribe]; split <;> simp [hwalk])]
    simp only [Subscribers.subscribe] at hz
    split at hz
    · exact h.fit_free (by simp [hwalk]) hz
    · obtain hz | ⟨-, rfl⟩ := getElem?_concat_iff.mp hz
      · exact h.fit_free (by simp [hwalk]) hz
      · exact Stream.fit_fresh who device
  · intro w hw
    simp only [Subscribers.subscribe] at hw
    split at hw <;> simp [hwalk] at hw

theorem Sound.unsubscribe (h : Sound s) (hwalk : s.walk = none) (hx : s.streams[id]? = some x) :
    Sound (s.unsubscribe id x) := by
  have hwalk' : (s.unsubscribe id x).walk = none := by
    unfold Subscribers.unsubscribe
    split <;> exact hwalk
  refine ⟨h.registered.unsubscribe hx, ?_, by simp [hwalk']⟩
  intro i z hz
  rw [known_free (by simp [hwalk'])]
  unfold Subscribers.unsubscribe at hz
  split at hz
  · exact h.fit_free (by simp [hwalk]) hz
  · by_cases hi : id = i
    · subst hi
      simp only [List.getElem?_set_self (List.getElem?_eq_some_iff.mp hx).1,
        Option.some.injEq] at hz
      obtain ⟨hle, hline, hbelow, htruth, hmarked, hdrains, hcleared, hkept, hbounded⟩ := h.fit_free (by simp [hwalk]) hx
      subst hz
      exact ⟨hle, hline, hbelow, htruth, hmarked, hdrains, hcleared, hkept, hbounded⟩
    · simp only [List.getElem?_set_ne hi] at hz
      exact h.fit_free (by simp [hwalk]) hz

theorem Sound.begun (h : Sound s) (hwalk : s.walk = none) {w : Walk ε} (hvisit : w.hop = .visit) :
    Sound { s with walk := some w } := by
  have hinto : w.into = none := by simp [Walk.into, hvisit]
  refine ⟨h.registered.same (fun _ => rfl) rfl rfl, fun i z hz => ?_, by simp [hinto]⟩
  rw [known_free (by simp [hinto])]
  exact h.fit_free (by simp [hwalk]) hz

theorem Sound.step (h : Sound s) (input : Input ε) : Sound (step s input) := by
  cases input with
  | hop =>
    simp only [Events.step]
    cases hw : s.walk with
    | none => exact h
    | some w => exact h.hop hw
  | pump id act =>
    simp only [Events.step]
    cases hx : s.streams[id]? with
    | none => exact h
    | some x => exact h.pumped hx act
  | subscribe who device =>
    simp only [Events.step]
    split
    · exact h
    · next hfree => exact h.subscribe (by simpa using hfree)
  | unsubscribe id =>
    simp only [Events.step]
    split
    · exact h
    · next hfree =>
      cases hx : s.streams[id]? with
      | none => exact h
      | some x => exact h.unsubscribe (by simpa using hfree) hx
  | publish recipients event =>
    simp only [Events.step]
    split
    · exact h
    · next hfree => exact h.begun (by simpa using hfree) rfl
  | publishToDevice who device event =>
    simp only [Events.step]
    split
    · exact h
    · next hfree => exact h.begun (by simpa using hfree) rfl

/-! What was published to a stream is what was sent to it and what is on its way. -/

def sentOf (s : Subscribers ε) (id : Nat) : List ε :=
  ((s.streams[id]?).map fun x => x.sent ++ s.onItsWay id).getD []

theorem sentOf_eq (hx : s.streams[id]? = some x) : s.sentOf id = x.sent ++ s.onItsWay id := by
  simp [sentOf, hx]

theorem onItsWay_free (hwalk : s.walk = none) : s.onItsWay id = [] := by simp [onItsWay, hwalk]

theorem onItsWay_walk {w : Walk ε} (hwalk : s.walk = some w) :
    s.onItsWay id = List.replicate (w.unvisited.count id) w.event := by
  simp [onItsWay, hwalk]

theorem sentOf_same (hsent : (s'.streams[id]?).map Stream.sent = (s.streams[id]?).map Stream.sent)
    (hway : s'.onItsWay id = s.onItsWay id) : s'.sentOf id = s.sentOf id := by
  unfold sentOf
  rw [hway]
  cases hx : s.streams[id]? <;> cases hy : s'.streams[id]? <;> simp_all

theorem map_sent_set {i : Nat} {z y : Stream ε} (hz : s.streams[i]? = some z)
    (hsent : y.sent = z.sent) :
    ((s.streams.set i y)[id]?).map Stream.sent = (s.streams[id]?).map Stream.sent := by
  rw [← List.getElem?_map, map_set_same hz hsent, List.getElem?_map]

theorem sentOf_hop {w : Walk ε} (hw : s.walk = some w) : (s.hop w).sentOf id = s.sentOf id := by
  have hway : s.onItsWay id = List.replicate (w.unvisited.count id) w.event := onItsWay_walk hw
  -- at the visit the event is with the stream, and no more on its way there
  have hvisited : ∀ {i rest z} {t : Subscribers ε}, w.todo = i :: rest →
      s.streams[i]? = some z → w.hop = .visit → t.streams = s.streams.set i (z.visit w.event) →
      t.onItsWay id = List.replicate (rest.count id) w.event → t.sentOf id = s.sentOf id := by
    intro i rest z t htodo hz hhop hstreams hrest
    rw [Walk.unvisited, if_pos hhop, htodo] at hway
    by_cases hi : i = id
    · subst hi
      have ht : t.streams[i]? = some (z.visit w.event) := by
        rw [hstreams, List.getElem?_set_self (List.getElem?_eq_some_iff.mp hz).1]
      rw [sentOf_eq ht, sentOf_eq hz, hrest, hway, List.count_cons_self, List.replicate_succ]
      simp [Stream.visit]
    · refine sentOf_same ?_ ?_
      · rw [hstreams, List.getElem?_set_ne hi]
      · rw [hrest, hway, List.count_cons_of_ne hi]
  have hrest : ∀ {i rest}, w.todo = i :: rest → w.hop ≠ .visit → w.unvisited = rest := by
    intro i rest htodo hhop
    rw [Walk.unvisited, if_neg hhop, htodo, List.tail_cons]
  have hleft : ∀ {rest count} {t : Subscribers ε}, t.walk = some (w.next rest count) →
      t.onItsWay id = List.replicate (rest.count id) w.event := fun ht => onItsWay_walk ht
  have hopped := s.hopped w
  generalize s.hop w = s' at hopped
  cases hopped with
  | out htodo =>
    have hnone : w.unvisited = [] := by simp [Walk.unvisited, htodo]
    rw [hnone] at hway
    exact sentOf_same rfl hway.symm
  | @gone i rest htodo hz =>
    by_cases hi : i = id
    · simp [sentOf, ← hi, hz]
    · refine sentOf_same rfl ((hleft rfl).trans ?_)
      rw [hway, Walk.unvisited, htodo]
      split
      · rw [List.count_cons_of_ne hi]
      · rfl
  | passed htodo hz hhop _ => exact hvisited htodo hz hhop rfl (hleft rfl)
  | @visited i rest _ htodo hz hhop =>
    have hnow : ({ w with hop := .send } : Walk ε).unvisited = rest := by
      simp [Walk.unvisited, htodo]
    exact hvisited htodo hz hhop rfl ((onItsWay_walk rfl).trans (by rw [hnow]))
  | pushed htodo hz hhop _ =>
    rw [hrest htodo (by simp [hhop])] at hway
    exact sentOf_same (map_sent_set hz rfl) ((hleft rfl).trans hway.symm)
  | full hhop =>
    have hsame : ({ w with hop := .mark } : Walk ε).unvisited = w.unvisited := by
      simp [Walk.unvisited, hhop]
    exact sentOf_same rfl ((onItsWay_walk rfl).trans (by rw [hway, hsame]))
  | marked htodo hz hhop =>
    rw [hrest htodo (by simp [hhop])] at hway
    exact sentOf_same (map_sent_set hz rfl) ((hleft rfl).trans hway.symm)

/-- A stream is in its identity's list once while it is subscribed, and in no other. -/
theorem Registered.count_subs (h : Registered s) (hx : s.streams[id]? = some x) (who : PubKey)
    {p : Sub → Bool} {q : Prop} [Decidable q] (hp : p ⟨id, x.device⟩ = true ↔ q) :
    (((s.subs who).filter p).map Sub.id).count id =
      if x.subscribed = true ∧ x.who = who ∧ q then 1 else 0 := by
  have hdistinct : (((s.subs who).filter p).map Sub.id).Nodup :=
    (h.distinct who).sublist (List.filter_sublist.map _)
  have hmem : id ∈ ((s.subs who).filter p).map Sub.id ↔
      x.subscribed = true ∧ x.who = who ∧ q := by
    simp only [List.mem_map, List.mem_filter, h.listed]
    constructor
    · rintro ⟨sub, ⟨⟨y, hy, hsubscribed, hwho, hdevice⟩, hfits⟩, rfl⟩
      rw [hx] at hy
      cases hy
      exact ⟨hsubscribed, hwho, hp.mp (by rwa [hdevice])⟩
    · rintro ⟨hsubscribed, hwho, hq⟩
      exact ⟨⟨id, x.device⟩, ⟨⟨x, hx, hsubscribed, hwho, rfl⟩, hp.mpr hq⟩, rfl⟩
  by_cases hin : x.subscribed = true ∧ x.who = who ∧ q
  · rw [if_pos hin]
    exact List.count_eq_one_of_mem hdistinct (hmem.mpr hin)
  · rw [if_neg hin]
    exact List.count_eq_zero_of_not_mem (mt hmem.mp hin)

theorem Registered.count_recipients (h : Registered s) (hx : s.streams[id]? = some x)
    (recipients : List PubKey) :
    (recipients.flatMap fun who => (s.subs who).map Sub.id).count id =
      if x.subscribed then recipients.count x.who else 0 := by
  induction recipients with
  | nil => simp
  | cons who recipients ih =>
    have hone := h.count_subs hx who (p := fun _ => true) (q := True) (by simp)
    rw [List.filter_true] at hone
    rw [List.flatMap_cons, List.count_append, ih, hone]
    by_cases hsubscribed : x.subscribed = true
    · by_cases hwho : who = x.who
      · simp [hsubscribed, hwho, Nat.add_comm]
      · simp [hsubscribed, hwho, Ne.symm hwho]
    · simp [hsubscribed]

theorem publishes_quiet {input : Input ε} (hquiet : ∀ z : Stream ε, input.reaches z = []) :
    s.publishes id input = [] := by
  unfold publishes
  cases s.streams[id]? <;> simp [hquiet]

theorem Registered.sentOf_step (h : Registered s) (id : Nat) (input : Input ε) :
    (step s input).sentOf id = s.sentOf id ++ s.publishes id input := by
  -- where nothing is published
  have hquiet : ∀ t : Subscribers ε, (∀ x, input.reaches x = []) → t.sentOf id = s.sentOf id →
      t.sentOf id = s.sentOf id ++ s.publishes id input := by
    intro t hnone hsame
    rw [hsame, publishes_quiet hnone, List.append_nil]
  have hwaits : s.walk.isSome = true → s.sentOf id = s.sentOf id ++ s.publishes id input := by
    intro hwalk
    simp [publishes, hwalk]
  have hbegun : ∀ todo event, s.walk = none →
      (∀ x, s.streams[id]? = some x →
        List.replicate (todo.count id) event = input.reaches x) →
      sentOf { s with walk := some (⟨event, todo, .visit, 0⟩ : Walk ε) } id =
        s.sentOf id ++ s.publishes id input := by
    intro todo event hwalk hcount
    cases hx : s.streams[id]? with
    | none => simp [sentOf, publishes, hx]
    | some x =>
      rw [sentOf_eq hx, onItsWay_free hwalk]
      simp [sentOf, publishes, hwalk, hx, onItsWay, Walk.unvisited, hcount x hx]
  cases input with
  | hop =>
    refine hquiet _ (fun _ => rfl) ?_
    simp only [Events.step]
    cases hw : s.walk with
    | none => rfl
    | some w => exact sentOf_hop hw
  | pump i act =>
    refine hquiet _ (fun _ => rfl) ?_
    simp only [Events.step]
    cases hz : s.streams[i]? with
    | none => rfl
    | some z =>
      have hsent : (z.pump act).sent = z.sent := by
        unfold Stream.pump
        split <;> (try split) <;> (try split) <;> (try split) <;> rfl
      exact sentOf_same (map_sent_set hz hsent) rfl
  | subscribe who device =>
    refine hquiet _ (fun _ => rfl) ?_
    simp only [Events.step]
    split
    · rfl
    · next hfree =>
      have hwalk : s.walk = none := by simpa using hfree
      by_cases hfull : maxPerIdentity ≤ (s.subs who).length
      · simp only [Subscribers.subscribe, if_pos hfull]
        exact sentOf_same rfl rfl
      · simp only [Subscribers.subscribe, if_neg hfull]
        by_cases hid : id < s.streams.length
        · exact sentOf_same (by simp [List.getElem?_append_left hid]) rfl
        · have hnone : s.streams[id]? = none := List.getElem?_eq_none (Nat.le_of_not_lt hid)
          have hbefore : s.sentOf id = [] := by simp [sentOf, hnone]
          rw [hbefore]
          unfold sentOf
          cases hy : (s.streams ++ [.fresh who device])[id]? with
          | none => rfl
          | some y =>
            obtain hy | ⟨-, rfl⟩ := getElem?_concat_iff.mp hy
            · rw [hnone] at hy
              cases hy
            · simp [Stream.fresh, onItsWay, hwalk]
  | unsubscribe i =>
    refine hquiet _ (fun _ => rfl) ?_
    simp only [Events.step]
    split
    · rfl
    · cases hz : s.streams[i]? with
      | none => rfl
      | some z =>
        simp only [Subscribers.unsubscribe]
        split
        · rfl
        · exact sentOf_same (map_sent_set hz rfl) rfl
  | publish recipients event =>
    simp only [Events.step]
    split
    · next hwalk => exact hwaits hwalk
    · next hfree =>
      refine hbegun _ _ (by simpa using hfree) fun x hx => ?_
      rw [h.count_recipients hx, Input.reaches]
      split <;> rfl
  | publishToDevice who device event =>
    simp only [Events.step]
    split
    · next hwalk => exact hwaits hwalk
    · next hfree =>
      refine hbegun _ _ (by simpa using hfree) fun x hx => ?_
      rw [h.count_subs hx who (q := x.device = device) (by simp), Input.reaches]
      split <;> rfl

theorem publishedTo_quiet {inputs : List (Input ε)}
    (hquiet : ∀ i ∈ inputs, ∀ z : Stream ε, i.reaches z = []) : publishedTo id s inputs = [] := by
  induction inputs generalizing s with
  | nil => rfl
  | cons input inputs ih =>
    obtain ⟨hnone, hrest⟩ := List.forall_mem_cons.mp hquiet
    rw [publishedTo, publishes_quiet hnone, ih hrest, List.append_nil]

theorem Sound.sentOf_run (h : Sound s) (id : Nat) (inputs : List (Input ε)) :
    (run Events.step s inputs).sentOf id = s.sentOf id ++ publishedTo id s inputs := by
  induction inputs generalizing s with
  | nil => simp [publishedTo]
  | cons input inputs ih =>
    rw [run_cons, ih (h.step input), h.registered.sentOf_step, publishedTo, List.append_assoc]

/-! The publisher lets the lock go, and the pump runs its stream dry. -/

theorem hop_stage {w : Walk ε} (hx : s.streams[id]? = some x) :
    ∃ y, (s.hop w).streams[id]? = some y ∧ y.stage = x.stage := by
  have hset : ∀ (i : Nat) (z y : Stream ε), s.streams[i]? = some z → y.stage = z.stage →
      ∃ y', (s.streams.set i y)[id]? = some y' ∧ y'.stage = x.stage := by
    intro i z y hz hstage
    by_cases hi : i = id
    · subst hi
      refine ⟨y, List.getElem?_set_self (List.getElem?_eq_some_iff.mp hx).1, ?_⟩
      rw [hstage, Option.some.inj (hz.symm.trans hx)]
    · exact ⟨x, by rw [List.getElem?_set_ne hi, hx], rfl⟩
  have hopped := s.hopped w
  generalize s.hop w = s' at hopped
  cases hopped with
  | out | gone | full => exact ⟨x, hx, rfl⟩
  | passed _ hz | visited _ hz | pushed _ hz | marked _ hz => exact hset _ _ _ hz rfl

def left (s : Subscribers ε) : Nat :=
  match s.walk with
  | none => 0
  | some w => 3 * w.todo.length + (match w.hop with
    | .visit => 3
    | .send => 2
    | .mark => 1)

theorem hop_left {w : Walk ε} (hw : s.walk = some w) : (s.hop w).left < s.left := by
  have hopped := s.hopped w
  generalize s.hop w = s' at hopped
  cases hopped with
  | out htodo => simp only [left, hw]; split <;> omega
  | gone htodo => simp only [left, hw, htodo, Walk.next, List.length_cons]; split <;> omega
  | passed htodo _ hhop | visited htodo _ hhop | pushed htodo _ hhop | marked htodo _ hhop =>
    simp only [left, hw, hhop, htodo, Walk.next, List.length_cons]; omega
  | full hhop => simp only [left, hw, hhop]; omega

theorem hops_finish (hx : s.streams[id]? = some x) : ∃ hops : List (Input ε),
    (∀ i ∈ hops, i = .hop) ∧ (run step s hops).walk = none ∧
      ∃ y, (run step s hops).streams[id]? = some y ∧ y.stage = x.stage := by
  induction hleft : s.left using Nat.strong_induction_on generalizing s x with
  | _ n ih =>
    cases hw : s.walk with
    | none => exact ⟨[], by simp, hw, x, hx, rfl⟩
    | some w =>
      have hstep : step s .hop = s.hop w := by simp [step, hw]
      obtain ⟨y, hy, hstage⟩ := hop_stage (w := w) hx
      obtain ⟨hops, hall, hdone, z, hz, hzstage⟩ := ih _ (hleft ▸ hop_left hw) hy rfl
      refine ⟨.hop :: hops, by simpa using hall, ?_, z, ?_, hzstage.trans hstage⟩
      · rw [run_cons, hstep]
        exact hdone
      · rw [run_cons, hstep]
        exact hz

theorem run_pumps (hx : s.streams[id]? = some x) (acts : List Stream.Act) :
    (run step s (acts.map (.pump id))).streams[id]? = some (acts.foldl Stream.pump x) ∧
      (run step s (acts.map (.pump id))).walk = s.walk := by
  induction acts generalizing s x with
  | nil => exact ⟨hx, rfl⟩
  | cons act acts ih =>
    have hlt := (List.getElem?_eq_some_iff.mp hx).1
    have hstep : step s (.pump id act) = { s with streams := s.streams.set id (x.pump act) } := by
      simp [step, hx]
    have hrest := ih (s := step s (.pump id act)) (x := x.pump act)
      (by rw [hstep]; exact List.getElem?_set_self hlt)
    rw [List.map_cons, run_cons]
    refine ⟨hrest.1, hrest.2.trans ?_⟩
    rw [hstep]

theorem Sound.settles (h : Sound s) (hx : s.streams[id]? = some x) : s.Settles id x := by
  intro hrunning
  obtain ⟨hops, hall, hfree, y, hy, hstage⟩ := hops_finish hx
  obtain ⟨acts, hacts, hdry⟩ := Stream.pump_dries (hstage ▸ hrunning)
  obtain ⟨hend, hwalk⟩ := run_pumps hy acts
  have hlater : ∀ i ∈ hops ++ acts.map (.pump id), i = .hop ∨ i = .pump id .go ∨
      i = .pump id .beat := by
    intro i hi
    cases List.mem_append.mp hi with
    | inl hhop => exact .inl (hall i hhop)
    | inr hpump =>
      obtain ⟨act, hact, rfl⟩ := List.mem_map.mp hpump
      right
      cases act with
      | go => exact .inl rfl
      | beat => exact .inr rfl
      | fail => exact absurd rfl (hacts _ hact)
  refine ⟨hops ++ acts.map (.pump id), hlater, acts.foldl Stream.pump y, ?_, ?_, ?_⟩
  · rw [run_append]
    exact hend
  · have hsame := h.sentOf_run id (hops ++ acts.map (.pump id))
    have hquiet : ∀ i ∈ hops ++ acts.map (.pump id), ∀ z : Stream ε, i.reaches z = [] := by
      intro i hi z
      obtain rfl | rfl | rfl := hlater i hi <;> rfl
    rw [publishedTo_quiet hquiet, List.append_nil, run_append, sentOf_eq hend,
      onItsWay_free (hwalk.trans hfree), List.append_nil, sentOf_eq hx] at hsame
    exact hsame
  · have hsound : Sound (run Events.step s (hops ++ acts.map (.pump id))) :=
      run_invariant (fun _ i hs => hs.step i) h _
    rw [run_append] at hsound
    exact (hsound.fit_free (by rw [hwalk, hfree]; rfl) hend).accounted hdry

/-! From what is kept to what is promised. -/

theorem Sound.delivered (h : Sound s) (hx : s.streams[id]? = some x) : s.Delivered id x := by
  have hfit := h.fits id x hx
  have hwritten : ∀ w ∈ x.written, w ∈ x.line := fun w hw => Stream.mem_line.mpr (.inl hw)
  refine ⟨?_, fun p hp => hfit.truth p (hwritten _ hp), ?_, hfit.bounded⟩
  · exact (List.pairwise_append.mp hfit.line).1
  · intro hrunning n hn
    by_cases hknown : n < s.known id x
    · exact (hfit.kept hrunning n hknown).imp_right .inl
    · right; right
      unfold known at hknown
      split at hknown
      · next hinto => exact ⟨hinto, by omega⟩
      · exact absurd hn hknown

theorem Registered.listening_iff (h : Registered s) : s.listening device = true ↔
    ∃ x ∈ s.streams, x.subscribed = true ∧ x.device = device := by
  have hcount := h.devices device
  have hpos : s.listening device = true ↔ 0 < s.byDevice[device]?.getD 0 := by
    unfold listening
    cases s.byDevice[device]? <;> simp
  rw [hpos, hcount, List.countP_pos_iff]
  simp

theorem Sound.kept (h : Sound s) : Kept s where
  delivered _ _ hx := h.delivered hx
  settles _ _ hx := h.settles hx
  listening _ := h.registered.listening_iff
  capped who := by
    rw [← h.registered.counted who]
    exact h.registered.capped who

end Subscribers

/-- Over any interleaving nothing published to a stream is lost without a resync: what was published
to it while it was subscribed has been sent to it or is on its way, and what has been sent is
accounted for. And who is listening is who is subscribed. -/
theorem nothing_lost (inputs : List (Input ε)) :
    Always Subscribers.Kept step (Subscribers.new : Subscribers ε) inputs ∧
      ∀ id x, (run step (Subscribers.new : Subscribers ε) inputs).streams[id]? = some x →
        Subscribers.publishedTo id .new inputs =
          x.sent ++ (run step (Subscribers.new : Subscribers ε) inputs).onItsWay id := by
  have hany : Each (fun _ _ => True) step (Subscribers.new : Subscribers ε) inputs :=
    each_of_mem (fun _ _ _ => trivial) _
  have hsound : Always Subscribers.Sound step (Subscribers.new : Subscribers ε) inputs :=
    hany.always (fun _ i h _ => Subscribers.Sound.step h i) Subscribers.sound_new
  refine ⟨hsound.imp fun _ h => h.kept, fun id x hx => ?_⟩
  have hsent := Subscribers.sound_new.sentOf_run id inputs
  rw [Subscribers.sentOf_eq hx] at hsent
  exact hsent.symm

end Sqex.Events
