import Sqex.Exchange.Catchup
import Sqex.Lib.Traces

/-! Signals: relayed to whoever is in a channel, and held until collected or out of date. Every
answer of every run is traced back to the call that sent what it holds. -/
namespace Sqex.Exchange.Signals
open Std Runs Catchup

def signalCallState : UInt8 := 0x03
def maxSignals : Nat := 32
def signalLog : Nat := 256

structure Logged where
  seq : UInt64
  account : PubKey
  device : PubKey
  kind : UInt8
  sent : UInt64
  body : Bytes

/-- What waits for each account in each channel, and the log of each channel with the number
its next signal gets. -/
structure Queues where
  pending : Bytes32 × PubKey → List Pending
  log : Bytes32 → UInt64 × List Logged

def Queues.started : Queues := ⟨fun _ => [], fun _ => (1, [])⟩

/-- A queue of at most so many with one more, the oldest making room. -/
def push {α : Type} (limit : Nat) (q : List α) (x : α) : List α :=
  q.drop (q.length + 1 - limit) ++ [x]

def lasts (now sent : UInt64) : Bool := now - min now sent < signalTtl

/-- A signal as it is queued: one that rings each device has its devices counted. -/
def pendingOf (caller device : PubKey) (kind : UInt8) (body : Bytes) (now : UInt64) : Pending :=
  ⟨⟨caller, kind, body⟩, device, now, if kind = signalCallState then some [] else none⟩

/-- Whom a signal goes to: everybody present, the sender too where it rings each device. -/
def recipients (r : Rows) (caller : PubKey) (kind : UInt8) : List PubKey :=
  ((r.member.toList.filter (·.2.present)).map (·.1)).filter fun a =>
    kind = signalCallState || a != caller

namespace Queues

def enqueue (now : UInt64) (p : Pending) (q : List Pending) : List Pending :=
  push maxSignals (q.filter fun x => lasts now x.sent) p

def signal (s : Queues) (channel : Bytes32) (r : Rows) (caller device : PubKey) (kind : UInt8)
    (body : Bytes) (now : UInt64) : Except ChannelError Queues := do
  r.signal caller
  let (next, kept) := s.log channel
  pure {
    log := Function.update s.log channel (next + 1,
      push signalLog (kept.filter fun l => lasts now l.sent) ⟨next, caller, device, kind, now, body⟩)
    pending := (recipients r caller kind).foldl
      (fun m who => Function.update m (channel, who)
        (enqueue now (pendingOf caller device kind body now) (m (channel, who)))) s.pending }

/-- Collect and discard whatever is waiting. -/
def take (s : Queues) (channel : Bytes32) (who device : PubKey) (now : UInt64) :
    List Signalled × Queues :=
  let t := takeSignals (s.pending (channel, who)) device now
  (t.1, { s with pending := Function.update s.pending (channel, who) t.2 })

end Queues

inductive Call where
  | signal (caller device : PubKey) (kind : UInt8) (body : Bytes)
  | take (who device : PubKey)

structure Event where
  channel : Bytes32
  rows : Rows
  now : UInt64
  call : Call

structure Returned where
  channel : Bytes32
  who : PubKey
  device : PubKey
  now : UInt64
  signal : Signalled
  deriving DecidableEq

def step (s : Queues) (e : Event) : Queues :=
  match e.call with
  | .signal caller device kind body =>
    (s.signal e.channel e.rows caller device kind body e.now).toOption.getD s
  | .take who device => (s.take e.channel who device e.now).2

def handed (s : Queues) (e : Event) : List Returned :=
  match e.call with
  | .signal .. => []
  | .take who device =>
    (s.take e.channel who device e.now).1.map (⟨e.channel, who, device, e.now, ·⟩)

def returned (events : List Event) : List Returned := emitted handed step .started events

/-! The same run, with the number of the call that sent it beside everything queued. -/

structure Delivered extends Returned where
  call : Nat
  sentBy : Nat

variable {who device : PubKey} {events : List Event} {sent : UInt64} {d : Delivered}

structure Traced where
  sofar : List Event
  queue : Bytes32 × PubKey → List (Nat × Pending)

namespace Traced

def started : Traced := ⟨[], fun _ => []⟩

def live (now : UInt64) (q : List (Nat × Pending)) : List (Nat × Pending) :=
  q.filter fun x => lasts now x.2.sent

def step (t : Traced) (e : Event) : Traced where
  sofar := t.sofar ++ [e]
  queue := match e.call with
    | .signal caller device kind body => fun k =>
      if e.rows.signal caller = .ok () ∧ k.1 = e.channel ∧ k.2 ∈ recipients e.rows caller kind then
        push maxSignals (live e.now (t.queue k))
          (t.sofar.length, pendingOf caller device kind body e.now)
      else t.queue k
    | .take who device => Function.update t.queue (e.channel, who)
      ((live e.now (t.queue (e.channel, who))).filterMap fun x =>
        (x.2.left device).map fun p => (x.1, p))

def handed (t : Traced) (e : Event) : List Delivered :=
  match e.call with
  | .signal .. => []
  | .take who device =>
    ((live e.now (t.queue (e.channel, who))).filter fun x => x.2.reaches device).map fun x =>
      ⟨⟨e.channel, who, device, e.now, x.2.signal⟩, t.sofar.length, x.1⟩

def erase (t : Traced) (k : Bytes32 × PubKey) : List Pending := (t.queue k).map (·.2)

end Traced

def delivered (events : List Event) : List Delivered :=
  emitted Traced.handed Traced.step .started events

/-! Leaving the numbers out is the run itself. -/

theorem map_push {α β : Type} (f : α → β) (limit : Nat) (q : List α) (x : α) :
    (push limit q x).map f = push limit (q.map f) (f x) := by
  simp [push, List.map_drop]

theorem mem_push {α : Type} {limit : Nat} {q : List α} {x y : α} (h : y ∈ push limit q x) :
    y ∈ q ∨ y = x := by
  rcases List.mem_append.mp h with hold | hnew
  · exact .inl (List.mem_of_mem_drop hold)
  · exact .inr (by simpa using hnew)

theorem foldl_update {κ ι α : Type} [DecidableEq κ] {key : ι → κ}
    (hinj : ∀ i j, key i = key j → i = j) (f : α → α) (is : List ι) (hnodup : is.Nodup) (k : κ)
    (m : κ → α) : is.foldl (fun m i => Function.update m (key i) (f (m (key i)))) m k =
      if k ∈ is.map key then f (m k) else m k := by
  induction is generalizing m with
  | nil => simp
  | cons i is ih =>
    have hi := List.nodup_cons.mp hnodup
    rw [List.foldl_cons, ih hi.2]
    by_cases hk : k = key i
    · subst hk
      have hnot : key i ∉ is.map key := fun hmem => by
        obtain ⟨j, hj, heq⟩ := List.mem_map.mp hmem
        exact hi.1 (hinj j i heq ▸ hj)
      simp [hnot]
    · simp [hk]

theorem nodup_recipients (r : Rows) (caller : PubKey) (kind : UInt8) :
    (recipients r caller kind).Nodup := by
  have hkeys : ((r.member.toList.filter (·.2.present)).map (·.1)).Nodup := by
    have hsub : ((r.member.toList.filter (·.2.present)).map (·.1)).Sublist r.member.keys := by
      rw [← ExtTreeMap.map_fst_toList_eq_keys]
      exact List.filter_sublist.map _
    exact hsub.nodup r.member.nodup_keys
  exact hkeys.filter _

theorem mem_recipients {r : Rows} {caller : PubKey} {kind : UInt8} :
    who ∈ recipients r caller kind ↔
      (r.member[who]?.any (·.present)) = true ∧ (kind = signalCallState ∨ who ≠ caller) := by
  simp only [recipients, List.mem_filter, List.mem_map, Bool.or_eq_true, decide_eq_true_eq,
    bne_iff_ne, Prod.exists, exists_and_right, exists_eq_right,
    ExtTreeMap.mem_toList_iff_getElem?_eq_some, Option.any_eq_true]

namespace Traced
variable {t : Traced} {s : Queues} {e : Event}

def Erases (t : Traced) (s : Queues) : Prop := t.erase = s.pending

theorem erase_live (now : UInt64) (q : List (Nat × Pending)) :
    (live now q).map (·.2) = (q.map (·.2)).filter fun p => lasts now p.sent := by
  rw [live, List.filter_map]
  rfl

theorem takeSignals_fst (q : List Pending) (device : PubKey) (now : UInt64) :
    (takeSignals q device now).1 =
      ((q.filter fun p => lasts now p.sent).filter (·.reaches device)).map (·.signal) := rfl

theorem erase_take (device : PubKey) (now : UInt64) (q : List (Nat × Pending)) :
    ((live now q).filterMap fun x => (x.2.left device).map fun p => (x.1, p)).map (·.2) =
      (takeSignals (q.map (·.2)) device now).2 := by
  have hleft : (takeSignals (q.map (·.2)) device now).2 =
      ((live now q).map (·.2)).filterMap (·.left device) := by
    rw [erase_live]
    rfl
  rw [hleft, List.map_filterMap, List.filterMap_map]
  congr 1
  funext x
  cases hx : x.2.left device with
  | none | some p => simp [hx]

theorem Erases.step (h : t.Erases s) (e : Event) : (t.step e).Erases (Signals.step s e) := by
  have hq (k) : (t.queue k).map (·.2) = s.pending k := congrFun h k
  refine funext fun k => ?_
  cases hcall : e.call with
  | take who device =>
    simp only [erase, Traced.step, Signals.step, hcall, Queues.take]
    by_cases hk : k = (e.channel, who)
    · subst hk
      simp only [Function.update_self, erase_take, hq]
    · simp only [Function.update_of_ne hk, hq]
  | signal caller device kind body =>
    simp only [erase, Traced.step, Signals.step, hcall, Queues.signal]
    cases hr : e.rows.signal caller with
    | error err => simpa [Except.toOption] using hq k
    | ok u =>
      have hinj (i j : PubKey) (hij : (e.channel, i) = (e.channel, j)) : i = j := by simpa using hij
      simp only [true_and, bind, Except.bind, pure, Except.pure, Except.toOption, Option.getD_some]
      rw [foldl_update hinj _ _ (nodup_recipients e.rows caller kind)]
      have hmem : k ∈ (recipients e.rows caller kind).map (fun who => (e.channel, who)) ↔
          k.1 = e.channel ∧ k.2 ∈ recipients e.rows caller kind := by
        obtain ⟨c, w⟩ := k
        simp [and_comm, eq_comm]
      by_cases hk : k.1 = e.channel ∧ k.2 ∈ recipients e.rows caller kind
      · rw [if_pos hk, if_pos (hmem.mpr hk), map_push, erase_live, hq]
        rfl
      · rw [if_neg hk, if_neg fun hin => hk (hmem.mp hin), hq]

theorem Erases.handed (h : t.Erases s) (e : Event) :
    (t.handed e).map (·.toReturned) = Signals.handed s e := by
  cases hcall : e.call with
  | signal caller device kind body => simp [Traced.handed, Signals.handed, hcall]
  | take who device =>
    have hq : (t.queue (e.channel, who)).map (·.2) = s.pending (e.channel, who) :=
      congrFun h (e.channel, who)
    simp only [Traced.handed, Signals.handed, hcall, Queues.take]
    rw [← hq, takeSignals_fst, ← erase_live, List.filter_map, List.map_map, List.map_map,
      List.map_map]
    rfl

theorem Erases.emitted (h : t.Erases s) (events : List Event) :
    (emitted Traced.handed Traced.step t events).map (·.toReturned) =
      emitted Signals.handed Signals.step s events := by
  induction events generalizing t s with
  | nil => rfl
  | cons e events ih =>
    simp only [Runs.emitted, List.map_append, h.handed e, ih (h.step e)]

end Traced

/-! What is queued, and what was handed out, follows from the calls. -/

/-- A call sent this signal to somebody: it was relayed, they were present, and it was not
theirs unless it rings each device. -/
structure Sent (events : List Event) (n : Nat) (channel : Bytes32) (who device : PubKey)
    (signal : Signalled) (sent : UInt64) : Prop where
  call : ∃ e, events[n]? = some e ∧ e.channel = channel ∧ e.now = sent ∧
    e.call = .signal signal.account device signal.kind signal.body ∧
    e.rows.signal signal.account = .ok () ∧ (e.rows.member[who]?.any (·.present)) = true
  others : signal.kind = signalCallState ∨ who ≠ signal.account

/-- A delivery is of a signal sent earlier to whoever collects it, within its time, and not to
the device it came from where it rings each device. -/
structure Delivered.Proper (events : List Event) (d : Delivered) : Prop where
  taken : ∃ e, events[d.call]? = some e ∧ e.channel = d.channel ∧ e.now = d.now ∧
    e.call = .take d.who d.device
  earlier : d.sentBy < d.call
  sent : ∃ device sent, Sent events d.sentBy d.channel d.who device d.signal sent ∧
    d.now.toNat < sent.toNat + signalTtl.toNat ∧
    (d.signal.kind = signalCallState → d.device ≠ device)

/-- What is handed out later to the same device, or later to the same account where it does not
ring each device, was sent later. -/
def Delivered.Before (a b : Delivered) : Prop :=
  a.channel = b.channel → a.who = b.who →
    (b.signal.kind = signalCallState → a.device = b.device) → a.sentBy < b.sentBy

namespace Traced

/-- What is queued was sent to whoever it waits for, in the order it waits in. -/
structure Queued (t : Traced) : Prop where
  sorted : ∀ k, (t.queue k).Pairwise fun x y => x.1 < y.1
  sent : ∀ k, ∀ x ∈ t.queue k, Sent t.sofar x.1 k.1 k.2 x.2.fromDevice x.2.signal x.2.sent
  rings : ∀ k, ∀ x ∈ t.queue k, x.2.takenBy.isSome = true ↔ x.2.signal.kind = signalCallState

def Past (t : Traced) (d : Delivered) : Prop :=
  d.sentBy < t.sofar.length ∧ ∀ x ∈ t.queue (d.channel, d.who),
    x.2.reaches d.device = true → d.sentBy < x.1

end Traced

theorem Sent.append {n : Nat} {channel : Bytes32} {signal : Signalled}
    (h : Sent events n channel who device signal sent) (more : List Event) :
    Sent (events ++ more) n channel who device signal sent := by
  obtain ⟨e, hget, hrest⟩ := h.call
  have hlt : n < events.length := (List.getElem?_eq_some_iff.mp hget).1
  exact ⟨⟨e, by rwa [List.getElem?_append_left hlt], hrest⟩, h.others⟩

theorem Sent.lt {n : Nat} {channel : Bytes32} {signal : Signalled}
    (h : Sent events n channel who device signal sent) :
    n < events.length := by
  obtain ⟨e, hget, -⟩ := h.call
  exact (List.getElem?_eq_some_iff.mp hget).1

theorem Delivered.Proper.append (h : d.Proper events) (more : List Event) :
    d.Proper (events ++ more) := by
  obtain ⟨e, hget, hrest⟩ := h.taken
  obtain ⟨device, sent, hsent, htime⟩ := h.sent
  have hlt : d.call < events.length := (List.getElem?_eq_some_iff.mp hget).1
  exact ⟨⟨e, by rwa [List.getElem?_append_left hlt], hrest⟩, h.earlier,
    device, sent, hsent.append more, htime⟩

theorem lasts_iff {now : UInt64} :
    lasts now sent = true ↔ now.toNat < sent.toNat + signalTtl.toNat := by
  have hpos : signalTtl.toNat = 30 := rfl
  have hmin : min now sent = if now ≤ sent then now else sent := rfl
  rw [lasts, decide_eq_true_eq, UInt64.lt_iff_toNat_lt, hmin]
  by_cases hle : now ≤ sent
  · have hle' := UInt64.le_iff_toNat_le.mp hle
    simp only [hle, if_true, UInt64.sub_self, UInt64.toNat_zero]
    omega
  · have hle' : sent ≤ now := UInt64.le_of_lt (UInt64.not_le.mp hle)
    rw [if_neg hle, UInt64.toNat_sub_of_le _ _ hle']
    have := UInt64.le_iff_toNat_le.mp hle'
    omega

theorem mem_live {now : UInt64} {q : List (Nat × Pending)} {x : Nat × Pending} :
    x ∈ Traced.live now q ↔ x ∈ q ∧ now.toNat < x.2.sent.toNat + signalTtl.toNat := by
  rw [Traced.live, List.mem_filter, lasts_iff]

theorem left_eq_some {p p' : Pending} (h : p.left device = some p') :
    p'.reaches device = false ∧ p'.signal = p.signal ∧ p'.fromDevice = p.fromDevice ∧
      p'.sent = p.sent ∧ p.takenBy.isSome = true ∧ p'.takenBy.isSome = true ∧
      ∀ other, p'.reaches other = true → p.reaches other = true := by
  cases htaken : p.takenBy with
  | none => simp [Pending.left, htaken] at h
  | some taken =>
    simp only [Pending.left, htaken, Option.map_some, Option.some.injEq] at h
    by_cases hreach : p.reaches device = true
    · rw [if_pos hreach] at h
      subst h
      simp [Pending.reaches, htaken]
      grind
    · rw [if_neg hreach] at h
      subst h
      simp [hreach, htaken]

namespace Traced
variable {t : Traced}

theorem mem_queue_step {e : Event} {k : Bytes32 × PubKey} {x : Nat × Pending}
    (hx : x ∈ (t.step e).queue k) : x ∈ t.queue k ∨
      (∃ caller device kind body, e.call = .signal caller device kind body ∧
        e.rows.signal caller = .ok () ∧ k.1 = e.channel ∧ k.2 ∈ recipients e.rows caller kind ∧
        x = (t.sofar.length, pendingOf caller device kind body e.now)) ∨
      ∃ who device, e.call = .take who device ∧ k = (e.channel, who) ∧
        ∃ y ∈ t.queue k, y.1 = x.1 ∧ y.2.left device = some x.2 := by
  cases hcall : e.call with
  | signal caller device kind body =>
    simp only [step, hcall] at hx
    by_cases hk : e.rows.signal caller = .ok () ∧ k.1 = e.channel ∧
        k.2 ∈ recipients e.rows caller kind
    · rw [if_pos hk] at hx
      cases mem_push hx with
      | inl hold => exact .inl (mem_live.mp hold).1
      | inr hnew =>
        exact .inr (.inl ⟨caller, device, kind, body, rfl, hk.1, hk.2.1, hk.2.2, hnew⟩)
    · rw [if_neg hk] at hx
      exact .inl hx
  | take who device =>
    simp only [step, hcall] at hx
    by_cases hk : k = (e.channel, who)
    · subst hk
      rw [Function.update_self] at hx
      obtain ⟨y, hy, hleft⟩ := List.mem_filterMap.mp hx
      obtain ⟨p, hp, rfl⟩ := Option.map_eq_some_iff.mp hleft
      exact .inr (.inr ⟨who, device, rfl, rfl, y, (mem_live.mp hy).1, rfl, hp⟩)
    · rw [Function.update_of_ne hk] at hx
      exact .inl hx

theorem Queued.step (h : t.Queued) (e : Event) : (t.step e).Queued where
  sorted := by
    intro k
    have hlive (now : UInt64) : (live now (t.queue k)).Pairwise fun x y => x.1 < y.1 :=
      (h.sorted k).filter _
    cases hcall : e.call with
    | signal caller device kind body =>
      simp only [Traced.step, hcall]
      split
      · refine List.pairwise_append.mpr ⟨(hlive e.now).drop, by simp, ?_⟩
        intro x hx y hy
        have hold := (mem_live.mp (List.mem_of_mem_drop hx)).1
        rw [List.mem_singleton.mp hy]
        exact (h.sent k x hold).lt
      · exact h.sorted k
    | take who device =>
      simp only [Traced.step, hcall]
      by_cases hk : k = (e.channel, who)
      · subst hk
        rw [Function.update_self]
        refine List.pairwise_filterMap.mpr ((hlive e.now).imp ?_)
        intro x y hlt x' hx' y' hy'
        obtain ⟨p, -, rfl⟩ := Option.map_eq_some_iff.mp hx'
        obtain ⟨q, -, rfl⟩ := Option.map_eq_some_iff.mp hy'
        exact hlt
      · rw [Function.update_of_ne hk]
        exact h.sorted k
  sent := by
    intro k x hx
    cases mem_queue_step hx with
    | inl hold => exact (h.sent k x hold).append [e]
    | inr hchanged => cases hchanged with
      | inl hnew =>
        obtain ⟨caller, device, kind, body, hcall, hok, hc, hwho, rfl⟩ := hnew
        obtain ⟨hpresent, hothers⟩ := mem_recipients.mp hwho
        exact ⟨⟨e, by simp [Traced.step], hc.symm, rfl, hcall, hok, hpresent⟩, hothers⟩
      | inr hleft =>
        obtain ⟨who, device, -, rfl, y, hy, hnth, hp⟩ := hleft
        obtain ⟨-, hsignal, hfrom, hsent, -⟩ := left_eq_some hp
        have := (h.sent _ y hy).append [e]
        rwa [hnth, ← hsignal, ← hfrom, ← hsent] at this
  rings := by
    intro k x hx
    cases mem_queue_step hx with
    | inl hold => exact h.rings k x hold
    | inr hchanged => cases hchanged with
      | inl hnew =>
        obtain ⟨caller, device, kind, body, -, -, -, -, rfl⟩ := hnew
        by_cases hkind : kind = signalCallState <;> simp [pendingOf, hkind]
      | inr hleft =>
        obtain ⟨who, device, -, rfl, y, hy, -, hp⟩ := hleft
        obtain ⟨-, hsignal, -, -, hold, hnew, -⟩ := left_eq_some hp
        rw [hsignal, ← h.rings _ y hy, hold, hnew]

theorem Past.step (h : t.Past d) (e : Event) : (t.step e).Past d := by
  have hlength : (t.step e).sofar.length = t.sofar.length + 1 := by simp [Traced.step]
  refine ⟨by have := h.1; omega, fun x hx hreach => ?_⟩
  cases mem_queue_step hx with
  | inl hold => exact h.2 x hold hreach
  | inr hchanged => cases hchanged with
    | inl hnew =>
      obtain ⟨-, -, -, -, -, -, -, -, rfl⟩ := hnew
      exact h.1
    | inr hleft =>
      obtain ⟨who, device, -, -, y, hy, hnth, hp⟩ := hleft
      obtain ⟨-, -, -, -, -, -, hless⟩ := left_eq_some hp
      have := h.2 y hy (hless _ hreach)
      omega

theorem mem_handed {e : Event} : d ∈ t.handed e ↔
    ∃ who device, e.call = .take who device ∧ ∃ x ∈ live e.now (t.queue (e.channel, who)),
      x.2.reaches device = true ∧
        d = ⟨⟨e.channel, who, device, e.now, x.2.signal⟩, t.sofar.length, x.1⟩ := by
  cases hcall : e.call with
  | signal => simp [handed, hcall]
  | take who device =>
    simp only [handed, hcall, List.mem_map, List.mem_filter]
    constructor
    · rintro ⟨x, ⟨hx, hreach⟩, rfl⟩
      exact ⟨who, device, rfl, x, hx, hreach, rfl⟩
    · rintro ⟨_, _, heq, x, hx, hreach, rfl⟩
      injection heq with hwho hdevice
      subst hwho hdevice
      exact ⟨x, ⟨hx, hreach⟩, rfl⟩

theorem Queued.proper (h : t.Queued) {e : Event} (hd : d ∈ t.handed e) :
    d.Proper (t.step e).sofar := by
  obtain ⟨who, device, hcall, x, hx, hreach, rfl⟩ := mem_handed.mp hd
  obtain ⟨hold, htime⟩ := mem_live.mp hx
  have hsent := h.sent _ x hold
  refine ⟨⟨e, by simp [Traced.step], rfl, rfl, hcall⟩, hsent.lt, x.2.fromDevice, x.2.sent,
    hsent.append [e], htime, fun hkind heq => ?_⟩
  have hrings := (h.rings _ x hold).mpr hkind
  obtain ⟨taken, htaken⟩ := Option.isSome_iff_exists.mp hrings
  simp only [Pending.reaches, htaken, Bool.and_eq_true, bne_iff_ne] at hreach
  exact hreach.1 heq

theorem Queued.handed_ordered (h : t.Queued) (e : Event) :
    (t.handed e).Pairwise Delivered.Before := by
  cases hcall : e.call with
  | signal => simp [Traced.handed, hcall]
  | take who device =>
    simp only [Traced.handed, hcall, List.pairwise_map]
    exact (((h.sorted _).filter _).filter _).imp fun hlt _ _ _ => hlt

theorem Queued.handed_past (h : t.Queued) {e : Event} (hd : d ∈ t.handed e) :
    (t.step e).Past d := by
  obtain ⟨who, device, hcall, x, hx, hreach, rfl⟩ := mem_handed.mp hd
  have hlt := (h.sent _ x (mem_live.mp hx).1).lt
  refine ⟨by simpa [Traced.step] using Nat.lt_succ_of_lt hlt, fun y hy hagain => ?_⟩
  simp only [Traced.step, hcall, Function.update_self] at hy
  obtain ⟨z, hz, hleft⟩ := List.mem_filterMap.mp hy
  obtain ⟨p, hp, rfl⟩ := Option.map_eq_some_iff.mp hleft
  have := (left_eq_some hp).1
  simp_all

theorem Queued.before (h : t.Queued) {a b : Delivered} {e : Event} (ha : t.Past a)
    (hb : b ∈ t.handed e) : a.Before b := by
  obtain ⟨who, device, hcall, x, hx, hreach, rfl⟩ := mem_handed.mp hb
  intro hchannel hwho hdevice
  have hold : x ∈ t.queue (a.channel, a.who) := by
    rw [hchannel, hwho]
    exact (mem_live.mp hx).1
  refine ha.2 x hold ?_
  by_cases hkind : x.2.signal.kind = signalCallState
  · rw [hdevice hkind]
    exact hreach
  · have hordinary : x.2.takenBy = none := by
      have := (h.rings _ x hold).not.mpr hkind
      simpa using this
    simp [Pending.reaches, hordinary]

theorem started_queued : started.Queued :=
  ⟨fun _ => .nil, by simp [started], by simp [started]⟩

theorem sofar_run (events : List Event) (t : Traced) :
    (run step t events).sofar = t.sofar ++ events := by
  induction events generalizing t with
  | nil => simp
  | cons e events ih => simp [ih, Traced.step]

end Traced

/-- Whatever is handed out was sent earlier, to the account that collects it. -/
theorem delivered_proper (events : List Event) : ∀ d ∈ delivered events, d.Proper events := by
  have hall := emitted_of (I := Traced.Queued) (P := fun t d => d.Proper t.sofar)
    (fun _ e h => h.step e) (fun _ _ h _ hd => h.proper hd) (fun _ e _ _ hd => hd.append [e])
    Traced.started_queued events
  have hsofar : (run Traced.step .started events).sofar = events :=
    Traced.sofar_run events .started
  intro d hd
  have := hall.2 d hd
  rwa [hsofar] at this

theorem delivered_ordered (events : List Event) :
    (delivered events).Pairwise Delivered.Before :=
  (emitted_pairwise (I := Traced.Queued) (fun _ e h => h.step e)
    (fun _ e h => ⟨h.handed_ordered e, fun _ hd => h.handed_past hd⟩)
    (fun _ e h _ ha => ⟨ha.step e, fun _ hb => h.before ha hb⟩) Traced.started_queued events).1

/-- Every answer of every run is accounted for: each signal handed out was sent before to somebody
who was present, and is out within its time; an ordinary one goes to each account once and never to
its sender's, one that rings to each device of an account once; and they go out in the order they
were sent in. -/
theorem handed_once (events : List Event) :
    (delivered events).map (·.toReturned) = returned events ∧
      (∀ d ∈ delivered events, d.Proper events) ∧
      ((delivered events).Pairwise fun a b => a.sentBy = b.sentBy → a.who = b.who →
        b.signal.kind = signalCallState ∧ a.device ≠ b.device) ∧
      (delivered events).Pairwise Delivered.Before := by
  have hproper := delivered_proper events
  have hordered := delivered_ordered events
  refine ⟨Traced.Erases.emitted (t := .started) (s := .started) rfl events, hproper, ?_, hordered⟩
  refine hordered.imp_of_mem fun {a b} ha hb hbefore hsame hwho => ?_
  have hchannel : a.channel = b.channel := by
    obtain ⟨_, _, hsent, -⟩ := (hproper a ha).sent
    obtain ⟨_, _, hsent', -⟩ := (hproper b hb).sent
    obtain ⟨e, hget, hc, -⟩ := hsent.call
    obtain ⟨e', hget', hc', -⟩ := hsent'.call
    rw [hsame, hget', Option.some.injEq] at hget
    rw [← hc, ← hc', hget]
  have hnot : ¬ (b.signal.kind = signalCallState → a.device = b.device) := fun hdevice => by
    have := hbefore hchannel hwho hdevice
    omega
  simpa using hnot

/-- Three members, and a device that collects for two of them. -/
def seat : MemberRow := ⟨.member, 0, true, true, false⟩

def threeSeats : Rows :=
  { Rows.empty with
    channel := some ⟨.priv, 0, 0, "", "", 0, 1, 1, 0, 0, 0, 0, none⟩
    member := ((∅ : ExtTreeMap PubKey MemberRow).insert 1 seat |>.insert 2 seat).insert 3 seat }

def ringing : List Event :=
  [⟨7, threeSeats, 100, .signal 1 1 signalCallState [0]⟩, ⟨7, threeSeats, 101, .take 2 9⟩,
    ⟨7, threeSeats, 102, .take 3 9⟩]

theorem ringing_returned : (returned ringing).map (fun r => (r.who, r.device, r.signal.kind)) =
    [(2, 9, signalCallState), (3, 9, signalCallState)] := by
  decide +kernel

/-- A device that collects for two accounts is handed what rings each device twice: each account
has a queue of its own. -/
theorem device_rung_twice : ¬ ∃ got : List Delivered, got.map (·.toReturned) = returned ringing ∧
    (∀ d ∈ got, d.Proper ringing) ∧
    got.Pairwise fun a b => a.sentBy = b.sentBy → b.signal.kind = signalCallState →
      a.device ≠ b.device := by
  rintro ⟨got, herase, hproper, honce⟩
  have hlist : got.map (fun d => (d.who, d.device, d.signal.kind)) =
      [(2, 9, signalCallState), (3, 9, signalCallState)] := by
    rw [← ringing_returned, ← herase, List.map_map]
    rfl
  have hfirst : ∀ d ∈ got, d.sentBy = 0 := by
    intro d hd
    obtain ⟨device, sent, hsent, -⟩ := (hproper d hd).sent
    obtain ⟨e, hget, -, -, hcall, -⟩ := hsent.call
    match hn : d.sentBy with
    | 0 => rfl
    | 1 | 2 =>
      rw [hn] at hget
      simp only [ringing, List.getElem?_cons_succ, List.getElem?_cons_zero,
        Option.some.injEq] at hget
      rw [← hget] at hcall
      cases hcall
    | n + 3 => simp [hn, ringing] at hget
  have hlength : got.length = 2 := by simpa using congrArg List.length hlist
  obtain ⟨a, b, rfl⟩ := List.length_eq_two.mp hlength
  simp only [List.map_cons, List.map_nil, List.cons.injEq, Prod.mk.injEq, and_true] at hlist
  obtain ⟨⟨-, hadevice, -⟩, -, hbdevice, hbkind⟩ := hlist
  have hapart := List.rel_of_pairwise_cons honce (List.mem_singleton_self b)
  refine hapart ?_ hbkind (hadevice.trans hbdevice.symm)
  rw [hfirst a (by simp), hfirst b (by simp)]

end Sqex.Exchange.Signals
