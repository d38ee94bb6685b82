import Sqex.Lib.Runs
import Sqex.Proto.Primitives

/-! Pairing two identities that have each asked for the other: the requests outstanding, the
notifiers the waiting sides are woken by, and the tasks of everybody who asks. -/
namespace Sqex.Rendezvous
open Runs

/-- How long after the answer both sides are told to begin. -/
def startLead : Nat := 2
/-- How long a request stays outstanding. -/
def pendingTtl : Nat := 45

/-- An IPv4 peer is an IPv4 peer however its address is written. -/
def canonical (addr : SocketAddr) : SocketAddr := ⟨addr.ip.toCanonical, addr.port⟩

inductive Family where
  | v4
  | v6
  deriving DecidableEq

def Family.of (addr : SocketAddr) : Family := if (canonical addr).ip.isV4 then .v4 else .v6

def Family.others (family : Family) : List Family := [.v4, .v6].filter (· ≠ family)

structure Key where
  asker : PubKey
  peer : PubKey
  family : Family
  deriving DecidableEq

def Key.back (k : Key) : Key := ⟨k.peer, k.asker, k.family⟩
def Key.over (k : Key) (family : Family) : Key := { k with family }

structure Asked where
  addr : SocketAddr
  arrived : Nat
  /-- Set once the pair completed. -/
  startAt : Option Nat
  deriving DecidableEq

abbrev Table := Key → Option Asked

inductive Answer where
  | waiting
  | ready
  | noSharedFamily
  deriving DecidableEq

structure Introduced where
  answer : Answer
  addr : Option SocketAddr
  startAt : Nat
  now : Nat
  deriving DecidableEq

def Introduced.waiting (now : Nat) : Introduced := ⟨.waiting, none, 0, now⟩
def Introduced.noSharedFamily (now : Nat) : Introduced := ⟨.noSharedFamily, none, 0, now⟩

def live (now : Nat) (a : Asked) : Bool := now - a.arrived < pendingTtl

namespace Table
variable (asked : Table)

section
variable (now : Nat) (k : Key)

def retain : Table := fun k => (asked k).filter (live now)

def put (a : Asked) : Table := fun k' => if k' = k then some a else asked k'

def start (startAt : Nat) : Table := fun k' =>
  if k' = k then (asked k').map fun a => { a with startAt := some startAt } else asked k'

def alive : Bool := (asked k).any (live now)

def elsewhere : Bool :=
  k.family.others.any fun f => asked.alive now (k.back.over f)

def unanswered : Introduced :=
  if asked.elsewhere now k then .noSharedFamily now else .waiting now

/-- Record that the asker wants to meet the peer, and answer if both now do: what `request`
does under its lock. -/
def record (addr : SocketAddr) : Table × Introduced :=
  if k.asker = k.peer then (asked, .waiting now)
  else
    let asked := (asked.retain now).put k ⟨addr, now, none⟩
    match asked k.back with
    | none => (asked, asked.unanswered now k)
    | some theirs =>
      -- one start for both sides: whoever completes the pair computes it
      let startAt := theirs.startAt.getD (now + startLead)
      ((asked.start k startAt).start k.back startAt, ⟨.ready, some theirs.addr, startAt, now⟩)

def poll : Introduced :=
  match asked k, asked k.back with
  | some mine, some theirs =>
    if live now theirs && live now mine then
      ⟨.ready, some theirs.addr, mine.startAt.getD (now + startLead), now⟩
    else asked.unanswered now k
  | _, _ => asked.unanswered now k

end

end Table

/-! Everybody who asks, with what was asked and what was told. -/

def pairOf (k : Key) : PubKey × PubKey :=
  if k.asker ≤ k.peer then (k.asker, k.peer) else (k.peer, k.asker)

inductive Stage where
  | notifying (first : Introduced)
  | recorded
  | holding (notify : Nat)
  | parked (notify : Nat)
  | woken (notify : Nat)
  | done (answer : Introduced)
  deriving DecidableEq

structure Task where
  key : Key
  stage : Stage
  deriving DecidableEq

structure Ask where
  key : Key
  addr : SocketAddr
  arrived : Nat
  number : Nat
  deriving DecidableEq

/-- An address disclosed: to whom and when, with the last request from either side. -/
structure Told where
  key : Key
  addr : Option SocketAddr
  startAt : Nat
  now : Nat
  mine : Option Ask
  theirs : Option Ask
  deriving DecidableEq

structure Hall where
  asked : Table
  waiters : PubKey × PubKey → Option Nat
  made : Nat
  tasks : List Task
  asks : List Ask
  told : List Told
  clock : Nat

def Hall.new : Hall := ⟨fun _ => none, fun _ => none, 0, [], [], [], 0⟩

inductive Move where
  | ask (asker : PubKey) (addr : SocketAddr) (peer : PubKey) (wait : Option Nat)
  | poll (asker peer : PubKey) (family : Family)
  | run (i : Nat)
  | deadline (i : Nat)
  | sweep
  deriving DecidableEq

structure Turn where
  now : Nat
  move : Move
  deriving DecidableEq

namespace Hall

section
variable (s : Hall) (now i : Nat) (t : Task)

def latest (k : Key) : Option Ask := s.asks.find? (·.key = k)

def tell (k : Key) (answer : Introduced) : Hall :=
  if answer.answer = .ready then
    { s with told := ⟨k, answer.addr, answer.startAt, answer.now, s.latest k, s.latest k.back⟩ ::
        s.told }
  else s

def notifier (pair : PubKey × PubKey) : Nat × Hall :=
  match s.waiters pair with
  | some n => (n, s)
  | none => (s.made, { s with
      waiters := fun p => if p = pair then some s.made else s.waiters p, made := s.made + 1 })

def wake (n : Nat) (t : Task) : Task := if t.stage = .parked n then { t with stage := .woken n } else t

def move (stage : Stage) : Hall :=
  { s with tasks := s.tasks.set i { t with stage } }

def begun (first : Introduced) (wait : Option Nat) : Stage :=
  match first.answer with
  | .ready => .notifying first
  | .noSharedFamily => .done first
  | .waiting => if wait.getD 0 = 0 then .done first else .recorded

def ask (asker : PubKey) (addr : SocketAddr) (peer : PubKey) (wait : Option Nat) : Hall :=
  let addr := canonical addr
  let k : Key := ⟨asker, peer, .of addr⟩
  let after := s.asked.record now k addr
  let s := { s with
    asked := after.1
    asks := if asker = peer then s.asks else Ask.mk k addr now s.asks.length :: s.asks
    tasks := s.tasks ++ [Task.mk k (begun after.2 wait)] }
  s.tell k after.2

def polled (n : Nat) : Hall :=
  let again := s.asked.poll now t.key
  (s.move i t (if again.answer = .waiting then .holding n else .done again)).tell t.key again

def run : Hall :=
  match t.stage with
  | .notifying first =>
    let found := s.notifier (pairOf t.key)
    let s := found.2.move i t (.done first)
    { s with tasks := s.tasks.map (wake found.1) }
  | .recorded =>
    let found := s.notifier (pairOf t.key)
    found.2.move i t (.holding found.1)
  | .holding n => s.move i t (.parked n)
  | .woken n => s.polled now i t n
  | .parked _ | .done _ => s

/-- A wait that was not woken in time is told what there is to say. -/
def deadline : Hall :=
  match t.stage with
  | .parked _ =>
    let answer := s.asked.poll now t.key
    (s.move i t (.done answer)).tell t.key answer
  | _ => s

def sweep : Hall :=
  let asked := s.asked.retain now
  { s with
    asked
    waiters := fun p => (s.waiters p).filter fun _ => [Family.v4, .v6].any fun f =>
      (asked ⟨p.1, p.2, f⟩).isSome || (asked ⟨p.2, p.1, f⟩).isSome }

end

end Hall

def step (s : Hall) (t : Turn) : Hall :=
  let after := match t.move with
    | .ask asker addr peer wait => s.ask t.now asker addr peer wait
    | .poll asker peer family =>
      s.tell ⟨asker, peer, family⟩ (s.asked.poll t.now ⟨asker, peer, family⟩)
    | .run i => match s.tasks[i]? with
      | none => s
      | some task => s.run t.now i task
    | .deadline i => match s.tasks[i]? with
      | none => s
      | some task => s.deadline t.now i task
    | .sweep => s.sweep t.now
  { after with clock := t.now }

end Sqex.Rendezvous

/-! Introductions over any interleaving: who is told what of whom, when both are to begin, and
who is left waiting. -/
namespace Sqex.Rendezvous
open Runs

/-- A disclosure of the address of the peer's last request, still live, with a start no earlier
than either side asked. -/
def Told.Fair (x : Told) : Prop :=
  ∃ m r : Ask, x.mine = some m ∧ x.theirs = some r ∧ m.key = x.key ∧ r.key = x.key.back ∧
    x.addr = some r.addr ∧ x.now < r.arrived + pendingTtl ∧
    m.arrived ≤ x.startAt ∧ r.arrived ≤ x.startAt

/-- Two disclosures for the same two requests. -/
def Told.Meets (x y : Told) : Prop :=
  (x.mine = y.mine ∧ x.theirs = y.theirs) ∨ (x.mine = y.theirs ∧ x.theirs = y.mine)

def Stage.notifies : Stage → Bool
  | .notifying _ => true
  | _ => false

def Stage.between : Stage → Bool
  | .recorded | .holding _ => true
  | _ => false

def Stage.waits : Stage → Bool
  | .recorded | .holding _ | .parked _ => true
  | _ => false

def Stage.notify : Stage → Option Nat
  | .holding n | .parked n | .woken n => some n
  | _ => none

/-- Somebody is about to wake whoever waits of a pair. -/
def Hall.Owed (s : Hall) (pair : PubKey × PubKey) : Prop :=
  ∃ u ∈ s.tasks, u.stage.notifies = true ∧ pairOf u.key = pair

structure Mutual (s : Hall) : Prop where
  told : ∀ x ∈ s.told, x.Fair
  together : ∀ x ∈ s.told, ∀ y ∈ s.told, x.Meets y → x.startAt = y.startAt
  answered : ∀ t ∈ s.tasks, ∀ n, t.stage = .parked n →
    (s.asked.poll s.clock t.key).answer = .waiting ∨ s.Owed (pairOf t.key)

def Timely (s : Hall) (t : Turn) : Prop := s.clock ≤ t.now

/-- No pair is made on a start that is past, nobody asks over a family its waiting peer does not
wait over, nobody is woken between its request and its registration, and no notifier in use is
swept away. -/
def Proper (s : Hall) (t : Turn) : Prop :=
  match t.move with
  | .ask asker addr peer _ => asker ≠ peer →
    let k : Key := ⟨asker, peer, .of (canonical addr)⟩
    (∀ theirs ∈ s.asked k.back, live t.now theirs = true → ∀ st ∈ theirs.startAt, t.now ≤ st) ∧
      (s.asked.alive t.now k.back = false → ∀ u ∈ s.tasks, u.stage.waits = true →
        u.key.asker = peer → u.key.peer = asker → u.key.family = k.family)
  | .run i => ∀ task ∈ s.tasks[i]?, task.stage.notifies = true →
    ∀ u ∈ s.tasks, pairOf u.key = pairOf task.key → u.stage.between = false
  | .sweep => ∀ u ∈ s.tasks, u.stage.notify.isSome = true →
    ∃ f ∈ [Family.v4, .v6], s.asked.alive t.now (u.key.over f) = true ∨
      s.asked.alive t.now (u.key.back.over f) = true
  | _ => True

instance (s : Hall) (pair : PubKey × PubKey) : Decidable (s.Owed pair) :=
  inferInstanceAs (Decidable (∃ u ∈ s.tasks, _ ∧ _))

instance (s : Hall) (t : Turn) : Decidable (Timely s t) := inferInstanceAs (Decidable (_ ≤ _))

instance (s : Hall) : (t : Turn) → Decidable (Proper s t)
  | ⟨_, .ask _ _ _ _⟩ => inferInstanceAs (Decidable (_ ≠ _ →
      (∀ theirs ∈ s.asked _, _ → ∀ st ∈ theirs.startAt, _) ∧ (_ → ∀ u ∈ s.tasks, _)))
  | ⟨_, .poll _ _ _⟩ => inferInstanceAs (Decidable True)
  | ⟨_, .run i⟩ => inferInstanceAs (Decidable (∀ task ∈ s.tasks[i]?, _ → ∀ u ∈ s.tasks, _))
  | ⟨_, .deadline _⟩ => inferInstanceAs (Decidable True)
  | ⟨_, .sweep⟩ => inferInstanceAs (Decidable (∀ u ∈ s.tasks, _ → ∃ f ∈ [Family.v4, .v6], _))

namespace Table
variable {asked : Table} {k k' : Key} {now now' : Nat} {addr : SocketAddr}

theorem alive_iff : asked.alive now k = true ↔ ∃ a, asked k = some a ∧ live now a = true := by
  simp [alive, Option.any_eq_true]

theorem live_earlier {a : Asked} (hle : now ≤ now') (h : live now' a = true) :
    live now a = true := by
  simp only [live, decide_eq_true_eq] at h ⊢
  omega

theorem alive_earlier (hle : now ≤ now') (h : asked.alive now' k = true) :
    asked.alive now k = true := by
  obtain ⟨a, ha, hlive⟩ := alive_iff.mp h
  exact alive_iff.mpr ⟨a, ha, live_earlier hle hlive⟩

theorem mem_others {f g : Family} : g ∈ f.others ↔ g ≠ f := by
  cases f <;> cases g <;> decide

def Quiet (asked : Table) (now : Nat) (k : Key) : Prop :=
  ¬ (asked.alive now k = true ∧ asked.alive now k.back = true) ∧
    ∀ f, f ≠ k.family → asked.alive now (k.back.over f) = false

theorem elsewhere_iff :
    asked.elsewhere now k = true ↔ ∃ f, f ≠ k.family ∧ asked.alive now (k.back.over f) = true := by
  simp [elsewhere, mem_others]

theorem unanswered_answer : (asked.unanswered now k).answer = .waiting ↔
    ∀ f, f ≠ k.family → asked.alive now (k.back.over f) = false := by
  unfold unanswered
  by_cases h : asked.elsewhere now k = true
  · rw [if_pos h]
    obtain ⟨f, hf, halive⟩ := elsewhere_iff.mp h
    simp only [Introduced.noSharedFamily, reduceCtorEq, false_iff]
    intro hnone
    rw [hnone f hf] at halive
    cases halive
  · rw [if_neg h]
    simp only [Introduced.waiting, true_iff]
    intro f hf
    by_contra halive
    exact h (elsewhere_iff.mpr ⟨f, hf, by simpa using halive⟩)

theorem unanswered_ne_ready : (asked.unanswered now k).answer ≠ .ready := by
  unfold unanswered
  split <;> simp [Introduced.noSharedFamily, Introduced.waiting]

theorem poll_ready (h : (asked.poll now k).answer = .ready) : ∃ mine theirs,
    asked k = some mine ∧ asked k.back = some theirs ∧ live now mine = true ∧
      live now theirs = true ∧
      asked.poll now k = ⟨.ready, some theirs.addr, mine.startAt.getD (now + startLead), now⟩ := by
  unfold poll at h ⊢
  split at h
  · next mine theirs hmine htheirs =>
    split at h
    · next hlive =>
      simp only [Bool.and_eq_true] at hlive
      exact ⟨mine, theirs, hmine, htheirs, hlive.2, hlive.1, by simp [hlive]⟩
    · exact absurd h unanswered_ne_ready
  · exact absurd h unanswered_ne_ready

theorem poll_waiting_iff : (asked.poll now k).answer = .waiting ↔ asked.Quiet now k := by
  have hboth : asked.alive now k = true ∧ asked.alive now k.back = true ↔
      (asked.poll now k).answer = .ready := by
    constructor
    · rintro ⟨hmine, htheirs⟩
      obtain ⟨mine, hmine, hlive⟩ := alive_iff.mp hmine
      obtain ⟨theirs, htheirs, hlive'⟩ := alive_iff.mp htheirs
      simp [poll, hmine, htheirs, hlive, hlive']
    · intro h
      obtain ⟨mine, theirs, hmine, htheirs, hlive, hlive', -⟩ := poll_ready h
      exact ⟨alive_iff.mpr ⟨mine, hmine, hlive⟩, alive_iff.mpr ⟨theirs, htheirs, hlive'⟩⟩
  unfold Quiet
  rw [hboth, ← unanswered_answer]
  constructor
  · intro h
    refine ⟨by simp [h], ?_⟩
    unfold poll at h
    split at h
    · split at h
      · simp at h
      · exact h
    · exact h
  · rintro ⟨hready, hwaiting⟩
    unfold poll at hready ⊢
    split at hready
    · split at hready
      · simp at hready
      · next hlive =>
        simp only [hlive]
        exact hwaiting
    · exact hwaiting

/-! What a request leaves of the table. -/

theorem back_ne (hne : k.asker ≠ k.peer) : k.back ≠ k := by
  intro h
  exact hne (congrArg Key.peer h)

def startOf (asked : Table) (now : Nat) (k : Key) : Option Nat :=
  ((asked k.back).filter (live now)).map fun theirs => theirs.startAt.getD (now + startLead)

def withNew (asked : Table) (now : Nat) (k : Key) (addr : SocketAddr) : Table :=
  (asked.retain now).put k ⟨addr, now, none⟩

theorem withNew_back (hne : k.asker ≠ k.peer) :
    asked.withNew now k addr k.back = (asked k.back).filter (live now) := by
  rw [withNew, put, if_neg (back_ne hne), retain]

theorem record_unmade (hne : k.asker ≠ k.peer) (h : (asked k.back).filter (live now) = none) :
    asked.record now k addr =
      (asked.withNew now k addr, (asked.withNew now k addr).unanswered now k) := by
  have hback : asked.withNew now k addr k.back = _ := withNew_back hne
  rw [h] at hback
  unfold withNew at hback ⊢
  simp only [record, if_neg hne, hback]

theorem record_made (hne : k.asker ≠ k.peer) {theirs : Asked}
    (h : (asked k.back).filter (live now) = some theirs) : asked.record now k addr =
      (((asked.withNew now k addr).start k (theirs.startAt.getD (now + startLead))).start k.back
        (theirs.startAt.getD (now + startLead)),
      ⟨.ready, some theirs.addr, theirs.startAt.getD (now + startLead), now⟩) := by
  have hback : asked.withNew now k addr k.back = _ := withNew_back hne
  rw [h] at hback
  unfold withNew at hback ⊢
  simp only [record, if_neg hne, hback]

theorem record_lookup (hne : k.asker ≠ k.peer) : (asked.record now k addr).1 k' =
    if k' = k then some ⟨addr, now, asked.startOf now k⟩
    else if k' = k.back then ((asked k').filter (live now)).map fun a =>
      { a with startAt := asked.startOf now k }
    else (asked k').filter (live now) := by
  cases hback : (asked k.back).filter (live now) with
  | none =>
    rw [record_unmade hne hback]
    by_cases hk : k' = k
    · simp [withNew, put, hk, startOf, hback]
    · by_cases hk' : k' = k.back
      · simp [hk', withNew_back hne, back_ne hne, hback]
      · simp [withNew, put, retain, hk, hk']
  | some theirs =>
    rw [record_made hne hback]
    by_cases hk : k' = k
    · simp [start, withNew, put, hk, (back_ne hne).symm, startOf, hback]
    · by_cases hk' : k' = k.back
      · simp [start, hk', withNew_back hne, back_ne hne, hback, startOf]
      · simp [start, withNew, put, retain, hk, hk']

theorem alive_filter : ((asked k).filter (live now)).any (live now) = asked.alive now k := by
  unfold alive
  cases h : asked k with
  | none => rfl
  | some a => cases hlive : live now a <;> simp [Option.filter, hlive]

theorem alive_record (hne : k.asker ≠ k.peer) : (asked.record now k addr).1.alive now k' =
    (decide (k' = k) || asked.alive now k') := by
  have hnew : ∀ st, live now ⟨addr, now, st⟩ = true := fun st => by simp [live, pendingTtl]
  have hstart : ∀ (a : Asked) st, live now { a with startAt := st } = live now a := fun _ _ => rfl
  unfold alive
  rw [record_lookup hne]
  by_cases hk : k' = k
  · simp [hk, hnew]
  · by_cases hk' : k' = k.back
    · simp only [hk', if_false, if_true, Option.any_map, back_ne hne, decide_false,
        Bool.false_or, hstart]
      exact alive_filter
    · simp only [hk, hk', if_false, decide_false, Bool.false_or]
      exact alive_filter

theorem record_ready (hne : k.asker ≠ k.peer) :
    (asked.record now k addr).2.answer = .ready ↔ asked.alive now k.back = true := by
  rw [← alive_filter]
  cases hback : (asked k.back).filter (live now) with
  | none => simpa [record_unmade hne hback] using unanswered_ne_ready
  | some theirs =>
    simp [record_made hne hback, (Option.filter_eq_some_iff.mp hback).2]

theorem record_waiting (hne : k.asker ≠ k.peer)
    (h : (asked.record now k addr).2.answer = .waiting) :
    (asked.record now k addr).1.Quiet now k := by
  cases hback : (asked k.back).filter (live now) with
  | none =>
    rw [record_unmade hne hback] at h ⊢
    refine ⟨fun hboth => ?_, unanswered_answer.mp h⟩
    have halive := hboth.2
    simp [alive, withNew_back hne, hback] at halive
  | some theirs => simp [record_made hne hback] at h

end Table

/-! What is recorded and what was told. -/

def Discloses (asked : Table) (now : Nat) (k : Key) (answer : Introduced) : Prop :=
  answer.answer = .ready → ∃ mine theirs, asked k = some mine ∧ asked k.back = some theirs ∧
    live now theirs = true ∧ mine.startAt = some answer.startAt ∧ answer.addr = some theirs.addr ∧
      answer.now = now

structure Records (s : Hall) : Prop where
  recent : ∀ k a, s.asked k = some a →
    ∃ r, s.latest k = some r ∧ r.addr = a.addr ∧ r.arrived = a.arrived
  others : ∀ k a, s.asked k = some a → k.asker ≠ k.peer
  past : ∀ k a, s.asked k = some a → a.arrived ≤ s.clock
  started : ∀ k a st, s.asked k = some a → a.startAt = some st → a.arrived ≤ st
  -- two requests of a pair have one start
  shared : ∀ k a b, s.asked k = some a → s.asked k.back = some b →
    ∃ st, a.startAt = some st ∧ b.startAt = some st
  numbered : ∀ r ∈ s.asks, r.number < s.asks.length
  told : ∀ x ∈ s.told, x.Fair
  asks : ∀ x ∈ s.told, ∀ m ∈ x.mine, ∀ r ∈ x.theirs, m ∈ s.asks ∧ r ∈ s.asks
  -- what was told of two requests is what is told of them as long as they are there
  same : ∀ x ∈ s.told, ∀ a b, s.asked x.key = some a → s.asked x.key.back = some b →
    s.latest x.key = x.mine → s.latest x.key.back = x.theirs → a.startAt = some x.startAt
  together : ∀ x ∈ s.told, ∀ y ∈ s.told, x.Meets y → x.startAt = y.startAt

variable {s s' : Hall} {k : Key} {now : Nat}

theorem records_new : Records .new := by
  refine ⟨?_, ?_, ?_, ?_, ?_, ?_, ?_, ?_, ?_, ?_⟩ <;> simp [Hall.new]

theorem Records.dropped (h : Records s) (hsub : ∀ k a, s'.asked k = some a → s.asked k = some a)
    (hasks : s'.asks = s.asks) (htold : s'.told = s.told) (hclock : s.clock ≤ s'.clock) :
    Records s' := by
  have hlatest : ∀ k, s'.latest k = s.latest k := fun k => by rw [Hall.latest, hasks]; rfl
  refine ⟨?_, ?_, ?_, ?_, ?_, ?_, ?_, ?_, ?_, ?_⟩
  · intro k a ha
    rw [hlatest]
    exact h.recent k a (hsub k a ha)
  · exact fun k a ha => h.others k a (hsub k a ha)
  · exact fun k a ha => (h.past k a (hsub k a ha)).trans hclock
  · exact fun k a st ha => h.started k a st (hsub k a ha)
  · exact fun k a b ha hb => h.shared k a b (hsub k a ha) (hsub _ b hb)
  · rw [hasks]
    exact h.numbered
  · rw [htold]
    exact h.told
  · rw [htold, hasks]
    exact h.asks
  · intro x hx a b ha hb
    rw [hlatest, hlatest]
    exact h.same x (htold ▸ hx) a b (hsub _ a ha) (hsub _ b hb)
  · rw [htold]
    exact h.together

theorem latest_key {r : Ask} (h : s.latest k = some r) : r.key = k := by
  simpa using List.find?_some h

theorem latest_mem {r : Ask} (h : s.latest k = some r) : r ∈ s.asks := List.mem_of_find?_eq_some h

theorem meets_symm {x y : Told} (h : x.Meets y) : y.Meets x := by
  cases h with
  | inl hsame => exact .inl ⟨hsame.1.symm, hsame.2.symm⟩
  | inr hsame => exact .inr ⟨hsame.2.symm, hsame.1.symm⟩

theorem Records.tell (h : Records s) {answer : Introduced}
    (hdiscloses : Discloses s.asked now k answer) : Records (s.tell k answer) := by
  unfold Hall.tell
  split
  case isFalse => exact h
  case isTrue hready =>
    obtain ⟨mine, theirs, hmine, htheirs, hlive, hstart, haddr, hnow⟩ := hdiscloses hready
    obtain ⟨m, hm, -, hmarrived⟩ := h.recent k mine hmine
    obtain ⟨r, hr, hraddr, hrarrived⟩ := h.recent k.back theirs htheirs
    obtain ⟨st, hst, hst'⟩ := h.shared k mine theirs hmine htheirs
    have hstarts : st = answer.startAt := Option.some.inj (hst.symm.trans hstart)
    have hmle := h.started k mine st hmine hst
    have hrle := h.started k.back theirs st htheirs hst'
    -- whoever was told of these two requests was told of the same start
    have hagree : ∀ x ∈ s.told, Told.Meets x ⟨k, answer.addr, answer.startAt, answer.now,
        s.latest k, s.latest k.back⟩ → x.startAt = answer.startAt := by
      intro x hx hmeets
      obtain ⟨m', r', hm', hr', hmkey, hrkey, -⟩ := h.told x hx
      have hkeys : ∀ q q' : Ask, some q = some q' → q.key = q'.key := fun q q' heq =>
        congrArg Ask.key (Option.some.inj heq)
      cases hmeets with
      | inl hsame =>
        obtain ⟨hfirst, hsecond⟩ := hsame
        simp only at hfirst hsecond
        have hkey : x.key = k := by
          rw [← hmkey, ← latest_key hm]
          exact hkeys _ _ (hm'.symm.trans (hfirst.trans hm))
        have hx' := h.same x hx mine theirs (hkey ▸ hmine) (hkey ▸ htheirs)
          (hkey ▸ hfirst.symm) (hkey ▸ hsecond.symm)
        exact Option.some.inj (hx'.symm.trans hstart)
      | inr hsame =>
        obtain ⟨hfirst, hsecond⟩ := hsame
        simp only at hfirst hsecond
        have hkey : x.key = k.back := by
          rw [← hmkey, ← latest_key hr]
          exact hkeys _ _ (hm'.symm.trans (hfirst.trans hr))
        have hback : x.key.back = k := by rw [hkey]; rfl
        have hx' := h.same x hx theirs mine (hkey ▸ htheirs) (hback ▸ hmine)
          (hkey ▸ hfirst.symm) (hback ▸ hsecond.symm)
        rw [hst', hstarts] at hx'
        exact (Option.some.inj hx').symm
    refine ⟨h.recent, h.others, h.past, h.started, h.shared, h.numbered, ?_, ?_, ?_, ?_⟩
    · intro x hx
      cases List.mem_cons.mp hx with
      | inr hold => exact h.told x hold
      | inl hnew =>
        subst hnew
        simp only [live, decide_eq_true_eq] at hlive
        refine ⟨m, r, hm, hr, latest_key hm, latest_key hr, by rw [haddr, hraddr], ?_, ?_, ?_⟩
        · simp only [hnow, hrarrived]
          omega
        · simp only [hmarrived, ← hstarts]
          exact hmle
        · simp only [hrarrived, ← hstarts]
          exact hrle
    · intro x hx
      cases List.mem_cons.mp hx with
      | inr hold => exact h.asks x hold
      | inl hnew =>
        subst hnew
        exact fun m hm r hr => ⟨latest_mem hm, latest_mem hr⟩
    · intro x hx
      cases List.mem_cons.mp hx with
      | inr hold => exact h.same x hold
      | inl hnew =>
        subst hnew
        intro a b ha _ _ _
        rw [← Option.some.inj (hmine.symm.trans ha)]
        exact hstart
    · intro x hx y hy hmeets
      cases List.mem_cons.mp hx with
      | inr hxold =>
        cases List.mem_cons.mp hy with
        | inr hyold => exact h.together x hxold y hyold hmeets
        | inl hynew => subst hynew; exact hagree x hxold hmeets
      | inl hxnew =>
        cases List.mem_cons.mp hy with
        | inr hyold => subst hxnew; exact (hagree y hyold (meets_symm hmeets)).symm
        | inl hynew => rw [hxnew, hynew]

theorem discloses_poll (h : Records s) (now : Nat) (k : Key) :
    Discloses s.asked now k (s.asked.poll now k) := by
  intro hready
  obtain ⟨mine, theirs, hmine, htheirs, -, hlive, hpoll⟩ := Table.poll_ready hready
  obtain ⟨st, hst, -⟩ := h.shared k mine theirs hmine htheirs
  exact ⟨mine, theirs, hmine, htheirs, hlive, by rw [hpoll, hst]; rfl, by rw [hpoll], by rw [hpoll]⟩

/-- The state with a request recorded, before its caller is told anything. -/
def Hall.asking (s : Hall) (now : Nat) (k : Key) (addr : SocketAddr) (stage : Stage) : Hall :=
  { s with
    asked := (s.asked.record now k addr).1
    asks := if k.asker = k.peer then s.asks else Ask.mk k addr now s.asks.length :: s.asks
    tasks := s.tasks ++ [Task.mk k stage]
    clock := now }

/-- What is on the table once a request is: the request, the other side's with the start they
share, and others as they were. -/
theorem record_entry {addr : SocketAddr} {asked : Table} {k' : Key} {a : Asked}
    (hne : k.asker ≠ k.peer) (ha : (asked.record now k addr).1 k' = some a) :
    (k' = k ∧ a = ⟨addr, now, asked.startOf now k⟩) ∨
      (k' = k.back ∧ ∃ b, asked k' = some b ∧ live now b = true ∧
        a = { b with startAt := some (b.startAt.getD (now + startLead)) } ∧
        asked.startOf now k = a.startAt) ∨
      (k' ≠ k ∧ k' ≠ k.back ∧ asked k' = some a) := by
  rw [Table.record_lookup hne] at ha
  by_cases hk : k' = k
  · rw [if_pos hk] at ha
    exact .inl ⟨hk, (Option.some.inj ha).symm⟩
  · rw [if_neg hk] at ha
    by_cases hk' : k' = k.back
    · subst hk'
      rw [if_pos rfl, Option.map_eq_some_iff] at ha
      obtain ⟨b, hb, rfl⟩ := ha
      have hstart : asked.startOf now k = some (b.startAt.getD (now + startLead)) := by
        simp [Table.startOf, hb]
      obtain ⟨hb, hlive⟩ := Option.filter_eq_some_iff.mp hb
      exact .inr (.inl ⟨rfl, b, hb, hlive, by rw [hstart], rfl⟩)
    · rw [if_neg hk'] at ha
      exact .inr (.inr ⟨hk, hk', (Option.filter_eq_some_iff.mp ha).1⟩)

theorem Records.asking (h : Records s) {addr : SocketAddr} {stage : Stage}
    (htimely : s.clock ≤ now) (hfresh : k.asker ≠ k.peer → ∀ theirs ∈ s.asked k.back,
      live now theirs = true → ∀ st ∈ theirs.startAt, now ≤ st) :
    Records (s.asking now k addr stage) := by
  by_cases hne : k.asker = k.peer
  · refine h.dropped ?_ (by simp [Hall.asking, hne]) rfl htimely
    intro k' a ha
    simpa [Hall.asking, Table.record, hne] using ha
  have hlatest : ∀ k', (s.asking now k addr stage).latest k' =
      if k' = k then some ⟨k, addr, now, s.asks.length⟩ else s.latest k' := by
    intro k'
    simp only [Hall.latest, Hall.asking, if_neg hne, List.find?_cons]
    by_cases hk : k' = k
    · simp [hk]
    · simp [hk, Ne.symm hk]
  have hasks : (s.asking now k addr stage).asks = ⟨k, addr, now, s.asks.length⟩ :: s.asks := by
    simp [Hall.asking, hne]
  have hback : k.back ≠ k := Table.back_ne hne
  -- the start the pair is given is no earlier than either request
  have hstart : ∀ b, s.asked k.back = some b → live now b = true →
      now ≤ b.startAt.getD (now + startLead) ∧ b.arrived ≤ b.startAt.getD (now + startLead) := by
    intro b hb hlive
    cases hst : b.startAt with
    | none =>
      have hpast := h.past k.back b hb
      simp only [Option.getD_none, startLead]
      omega
    | some st => exact ⟨hfresh hne b hb hlive st hst, h.started k.back b st hb hst⟩
  refine ⟨?_, ?_, ?_, ?_, ?_, ?_, h.told, ?_, ?_, h.together⟩
  · intro k' a ha
    rw [hlatest]
    obtain ⟨rfl, rfl⟩ | ⟨rfl, b, hb, -, rfl, -⟩ | ⟨hk, -, hold⟩ := record_entry hne ha
    · exact ⟨_, if_pos rfl, rfl, rfl⟩
    · rw [if_neg hback]
      exact h.recent _ b hb
    · rw [if_neg hk]
      exact h.recent k' a hold
  · intro k' a ha
    obtain ⟨rfl, -⟩ | ⟨rfl, -⟩ | ⟨-, -, hold⟩ := record_entry hne ha
    · exact hne
    · exact Ne.symm hne
    · exact h.others k' a hold
  · intro k' a ha
    obtain ⟨-, rfl⟩ | ⟨-, b, hb, -, rfl, -⟩ | ⟨-, -, hold⟩ := record_entry hne ha
    · exact Nat.le_refl now
    · exact (h.past k' b hb).trans htimely
    · exact (h.past k' a hold).trans htimely
  · intro k' a st ha hst
    obtain ⟨rfl, rfl⟩ | ⟨rfl, b, hb, hlive, rfl, -⟩ | ⟨-, -, hold⟩ := record_entry hne ha
    · simp only [Table.startOf, Option.map_eq_some_iff, Option.filter_eq_some_iff] at hst
      obtain ⟨b, ⟨hb, hlive⟩, rfl⟩ := hst
      exact (hstart b hb hlive).1
    · rw [← Option.some.inj hst]
      exact (hstart b hb hlive).2
    · exact h.started k' a st hold hst
  · intro k' a b ha hb
    obtain ⟨rfl, rfl⟩ | ⟨rfl, c, hc, hlive, rfl, hshared⟩ | ⟨hk, hk', hold⟩ := record_entry hne ha
    · obtain ⟨heq, -⟩ | ⟨-, c, -, -, rfl, hshared⟩ | ⟨-, hother, -⟩ := record_entry hne hb
      · exact absurd heq hback
      · exact ⟨_, hshared, rfl⟩
      · exact absurd rfl hother
    · obtain ⟨-, rfl⟩ | ⟨heq, -⟩ | ⟨hother, -⟩ := record_entry hne hb
      · exact ⟨_, rfl, hshared⟩
      · exact absurd heq hback.symm
      · exact absurd rfl hother
    · obtain ⟨heq, -⟩ | ⟨heq, -⟩ | ⟨-, -, hold'⟩ := record_entry hne hb
      · exact absurd (congrArg Key.back heq) hk'
      · exact absurd (congrArg Key.back heq) hk
      · exact h.shared k' a b hold hold'
  · rw [hasks]
    intro r hr
    rw [List.length_cons]
    cases List.mem_cons.mp hr with
    | inl hnew => subst hnew; exact Nat.lt_succ_self _
    | inr hold => exact (h.numbered r hold).trans (Nat.lt_succ_self _)
  · rw [hasks]
    intro x hx m hm r hr
    obtain ⟨hm, hr⟩ := h.asks x hx m hm r hr
    exact ⟨List.mem_cons_of_mem _ hm, List.mem_cons_of_mem _ hr⟩
  · intro x hx a b ha hb hmine htheirs
    -- nobody was told anything of a request just made
    obtain ⟨m, r, hm, hr, -⟩ := h.told x hx
    obtain ⟨hmem, hrem⟩ := h.asks x hx m hm r hr
    have hfirst : x.key ≠ k := by
      intro heq
      rw [hlatest, if_pos heq, hm] at hmine
      have hlt := h.numbered m hmem
      rw [← Option.some.inj hmine] at hlt
      exact absurd hlt (Nat.lt_irrefl _)
    have hsecond : x.key.back ≠ k := by
      intro heq
      rw [hlatest, if_pos heq, hr] at htheirs
      have hlt := h.numbered r hrem
      rw [← Option.some.inj htheirs] at hlt
      exact absurd hlt (Nat.lt_irrefl _)
    rw [hlatest, if_neg hfirst] at hmine
    rw [hlatest, if_neg hsecond] at htheirs
    obtain ⟨heq, -⟩ | ⟨heq, -⟩ | ⟨-, -, hold⟩ := record_entry hne ha
    · exact absurd heq hfirst
    · exact absurd (congrArg Key.back heq) hsecond
    · obtain ⟨heq, -⟩ | ⟨heq, -⟩ | ⟨-, -, hold'⟩ := record_entry hne hb
      · exact absurd heq hsecond
      · exact absurd (congrArg Key.back heq) hfirst
      · exact h.same x hx a b hold hold' hmine htheirs

theorem discloses_record {addr : SocketAddr} (hne : k.asker ≠ k.peer) (asked : Table) :
    Discloses (asked.record now k addr).1 now k (asked.record now k addr).2 := by
  intro hready
  have hback : k.back ≠ k := Table.back_ne hne
  cases htheirs : (asked k.back).filter (live now) with
  | none =>
    rw [Table.record_unmade hne htheirs] at hready
    exact absurd hready Table.unanswered_ne_ready
  | some theirs =>
    have hstart : asked.startOf now k = some (theirs.startAt.getD (now + startLead)) := by
      simp [Table.startOf, htheirs]
    have hlive := (Option.filter_eq_some_iff.mp htheirs).2
    refine ⟨⟨addr, now, asked.startOf now k⟩,
      { theirs with startAt := asked.startOf now k }, ?_, ?_, hlive, ?_, ?_, ?_⟩
    · rw [Table.record_lookup hne, if_pos rfl]
    · rw [Table.record_lookup hne, if_neg hback, if_pos rfl, htheirs]
      rfl
    · simp only [hstart, Table.record_made hne htheirs]
    · simp only [Table.record_made hne htheirs]
    · simp only [Table.record_made hne htheirs]

end Sqex.Rendezvous
