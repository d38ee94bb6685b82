import Sqex.Lib.Columns
import Sqex.Lib.Runs
import Sqex.Lib.Windows
import Sqex.Proto.Credential

/-! Requests to be admitted, queued for an administrator. Each of the three tables has a lock of its
own, so a request looks among the denials at one time and goes into the queue at another; and so
does a denial. -/
namespace Sqex.Admission
open Credential Runs Windows

def maxPending : Nat := 64
def maxPerAccount : Nat := 8
def maxPerConnection : Nat := 4
def rateWindow : UInt64 := 60 * 60
def maxLabel : Nat := 64

structure Pending where
  device : PubKey
  account : PubKey
  notAfter : UInt64
  label : String
  firstSeen : UInt64
  /-- How many devices of the account are admitted already. -/
  siblings : Nat
  deriving DecidableEq

/-- A request that was not denied, on its way to the queue, with the time it came. -/
structure Asked where
  caller : PubKey
  connection : Option Bytes32
  account : PubKey
  notAfter : UInt64
  label : String
  siblings : Nat
  now : UInt64
  deriving DecidableEq

/-- The tables, what is between two of their locks, and what went into the queue so far. -/
structure Admissions where
  pending : List Pending
  denied : PubKey → Option UInt64
  accepted : Bytes32 → List UInt64
  asking : List Asked
  denying : List (PubKey × UInt64)
  entered : List Asked
  /-- The time of the request that last had the queue's lock. -/
  latest : UInt64

namespace Admissions

def new : Admissions := ⟨[], fun _ => none, fun _ => [], [], [], [], 0⟩

section
variable (s : Admissions) (a : Asked)

/-- Nothing is answered, whatever becomes of the request. -/
def ask (C : Crypto) (s : Admissions) (caller : PubKey) (connection : Option Bytes32)
    (credential : Credential) (label : String) (siblings : Nat) (now : UInt64) : Admissions :=
  if credential.delegate ≠ caller then s
  else if (credential.verify C credential.account scopeChat now).isOk = false then s
  else if maxLabel < (textBytes label).length then s
  else
    let denied d := (s.denied d).filter (now < ·)
    if (denied caller).isSome then { s with denied }
    else
      { s with
        denied
        asking := s.asking ++
          [⟨caller, connection, credential.account, credential.notAfter, label, siblings, now⟩] }

/-- Those whose credentials have not run out. -/
def current (pending : List Pending) (now : UInt64) : List Pending :=
  pending.filter fun p => now < p.notAfter

def enter : Admissions :=
  { s with
    pending := s.pending ++ [⟨a.caller, a.account, a.notAfter, a.label, a.now, a.siblings⟩]
    entered := s.entered ++ [a] }

/-- The times accepted from a connection that still count. -/
def counted (now : UInt64) (conn : Bytes32) : List UInt64 :=
  (s.accepted conn).filter fun t => Saturating.sub now t < rateWindow

/-- The rate is looked at last: it is the only limit that uses up what it allows. -/
def meter : Admissions :=
  match a.connection with
  | none => s.enter a
  | some conn =>
    if maxPerConnection ≤ (s.counted a.now conn).length then
      { s with accepted := s.counted a.now }
    else
      let accepted c := if c = conn then s.counted a.now c ++ [a.now] else s.counted a.now c
      { s with accepted }.enter a

def lineUp : Admissions :=
  let s := { s with pending := current s.pending a.now, latest := a.now }
  if s.pending.any (·.device == a.caller) then s
  else if maxPending ≤ s.pending.length then s
  else if maxPerAccount ≤ s.pending.countP (·.account == a.account) then s
  else s.meter a

/-- The request at a place among those on their way has the queue's lock. -/
def queue (i : Nat) : Admissions :=
  match s.asking[i]? with
  | none => s
  | some a => { s with asking := s.asking.eraseIdx i }.lineUp a

/-- What an administrator has to decide about, oldest first. -/
def list (now : UInt64) : List Pending × Admissions :=
  let s := { s with pending := current s.pending now }
  (s.pending.mergeSort fun p q =>
    p.firstSeen < q.firstSeen ∨ p.firstSeen = q.firstSeen ∧ p.device ≤ q.device, s)

def take (device : PubKey) : Option Pending × Admissions :=
  (s.pending.find? (·.device == device),
    { s with pending := s.pending.filter (·.device != device) })

/-- The refusal lasts as long as the credential refused, or an hour. -/
def deny (device : PubKey) (now : UInt64) : Admissions :=
  let (held, s) := s.take device
  let lasts := match held with
    | some p => p.notAfter
    | none => now + 3600
  { s with denying := s.denying ++ [(device, lasts)] }

def refuse (i : Nat) : Admissions :=
  match s.denying[i]? with
  | none => s
  | some (device, lasts) =>
    { s with
      denied := fun d => if d = device then some lasts else s.denied d
      denying := s.denying.eraseIdx i }

end

end Admissions

inductive Act where
  | ask (caller : PubKey) (connection : Option Bytes32) (credential : Credential) (label : String)
      (siblings : Nat) (now : UInt64)
  | queue (i : Nat)
  | list (now : UInt64)
  | take (device : PubKey)
  | deny (device : PubKey) (now : UInt64)
  | refuse (i : Nat)

namespace Admissions

def step (C : Crypto) (s : Admissions) : Act → Admissions
  | .ask caller connection credential label siblings now =>
    s.ask C caller connection credential label siblings now
  | .queue i => s.queue i
  | .list now => (s.list now).2
  | .take device => (s.take device).2
  | .deny device now => s.deny device now
  | .refuse i => s.refuse i

variable {C : Crypto} {s : Admissions} {a : Asked} {now : UInt64}

/-! What a step leaves of the queue. -/

/-- A credential that the account gave the device stood when the request came. -/
def Vouched (C : Crypto) (device account : PubKey) (notAfter now : UInt64) : Prop :=
  ∃ c : Credential, c.delegate = device ∧ c.account = account ∧ c.notAfter = notAfter ∧
    (c.verify C account scopeChat now).isOk = true

structure Sound (C : Crypto) (s : Admissions) : Prop where
  few : s.pending.length ≤ maxPending
  fewEach : ∀ account, s.pending.countP (·.account == account) ≤ maxPerAccount
  once : (s.pending.map (·.device)).Nodup
  vouched : ∀ p ∈ s.pending, Vouched C p.device p.account p.notAfter p.firstSeen ∧
    (textBytes p.label).length ≤ maxLabel
  asked : ∀ a ∈ s.asking, Vouched C a.caller a.account a.notAfter a.now ∧
    (textBytes a.label).length ≤ maxLabel

/-- A part of the queue is as sound as the whole. -/
theorem Sound.part {s' : Admissions} (h : s.Sound C) (hpending : s'.pending.Sublist s.pending)
    (hasking : ∀ a ∈ s'.asking, a ∈ s.asking) : s'.Sound C where
  few := hpending.length_le.trans h.few
  fewEach account := hpending.countP_le.trans (h.fewEach account)
  once := h.once.sublist (hpending.map _)
  vouched p hp := h.vouched p (hpending.subset hp)
  asked a ha := h.asked a (hasking a ha)

theorem Sound.enter (h : s.Sound C) (hnew : s.pending.any (·.device == a.caller) = false)
    (hroom : s.pending.length < maxPending)
    (heach : s.pending.countP (·.account == a.account) < maxPerAccount)
    (ha : Vouched C a.caller a.account a.notAfter a.now ∧
      (textBytes a.label).length ≤ maxLabel) : (s.enter a).Sound C where
  few := by
    simp only [Admissions.enter, List.length_append, List.length_singleton]
    omega
  fewEach account := by
    simp only [Admissions.enter, List.countP_append, List.countP_singleton]
    have hold := h.fewEach account
    split_ifs with hsame
    · rw [beq_iff_eq] at hsame
      subst hsame
      omega
    · omega
  once := by
    simp only [Admissions.enter, List.map_append, List.map_singleton]
    refine List.Nodup.append h.once (List.nodup_singleton _) ?_
    rw [List.disjoint_singleton]
    intro hmem
    obtain ⟨p, hp, hdevice⟩ := List.mem_map.mp hmem
    simp only [List.any_eq_false, beq_iff_eq] at hnew
    exact hnew p hp hdevice
  vouched p hp := by
    simp only [Admissions.enter, List.mem_append, List.mem_singleton] at hp
    cases hp with
    | inl hp => exact h.vouched p hp
    | inr hp => exact hp ▸ ha
  asked := h.asked

theorem Sound.meter (h : s.Sound C) (hnew : s.pending.any (·.device == a.caller) = false)
    (hroom : s.pending.length < maxPending)
    (heach : s.pending.countP (·.account == a.account) < maxPerAccount)
    (ha : Vouched C a.caller a.account a.notAfter a.now ∧
      (textBytes a.label).length ≤ maxLabel) : (s.meter a).Sound C := by
  unfold Admissions.meter
  cases a.connection with
  | none => exact h.enter hnew hroom heach ha
  | some conn =>
    simp only
    split_ifs
    · exact h.part (List.Sublist.refl _) fun _ ha => ha
    · exact Sound.enter (h.part (List.Sublist.refl _) fun _ ha => ha) hnew hroom heach ha

theorem Sound.lineUp (h : s.Sound C) (ha : Vouched C a.caller a.account a.notAfter a.now ∧
    (textBytes a.label).length ≤ maxLabel) : (s.lineUp a).Sound C := by
  have hcurrent : ({ s with pending := current s.pending a.now, latest := a.now }).Sound C :=
    h.part List.filter_sublist fun _ ha => ha
  simp only [Admissions.lineUp]
  split_ifs with hold hfull heach
  · exact hcurrent
  · exact hcurrent
  · exact hcurrent
  · exact hcurrent.meter (by simpa using hold) (by simpa using hfull) (by simpa using heach) ha

theorem Sound.step (h : s.Sound C) (act : Act) : (s.step C act).Sound C := by
  cases act with
  | ask caller connection credential label siblings now =>
    simp only [Admissions.step, ask]
    split_ifs with hcaller hverify hlabel hdenied
    · exact h
    · exact h
    · exact h
    · exact h.part (List.Sublist.refl _) fun _ ha => ha
    · refine { h with asked := fun a ha => ?_ }
      simp only [List.mem_append, List.mem_singleton] at ha
      cases ha with
      | inl ha => exact h.asked a ha
      | inr ha =>
        subst ha
        exact ⟨⟨credential, not_not.mp hcaller, rfl, rfl, by simpa using hverify⟩,
          Nat.not_lt.mp hlabel⟩
  | queue i =>
    simp only [Admissions.step, queue]
    split
    · exact h
    · rename_i a hi
      have hrest : ({ s with asking := s.asking.eraseIdx i }).Sound C :=
        h.part (List.Sublist.refl _) fun _ ha => List.mem_of_mem_eraseIdx ha
      exact hrest.lineUp (h.asked a (List.mem_of_getElem? hi))
  | list now | take device | deny device now => exact h.part List.filter_sublist fun _ ha => ha
  | refuse i =>
    simp only [Admissions.step, refuse]
    split
    · exact h
    · exact h.part (List.Sublist.refl _) fun _ ha => ha

theorem sound_new : new.Sound C := by
  constructor <;> simp [new]

/-- Over any interleaving the queue holds no more than it may, in all and for each account, no
device twice, and nothing but what an account's own credential for the device vouched for. -/
theorem queue_sound (C : Crypto) (acts : List Act) : Always (Sound C) (step C) new acts :=
  have hall : Each (fun _ _ => True) (step C) new acts := each_of_mem (fun _ _ _ => trivial) _
  hall.always (fun _ act h _ => h.step act) sound_new

/-- When the requests of a connection went into the queue. -/
def times (s : Admissions) (conn : Bytes32) : List Nat :=
  (s.entered.filter (·.connection == some conn)).map (·.now.toNat)

/-- What is kept of a connection's times counts as all of them would, now and later. -/
structure Metered (s : Admissions) : Prop where
  kept : ∀ conn, ∀ now, s.latest.toNat ≤ now →
    recent rateWindow.toNat now ((s.accepted conn).map (·.toNat)) =
      recent rateWindow.toNat now (s.times conn)
  past : ∀ a ∈ s.entered, a.now.toNat ≤ s.latest.toNat
  few : ∀ conn, Few rateWindow.toNat maxPerConnection (s.times conn)

/-- A request has the queue's lock in the order of the times the requests came. -/
def InTurn (s : Admissions) : Act → Prop
  | .queue i => ∀ a, s.asking[i]? = some a → s.latest ≤ a.now
  | _ => True

theorem Metered.same {s' : Admissions} (h : s.Metered) (haccepted : s'.accepted = s.accepted)
    (hentered : s'.entered = s.entered) (hlatest : s'.latest = s.latest) : s'.Metered where
  kept := by simpa [times, haccepted, hentered, hlatest] using h.kept
  past := by simpa [hentered, hlatest] using h.past
  few := by simpa [times, hentered] using h.few

theorem map_counted (s : Admissions) (now : UInt64) (conn : Bytes32) :
    (s.counted now conn).map (·.toNat) =
      recent rateWindow.toNat now.toNat ((s.accepted conn).map (·.toNat)) := by
  rw [counted, recent, List.filter_map]
  congr 1
  refine List.filter_congr fun t _ => ?_
  simp [UInt64.lt_iff_toNat_lt, Saturating.toNat_sub]

theorem times_enter (conn : Bytes32) : (s.enter a).times conn =
    s.times conn ++ if a.connection = some conn then [a.now.toNat] else [] := by
  by_cases hconn : a.connection = some conn
  · simp [times, Admissions.enter, hconn]
  · simp [times, Admissions.enter, hconn]

theorem Metered.enter {accepted : Bytes32 → List UInt64} (h : s.Metered)
    (hnow : s.latest.toNat = a.now.toNat)
    (hroom : ∀ conn, a.connection = some conn →
      (recent rateWindow.toNat a.now.toNat (s.times conn)).length < maxPerConnection)
    (hkept : ∀ conn, ∀ now, s.latest.toNat ≤ now →
      recent rateWindow.toNat now ((accepted conn).map (·.toNat)) =
        recent rateWindow.toNat now ((s.enter a).times conn)) :
    ({ s with accepted }.enter a).Metered where
  kept := hkept
  past b hb := by
    simp only [Admissions.enter, List.mem_append, List.mem_singleton] at hb
    cases hb with
    | inl hb => exact h.past b hb
    | inr hb => exact hb ▸ hnow.ge
  few conn := by
    have hsame : ({ s with accepted }.enter a).times conn = (s.enter a).times conn := rfl
    rw [hsame, times_enter]
    split_ifs with hconn
    · refine (h.few conn).concat (fun x hx => ?_) (hroom conn hconn)
      obtain ⟨b, hb, rfl⟩ := List.mem_map.mp hx
      exact hnow ▸ h.past b (List.mem_of_mem_filter hb)
    · simpa using h.few conn

theorem Metered.meter (h : s.Metered) (hnow : s.latest.toNat = a.now.toNat) :
    (s.meter a).Metered := by
  have hrecent : ∀ conn, (s.counted a.now conn).map (·.toNat) =
      recent rateWindow.toNat a.now.toNat (s.times conn) := fun conn => by
    rw [map_counted, h.kept conn _ hnow.le]
  have hlater : ∀ conn now, s.latest.toNat ≤ now →
      recent rateWindow.toNat now ((s.counted a.now conn).map (·.toNat)) =
        recent rateWindow.toNat now (s.times conn) := fun conn now hle => by
    rw [hrecent, recent_recent (hnow ▸ hle)]
  unfold Admissions.meter
  cases hconn : a.connection with
  | none =>
    refine @Metered.enter _ _ s.accepted h hnow (by simp [hconn]) fun conn now hle => ?_
    rw [times_enter, hconn, if_neg (by simp), List.append_nil, h.kept conn now hle]
  | some conn =>
    simp only
    split_ifs with hfull
    · exact ⟨hlater, h.past, h.few⟩
    · refine h.enter hnow (fun conn' hconn' => ?_) fun conn' now hle => ?_
      · obtain rfl := Option.some.inj (hconn.symm.trans hconn')
        rw [← hrecent, List.length_map]
        omega
      · rw [times_enter, hconn]
        by_cases hsame : conn' = conn
        · subst hsame
          simp only [if_true, List.map_append, List.map_singleton, recent, List.filter_append]
          exact congrArg (· ++ _) (hlater conn' now hle)
        · rw [if_neg hsame, if_neg (by simpa using Ne.symm hsame), List.append_nil,
            hlater conn' now hle]

theorem Metered.lineUp (h : s.Metered) (hlatest : s.latest ≤ a.now) : (s.lineUp a).Metered := by
  have hle := UInt64.le_iff_toNat_le.mp hlatest
  have hnow : ({ s with pending := current s.pending a.now, latest := a.now }).Metered := by
    refine ⟨fun conn now hnow => h.kept conn now (hle.trans hnow), ?_, h.few⟩
    exact fun b hb => (h.past b hb).trans hle
  simp only [Admissions.lineUp]
  split_ifs
  · exact hnow
  · exact hnow
  · exact hnow
  · exact hnow.meter rfl

theorem Metered.step (h : s.Metered) {act : Act} (hturn : s.InTurn act) :
    (s.step C act).Metered := by
  cases act with
  | ask =>
    simp only [Admissions.step, ask]
    split_ifs <;> exact h.same rfl rfl rfl
  | queue i =>
    simp only [Admissions.step, queue]
    split
    · exact h
    · have hrest : ({ s with asking := s.asking.eraseIdx i }).Metered := h.same rfl rfl rfl
      exact hrest.lineUp (hturn _ ‹_›)
  | list | take | deny => exact h.same rfl rfl rfl
  | refuse i =>
    simp only [Admissions.step, refuse]
    split <;> exact h.same rfl rfl rfl

/-- Over any interleaving in which requests are queued in their turn, no connection's requests go
into the queue more often than its window allows, however its times are let go of. -/
theorem queued_seldom {acts : List Act} (h : Each InTurn (step C) new acts) (conn : Bytes32) :
    Few 3600 maxPerConnection ((run (step C) new acts).times conn) := by
  have hnew : new.Metered := by
    constructor <;> simp [new, times, few_nil]
  exact (h.run (fun _ _ hmetered hturn => hmetered.step hturn) hnew).few conn

instance (s : Admissions) : (act : Act) → Decidable (s.InTurn act)
  | .queue i => inferInstanceAs (Decidable (∀ a ∈ s.asking[i]?, s.latest ≤ a.now))
  | .ask .. | .list _ | .take _ | .deny .. | .refuse _ => isTrue trivial

/-- An account's credential for a device, signed. -/
def phone (device : PubKey) : Credential where
  account := Crypto.toy.publicKey 1
  delegate := device
  scope := scopeChat
  issued := 0
  notAfter := 9000
  signature :=
    Crypto.toy.sign 1 (signingInput .toy (body (Crypto.toy.publicKey 1) device scopeChat 0 9000))

/-- The fifth device of a connection is kept out of the queue within the hour, and let in after. -/
theorem queued_seldom_phones :
    let asked (device : PubKey) (now : UInt64) : List Act :=
      [.ask device (some 9) (phone device) "phone" 0 now, .queue 0, .take device]
    let acts := asked 5 10 ++ asked 6 20 ++ asked 7 30 ++ asked 8 40 ++ asked 3 50 ++ asked 3 3615
    (run (step .toy) new acts).times 9 = [10, 20, 30, 40, 3615] ∧
      Few 3600 maxPerConnection ((run (step .toy) new acts).times 9) :=
  ⟨by decide +kernel, queued_seldom (by decide +kernel) 9⟩

/-- A device that was denied, with nothing of it queued or on its way. -/
structure Refused (d : PubKey) (lasts : UInt64) (s : Admissions) : Prop where
  denied : s.denied d = some lasts
  gone : ∀ p ∈ s.pending, p.device ≠ d
  silent : ∀ a ∈ s.asking, a.caller ≠ d
  settled : ∀ r ∈ s.denying, r.1 ≠ d

/-- While a denial lasts, and not one of the device again: that takes up to an hour off it. -/
def Within (d : PubKey) (lasts : UInt64) : Act → Prop
  | .ask _ _ _ _ _ now => now < lasts
  | .deny device _ => device ≠ d
  | _ => True

variable {d : PubKey} {lasts : UInt64}

theorem Refused.part {s' : Admissions} (h : s.Refused d lasts)
    (hdenied : s'.denied d = s.denied d) (hpending : ∀ p ∈ s'.pending, p ∈ s.pending)
    (hasking : ∀ a ∈ s'.asking, a ∈ s.asking) (hdenying : ∀ r ∈ s'.denying, r ∈ s.denying) :
    s'.Refused d lasts where
  denied := hdenied.trans h.denied
  gone p hp := h.gone p (hpending p hp)
  silent a ha := h.silent a (hasking a ha)
  settled r hr := h.settled r (hdenying r hr)

theorem Refused.enter (h : s.Refused d lasts) (ha : a.caller ≠ d) :
    (s.enter a).Refused d lasts := by
  refine { h with gone := fun p hp => ?_ }
  simp only [Admissions.enter, List.mem_append, List.mem_singleton] at hp
  cases hp with
  | inl hp => exact h.gone p hp
  | inr hp => exact hp ▸ ha

theorem Refused.lineUp (h : s.Refused d lasts) (ha : a.caller ≠ d) :
    (s.lineUp a).Refused d lasts := by
  have hcurrent : ({ s with pending := current s.pending a.now, latest := a.now }).Refused
      d lasts := h.part rfl (fun _ hp => List.mem_of_mem_filter hp) (fun _ h => h) fun _ h => h
  simp only [Admissions.lineUp, Admissions.meter]
  split_ifs
  · exact hcurrent
  · exact hcurrent
  · exact hcurrent
  · split
    · exact hcurrent.enter ha
    · split_ifs
      · exact hcurrent.part rfl (fun _ h => h) (fun _ h => h) fun _ h => h
      · exact Refused.enter (hcurrent.part rfl (fun _ h => h) (fun _ h => h) fun _ h => h) ha

theorem Refused.step (h : s.Refused d lasts) {act : Act} (hact : Within d lasts act) :
    (s.step C act).Refused d lasts := by
  cases act with
  | ask caller connection credential label siblings now =>
    have hkept : (s.denied d).filter (now < ·) = some lasts := by
      have hlasts : now < lasts := hact
      simp [h.denied, hlasts]
    simp only [Admissions.step, ask]
    split_ifs with hcaller hverify hlabel hdenied
    · exact h
    · exact h
    · exact h
    · exact ⟨hkept, h.gone, h.silent, h.settled⟩
    · refine ⟨hkept, h.gone, fun a ha => ?_, h.settled⟩
      simp only [List.mem_append, List.mem_singleton] at ha
      cases ha with
      | inl ha => exact h.silent a ha
      | inr ha =>
        rintro hd
        rw [ha] at hd
        have hcaller' : caller = d := hd
        exact hdenied (by rw [hcaller', hkept]; rfl)
  | queue i =>
    simp only [Admissions.step, queue]
    split
    · exact h
    · rename_i a hi
      exact Refused.lineUp (h.part rfl (fun _ hp => hp) (fun _ ha => List.mem_of_mem_eraseIdx ha)
        fun _ hr => hr) (h.silent a (List.mem_of_getElem? hi))
  | list | take =>
    exact h.part rfl (fun _ hp => List.mem_of_mem_filter hp) (fun _ ha => ha) fun _ hr => hr
  | deny device now =>
    refine ⟨h.denied, fun p hp => h.gone p (List.mem_of_mem_filter hp), h.silent, fun r hr => ?_⟩
    simp only [Admissions.step, deny, take, List.mem_append, List.mem_singleton] at hr
    cases hr with
    | inl hr => exact h.settled r hr
    | inr hr => exact hr ▸ hact
  | refuse i =>
    simp only [Admissions.step, refuse]
    split
    · exact h
    · rename_i device lasts' hi
      have hne : device ≠ d := h.settled _ (List.mem_of_getElem? hi)
      exact h.part (if_neg (Ne.symm hne)) (fun _ hp => hp) (fun _ ha => ha)
        fun _ hr => List.mem_of_mem_eraseIdx hr

/-- A device that was denied stays out of the queue, whatever is asked, queued, listed, decided and
denied, while nobody's request reads a clock its denial is over by: whoever asks forgets it then. -/
theorem denied_stays_out {acts : List Act} (h : s.Refused d lasts)
    (hacts : ∀ act ∈ acts, Within d lasts act) : Always (Refused d lasts) (step C) s acts :=
  have hall : Each (fun _ act => Within d lasts act) (step C) s acts :=
    each_of_mem (fun act hact _ => hacts act hact) _
  hall.always (fun _ _ h hact => h.step hact) h

theorem denied_stays_out_phone :
    Always (Refused 5 3600) (step .toy) ((new.deny 5 0).refuse 0)
      [.ask 5 none (phone 5) "phone" 0 10, .queue 0] :=
  denied_stays_out ⟨rfl, by simp [new, deny, take, refuse], by simp [new, deny, take, refuse],
    by simp [new, deny, take, refuse]⟩ (by simp [Within])

end Admissions
end Sqex.Admission
