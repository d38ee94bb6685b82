import Sqex.Lib.Columns
import Sqex.Lib.Tables
import Sqex.Lib.Traces
import Sqex.Proto.EventWire

/-! Wakes for devices that hold no stream: where each is to be woken, what the waker is told, and
whom it posts to, one device of a batch after another, while everything else goes on. -/
namespace Sqex.Waking
open EventWire Runs Tables

def wakeMinSecs : UInt64 := 30

/-- A row of the `wake` table; one collected from a former home names the account it is of. -/
structure WakeRow where
  device : PubKey
  account : Option PubKey
  endpoint : String
  expires : UInt64
  woken : UInt64
  quiet : Bool

structure Told where
  accounts : List PubKey
  devices : List PubKey
  urgent : Bool

def urgent : Event → Bool
  | .ringing .. | .crossCall .. => true
  | _ => false

/-- A signal or a cursor is momentary, and a heartbeat or a resync is about the stream itself. -/
def wakes : Event → Bool
  | .signal _ | .cursor _ | .heartbeat | .resync | .unknown _ => false
  | _ => true

/-- A device to be woken, where, and when it last was. -/
structure Item where
  device : PubKey
  endpoint : String
  woken : UInt64

def WakeRow.item (r : WakeRow) : Item := ⟨r.device, r.endpoint, r.woken⟩

/-- What the waker took up last, and those of it that it has not come to. -/
structure Batch where
  number : Nat
  now : UInt64
  urgent : Bool
  items : List Item

structure Waker where
  rows : List WakeRow
  streams : PubKey → Nat
  /-- Devices whose last stream is closed, which the table has not been told. -/
  releasing : List PubKey
  queue : List Told
  batch : Batch

def setWoken (device : PubKey) (woken : UInt64) (rows : List WakeRow) : List WakeRow :=
  rows.map fun r => if r.device = device then { r with woken } else r

namespace Waker

section
variable (s : Waker)

def registerWake (device : PubKey) (endpoint : String) (ttl : UInt32) (quiet : Bool) (now : UInt64) :
    Waker :=
  let expires := now + ttl.toUInt64
  { s with
    rows := upsert (·.device == device) (fun r => { r with endpoint, expires, quiet })
      ⟨device, none, endpoint, expires, 0, quiet⟩ s.rows }

/-- A registration the device already made here stands. -/
def importWake (device account : PubKey) (endpoint : String) (until_ : UInt64) : Waker :=
  { s with
    rows := insertOrIgnore (·.device == device)
      ⟨device, some account, endpoint, until_, 0, false⟩ s.rows }

def forgetWake (device : PubKey) : Waker :=
  { s with rows := s.rows.filter (·.device != device) }

def subscribe (device : PubKey) : Waker :=
  { s with streams := Function.update s.streams device (s.streams device + 1) }

def unsubscribe (device : PubKey) : Waker :=
  { s with
    streams := Function.update s.streams device (s.streams device - 1)
    releasing := if s.streams device = 1 then s.releasing ++ [device] else s.releasing }

/-- The wake it was sent has been answered: the next event is the first of a new absence. -/
def released (i : Nat) : Waker :=
  match s.releasing[i]? with
  | none => s
  | some device =>
    { s with rows := setWoken device 0 s.rows, releasing := s.releasing.eraseIdx i }

def tell (accounts : List PubKey) (event : Event) : Waker :=
  if accounts.isEmpty || !wakes event then s
  else { s with queue := s.queue ++ [⟨accounts, [], urgent event⟩] }

def tellDevice (device : PubKey) (event : Event) : Waker :=
  if !wakes event then s else { s with queue := s.queue ++ [⟨[], [device], urgent event⟩] }

def wakeableDevice (now : UInt64) (device : PubKey) : Option Item :=
  (s.rows.find? fun r => r.device == device && decide (now ≤ r.expires)).map (·.item)

/-- The devices registered to an account, or the account where none is, and those it brought. -/
def wakeable (now : UInt64) (registered : List PubKey) (account : PubKey) : List Item :=
  let devices := if registered.isEmpty then [account] else registered
  (s.rows.filter fun r => r.account == some account && decide (now ≤ r.expires)).foldl
    (fun out r => if out.any (·.device == r.device) then out else out ++ [r.item])
    (devices.filterMap (s.wakeableDevice now))

/-- The waker takes up what it was told next, once it is through with what it took up last. -/
def collect (registered : PubKey → List PubKey) (now : UInt64) : Waker :=
  match s.batch.items, s.queue with
  | [], told :: queue =>
    let items := told.accounts.flatMap (fun a => s.wakeable now (registered a) a) ++
      told.devices.filterMap (s.wakeableDevice now)
    { s with queue, batch := ⟨s.batch.number + 1, now, told.urgent, items⟩ }
  | _, _ => s

def due (i : Item) : Bool :=
  s.streams i.device == 0 &&
    (s.batch.urgent || decide (wakeMinSecs ≤ Saturating.sub s.batch.now i.woken))

def next (clock : UInt64) : Waker :=
  match s.batch.items with
  | [] => s
  | i :: items =>
    let rows := if s.due i then setWoken i.device clock s.rows else s.rows
    { s with rows, batch := { s.batch with items } }

end

end Waker

inductive Act where
  | register (device : PubKey) (endpoint : String) (ttl : UInt32) (quiet : Bool) (now : UInt64)
  | collected (device account : PubKey) (endpoint : String) (until_ : UInt64)
  /-- The device asks for it, or the distributor no longer knows the endpoint. -/
  | forget (device : PubKey)
  | subscribe (device : PubKey)
  | unsubscribe (device : PubKey)
  | released (i : Nat)
  | tell (accounts : List PubKey) (event : Event)
  | tellDevice (device : PubKey) (event : Event)
  | collect (registered : PubKey → List PubKey) (now : UInt64)
  | next (clock : UInt64)

/-- A device is woken, or its registration or its absence begins. -/
inductive Said where
  | anew (device : PubKey)
  | woke (device : PubKey) (urgent : Bool) (now clock : UInt64) (batch : Nat)

def Said.device : Said → PubKey
  | .anew d | .woke d .. => d

namespace Waker

def step (s : Waker) : Act → Waker
  | .register device endpoint ttl quiet now => s.registerWake device endpoint ttl quiet now
  | .collected device account endpoint until_ => s.importWake device account endpoint until_
  | .forget device => s.forgetWake device
  | .subscribe device => s.subscribe device
  | .unsubscribe device => s.unsubscribe device
  | .released i => s.released i
  | .tell accounts event => s.tell accounts event
  | .tellDevice device event => s.tellDevice device event
  | .collect registered now => s.collect registered now
  | .next clock => s.next clock

def fresh (s : Waker) (device : PubKey) : List Said :=
  if s.rows.any (·.device == device) then [] else [.anew device]

def logs (s : Waker) : Act → List Said
  | .register device .. | .collected device .. => s.fresh device
  | .released i => (s.releasing[i]?.map .anew).toList
  | .next clock =>
    match s.batch.items with
    | i :: _ =>
      if s.due i then [.woke i.device s.batch.urgent s.batch.now clock s.batch.number] else []
    | [] => []
  | _ => []

end Waker

/-- A wake that is no ring's comes so long after the wake before it, unless they are of one batch
that has the device twice. -/
def Spaced : Said → Said → Prop
  | .woke _ _ _ clock k, .woke _ urgent now _ k' =>
    urgent = true ∨ k = k' ∨ clock.toNat + wakeMinSecs.toNat ≤ now.toNat
  | _, _ => True

/-- The table and the batch know when the device was last woken. -/
def Follows (d : PubKey) (s : Waker) : Said → Prop
  | .anew _ => True
  | .woke _ _ _ clock k => (∀ r ∈ s.rows, r.device = d → r.woken = clock) ∧
    ∀ i ∈ s.batch.items, i.device = d → i.woken = clock ∨ k = s.batch.number

namespace Waker
variable {d : PubKey} {s s' : Waker} {last : Said} {now : UInt64}

theorem follows_same (h : Follows d s last)
    (hrows : ∀ r ∈ s'.rows, r.device = d → ∃ r' ∈ s.rows, r'.device = d ∧ r'.woken = r.woken)
    (hitems : ∀ i ∈ s'.batch.items, i ∈ s.batch.items)
    (hnumber : s'.batch.number = s.batch.number) : Follows d s' last := by
  cases last with
  | anew => trivial
  | woke _ _ _ clock k =>
    constructor
    · intro r hr hd
      obtain ⟨r', hr', hd', hwoken⟩ := hrows r hr hd
      exact hwoken ▸ h.1 r' hr' hd'
    · intro i hi hd
      rw [hnumber]
      exact h.2 i (hitems i hi) hd

theorem mem_wakeableDevice {device : PubKey} {i : Item} (h : s.wakeableDevice now device = some i) :
    ∃ r ∈ s.rows, r.item = i := by
  obtain ⟨r, hr, hitem⟩ := Option.map_eq_some_iff.mp h
  exact ⟨r, List.mem_of_find?_eq_some hr, hitem⟩

theorem mem_wakeable {registered : List PubKey} {account : PubKey} {i : Item}
    (h : i ∈ s.wakeable now registered account) : ∃ r ∈ s.rows, r.item = i := by
  have hfold : ∀ (held : List WakeRow) (out : List Item), (∀ r ∈ held, r ∈ s.rows) →
      (∀ i ∈ out, ∃ r ∈ s.rows, r.item = i) → ∀ i ∈ held.foldl
        (fun out r => if out.any (·.device == r.device) then out else out ++ [r.item]) out,
        ∃ r ∈ s.rows, r.item = i := by
    intro held
    induction held with
    | nil => exact fun out _ hout => hout
    | cons r held ih =>
      intro out hheld hout
      rw [List.forall_mem_cons] at hheld
      apply ih _ hheld.2
      intro i hi
      dsimp only at hi
      split at hi
      · exact hout i hi
      · rcases List.mem_append.mp hi with hold | hnew
        · exact hout i hold
        · exact ⟨r, hheld.1, (List.mem_singleton.mp hnew).symm⟩
  refine hfold _ _ (fun r hr => List.mem_of_mem_filter hr) (fun i hi => ?_) i h
  obtain ⟨device, -, hdevice⟩ := List.mem_filterMap.mp hi
  exact mem_wakeableDevice hdevice

theorem follows_collect (registered : PubKey → List PubKey) (h : Follows d s last) :
    Follows d (s.collect registered now) last := by
  unfold collect
  split
  · cases last with
    | anew => trivial
    | woke _ _ _ clock k =>
      refine ⟨h.1, fun i hi hd => .inl ?_⟩
      have hrow : ∃ r ∈ s.rows, r.item = i := by
        rcases List.mem_append.mp hi with hi | hi
        · obtain ⟨a, -, ha⟩ := List.mem_flatMap.mp hi
          exact mem_wakeable ha
        · obtain ⟨device, -, hdevice⟩ := List.mem_filterMap.mp hi
          exact mem_wakeableDevice hdevice
      obtain ⟨r, hr, rfl⟩ := hrow
      exact h.1 r hr hd
  · exact h

theorem setWoken_other {device : PubKey} {woken : UInt64} (hne : device ≠ d) :
    ∀ r ∈ setWoken device woken s.rows, r.device = d →
      ∃ r' ∈ s.rows, r'.device = d ∧ r'.woken = r.woken := by
  intro r hr hd
  obtain ⟨r', hr', rfl⟩ := List.mem_map.mp hr
  split_ifs at hd ⊢ with hsame
  · exact absurd (hsame.symm.trans hd) hne
  · exact ⟨r', hr', hd, rfl⟩

theorem follows_registered {rows : List WakeRow} (device : PubKey) (h : Follows d s last)
    (hheld : s.rows.any (·.device == device) = true → ∀ r ∈ rows,
      ∃ r' ∈ s.rows, r'.device = r.device ∧ r'.woken = r.woken)
    (hother : ∀ r ∈ rows, r.device ≠ device →
      ∃ r' ∈ s.rows, r'.device = r.device ∧ r'.woken = r.woken) :
    ((s.fresh device).filter (·.device == d) = [] ∧ Follows d { s with rows } last) ∨
      ∃ x, (s.fresh device).filter (·.device == d) = [x] ∧ Spaced last x ∧
        Follows d { s with rows } x := by
  by_cases hd : device = d
  · subst hd
    cases hany : s.rows.any (·.device == device) with
    | true =>
      refine .inl ⟨by simp [fresh, hany], follows_same h (fun r hr hr' => ?_) (fun _ hi => hi) rfl⟩
      exact hr' ▸ hheld hany r hr
    | false =>
      refine .inr ⟨.anew device, by simp [fresh, hany, Said.device], ?_, trivial⟩
      cases last <;> trivial
  · refine .inl ⟨?_, follows_same h (fun r hr hr' => ?_) (fun _ hi => hi) rfl⟩
    · unfold fresh
      split <;> simp [Said.device, hd]
    · exact hr' ▸ hother r hr (fun heq => hd (heq.symm.trans hr'))

theorem follows_next (clock : UInt64) (h : Follows d s last) :
    ((s.logs (.next clock)).filter (·.device == d) = [] ∧ Follows d (s.next clock) last) ∨
      ∃ x, (s.logs (.next clock)).filter (·.device == d) = [x] ∧ Spaced last x ∧
        Follows d (s.next clock) x := by
  simp only [logs, next]
  cases hitems : s.batch.items with
  | nil => exact .inl ⟨rfl, h⟩
  | cons i items =>
    have hleft : ∀ j ∈ items, j ∈ s.batch.items := fun j hj => hitems ▸ List.mem_cons_of_mem i hj
    dsimp only
    cases hdue : s.due i with
    | false =>
      simp only [Bool.false_eq_true, if_false]
      exact .inl ⟨rfl, follows_same h (fun r hr hr' => ⟨r, hr, hr', rfl⟩) hleft rfl⟩
    | true =>
      simp only [if_true]
      by_cases hd : i.device = d
      · refine .inr ⟨.woke i.device s.batch.urgent s.batch.now clock s.batch.number,
          by simp [Said.device, hd], ?_, ?_, fun _ _ _ => .inr rfl⟩
        · cases last with
          | anew => trivial
          | woke _ _ _ before k =>
            rcases h.2 i (hitems ▸ List.mem_cons_self) hd with hwoken | hbatch
            · simp only [due, hwoken, Bool.and_eq_true, Bool.or_eq_true, decide_eq_true_eq,
                UInt64.le_iff_toNat_le, Saturating.toNat_sub] at hdue
              have hmin : wakeMinSecs.toNat = 30 := rfl
              rcases hdue.2 with hurgent | hlong
              · exact .inl hurgent
              · exact .inr (.inr (by omega))
            · exact .inr (.inl hbatch)
        · intro r hr hr'
          obtain ⟨r', -, rfl⟩ := List.mem_map.mp hr
          split_ifs at hr' ⊢ with hsame
          · rfl
          · exact absurd (hr'.trans hd.symm) hsame
      · exact .inl ⟨by simp [Said.device, hd], follows_same h (setWoken_other hd) hleft rfl⟩

/-- What a step says of the device follows what was said of it last, or it says nothing. -/
theorem follows_step (d : PubKey) (s : Waker) (act : Act) (last : Said) (h : Follows d s last) :
    ((s.logs act).filter (·.device == d) = [] ∧ Follows d (s.step act) last) ∨
      ∃ x, (s.logs act).filter (·.device == d) = [x] ∧ Spaced last x ∧
        Follows d (s.step act) x := by
  cases act with
  | register device endpoint ttl quiet now =>
    refine follows_registered device h (fun hany r hr => ?_) fun r hr hne => ?_
    · simp only [upsert, hany, if_true] at hr
      obtain ⟨r', hr', rfl⟩ := List.mem_map.mp hr
      exact ⟨r', hr', by split_ifs <;> simp⟩
    · unfold upsert at hr
      split at hr
      · obtain ⟨r', hr', rfl⟩ := List.mem_map.mp hr
        exact ⟨r', hr', by split_ifs <;> simp⟩
      · rcases List.mem_cons.mp hr with rfl | hold
        · exact absurd rfl hne
        · exact ⟨r, hold, rfl, rfl⟩
  | collected device account endpoint until_ =>
    refine follows_registered device h (fun hany r hr => ?_) fun r hr hne => ?_
    · simp only [insertOrIgnore, hany, if_true] at hr
      exact ⟨r, hr, rfl, rfl⟩
    · rcases mem_of_insertOrIgnore hr with rfl | hold
      · exact absurd rfl hne
      · exact ⟨r, hold, rfl, rfl⟩
  | forget device =>
    exact .inl ⟨rfl, follows_same h (fun r hr hr' => ⟨r, List.mem_of_mem_filter hr, hr', rfl⟩)
      (fun _ hi => hi) rfl⟩
  | subscribe | unsubscribe =>
    exact .inl ⟨rfl, follows_same h (fun r hr hr' => ⟨r, hr, hr', rfl⟩) (fun _ hi => hi) rfl⟩
  | released i =>
    simp only [logs, step, released]
    cases s.releasing[i]? with
    | none => exact .inl ⟨rfl, h⟩
    | some device =>
      by_cases hd : device = d
      · refine .inr ⟨.anew device, by simp [Said.device, hd], ?_, trivial⟩
        cases last <;> trivial
      · exact .inl ⟨by simp [Said.device, hd],
          follows_same h (setWoken_other hd) (fun _ hi => hi) rfl⟩
  | tell | tellDevice =>
    refine .inl ⟨rfl, ?_⟩
    simp only [step, tell, tellDevice]
    split_ifs
    · exact h
    · exact follows_same h (fun r hr hr' => ⟨r, hr, hr', rfl⟩) (fun _ hi => hi) rfl
  | collect registered now => exact .inl ⟨rfl, follows_collect registered h⟩
  | next clock => exact follows_next clock h

/-- Over any interleaving, the wakes of a device that stays away come so far apart, but for rings,
and for a batch that has it twice. -/
theorem wakes_spaced (s : Waker) (acts : List Act) (d : PubKey) :
    ((emitted logs step s acts).filter (·.device == d)).IsChain Spaced := by
  have hstart : Follows d s (.anew d) := trivial
  exact List.isChain_of_isChain_cons (emitted_chain (follows_step d) hstart acts)

end Waker
end Sqex.Waking
