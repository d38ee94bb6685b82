import Sqex.Lib.Tables
import Sqex.Lib.Traces
import Sqex.Proto.Profile

/-! The profiles an exchange holds, each the record its subject signed, and who is kept from whom:
what may be put, how often, and what anybody is shown. -/
namespace Sqex.Subject
open Runs Tables

/-- A row of the `profile` table; those from before records were signed have none. -/
structure Row where
  flags : UInt8
  updated : UInt64
  hour : UInt64
  inHour : Nat
  serial : UInt64
  record : Bytes
  deriving DecidableEq

structure BlockRow where
  account : PubKey
  blocked : PubKey
  at' : UInt64
  deriving DecidableEq

inductive ProfileError where
  | tooManyBlocked | rateLimited | notYours | badSignature | stale
  deriving DecidableEq

/-- A profile, or its absence in the same shape. -/
structure Got where
  found : Bool
  updated : UInt64
  now : UInt64
  record : Option Record
  deriving DecidableEq

def Got.none (now : UInt64) : Got := ⟨false, 0, now, .none⟩

structure Profiles where
  rows : PubKey → Option Row
  blocks : List BlockRow

namespace Profiles

/-- Replace a profile whole. Serials order the records, and the clock only how many there are. -/
def put (C : Crypto) (s : Profiles) (account : PubKey) (record : Record) (now : UInt64) :
    Except ProfileError Profiles :=
  if record.account ≠ account then .error .notYours
  else if record.verify C = false then .error .badSignature
  else
    let hour := now / 3600
    let held := s.rows account
    if held.any (record.serial ≤ ·.serial) then .error .stale
    else
      let used := match held with
        | some row => if row.hour = hour then row.inHour else 0
        | .none => 0
      if maxUpdatesPerHour ≤ used then .error .rateLimited
      else
        let row := ⟨record.profile.flags, now, hour, used + 1, record.serial, record.encode⟩
        .ok { s with rows := fun a => if a = account then some row else s.rows a }

def blockedBy (s : Profiles) (account other : PubKey) : Bool :=
  s.blocks.any fun b => b.account == account && b.blocked == other

/-- Absent, withheld and blocked all answer alike. -/
def get (s : Profiles) (caller subject : PubKey) (sharesAChannel : PubKey → PubKey → Bool)
    (now : UInt64) : Got :=
  if s.blockedBy subject caller then .none now
  else
    match s.rows subject with
    | none => .none now
    | some row =>
      let withheld := row.flags &&& flagWithhold != 0
      if withheld && caller != subject && !sharesAChannel caller subject then .none now
      else
        let record := if row.record.isEmpty then none else (Record.decode row.record).toOption
        ⟨true, row.updated, now, record⟩

def setBlock (s : Profiles) (account other : PubKey) (add : Bool) (now : UInt64) :
    Except ProfileError Profiles :=
  let same (b : BlockRow) : Bool := b.account == account && b.blocked == other
  if add then
    if maxBlocked ≤ s.blocks.countP (·.account == account) then .error .tooManyBlocked
    else .ok { s with blocks := insertOrIgnore same ⟨account, other, now⟩ s.blocks }
  else .ok { s with blocks := s.blocks.filter (!same ·) }

/-- An account's block list is its successor's, as far as that does not have it yet. -/
def succeed (s : Profiles) (account successor : PubKey) : Profiles :=
  { s with
    blocks := s.blocks.filterMap fun b =>
      if b.account = account then
        if s.blockedBy successor b.blocked then none else some { b with account := successor }
      else some b }

end Profiles

def typePut : UInt8 := 0x01

/-- The record in the body of a put. -/
def Put.decode : Bytes → Except Error Record
  | [] => .error (.malformed "not a profile put")
  | t :: b => if t ≠ typePut then .error (.malformed "not a profile put") else Record.decode b

inductive Act where
  | put (account : PubKey) (body : Bytes) (now : UInt64)
  | setBlock (account other : PubKey) (add : Bool) (now : UInt64)
  | succeed (account successor : PubKey)

/-- A record taken, and when. -/
structure Taken where
  record : Record
  now : UInt64

namespace Profiles

/-- What a request to put a profile stores, and what it takes. -/
def putAsked (C : Crypto) (s : Profiles) (account : PubKey) (body : Bytes) (now : UInt64) :
    Option (Record × Profiles) :=
  (Put.decode body).toOption.bind fun record =>
    (s.put C account record now).toOption.map (record, ·)

def step (C : Crypto) (s : Profiles) : Act → Profiles
  | .put account body now => ((s.putAsked C account body now).map (·.2)).getD s
  | .setBlock account other add now => ((s.setBlock account other add now).toOption).getD s
  | .succeed account successor => s.succeed account successor

def takes (C : Crypto) (s : Profiles) : Act → List Taken
  | .put account body now => ((s.putAsked C account body now).map (⟨·.1, now⟩)).toList
  | _ => []

variable {C : Crypto} {s s' : Profiles} {account : PubKey} {record : Record} {now : UInt64}

/-- All a put that goes through does. -/
theorem put_ok (h : s.put C account record now = .ok s') : record.account = account ∧
    record.verify C = true ∧ (∀ row, s.rows account = some row → row.serial < record.serial) ∧
    ∃ used < maxUpdatesPerHour,
      (used = 0 ∧ (∀ row, s.rows account = some row → row.hour ≠ now / 3600) ∨
        ∃ row, s.rows account = some row ∧ row.hour = now / 3600 ∧ row.inHour = used) ∧
      s' = { s with
        rows := fun a => if a = account then
          some ⟨record.profile.flags, now, now / 3600, used + 1, record.serial, record.encode⟩
          else s.rows a } := by
  simp only [put] at h
  split_ifs at h with haccount hverify hstale hrate
  have hserial : ∀ row, s.rows account = some row → row.serial < record.serial := by
    intro row hrow
    simpa [hrow] using hstale
  refine ⟨not_not.mp haccount, by simpa using hverify, hserial, _, Nat.not_le.mp hrate, ?_,
    (Except.ok.inj h).symm⟩
  cases hrow : s.rows account with
  | none => exact .inl ⟨rfl, by simp⟩
  | some row =>
    by_cases hhour : row.hour = now / 3600
    · exact .inr ⟨row, rfl, hhour, by simp [hhour]⟩
    · exact .inl ⟨by simp [hhour], by simpa using hhour⟩

theorem putAsked_some {body : Bytes} (h : s.putAsked C account body now = some (record, s')) :
    record.profile.Fits ∧ s.put C account record now = .ok s' := by
  cases hread : Put.decode body with
  | error e => simp [putAsked, hread, Except.toOption] at h
  | ok r =>
    cases hput : s.put C account r now with
    | error e => simp [putAsked, hread, hput, Except.toOption] at h
    | ok s₁ =>
      simp only [putAsked, hread, Except.toOption, Option.bind_some, hput, Option.map_some,
        Option.some.injEq, Prod.mk.injEq] at h
      obtain ⟨rfl, rfl⟩ := h
      refine ⟨?_, hput⟩
      cases body with
      | nil => cases hread
      | cons t b =>
        simp only [Put.decode] at hread
        split_ifs at hread
        exact (Record.decode_eq_ok.mp hread).2

/-- A step takes nothing and leaves every row, or takes a record and writes its row. -/
theorem step_cases (C : Crypto) (s : Profiles) (act : Act) :
    (s.takes C act = [] ∧ (s.step C act).rows = s.rows) ∨
      ∃ account body now record, act = .put account body now ∧
        s.putAsked C account body now = some (record, s.step C act) ∧
        s.takes C act = [⟨record, now⟩] := by
  cases act with
  | put account body now =>
    cases hput : s.putAsked C account body now with
    | none => exact .inl ⟨by simp [takes, hput], by simp [step, hput]⟩
    | some taken =>
      exact .inr ⟨account, body, now, taken.1, rfl, by simp [step, hput], by simp [takes, hput]⟩
  | setBlock account other add now =>
    refine .inl ⟨rfl, ?_⟩
    simp only [step, setBlock]
    split_ifs <;> rfl
  | succeed account successor => exact .inl ⟨rfl, rfl⟩

/-- The record of an account taken last. -/
def lastOf (account : PubKey) (taken : List Taken) : Option Record :=
  ((taken.map (·.record)).filter (·.account == account)).getLast?

/-- A row is of a record. -/
def Row.Of (row : Option Row) (r : Record) : Prop := ∃ now hour inHour,
  row = some ⟨r.profile.flags, now, hour, inHour, r.serial, r.encode⟩ ∧ r.profile.Fits

theorem lastOf_append (account : PubKey) (ts ts' : List Taken) :
    lastOf account (ts ++ ts') = (lastOf account ts').or (lastOf account ts) := by
  simp [lastOf, List.getLast?_append]

theorem row_run (account : PubKey) (acts : List Act) (s : Profiles) :
    match lastOf account (emitted (takes C) (step C) s acts) with
    | some r => Row.Of ((run (step C) s acts).rows account) r
    | none => (run (step C) s acts).rows account = s.rows account := by
  induction acts generalizing s with
  | nil => rfl
  | cons act acts ih =>
    have hlater := ih (s.step C act)
    rw [emitted, lastOf_append, run_cons]
    cases hlast : lastOf account (emitted (takes C) (step C) (s.step C act) acts) with
    | some r => simpa [hlast] using hlater
    | none =>
      rw [hlast] at hlater
      simp only [Option.none_or, hlater]
      obtain ⟨htakes, hrows⟩ | ⟨a, body, now, r, rfl, hput, htakes⟩ := step_cases C s act
      · rw [htakes, hrows]
        rfl
      · obtain ⟨hfits, hput⟩ := putAsked_some hput
        obtain ⟨haccount, -, -, used, -, -, hs'⟩ := put_ok hput
        rw [htakes, hs']
        by_cases hsame : account = a
        · subst hsame
          simp only [lastOf, List.map_singleton, haccount, List.filter_singleton, beq_self_eq_true]
          exact ⟨now, now / 3600, used + 1, by simp, hfits⟩
        · have hother : (r.account == account) = false := by
            simpa [haccount] using Ne.symm hsame
          simp [lastOf, hother, hsame]

/-- A step that takes a record took one that verifies and outranks the row it wrote over. -/
theorem takes_mem {x : Taken} {act : Act} (h : x ∈ s.takes C act) : x.record.verify C = true ∧
    (∀ row, s.rows x.record.account = some row → row.serial < x.record.serial) ∧
    (∀ row, (s.step C act).rows x.record.account = some row → row.serial = x.record.serial) ∧
    ((s.step C act).rows x.record.account).isSome := by
  obtain ⟨htakes, -⟩ | ⟨a, body, now, r, -, hput, htakes⟩ := step_cases C s act
  · simp [htakes] at h
  · obtain rfl : x = ⟨r, now⟩ := by simpa [htakes] using h
    obtain ⟨haccount, hverify, hserial, used, -, -, hs'⟩ := put_ok (putAsked_some hput).2
    rw [hs']
    subst haccount
    exact ⟨hverify, hserial, by simp, by simp⟩

/-- A row is behind none of the records it had been written of. -/
def Past (s : Profiles) (x : Taken) : Prop :=
  ∃ row, s.rows x.record.account = some row ∧ x.record.serial ≤ row.serial

theorem past_step {x : Taken} (act : Act) (h : s.Past x) : (s.step C act).Past x ∧
    ∀ y ∈ s.takes C act, x.record.account = y.record.account →
      x.record.serial < y.record.serial := by
  obtain ⟨row, hrow, hle⟩ := h
  obtain ⟨htakes, hrows⟩ | ⟨a, body, now, r, -, hput, htakes⟩ := step_cases C s act
  · exact ⟨⟨row, by rw [hrows, hrow], hle⟩, by simp [htakes]⟩
  · obtain ⟨haccount, -, hserial, used, -, -, hs'⟩ := put_ok (putAsked_some hput).2
    subst haccount
    rw [htakes, hs']
    by_cases hsame : x.record.account = r.account
    · have hbehind : x.record.serial < r.serial :=
        UInt64.lt_of_le_of_lt hle (hserial row (hsame ▸ hrow))
      refine ⟨⟨_, if_pos hsame, UInt64.le_of_lt hbehind⟩, ?_⟩
      intro y hy _
      obtain rfl : y = ⟨r, now⟩ := by simpa using hy
      exact hbehind
    · refine ⟨⟨row, (if_neg hsame).trans hrow, hle⟩, ?_⟩
      intro y hy hagain
      obtain rfl : y = ⟨r, now⟩ := by simpa using hy
      exact absurd hagain hsame

theorem taken_rising (C : Crypto) (s : Profiles) (acts : List Act) :
    (emitted (takes C) (step C) s acts).Pairwise (fun x y =>
      x.record.account = y.record.account → x.record.serial < y.record.serial) ∧
    ∀ x, s.Past x → ∀ y ∈ emitted (takes C) (step C) s acts,
      x.record.account = y.record.account → x.record.serial < y.record.serial := by
  refine @emitted_pairwise _ _ _ (fun _ => True) _ Past _ _ (fun _ _ _ => trivial) ?_ ?_ s
    trivial acts
  · intro s act _
    constructor
    · obtain ⟨htakes, -⟩ | ⟨a, body, now, r, -, -, htakes⟩ := step_cases C s act <;> simp [htakes]
    · intro x hx
      obtain ⟨-, -, hserial, hthere⟩ := takes_mem hx
      obtain ⟨row, hrow⟩ := Option.isSome_iff_exists.mp hthere
      exact ⟨row, hrow, UInt64.le_of_eq (hserial row hrow).symm⟩
  · exact fun s act _ x hx => past_step act hx

/-- What a row of a record shows, to those it is shown to. -/
theorem get_of {subject : PubKey} {r : Record} (h : Row.Of (s.rows subject) r) (caller : PubKey)
    (shares : PubKey → PubKey → Bool) (now : UInt64) : (s.get caller subject shares now).record =
      if s.blockedBy subject caller = true ∨
        (r.profile.withheld = true ∧ caller ≠ subject ∧ shares caller subject = false)
      then none else some r := by
  obtain ⟨_, _, _, hrow, hfits⟩ := h
  have hsome : r.encode ≠ [] := by
    intro hnil
    have hlength : r.encode.length = r.body.length + 64 := by
      rw [Record.encode, List.length_append, Bytes64.length_toBytes]
    simp [hnil] at hlength
  have hread : Record.decode r.encode = .ok r := Record.decode_eq_ok.mpr ⟨rfl, hfits⟩
  unfold get
  by_cases hblocked : s.blockedBy subject caller = true
  · simp [hblocked, Got.none]
  · by_cases hkept : r.profile.withheld = true ∧ caller ≠ subject ∧ shares caller subject = false
    · obtain ⟨hwithheld, hother, hnone⟩ := hkept
      simp only [Profile.withheld] at hwithheld
      simp [hblocked, hrow, hwithheld, hother, hnone, Got.none, Profile.withheld]
    · have hopen : (r.profile.flags &&& flagWithhold != 0 && caller != subject &&
          !shares caller subject) = false := by
        simpa [Profile.withheld] using hkept
      simp [hblocked, hrow, hopen, hkept, hsome, hread, Except.toOption]

/-- What anybody is shown of an account is the last record it put, whole, which has the highest
serial of all it put, or nothing, where it withholds it from them or keeps away from them. -/
theorem highest_shown (C : Crypto) (s : Profiles) (acts : List Act) :
    let taken := emitted (takes C) (step C) s acts
    let later := run (step C) s acts
    taken.Pairwise (fun x y => x.record.account = y.record.account →
      x.record.serial < y.record.serial) ∧
    (∀ x ∈ taken, x.record.verify C = true ∧ ∀ row, s.rows x.record.account = some row →
      row.serial < x.record.serial) ∧
    ∀ subject r, lastOf subject taken = some r → ∀ caller shares now,
      (later.get caller subject shares now).record =
        if later.blockedBy subject caller = true ∨
          (r.profile.withheld = true ∧ caller ≠ subject ∧ shares caller subject = false)
        then none else some r := by
  intro taken later
  obtain ⟨hrising, hbefore⟩ := taken_rising C s acts
  refine ⟨hrising, fun x hx => ⟨?_, ?_⟩, ?_⟩
  · have hall : ∀ x ∈ taken, x.record.verify C = true :=
      forall_emitted_iff.mpr (each_of_mem (fun _ _ _ _ h => (takes_mem h).1) s)
    exact hall x hx
  · intro row hrow
    exact hbefore ⟨{ x.record with serial := row.serial }, x.now⟩
      ⟨row, hrow, UInt64.le_refl _⟩ x hx rfl
  · intro subject r hlast
    have hrow := row_run (C := C) subject acts s
    rw [show lastOf subject (emitted (takes C) (step C) s acts) = some r from hlast] at hrow
    exact get_of hrow

/-- A put reads a clock that is not behind the hour of the record it replaces. -/
def InTime (s : Profiles) : Act → Prop
  | .put account _ now => ∀ row, s.rows account = some row → row.hour ≤ now / 3600
  | _ => True

/-- How many records of an account may be taken yet in an hour. -/
def room (s : Profiles) (account : PubKey) (hour : UInt64) : Nat :=
  match s.rows account with
  | none => maxUpdatesPerHour
  | some row =>
    if hour < row.hour then 0
    else if row.hour = hour then maxUpdatesPerHour - row.inHour
    else maxUpdatesPerHour

def within (account : PubKey) (hour : UInt64) (x : Taken) : Bool :=
  x.record.account == account && x.now / 3600 == hour

theorem room_step (account : PubKey) (hour : UInt64) {act : Act} (h : s.InTime act) :
    (s.takes C act).countP (within account hour) + (s.step C act).room account hour ≤
      s.room account hour := by
  obtain ⟨htakes, hrows⟩ | ⟨a, body, now, r, rfl, hput, htakes⟩ := step_cases C s act
  · simp [htakes, room, hrows]
  · obtain ⟨haccount, -, -, used, hused, hbefore, hs'⟩ := put_ok (putAsked_some hput).2
    rw [htakes, hs']
    subst haccount
    by_cases hsame : account = r.account
    · subst hsame
      -- Only an hour the clock has not passed has room, and this one less of it by one.
      have hroom : now / 3600 ≤ hour → s.room r.account hour =
          if now / 3600 = hour then maxUpdatesPerHour - used else maxUpdatesPerHour := by
        intro hle
        simp only [room]
        cases hrow : s.rows r.account with
        | none =>
          obtain rfl : used = 0 := by simpa [hrow] using hbefore
          simp
        | some row =>
          have hintime : row.hour ≤ now / 3600 := h row hrow
          have hback : ¬ hour < row.hour := UInt64.not_lt.mpr (UInt64.le_trans hintime hle)
          simp only [hrow, Option.some.injEq, forall_eq', exists_eq_left'] at hbefore
          simp only [hback, if_false]
          grind
      simp only [List.countP_singleton, within, beq_self_eq_true, Bool.true_and, beq_iff_eq]
      by_cases hle : now / 3600 ≤ hour
      · rw [hroom hle]
        simp only [room, if_true, UInt64.not_lt.mpr hle, if_false]
        split_ifs <;> omega
      · have hlt : hour < now / 3600 := UInt64.not_le.mp hle
        have hne : now / 3600 ≠ hour := fun heq => hle (UInt64.le_of_eq heq)
        simp [room, hlt, hne]
    · have hother : (r.account == account) = false := by simpa using Ne.symm hsame
      simp [room, hsame, within, hother]

theorem room_le (account : PubKey) (hour : UInt64) : s.room account hour ≤ maxUpdatesPerHour := by
  unfold room
  split
  · exact Nat.le_refl _
  · split_ifs <;> omega

/-- On clocks that do not go back no account has more records taken in an hour of the clock than
it may, whatever its serials. -/
theorem taken_seldom {acts : List Act} (h : Each InTime (step C) s acts) (account : PubKey)
    (hour : UInt64) : (emitted (takes C) (step C) s acts).countP (within account hour) ≤
      maxUpdatesPerHour := by
  have hrun : (emitted (takes C) (step C) s acts).countP (within account hour) ≤
      s.room account hour := by
    induction acts generalizing s with
    | nil => simp [emitted]
    | cons act acts ih =>
      rw [emitted, List.countP_append]
      have hstep := room_step (C := C) account hour h.1
      have hlater := ih h.2
      omega
  exact hrun.trans (room_le account hour)

instance (s : Profiles) : (act : Act) → Decidable (s.InTime act)
  | .put account _ now =>
    inferInstanceAs (Decidable (∀ row ∈ s.rows account, row.hour ≤ now / 3600))
  | .setBlock .. | .succeed .. => isTrue trivial

/-- A record an account signed itself. -/
def signedAt (serial : UInt64) : Record :=
  let bare : Record :=
    ⟨Crypto.toy.publicKey 1, Crypto.toy.publicKey 1, serial, 0, ⟨0, "", "", []⟩, 0⟩
  { bare with signature := Crypto.toy.sign 1 (bare.input .toy) }

def putAt (serial now : UInt64) : Act :=
  .put (Crypto.toy.publicKey 1) (typePut :: (signedAt serial).encode) now

theorem taken_seldom_twice :
    let taken := emitted (takes .toy) (step .toy) ⟨fun _ => none, []⟩ [putAt 1 100, putAt 2 200]
    taken.countP (within (Crypto.toy.publicKey 1) 0) = 2 ∧
      taken.countP (within (Crypto.toy.publicKey 1) 0) ≤ maxUpdatesPerHour :=
  ⟨by decide +kernel, taken_seldom (by decide +kernel) _ _⟩

end Profiles
end Sqex.Subject
