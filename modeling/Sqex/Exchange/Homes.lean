import Sqex.Lib.Collections
import Sqex.Lib.Columns
import Sqex.Lib.Runs
import Sqex.Proto.Primitives

/-! Where accounts live, by their own signed Moves, and the two others who write the record: an
exchange that rotated is followed to its new key, and an account that was succeeded to its
successor. Both leave a record that nobody signed. -/
namespace Sqex.Home
open Runs Std
variable {C : Crypto}

def homeContext : Bytes := "sqex-home-v1".toUTF8.toList

structure Move where
  account : PubKey
  home : PubKey
  issued : UInt64
  sig : Bytes64
  deriving DecidableEq

namespace Move

def toSign (account home : PubKey) (issued : UInt64) : Bytes :=
  homeContext ++ Bytes32.toBytes account ++ Bytes32.toBytes home ++ beBytes 8 issued.toNat

def verify (C : Crypto) (mv : Move) : Bool :=
  C.checks mv.account (toSign mv.account mv.home mv.issued) mv.sig

end Move

/-- The home on record for an account, with the Move's signature, where it still has one. -/
structure HomeRow where
  home : PubKey
  domain : String
  issued : Int64
  sig : Option Bytes64
  deriving DecidableEq

structure OriginRow where
  account : PubKey
  origin : PubKey
  domain : String
  deriving DecidableEq

def OriginRow.isKey (account origin : PubKey) (r : OriginRow) : Bool :=
  r.account == account && r.origin == origin

structure LearnedRow where
  home : PubKey
  domain : String
  time : Int64
  deriving DecidableEq

/-- What a registry holds of homes. The origins stand in the order they were put in. -/
structure Homes where
  home : ExtTreeMap PubKey HomeRow
  homeOrigin : List OriginRow
  learnedHome : ExtTreeMap PubKey LearnedRow

namespace Homes

def opened : Homes := ⟨∅, [], ∅⟩

section Statements

def rekey {α : Type} (table : ExtTreeMap PubKey α) (account successor : PubKey) (f : α → α) :
    ExtTreeMap PubKey α :=
  match table[account]? with
  | none => table
  | some row =>
    if table.contains successor then table.erase account
    else (table.erase account).insert successor (f row)

def insertOrigin (rows : List OriginRow) (r : OriginRow) : List OriginRow :=
  rows.filter (fun x => ! OriginRow.isKey r.account r.origin x) ++ [r]

def renameOrigin (earlier later : PubKey) (rows : List OriginRow) : List OriginRow :=
  rows.map fun r =>
    if r.origin = earlier ∧ ! rows.any (OriginRow.isKey r.account later) then
      { r with origin := later }
    else r

def rekeyOrigins (account successor : PubKey) (rows : List OriginRow) : List OriginRow :=
  (rows.map fun r =>
    if r.account = account ∧ ! rows.any (OriginRow.isKey successor r.origin) then
      { r with account := successor }
    else r).filter fun r => r.account ≠ account

end Statements

def recordMove (mv : Move) (domain : String) (origins : List (PubKey × String)) (me : PubKey)
    (s : Homes) : Homes × Bool :=
  let cleared := match s.home[mv.account]? with
    | none => true
    | some row => row.sig.isNone
  let later := match s.home[mv.account]? with
    | none => true
    | some row => ! decide (mv.issued ≤ row.issued.toUInt64)
  -- a record re-keyed by a handover carries no signature and is replaced by any Move
  if ! later && ! cleared then (s, false)
  else
    let kept := s.homeOrigin.filter fun r => r.account ≠ mv.account
    let named : List OriginRow :=
      (origins.filter fun o => o.1 ≠ me).map fun o => ⟨mv.account, o.1, o.2⟩
    ({ s with
        home := s.home.insert mv.account ⟨mv.home, domain, mv.issued.toInt64, some mv.sig⟩
        homeOrigin := if mv.home = me then named.foldl insertOrigin kept else kept }, true)

/-- An exchange rotated: each holding of its earlier key becomes one of its later. A home that an
account signed loses the signature, which named the earlier. -/
def followExchange (earlier later : PubKey) (s : Homes) : Homes where
  home := s.home.map fun _ r =>
    if r.home = earlier then { r with home := later, sig := none } else r
  homeOrigin := renameOrigin earlier later s.homeOrigin
  learnedHome := s.learnedHome.map fun _ r =>
    if r.home = earlier then { r with home := later } else r

/-- An account was succeeded: its records become its successor's, the Move's signature cleared.
The successor's own stand. -/
def followSuccession (account successor : PubKey) (s : Homes) : Homes where
  home := rekey s.home account successor fun r => { r with sig := none }
  homeOrigin := rekeyOrigins account successor s.homeOrigin
  learnedHome := rekey s.learnedHome account successor id

/-- What writes the record of homes: a Move that verifies, and the two followings. -/
inductive Act where
  | move (mv : Move) (domain : String) (origins : List (PubKey × String))
  | exchange (earlier later : PubKey)
  | succession (account successor : PubKey)

def step (C : Crypto) (me : PubKey) (s : Homes) : Act → Homes
  | .move mv domain origins =>
    if mv.verify C then (s.recordMove mv domain origins me).1 else s
  | .exchange earlier later => s.followExchange earlier later
  | .succession account successor => s.followSuccession account successor

end Homes
end Sqex.Home

/-! The latest Move wins, in any order of delivery, while the record it would have to be weighed
against is signed. -/
namespace Sqex.Home
open Homes Runs Std
variable {C : Crypto} {me a b : PubKey}

structure Received where
  mv : Move
  home : PubKey
  deriving DecidableEq

/-- What came: each account's own Moves, those whose record a handover brought it, and the
accounts that handed over. -/
structure Journal where
  own : PubKey → List Received
  brought : PubKey → List Received
  handed : List PubKey

def owed (own brought : List Received) : List Received := if own = [] then brought else own

namespace Journal

def opened : Journal := ⟨fun _ => [], fun _ => [], []⟩

def counts (j : Journal) (a : PubKey) : List Received := owed (j.own a) (j.brought a)

def follow (earlier later : PubKey) (r : Received) : Received :=
  { r with home := if r.home = earlier then later else r.home }

def note (C : Crypto) (j : Journal) : Act → Journal
  | .move mv _ _ =>
    if mv.verify C then
      { j with own := Function.update j.own mv.account (j.own mv.account ++ [⟨mv, mv.home⟩]) }
    else j
  | .exchange earlier later =>
    { j with
      own := fun a => (j.own a).map (follow earlier later)
      brought := fun a => (j.brought a).map (follow earlier later) }
  | .succession account successor =>
    { j with
      brought := if account ∈ j.handed ∨ j.counts successor ≠ [] then j.brought
        else Function.update j.brought successor (j.counts account)
      handed := account :: j.handed }

end Journal

structure Kept where
  homes : Homes
  journal : Journal

namespace Kept

def opened : Kept := ⟨Homes.opened, Journal.opened⟩

def step (C : Crypto) (me : PubKey) (k : Kept) (act : Act) : Kept :=
  ⟨k.homes.step C me act, k.journal.note C act⟩

def Newest (r : Received) (rs : List Received) : Prop := ∀ m ∈ rs, m.mv.issued ≤ r.mv.issued

/-- The latest Move wins: an account that has not handed over has a home on record just where a
Move is owed, and it is the home of the newest, by the name that has now. -/
def LatestWins (k : Kept) : Prop :=
  ∀ a ∉ k.journal.handed,
    (k.homes.home[a]? = none ↔ k.journal.counts a = []) ∧
    ∀ row, k.homes.home[a]? = some row → ∀ r ∈ k.journal.counts a, Newest r (k.journal.counts a) →
      row.home = r.home ∧ row.issued = r.mv.issued.toInt64

def NeverOlder (C : Crypto) (me : PubKey) (k : Kept) : Act → Prop
  | .move mv domain origins =>
    mv.verify C = true → (k.homes.recordMove mv domain origins me).2 = true →
      ∀ m ∈ k.journal.own mv.account, m.mv.issued < mv.issued
  | _ => True

def unsigned (s : Homes) (a : PubKey) : Bool := (s.home[a]?).any fun r => r.sig.isNone

/-- What keeps the record in order: a Move does not come of an account that handed over; it does
not come to a record without a signature unless it is newer than all that came of its account; of
two of one moment both name one home; and no account is handed over to one that handed over. -/
def Orderly (C : Crypto) (k : Kept) : Act → Prop
  | .move mv _ _ => mv.verify C = true → mv.account ∉ k.journal.handed ∧
    (unsigned k.homes mv.account = true →
      ∀ m ∈ k.journal.own mv.account, m.mv.issued < mv.issued) ∧
    ∀ m ∈ k.journal.own mv.account, m.mv.issued = mv.issued → m.mv.home = mv.home
  | .exchange _ _ => True
  | .succession _ successor => successor ∉ k.journal.handed

instance (C : Crypto) (k : Kept) : (act : Act) → Decidable (Orderly C k act)
  | .move .. => inferInstanceAs (Decidable (_ → _ ∧ _ ∧ _))
  | .exchange .. => .isTrue trivial
  | .succession .. => inferInstanceAs (Decidable (_ ∉ _))

instance (C : Crypto) (me : PubKey) (k : Kept) : (act : Act) → Decidable (NeverOlder C me k act)
  | .move .. => inferInstanceAs (Decidable (_ → _ → _))
  | .exchange .. => .isTrue trivial
  | .succession .. => .isTrue trivial

/-- A record and the Moves it is owed to: there is one where there are any, it is of the newest,
and a signed one is of an own Move whose home it still names. -/
structure Owed (row : Option HomeRow) (own brought : List Received) : Prop where
  counted : row = none ↔ owed own brought = []
  newest : ∀ x, row = some x → ∀ r ∈ owed own brought, Newest r (owed own brought) →
    x.home = r.home ∧ x.issued = r.mv.issued.toInt64
  signed : ∀ x, row = some x → x.sig ≠ none →
    own ≠ [] ∧ ∀ m ∈ own, m.mv.issued.toInt64 = x.issued → m.mv.home = x.home

def Sound (k : Kept) : Prop := ∀ a,
  if a ∈ k.journal.handed then k.homes.home[a]? = none
  else Owed (k.homes.home[a]?) (k.journal.own a) (k.journal.brought a)

theorem Sound.record {k : Kept} (h : Sound k) (ha : a ∉ k.journal.handed) :
    Owed (k.homes.home[a]?) (k.journal.own a) (k.journal.brought a) := by
  have hone := h a
  rwa [if_neg ha] at hone

theorem Sound.gone {k : Kept} (h : Sound k) (ha : a ∈ k.journal.handed) :
    k.homes.home[a]? = none := by
  have hone := h a
  rwa [if_pos ha] at hone

theorem Sound.latestWins {k : Kept} (h : Sound k) : LatestWins k :=
  fun _ ha => ⟨(h.record ha).counted, (h.record ha).newest⟩

theorem sound_opened : Sound opened := by
  intro a
  have hrow : opened.homes.home[a]? = none := ExtTreeMap.getElem?_empty
  rw [if_neg (by simp [opened, Journal.opened]), hrow]
  refine ⟨iff_of_true rfl rfl, fun x hx => ?_, fun x hx => ?_⟩
  · cases hx
  · cases hx

theorem exists_newest {rs : List Received} (h : rs ≠ []) : ∃ r ∈ rs, Newest r rs := by
  induction rs with
  | nil => exact absurd rfl h
  | cons r rs ih =>
    by_cases hrs : rs = []
    · subst hrs
      exact ⟨r, by simp, by simp [Newest]⟩
    · obtain ⟨m, hm, hnewest⟩ := ih hrs
      by_cases hle : r.mv.issued ≤ m.mv.issued
      · refine ⟨m, by simp [hm], fun x hx => ?_⟩
        cases List.mem_cons.mp hx with
        | inl hfirst => rwa [hfirst]
        | inr hlater => exact hnewest x hlater
      · refine ⟨r, by simp, fun x hx => ?_⟩
        cases List.mem_cons.mp hx with
        | inl hfirst => rw [hfirst]; exact UInt64.le_rfl
        | inr hlater =>
          have hmax := hnewest x hlater
          rw [UInt64.le_iff_toNat_le] at hle hmax ⊢
          omega

theorem recordMove_cases (me : PubKey) (mv : Move) (domain : String) (origins : List (PubKey × String))
    (s : Homes) :
    (s.recordMove mv domain origins me = (s, false) ∧
      ∃ row, s.home[mv.account]? = some row ∧ row.sig ≠ none ∧
        mv.issued ≤ row.issued.toUInt64) ∨
    ((s.recordMove mv domain origins me).2 = true ∧
      (∀ a, (s.recordMove mv domain origins me).1.home[a]? =
        if mv.account = a then some ⟨mv.home, domain, mv.issued.toInt64, some mv.sig⟩
        else s.home[a]?) ∧
      ∀ row, s.home[mv.account]? = some row → row.sig = none ∨
        row.issued.toUInt64 < mv.issued) := by
  rw [recordMove]
  cases hrow : s.home[mv.account]? with
  | none =>
    refine .inr ⟨rfl, fun a => lookup_insert .., fun row h => by cases h⟩
  | some row =>
    dsimp only
    split
    · rename_i hby
      simp only [Bool.not_not, Bool.and_eq_true, decide_eq_true_eq,
        ← Option.not_isSome, Option.isSome_iff_ne_none] at hby
      exact .inl ⟨rfl, row, rfl, hby.2, hby.1⟩
    · rename_i hover
      refine .inr ⟨rfl, fun a => lookup_insert .., ?_⟩
      intro held hheld
      obtain rfl := Option.some.inj hheld
      by_cases hsig : row.sig = none
      · exact .inl hsig
      · have hsome : row.sig.isNone = false := by simpa [Option.isSome_iff_ne_none] using hsig
        simp only [hsome, Bool.not_not, Bool.not_false, Bool.and_true, decide_eq_true_eq] at hover
        exact .inr (UInt64.not_le.mp hover)

variable {k : Kept} {row : Option HomeRow} {own brought : List Received} {x : HomeRow} {mv : Move}

theorem Owed.newest_of_signed (h : Owed row own brought) (hrow : row = some x)
    (hsig : x.sig ≠ none) : owed own brought = own ∧
      ∃ r ∈ own, Newest r own ∧ x.issued = r.mv.issued.toInt64 ∧ r.mv.home = x.home := by
  obtain ⟨hown, hhome⟩ := h.signed x hrow hsig
  have howed : owed own brought = own := if_neg hown
  obtain ⟨r, hr, hnewest⟩ := exists_newest hown
  have hrecord := h.newest x hrow r
  rw [howed] at hrecord
  obtain ⟨-, hissued⟩ := hrecord hr hnewest
  exact ⟨howed, r, hr, hnewest, hissued, hhome r hr hissued.symm⟩

theorem Owed.putBy (h : Owed row own brought) (hrow : row = some x) (hsig : x.sig ≠ none)
    (hnewer : mv.issued ≤ x.issued.toUInt64)
    (hties : ∀ m ∈ own, m.mv.issued = mv.issued → m.mv.home = mv.home) :
    Owed row (own ++ [⟨mv, mv.home⟩]) brought := by
  obtain ⟨howed, r, hr, hnewest, hissued, hhome⟩ := h.newest_of_signed hrow hsig
  have hmore : owed (own ++ [⟨mv, mv.home⟩]) brought = own ++ [⟨mv, mv.home⟩] := if_neg (by simp)
  rw [hissued, toUInt64_toInt64] at hnewer
  refine ⟨by simp [hmore, hrow], fun y hy m hm hmax => ?_,
    fun y hy _ => ⟨by simp, fun m hm hat => ?_⟩⟩
  · obtain rfl : x = y := Option.some.inj (hrow.symm.trans hy)
    rw [hmore] at hm hmax
    rcases mem_concat.mp hm with hearlier | rfl
    · have hrecord := h.newest x hrow m
      rw [howed] at hrecord
      exact hrecord hearlier fun n hn => hmax n (List.mem_append_left _ hn)
    · have hle := hmax r (List.mem_append_left _ hr)
      have heq : r.mv.issued = mv.issued := UInt64.le_antisymm hle hnewer
      exact ⟨hhome.symm.trans (hties r hr heq), hissued.trans (congrArg _ heq)⟩
  · obtain rfl : x = y := Option.some.inj (hrow.symm.trans hy)
    rcases mem_concat.mp hm with hearlier | rfl
    · exact (h.signed x hrow hsig).2 m hearlier hat
    · have heq : r.mv.issued = mv.issued := toInt64_inj.mp (hissued.symm.trans hat.symm)
      exact (hties r hr heq).symm.trans hhome

theorem Owed.recorded {domain : String} (hlater : ∀ m ∈ own, m.mv.issued < mv.issued) :
    Owed (some ⟨mv.home, domain, mv.issued.toInt64, some mv.sig⟩) (own ++ [⟨mv, mv.home⟩])
      brought := by
  have hmore : owed (own ++ [⟨mv, mv.home⟩]) brought = own ++ [⟨mv, mv.home⟩] := if_neg (by simp)
  refine ⟨by simp [hmore], fun y hy m hm hmax => ?_, fun y hy _ => ⟨by simp, fun m hm hat => ?_⟩⟩
  · obtain rfl := Option.some.inj hy
    rw [hmore] at hm hmax
    rcases mem_concat.mp hm with hearlier | rfl
    · have hle := hmax ⟨mv, mv.home⟩ (by simp)
      exact absurd (hlater m hearlier) (UInt64.not_lt.mpr hle)
    · exact ⟨rfl, rfl⟩
  · obtain rfl := Option.some.inj hy
    rcases mem_concat.mp hm with hearlier | rfl
    · have heq : m.mv.issued = mv.issued := toInt64_inj.mp hat
      exact absurd (heq ▸ hlater m hearlier) (UInt64.lt_irrefl _)
    · rfl

theorem owed_map (earlier later : PubKey) :
    owed (own.map (Journal.follow earlier later)) (brought.map (Journal.follow earlier later)) =
      (owed own brought).map (Journal.follow earlier later) := by
  simp only [owed, List.map_eq_nil_iff]
  split <;> rfl

theorem Owed.follow (h : Owed row own brought) (earlier later : PubKey) :
    Owed (row.map fun r => if r.home = earlier then { r with home := later, sig := none } else r)
      (own.map (Journal.follow earlier later)) (brought.map (Journal.follow earlier later)) := by
  refine ⟨?_, fun y hy m hm hmax => ?_, fun y hy hsig => ?_⟩
  · rw [owed_map, List.map_eq_nil_iff, ← h.counted, Option.map_eq_none_iff]
  · rw [owed_map] at hm hmax
    obtain ⟨r, hr, rfl⟩ := List.mem_map.mp hm
    obtain ⟨x, hx, rfl⟩ := Option.map_eq_some_iff.mp hy
    have hnewest : Newest r (owed own brought) := fun n hn => hmax (Journal.follow earlier later n)
      (List.mem_map_of_mem hn)
    obtain ⟨hhome, hissued⟩ := h.newest x hx r hr hnewest
    rw [Journal.follow, ← hhome]
    split
    · exact ⟨rfl, hissued⟩
    · exact ⟨rfl, hissued⟩
  · obtain ⟨x, hx, rfl⟩ := Option.map_eq_some_iff.mp hy
    split at hsig
    · exact absurd rfl hsig
    · rename_i hother
      obtain ⟨hown, hall⟩ := h.signed x hx hsig
      rw [if_neg hother]
      refine ⟨by simpa using hown, fun m hm hat => ?_⟩
      obtain ⟨r, hr, rfl⟩ := List.mem_map.mp hm
      exact hall r hr hat

theorem Owed.bring (h : Owed row own brought) :
    Owed (row.map fun r => { r with sig := none }) [] (owed own brought) := by
  refine ⟨?_, fun y hy m hm hmax => ?_, fun y hy hsig => ?_⟩
  · rw [Option.map_eq_none_iff, h.counted]
    rfl
  · obtain ⟨x, hx, rfl⟩ := Option.map_eq_some_iff.mp hy
    exact h.newest x hx m hm hmax
  · obtain ⟨x, hx, rfl⟩ := Option.map_eq_some_iff.mp hy
    exact absurd rfl hsig

theorem own_note {domain : String} {origins : List (PubKey × String)}
    (hverify : mv.verify C = true) (j : Journal) (a : PubKey) :
    (j.note C (.move mv domain origins)).own a =
      if mv.account = a then j.own a ++ [⟨mv, mv.home⟩] else j.own a := by
  rw [Journal.note, if_pos hverify]
  by_cases ha : mv.account = a
  · subst ha
    simp
  · simp [ha, Function.update_of_ne (Ne.symm ha)]

theorem neverOlder (me : PubKey) (h : Sound k) (act : Act) (hok : Orderly C k act) :
    NeverOlder C me k act := by
  cases act with
  | exchange | succession => trivial
  | move mv domain origins =>
    intro hverify hrecorded m hm
    obtain ⟨hhanded, hcleared, -⟩ := hok hverify
    have howed := h.record hhanded
    cases hrow : k.homes.home[mv.account]? with
    | none =>
      have hnone := howed.counted.mp hrow
      have hown : k.journal.own mv.account = [] := by
        by_contra hsome
        rw [owed, if_neg hsome] at hnone
        exact hsome hnone
      rw [hown] at hm
      cases hm
    | some row =>
      by_cases hsig : row.sig = none
      · exact hcleared (by simp [unsigned, hrow, hsig]) m hm
      · obtain ⟨-, r, -, hnewest, hissued, -⟩ := howed.newest_of_signed hrow hsig
        rcases recordMove_cases me mv domain origins k.homes with ⟨hby, -⟩ | ⟨-, -, hover⟩
        · rw [hby] at hrecorded
          cases hrecorded
        · have hlt := (hover row hrow).resolve_left hsig
          rw [hissued, toUInt64_toInt64] at hlt
          exact UInt64.lt_of_le_of_lt (hnewest m hm) hlt

theorem Sound.move (h : Sound k) {domain : String} {origins : List (PubKey × String)}
    (hverify : mv.verify C = true) (hok : Orderly C k (.move mv domain origins)) :
    Sound (k.step C me (.move mv domain origins)) := by
  have hlater := neverOlder me h _ hok hverify
  obtain ⟨hhanded, -, hties⟩ := hok hverify
  have hnoted : (k.journal.note C (.move mv domain origins)).handed = k.journal.handed ∧
      (k.journal.note C (.move mv domain origins)).brought = k.journal.brought := by
    rw [Journal.note, if_pos hverify]
    exact ⟨rfl, rfl⟩
  have hhomes : k.homes.step C me (.move mv domain origins) =
      (k.homes.recordMove mv domain origins me).1 := by
    rw [Homes.step, if_pos hverify]
  intro a
  rw [step]
  dsimp only
  rw [hnoted.1, hnoted.2, own_note hverify, hhomes]
  rcases recordMove_cases me mv domain origins k.homes with
    ⟨hby, row, hrow, hsig, hnewer⟩ | ⟨hrecorded, hlookup, -⟩
  · rw [hby]
    by_cases hacc : mv.account = a
    · subst hacc
      rw [if_neg hhanded, if_pos rfl]
      exact (h.record hhanded).putBy hrow hsig hnewer hties
    · rw [if_neg hacc]
      exact h a
  · rw [hlookup]
    by_cases hacc : mv.account = a
    · subst hacc
      rw [if_neg hhanded, if_pos rfl, if_pos rfl]
      exact Owed.recorded (hlater hrecorded)
    · rw [if_neg hacc, if_neg hacc]
      exact h a

theorem lookup_rekey {α : Type} (table : ExtTreeMap PubKey α) (account successor a : PubKey)
    (f : α → α) : (rekey table account successor f)[a]? =
      if a = account then none
      else if a = successor then (table[a]?).or ((table[account]?).map f) else table[a]? := by
  rw [rekey]
  cases hrow : table[account]? with
  | none =>
    by_cases ha : a = account
    · rw [if_pos ha, ha, hrow]
    · simp [ha]
  | some row =>
    dsimp only
    have hcontains : table.contains successor = (table[successor]?).isSome := by simp
    rw [hcontains]
    by_cases ha : a = account
    · subst ha
      split
      · simp
      · rename_i hfree
        have hne : successor ≠ a := by
          rintro rfl
          simp [hrow] at hfree
        rw [if_pos rfl, lookup_insert, if_neg hne, lookup_erase, if_pos rfl]
    · rw [if_neg ha]
      by_cases hs : a = successor
      · subst hs
        rw [if_pos rfl]
        cases hown : table[a]? with
        | none => simp
        | some own => simp [lookup_erase, Ne.symm ha, hown]
      · rw [if_neg hs]
        split
        · rw [lookup_erase, if_neg (Ne.symm ha)]
        · rw [lookup_insert, if_neg (Ne.symm hs), lookup_erase, if_neg (Ne.symm ha)]

theorem Sound.succession (h : Sound k) {account successor : PubKey}
    (hok : successor ∉ k.journal.handed) : Sound (k.step C me (.succession account successor)) := by
  intro a
  change if a ∈ account :: k.journal.handed then
      (rekey k.homes.home account successor fun r => { r with sig := none })[a]? = none
    else Owed (rekey k.homes.home account successor fun r => { r with sig := none })[a]?
      (k.journal.own a) ((k.journal.note C (.succession account successor)).brought a)
  rw [lookup_rekey]
  by_cases ha : a = account
  · rw [if_pos (by simp [ha]), if_pos ha]
  rw [if_neg ha]
  have hbrought : (k.journal.note C (.succession account successor)).brought =
      if account ∈ k.journal.handed ∨ k.journal.counts successor ≠ [] then k.journal.brought
      else Function.update k.journal.brought successor (k.journal.counts account) := rfl
  rw [hbrought]
  by_cases hs : a = successor
  · subst hs
    rw [if_neg (by simp [ha, hok]), if_pos rfl]
    have howed := h.record hok
    split
    · rename_i hstands
      have hrecord : (k.homes.home[a]?).or ((k.homes.home[account]?).map fun r =>
          { r with sig := none }) = k.homes.home[a]? := by
        cases hstands with
        | inl hgone => rw [h.gone hgone, Option.map_none, Option.or_none]
        | inr hcounts =>
          have hsome : k.homes.home[a]? ≠ none := fun hnone => hcounts (howed.counted.mp hnone)
          obtain ⟨row, hrow⟩ := Option.ne_none_iff_exists'.mp hsome
          rw [hrow, Option.some_or]
      rw [hrecord]
      exact howed
    · rename_i hfree
      rw [not_or, not_not] at hfree
      have hnone : k.homes.home[a]? = none := howed.counted.mpr hfree.2
      have hown : k.journal.own a = [] := by
        by_contra hsome
        have hcounts : owed (k.journal.own a) (k.journal.brought a) = [] := hfree.2
        rw [owed, if_neg hsome] at hcounts
        exact hsome hcounts
      rw [hnone, Option.none_or, hown, Function.update_self]
      exact (h.record hfree.1).bring
  · rw [if_neg hs]
    have hother : (if account ∈ k.journal.handed ∨ k.journal.counts successor ≠ [] then
        k.journal.brought
        else Function.update k.journal.brought successor (k.journal.counts account)) a =
          k.journal.brought a := by
      split
      · rfl
      · exact Function.update_of_ne hs ..
    rw [hother]
    have hsame : (a ∈ account :: k.journal.handed) ↔ a ∈ k.journal.handed := by simp [ha]
    simp only [hsame]
    exact h a

theorem Sound.step (h : Sound k) (act : Act) (hok : Orderly C k act) :
    Sound (k.step C me act) := by
  cases act with
  | move mv domain origins =>
    by_cases hverify : mv.verify C = true
    · exact h.move hverify hok
    · have hsame : k.step C me (.move mv domain origins) = k := by
        simp [Kept.step, Homes.step, Journal.note, hverify]
      rw [hsame]
      exact h
  | exchange earlier later =>
    intro a
    change if a ∈ k.journal.handed then (k.homes.followExchange earlier later).home[a]? = none
      else Owed (k.homes.followExchange earlier later).home[a]? _ _
    rw [followExchange, ExtTreeMap.getElem?_map]
    by_cases ha : a ∈ k.journal.handed
    · rw [if_pos ha, h.gone ha, Option.map_none]
    · rw [if_neg ha]
      exact (h.record ha).follow earlier later
  | succession account successor => exact h.succession hok

/-- In every run of Moves in any order, with any repeated, and of rotations and successions between
them, in which every step is orderly, the latest Move wins at every moment and no Move is recorded
over a newer one. -/
theorem latest_move_wins (C : Crypto) (me : PubKey) (acts : List Act)
    (hok : Each (Orderly C) (step C me) opened acts) :
    Always LatestWins (step C me) opened acts ∧ Each (NeverOlder C me) (step C me) opened acts := by
  have hsound : Always Sound (step C me) opened acts :=
    hok.always (fun k act h horderly => h.step act horderly) sound_opened
  refine ⟨hsound.imp fun k h => h.latestWins, ?_⟩
  exact hok.imp_of (P := Sound) (fun k act h horderly => h.step act horderly)
    (fun k act h horderly => neverOlder me h act horderly) sound_opened

section Edges

def mover : PubKey := Crypto.toy.publicKey 1

def moving (home : PubKey) (issued : UInt64) : Act :=
  .move ⟨mover, home, issued, Crypto.toy.sign 1 (Move.toSign mover home issued)⟩ "" []

/-- A newer Move, an older after it, a rotation of its home, a newer still, and a succession. -/
def inOrder : List Act :=
  [moving 5 2, moving 4 1, .exchange 5 6, moving 7 3, .succession mover 9]

theorem inOrder_latest :
    Each (Orderly .toy) (step .toy 0) opened inOrder ∧
      (((run (step .toy 0) opened inOrder).homes.home[(9 : PubKey)]?).map (·.home) = some 7) ∧
      Always LatestWins (step .toy 0) opened inOrder ∧
      Each (NeverOlder .toy 0) (step .toy 0) opened inOrder := by
  have horderly : Each (Orderly .toy) (step .toy 0) opened inOrder := by decide +kernel
  exact ⟨horderly, by decide +kernel, latest_move_wins .toy 0 inOrder horderly⟩

/-- A Move to 5, which rotates to 6, and then the older Move to 4 that went before. -/
def replayed : List Act := [moving 4 1, moving 5 2, .exchange 5 6, moving 4 1]

/-- The record has no signature once its home rotated, and the older Move takes its place. -/
theorem older_move_returns :
    ((run (step .toy 0) opened replayed).homes.home[mover]?).map (·.home) = some 4 ∧
      ¬ LatestWins (run (step .toy 0) opened replayed) ∧
      ¬ Each (NeverOlder .toy 0) (step .toy 0) opened replayed := by
  have hhome : ((run (step .toy 0) opened replayed).homes.home[mover]?).map (·.home) = some 4 := by
    decide +kernel
  have hhanded : mover ∉ (run (step .toy 0) opened replayed).journal.handed := by decide +kernel
  refine ⟨hhome, fun hwins => ?_, by decide +kernel⟩
  obtain ⟨row, hrow, hfour⟩ := Option.map_eq_some_iff.mp hhome
  -- the newest is the Move to 5, which is 6 now
  let newest : Received := ⟨⟨mover, 5, 2, Crypto.toy.sign 1 (Move.toSign mover 5 2)⟩, 6⟩
  have hmem : newest ∈ (run (step .toy 0) opened replayed).journal.counts mover := by
    decide +kernel
  have hnewest : ∀ m ∈ (run (step .toy 0) opened replayed).journal.counts mover,
      m.mv.issued ≤ newest.mv.issued := by decide +kernel
  have hsix := ((hwins mover hhanded).2 row hrow newest hmem hnewest).1
  rw [hfour] at hsix
  exact absurd hsix (by decide)

end Edges

end Kept
end Sqex.Home
