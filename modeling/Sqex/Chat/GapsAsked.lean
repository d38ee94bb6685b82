import Sqex.Chat.Shelf
import Sqex.Lib.Columns
import Sqex.Lib.Traces

/-! Where a client asks from for what its store lacks of a channel. -/
namespace Sqex.Chat
open Std Runs

/-- The position before the first number missing between those held. -/
def Shelf.lowestGap (s : Shelf) : Option UInt64 :=
  let seqs := s.message.keys
  (seqs.find? fun m => seqs.any (m < ·) && !seqs.contains (m + 1)).map Int64.toUInt64

/-- A client's side of the fetches of a channel, since it started. -/
structure Asking where
  shelf : Shelf
  gapAsked : Bool

inductive Pull where
  | ask
  /-- A fetch that is parked, or one of a catch-up: from the cursor. -/
  | watch
  /-- Whatever else the client does to its store. -/
  | otherwise (shelf : Shelf)

namespace Asking

def ask (c : Asking) : UInt64 × Asking :=
  let since := c.shelf.since
  if c.gapAsked then (since, c)
  else match c.shelf.lowestGap with
    | some gap => (min since gap, { c with gapAsked := true })
    | none => (since, c)

def step (c : Asking) : Pull → Asking
  | .ask => c.ask.2
  | .watch => c
  | .otherwise shelf => { c with shelf := shelf }

def sinces (c : Asking) : Pull → List UInt64
  | .ask => [c.ask.1]
  | .watch => [c.shelf.since]
  | .otherwise _ => []

end Asking

namespace Shelf

/-- A position below the cursor that nothing is held for. -/
def Hole (s : Shelf) (p : UInt64) : Prop := p ≤ s.since ∧ p.toInt64 ∉ s.message

instance (s : Shelf) (p : UInt64) : Decidable (s.Hole p) := inferInstanceAs (Decidable (_ ∧ _))

/-- A number held that is not the last, with the one after it missing. -/
def Before (s : Shelf) (m : Int64) : Prop :=
  m ∈ s.message ∧ (∃ above ∈ s.message, m < above) ∧ m + 1 ∉ s.message

/-- The first number held that stands before a missing one is below a position. -/
def GapBelow (s : Shelf) (p : UInt64) : Prop :=
  ∃ m, s.Before m ∧ m.toUInt64 < p ∧ ∀ m', s.Before m' → m ≤ m'

variable {s : Shelf} {p : UInt64}

theorem before_iff {m : Int64} (hm : m ∈ s.message.keys) :
    (s.message.keys.any (m < ·) && !s.message.keys.contains (m + 1)) = true ↔ s.Before m := by
  simp [Before, ExtTreeMap.mem_keys.mp hm]

theorem exists_lowestGap {m : Int64} (hm : s.Before m) : ∃ gap, s.lowestGap = some gap := by
  have hkey : m ∈ s.message.keys := ExtTreeMap.mem_keys.mpr hm.1
  rw [← Option.isSome_iff_exists, lowestGap, Option.isSome_map, List.find?_isSome]
  exact ⟨m, hkey, (before_iff hkey).mpr hm⟩

theorem lowestGap_eq_some {gap : UInt64} :
    s.lowestGap = some gap ↔ ∃ m, s.Before m ∧ m.toUInt64 = gap ∧ ∀ m', s.Before m' → m ≤ m' := by
  have hordered : s.message.keys.Pairwise (· < ·) :=
    s.message.ordered_keys.imp fun hlt => Std.compare_eq_lt.mp hlt
  simp only [lowestGap, Option.map_eq_some_iff, List.find?_eq_some_iff_append]
  constructor
  · rintro ⟨m, ⟨hfound, skipped, rest, hsplit, hskipped⟩, rfl⟩
    have hm : m ∈ s.message.keys := by simp [hsplit]
    refine ⟨m, (before_iff hm).mp hfound, rfl, fun m' hm' => ?_⟩
    have hkey : m' ∈ s.message.keys := ExtTreeMap.mem_keys.mpr hm'.1
    have hfound' := (before_iff hkey).mpr hm'
    rw [hsplit] at hordered
    obtain ⟨-, hrest, -⟩ := List.pairwise_append.mp hordered
    rw [hsplit] at hkey
    cases List.mem_append.mp hkey with
    | inl hearly =>
      have hno := hskipped m' hearly
      rw [hfound'] at hno
      cases hno
    | inr hlate =>
      cases List.mem_cons.mp hlate with
      | inl hsame => exact hsame ▸ Int64.le_refl m
      | inr hlater => exact Int64.le_of_lt ((List.pairwise_cons.mp hrest).1 m' hlater)
  · rintro ⟨m, hm, rfl, hleast⟩
    have hkey : m ∈ s.message.keys := ExtTreeMap.mem_keys.mpr hm.1
    obtain ⟨skipped, rest, hsplit⟩ := List.append_of_mem hkey
    refine ⟨m, ⟨(before_iff hkey).mpr hm, skipped, rest, hsplit, fun m' hm' => ?_⟩, rfl⟩
    have hkey' : m' ∈ s.message.keys := by simp [hsplit, hm']
    rw [hsplit] at hordered
    have hlt := (List.pairwise_append.mp hordered).2.2 m' hm' m (by simp)
    rw [Bool.not_eq_true', Bool.eq_false_iff]
    intro hfound
    exact Int64.not_lt.mpr (hleast m' ((before_iff hkey').mp hfound)) hlt

theorem gapBelow_iff : s.GapBelow p ↔ ∃ gap, s.lowestGap = some gap ∧ gap < p := by
  simp only [lowestGap_eq_some]
  constructor
  · rintro ⟨m, hm, hlt, hleast⟩
    exact ⟨_, ⟨m, hm, rfl, hleast⟩, hlt⟩
  · rintro ⟨_, ⟨m, hm, rfl, hleast⟩, hlt⟩
    exact ⟨m, hm, hlt, hleast⟩

theorem toInt_succ {c n : Int64} (h : c < n) : (c + 1).toInt = c.toInt + 1 := by
  have hone : (1 : Int64).toInt = 1 := rfl
  have hlt := Int64.lt_iff_toInt_lt.mp h
  have hlow := c.le_toInt
  have hhigh := n.toInt_lt
  rw [Int64.toInt_add, hone]
  exact Int.bmod_eq_of_le (by omega) (by omega)

/-- Between a number held and a missing one, some number held stands before a missing one. -/
theorem exists_last_held {low n : Int64} (hlow : low ∈ s.message) (hn : n ∉ s.message)
    (hlt : low < n) : ∃ m ∈ s.message, low ≤ m ∧ m < n ∧ m + 1 ∉ s.message := by
  rw [Int64.lt_iff_toInt_lt] at hlt
  obtain ⟨k, hk⟩ := Int.eq_ofNat_of_zero_le (show 0 ≤ n.toInt - low.toInt by omega)
  induction k generalizing low with
  | zero => omega
  | succ k ih =>
    have hsucc := toInt_succ (Int64.lt_iff_toInt_lt.mpr hlt)
    by_cases hnext : low + 1 ∈ s.message
    · have hother : (low + 1).toInt ≠ n.toInt := fun heq => hn (Int64.toInt_inj.mp heq ▸ hnext)
      obtain ⟨m, hm, hle, hbelow, hends⟩ := ih hnext (by omega) (by omega)
      rw [Int64.le_iff_toInt_le] at hle
      exact ⟨m, hm, Int64.le_iff_toInt_le.mpr (by omega), hbelow, hends⟩
    · exact ⟨low, hlow, Int64.le_refl low, Int64.lt_iff_toInt_lt.mpr hlt, hnext⟩

theorem gapBelow_iff_missing (hhole : s.Hole p) (hp : p.toNat < 2 ^ 63)
    (hrows : ∀ m ∈ s.message, 0 ≤ m.toInt) :
    s.GapBelow p ↔ ∃ low ∈ s.message, ∃ high ∈ s.message, ∃ n, n ∉ s.message ∧
      low.toUInt64 < p ∧ low < n ∧ n < high := by
  have hbelow : ∀ m ∈ s.message, (m.toUInt64 < p ↔ m < p.toInt64) := by
    intro m hm
    have hnat := column_toNat (hrows m hm)
    have hcolumn := column_toInt hp
    rw [UInt64.lt_iff_toNat_lt, Int64.lt_iff_toInt_lt]
    omega
  constructor
  · rintro ⟨m, ⟨hm, ⟨above, habove, hlt⟩, hends⟩, hmp, -⟩
    have hsucc := toInt_succ hlt
    refine ⟨m, hm, above, habove, m + 1, hends, hmp, ?_, ?_⟩
    · rw [Int64.lt_iff_toInt_lt]
      omega
    · rw [Int64.lt_iff_toInt_lt] at hlt ⊢
      have hother : (m + 1).toInt ≠ above.toInt :=
        fun heq => hends (Int64.toInt_inj.mp heq ▸ habove)
      omega
  · rintro ⟨low, hlow, high, hhigh, n, hn, hlp, hln, hnh⟩
    rw [hbelow low hlow] at hlp
    -- the first of the hole and what is missing is above a number held before a missing one
    have hfirst : ∃ m, s.Before m ∧ m < p.toInt64 := by
      by_cases hnp : n ≤ p.toInt64
      · obtain ⟨m, hm, -, hmn, hends⟩ := exists_last_held hlow hn hln
        exact ⟨m, ⟨hm, ⟨high, hhigh, Int64.lt_trans hmn hnh⟩, hends⟩,
          Int64.lt_of_lt_of_le hmn hnp⟩
      · obtain ⟨m, hm, -, hmp, hends⟩ := exists_last_held hlow hhole.2 hlp
        have hpn : p.toInt64 < n := Int64.not_le.mp hnp
        exact ⟨m, ⟨hm, ⟨high, hhigh, Int64.lt_trans (Int64.lt_trans hmp hpn) hnh⟩, hends⟩, hmp⟩
    obtain ⟨m, hm, hmp⟩ := hfirst
    obtain ⟨gap, hgap⟩ := exists_lowestGap hm
    obtain ⟨m₀, hm₀, rfl, hleast⟩ := lowestGap_eq_some.mp hgap
    refine ⟨m₀, hm₀, ?_, hleast⟩
    rw [hbelow m₀ hm₀.1]
    exact Int64.lt_of_le_of_lt (hleast m hm) hmp

end Shelf

namespace Asking
variable {c : Asking} {p : UInt64}

theorem sinces_below_iff {pull : Pull} (hhole : c.sinces pull ≠ [] → c.shelf.Hole p) :
    (∃ since ∈ c.sinces pull, since < p) ↔
      pull = .ask ∧ c.gapAsked = false ∧ c.shelf.GapBelow p := by
  cases pull with
  | otherwise shelf => simp [sinces]
  | watch =>
    have hcursor := (hhole (by simp [sinces])).1
    simpa [sinces] using hcursor
  | ask =>
    have hcursor := (hhole (by simp [sinces])).1
    have hnot : ¬ c.shelf.since < p := UInt64.not_lt.mpr hcursor
    rw [Shelf.gapBelow_iff]
    cases hasked : c.gapAsked with
    | true => simpa [sinces, ask, hasked] using hcursor
    | false =>
      cases hgap : c.shelf.lowestGap with
      | none => simpa [sinces, ask, hasked, hgap] using hcursor
      | some gap =>
        simp only [sinces, ask, hasked, hgap, Bool.false_eq_true, if_false, List.mem_singleton,
          exists_eq_left, true_and, Option.some.injEq, exists_eq_left']
        change (if c.shelf.since ≤ gap then c.shelf.since else gap) < p ↔ gap < p
        split
        · next hle =>
          have hfar : ¬ gap < p := UInt64.not_lt.mpr (UInt64.le_trans hcursor hle)
          exact iff_of_false hnot hfar
        · exact Iff.rfl

end Asking

/-- In a run of the client in which a position stays a hole, some fetch is asked from below it
exactly when one is asked, before a gap was asked for, of a store whose first gap is below it: with
numbers below 2^63, when an entry is held below it and a number is missing between that and another
held. -/
theorem holes_asked_iff (s : Shelf) (pulls : List Pull) (p : UInt64)
    (hhole : Each (fun c pull => c.sinces pull ≠ [] → c.shelf.Hole p) Asking.step ⟨s, false⟩
      pulls) :
    ((∃ since ∈ emitted Asking.sinces Asking.step ⟨s, false⟩ pulls, since < p) ↔
      ¬ Each (fun c pull => ¬ (pull = .ask ∧ c.gapAsked = false ∧ c.shelf.GapBelow p))
        Asking.step ⟨s, false⟩ pulls) ∧
    ∀ t : Shelf, t.Hole p → p.toNat < 2 ^ 63 → (∀ m ∈ t.message, 0 ≤ m.toInt) →
      (t.GapBelow p ↔ ∃ low ∈ t.message, ∃ high ∈ t.message, ∃ n, n ∉ t.message ∧
        low.toUInt64 < p ∧ low < n ∧ n < high) := by
  refine ⟨?_, fun t hhole hp hrows => Shelf.gapBelow_iff_missing hhole hp hrows⟩
  have hnone : (∀ since ∈ emitted Asking.sinces Asking.step ⟨s, false⟩ pulls, ¬ since < p) ↔
      Each (fun c pull => ¬ (pull = .ask ∧ c.gapAsked = false ∧ c.shelf.GapBelow p))
        Asking.step ⟨s, false⟩ pulls := by
    rw [forall_emitted_iff]
    refine each_congr (fun _ _ (_ : True) _ _ => trivial) (fun c pull _ hhole => ?_) trivial hhole
    rw [← Asking.sinces_below_iff hhole]
    exact ⟨fun hall h => hall _ h.choose_spec.1 h.choose_spec.2,
      fun hno since hsince hlt => hno ⟨since, hsince, hlt⟩⟩
  rw [← hnone]
  simp only [not_forall, not_not, exists_prop]

def heldUpTo (seqs : List Int64) (since : Int64) : Shelf :=
  { Shelf.empty with
    message := ExtTreeMap.ofList
      (seqs.map fun seq => (seq, (⟨1, 0, kindMember, none⟩ : MessageRow)))
    cursor := some ⟨since, 0, 0⟩ }

theorem mem_heldUpTo {seqs : List Int64} {since m : Int64} :
    m ∈ (heldUpTo seqs since).message ↔ m ∈ seqs := by
  rw [heldUpTo, ExtTreeMap.mem_ofList, List.map_map]
  simp [Function.comp_def]

/-- A hole between two entries that are held. -/
theorem holes_asked_between :
    ∃ since ∈ emitted Asking.sinces Asking.step (⟨heldUpTo [1, 3] 3, false⟩ : Asking)
      [.watch, .ask], since < 2 := by
  have hhole : Each (fun c pull => c.sinces pull ≠ [] → c.shelf.Hole 2) Asking.step
      ⟨heldUpTo [1, 3] 3, false⟩ [.watch, .ask] := by decide +kernel
  obtain ⟨hasked, hbelow⟩ := holes_asked_iff (heldUpTo [1, 3] 3) [.watch, .ask] 2 hhole
  refine hasked.mpr fun hnone => hnone.2.1 ⟨rfl, rfl, ?_⟩
  refine (hbelow _ (by decide +kernel) (by decide) fun m hm => ?_).mpr
    ⟨1, by decide +kernel, 3, by decide +kernel, 2, by decide +kernel, by decide, by decide,
      by decide⟩
  have hpositive : ∀ m ∈ [(1 : Int64), 3], 0 ≤ m.toInt :=
    List.forall_mem_cons.mpr ⟨by decide, List.forall_mem_singleton.mpr (by decide)⟩
  exact hpositive m (mem_heldUpTo.mp hm)

/-- A hole below every entry that is held, and one above every one: neither is asked for. -/
theorem holes_outside_unasked :
    ((heldUpTo [5, 6] 6).Hole 3 ∧
      emitted Asking.sinces Asking.step (⟨heldUpTo [5, 6] 6, false⟩ : Asking) [.ask, .ask] =
        [6, 6]) ∧
    (heldUpTo [1, 2] 5).Hole 4 ∧
      emitted Asking.sinces Asking.step (⟨heldUpTo [1, 2] 5, false⟩ : Asking) [.ask, .ask] =
        [5, 5] := by
  decide +kernel

end Sqex.Chat
