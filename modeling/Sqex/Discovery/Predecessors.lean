import Sqex.Chat.Verdict
import Sqex.Discovery.KnownFile
import Sqex.Discovery.PinMoves

/-! The keys an exchange held before the one its domain is pinned at: what the store keeps of
them, and what a client that reads it can still check and find. -/
namespace Sqex.Discovery
open Runs Sqex.Chat

namespace Known

def predecessorOf (k : Known) (key : PubKey) : Option PubKey :=
  (k.find? (·.key = key)).bind (·.movedFrom)

def walk (k : Known) (exchange : PubKey) : Nat → PubKey → List PubKey → List PubKey
  | 0, _, out => out
  | n + 1, key, out => match k.predecessorOf key with
    | none => out
    | some earlier =>
      if earlier ∈ out ∨ earlier = exchange ∨ out.length > 8 then out
      else walk k exchange n earlier (out ++ [earlier])

/-- The keys an exchange succeeded, newest first, as far back as the store remembers. -/
def predecessorsOf (k : Known) (exchange : PubKey) : List PubKey := walk k exchange 10 exchange []

/-- The key whose rows are filed under the exchange's when a client opens: the one the pin
was moved from, if anything is held under it. -/
def refiles (k : Known) (exchange : PubKey) (holdsRowsFor : PubKey → Bool) : Option PubKey :=
  (k.predecessorOf exchange).filter holdsRowsFor

end Known

/-! What is done with the pin of one domain. -/

/-- The store, and the keys the domain's pin was moved from so far, newest first. -/
structure Pinned where
  known : Known
  earlier : List PubKey

inductive PinStep (t : Texts) where
  /-- A handover is followed, or the pin replaced by hand. -/
  | moved (toKey : PubKey) (comment : String)
  | added (comment : String)
  | remembered (host : Option String) (addr : t.Addr)
  /-- The store is saved, and loaded from what was saved. -/
  | reloaded

def pinStep (t : Texts) (domain : String) (s : Pinned) : PinStep t → Pinned
  | .moved toKey comment => match s.known.lookup domain with
    | none => s
    | some fromKey =>
      if toKey = fromKey then s
      else ⟨s.known.addMoved domain fromKey toKey comment, fromKey :: s.earlier⟩
  | .added comment => match s.known.lookup domain with
    | none => s
    | some key => { s with known := s.known.add domain key comment }
  | .remembered host addr => { s with known := s.known.remember domain host (t.addr addr) }
  | .reloaded => { s with known := .load t (s.known.save t) }

/-- What a channel is read under by a client that is pinned at a key. -/
def sightOf (k : Known) (current : PubKey) (v : Sight) : Sight :=
  { v with keys := current :: k.predecessorsOf current }

/-- An earlier key is found from the pin: what an exchange receipted and a device signed
under it verifies, and rows filed under it are found. -/
structure Recalled (C : Crypto) (k : Known) (current key : PubKey) : Prop where
  found : key = current ∨ key ∈ k.predecessorsOf current
  receipts : ∀ v e held, standingFor C v key e held ≠ .repudiated →
    standingUnder C (sightOf k current v) e held ≠ .repudiated
  signatures : ∀ v e, signedAt C e (v.place key) = true →
    (signedUnder C (sightOf k current v) e).isSome
  rows : ∀ holdsRowsFor : PubKey → Bool, holdsRowsFor key = true →
    key = current ∨ k.refiles current holdsRowsFor = some key

def NoneForgotten (C : Crypto) (domain : String) (s : Pinned) : Prop :=
  ∀ key ∈ s.earlier, ∃ current, s.known.lookup domain = some current ∧
    Recalled C s.known current key

def Known.Legible (t : Texts) (k : Known) : Prop := ∀ e ∈ k, e.Made t ∧ e.Legible t

def Read (t : Texts) (s : Pinned) : PinStep t → Prop
  | .reloaded => s.known.Legible t
  | _ => True

/-- What the one line of a domain has room for: the pin moves while no earlier key is to be kept but
the two it moves between, to a key no other line says came from elsewhere, and is added again where
the other lines say what its own did. What is loaded was saved legibly. -/
def Kept (t : Texts) (domain : String) (s : Pinned) : PinStep t → Prop
  | .moved toKey _ => ∀ fromKey, s.known.lookup domain = some fromKey → toKey ≠ fromKey →
    (∀ key ∈ s.earlier, key = toKey ∨ key = fromKey) ∧
      ∀ e, (s.known.others domain).find? (·.key = toKey) = some e → e.movedFrom = some fromKey
  | .added _ => ∀ current, s.known.lookup domain = some current → ∀ key ∈ s.earlier,
    key = current ∨ (s.known.others domain).predecessorOf current = some key
  | .remembered _ _ => True
  | .reloaded => s.known.Legible t

section
variable {C : Crypto} {t : Texts} {domain : String} {k : Known} {s : Pinned}
  {current key : PubKey}

theorem mem_walk {n : Nat} {start : PubKey} {out : List PubKey} (h : key ∈ out) :
    key ∈ k.walk current n start out := by
  induction n generalizing start out with
  | zero => exact h
  | succ n ih =>
    rw [Known.walk]
    split
    · exact h
    · split
      · exact h
      · exact ih (List.mem_append_left _ h)

/-- The walk finds the key that the pin was moved from, unless that is the pin. -/
theorem mem_predecessorsOf (h : k.predecessorOf current = some key) :
    key = current ∨ key ∈ k.predecessorsOf current := by
  by_cases hsame : key = current
  · exact .inl hsame
  · right
    rw [Known.predecessorsOf, Known.walk, h]
    simp only [List.not_mem_nil, hsame, List.length_nil, gt_iff_lt, Nat.not_lt_zero, or_false,
      if_false]
    exact mem_walk (by simp)

theorem standingFrom_ne_repudiated {v : Sight} {e : Sqex.Entry} {held : Option Bytes32}
    {keys : List PubKey} {last : Sqex.Standing} (hmem : key ∈ keys)
    (h : standingFor C v key e held ≠ .repudiated) :
    standingFrom C v e held keys last ≠ .repudiated := by
  induction keys generalizing last with
  | nil => simp at hmem
  | cons first keys ih =>
    rw [standingFrom]
    by_cases hfirst : standingFor C v first e held = .repudiated
    · have hne : key ≠ first := by
        rintro rfl
        exact h hfirst
      simp only [hfirst, if_true]
      exact ih ((List.mem_cons.mp hmem).resolve_left hne)
    · simp [hfirst]

theorem recalled_iff : Recalled C k current key ↔
    key = current ∨ k.predecessorOf current = some key := by
  constructor
  · intro h
    refine (h.rows (fun _ => true) rfl).imp id fun hrows => ?_
    simpa [Known.refiles] using hrows
  · intro h
    have hfound : key = current ∨ key ∈ k.predecessorsOf current :=
      h.elim .inl mem_predecessorsOf
    have hmem : key ∈ current :: k.predecessorsOf current := List.mem_cons.mpr hfound
    refine ⟨hfound, fun v e held hstands => ?_, fun v e hsigned => ?_, fun holds hholds => ?_⟩
    · exact standingFrom_ne_repudiated hmem hstands
    · rw [signedUnder, List.find?_isSome]
      exact ⟨_, List.mem_map_of_mem hmem, hsigned⟩
    · exact h.imp id fun hpred => by simp [Known.refiles, hpred, hholds]

theorem noneForgotten_iff : NoneForgotten C domain s ↔
    ∀ key ∈ s.earlier, ∃ current, s.known.lookup domain = some current ∧
      (key = current ∨ s.known.predecessorOf current = some key) := by
  simp only [NoneForgotten, recalled_iff]

theorem noneForgotten_pinned (h : s.known.lookup domain = some current) :
    NoneForgotten C domain s ↔
      ∀ key ∈ s.earlier, key = current ∨ s.known.predecessorOf current = some key := by
  simp [noneForgotten_iff, h]

/-- The keys a pin is found from where its line comes after the others. -/
theorem predecessorOf_after (rest : Known) (e : Entry) (h : e.key = current) :
    Known.predecessorOf (rest ++ [e]) current =
      ((rest.find? (·.key = current)).map (·.movedFrom)).getD e.movedFrom := by
  rw [Known.predecessorOf, List.find?_append]
  cases hfind : rest.find? (·.key = current) with
  | none => simp [h]
  | some e' => simp

theorem addMoved_others (k : Known) (fromKey toKey : PubKey) (comment : String) :
    k.addMoved domain fromKey toKey comment = k.others domain ++
      [⟨domain, toKey, (k.get domain).bind (·.host), ((k.get domain).map (·.addrs)).getD [],
        some fromKey, comment⟩] := rfl

theorem add_others (k : Known) (key : PubKey) (comment : String) :
    k.add domain key comment = k.others domain ++ [⟨domain, key, none, [], none, comment⟩] := rfl

theorem sameDomain_self (domain : String) : sameDomain domain domain = true :=
  sameDomain_iff.mpr rfl

/-- A move forgets nothing exactly where it is kept: the line has room for one key. -/
theorem moved_iff {toKey fromKey : PubKey} {comment : String} (hne : toKey ≠ fromKey) :
    NoneForgotten C domain ⟨k.addMoved domain fromKey toKey comment, fromKey :: s.earlier⟩ ↔
      (∀ key ∈ s.earlier, key = toKey ∨ key = fromKey) ∧
      ∀ e, (k.others domain).find? (·.key = toKey) = some e → e.movedFrom = some fromKey := by
  have hlookup : (k.addMoved domain fromKey toKey comment).lookup domain = some toKey := by
    rw [lookup_addMoved, if_pos (sameDomain_self domain)]
  have hpred : (k.addMoved domain fromKey toKey comment).predecessorOf toKey =
      (((k.others domain).find? (·.key = toKey)).map (·.movedFrom)).getD (some fromKey) := by
    rw [addMoved_others, predecessorOf_after _ _ rfl]
  rw [noneForgotten_pinned hlookup]
  simp only [hpred, List.forall_mem_cons, hne.symm, false_or]
  cases hother : (k.others domain).find? (·.key = toKey) with
  | none => simp [eq_comm]
  | some e =>
    simp only [Option.map_some, Option.getD_some, Option.some.injEq, forall_eq']
    constructor
    · intro ⟨hfrom, hall⟩
      refine ⟨fun key hkey => (hall key hkey).imp id fun hpred => ?_, hfrom⟩
      exact (Option.some.inj (hfrom.symm.trans hpred)).symm
    · intro ⟨hall, hfrom⟩
      refine ⟨hfrom, fun key hkey => (hall key hkey).imp id fun heq => ?_⟩
      rw [heq, hfrom]

theorem added_iff {comment : String} :
    NoneForgotten C domain { s with known := s.known.add domain current comment } ↔
      ∀ key ∈ s.earlier,
        key = current ∨ (s.known.others domain).predecessorOf current = some key := by
  have hlookup : (s.known.add domain current comment).lookup domain = some current := by
    rw [lookup_add, if_pos (sameDomain_self domain)]
  have hpred : (s.known.add domain current comment).predecessorOf current =
      (s.known.others domain).predecessorOf current := by
    rw [add_others, predecessorOf_after _ _ rfl, Known.predecessorOf]
    cases (s.known.others domain).find? (·.key = current) <;> rfl
  rw [noneForgotten_pinned hlookup]
  simp only [hpred]

/-- What a line says but for where the exchange was. -/
def Known.pins (k : Known) : List (String × PubKey × Option PubKey) :=
  k.map fun e => (e.domain, e.key, e.movedFrom)

theorem lookup_eq_pins (k : Known) (domain : String) : k.lookup domain =
    (k.pins.find? fun p => sameDomain p.1 domain).map (·.2.1) := by
  rw [Known.pins, List.find?_map, Option.map_map]
  rfl

theorem predecessorOf_eq_pins (k : Known) (key : PubKey) : k.predecessorOf key =
    (k.pins.find? fun p => p.2.1 = key).bind (·.2.2) := by
  rw [Known.pins, List.find?_map, Option.bind_map]
  rfl

theorem noneForgotten_of_pins {k' : Known} (hsame : k'.pins = s.known.pins) :
    NoneForgotten C domain { s with known := k' } ↔ NoneForgotten C domain s := by
  simp only [noneForgotten_iff, lookup_eq_pins, predecessorOf_eq_pins, hsame]

theorem pins_remember (k : Known) (domain : String) (host : Option String) (addr : String) :
    (k.remember domain host addr).pins = k.pins := by
  induction k with
  | nil => rfl
  | cons e k ih =>
    rw [Known.remember]
    split
    · rfl
    · exact congrArg ((e.domain, e.key, e.movedFrom) :: ·) ih

theorem pins_reloaded (hlaw : t.Lawful) {k : Known} (hlegible : k.Legible t) :
    (Known.load t (k.save t)).pins = k.pins := by
  have hsurvives : k.Survives t :=
    (survives_iff_legible hlaw fun e he => (hlegible e he).1).mpr fun e he => (hlegible e he).2
  have hkept : ∀ k : Known, k.pins = Known.pins (k.map Entry.kept) := fun k => by
    simp [Known.pins, Entry.kept]
  rw [hkept, hsurvives, ← hkept]

/-- Where what is loaded can be read, a step forgets nothing exactly where it is kept. -/
theorem pinStep_iff (hlaw : t.Lawful) {i : PinStep t} (hread : Read t s i)
    (h : NoneForgotten C domain s) :
    NoneForgotten C domain (pinStep t domain s i) ↔ Kept t domain s i := by
  cases i with
  | moved toKey comment =>
    simp only [pinStep, Kept]
    cases hlookup : s.known.lookup domain with
    | none => simpa using h
    | some fromKey =>
      simp only [Option.some.injEq, forall_eq']
      by_cases hsame : toKey = fromKey
      · simpa [hsame] using h
      · simp only [hsame, if_false, ne_eq, not_false_eq_true, true_implies]
        exact moved_iff hsame
  | added comment =>
    simp only [pinStep, Kept]
    cases hlookup : s.known.lookup domain with
    | none => simpa using h
    | some current =>
      simp only [Option.some.injEq, forall_eq']
      exact added_iff
  | remembered host addr =>
    exact iff_of_true ((noneForgotten_of_pins (pins_remember _ _ _ _)).mpr h) trivial
  | reloaded =>
    exact iff_of_true ((noneForgotten_of_pins (pins_reloaded hlaw hread)).mpr h) hread

theorem read_of_kept {i : PinStep t} (h : Kept t domain s i) : Read t s i := by
  cases i with
  | moved toKey comment | added comment | remembered host addr => trivial
  | reloaded => exact h

theorem each_of_always (hlaw : t.Lawful) {steps : List (PinStep t)}
    (hread : Each (Read t) (pinStep t domain) s steps)
    (h : Always (NoneForgotten C domain) (pinStep t domain) s steps) :
    Each (Kept t domain) (pinStep t domain) s steps := by
  induction steps generalizing s with
  | nil => trivial
  | cons i steps ih => exact ⟨(pinStep_iff hlaw hread.1 h.1).mp h.2.start, ih hread.2 h.2⟩

/-- Over any steps of a domain's pin no earlier key is forgotten where the line has room for
what each leaves to be kept and what is loaded was saved legibly; and only there, of the
runs that load nothing else. -/
theorem none_forgotten_iff (C : Crypto) (t : Texts) (hlaw : t.Lawful) (domain : String)
    (k : Known) (steps : List (PinStep t)) :
    (Each (Kept t domain) (pinStep t domain) ⟨k, []⟩ steps →
      Always (NoneForgotten C domain) (pinStep t domain) ⟨k, []⟩ steps) ∧
    (Each (Read t) (pinStep t domain) ⟨k, []⟩ steps →
      Always (NoneForgotten C domain) (pinStep t domain) ⟨k, []⟩ steps →
      Each (Kept t domain) (pinStep t domain) ⟨k, []⟩ steps) := by
  refine ⟨fun hkept => hkept.always (fun s i h hi => ?_) ?_, each_of_always hlaw⟩
  · exact (pinStep_iff hlaw (read_of_kept hi) h).mpr hi
  · rw [noneForgotten_iff]
    simp

end

def atFirst : Known := [⟨"d", 1, none, [], none, ""⟩]

def movedOnce : List (PinStep .dotted) :=
  [.moved 2 "moved", .remembered (some "ex.d") ⟨192, 0, 2, 1, 443⟩, .reloaded,
    .remembered none ⟨192, 0, 2, 2, 443⟩]

/-- What is saved in that run. -/
def savedEdits : List (Edit .dotted) :=
  [.moved "d" 1 2 "moved", .remembered "d" (some "ex.d") ⟨192, 0, 2, 1, 443⟩]

/-- A pin that moved and was loaded again finds the key before; one that is added again
after it moved does not. -/
theorem none_forgotten_moved :
    Always (NoneForgotten Crypto.toy "d") (pinStep .dotted "d") ⟨atFirst, []⟩ movedOnce ∧
      ¬ Always (NoneForgotten Crypto.toy "d") (pinStep .dotted "d") ⟨atFirst, []⟩
        [.moved 2 "moved", .added "again"] := by
  have hiff := none_forgotten_iff Crypto.toy .dotted dotted_lawful "d" atFirst
  constructor
  · refine (hiff movedOnce).1 ⟨?_, trivial, fun e he => ⟨?_, ?_⟩, trivial, trivial⟩
    · simp [Kept, atFirst, Known.others, sameDomain]
    · have hmade : ∀ e ∈ atFirst, e.Made .dotted := by
        simp only [atFirst, List.forall_mem_cons]
        exact ⟨⟨by decide, by simp, by decide, by simp⟩, by simp⟩
      have hunbroken : ∀ i ∈ savedEdits, i.Unbroken := by simp [savedEdits, Edit.Unbroken]
      exact made_run hmade hunbroken e he
    · have hlegible : ∀ e ∈ run edit atFirst savedEdits, e.Legible .dotted := by decide +kernel
      exact hlegible e he
  · intro h
    have hkept := ((hiff [.moved 2 "moved", .added "again"]).2 ⟨trivial, trivial, trivial⟩ h).2.1
    have hfirst := hkept 2 (by decide +kernel) 1 (by decide +kernel)
    revert hfirst
    decide +kernel

/-- The key before the one before is not found. -/
theorem moved_twice_forgets : ¬ Always (NoneForgotten Crypto.toy "d") (pinStep .dotted "d")
    ⟨atFirst, []⟩ [.moved 2 "moved", .moved 3 "moved again"] := by
  intro h
  obtain ⟨current, hpinned, hfound⟩ := noneForgotten_iff.mp h.2.2.start 1 (by decide +kernel)
  have hthird : some (3 : PubKey) = some current := Eq.trans (by decide +kernel) hpinned
  obtain rfl := Option.some.inj hthird
  revert hfound
  decide +kernel

end Sqex.Discovery
