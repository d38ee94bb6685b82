import Sqex.Chat.Timed
import Sqex.Lib.Highest

/-! A client's own posts at a fork: what it held above one, what of it the winning history has, and
what is put aside to be posted again. -/
namespace Sqex.Chat
open Std Runs

/-- A post of this account's that a fork put in danger: where it stood and what it said, and the
entry it was in, where one was held. -/
structure Owed where
  seq : Int64
  posted : UInt64
  plain : Bytes
  entry : Option Entry
  deriving DecidableEq

def MessageRow.isPost (R : Reader) (row : MessageRow) : Bool :=
  match row.plain.bind R.decodeBody with
  | some (.post _) => true
  | _ => false

namespace Fork

def own (R : Reader) (x : Fork) (seq : Int64) (row : MessageRow) : Bool :=
  decide (seq.toUInt64 > x.fork) && row.account == x.me && row.kind == kindMember && row.isPost R

/-- Whether the winning history has it: the exchange that orders the channel now receipted it. -/
def wins (R : Reader) (x : Fork) (s : Shelf) (seq : Int64) : Bool :=
  (s.entry[seq]?).any fun e => !x.same && vouchedFor R.crypto x.current e

def endangered (R : Reader) (x : Fork) (s : Shelf) : List Owed :=
  (s.message.toList.filter fun row => x.own R row.1 row.2 && !x.wins R s row.1).map fun row =>
    ⟨row.1, row.2.posted, row.2.plain.getD [], s.entry[row.1]?⟩

end Fork

/-- The highest number held, by the signed columns. -/
def Shelf.highest (s : Shelf) : UInt64 :=
  max ((s.entry.keys.getLast?.map Int64.toUInt64).getD 0)
    ((s.message.keys.getLast?.map Int64.toUInt64).getD 0)

/-- What a client holds of a channel, and the forks it dealt with. Nothing reads what is owed: the
posts forks put in danger, and that were neither posted again since nor let go. -/
structure Forked where
  cabinet : Cabinet
  forksSeen : List UInt64
  owed : List Owed

/-- A statement of the store that is neither a fork's nor about what is put aside. -/
def Doing.quiet : Doing → Bool
  | .forkFound .. | .dropStranded _ => false
  | _ => true

inductive Deed
  /-- Of a poll, a post, a redaction, a reset or an import. -/
  | does (d : Doing)
  | expire (now : UInt64)
  /-- A fork is met, by a rehome read, by the home's answer or by this client's own rehome. -/
  | forkFound (R : Reader) (x : Fork)
  | postAgain (R : Reader) (seq : UInt64) (sent : Bool)
  | forgetStranded (seq : UInt64)
  /-- The client starts again: which forks it dealt with was kept in memory. -/
  | restart

namespace Forked

def start (shelf : Shelf) : Forked := ⟨{ Cabinet.empty with shelf }, [], []⟩

def skips (f : Forked) (x : Fork) : Bool :=
  f.forksSeen.contains x.fork || decide (f.cabinet.shelf.highest ≤ x.fork)

def drop (f : Forked) (seq : UInt64) : Forked :=
  { f with
    cabinet := f.cabinet.act (.dropStranded seq)
    owed := f.owed.filter (·.seq ≠ seq.toInt64) }

def canPost (R : Reader) (f : Forked) (seq : UInt64) : Bool :=
  (f.cabinet.stranded[seq.toInt64]?).any fun row =>
    (⟨0, 0, kindMember, some row.plain⟩ : MessageRow).isPost R

def step (f : Forked) : Deed → Forked
  | .does d => if d.quiet then { f with cabinet := f.cabinet.act d } else f
  | .expire now => { f with cabinet := f.cabinet.expireTimed now }
  | .forkFound R x =>
    { cabinet := if f.skips x then f.cabinet else f.cabinet.act (.forkFound R x)
      forksSeen := x.fork :: f.forksSeen
      owed := f.owed ++ x.endangered R f.cabinet.shelf }
  | .postAgain R seq sent => if f.canPost R seq && sent then f.drop seq else f
  | .forgetStranded seq => f.drop seq
  | .restart => { f with forksSeen := [] }

def KeptAside (f : Forked) (p : Owed) : Prop :=
  ∃ row, f.cabinet.stranded[p.seq]? = some row ∧ row.posted = p.posted ∧ row.plain = p.plain

structure NoneLost (f : Forked) : Prop where
  kept : ∀ p ∈ f.owed, f.KeptAside p
  own : ∀ p ∈ f.owed, ∀ q ∈ f.owed, p.seq = q.seq → p.entry = q.entry

def Already (f : Forked) (p : Owed) : Prop :=
  f.KeptAside p ∧ ∀ q ∈ f.owed, q.seq = p.seq → q.entry = p.entry

/-- Each own post a fork puts in danger is kept aside already, or the fork is not skipped, the
post is told for a losing one, and no other is kept under its number; and there is room. -/
def Spares (f : Forked) : Deed → Prop
  | .forkFound R x =>
    let stranded := x.stranded R f.cabinet.shelf
    (∀ p ∈ x.endangered R f.cabinet.shelf, f.Already p ∨
      f.skips x = false ∧ p.seq ∉ f.cabinet.stranded ∧ p.seq ∈ stranded.map Prod.fst) ∧
    (f.skips x = false → f.cabinet.stranded.size +
      (stranded.filter fun row => row.1 ∉ f.cabinet.stranded).length ≤ 256)
  | _ => True

/-- Whatever is put aside is owed, and there is no more of it than there is room for. -/
structure Accounted (f : Forked) : Prop extends NoneLost f where
  backed : ∀ seq ∈ f.cabinet.stranded, ∃ p ∈ f.owed, p.seq = seq
  bounded : f.cabinet.stranded.size ≤ 256

theorem accounted_start (shelf : Shelf) : (start shelf).Accounted where
  kept := by simp [start]
  own := by simp [start]
  backed := by simp [start, Cabinet.empty]
  bounded := by simp [start, Cabinet.empty]

theorem Accounted.congr {f f' : Forked} (h : f.Accounted)
    (hstranded : f'.cabinet.stranded = f.cabinet.stranded) (howed : f'.owed = f.owed) :
    f'.Accounted where
  kept p hp := by
    rw [howed] at hp
    simpa only [KeptAside, hstranded] using h.kept p hp
  own := by simpa only [howed] using h.own
  backed := by simpa only [hstranded, howed] using h.backed
  bounded := by simpa only [hstranded] using h.bounded

theorem Accounted.drop {f : Forked} (h : f.Accounted) (seq : UInt64) : (f.drop seq).Accounted := by
  have hrow : ∀ k : Int64, (f.drop seq).cabinet.stranded[k]? =
      if seq.toInt64 = k then none else f.cabinet.stranded[k]? := fun k => lookup_erase _ _ _
  have howed : ∀ p, p ∈ (f.drop seq).owed ↔ p ∈ f.owed ∧ p.seq ≠ seq.toInt64 := by
    simp [Forked.drop]
  refine ⟨⟨fun p hp => ?_, fun p hp q hq => ?_⟩, fun k hk => ?_, ?_⟩
  · obtain ⟨hp, hne⟩ := (howed p).mp hp
    rw [KeptAside, hrow, if_neg (Ne.symm hne)]
    exact h.kept p hp
  · exact h.own p ((howed p).mp hp).1 q ((howed q).mp hq).1
  · have hsome := ExtTreeMap.mem_iff_isSome_getElem?.mp hk
    rw [hrow] at hsome
    split at hsome
    · cases hsome
    · next hne =>
      obtain ⟨p, hp, hseq⟩ := h.backed k (ExtTreeMap.mem_iff_isSome_getElem?.mpr hsome)
      exact ⟨p, (howed p).mpr ⟨hp, fun heq => hne (heq.symm.trans hseq)⟩, hseq⟩
  · exact (ExtTreeMap.size_erase_le).trans h.bounded

theorem act_quiet {d : Doing} (hquiet : d.quiet = true) (c : Cabinet) :
    (c.act d).stranded = c.stranded := by
  cases d with
  | forkFound R x | dropStranded seq => cases hquiet
  | fold | noteCommits | post | redact | beside | reset | importEarlier => rfl

end Forked

/-! What a fork puts in danger, and what of it is put aside. -/

namespace Fork
variable {R : Reader} {x : Fork} {s : Shelf}

theorem mem_endangered {p : Owed} : p ∈ x.endangered R s ↔ ∃ row, s.message[p.seq]? = some row ∧
    x.own R p.seq row = true ∧ x.wins R s p.seq = false ∧
      p = ⟨p.seq, row.posted, row.plain.getD [], s.entry[p.seq]?⟩ := by
  simp only [endangered, List.mem_map, List.mem_filter, Prod.exists,
    ExtTreeMap.mem_toList_iff_getElem?_eq_some, Bool.and_eq_true, Bool.not_eq_true']
  constructor
  · rintro ⟨seq, row, ⟨hrow, hown, hwins⟩, rfl⟩
    exact ⟨row, hrow, hown, hwins, rfl⟩
  · rintro ⟨row, hrow, hown, hwins, heq⟩
    exact ⟨p.seq, row, ⟨hrow, hown, hwins⟩, heq.symm⟩

theorem endangered_inj {p q : Owed} (hp : p ∈ x.endangered R s) (hq : q ∈ x.endangered R s)
    (hseq : p.seq = q.seq) : p = q := by
  obtain ⟨row, hrow, -, -, hp⟩ := mem_endangered.mp hp
  obtain ⟨row', hrow', -, -, hq⟩ := mem_endangered.mp hq
  rw [hseq, hrow'] at hrow
  cases hrow
  rw [hp, hq, hseq]

theorem nodup_stranded (R : Reader) (x : Fork) (s : Shelf) :
    ((x.stranded R s).map Prod.fst).Nodup := by
  have hkeys : (s.message.toList.map Prod.fst).Nodup := by
    rw [ExtTreeMap.map_fst_toList_eq_keys]
    exact s.message.nodup_keys
  exact hkeys.sublist (List.filter_sublist.map _)

theorem vouchedFor_unstamped {C : Crypto} {v : Sight} {e : Entry} (hstamp : e.stamp = none) :
    vouchedFor C v e = false := by
  cases hkeys : v.keys with
  | nil => simp [vouchedFor, standingUnder, hkeys, standingFrom]
  | cons key keys =>
    have hfirst : standingFor C v key e none = .unclaimed := by simp [standingFor, hstamp]
    simp [vouchedFor, standingUnder, hkeys, standingFrom, hfirst]

theorem endangered_of_stranded {row : Int64 × MessageRow} (hrow : row ∈ x.stranded R s) :
    ⟨row.1, row.2.posted, row.2.plain.getD [], s.entry[row.1]?⟩ ∈ x.endangered R s := by
  obtain ⟨hmem, hstrands⟩ := List.mem_filter.mp hrow
  have hheld : s.message[row.1]? = some row.2 :=
    ExtTreeMap.mem_toList_iff_getElem?_eq_some.mp hmem
  have hboth : x.own R row.1 row.2 = true ∧ (s.entry[row.1]?).all (x.loses R.crypto) = true := by
    simp only [strands, Bool.and_eq_true] at hstrands
    obtain ⟨⟨⟨⟨habove, hlost⟩, hme⟩, hkind⟩, hpost⟩ := hstrands
    simp only [own, habove, hme, hkind, Bool.and_true, Bool.true_and]
    exact ⟨hpost, hlost⟩
  obtain ⟨hown, hlost⟩ := hboth
  refine mem_endangered.mpr ⟨row.2, hheld, hown, ?_, rfl⟩
  cases hentry : s.entry[row.1]? with
  | none => simp [wins, hentry]
  | some e =>
    rw [hentry] at hlost
    simp only [Option.all_some, loses, Bool.or_eq_true, Bool.and_eq_true, Bool.not_eq_true',
      Option.isNone_iff_eq_none] at hlost
    simp only [wins, hentry, Option.any_some, Bool.and_eq_false_iff, Bool.not_eq_false']
    obtain ⟨-, hsame | hcurrent⟩ | hstamp := hlost
    · exact .inl hsame
    · exact .inr hcurrent
    · exact .inr (vouchedFor_unstamped hstamp)

end Fork

namespace Forked
variable {R : Reader} {x : Fork} {f : Forked}

def asideAt (fork : UInt64) (row : Int64 × MessageRow) : Int64 × StrandedRow :=
  (row.1, ⟨row.2.posted, fork, row.2.plain.getD []⟩)

theorem stranded_forkFound (c : Cabinet) : (c.act (.forkFound R x)).stranded =
    ((x.stranded R c.shelf).map (asideAt x.fork)).foldl (putHighest 256) c.stranded := by
  rw [List.foldl_map]
  rfl

theorem find_aside {s : Shelf} {k : Int64} (hk : k ∈ (x.stranded R s).map Prod.fst) :
    ∃ row, s.message[k]? = some row ∧
      ((x.stranded R s).map (asideAt x.fork)).find? (·.1 == k) =
        some (k, ⟨row.posted, x.fork, row.plain.getD []⟩) := by
  obtain ⟨first, hfirst, rfl⟩ := List.mem_map.mp hk
  have hsome : (((x.stranded R s).map (asideAt x.fork)).find? (·.1 == first.1)).isSome = true :=
    List.find?_isSome.mpr ⟨asideAt x.fork first, List.mem_map_of_mem hfirst, by simp [asideAt]⟩
  obtain ⟨found, hfound⟩ := Option.isSome_iff_exists.mp hsome
  obtain ⟨row, hrow, rfl⟩ := List.mem_map.mp (List.mem_of_find?_eq_some hfound)
  have hkey : row.1 = first.1 := by simpa [asideAt] using List.find?_some hfound
  have hheld : s.message[row.1]? = some row.2 :=
    ExtTreeMap.mem_toList_iff_getElem?_eq_some.mp (List.mem_filter.mp hrow).1
  refine ⟨row.2, hkey ▸ hheld, ?_⟩
  rw [hfound, asideAt, hkey]

theorem getElem?_put {c : Cabinet} (hroom : c.stranded.size +
      ((x.stranded R c.shelf).filter fun row => row.1 ∉ c.stranded).length ≤ 256) (k : Int64) :
    (c.act (.forkFound R x)).stranded[k]? = (c.stranded[k]?).or
      ((((x.stranded R c.shelf).map (asideAt x.fork)).find? (·.1 == k)).map Prod.snd) := by
  have hnodup : (((x.stranded R c.shelf).map (asideAt x.fork)).map Prod.fst).Nodup := by
    rw [List.map_map]
    exact x.nodup_stranded R c.shelf
  have hfit : c.stranded.size + (((x.stranded R c.shelf).map (asideAt x.fork)).filter
      fun row => row.1 ∉ c.stranded).length ≤ 256 := by
    rw [List.filter_map, List.length_map]
    exact hroom
  rw [stranded_forkFound, foldl_putHighest_of_fit (fun _ _ => compare_eq_lt) hnodup hfit,
    getElem?_foldl_insertIfNew]

theorem keptAside_put {p : Owed} (hp : p ∈ x.endangered R f.cabinet.shelf)
    (hskips : f.skips x = false) (hroom : f.cabinet.stranded.size +
      ((x.stranded R f.cabinet.shelf).filter fun row => row.1 ∉ f.cabinet.stranded).length ≤ 256)
    (hfree : p.seq ∉ f.cabinet.stranded)
    (haside : p.seq ∈ (x.stranded R f.cabinet.shelf).map Prod.fst) :
    (f.step (.forkFound R x)).KeptAside p := by
  obtain ⟨row, hrow, hfind⟩ := find_aside haside
  obtain ⟨held, hheld, -, -, hp⟩ := Fork.mem_endangered.mp hp
  rw [hrow] at hheld
  cases hheld
  have hnone : f.cabinet.stranded[p.seq]? = none := by simpa using hfree
  refine ⟨⟨row.posted, x.fork, row.plain.getD []⟩, ?_, ?_, ?_⟩
  · simp only [Forked.step, hskips, Bool.false_eq_true, if_false, getElem?_put hroom, hnone, hfind]
    rfl
  · rw [hp]
  · rw [hp]

theorem KeptAside.forkFound {p : Owed} (hp : f.KeptAside p) (hroom : f.skips x = false →
      f.cabinet.stranded.size + ((x.stranded R f.cabinet.shelf).filter
        fun row => row.1 ∉ f.cabinet.stranded).length ≤ 256) :
    (f.step (.forkFound R x)).KeptAside p := by
  obtain ⟨row, hrow, hsame⟩ := hp
  refine ⟨row, ?_, hsame⟩
  cases hskips : f.skips x with
  | true => simpa [Forked.step, hskips] using hrow
  | false => simp [Forked.step, hskips, getElem?_put (hroom hskips), hrow]

theorem Accounted.forkFound (h : f.Accounted) (hspares : f.Spares (.forkFound R x)) :
    (f.step (.forkFound R x)).Accounted := by
  obtain ⟨heach, hroom⟩ := hspares
  have hfree : ∀ p : Owed, p.seq ∉ f.cabinet.stranded → ∀ q ∈ f.owed, q.seq ≠ p.seq := by
    intro p hp q hq hseq
    obtain ⟨row, hrow, -⟩ := h.kept q hq
    exact hp (hseq ▸ ExtTreeMap.mem_iff_isSome_getElem?.mpr (by simp [hrow]))
  have hagree : ∀ p ∈ x.endangered R f.cabinet.shelf, ∀ q ∈ f.owed,
      q.seq = p.seq → q.entry = p.entry := by
    intro p hp q hq hseq
    obtain ⟨-, hown⟩ | ⟨-, habsent, -⟩ := heach p hp
    · exact hown q hq hseq
    · exact absurd hseq (hfree p habsent q hq)
  refine ⟨⟨fun p hp => ?_, fun p hp q hq hseq => ?_⟩, fun k hk => ?_, ?_⟩
  · cases List.mem_append.mp hp with
    | inl hold => exact (h.kept p hold).forkFound hroom
    | inr hnew =>
      obtain ⟨hkept, -⟩ | ⟨hskips, habsent, haside⟩ := heach p hnew
      · exact hkept.forkFound hroom
      · exact keptAside_put hnew hskips (hroom hskips) habsent haside
  · cases List.mem_append.mp hp with
    | inl hp =>
      cases List.mem_append.mp hq with
      | inl hq => exact h.own p hp q hq hseq
      | inr hq => exact hagree q hq p hp hseq
    | inr hp =>
      cases List.mem_append.mp hq with
      | inl hq => exact (hagree p hp q hq hseq.symm).symm
      | inr hq => rw [Fork.endangered_inj hp hq hseq]
  · cases hskips : f.skips x with
    | true =>
      obtain ⟨p, hp, hseq⟩ := h.backed k (by simpa [Forked.step, hskips] using hk)
      exact ⟨p, List.mem_append_left _ hp, hseq⟩
    | false =>
      have hsome := ExtTreeMap.mem_iff_isSome_getElem?.mp hk
      simp only [Forked.step, hskips, Bool.false_eq_true, if_false, getElem?_put (hroom hskips),
        Option.isSome_or, Bool.or_eq_true, Option.isSome_map] at hsome
      cases hsome with
      | inl hold =>
        obtain ⟨p, hp, hseq⟩ := h.backed k (ExtTreeMap.mem_iff_isSome_getElem?.mpr hold)
        exact ⟨p, List.mem_append_left _ hp, hseq⟩
      | inr hnew =>
        obtain ⟨row, hrow, hkey⟩ := List.find?_isSome.mp hnew
        obtain ⟨first, hfirst, rfl⟩ := List.mem_map.mp hrow
        exact ⟨_, List.mem_append_right _ (Fork.endangered_of_stranded hfirst),
          by simpa [asideAt] using hkey⟩
  · cases hskips : f.skips x with
    | true => simpa [Forked.step, hskips] using h.bounded
    | false =>
      simp only [Forked.step, hskips, Bool.false_eq_true, if_false, stranded_forkFound]
      exact size_foldl_putHighest_le (fun _ _ => compare_eq_lt) _ h.bounded

theorem KeptAside.mem {p : Owed} (hp : f.KeptAside p) : p.seq ∈ f.cabinet.stranded := by
  obtain ⟨row, hrow, -⟩ := hp
  exact ExtTreeMap.mem_iff_isSome_getElem?.mpr (by simp [hrow])

theorem spares_of_noneLost (h : f.Accounted) (hnone : (f.step (.forkFound R x)).NoneLost) :
    f.Spares (.forkFound R x) := by
  have howed : ∀ p ∈ f.owed, p ∈ (f.step (.forkFound R x)).owed :=
    fun p hp => List.mem_append_left _ hp
  have hnew : ∀ p ∈ x.endangered R f.cabinet.shelf, p ∈ (f.step (.forkFound R x)).owed :=
    fun p hp => List.mem_append_right _ hp
  have hagree : ∀ p ∈ x.endangered R f.cabinet.shelf, ∀ q ∈ f.owed,
      q.seq = p.seq → q.entry = p.entry :=
    fun p hp q hq => hnone.own q (howed q hq) p (hnew p hp)
  cases hskips : f.skips x with
  | true =>
    refine ⟨fun p hp => .inl ⟨?_, hagree p hp⟩, by simp [hskips]⟩
    simpa [KeptAside, Forked.step, hskips] using hnone.kept p (hnew p hp)
  | false =>
    let after := (f.cabinet.act (.forkFound R x)).stranded
    have hin : ∀ p : Owed, (f.step (.forkFound R x)).KeptAside p → p.seq ∈ after := by
      intro p hp
      simpa [Forked.step, hskips, after] using hp.mem
    have hsize : after.size ≤ 256 := by
      simp only [after, stranded_forkFound]
      exact size_foldl_putHighest_le (fun _ _ => compare_eq_lt) _ h.bounded
    have hkeep : ∀ k ∈ f.cabinet.stranded, k ∈ after := by
      intro k hk
      obtain ⟨p, hp, rfl⟩ := h.backed k hk
      exact hin p (hnone.kept p (howed p hp))
    have hrows : ∀ row ∈ x.stranded R f.cabinet.shelf, row.1 ∈ after := fun row hrow =>
      hin _ (hnone.kept _ (hnew _ (Fork.endangered_of_stranded hrow)))
    have hfit := fit_of_forall_mem (x.nodup_stranded R f.cabinet.shelf) hkeep hrows
    have hroom := hfit.trans hsize
    refine ⟨fun p hp => ?_, fun _ => hroom⟩
    obtain ⟨row, hrow, hsame⟩ := hnone.kept p (hnew p hp)
    simp only [Forked.step, hskips, Bool.false_eq_true, if_false, getElem?_put hroom] at hrow
    cases hheld : f.cabinet.stranded[p.seq]? with
    | some held =>
      rw [hheld, Option.some_or, Option.some.injEq] at hrow
      exact .inl ⟨⟨row, hrow ▸ hheld, hsame⟩, hagree p hp⟩
    | none =>
      rw [hheld, Option.none_or, Option.map_eq_some_iff] at hrow
      obtain ⟨found, hfound, -⟩ := hrow
      obtain ⟨first, hfirst, rfl⟩ := List.mem_map.mp (List.mem_of_find?_eq_some hfound)
      have hkey : first.1 = p.seq := by simpa [asideAt] using List.find?_some hfound
      exact .inr ⟨hskips, by simpa using hheld, List.mem_map.mpr ⟨first, hfirst, hkey⟩⟩

theorem Accounted.step {deed : Deed} (h : f.Accounted) (hspares : f.Spares deed) :
    (f.step deed).Accounted := by
  cases deed with
  | does d =>
    cases hquiet : d.quiet with
    | true =>
      have hstep : f.step (.does d) = { f with cabinet := f.cabinet.act d } := by
        simp [Forked.step, hquiet]
      rw [hstep]
      exact h.congr (act_quiet hquiet f.cabinet) rfl
    | false => simpa [Forked.step, hquiet] using h
  | expire now => exact h.congr rfl rfl
  | forkFound R x => exact h.forkFound hspares
  | postAgain R seq sent =>
    unfold Forked.step
    dsimp only
    split
    · exact h.drop seq
    · exact h
  | forgetStranded seq => exact h.drop seq
  | restart => exact h.congr rfl rfl

theorem Accounted.step_iff {deed : Deed} (h : f.Accounted) :
    (f.step deed).NoneLost ↔ f.Spares deed := by
  constructor
  · intro hnone
    cases deed with
    | forkFound R x => exact spares_of_noneLost h hnone
    | does d | expire now | postAgain R seq sent | forgetStranded seq | restart => trivial
  · exact fun hspares => (h.step hspares).toNoneLost

end Forked

theorem own_posts_kept (shelf : Shelf) (deeds : List Deed) :
    Always Forked.NoneLost Forked.step (.start shelf) deeds ↔
      Each Forked.Spares Forked.step (.start shelf) deeds :=
  always_iff_each_of (fun _ _ h hspares => h.step hspares) (fun _ h => h.toNoneLost)
    (fun _ _ h => h.step_iff) (Forked.accounted_start shelf)

def postsOnly : Reader := ⟨Crypto.toy, fun _ => some (.post {})⟩

def seventhPost (posted : UInt64) : Entry :=
  ⟨7, kindMember, 1, 1, posted, 0, 1, 1, 0, 0, 0, 0, none, []⟩

/-- A post is stranded by the move from exchange 20 to 21, another takes its number there, and is
stranded by the move to 22. -/
def twoForks : List Deed :=
  [.does (.post (seventhPost 100) [8]),
    .forkFound postsOnly ⟨5, ⟨[20], 9, 3⟩, ⟨[21], 9, 3⟩, false, 1⟩,
    .does (.post (seventhPost 200) [9]),
    .forkFound postsOnly ⟨6, ⟨[21], 9, 3⟩, ⟨[22], 9, 3⟩, false, 1⟩]

/-- The words of the second are nowhere: the row under its number is the first's. -/
theorem second_post_lost :
    ¬ Always Forked.NoneLost Forked.step (.start .empty) twoForks := by
  intro hall
  have hend := always_iff_prefixes.mp hall twoForks List.prefix_rfl
  have howed : (⟨7, 200, [9], none⟩ : Owed) ∈ (run Forked.step (.start .empty) twoForks).owed := by
    decide +kernel
  obtain ⟨row, hrow, hposted, -⟩ := hend.kept _ howed
  have hheld : (run Forked.step (.start .empty) twoForks).cabinet.stranded[(7 : Int64)]? =
      some ⟨100, 5, [8]⟩ := by decide +kernel
  rw [hheld] at hrow
  cases hrow
  exact absurd hposted (by decide)

end Sqex.Chat
