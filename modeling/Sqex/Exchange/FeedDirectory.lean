import Sqex.Exchange.FeedLog
import Sqex.Lib.Paging

/-! The directory of feeds that asked to be found: its pages go by the moment each asked, and the
cursor is that moment alone, so that a page which ends between two feeds of one moment loses the
later. -/
namespace Sqex.Feed
open Paging Runs Std
variable {C : Crypto}
variable {f : PubKey × HeadRow}

def maxListing : UInt16 := 256

structure ListedFeed where
  account : PubKey
  listedAt : UInt64
  deriving DecidableEq

structure Listing where
  now : UInt64
  rows : List ListedFeed

/-- The order of the directory: by the moment, and then by the account. -/
def Sooner (x y : PubKey × HeadRow) : Prop :=
  x.2.listedAt < y.2.listedAt ∨ x.2.listedAt = y.2.listedAt ∧ x.1 ≤ y.1

instance (x y : PubKey × HeadRow) : Decidable (Sooner x y) :=
  inferInstanceAs (Decidable (_ ∨ _))

def listedRow (f : PubKey × HeadRow) : ListedFeed := ⟨f.1, f.2.listedAt.toUInt64⟩

namespace Feeds

def directory (s : Feeds) (since : UInt64) : List (PubKey × HeadRow) :=
  (s.feed.toList.filter fun f => f.2.listed && decide (since.toInt64 < f.2.listedAt)).insertionSort
    Sooner

/-- How many feeds a page is cut to. -/
def listingLimit (limit : UInt16) : Nat := (max 1 (min limit maxListing)).toNat

def listed (s : Feeds) (since : UInt64) (limit : UInt16) (now : UInt64) : Listing :=
  ⟨now, ((s.directory since).take (listingLimit limit)).map listedRow⟩

def listing (s : Feeds) (a : PubKey) : Option Int64 :=
  if (s.headOf a).listed then some (s.headOf a).listedAt else none

end Feeds

instance : Std.Total Sooner where
  total x y := by
    simp only [Sooner, Int64.lt_iff_toInt_lt, ← Int64.toInt_inj, BitVec.le_def]
    omega

instance : IsTrans (PubKey × HeadRow) Sooner where
  trans x y z := by
    simp only [Sooner, Int64.lt_iff_toInt_lt, ← Int64.toInt_inj, BitVec.le_def]
    omega

def moment (x : ListedFeed) : Int := x.listedAt.toInt64.toInt

@[simp] theorem moment_listedRow (f : PubKey × HeadRow) :
    moment (listedRow f) = f.2.listedAt.toInt := rfl

theorem Sooner.moment_le {x y : PubKey × HeadRow} (h : Sooner x y) :
    moment (listedRow x) ≤ moment (listedRow y) := by
  rw [moment_listedRow, moment_listedRow]
  cases h with
  | inl hlt => exact Int.le_of_lt (Int64.lt_iff_toInt_lt.mp hlt)
  | inr heq => rw [heq.1]

namespace Feeds
variable {s s' : Feeds} {a b : PubKey} {since : UInt64} {limit : UInt16} {now : UInt64} {t : Int64}

theorem listing_eq_some : s.listing a = some t ↔
    ∃ h, s.feed[a]? = some h ∧ h.listed = true ∧ h.listedAt = t := by
  rw [listing, headOf]
  cases hhead : s.feed[a]? with
  | none => simp [HeadRow.absent]
  | some h => simp

theorem mem_directory : f ∈ s.directory since ↔
    s.feed[f.1]? = some f.2 ∧ f.2.listed = true ∧ since.toInt64 < f.2.listedAt := by
  obtain ⟨a, h⟩ := f
  rw [directory, List.mem_insertionSort, List.mem_filter]
  simp [ExtTreeMap.mem_toList_iff_getElem?_eq_some]

theorem nodup_directory (s : Feeds) (since : UInt64) :
    ((s.directory since).map Prod.fst).Nodup := by
  have hkeys : (s.feed.toList.map Prod.fst).Nodup := by
    simpa using s.feed.nodup_keys
  have hperm := List.perm_insertionSort Sooner
    (s.feed.toList.filter fun f => f.2.listed && decide (since.toInt64 < f.2.listedAt))
  exact (hperm.map Prod.fst).nodup_iff.mpr (hkeys.sublist (List.filter_sublist.map _))

theorem directory_inOrder (s : Feeds) (since : UInt64) :
    ((s.directory since).map listedRow).Pairwise fun x y => moment x ≤ moment y :=
  List.pairwise_map.mpr ((List.pairwise_insertionSort Sooner _).imp Sooner.moment_le)

theorem mem_accounts : a ∈ (s.directory since).map Prod.fst ↔
    ∃ t, s.listing a = some t ∧ since.toInt64 < t := by
  constructor
  · intro ha
    obtain ⟨f, hf, rfl⟩ := List.mem_map.mp ha
    obtain ⟨hhead, hlisted, hlt⟩ := mem_directory.mp hf
    exact ⟨f.2.listedAt, listing_eq_some.mpr ⟨f.2, hhead, hlisted, rfl⟩, hlt⟩
  · rintro ⟨t, hlisting, hlt⟩
    obtain ⟨h, hhead, hlisted, rfl⟩ := listing_eq_some.mp hlisting
    exact List.mem_map.mpr ⟨(a, h), mem_directory.mpr ⟨hhead, hlisted, hlt⟩, rfl⟩

section Acts

theorem listing_of_head (hlisted : (s'.headOf a).listed = (s.headOf a).listed)
    (hat : (s'.headOf a).listedAt = (s.headOf a).listedAt) : s'.listing a = s.listing a := by
  rw [listing, hlisted, hat, listing]

theorem listing_of_elsewhere (hlisted : (s'.headOf a).listed = (s.headOf a).listed)
    (hat : (s'.headOf a).listedAt = (s.headOf a).listedAt)
    (hother : ∀ b ≠ a, s'.headOf b = s.headOf b) (b : PubKey) : s'.listing b = s.listing b := by
  by_cases hb : b = a
  · subst hb
    exact listing_of_head hlisted hat
  · rw [listing, hother b hb, listing]

def sets : Act → List PubKey
  | .set a .. => [a]
  | _ => []

theorem listing_perform (hs : Booked s) (now : UInt64) (act : Act) (a : PubKey) :
    (a ∉ sets act → (perform C s now act).listing a = s.listing a) ∧
      ∀ t t', s.listing a = some t → (perform C s now act).listing a = some t' → t' = t := by
  let Kept (s' : Feeds) : Prop := (a ∉ sets act → s'.listing a = s.listing a) ∧
    ∀ t t', s.listing a = some t → s'.listing a = some t' → t' = t
  have hkept : ∀ {s₁ s₂ : Feeds}, Kept s₁ → s₂.listing a = s₁.listing a → Kept s₂ :=
    fun h hsame => ⟨fun ha => hsame.trans (h.1 ha), by rw [hsame]; exact h.2⟩
  have hboth : Booked (perform C s now act) ∧ Kept (perform C s now act) := by
    refine perform_induction (P := fun s' => Booked s' ∧ Kept s') (fun _ h => h.1)
      (fun t r h hr _ => ⟨h.1.stoned hr, hkept h.2 ?_⟩)
      (fun p before rest t h hact haccept hspec => ⟨hspec.books h.1 haccept, hkept h.2 ?_⟩)
      (fun b retentionSecs maxPosts listed h hact hmax =>
        ⟨h.1.withPolicy b retentionSecs listed _ hmax, fun ha => ?_, fun t t' ht ht' => ?_⟩)
      (fun t f h => ⟨h.1.sweepFeed now f, hkept h.2 ?_⟩)
      ⟨hs, fun _ => rfl, fun t t' ht ht' => by simpa [ht] using ht'.symm⟩
    · exact listing_of_elsewhere (by rw [headOf_stoned (h.1 r.account).posts hr])
        (by rw [headOf_stoned (h.1 r.account).posts hr]) (fun b hb => headOf_stoned_other hb) a
    · exact listing_of_elsewhere (by rw [hspec.head]) (by rw [hspec.head])
        (fun b hb => (hspec.other b hb).1) a
    · have hb : b ≠ a := by
        rintro rfl
        exact ha (by simp [hact, sets])
      rw [listing, withPolicy, headOf_insert, if_neg hb, listing]
    · rw [listing, withPolicy, headOf_insert] at ht'
      split at ht'
      · rename_i hba
        subst hba
        rw [listing] at ht
        cases hbefore : (s.headOf b).listed <;> cases listed <;> simp_all
      · rw [← listing] at ht'
        simpa [ht] using ht'.symm
    · cases sweepFeed_cases now f h.1 with
      | inl hsame => rw [hsame]
      | inr hswept =>
        obtain ⟨-, hhead, hother⟩ := hswept
        exact listing_of_elsewhere (by rw [hhead]) (by rw [hhead]) (fun b hb => (hother b hb).1) a
  exact hboth.2

end Acts

/-- The moment a reader goes on from after a page. -/
def cursorAfter (s : Feeds) (since : UInt64) (limit : UInt16) : UInt64 :=
  next (·.listedAt) since (s.listed since limit 0).rows

theorem moment_cursorAfter : (s.cursorAfter since limit).toInt64.toInt =
    next moment since.toInt64.toInt (s.listed since limit 0).rows := by
  rw [cursorAfter]
  generalize (s.listed since limit 0).rows = rows
  induction rows using List.reverseRecOn with
  | nil => rfl
  | append_singleton rows x _ => rw [next_concat, next_concat, moment]

theorem one_le_listingLimit (limit : UInt16) : 1 ≤ listingLimit limit := by
  have hle : (1 : UInt16) ≤ max 1 (min limit maxListing) := by
    change (1 : UInt16) ≤ if 1 ≤ min limit maxListing then min limit maxListing else 1
    split
    · assumption
    · exact UInt16.le_rfl
  exact UInt16.le_iff_toNat_le.mp hle

theorem listed_split (s : Feeds) (since : UInt64) (limit : UInt16) :
    (s.directory since).map listedRow = (s.listed since limit 0).rows ++
      ((s.directory since).drop (listingLimit limit)).map listedRow := by
  rw [listed, ← List.map_append, List.take_append_drop]

theorem moment_le_cursorAfter (hf : f ∈ (s.directory since).take (listingLimit limit)) :
    since.toInt64 < f.2.listedAt ∧ f.2.listedAt ≤ (s.cursorAfter since limit).toInt64 := by
  refine ⟨(mem_directory.mp (List.mem_of_mem_take hf)).2.2, ?_⟩
  have hsorted := directory_inOrder s since
  rw [listed_split s since limit] at hsorted
  have hle := le_next_of_mem (c := since.toInt64.toInt) hsorted (List.mem_map_of_mem hf)
  rw [← moment_cursorAfter, moment_listedRow] at hle
  exact Int64.le_iff_toInt_le.mpr hle

theorem cursorAfter_le (hf : f ∈ (s.directory since).drop (listingLimit limit)) :
    (s.cursorAfter since limit).toInt64 ≤ f.2.listedAt := by
  have hsorted := directory_inOrder s since
  rw [listed_split s since limit] at hsorted
  have hsome : (s.listed since limit 0).rows ≠ [] := by
    intro hnone
    have hlimit := one_le_listingLimit limit
    have hlength := List.length_pos_of_mem hf
    have hempty : (s.directory since).take (listingLimit limit) = [] := by
      simpa [listed] using hnone
    have hzero := congrArg List.length hempty
    simp only [List.length_drop, List.length_take, List.length_nil] at hlength hzero
    omega
  have hle := next_le_of_mem (c := since.toInt64.toInt) hsorted hsome (List.mem_map_of_mem hf)
  rw [← moment_cursorAfter, moment_listedRow] at hle
  exact Int64.le_iff_toInt_le.mpr hle

theorem on_or_off (limit : UInt16) (hlisting : s.listing a = some t) (hlt : since.toInt64 < t) :
    (∃ f ∈ (s.directory since).take (listingLimit limit), f.1 = a ∧ f.2.listedAt = t) ∨
      ∃ f ∈ (s.directory since).drop (listingLimit limit), f.1 = a ∧ f.2.listedAt = t := by
  obtain ⟨h, hhead, hlisted, hat⟩ := listing_eq_some.mp hlisting
  have hmem : (a, h) ∈ s.directory since := mem_directory.mpr ⟨hhead, hlisted, by simpa [hat]⟩
  rw [← List.take_append_drop (listingLimit limit) (s.directory since)] at hmem
  cases List.mem_append.mp hmem with
  | inl hon => exact .inl ⟨_, hon, rfl, hat⟩
  | inr hoff => exact .inr ⟨_, hoff, rfl, hat⟩

theorem le_cursorAfter (s : Feeds) (since : UInt64) (limit : UInt16) :
    since.toInt64 ≤ (s.cursorAfter since limit).toInt64 := by
  rw [Int64.le_iff_toInt_le, moment_cursorAfter]
  refine le_next fun x hx => ?_
  obtain ⟨f, hf, rfl⟩ := List.mem_map.mp hx
  exact Int64.lt_iff_toInt_lt.mp (moment_le_cursorAfter hf).1

/-- A page with something on it ends with a feed of the moment its reader goes on from. -/
theorem exists_last (h : (s.directory since).take (listingLimit limit) ≠ []) :
    ∃ f ∈ (s.directory since).take (listingLimit limit),
      f.2.listedAt = (s.cursorAfter since limit).toInt64 := by
  rw [cursorAfter, listed]
  dsimp only
  generalize (s.directory since).take (listingLimit limit) = fs at h ⊢
  induction fs using List.reverseRecOn with
  | nil => exact absurd rfl h
  | append_singleton fs f _ =>
    refine ⟨f, by simp, ?_⟩
    rw [List.map_append, List.map_singleton, next_concat]
    rfl

def pageOf (s : Feeds) (since : UInt64) (limit : UInt16) : List PubKey :=
  ((s.directory since).take (listingLimit limit)).map Prod.fst

theorem accounts_listed (s : Feeds) (since : UInt64) (limit : UInt16) (now : UInt64) :
    (s.listed since limit now).rows.map (·.account) = s.pageOf since limit := by
  rw [listed, List.map_map]
  rfl

theorem count_pageOf_le (a : PubKey) : (s.pageOf since limit).count a ≤ 1 := by
  have hnodup := (nodup_directory s since).sublist
    ((List.take_sublist (listingLimit limit) (s.directory since)).map Prod.fst)
  exact List.nodup_iff_count_le_one.mp hnodup a

theorem count_of_drop (hf : f ∈ (s.directory since).drop (listingLimit limit)) :
    (s.pageOf since limit).count f.1 = 0 := by
  have hnodup := nodup_directory s since
  rw [← List.take_append_drop (listingLimit limit) (s.directory since), List.map_append] at hnodup
  refine List.count_eq_zero.mpr fun hon => ?_
  exact (List.nodup_append'.mp hnodup).2.2 hon (List.mem_map_of_mem hf)

theorem listing_of_mem (hf : f ∈ s.directory since) :
    s.listing f.1 = some f.2.listedAt := by
  obtain ⟨hhead, hlisted, -⟩ := mem_directory.mp hf
  exact listing_eq_some.mpr ⟨f.2, hhead, hlisted, rfl⟩

end Feeds

inductive Move where
  | act (i : UInt64 × Feeds.Act)
  | page (limit : UInt16)

/-- One who reads the directory: what it goes on from, the feeds it has seen, and whether a page
came back with nothing on it, which is where it stops. -/
structure Browse where
  feeds : Feeds
  cursor : UInt64
  seen : List PubKey
  done : Bool

namespace Browse
open Feeds

def step (C : Crypto) (b : Browse) : Move → Browse
  | .act i => { b with feeds := Feeds.step C b.feeds i }
  | .page limit =>
    if b.done then b
    else
      let rows := (b.feeds.listed b.cursor limit 0).rows
      { b with
        cursor := b.feeds.cursorAfter b.cursor limit
        seen := b.seen ++ rows.map (·.account), done := rows.isEmpty }

def start (s : Feeds) : Browse := ⟨s, 0, [], false⟩

/-- A page ends between two feeds of one moment, of which `a` is the later. -/
def Cut (b : Browse) (a : PubKey) : Move → Prop
  | .act _ => False
  | .page limit => b.done = false ∧
    ∃ f ∈ (b.feeds.directory b.cursor).take (listingLimit limit),
      ∃ g ∈ (b.feeds.directory b.cursor).drop (listingLimit limit),
        g.1 = a ∧ f.2.listedAt = g.2.listedAt

def Stays (C : Crypto) (a : PubKey) (b : Browse) (moves : List Move) : Prop :=
  Always (fun b => (b.feeds.listing a).isSome) (step C) b moves

/-- What a browse knows of a feed listed since `t`: it has not seen it while it has not come so
far, never twice, and where it stopped it had come so far. -/
structure Follows (a : PubKey) (t : Int64) (b : Browse) : Prop where
  booked : Booked b.feeds
  listed : b.feeds.listing a = some t
  ahead : b.cursor.toInt64 < t → b.seen.count a = 0
  once : b.seen.count a ≤ 1
  stopped : b.done = true → t ≤ b.cursor.toInt64

variable {a : PubKey} {t : Int64} {b : Browse}

/-- What a page does for a feed: nothing where it was passed, brings it, or leaves it off; and
passes it by leaving it off just where it cuts a moment in two. -/
theorem page_cases (h : Follows a t b) (hopen : b.done = false) (limit : UInt16) :
    (t ≤ b.cursor.toInt64 ∧ (step C b (.page limit)).seen.count a = b.seen.count a ∧
      ¬ Cut b a (.page limit)) ∨
    (b.cursor.toInt64 < t ∧ t ≤ (step C b (.page limit)).cursor.toInt64 ∧
      (step C b (.page limit)).seen.count a = 1 ∧ ¬ Cut b a (.page limit)) ∨
    (b.cursor.toInt64 < t ∧ (step C b (.page limit)).seen.count a = 0 ∧
      (step C b (.page limit)).done = false ∧
      (Cut b a (.page limit) ↔ t ≤ (step C b (.page limit)).cursor.toInt64)) := by
  have hstep : step C b (.page limit) =
      { b with
        cursor := b.feeds.cursorAfter b.cursor limit
        seen := b.seen ++ b.feeds.pageOf b.cursor limit
        done := (b.feeds.listed b.cursor limit 0).rows.isEmpty } := by
    rw [← accounts_listed b.feeds b.cursor limit 0]
    simp [step, hopen]
  -- whatever the directory has of `a` is of its moment
  have hmoment : ∀ f ∈ b.feeds.directory b.cursor, f.1 = a → f.2.listedAt = t := by
    rintro f hf rfl
    have hlisting := listing_of_mem hf
    rw [h.listed] at hlisting
    exact (Option.some.inj hlisting).symm
  rw [hstep, List.count_append]
  dsimp only
  by_cases hpassed : t ≤ b.cursor.toInt64
  · have hnone : ∀ f ∈ b.feeds.directory b.cursor, f.1 ≠ a := by
      intro f hf hfa
      have hlt := (mem_directory.mp hf).2.2
      rw [hmoment f hf hfa, Int64.lt_iff_toInt_lt] at hlt
      rw [Int64.le_iff_toInt_le] at hpassed
      omega
    refine .inl ⟨hpassed, ?_, ?_⟩
    · have hzero : (b.feeds.pageOf b.cursor limit).count a = 0 := by
        refine List.count_eq_zero.mpr fun hon => ?_
        obtain ⟨f, hf, hfa⟩ := List.mem_map.mp hon
        exact hnone f (List.mem_of_mem_take hf) hfa
      rw [hzero, Nat.add_zero]
    · rintro ⟨-, f, -, g, hg, hga, -⟩
      exact hnone g (List.mem_of_mem_drop hg) hga
  · have hlt : b.cursor.toInt64 < t := by
      rw [Int64.le_iff_toInt_le] at hpassed
      rw [Int64.lt_iff_toInt_lt]
      omega
    rw [h.ahead hlt, Nat.zero_add]
    cases on_or_off limit h.listed hlt with
    | inl hon =>
      obtain ⟨f, hf, rfl, hat⟩ := hon
      refine .inr (.inl ⟨hlt, hat ▸ (moment_le_cursorAfter hf).2, ?_, ?_⟩)
      · have hpos := List.count_pos_iff.mpr (List.mem_map_of_mem (f := Prod.fst) hf)
        exact Nat.le_antisymm (count_pageOf_le f.1) hpos
      · rintro ⟨-, x, -, g, hg, hga, -⟩
        have hzero := List.count_eq_zero.mp (count_of_drop hg)
        exact hzero (hga ▸ List.mem_map_of_mem hf)
    | inr hoff =>
      obtain ⟨g, hg, rfl, hat⟩ := hoff
      have hle := cursorAfter_le hg
      rw [hat] at hle
      have hsome : (b.feeds.directory b.cursor).take (listingLimit limit) ≠ [] := by
        intro hnil
        have hone := one_le_listingLimit limit
        have hlength := List.length_pos_of_mem hg
        have hzero := congrArg List.length hnil
        simp only [List.length_drop, List.length_take, List.length_nil] at hlength hzero
        omega
      refine .inr (.inr ⟨hlt, count_of_drop hg, by simpa [Feeds.listed] using hsome, ?_⟩)
      constructor
      · rintro ⟨-, f, hf, x, hx, hxa, hsame⟩
        have hon := (moment_le_cursorAfter hf).2
        rwa [hsame, hmoment x (List.mem_of_mem_drop hx) hxa] at hon
      · intro hreached
        obtain ⟨f, hf, hlast⟩ := exists_last hsome
        refine ⟨hopen, f, hf, g, hg, rfl, ?_⟩
        rw [hlast, hat]
        rw [Int64.le_iff_toInt_le] at hle hreached
        rw [← Int64.toInt_inj]
        omega

theorem step_done (hdone : b.done = true) (m : Move) :
    (step C b m).done = true ∧ (step C b m).cursor = b.cursor ∧ (step C b m).seen = b.seen := by
  cases m with
  | act i => exact ⟨hdone, rfl, rfl⟩
  | page limit => simp [step, hdone]

theorem follows_step (h : Follows a t b) (m : Move)
    (hstays : ((step C b m).feeds.listing a).isSome) : Follows a t (step C b m) := by
  cases m with
  | act i =>
    obtain ⟨t', ht'⟩ := Option.isSome_iff_exists.mp hstays
    have hsame := (listing_perform (C := C) h.booked i.1 i.2 a).2 t t' h.listed ht'
    exact ⟨h.booked.perform i.1 i.2, hsame ▸ ht', h.ahead, h.once, h.stopped⟩
  | page limit =>
    cases hdone : b.done with
    | true =>
      have hsame : step C b (.page limit) = b := by simp [Browse.step, hdone]
      rw [hsame]
      exact h
    | false =>
      have hfeeds : (step C b (.page limit)).feeds = b.feeds := by
        simp [Browse.step, hdone]
      have hbooked : Booked (step C b (.page limit)).feeds := by
        rw [hfeeds]
        exact h.booked
      have hlisted : (step C b (.page limit)).feeds.listing a = some t := by
        rw [hfeeds]
        exact h.listed
      have hcursor : b.cursor.toInt64 ≤ (step C b (.page limit)).cursor.toInt64 := by
        simpa [Browse.step, hdone] using le_cursorAfter b.feeds b.cursor limit
      rcases page_cases (C := C) h hdone limit with ⟨hpassed, hcount, -⟩ |
        ⟨-, hreached, hcount, -⟩ | ⟨-, hcount, hopen, -⟩
      · have hle := Int64.le_trans hpassed hcursor
        refine ⟨hbooked, hlisted, fun hlt => ?_, hcount ▸ h.once, fun _ => hle⟩
        exact absurd hle (Int64.not_le.mpr hlt)
      · refine ⟨hbooked, hlisted, fun hlt => ?_, Nat.le_of_eq hcount, fun _ => hreached⟩
        exact absurd hreached (Int64.not_le.mpr hlt)
      · refine ⟨hbooked, hlisted, fun _ => hcount, by omega, fun hstop => ?_⟩
        rw [hopen] at hstop
        exact absurd hstop (by simp)

def Lost (a : PubKey) (t : Int64) (b : Browse) : Prop := t ≤ b.cursor.toInt64 ∧ b.seen.count a = 0

theorem lost_step_iff (h : Follows a t b) (m : Move) :
    Lost a t (step C b m) ↔ Lost a t b ∨ Cut b a m := by
  cases m with
  | act i => exact (or_iff_left id).symm
  | page limit =>
    cases hdone : b.done with
    | true =>
      obtain ⟨-, hcursor, hseen⟩ := step_done (C := C) hdone (.page limit)
      have hcut : ¬ Cut b a (.page limit) := fun hcut => by simp [Cut, hdone] at hcut
      rw [Lost, hcursor, hseen, or_iff_left hcut, Lost]
    | false =>
      have hcursor : b.cursor.toInt64 ≤ (step C b (.page limit)).cursor.toInt64 := by
        simpa [step, hdone] using le_cursorAfter b.feeds b.cursor limit
      rcases page_cases (C := C) h hdone limit with ⟨hpassed, hcount, hcut⟩ |
        ⟨hlt, -, hcount, hcut⟩ | ⟨hlt, hcount, -, hcut⟩
      · rw [or_iff_left hcut, Lost, hcount, Lost]
        exact and_congr_left fun _ => iff_of_true (Int64.le_trans hpassed hcursor) hpassed
      · have hkept : ¬ Lost a t (step C b (.page limit)) := fun hlost => by
          rw [Lost, hcount] at hlost
          omega
        exact iff_of_false hkept (not_or.mpr ⟨fun hlost => Int64.not_le.mpr hlt hlost.1, hcut⟩)
      · have hlost : ¬ Lost a t b := fun hlost => Int64.not_le.mpr hlt hlost.1
        rw [or_iff_right hlost, hcut, Lost, and_iff_left hcount]

theorem follows_run (h : Follows a t b) (moves : List Move) (hstays : Stays C a b moves) :
    Follows a t (run (step C) b moves) ∧ (Lost a t (run (step C) b moves) ↔
      Lost a t b ∨ ¬ Each (fun b m => ¬ Cut b a m) (step C) b moves) := by
  induction moves generalizing b with
  | nil => exact ⟨h, by simp [Each]⟩
  | cons m moves ih =>
    obtain ⟨-, hrest⟩ := hstays
    obtain ⟨hfollows, hlost⟩ := ih (follows_step h m hrest.start) hrest
    refine ⟨hfollows, ?_⟩
    rw [run_cons, hlost, lost_step_iff h, Each, not_and_or, not_not, or_assoc]

/-- Whether a move asks for a page, and whether it sets a policy. -/
def Move.asks : Move → Bool
  | .page _ => true
  | .act _ => false

def Move.setting : Move → Bool
  | .act (_, act) => ! (sets act).isEmpty
  | .page _ => false

def waiting (b : Browse) : List PubKey := (b.feeds.directory b.cursor).map Prod.fst

theorem length_waiting_le {b' : Browse} {more : List PubKey}
    (h : ∀ a ∈ waiting b', a ∈ more) : (waiting b').length ≤ more.length :=
  (List.subperm_of_subset (nodup_directory ..) h).length_le

/-- An operation puts before a browse at most the feed whose policy it sets; a page that does not
end it takes one away. -/
theorem waiting_step (hs : Booked b.feeds) (m : Move) (hopen : (step C b m).done = false) :
    (waiting (step C b m)).length + [m].countP Move.asks ≤
      (waiting b).length + [m].countP Move.setting := by
  cases m with
  | act i =>
    have hwaiting : ∀ a ∈ waiting (step C b (.act i)), a ∈ sets i.2 ++ waiting b := by
      intro a ha
      obtain ⟨t, hlisting, hlt⟩ := mem_accounts.mp ha
      by_cases hset : a ∈ sets i.2
      · exact List.mem_append_left _ hset
      · have hsame := (listing_perform (C := C) hs i.1 i.2 a).1 hset
        exact List.mem_append_right _ (mem_accounts.mpr ⟨t, hsame ▸ hlisting, hlt⟩)
    have hle := length_waiting_le hwaiting
    obtain ⟨now, act⟩ := i
    cases act <;> simpa [Move.asks, Move.setting, sets, Nat.add_comm] using hle
  | page limit =>
    cases hdone : b.done with
    | true =>
      rw [(step_done (C := C) hdone (.page limit)).1] at hopen
      exact absurd hopen (by simp)
    | false =>
      have hsome : (b.feeds.directory b.cursor).take (listingLimit limit) ≠ [] := by
        simpa [step, hdone, Feeds.listed] using hopen
      obtain ⟨f, hf, hlast⟩ := exists_last hsome
      have hstep : waiting (step C b (.page limit)) =
          (b.feeds.directory (b.feeds.cursorAfter b.cursor limit)).map Prod.fst := by
        simp [waiting, step, hdone]
      have hnot : f.1 ∉ waiting (step C b (.page limit)) := by
        rw [hstep]
        intro hmem
        obtain ⟨t, hlisting, hlt⟩ := mem_accounts.mp hmem
        rw [listing_of_mem (List.mem_of_mem_take hf)] at hlisting
        rw [← Option.some.inj hlisting, hlast, Int64.lt_iff_toInt_lt] at hlt
        omega
      have hsub : ∀ a ∈ f.1 :: waiting (step C b (.page limit)), a ∈ waiting b := by
        intro a ha
        cases List.mem_cons.mp ha with
        | inl hfirst => exact hfirst ▸ List.mem_map_of_mem (List.mem_of_mem_take hf)
        | inr hlater =>
          rw [hstep] at hlater
          obtain ⟨t, hlisting, hlt⟩ := mem_accounts.mp hlater
          have hle := le_cursorAfter b.feeds b.cursor limit
          rw [Int64.le_iff_toInt_le] at hle
          rw [Int64.lt_iff_toInt_lt] at hlt
          exact mem_accounts.mpr ⟨t, hlisting, Int64.lt_iff_toInt_lt.mpr (by omega)⟩
      have hnodup : (f.1 :: waiting (step C b (.page limit))).Nodup :=
        List.nodup_cons.mpr ⟨hnot, nodup_directory ..⟩
      have hle := (List.subperm_of_subset hnodup hsub).length_le
      simpa [Move.asks, Move.setting] using hle

theorem booked_step (hs : Booked b.feeds) (m : Move) : Booked (step C b m).feeds := by
  cases m with
  | act i => exact hs.perform i.1 i.2
  | page limit =>
    rw [step]
    split <;> exact hs

theorem run_done (hdone : b.done = true) (moves : List Move) :
    (run (step C) b moves).done = true := by
  induction moves generalizing b with
  | nil => exact hdone
  | cons m moves ih => exact ih (step_done hdone m).1

/-- A browse that has not ended asked for no more pages than there were feeds before it and
policies set meanwhile. -/
theorem waiting_run (hs : Booked b.feeds) (moves : List Move)
    (hopen : (run (step C) b moves).done = false) :
    (waiting (run (step C) b moves)).length + moves.countP Move.asks ≤
      (waiting b).length + moves.countP Move.setting := by
  induction moves generalizing b with
  | nil => simp
  | cons m moves ih =>
    have hnext : (step C b m).done = false := by
      by_contra hdone
      have hend := run_done (C := C) (by simpa using hdone) moves
      rw [run_cons, hend] at hopen
      exact absurd hopen (by simp)
    have hone := waiting_step (C := C) hs m hnext
    have hrest := ih (booked_step hs m) hopen
    have hsplit : m :: moves = [m] ++ moves := rfl
    rw [run_cons, hsplit, List.countP_append, List.countP_append]
    omega

theorem follows_start {s : Feeds} (hs : Booked s) (ha : s.listing a = some t) :
    Follows a t (start s) where
  booked := hs
  listed := ha
  ahead _ := rfl
  once := Nat.zero_le _
  stopped h := by simp [start] at h

/-- A browse of the directory from the beginning, among any other operations, sees every feed that
stays listed throughout once, and by its end just once, exactly where it does not end or each of
those was listed at a moment past 0 and at no page's end was the later of two of one moment. It ends
in time. -/
theorem directory_seen_iff (C : Crypto) (acts : List (UInt64 × Act)) (moves : List Move) :
    let b := start (run (Feeds.step C) opened acts)
    let b' := run (step C) b moves
    ((∀ a, Stays C a b moves → b'.seen.count a ≤ 1 ∧ (b'.done = true → b'.seen.count a = 1)) ↔
        (b'.done = true → ∀ a t, Stays C a b moves → b.feeds.listing a = some t →
          0 < t ∧ Each (fun b m => ¬ Cut b a m) (step C) b moves)) ∧
      (b'.done = false →
        moves.countP Move.asks ≤ (waiting b).length + moves.countP Move.setting) := by
  have hbooked : Booked (start (run (Feeds.step C) opened acts)).feeds :=
    run_booked booked_opened acts
  generalize hb : start (run (Feeds.step C) opened acts) = b at hbooked
  have hcursor : b.cursor.toInt64 = 0 := by rw [← hb]; rfl
  have hfollows : ∀ a t, Stays C a b moves → b.feeds.listing a = some t →
      Follows a t (run (step C) b moves) ∧ (Lost a t (run (step C) b moves) ↔
        ¬ (0 < t ∧ Each (fun b m => ¬ Cut b a m) (step C) b moves)) := by
    intro a t hstays hlisting
    have hstart : Follows a t b := by
      rw [← hb] at hlisting ⊢
      exact follows_start (run_booked booked_opened acts) hlisting
    have hseen : b.seen.count a = 0 := by rw [← hb]; rfl
    obtain ⟨hend, hlost⟩ := follows_run hstart moves hstays
    refine ⟨hend, hlost.trans ?_⟩
    rw [Lost, hcursor, hseen, and_iff_left rfl, not_and_or, Int64.not_lt]
  refine ⟨⟨fun hall hdone a t hstays hlisting => ?_, fun hall a hstays => ?_⟩, fun hopen => ?_⟩
  · obtain ⟨-, hlost⟩ := hfollows a t hstays hlisting
    by_contra hbad
    have hcount := (hall a hstays).2 hdone
    rw [(hlost.mpr hbad).2] at hcount
    simp at hcount
  · obtain ⟨t, hlisting⟩ := Option.isSome_iff_exists.mp hstays.start
    obtain ⟨hend, hlost⟩ := hfollows a t hstays hlisting
    refine ⟨hend.once, fun hdone => ?_⟩
    have hkept : ¬ Lost a t (run (step C) b moves) := fun hgone =>
      hlost.mp hgone (hall hdone a t hstays hlisting)
    have hpassed := hend.stopped hdone
    have hpos : (run (step C) b moves).seen.count a ≠ 0 := fun hzero => hkept ⟨hpassed, hzero⟩
    have honce := hend.once
    omega
  · have hle := waiting_run (C := C) hbooked moves hopen
    exact (Nat.le_add_left ..).trans hle

section Edges

def sameSecond : List (UInt64 × Act) :=
  [(5, .set 1 3600 10 true), (5, .set 2 3600 10 true)]

/-- Read one to a page, the second is never seen. -/
theorem tie_lost :
    let b := start (run (Feeds.step .toy) opened sameSecond)
    let b' := run (step .toy) b [.page 1, .page 1]
    b'.done = true ∧ b'.seen = [1] ∧ Stays .toy 2 b [.page 1, .page 1] ∧
      ¬ (∀ a, Stays .toy a b [.page 1, .page 1] →
        b'.seen.count a ≤ 1 ∧ (b'.done = true → b'.seen.count a = 1)) := by
  have hend : (run (step .toy) (start (run (Feeds.step .toy) opened sameSecond))
      [.page 1, .page 1]).done = true := by decide +kernel
  have hseen : (run (step .toy) (start (run (Feeds.step .toy) opened sameSecond))
      [.page 1, .page 1]).seen = [1] := by decide +kernel
  have hstays : Stays .toy 2 (start (run (Feeds.step .toy) opened sameSecond))
      [.page 1, .page 1] := by
    simp only [Stays, Always]
    decide +kernel
  refine ⟨hend, hseen, hstays, fun hall => ?_⟩
  have hcount := (hall 2 hstays).2 hend
  rw [hseen] at hcount
  exact absurd hcount (by decide)

end Edges

end Browse
end Sqex.Feed
