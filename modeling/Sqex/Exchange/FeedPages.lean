import Sqex.Exchange.FeedLog
import Sqex.Lib.Paging

/-! Reading a feed by pages: a page is the first of what is held above a serial, cut by a count and
by its bytes. A serial is compared in a signed column. -/
namespace Sqex.Feed
open Paging Runs
variable {C : Crypto}

def dirForward : UInt8 := 0
def dirBackward : UInt8 := 1
def maxPage : UInt16 := 64
def maxPageBytes : Nat := 512 * 1024

structure Read where
  account : PubKey
  /-- Forward: serials above this. Backward: serials below it, 0 for the end. -/
  since : UInt64
  limit : UInt16
  dir : UInt8

structure Stored where
  received : UInt64
  post : Post

structure Page where
  found : Bool
  oldest : Nat
  newest : Nat
  now : UInt64
  posts : List Stored

def Page.none (now : UInt64) : Page := ⟨false, 0, 0, now, []⟩

def PostRow.served (r : PostRow) : Stored := ⟨r.received.toUInt64, r.post⟩

/-- Rows put on a page while they fit: the first always does. -/
def fill : List Stored → Nat → List PostRow → List Stored
  | posts, _, [] => posts
  | posts, total, r :: rest =>
    let total := total + r.post.stored
    if maxPageBytes < total && ! posts.isEmpty then posts else fill (posts ++ [r.served]) total rest

namespace Feeds

def selected (s : Feeds) (req : Read) : List PostRow :=
  let want := (max 1 (min req.limit maxPage)).toNat
  let start := if req.dir = dirBackward ∧ req.since = 0 then Int64.maxValue else req.since.toInt64
  if req.dir = dirBackward then
    let below := (s.rows req.account).filter fun r => (r.serial : Int) < start.toInt
    (below.insertionSort fun x y => y.serial ≤ x.serial).take want
  else
    let above := (s.rows req.account).filter fun r => start.toInt < (r.serial : Int)
    (above.insertionSort fun x y => x.serial ≤ y.serial).take want

def read (blocked : PubKey → PubKey → Bool) (caller : PubKey) (req : Read) (now : UInt64)
    (s : Feeds) : Feeds × Page :=
  if blocked req.account caller then (s, .none now)
  else
    let s := after (expire now) s
    match s.feed[req.account]? with
    | none => (s, .none now)
    | some head => (s, ⟨true, head.oldest, head.newest, now, fill [] 0 (s.selected req)⟩)

end Feeds

/-- What a page is of a feed: the first of the posts held above a serial, in their order, some
where there are some, and within the caps of a page. -/
structure Serves (s : Feeds) (req : Read) (posts : List Stored) : Prop where
  first : posts <+:
    (above PostRow.serial (s.rows req.account) req.since.toNat).map PostRow.served
  inOrder : posts.Pairwise fun x y => x.post.serial < y.post.serial
  some : above PostRow.serial (s.rows req.account) req.since.toNat ≠ [] → posts ≠ []
  count : posts.length ≤ (max 1 (min req.limit maxPage)).toNat
  bytes : (posts.map (·.post.encode.length)).sum ≤ maxPageBytes

theorem fill_spec (posts : List Stored) {total : Nat} {rows : List PostRow}
    (hsmall : ∀ r ∈ rows, r.post.body.length ≤ maxBody) (htotal : total ≤ maxPageBytes)
    (hempty : posts = [] → total = 0) :
    ∃ taken rest, rows = taken ++ rest ∧ fill posts total rows = posts ++ taken.map (·.served) ∧
      (posts = [] → rows ≠ [] → taken ≠ []) ∧
      total + (taken.map (·.post.stored)).sum ≤ maxPageBytes := by
  induction rows generalizing posts total with
  | nil => exact ⟨[], [], by simp [fill, htotal]⟩
  | cons r rows ih =>
    rw [fill]
    split
    · rename_i hstop
      have hsome : posts ≠ [] := by
        rintro rfl
        simp at hstop
      exact ⟨[], r :: rows, by simp [htotal, hsome]⟩
    · rename_i hfits
      have hbody := hsmall r (by simp)
      have hnext : total + r.post.stored ≤ maxPageBytes := by
        by_cases hposts : posts = []
        · -- one post is less than a page
          have hzero := hempty hposts
          simp only [maxBody] at hbody
          simp only [Post.stored, postHeader, maxPageBytes]
          omega
        · simpa [hposts] using hfits
      obtain ⟨taken, rest, hsplit, hfill, -, hbytes⟩ := @ih (posts ++ [r.served])
        (total + r.post.stored) (fun x hx => hsmall x (by simp [hx])) hnext (by simp)
      refine ⟨r :: taken, rest, by simp [hsplit], by simp [hfill], by simp, ?_⟩
      simp only [List.map_cons, List.sum_cons]
      omega

namespace Feeds
variable {s s' : Feeds} {a caller : PubKey} {blocked : PubKey → PubKey → Bool} {req : Read}
  {now since : UInt64} {limit : UInt16}

def Labelled (s : Feeds) : Prop := ∀ r ∈ s.post, r.post.serial.toNat = r.serial

theorem Labelled.perform (hbooked : Booked s) (hs : Labelled s) (now : UInt64) (act : Act) :
    Labelled (perform C s now act) :=
  perform_rows hbooked (fun _ hr => hr) (fun _ _ _ => rfl) hs

def serials (s : Feeds) (a : PubKey) : List Nat := (s.rows a).map (·.serial)

theorem serials_stoned (r : PostRow) (s : Feeds) : (stoned r s).serials a = s.serials a := by
  by_cases ha : a = r.account
  · subst ha
    rw [serials, rows_stoned, stonedAt, List.map_map]
    refine List.map_congr_left fun x _ => ?_
    simp only [Function.comp]
    split <;> rfl
  · rw [serials, rows_stoned_other ha, serials]

theorem serials_expire (hs : Booked s) (now : UInt64) :
    (after (expire now) s).serials a = s.serials a := by
  rw [after_expire]
  obtain ⟨hmem, hdistinct⟩ := due_spec hs now
  exact expiring_induction (P := fun t => t.serials a = s.serials a)
    (fun t r ht _ _ => (serials_stoned r t).trans ht) rfl hmem hdistinct

theorem ascending_serials (hs : Booked s) : (s.serials a).Pairwise (· < ·) :=
  List.pairwise_map.mpr (hs a).ascending

theorem above_serials (n : Nat) :
    (above PostRow.serial (s.rows a) n).map (·.serial) = above id (s.serials a) n := by
  rw [serials, above, above, List.filter_map]
  rfl

/-- Going forward, the rows selected are those above the cursor the column holds. -/
theorem selected_forward (hs : Booked s) :
    s.selected ⟨a, since, limit, dirForward⟩ =
      ((s.rows a).filter fun r => since.toInt64.toInt < (r.serial : Int)).take
        (max 1 (min limit maxPage)).toNat := by
  have hdir : ¬ dirForward = dirBackward := by decide
  have hascending := (hs a).ascending.sublist
    (List.filter_sublist (p := fun r => decide (since.toInt64.toInt < (r.serial : Int))))
  have hsorted := List.Pairwise.insertionSort_eq (r := fun x y : PostRow => x.serial ≤ y.serial)
    (hascending.imp fun hlt => Nat.le_of_lt hlt)
  simp only [selected, hdir, false_and, if_false, hsorted]

def Plain (s : Feeds) (a : PubKey) (since : UInt64) : Prop :=
  since.toNat < 2 ^ 63 ∨ ∀ n ∈ s.serials a, since.toNat < n

theorem filter_of_plain (hplain : s.Plain a since) :
    ((s.rows a).filter fun r => since.toInt64.toInt < (r.serial : Int)) =
      above PostRow.serial (s.rows a) since.toNat := by
  refine List.filter_congr fun r hr => ?_
  by_cases hsince : since.toNat < 2 ^ 63
  · simp [column_toInt hsince]
  · -- below zero in the column, and below the row
    have hneg := column_neg (Nat.le_of_not_lt hsince)
    have hrow := hplain.resolve_left hsince r.serial (List.mem_map_of_mem hr)
    have hcolumn : since.toInt64.toInt < (r.serial : Int) := by omega
    simp [hcolumn, hrow]

theorem one_le_clamp (limit : UInt16) : 1 ≤ (max 1 (min limit maxPage)).toNat := by
  have hle : (1 : UInt16) ≤ max 1 (min limit maxPage) := by
    change (1 : UInt16) ≤ if 1 ≤ min limit maxPage then min limit maxPage else 1
    split
    · assumption
    · exact UInt16.le_rfl
  exact UInt16.le_iff_toNat_le.mp hle

theorem page_rows (hs : Booked s) (a : PubKey) (since : UInt64) (limit : UInt16) :
    ∃ taken rest, ((s.rows a).filter fun r => since.toInt64.toInt < (r.serial : Int)) =
        taken ++ rest ∧
      fill [] 0 (s.selected ⟨a, since, limit, dirForward⟩) = taken.map (·.served) ∧
      (((s.rows a).filter fun r => since.toInt64.toInt < (r.serial : Int)) ≠ [] → taken ≠ []) ∧
      taken.length ≤ (max 1 (min limit maxPage)).toNat ∧
      (taken.map (·.post.stored)).sum ≤ maxPageBytes := by
  rw [selected_forward hs]
  have hone := one_le_clamp limit
  generalize hcount : (max 1 (min limit maxPage)).toNat = count at hone ⊢
  generalize hrows : ((s.rows a).filter fun r => since.toInt64.toInt < (r.serial : Int)) = rows
  have hsmall : ∀ r ∈ rows.take count, r.post.body.length ≤ maxBody := by
    intro r hr
    have hmem : r ∈ rows := List.mem_of_mem_take hr
    rw [← hrows] at hmem
    exact (hs a).small r (List.mem_of_mem_filter hmem)
  obtain ⟨taken, left, hsplit, hfill, hsome, hbytes⟩ :=
    fill_spec [] hsmall (Nat.zero_le _) fun _ => rfl
  refine ⟨taken, left ++ rows.drop count, ?_, by simpa using hfill, fun hne => ?_, ?_,
    by omega⟩
  · rw [← List.append_assoc, ← hsplit, List.take_append_drop]
  · refine hsome rfl fun hnil => hne ?_
    simpa [show count ≠ 0 by omega] using hnil
  · have hlength := congrArg List.length hsplit
    simp only [List.length_take, List.length_append] at hlength
    omega

theorem serves_iff (hs : Booked s) (hlabel : Labelled s) :
    Serves s ⟨a, since, limit, dirForward⟩ (fill [] 0 (s.selected ⟨a, since, limit, dirForward⟩)) ↔
      s.Plain a since := by
  obtain ⟨taken, rest, hsplit, hfill, hsome, hcount, hbytes⟩ :=
    page_rows hs a since limit
  have hlabelled : ∀ r ∈ s.rows a, r.post.serial.toNat = r.serial :=
    fun r hr => hlabel r (mem_rows.mp hr).1
  have htaken : ∀ r ∈ taken, r ∈ s.rows a := by
    intro r hr
    have hmem : r ∈ taken ++ rest := List.mem_append_left rest hr
    exact List.mem_of_mem_filter (hsplit ▸ hmem)
  rw [hfill]
  constructor
  · intro hserves
    by_cases hsince : since.toNat < 2 ^ 63
    · exact .inl hsince
    · -- everything held is above a cursor below zero, so the first held is on the page
      refine .inr fun n hn => ?_
      obtain ⟨r, hr, rfl⟩ := List.mem_map.mp hn
      have hneg := column_neg (Nat.le_of_not_lt hsince)
      have hall : ((s.rows a).filter fun r => since.toInt64.toInt < (r.serial : Int)) =
          s.rows a := by
        refine List.filter_eq_self.mpr fun x _ => ?_
        have hcolumn : since.toInt64.toInt < (x.serial : Int) := by omega
        simpa using hcolumn
      rw [hall] at hsplit hsome
      cases taken with
      | nil => exact absurd rfl (hsome (List.ne_nil_of_mem hr))
      | cons x taken =>
        have hx : x.served ∈ (above PostRow.serial (s.rows a) since.toNat).map PostRow.served :=
          hserves.first.subset (by simp)
        obtain ⟨y, hy, hsame⟩ := List.mem_map.mp hx
        obtain ⟨hyrow, hysince⟩ := mem_above.mp hy
        have hserial : y.serial = x.serial := by
          rw [← hlabelled y hyrow, ← hlabelled x (htaken x (by simp))]
          exact congrArg (fun p : Stored => p.post.serial.toNat) hsame
        have hle : x.serial ≤ r.serial := by
          have hascending := (hs a).ascending
          rw [hsplit] at hr hascending
          cases List.mem_cons.mp hr with
          | inl hfirst => rw [hfirst]
          | inr hlater => exact Nat.le_of_lt ((List.pairwise_cons.mp hascending).1 r hlater)
        omega
  · intro hplain
    rw [filter_of_plain hplain] at hsplit hsome
    have hascending : (taken ++ rest).Pairwise fun x y => x.serial < y.serial := by
      rw [← hsplit]
      exact (hs a).ascending.sublist List.filter_sublist
    exact {
      first := by
        rw [hsplit, List.map_append]
        exact List.prefix_append ..
      inOrder := by
        refine List.pairwise_map.mpr ((List.pairwise_append.mp hascending).1.imp_of_mem ?_)
        intro x y hx hy hlt
        rw [← hlabelled x (htaken x hx), ← hlabelled y (htaken y hy)] at hlt
        exact UInt64.lt_iff_toNat_lt.mpr hlt
      some := fun hne => by simpa using hsome hne
      count := by simpa using hcount
      bytes := by simpa [Function.comp_def, PostRow.served, Post.length_encode] using hbytes }

theorem booked_expire (hs : Booked s) (now : UInt64) : Booked (after (expire now) s) :=
  hs.perform (C := .toy) now .read

theorem labelled_expire (hs : Booked s) (hlabel : Labelled s) (now : UInt64) :
    Labelled (after (expire now) s) :=
  hlabel.perform (C := .toy) hs now .read

theorem plain_expire (hs : Booked s) : (after (expire now) s).Plain a since ↔ s.Plain a since := by
  rw [Plain, Plain, serials_expire hs]

theorem serials_of_absent (hs : Booked s) (ha : s.feed[a]? = none) : s.serials a = [] := by
  refine List.map_eq_nil_iff.mpr (List.eq_nil_iff_forall_not_mem.mpr fun r hr => ?_)
  have hsome := isSome_of_mem (hs a).posts hr
  simp [ha] at hsome

theorem serves_nil_iff : Serves s ⟨a, since, limit, dirForward⟩ [] ↔
    ∀ n ∈ s.serials a, n ≤ since.toNat := by
  constructor
  · intro h n hn
    obtain ⟨r, hr, rfl⟩ := List.mem_map.mp hn
    have hnone : above PostRow.serial (s.rows a) since.toNat = [] :=
      by_contra fun hsome => h.some hsome rfl
    by_contra hlt
    have hmem : r ∈ above PostRow.serial (s.rows a) since.toNat := mem_above.mpr ⟨hr, by omega⟩
    rw [hnone] at hmem
    exact List.not_mem_nil hmem
  · intro h
    refine ⟨by simp, List.Pairwise.nil, fun hsome => ?_, Nat.zero_le _, Nat.zero_le _⟩
    obtain ⟨r, hr⟩ := List.exists_mem_of_ne_nil _ hsome
    obtain ⟨hrow, hlt⟩ := mem_above.mp hr
    exact absurd (h r.serial (List.mem_map_of_mem hrow)) (Nat.not_le.mpr hlt)

theorem read_blocked (req : Read) (h : blocked req.account caller = true) :
    s.read blocked caller req now = (s, .none now) := if_pos h

theorem read_open (s : Feeds) (req : Read) (now : UInt64)
    (h : blocked req.account caller = false) :
    (s.read blocked caller req now).1 = after (expire now) s ∧
      (s.read blocked caller req now).2.posts =
        if ((after (expire now) s).feed[req.account]?).isSome then
          fill [] 0 ((after (expire now) s).selected req)
        else [] := by
  rw [read, if_neg (by simp [h])]
  dsimp only
  cases (after (expire now) s).feed[req.account]? <;> exact ⟨rfl, rfl⟩

theorem read_serves_iff (hs : Booked s) (hlabel : Labelled s) :
    Serves (s.read blocked caller ⟨a, since, limit, dirForward⟩ now).1
        ⟨a, since, limit, dirForward⟩
        (s.read blocked caller ⟨a, since, limit, dirForward⟩ now).2.posts ↔
      if blocked a caller then ∀ n ∈ s.serials a, n ≤ since.toNat else s.Plain a since := by
  cases hblocked : blocked a caller with
  | true =>
    rw [read_blocked ⟨a, since, limit, dirForward⟩ hblocked]
    exact serves_nil_iff
  | false =>
    obtain ⟨hstore, hposts⟩ := read_open s ⟨a, since, limit, dirForward⟩ now hblocked
    rw [hstore, hposts]
    have hbooked := booked_expire hs now
    cases hhead : (after (expire now) s).feed[a]? with
    | none =>
      have hnone := serials_of_absent hbooked hhead
      have hbefore : s.serials a = [] := by rw [← serials_expire hs now, hnone]
      exact iff_of_true (serves_nil_iff.mpr (by simp [hnone])) (.inr (by simp [hbefore]))
    | some head =>
      exact (serves_iff hbooked (labelled_expire hs hlabel now)).trans (plain_expire hs)

/-- A turn of a reader: what was done to the feeds since the turn before, the moment, and how
much is asked for. -/
structure Turn where
  acts : List (UInt64 × Act)
  now : UInt64
  limit : UInt16

/-- A reader of a feed: where it reads from next, and the serials of the posts it got. -/
structure Reader where
  feeds : Feeds
  cursor : UInt64
  seen : List UInt64

def Reader.turn (C : Crypto) (blocked : PubKey → PubKey → Bool) (caller a : PubKey) (r : Reader)
    (t : Turn) : Reader :=
  let req := ⟨a, r.cursor, t.limit, dirForward⟩
  let got := (run (step C) r.feeds t.acts).read blocked caller req t.now
  let page := got.2.posts.map (·.post.serial)
  ⟨got.1, next id r.cursor page, r.seen ++ page⟩

theorem serials_of_serves {posts : List Stored} (hlabel : Labelled s)
    (h : Serves s ⟨a, since, limit, dirForward⟩ posts) :
    ∃ rest, above id (s.serials a) since.toNat =
        (posts.map (·.post.serial)).map UInt64.toNat ++ rest ∧
      (posts = [] → rest = []) := by
  obtain ⟨left, hleft⟩ := h.first
  have hsplit := congrArg (List.map fun x : Stored => x.post.serial.toNat) hleft
  have hnames : (above PostRow.serial (s.rows a) since.toNat).map
      (fun r => r.served.post.serial.toNat) = above id (s.serials a) since.toNat := by
    rw [← above_serials]
    exact List.map_congr_left fun r hr => hlabel r (mem_rows.mp (mem_above.mp hr).1).1
  rw [List.map_append, List.map_map, Function.comp_def, hnames] at hsplit
  refine ⟨left.map fun x : Stored => x.post.serial.toNat, ?_, fun hnil => ?_⟩
  · rw [← hsplit, List.map_map, Function.comp_def]
  · have hnone : above PostRow.serial (s.rows a) since.toNat = [] :=
      by_contra fun hsome => h.some hsome hnil
    have hempty := hleft
    rw [hnone, hnil] at hempty
    simpa using hempty

/-- What a page brings a reader of what lies above its cursor, where the column holds that. -/
theorem read_spec (hs : Booked s) (hlabel : Labelled s) (hopen : blocked a caller = false)
    (hsince : since.toNat < 2 ^ 63) (limit : UInt16) (now : UInt64) :
    (s.read blocked caller ⟨a, since, limit, dirForward⟩ now).1 = after (expire now) s ∧
      ∃ rest, above id (s.serials a) since.toNat =
          ((s.read blocked caller ⟨a, since, limit, dirForward⟩ now).2.posts.map
            (·.post.serial)).map UInt64.toNat ++ rest ∧
        ((s.read blocked caller ⟨a, since, limit, dirForward⟩ now).2.posts = [] → rest = []) := by
  obtain ⟨hstore, -⟩ := read_open s ⟨a, since, limit, dirForward⟩ now hopen
  have hserves : Serves (s.read blocked caller ⟨a, since, limit, dirForward⟩ now).1
      ⟨a, since, limit, dirForward⟩
      (s.read blocked caller ⟨a, since, limit, dirForward⟩ now).2.posts := by
    rw [read_serves_iff hs hlabel, hopen]
    exact .inl hsince
  rw [hstore] at hserves
  obtain ⟨rest, hsplit, hempty⟩ := serials_of_serves (labelled_expire hs hlabel now) hserves
  rw [serials_expire hs] at hsplit
  exact ⟨hstore, rest, hsplit, hempty⟩

theorem toNat_next (since : UInt64) (page : List UInt64) :
    (next id since page).toNat = next id since.toNat (page.map UInt64.toNat) := by
  induction page using List.reverseRecOn with
  | nil => rfl
  | append_singleton page n _ => simp

/-- What holds of a reader that began above `since`: what it saw goes up, and is all that is held
above `since` as far as it has read. -/
structure Reading (since : UInt64) (a : PubKey) (r : Reader) : Prop where
  booked : Booked r.feeds
  labelled : Labelled r.feeds
  inOrder : r.seen.Pairwise (· < ·)
  reached : ∀ n ∈ r.seen, n ≤ r.cursor
  begun : since ≤ r.cursor
  held : r.cursor = since ∨ r.cursor.toNat ≤ (r.feeds.headOf a).newest
  covered : ∀ n ∈ r.feeds.serials a, since.toNat < n → n ≤ r.cursor.toNat →
    n ∈ r.seen.map UInt64.toNat

theorem mem_serials_of_later (h : Later s s') {n : Nat} (hn : n ∈ s'.serials a)
    (hnewest : n ≤ (s.headOf a).newest) : n ∈ s.serials a := by
  obtain ⟨r, hr, rfl⟩ := List.mem_map.mp hn
  cases (h a).2 r hr with
  | inl hnew => omega
  | inr hold =>
    obtain ⟨r₀, hr₀, hserial, -⟩ := hold
    exact List.mem_map.mpr ⟨r₀, hr₀, hserial⟩

theorem le_newest_of_mem (hs : Booked s) {n : Nat} (hn : n ∈ s.serials a) :
    n ≤ (s.headOf a).newest := by
  obtain ⟨r, hr, rfl⟩ := List.mem_map.mp hn
  exact (hs a).below r hr

/-- What is done to the feeds between two pages leaves a reader where it was. -/
theorem Reading.later {r : Reader} (h : Reading since a r) (hlater : Later r.feeds s')
    (hs : Booked s') (hlabel : Labelled s') : Reading since a ⟨s', r.cursor, r.seen⟩ where
  booked := hs
  labelled := hlabel
  inOrder := h.inOrder
  reached := h.reached
  begun := h.begun
  held := h.held.imp_right fun hle => hle.trans (hlater a).1
  covered n hn hsince hcursor := by
    cases h.held with
    | inl hstart =>
      rw [hstart] at hcursor
      omega
    | inr hle =>
      have hbefore := mem_serials_of_later hlater hn (hcursor.trans hle)
      exact h.covered n hbefore hsince hcursor

theorem run_labelled (hs : Booked s) (hlabel : Labelled s) (acts : List (UInt64 × Act)) :
    Labelled (run (step C) s acts) := by
  induction acts generalizing s with
  | nil => exact hlabel
  | cons act acts ih =>
    exact ih (hs.perform act.1 act.2) (hlabel.perform hs act.1 act.2)

theorem Reading.cursor_lt {r : Reader} (h : Reading since a r) (hsince : since.toNat < 2 ^ 63)
    (hnewest : (r.feeds.headOf a).newest < 2 ^ 63) : r.cursor.toNat < 2 ^ 63 := by
  cases h.held with
  | inl hstart => rwa [hstart]
  | inr hle => omega

theorem Reading.turn {r : Reader} (h : Reading since a r) (hopen : blocked a caller = false)
    (hsince : since.toNat < 2 ^ 63) (t : Turn)
    (hnewest : ((r.turn C blocked caller a t).feeds.headOf a).newest < 2 ^ 63) :
    Reading since a (r.turn C blocked caller a t) := by
  have hmid : Reading since a ⟨run (step C) r.feeds t.acts, r.cursor, r.seen⟩ :=
    h.later (run_later h.booked t.acts) (run_booked h.booked t.acts)
      (run_labelled h.booked h.labelled t.acts)
  generalize hs : run (step C) r.feeds t.acts = s at hmid
  rw [Reader.turn] at hnewest ⊢
  dsimp only at hnewest ⊢
  rw [hs] at hnewest ⊢
  have hexpire : Later s (after (expire t.now) s) := later_perform (C := C) hmid.booked t.now .read
  have hstore :=
    (read_open s ⟨a, r.cursor, t.limit, dirForward⟩ t.now hopen).1
  rw [hstore] at hnewest ⊢
  have hcursor := hmid.cursor_lt hsince (Nat.lt_of_le_of_lt (hexpire a).1 hnewest)
  obtain ⟨-, rest, hsplit, -⟩ :=
    read_spec hmid.booked hmid.labelled hopen hcursor t.limit t.now
  have hafter := hmid.later hexpire (booked_expire hmid.booked t.now)
    (labelled_expire hmid.booked hmid.labelled t.now)
  generalize (s.read blocked caller ⟨a, r.cursor, t.limit, dirForward⟩ t.now).2.posts.map
    (·.post.serial) = page at hsplit ⊢
  have hnext := toNat_next r.cursor page
  have hascending := ascending_serials (a := a) hmid.booked
  have hrest : above id (s.serials a) (next id r.cursor.toNat (page.map UInt64.toNat)) = rest :=
    above_next_of_lt hascending hsplit
  have hfrom : ∀ n ∈ page, r.cursor.toNat < n.toNat ∧ n.toNat ∈ s.serials a := by
    intro n hn
    have hmem : n.toNat ∈ above id (s.serials a) r.cursor.toNat := by
      rw [hsplit]
      exact List.mem_append_left rest (List.mem_map_of_mem hn)
    exact (mem_above.mp hmem).symm
  have hle : r.cursor.toNat ≤ (next id r.cursor page).toNat := by
    rw [hnext]
    exact le_next fun n hn => (mem_above.mp (hsplit ▸ List.mem_append_left rest hn)).2
  have hsorted : (page.map UInt64.toNat ++ rest).Pairwise (· < ·) :=
    hsplit ▸ hascending.sublist List.filter_sublist
  refine ⟨hafter.booked, hafter.labelled, ?_, fun n hn => ?_, ?_, ?_, fun n hn hlow hhigh => ?_⟩
  · refine List.pairwise_append.mpr ⟨hmid.inOrder, ?_, fun n hn m hm => ?_⟩
    · have hpage := List.pairwise_map.mp (List.pairwise_append.mp hsorted).1
      exact hpage.imp UInt64.lt_iff_toNat_lt.mpr
    · have hreached := UInt64.le_iff_toNat_le.mp (hmid.reached n hn)
      exact UInt64.lt_iff_toNat_lt.mpr (Nat.lt_of_le_of_lt hreached (hfrom m hm).1)
  · rw [UInt64.le_iff_toNat_le]
    cases List.mem_append.mp hn with
    | inl hold => exact (UInt64.le_iff_toNat_le.mp (hmid.reached n hold)).trans hle
    | inr hnew =>
      rw [hnext]
      have hupward : (page.map UInt64.toNat ++ rest).Pairwise fun n m => id n ≤ id m :=
        hsorted.imp Nat.le_of_lt
      exact le_next_of_mem hupward (List.mem_map_of_mem hnew)
  · exact UInt64.le_iff_toNat_le.mpr ((UInt64.le_iff_toNat_le.mp hmid.begun).trans hle)
  · induction page using List.reverseRecOn with
    | nil => exact hafter.held
    | append_singleton page n _ =>
      rw [next_concat]
      have hheld := le_newest_of_mem hmid.booked (hfrom n (by simp)).2
      exact .inr (hheld.trans (hexpire a).1)
  · rw [List.map_append]
    by_cases hcut : n ≤ r.cursor.toNat
    · exact List.mem_append_left _ (hafter.covered n hn hlow hcut)
    · rw [serials_expire hmid.booked] at hn
      have hmem : n ∈ page.map UInt64.toNat ++ rest := by
        rw [← hsplit]
        exact mem_above.mpr ⟨hn, Nat.lt_of_not_le hcut⟩
      cases List.mem_append.mp hmem with
      | inl hpage => exact List.mem_append_right _ hpage
      | inr hleft =>
        rw [← hrest, ← hnext] at hleft
        have hlt : (next id r.cursor page).toNat < n := (mem_above.mp hleft).2
        exact absurd hhigh (Nat.not_le.mpr hlt)

def Reader.turns (C : Crypto) (blocked : PubKey → PubKey → Bool) (caller a : PubKey) :
    Reader → List Turn → Reader := run (Reader.turn C blocked caller a)

theorem newest_turn (r : Reader) (hs : Booked r.feeds) (hopen : blocked a caller = false)
    (t : Turn) : Booked (r.turn C blocked caller a t).feeds ∧
      (r.feeds.headOf a).newest ≤ ((r.turn C blocked caller a t).feeds.headOf a).newest := by
  have hbooked := run_booked (C := C) hs t.acts
  have hstore := (read_open (run (step C) r.feeds t.acts)
    ⟨a, r.cursor, t.limit, dirForward⟩ t.now hopen).1
  rw [Reader.turn]
  dsimp only
  rw [hstore]
  exact ⟨booked_expire hbooked t.now, (run_later hs t.acts a).1.trans
    (later_perform (C := C) hbooked t.now .read a).1⟩

theorem newest_turns {r : Reader} (hs : Booked r.feeds) (hopen : blocked a caller = false)
    (ts : List Turn) :
    (r.feeds.headOf a).newest ≤ ((r.turns C blocked caller a ts).feeds.headOf a).newest := by
  induction ts generalizing r with
  | nil => exact Nat.le_refl _
  | cons t ts ih =>
    obtain ⟨hbooked, hle⟩ := newest_turn (C := C) r hs hopen t
    exact hle.trans (ih hbooked)

theorem Reading.turns {r : Reader} (h : Reading since a r) (hopen : blocked a caller = false)
    (hsince : since.toNat < 2 ^ 63) (ts : List Turn)
    (hnewest : ((r.turns C blocked caller a ts).feeds.headOf a).newest < 2 ^ 63) :
    Reading since a (r.turns C blocked caller a ts) := by
  induction ts generalizing r with
  | nil => exact h
  | cons t ts ih =>
    have hbooked := (newest_turn (C := C) r h.booked hopen t).1
    have hle := newest_turns (C := C) hbooked hopen ts
    exact ih (h.turn hopen hsince t (Nat.lt_of_le_of_lt hle hnewest)) hnewest

theorem turns_all {r : Reader} (h : Reading since a r) (hopen : blocked a caller = false)
    (hsince : since.toNat < 2 ^ 63) (ts : List Turn) (hidle : ∀ t ∈ ts, t.acts = [])
    (hnewest : ((r.turns C blocked caller a ts).feeds.headOf a).newest < 2 ^ 63)
    (henough : (above id (r.feeds.serials a) r.cursor.toNat).length ≤ ts.length) :
    (r.turns C blocked caller a ts).seen.map UInt64.toNat =
      r.seen.map UInt64.toNat ++ above id (r.feeds.serials a) r.cursor.toNat := by
  induction ts generalizing r with
  | nil =>
    have hnone := List.length_eq_zero_iff.mp (Nat.le_zero.mp henough)
    rw [hnone, List.append_nil]
    rfl
  | cons t ts ih =>
    obtain ⟨hbooked, hgrew⟩ := newest_turn (C := C) r h.booked hopen t
    have hlow := Nat.lt_of_le_of_lt (newest_turns (C := C) hbooked hopen ts) hnewest
    have hreading := h.turn hopen hsince t hlow
    have hcursor := h.cursor_lt hsince (Nat.lt_of_le_of_lt hgrew hlow)
    obtain ⟨hstore, rest, hsplit, hempty⟩ :=
      read_spec h.booked h.labelled hopen hcursor t.limit t.now
    have hturn : (r.turn C blocked caller a t).feeds.serials a = r.feeds.serials a ∧
        above id (r.feeds.serials a) (r.turn C blocked caller a t).cursor.toNat = rest ∧
        (r.turn C blocked caller a t).seen.map UInt64.toNat ++ rest =
          r.seen.map UInt64.toNat ++ above id (r.feeds.serials a) r.cursor.toNat := by
      rw [Reader.turn, hidle t (by simp)]
      dsimp only [run_nil]
      rw [hstore, serials_expire h.booked, toNat_next]
      exact ⟨rfl, above_next_of_lt (ascending_serials h.booked) hsplit, by simp [hsplit]⟩
    obtain ⟨hserials, habove, hseen⟩ := hturn
    have hlength : rest.length ≤ ts.length := by
      by_cases hpage : (r.feeds.read blocked caller ⟨a, r.cursor, t.limit, dirForward⟩
          t.now).2.posts = []
      · simp [hempty hpage]
      · have hpos := List.length_pos_of_ne_nil hpage
        have hsum := congrArg List.length hsplit
        simp only [List.length_append, List.length_map, List.length_cons] at hsum henough
        omega
    have hlater := ih hreading (fun t ht => hidle t (by simp [ht])) hnewest
      (by rwa [hserials, habove])
    rw [hserials, habove, hseen] at hlater
    exact hlater

theorem run_ready (acts : List (UInt64 × Act)) :
    Booked (run (step C) opened acts) ∧ Labelled (run (step C) opened acts) :=
  ⟨run_booked booked_opened acts, run_labelled booked_opened (by simp [Labelled, opened]) acts⟩

/-- After any run, a page is the first of what is held above a serial, unless the serial is one the
column reads below zero and something at or below it is held. A reader that starts each page from
the last serial it got sees no post twice, leaves none behind, and has them all in as many pages as
there are posts. -/
theorem pages_serve_iff (C : Crypto) (acts : List (UInt64 × Act)) (caller a : PubKey)
    (blocked : PubKey → PubKey → Bool) (since : UInt64) :
    let s := run (step C) opened acts
    (∀ limit now,
      Serves (s.read blocked caller ⟨a, since, limit, dirForward⟩ now).1
          ⟨a, since, limit, dirForward⟩
          (s.read blocked caller ⟨a, since, limit, dirForward⟩ now).2.posts ↔
        if blocked a caller then ∀ n ∈ s.serials a, n ≤ since.toNat else s.Plain a since) ∧
      (blocked a caller = false → since.toNat < 2 ^ 63 → ∀ ts : List Turn,
        let r := Reader.turns C blocked caller a ⟨s, since, []⟩ ts
        (r.feeds.headOf a).newest < 2 ^ 63 →
          r.seen.Pairwise (· < ·) ∧
          (∀ n ∈ r.feeds.serials a, since.toNat < n → n ≤ r.cursor.toNat →
            n ∈ r.seen.map UInt64.toNat) ∧
          ((∀ t ∈ ts, t.acts = []) → (above id (s.serials a) since.toNat).length ≤ ts.length →
            r.seen.map UInt64.toNat = above id (s.serials a) since.toNat)) := by
  obtain ⟨hbooked, hlabel⟩ := run_ready (C := C) acts
  have hstart : Reading since a ⟨run (step C) opened acts, since, []⟩ :=
    ⟨hbooked, hlabel, List.Pairwise.nil, by simp, UInt64.le_rfl, .inl rfl,
      fun n _ hlow hhigh => absurd hlow (Nat.not_lt.mpr hhigh)⟩
  refine ⟨fun limit now => read_serves_iff hbooked hlabel, fun hopen hsince ts hnewest => ?_⟩
  have hreading := hstart.turns hopen hsince ts hnewest
  refine ⟨hreading.inOrder, hreading.covered, fun hidle henough => ?_⟩
  exact turns_all hstart hopen hsince ts hidle hnewest henough

section Edges

def twoPosts : List (UInt64 × Act) :=
  [(1, .append author firstPost), (2, .append author (authored 2 (firstPost.link .toy) [8]))]

def oneByOne : List Turn := [⟨[], 3, 1⟩, ⟨[], 4, 1⟩]

def heldTwo : Feeds := run (step .toy) opened twoPosts

theorem two_pages_serve :
    ((heldTwo.read (fun _ _ => false) author ⟨author, 0, 64, dirForward⟩ 3).2.posts.map
        (·.post.serial)) = [1, 2] ∧
      ((Reader.turns .toy (fun _ _ => false) author author ⟨heldTwo, 0, []⟩ oneByOne).seen.map
        UInt64.toNat) = above id (heldTwo.serials author) 0 :=
  ⟨by decide +kernel,
    ((pages_serve_iff .toy twoPosts author author (fun _ _ => false) 0).2 rfl (by decide) oneByOne
      (by decide +kernel)).2.2 (by simp [oneByOne]) (by decide +kernel)⟩

/-- From 2^63 on a cursor is below zero in the column, and a reader of serials above it is given
every post there is. -/
theorem high_cursor_serves_all :
    (heldTwo.read (fun _ _ => false) author ⟨author, 9223372036854775808, 64, dirForward⟩
        3).2.posts.map (·.post.serial) = [1, 2] ∧
      ¬ Serves (heldTwo.read (fun _ _ => false) author
          ⟨author, 9223372036854775808, 64, dirForward⟩ 3).1
        ⟨author, 9223372036854775808, 64, dirForward⟩
        (heldTwo.read (fun _ _ => false) author
          ⟨author, 9223372036854775808, 64, dirForward⟩ 3).2.posts := by
  have hgot : (heldTwo.read (fun _ _ => false) author
      ⟨author, 9223372036854775808, 64, dirForward⟩ 3).2.posts.map (·.post.serial) = [1, 2] := by
    decide +kernel
  refine ⟨hgot, fun hserves => ?_⟩
  have hnone : above PostRow.serial ((heldTwo.read (fun _ _ => false) author
      ⟨author, 9223372036854775808, 64, dirForward⟩ 3).1.rows author) 9223372036854775808 = [] := by
    decide +kernel
  have hfirst := hserves.first
  have hsince : (9223372036854775808 : UInt64).toNat = 9223372036854775808 := rfl
  rw [hsince, hnone, List.map_nil, List.prefix_nil] at hfirst
  rw [hfirst] at hgot
  simp at hgot

end Edges

end Feeds
end Sqex.Feed
