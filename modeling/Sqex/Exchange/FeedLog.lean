import Mathlib.Data.List.Chain
import Sqex.Exchange.FeedBooks
import Sqex.Lib.Columns
import Sqex.Lib.Traces

/-! A feed is a log without gaps: over every run at times that do not go back, what is held is
numbered from the oldest to the newest, linked, counted and within its caps. -/
namespace Sqex.Feed
open Runs
variable {C : Crypto}

/-- What of a row no loss of its body changes. -/
structure Frame where
  serial : Nat
  received : Int64
  prev : Bytes32
  link : Bytes32

def PostRow.frame (C : Crypto) (r : PostRow) : Frame :=
  ⟨r.serial, r.received, r.post.prev, r.post.link C⟩

/-- A head and the frames of its posts: numbered without a gap up to the newest, linked up to
the head, and in the order they arrived, by `clock` at the latest. -/
structure Dense (clock : UInt64) (h : HeadRow) (fs : List Frame) : Prop where
  numbered : fs.map (·.serial) = List.range' h.oldest fs.length
  ends : fs ≠ [] → 1 ≤ h.oldest ∧ h.oldest + fs.length = h.newest + 1
  empty : fs = [] → h.oldest = 0
  linked : fs.IsChain fun f g => g.prev = f.link
  head : ∀ f, fs.getLast? = some f → f.link = h.headInput
  inOrder : fs.Pairwise fun f g => f.received ≤ g.received
  arrived : ∀ f ∈ fs, f.received ≤ clock.toInt64

namespace Dense
variable {clock now : UInt64} {h h' : HeadRow} {fs : List Frame} {f : Frame}

theorem absent : Dense clock .absent [] :=
  ⟨rfl, fun h => absurd rfl h, fun _ => rfl, List.IsChain.nil, by simp, List.Pairwise.nil, by simp⟩

theorem of_head (hd : Dense clock h fs) (holdest : h'.oldest = h.oldest)
    (hnewest : h'.newest = h.newest) (hinput : h'.headInput = h.headInput) : Dense clock h' fs where
  numbered := by rw [holdest]; exact hd.numbered
  ends := by rw [holdest, hnewest]; exact hd.ends
  empty := by rw [holdest]; exact hd.empty
  linked := hd.linked
  head := by rw [hinput]; exact hd.head
  inOrder := hd.inOrder
  arrived := hd.arrived

theorem later (hd : Dense clock h fs) (hclock : clock.toInt64 ≤ now.toInt64) : Dense now h fs :=
  { hd with arrived := fun f hf => Int64.le_trans (hd.arrived f hf) hclock }

theorem suffix {before rest : List Frame} (hd : Dense clock h (before ++ rest)) :
    Dense clock { h with oldest := if rest = [] then 0 else h.oldest + before.length } rest where
  numbered := by
    have hnumbered := hd.numbered
    rw [List.map_append, List.length_append, ← List.range'_append] at hnumbered
    have hrest := List.append_inj_right hnumbered (by simp)
    by_cases hempty : rest = []
    · simp [hempty]
    · simpa [hempty] using hrest
  ends hrest := by
    have hends := hd.ends (by simp [hrest])
    simp only [List.length_append] at hends
    simp only [hrest, if_false]
    omega
  empty hrest := by simp [hrest]
  linked := (List.isChain_append.mp hd.linked).2.1
  head f hf := hd.head f (by simp [List.getLast?_append, hf])
  inOrder := (List.pairwise_append.mp hd.inOrder).2.1
  arrived f hf := hd.arrived f (List.mem_append_right _ hf)

theorem snoc (hd : Dense clock h fs) (hserial : f.serial = h.newest + 1)
    (hprev : f.prev = h.headInput) (hclock : clock.toInt64 ≤ now.toInt64)
    (hreceived : f.received = now.toInt64) :
    Dense now { h with
      oldest := if h.oldest = 0 then f.serial else h.oldest, newest := f.serial
      headInput := f.link } (fs ++ [f]) where
  numbered := by
    have hnumbered := hd.numbered
    by_cases hfs : fs = []
    · simp [hfs, hd.empty hfs]
    · have hends := hd.ends hfs
      have holdest : h.oldest ≠ 0 := by omega
      rw [List.map_append, hnumbered, List.length_append]
      simp only [holdest, if_false, List.map_cons, List.map_nil, List.length_cons, List.length_nil]
      rw [List.range'_append_1 |>.symm]
      simp
      omega
  ends _ := by
    by_cases hfs : fs = []
    · simp [hfs, hd.empty hfs]
      omega
    · have hends := hd.ends hfs
      have holdest : h.oldest ≠ 0 := by omega
      simp only [holdest, if_false, List.length_append, List.length_singleton]
      omega
  empty h := by simp at h
  linked := by
    refine List.isChain_append.mpr ⟨hd.linked, List.isChain_singleton _, fun x hx y hy => ?_⟩
    obtain rfl : f = y := by simpa using hy
    rw [hprev, hd.head x hx]
  head g hg := by
    obtain rfl : f = g := by simpa using hg
    rfl
  inOrder := by
    refine List.pairwise_append.mpr ⟨hd.inOrder, by simp, fun x hx y hy => ?_⟩
    obtain rfl := List.mem_singleton.mp hy
    rw [hreceived]
    exact Int64.le_trans (hd.arrived x hx) hclock
  arrived x hx := by
    rcases mem_concat.mp hx with hx | rfl
    · exact Int64.le_trans (hd.arrived x hx) hclock
    · rw [hreceived]
      exact Int64.le_refl _

end Dense

/-- Of rows in the order they arrived, those that came before some time are the first. -/
theorem filter_received {rows : List PostRow} {cutoff : Int64}
    (h : rows.Pairwise fun r r' => r.received ≤ r'.received) :
    ∃ before, rows = before ++ rows.filter fun r => ! decide (r.received < cutoff) := by
  induction rows with
  | nil => exact ⟨[], rfl⟩
  | cons r rows ih =>
    obtain ⟨hr, hrows⟩ := List.pairwise_cons.mp h
    by_cases hstale : r.received < cutoff
    · obtain ⟨before, hbefore⟩ := ih hrows
      refine ⟨r :: before, ?_⟩
      rw [List.filter_cons_of_neg (by simp [hstale]), List.cons_append, ← hbefore]
    · refine ⟨[], ?_⟩
      have hall : (r :: rows).filter (fun r => ! decide (r.received < cutoff)) = r :: rows := by
        refine List.filter_eq_self.mpr fun x hx => ?_
        rcases List.mem_cons.mp hx with rfl | hx
        · simp [hstale]
        · have hle := Int64.le_trans (Int64.not_lt.mp hstale) (hr x hx)
          simpa using hle
      rw [hall, List.nil_append]

theorem min?_range' (start n : Nat) : (List.range' start (n + 1)).min? = some start := by
  refine List.min?_eq_some_iff.mpr ⟨by simp, fun b hb => ?_⟩
  have hmem := List.mem_range'_1.mp hb
  omega

namespace Feeds
variable {clock now : UInt64} {s s' : Feeds} {a : PubKey}

def Kept (C : Crypto) (clock : UInt64) (s : Feeds) : Prop :=
  Booked s ∧ ∀ a, Dense clock (s.headOf a) ((s.rows a).map (PostRow.frame C))

theorem kept_opened : Kept C clock opened := by
  refine ⟨booked_opened, fun a => ?_⟩
  have hhead : opened.headOf a = .absent := by simp [opened, headOf]
  rw [hhead]
  exact Dense.absent

theorem Kept.later (hs : Kept C clock s) (hclock : clock.toInt64 ≤ now.toInt64) : Kept C now s :=
  ⟨hs.1, fun a => (hs.2 a).later hclock⟩

theorem frame_stonedAt (n : Nat) (rows : List PostRow) :
    (stonedAt n rows).map (PostRow.frame C) = rows.map (PostRow.frame C) := by
  rw [stonedAt, List.map_map]
  refine List.map_congr_left fun r _ => ?_
  simp only [Function.comp]
  split <;> rfl

theorem Kept.stoned {r : PostRow} (hs : Kept C clock s) (hr : r ∈ s.post) :
    Kept C clock (Feeds.stoned r s) := by
  refine ⟨hs.1.stoned hr, fun a => ?_⟩
  by_cases ha : a = r.account
  · subst ha
    rw [headOf_stoned (hs.1 r.account).posts hr, rows_stoned, frame_stonedAt]
    exact (hs.2 r.account).of_head rfl rfl rfl
  · rw [headOf_stoned_other ha, rows_stoned_other ha]
    exact hs.2 a

theorem Kept.append {p : Post} {before rest : List PostRow} (hs : Kept C now s)
    (haccept : s.accept C p.account p = .ok ()) (h : Appended C s p now before rest s') :
    Kept C now s' := by
  refine ⟨h.books hs.1 haccept, fun a => ?_⟩
  by_cases ha : a = p.account
  · subst ha
    obtain ⟨-, -, hserial, hprev⟩ := accept_ok haccept
    have hnew := @Dense.snoc _ now _ _ ((arriving p now).frame C) (hs.2 p.account) hserial hprev
      (Int64.le_refl _) rfl
    have hframes : (s.rows p.account).map (PostRow.frame C) ++ [(arriving p now).frame C] =
        before.map (PostRow.frame C) ++ rest.map (PostRow.frame C) := by
      rw [← List.map_append, ← h.split, List.map_append]
      rfl
    -- what goes leaves the serial after it the oldest
    have holdest : (s.makeRoom p now).oldest =
        (if (s.headOf p.account).oldest = 0 then p.serial.toNat else (s.headOf p.account).oldest) +
          before.length := by
      rw [← h.oldest, makeRoom_eq hs.1 haccept now]
      refine evict_oldest ?_
      have hnumbered := hnew.numbered
      simpa [PostRow.frame, arriving, Function.comp_def] using hnumbered
    rw [hframes] at hnew
    have hrest : rest.map (PostRow.frame C) ≠ [] := by simpa using h.kept
    have hsuffix := hnew.suffix
    rw [h.rows, h.head]
    refine hsuffix.of_head ?_ rfl rfl
    simp [holdest, h.kept, PostRow.frame, arriving]
  · rw [(h.other a ha).1, (h.other a ha).2]
    exact hs.2 a

theorem Kept.sweepFeed (f : PubKey × HeadRow) (hs : Kept C clock s) :
    Kept C clock (Feeds.sweepFeed now s f) := by
  rcases sweepFeed_cases now f hs.1 with hsame | ⟨hrows, hhead, hother⟩
  · rwa [hsame]
  · refine ⟨hs.1.sweepFeed now f, fun a => ?_⟩
    by_cases ha : a = f.1
    · subst ha
      have hdense := hs.2 f.1
      have hfresh : fresh now f s = (s.rows f.1).filter fun r => ! decide
          (r.received < (now - min now (UInt64.ofNat f.2.retentionSecs)).toInt64) := by
        refine List.filter_congr fun r hr => ?_
        simp [isStale, (mem_rows.mp hr).2]
      have hordered : (s.rows f.1).Pairwise fun r r' => r.received ≤ r'.received :=
        (List.pairwise_map (f := PostRow.frame C)).mp hdense.inOrder
      obtain ⟨before, hsplit⟩ := filter_received hordered
      rw [← hfresh] at hsplit
      rw [hsplit, List.map_append] at hdense
      have hsuffix := hdense.suffix
      rw [hrows, hhead]
      refine hsuffix.of_head ?_ rfl rfl
      -- the least serial left is the first
      have hnumbered := hsuffix.numbered
      cases hleft : fresh now f s with
      | nil => simp
      | cons r rest =>
        have hserials : (r :: rest).map (·.serial) =
            List.range' ((s.headOf f.1).oldest + before.length) (rest.length + 1) := by
          simpa [hleft, PostRow.frame, Function.comp_def] using hnumbered
        rw [hserials, min?_range']
        simp
    · rw [(hother a ha).1, (hother a ha).2]
      exact hs.2 a

theorem Kept.perform (hs : Kept C clock s) (hclock : clock.toInt64 ≤ now.toInt64) (act : Act) :
    Kept C now (perform C s now act) := by
  refine perform_induction (P := Kept C now) (fun _ hs => hs.1) (fun _ _ hs hr _ => hs.stoned hr)
    (fun _ _ _ _ hs _ haccept hspec => hs.append haccept hspec)
    (fun a retentionSecs _ listed hs _ hmax => ?_)
    (fun _ f hs => hs.sweepFeed f)
    (hs.later hclock)
  refine ⟨hs.1.withPolicy a retentionSecs listed _ hmax, fun b => ?_⟩
  rw [Feeds.withPolicy, headOf_insert]
  split
  · rename_i hab
    subst hab
    exact (hs.2 a).of_head rfl rfl rfl
  · exact hs.2 b

/-- A later store: nothing newer went back, and each row is a new one or was there, with a body
only if it had one. -/
def Later (s s' : Feeds) : Prop :=
  ∀ a, (s.headOf a).newest ≤ (s'.headOf a).newest ∧
    ∀ r ∈ s'.rows a, (s.headOf a).newest < r.serial ∨
      ∃ r₀ ∈ s.rows a, r₀.serial = r.serial ∧
        (r₀.post.withdrawn = true → r.post.withdrawn = true)

theorem Later.refl (s : Feeds) : Later s s :=
  fun _ => ⟨Nat.le_refl _, fun r hr => .inr ⟨r, hr, rfl, id⟩⟩

theorem Later.trans {s₁ s₂ s₃ : Feeds} (h : Later s₁ s₂) (h' : Later s₂ s₃) : Later s₁ s₃ := by
  intro a
  refine ⟨(h a).1.trans (h' a).1, fun r hr => ?_⟩
  rcases (h' a).2 r hr with hnew | ⟨r₂, hr₂, hserial, hgone⟩
  · exact .inl (Nat.lt_of_le_of_lt (h a).1 hnew)
  · rcases (h a).2 r₂ hr₂ with hnew | ⟨r₁, hr₁, hserial', hgone'⟩
    · exact .inl (by omega)
    · exact .inr ⟨r₁, hr₁, hserial'.trans hserial, fun hw => hgone (hgone' hw)⟩

theorem Later.of_elsewhere (hnewest : (s.headOf a).newest ≤ (s'.headOf a).newest)
    (hrows : ∀ r ∈ s'.rows a, (s.headOf a).newest < r.serial ∨
      ∃ r₀ ∈ s.rows a, r₀.serial = r.serial ∧
        (r₀.post.withdrawn = true → r.post.withdrawn = true))
    (hother : ∀ b ≠ a, s'.headOf b = s.headOf b ∧ s'.rows b = s.rows b) : Later s s' := by
  intro b
  by_cases hb : b = a
  · subst hb
    exact ⟨hnewest, hrows⟩
  · rw [(hother b hb).1, (hother b hb).2]
    exact Later.refl s b

theorem later_perform (hs : Booked s) (now : UInt64) (act : Act) :
    Later s (perform C s now act) := by
  have hboth : Booked (perform C s now act) ∧ Later s (perform C s now act) := by
    refine perform_induction (P := fun s' => Booked s' ∧ Later s s') (fun _ h => h.1)
      (fun t r h hr _ => ⟨h.1.stoned hr, h.2.trans ?_⟩)
      (fun p before rest t' h _ haccept hspec => ⟨hspec.books h.1 haccept, h.2.trans ?_⟩)
      (fun a retentionSecs _ listed h _ hmax =>
        ⟨h.1.withPolicy a retentionSecs listed _ hmax, h.2.trans ?_⟩)
      (fun t f h => ⟨h.1.sweepFeed now f, h.2.trans ?_⟩) ⟨hs, Later.refl s⟩
    · refine Later.of_elsewhere (a := r.account)
        (by rw [headOf_stoned (h.1 r.account).posts hr]) (fun x hx => ?_)
        fun b hb => ⟨headOf_stoned_other hb, rows_stoned_other hb⟩
      rw [rows_stoned] at hx
      obtain ⟨y, hy, rfl⟩ := List.mem_map.mp hx
      refine .inr ⟨y, hy, ?_, fun hw => ?_⟩
      · split <;> rfl
      · split
        · rfl
        · exact hw
    · obtain ⟨-, -, hserial, -⟩ := accept_ok haccept
      refine Later.of_elsewhere (a := p.account) ?_ (fun x hx => ?_) hspec.other
      · rw [hspec.head]
        dsimp only
        omega
      · rw [hspec.rows] at hx
        have hmem : x ∈ s.rows p.account ++ [arriving p now] := by
          rw [hspec.split]
          exact List.mem_append_right _ hx
        rcases mem_concat.mp hmem with hold | rfl
        · exact .inr ⟨x, hold, rfl, id⟩
        · refine .inl ?_
          simp only [arriving]
          omega
    · intro b
      rw [Feeds.withPolicy, headOf_insert]
      split
      · rename_i hab
        subst hab
        exact Later.refl s a
      · exact Later.refl s b
    · rcases sweepFeed_cases now f h.1 with hsame | ⟨hrows, hhead, hother⟩
      · rw [hsame]
        exact Later.refl t
      · refine Later.of_elsewhere (a := f.1) (by rw [hhead]) (fun x hx => ?_) hother
        rw [hrows] at hx
        exact .inr ⟨x, List.mem_of_mem_filter hx, rfl, id⟩
  exact hboth.2

def step (C : Crypto) (s : Feeds) (i : UInt64 × Act) : Feeds := perform C s i.1 i.2

def accepts (C : Crypto) (s : Feeds) : UInt64 × Act → List (PubKey × Nat)
  | (now, .append a p) =>
    match (append C a p now).result (.clean s) with
    | .ok (serial, _) => [(a, serial)]
    | .error _ => []
  | _ => []

theorem run_booked (hs : Booked s) (acts : List (UInt64 × Act)) : Booked (run (step C) s acts) :=
  run_invariant (fun _ i hs => hs.perform i.1 i.2) hs acts

theorem run_later (hs : Booked s) (acts : List (UInt64 × Act)) :
    Later s (run (step C) s acts) := by
  induction acts generalizing s with
  | nil => exact Later.refl s
  | cons i acts ih => exact (later_perform hs i.1 i.2).trans (ih (hs.perform i.1 i.2))

theorem feed_kept {acts : List (UInt64 × Act)} (hs : Kept C clock s)
    (hstart : ∀ i ∈ acts, clock ≤ i.1) (htimes : acts.Pairwise fun i j => i.1 ≤ j.1)
    (hcolumn : ∀ i ∈ acts, i.1.toNat < 2 ^ 63) :
    Always (fun s => ∃ clock, Kept C clock s) (step C) s acts := by
  induction acts generalizing clock s with
  | nil => exact ⟨clock, hs⟩
  | cons i acts ih =>
    obtain ⟨hi, hrest⟩ := List.pairwise_cons.mp htimes
    have hle : clock.toInt64 ≤ i.1.toInt64 := by
      have hnat := UInt64.le_iff_toNat_le.mp (hstart i (by simp))
      have hi := hcolumn i (by simp)
      rw [Int64.le_iff_toInt_le, column_toInt (by omega), column_toInt hi]
      omega
    exact ⟨⟨clock, hs⟩, ih (hs.perform hle i.2) hi hrest fun j hj => hcolumn j (by simp [hj])⟩

theorem append_result {p : Post} (hs : Booked s) :
    (append C a p now).result (.clean s) =
      match s.accept C a p with
      | .ok () => .ok (p.serial.toNat, p.link C)
      | .error e => .error e := by
  cases haccept : s.accept C a p with
  | error e => rw [Call.result, append_error (d := .clean s) haccept]
  | ok => rw [Call.result, append_clean hs haccept now]

theorem accepts_next (hs : Booked s) (i : UInt64 × Act) {k : PubKey × Nat}
    (hk : k ∈ accepts C s i) :
    ∃ p, i.2 = .append k.1 p ∧ s.accept C k.1 p = .ok () ∧ k.2 = (s.headOf k.1).newest + 1 ∧
      k.2 = ((step C s i).headOf k.1).newest := by
  obtain ⟨now, act⟩ := i
  cases act with
  | append a p =>
    rw [accepts, append_result hs] at hk
    cases haccept : s.accept C a p with
    | error e => simp [haccept] at hk
    | ok =>
      obtain rfl : k = (a, p.serial.toNat) := by simpa [haccept] using hk
      obtain ⟨rfl, -, hserial, -⟩ := accept_ok haccept
      obtain ⟨-, before, rest, hspec⟩ := appending_spec hs haccept now
      refine ⟨p, rfl, haccept, hserial, ?_⟩
      rw [step, perform_append hs, haccept, hspec.head]
  | withdraw | set | read | sweep => simp [accepts] at hk

/-- A feed is a log: its rows are the serials from the oldest to the newest, or none and then
the oldest is 0; they are counted, and each links to the one before it. -/
structure IsLog (C : Crypto) (h : HeadRow) (rows : List PostRow) : Prop where
  numbered : rows.map (·.serial) =
    if rows = [] then [] else List.range' h.oldest (h.newest + 1 - h.oldest)
  empty : rows = [] → h.oldest = 0
  posts : h.posts = rows.length
  bytes : h.bytes = (rows.map (·.post.encode.length)).sum
  linked : rows.IsChain fun r r' => r'.post.prev = r.post.link C

theorem Kept.isLog (hs : Kept C clock s) (a : PubKey) : IsLog C (s.headOf a) (s.rows a) where
  numbered := by
    have hnumbered := (hs.2 a).numbered
    have hserials : (s.rows a).map (·.serial) =
        List.range' (s.headOf a).oldest (s.rows a).length := by
      simpa [PostRow.frame, Function.comp_def] using hnumbered
    rw [hserials]
    split
    · rename_i hempty
      simp [hempty]
    · rename_i hrows
      have hends := (hs.2 a).ends (by simpa using hrows)
      rw [List.length_map] at hends
      congr 1
      omega
  empty hempty := (hs.2 a).empty (by simp [hempty])
  posts := (hs.1 a).posts
  bytes := by
    simp only [Post.length_encode]
    exact (hs.1 a).bytes
  linked := List.isChain_map _ |>.mp (hs.2 a).linked

def WithinCaps (h : HeadRow) : Prop := h.posts ≤ h.maxPosts ∧ h.bytes ≤ maxFeedBytes

theorem accepts_withinCaps (hs : Booked s) (i : UInt64 × Act) :
    ∀ k ∈ accepts C s i, WithinCaps ((step C s i).headOf k.1) := by
  intro k hk
  obtain ⟨p, hact, haccept, -⟩ := accepts_next hs i hk
  obtain ⟨now, act⟩ := i
  obtain rfl : act = .append k.1 p := hact
  obtain ⟨haccount, hbody, -⟩ := accept_ok haccept
  rw [← haccount] at haccept ⊢
  obtain ⟨-, before, rest, hspec⟩ := appending_spec hs haccept now
  have hcap := (hs p.account).cap
  rw [step, perform_append hs, haccept, hspec.head]
  rcases hspec.caps with hcaps | hone
  · exact hcaps
  · -- the post that arrived is the only one left
    have hlast : rest = [arriving p now] := by
      obtain ⟨r, rfl⟩ := List.length_eq_one_iff.mp hone
      have hsplit := congrArg List.getLast? hspec.split
      simpa using hsplit.symm
    have hstored : p.stored ≤ maxFeedBytes := by
      unfold Post.stored maxFeedBytes postHeader
      unfold maxBody at hbody
      omega
    simpa [WithinCaps, hlast, arriving] using ⟨hcap, hstored⟩

/-- Over every run at times that do not go back, each feed is a log at every moment; no serial
is accepted twice and the newest never goes down; after each append the caps hold; and a post
that lost its body never has one again. -/
theorem feeds_are_logs (C : Crypto) (acts : List (UInt64 × Act))
    (htimes : acts.Pairwise fun i j => i.1 ≤ j.1) (hcolumn : ∀ i ∈ acts, i.1.toNat < 2 ^ 63) :
    Always (fun s => ∀ a, IsLog C (s.headOf a) (s.rows a)) (step C) opened acts ∧
      (emitted (accepts C) (step C) opened acts).Nodup ∧
      Each (fun s i => (∀ a, (s.headOf a).newest ≤ ((step C s i).headOf a).newest) ∧
        ∀ k ∈ accepts C s i, WithinCaps ((step C s i).headOf k.1)) (step C) opened acts ∧
      ∀ before rest, acts = before ++ rest → ∀ r ∈ (run (step C) opened before).post,
        r.post.withdrawn = true → ∀ r' ∈ (run (step C) opened acts).post,
          r'.account = r.account → r'.serial = r.serial → r'.post.withdrawn = true := by
  refine ⟨?_, ?_, ?_, ?_⟩
  · have hkept := @feed_kept C 0 _ _ kept_opened
      (fun i _ => UInt64.le_iff_toNat_le.mpr (Nat.zero_le _)) htimes hcolumn
    exact hkept.imp fun s ⟨clock, hs⟩ a => hs.isLog a
  · have hkept : ∀ (s : Feeds) (i : UInt64 × Act), Booked s → ∀ k : PubKey × Nat,
        k.2 ≤ (s.headOf k.1).newest → k.2 ≤ ((step C s i).headOf k.1).newest :=
      fun s i hs k hk => hk.trans (later_perform hs i.1 i.2 k.1).1
    refine (emitted_fresh (fun s i hs => hs.perform i.1 i.2) (fun s i hs => ⟨?_, fun k hk => ?_⟩)
      hkept booked_opened acts).1
    · unfold accepts
      split
      · split <;> simp
      · exact List.nodup_nil
    · obtain ⟨p, -, -, hnext, hnewest⟩ := accepts_next hs i hk
      exact ⟨by omega, by omega⟩
  · have hall : Each (fun _ _ => True) (step C) opened acts :=
      each_of_mem (fun _ _ _ => trivial) opened
    exact hall.imp_of (P := Booked) (fun s i hs _ => hs.perform i.1 i.2)
      (fun s i hs _ => ⟨fun a => (later_perform hs i.1 i.2 a).1, accepts_withinCaps hs i⟩)
      booked_opened
  · rintro before rest rfl r hr hgone r' hr' haccount hserial
    have hbooked := run_booked (C := C) booked_opened before
    have hlater := run_later (C := C) hbooked rest
    rw [run_append] at hr'
    rcases (hlater r.account).2 r' (mem_rows.mpr ⟨hr', haccount⟩) with hnew | ⟨r₀, hr₀, hsame, hw⟩
    · have hle := (hbooked r.account).below r (mem_rows.mpr ⟨hr, rfl⟩)
      omega
    · obtain rfl := (hbooked r.account).unique hr₀ (mem_rows.mpr ⟨hr, rfl⟩) (hsame.trans hserial)
      exact hw hgone

section Edges

def author : PubKey := Crypto.toy.publicKey 1

def authored (serial : UInt64) (prev : Bytes32) (body : Bytes) : Post :=
  let p : Post := ⟨author, author, serial, prev, 0, 0, 0, Crypto.toy.sha256 body, body, 0⟩
  { p with signature := Crypto.toy.sign 1 (p.inputHashed .toy p.bodyHash) }

def firstPost : Post := authored 1 genesis [7]

def secondPost : Post := authored 2 (firstPost.link .toy) [8]

def withdrawing : List (UInt64 × Act) :=
  [(1, .append author firstPost), (2, .withdraw author 1), (3, .append author secondPost)]

/-- A post is withdrawn and stays so through the next, which has a number of its own. -/
theorem withdrawing_is_log :
    Always (fun s => ∀ a, IsLog .toy (s.headOf a) (s.rows a)) (step .toy) opened withdrawing ∧
      emitted (accepts .toy) (step .toy) opened withdrawing = [(author, 1), (author, 2)] ∧
      (emitted (accepts .toy) (step .toy) opened withdrawing).Nodup ∧
      ∀ r ∈ (run (step .toy) opened withdrawing).post, r.account = author → r.serial = 1 →
        r.post.withdrawn = true := by
  obtain ⟨hlog, hnodup, -, hwithdrawn⟩ :=
    feeds_are_logs .toy withdrawing (by simp [withdrawing]) (by simp [withdrawing])
  have hgone : (run (step .toy) opened (withdrawing.take 2)).post.any (fun r =>
      decide (r.account = author ∧ r.serial = 1 ∧ r.post.withdrawn = true)) = true := by
    decide +kernel
  obtain ⟨r, hr, hgone⟩ := List.any_eq_true.mp hgone
  obtain ⟨haccount, hserial, hgone⟩ := of_decide_eq_true hgone
  exact ⟨hlog, by decide +kernel, hnodup, fun r' hr' haccount' hserial' =>
    hwithdrawn (withdrawing.take 2) (withdrawing.drop 2) rfl r hr hgone r' hr'
      (haccount'.trans haccount.symm) (hserial'.trans hserial.symm)⟩

/-- A policy set, and no post: the feed's numbers run from 0 to 0. -/
def onlySet : List (UInt64 × Act) := [(1, .set author 3600 10 false)]

/-- A post on each side of 2^63, and a sweep after: the second reads as the older. -/
def acrossSign : List (UInt64 × Act) :=
  [(1, .set author 3600 10 false), (9223372036854775807, .append author firstPost),
    (9223372036854775808, .append author secondPost),
    (9223372036854779409, .sweep)]

def heldBy (acts : List (UInt64 × Act)) : HeadRow × List PostRow :=
  let s := run (step .toy) opened acts
  (s.headOf author, s.rows author)

/-- A feed holds nothing from 0 to 0; a post counts for its header and its signature too; and
past 2^63 a sweep takes the newest post and leaves the one before. -/
theorem log_edges :
    (heldBy onlySet).2.map (·.serial) ≠
        List.range' (heldBy onlySet).1.oldest
          ((heldBy onlySet).1.newest + 1 - (heldBy onlySet).1.oldest) ∧
      (heldBy [(1, .append author firstPost)]).1.bytes ≠
        ((heldBy [(1, .append author firstPost)]).2.map (·.post.body.length)).sum ∧
      (heldBy acrossSign).1.newest = 2 ∧ (heldBy acrossSign).2.map (·.serial) = [1] := by
  decide +kernel

end Edges

end Feeds
end Sqex.Feed
