import Sqex.Exchange.Feeds
import Sqex.Lib.Collections

/-! What each statement does to one feed, and the counters: at any times at all, a feed's head
says how many posts are held and how many bytes they take. -/
namespace Sqex.Feed
open Std
variable {C : Crypto} {a b : PubKey} {n : Nat}

namespace Feeds
variable {s s' : Feeds} {r : PostRow}

theorem rows_append (post rest : List PostRow) (feed : ExtTreeMap PubKey HeadRow) :
    (Feeds.mk feed (post ++ rest)).rows a =
      (Feeds.mk feed post).rows a ++ rest.filter (·.account == a) := List.filter_append ..

theorem mem_rows : r ∈ s.rows a ↔ r ∈ s.post ∧ r.account = a := by simp [rows]

theorem rows_deletePost :
    (deletePost a n s).rows a = (s.rows a).filter fun r => decide (r.serial ≠ n) := by
  rw [rows, deletePost, List.filter_filter, rows, List.filter_filter]
  refine List.filter_congr fun r _ => ?_
  by_cases hr : r.account = a <;> by_cases hn : r.serial = n <;> simp [PostRow.isKey, hr, hn]

theorem rows_deletePost_other (hb : b ≠ a) : (deletePost a n s).rows b = s.rows b := by
  rw [rows, deletePost, List.filter_filter, rows]
  refine List.filter_congr fun r _ => ?_
  by_cases hr : r.account = b <;> simp [PostRow.isKey, hr, hb]

def stonedAt (n : Nat) (rows : List PostRow) : List PostRow :=
  rows.map fun r => if r.serial = n then r.stone else r

theorem rows_writeStone : (writeStone a n s).rows a = stonedAt n (s.rows a) := by
  rw [rows, writeStone, List.filter_map, stonedAt, rows]
  have hsame : ((fun r : PostRow => r.account == a) ∘
      fun r : PostRow => if r.isKey a n then r.stone else r) = fun r => r.account == a := by
    funext r
    simp only [Function.comp]
    split <;> rfl
  rw [hsame]
  refine List.map_congr_left fun r hr => ?_
  have haccount : r.account = a := by simpa using (List.mem_filter.mp hr).2
  simp [PostRow.isKey, haccount]

theorem rows_writeStone_other (hb : b ≠ a) : (writeStone a n s).rows b = s.rows b := by
  rw [rows, writeStone, List.filter_map, rows]
  have hsame : ((fun r : PostRow => r.account == b) ∘
      fun r : PostRow => if r.isKey a n then r.stone else r) = fun r => r.account == b := by
    funext r
    simp only [Function.comp]
    split <;> rfl
  rw [hsame]
  have hid : ∀ r ∈ s.post.filter (·.account == b), (if r.isKey a n then r.stone else r) = r := by
    intro r hr
    have haccount : r.account = b := by simpa using (List.mem_filter.mp hr).2
    simp [PostRow.isKey, haccount, hb]
  rw [List.map_congr_left hid, List.map_id']

@[simp] theorem rows_updateHead (f : HeadRow → HeadRow) :
    (updateHead a f s).rows b = s.rows b := rfl

theorem headOf_updateHead {f : HeadRow → HeadRow} (ha : (s.feed[a]?).isSome) :
    (updateHead a f s).headOf a = f (s.headOf a) := by
  obtain ⟨h, hh⟩ := Option.isSome_iff_exists.mp ha
  simp [headOf, updateHead, hh]

theorem headOf_updateHead_other {f : HeadRow → HeadRow} (hb : b ≠ a) :
    (updateHead a f s).headOf b = s.headOf b := by
  have hcompare : ¬ compare a b = .eq := by
    rw [LawfulEqCmp.compare_eq_iff_eq]
    exact Ne.symm hb
  rw [headOf, updateHead, ExtTreeMap.getElem?_alter, if_neg hcompare, headOf]

theorem headOf_insert (h : HeadRow) (post : List PostRow) :
    (Feeds.mk (s.feed.insert a h) post).headOf b = if a = b then h else s.headOf b := by
  rw [headOf, lookup_insert]
  split <;> rfl

end Feeds

/-- The head's counters are those of the rows, which are numbered in order and not past it. -/
structure Books (h : HeadRow) (rows : List PostRow) : Prop where
  ascending : rows.Pairwise fun r r' => r.serial < r'.serial
  below : ∀ r ∈ rows, r.serial ≤ h.newest
  small : ∀ r ∈ rows, r.post.body.length ≤ maxBody
  posts : h.posts = rows.length
  bytes : h.bytes = (rows.map (·.post.stored)).sum
  cap : 1 ≤ h.maxPosts

namespace Books
variable {h h' : HeadRow} {rows : List PostRow} {r : PostRow}

theorem absent : Books .absent [] :=
  ⟨List.Pairwise.nil, by simp, by simp, rfl, rfl, by decide⟩

theorem of_head (hbooks : Books h rows) (hnewest : h.newest ≤ h'.newest)
    (hposts : h'.posts = h.posts) (hbytes : h'.bytes = h.bytes) (hcap : 1 ≤ h'.maxPosts) :
    Books h' rows where
  ascending := hbooks.ascending
  below r hr := (hbooks.below r hr).trans hnewest
  small := hbooks.small
  posts := hposts.trans hbooks.posts
  bytes := hbytes.trans hbooks.bytes
  cap := hcap

theorem unique (hbooks : Books h rows) {r' : PostRow} (hr : r ∈ rows) (hr' : r' ∈ rows)
    (hserial : r.serial = r'.serial) : r = r' := by
  have hnodup : (rows.map (·.serial)).Nodup :=
    List.pairwise_map.mpr (hbooks.ascending.imp fun hlt => Nat.ne_of_lt hlt)
  exact List.inj_on_of_nodup_map hnodup hr hr' hserial

theorem stored_stonedAt (hbooks : Books h rows) (hr : r ∈ rows) :
    ((Feeds.stonedAt r.serial rows).map (·.post.stored)).sum + r.post.body.length =
      (rows.map (·.post.stored)).sum := by
  obtain ⟨before, rest, rfl⟩ := List.append_of_mem hr
  have hascending := List.pairwise_append.mp hbooks.ascending
  have hrest := List.pairwise_cons.mp hascending.2.1
  have hkeep : ∀ xs : List PostRow, (∀ x ∈ xs, x.serial ≠ r.serial) →
      Feeds.stonedAt r.serial xs = xs := by
    intro xs hxs
    have hid : ∀ x ∈ xs, (if x.serial = r.serial then x.stone else x) = x :=
      fun x hx => if_neg (hxs x hx)
    rw [Feeds.stonedAt, List.map_congr_left hid, List.map_id']
  have hb := hkeep before fun x hx => Nat.ne_of_lt (hascending.2.2 x hx r (by simp))
  have hl := hkeep rest fun x hx => Ne.symm (Nat.ne_of_lt (hrest.1 x hx))
  have hone : Feeds.stonedAt r.serial (before ++ r :: rest) = before ++ r.stone :: rest := by
    rw [← List.singleton_append, Feeds.stonedAt, List.map_append, List.map_append]
    change Feeds.stonedAt _ before ++ ([_] ++ Feeds.stonedAt _ rest) = _
    rw [hb, hl]
    simp
  have hstone := r.post.stored_tombstone
  have hrow : r.stone.post.stored = r.post.tombstone.stored := rfl
  simp only [hone, List.map_append, List.sum_append, List.map_cons, List.sum_cons, hrow]
  omega

theorem stoned (hbooks : Books h rows) (hr : r ∈ rows) :
    Books { h with bytes := h.bytes - r.post.body.length } (Feeds.stonedAt r.serial rows) where
  ascending := by
    refine List.pairwise_map.mpr (hbooks.ascending.imp fun {x y} hxy => ?_)
    split <;> split <;> exact hxy
  below x hx := by
    obtain ⟨y, hy, rfl⟩ := List.mem_map.mp hx
    split <;> exact hbooks.below y hy
  small x hx := by
    obtain ⟨y, hy, rfl⟩ := List.mem_map.mp hx
    split
    · exact Nat.zero_le _
    · exact hbooks.small y hy
  posts := by simpa [Feeds.stonedAt] using hbooks.posts
  bytes := by
    have hsum := hbooks.stored_stonedAt hr
    have hbytes := hbooks.bytes
    dsimp only
    omega
  cap := hbooks.cap

theorem sublist {rest : List PostRow} (hbooks : Books h rows) (hrest : rest.Sublist rows)
    (oldest : Nat) :
    Books { h with
      oldest, posts := rest.length, bytes := (rest.map (·.post.stored)).sum } rest where
  ascending := hbooks.ascending.sublist hrest
  below r hr := hbooks.below r (hrest.subset hr)
  small r hr := hbooks.small r (hrest.subset hr)
  posts := rfl
  bytes := rfl
  cap := hbooks.cap

theorem snoc (hbooks : Books h rows) (hserial : r.serial = h.newest + 1)
    (hsmall : r.post.body.length ≤ maxBody) (oldest : Nat) (headInput : Bytes32) :
    Books { h with
      oldest, newest := r.serial, headInput, posts := h.posts + 1
      bytes := h.bytes + r.post.stored } (rows ++ [r]) where
  ascending := by
    refine List.pairwise_append.mpr ⟨hbooks.ascending, by simp, fun x hx y hy => ?_⟩
    obtain rfl := List.mem_singleton.mp hy
    have hx := hbooks.below x hx
    omega
  below x hx := by
    rcases List.mem_append.mp hx with hx | hx
    · have hx := hbooks.below x hx
      dsimp only
      omega
    · obtain rfl := List.mem_singleton.mp hx
      exact Nat.le_refl _
  small x hx := by
    rcases List.mem_append.mp hx with hx | hx
    · exact hbooks.small x hx
    · obtain rfl := List.mem_singleton.mp hx
      exact hsmall
  posts := by simp [hbooks.posts]
  bytes := by simp [hbooks.bytes]
  cap := hbooks.cap

end Books

/-- What the eviction loop leaves of rows that end with the newest: those from some row on,
with their counters, within the caps or the newest alone. -/
theorem Feeds.evict_spec {max newest posts bytes oldest : Nat} {rows : List PostRow}
    (hlast : ∀ r, rows.getLast? = some r → r.serial = newest)
    (hascending : rows.Pairwise fun r r' => r.serial < r'.serial)
    (hposts : posts = rows.length) (hbytes : bytes = (rows.map (·.post.stored)).sum)
    (hrows : rows ≠ []) :
    ∃ before rest, rows = before ++ rest ∧ rest ≠ [] ∧
      (evict max newest rows posts bytes oldest).gone = before.map (·.serial) ∧
      (evict max newest rows posts bytes oldest).posts = rest.length ∧
      (evict max newest rows posts bytes oldest).bytes = (rest.map (·.post.stored)).sum ∧
      (rest.length ≤ max ∧ (rest.map (·.post.stored)).sum ≤ maxFeedBytes ∨ rest.length = 1) := by
  induction rows generalizing posts bytes oldest with
  | nil => exact absurd rfl hrows
  | cons r rest ih =>
    rw [evict]
    split
    · split
      · -- the newest post is the last row, so nothing follows it
        rename_i hnewest
        refine ⟨[], r :: rest, rfl, hrows, rfl, hposts, hbytes, .inr ?_⟩
        cases hrest : rest.getLast? with
        | none => simp [List.getLast?_eq_none_iff.mp hrest]
        | some x =>
          have hx := hlast x (by simp [List.getLast?_cons, hrest])
          have hlt := (List.pairwise_cons.mp hascending).1 x (List.mem_of_getLast? hrest)
          omega
      · rename_i hne
        have hrest : rest ≠ [] := by
          rintro rfl
          exact hne (hlast r rfl)
        obtain ⟨before, left, hsplit, hleft, hgone, hp, hb, hcaps⟩ := @ih
          (posts - 1) (bytes - r.post.stored) (r.serial + 1)
          (fun x hx => hlast x (by simp [List.getLast?_cons, hx]))
          (List.pairwise_cons.mp hascending).2 (by simp [hposts]) (by simp [hbytes]) hrest
        exact ⟨r :: before, left, by simp [hsplit], hleft, by simp [hgone], hp, hb, hcaps⟩
    · rename_i hcaps
      refine ⟨[], r :: rest, rfl, hrows, rfl, hposts, hbytes, .inl ?_⟩
      rw [← hposts, ← hbytes]
      omega

/-- Rows numbered without a gap: the oldest left follows those that went. -/
theorem Feeds.evict_oldest {max newest posts bytes oldest : Nat} {rows : List PostRow}
    (hnumbered : rows.map (·.serial) = List.range' oldest rows.length) :
    (evict max newest rows posts bytes oldest).oldest =
      oldest + (evict max newest rows posts bytes oldest).gone.length := by
  induction rows generalizing posts bytes oldest with
  | nil => rfl
  | cons r rest ih =>
    rw [List.map_cons, List.length_cons, List.range'_succ] at hnumbered
    obtain ⟨hserial, hrest⟩ := List.cons.inj hnumbered
    rw [evict]
    split
    · split
      · rfl
      · have hlater := @ih (posts - 1) (bytes - r.post.stored) _ hrest
        rw [← hserial] at hlater
        simp only [List.length_cons]
        rw [hlater]
        omega
    · rfl

namespace Feeds
variable {s s' : Feeds} {r : PostRow} {p : Post} {now : UInt64}

def Booked (s : Feeds) : Prop := ∀ a, Books (s.headOf a) (s.rows a)

theorem booked_opened : Booked opened := fun a => by
  have hhead : opened.headOf a = .absent := by simp [opened, headOf]
  rw [hhead]
  exact Books.absent

theorem isSome_of_mem (hposts : (s.headOf a).posts = (s.rows a).length) (hr : r ∈ s.rows a) :
    (s.feed[a]?).isSome := by
  by_contra hnone
  have hfeed : s.feed[a]? = none := by simpa using hnone
  have hlength := List.length_pos_of_mem hr
  simp only [headOf, hfeed, Option.getD_none, HeadRow.absent] at hposts
  omega

theorem Booked.of_elsewhere (hs : Booked s) (ha : Books (s'.headOf a) (s'.rows a))
    (hother : ∀ b ≠ a, s'.headOf b = s.headOf b ∧ s'.rows b = s.rows b) : Booked s' := by
  intro b
  by_cases hb : b = a
  · rw [hb]
    exact ha
  · rw [(hother b hb).1, (hother b hb).2]
    exact hs b

section Stoning

def stoned (r : PostRow) (s : Feeds) : Feeds := Faulty.applied (stoning r) s

theorem rows_stoned : (stoned r s).rows r.account = stonedAt r.serial (s.rows r.account) :=
  rows_writeStone

theorem rows_stoned_other (hb : b ≠ r.account) : (stoned r s).rows b = s.rows b :=
  rows_writeStone_other hb

theorem headOf_stoned (hposts : (s.headOf r.account).posts = (s.rows r.account).length)
    (hr : r ∈ s.post) :
    (stoned r s).headOf r.account =
      { s.headOf r.account with
        bytes := (s.headOf r.account).bytes - r.post.body.length } := by
  have hsome : (s.feed[r.account]?).isSome := isSome_of_mem hposts (mem_rows.mpr ⟨hr, rfl⟩)
  exact headOf_updateHead (s := writeStone r.account r.serial s) hsome

theorem headOf_stoned_other (hb : b ≠ r.account) : (stoned r s).headOf b = s.headOf b :=
  headOf_updateHead_other (s := writeStone r.account r.serial s) hb

theorem Booked.stoned (hs : Booked s) (hr : r ∈ s.post) : Booked (Feeds.stoned r s) := by
  refine hs.of_elsewhere (a := r.account) ?_ fun b hb =>
    ⟨headOf_stoned_other hb, rows_stoned_other hb⟩
  rw [headOf_stoned (hs r.account).posts hr, rows_stoned]
  exact (hs r.account).stoned (mem_rows.mpr ⟨hr, rfl⟩)

theorem distinct_keys (hs : Booked s) :
    s.post.Pairwise fun x y => ¬ (x.account = y.account ∧ x.serial = y.serial) := by
  have hfrom : ∀ xs : List PostRow,
      (∀ a, (xs.filter (·.account == a)).Pairwise fun x y => x.serial < y.serial) →
      xs.Pairwise fun x y => ¬ (x.account = y.account ∧ x.serial = y.serial) := by
    intro xs
    induction xs with
    | nil => exact fun _ => List.Pairwise.nil
    | cons x xs ih =>
      intro h
      refine List.pairwise_cons.mpr ⟨fun y hy hsame => ?_, ih fun a => ?_⟩
      · have hx := h x.account
        rw [List.filter_cons_of_pos (by simp)] at hx
        have hlt := (List.pairwise_cons.mp hx).1 y (by simp [hy, hsame.1])
        omega
      · exact (h a).sublist ((List.sublist_cons_self x xs).filter _)
  exact hfrom s.post fun a => (hs a).ascending

theorem mem_writeStone {x : PostRow} (hx : x ∈ s.post)
    (hkey : ¬ (x.account = a ∧ x.serial = n)) : x ∈ (writeStone a n s).post :=
  List.mem_map.mpr ⟨x, hx, by simpa [PostRow.isKey] using fun ha hn => absurd ⟨ha, hn⟩ hkey⟩

theorem stoning_induction {P : List PostRow → Feeds → Prop}
    (hstone : ∀ s r rs, P (r :: rs) s → r ∈ s.post → r.post.body ≠ [] → P rs (Feeds.stoned r s))
    {rs : List PostRow} (hP : P rs s) (hmem : ∀ r ∈ rs, r ∈ s.post ∧ r.post.body ≠ [])
    (hdistinct : rs.Pairwise fun x y => ¬ (x.account = y.account ∧ x.serial = y.serial)) :
    P [] (Faulty.applied (rs.flatMap stoning) s) := by
  induction rs generalizing s with
  | nil => exact hP
  | cons r rs ih =>
    obtain ⟨hr, hrest⟩ := List.pairwise_cons.mp hdistinct
    obtain ⟨hrmem, hbody⟩ := hmem r (by simp)
    rw [List.flatMap_cons, Faulty.applied_append]
    refine ih (hstone s r rs hP hrmem hbody) (fun x hx => ⟨?_, (hmem x (by simp [hx])).2⟩) hrest
    exact mem_writeStone (hmem x (by simp [hx])).1 fun hkey => hr x hx ⟨hkey.1.symm, hkey.2.symm⟩

theorem expiring_induction {P : Feeds → Prop}
    (hstone : ∀ s r, P s → r ∈ s.post → r.post.body ≠ [] → P (Feeds.stoned r s)) (hP : P s)
    {rs : List PostRow} (hmem : ∀ r ∈ rs, r ∈ s.post ∧ r.post.body ≠ [])
    (hdistinct : rs.Pairwise fun x y => ¬ (x.account = y.account ∧ x.serial = y.serial)) :
    P (Faulty.applied (rs.flatMap stoning) s) :=
  stoning_induction (P := fun _ s => P s) (fun s r _ => hstone s r) hP hmem hdistinct

theorem due_spec (hs : Booked s) (now : UInt64) :
    (∀ r ∈ s.due now, r ∈ s.post ∧ r.post.body ≠ []) ∧
      (s.due now).Pairwise fun x y => ¬ (x.account = y.account ∧ x.serial = y.serial) := by
  refine ⟨fun r hr => ?_, (distinct_keys hs).sublist List.filter_sublist⟩
  obtain ⟨hmem, hdue⟩ := List.mem_filter.mp hr
  refine ⟨hmem, fun hempty => ?_⟩
  simp [Post.stored, hempty] at hdue

end Stoning

section Clean

theorem expire_clean :
    expire now (.clean s) = (.ok (), .clean (Faulty.applied (s.expiring now) s)) :=
  Faulty.tryAll_clean

theorem after_expire : after (expire now) s = Faulty.applied (s.expiring now) s := by
  rw [after, Call.after, expire_clean]
  rfl

theorem after_withdraw (a : PubKey) (n : Nat) (now : UInt64) (s : Feeds) :
    after (withdraw a n now) s = after (expire now) s ∨
      ∃ r ∈ (after (expire now) s).post, r.post.body ≠ [] ∧
        after (withdraw a n now) s = stoned r (after (expire now) s) := by
  have hexpire : expire now (.clean s) = (.ok (), .clean (after (expire now) s)) := by
    rw [after_expire]
    exact Faulty.tryAll_clean
  have hresult : (expire now).result (.clean s) = .ok () := by rw [Call.result, hexpire]
  have hclean : (expire now).after (.clean s) = .clean (after (expire now) s) := by
    rw [Call.after, hexpire]
  rw [after, Call.after, withdraw, Call.bind_ok hresult, hclean, Call.get_bind]
  dsimp only [Faulty.clean]
  cases hfind : (after (expire now) s).post.find? (PostRow.isKey a n) with
  | none => exact .inl rfl
  | some r =>
    by_cases hgone : r.post.withdrawn = true
    · simp only [hgone, if_true]
      exact .inl rfl
    · have hrow := List.mem_of_find?_eq_some hfind
      refine .inr ⟨r, hrow, by simpa [Post.withdrawn] using hgone, ?_⟩
      simp only [hgone]
      have hall := Faulty.execAll_clean (e := FeedError.storage)
        (Faulty.succeed_map [writeStone r.account r.serial,
          freeBytes r.account r.post.body.length] (after (expire now) s))
      change (Faulty.execAll FeedError.storage (stoning r)
        (.clean (after (expire now) s))).2.store = _
      rw [stoning, hall]
      rfl

end Clean

section Appending

theorem accept_ok (h : s.accept C a p = .ok ()) :
    p.account = a ∧ p.body.length ≤ maxBody ∧ p.serial.toNat = (s.headOf a).newest + 1 ∧
      p.prev = (s.headOf a).headInput := by
  unfold accept at h
  split at h
  · simp at h
  rename_i haccount
  split at h
  · simp at h
  split at h
  · simp at h
  rename_i hbody
  split at h
  · simp at h
  split at h
  · simp at h
  split at h
  · simp at h
  rename_i hserial
  split at h
  · simp at h
  rename_i hprev
  exact ⟨by simpa using haccount, by omega, by simpa using hserial, by simpa using hprev⟩

theorem append_error {e : FeedError} {d : Faulty Feeds} (h : d.store.accept C a p = .error e) :
    append C a p now d = (.error e, d) := by
  change (ofExcept (d.store.accept C a p) >>= _ : FeedM _) d = _
  rw [h]
  rfl

theorem append_admitted {d : Faulty Feeds} (h : d.store.accept C a p = .ok ()) :
    append C a p now d = (Faulty.execAll .storage (d.store.appending C p now) >>= fun _ =>
      (pure (p.serial.toNat, p.link C) : FeedM (Nat × Bytes32))) d := by
  change (ofExcept (d.store.accept C a p) >>= _ : FeedM _) d = _
  rw [h]
  rfl

def deleted (a : PubKey) (gone : List Nat) (s : Feeds) : Feeds :=
  Faulty.applied ((gone.map (deletePost a)).map fun f s => some (f s)) s

theorem deleted_spec (gone : List Nat) :
    (deleted a gone s).rows a = (s.rows a).filter (fun r => decide (r.serial ∉ gone)) ∧
      (deleted a gone s).feed = s.feed ∧
      ∀ b ≠ a, (deleted a gone s).rows b = s.rows b := by
  induction gone generalizing s with
  | nil => simp [deleted]
  | cons n gone ih =>
    obtain ⟨hrows, hfeed, hother⟩ := ih (s := deletePost a n s)
    refine ⟨?_, hfeed, fun b hb => (hother b hb).trans (rows_deletePost_other hb)⟩
    rw [rows_deletePost, List.filter_filter] at hrows
    refine hrows.trans (List.filter_congr fun r _ => ?_)
    by_cases hn : r.serial = n <;> simp [hn]

def placed (p : Post) (now : UInt64) (s : Feeds) : Feeds :=
  { s with post := s.post ++ [arriving p now] }

theorem rows_placed : (placed p now s).rows p.account = s.rows p.account ++ [arriving p now] := by
  rw [placed, rows_append]
  simp [arriving, rows]

theorem rows_placed_other (hb : b ≠ p.account) : (placed p now s).rows b = s.rows b := by
  rw [placed, rows_append]
  simp [arriving, Ne.symm hb, rows]

theorem insertPost_fresh (hs : Booked s) (hserial : (s.headOf p.account).newest < p.serial.toNat) :
    insertPost (arriving p now) s = some (placed p now s) := by
  have hfresh : ¬ s.post.any (PostRow.isKey p.account p.serial.toNat) = true := by
    rw [List.any_eq_true]
    rintro ⟨r, hr, hkey⟩
    simp only [PostRow.isKey, Bool.and_eq_true, beq_iff_eq] at hkey
    have hle := (hs p.account).below r (mem_rows.mpr ⟨hr, hkey.1⟩)
    omega
  exact if_neg hfresh

structure Appended (C : Crypto) (s : Feeds) (p : Post) (now : UInt64) (before rest : List PostRow)
    (s' : Feeds) : Prop where
  split : s.rows p.account ++ [arriving p now] = before ++ rest
  kept : rest ≠ []
  rows : s'.rows p.account = rest
  head : s'.headOf p.account = { s.headOf p.account with
    oldest := (s.makeRoom p now).oldest, newest := p.serial.toNat, headInput := p.link C
    posts := rest.length, bytes := (rest.map (·.post.stored)).sum }
  oldest : (s.makeRoom p now).gone.length = before.length
  caps : rest.length ≤ (s.headOf p.account).maxPosts ∧
    (rest.map (·.post.stored)).sum ≤ maxFeedBytes ∨ rest.length = 1
  other : ∀ b ≠ p.account, s'.headOf b = s.headOf b ∧ s'.rows b = s.rows b

theorem makeRoom_eq (hs : Booked s) (h : s.accept C a p = .ok ()) (now : UInt64) :
    s.makeRoom p now = evict (s.headOf p.account).maxPosts p.serial.toNat
      (s.rows p.account ++ [arriving p now]) ((s.headOf p.account).posts + 1)
      ((s.headOf p.account).bytes + p.stored)
      (if (s.headOf p.account).oldest = 0 then p.serial.toNat
        else (s.headOf p.account).oldest) := by
  obtain ⟨rfl, hbody, hserial, -⟩ := accept_ok h
  have hnew := (hs p.account).snoc (r := arriving p now) hserial hbody 0 0
  have hsorted : (s.rows p.account ++ [arriving p now]).insertionSort
      (fun x y => x.serial ≤ y.serial) = s.rows p.account ++ [arriving p now] :=
    List.Pairwise.insertionSort_eq (hnew.ascending.imp fun hlt => Nat.le_of_lt hlt)
  simp only [makeRoom, hsorted]

theorem appending_spec (hs : Booked s) (h : s.accept C a p = .ok ()) (now : UInt64) :
    Faulty.Succeed (s.appending C p now) s ∧
      ∃ before rest, Appended C s p now before rest (Faulty.applied (s.appending C p now) s) := by
  obtain ⟨rfl, hbody, hserial, -⟩ := accept_ok h
  have hbooks := hs p.account
  have hnew := hbooks.snoc (r := arriving p now) hserial hbody 0 0
  obtain ⟨before, rest, hsplit, hkept, hgone, hposts, hbytes, hcaps⟩ :=
    @evict_spec (s.headOf p.account).maxPosts p.serial.toNat
      ((s.headOf p.account).posts + 1)
      ((s.headOf p.account).bytes + p.stored)
      (if (s.headOf p.account).oldest = 0 then p.serial.toNat
        else (s.headOf p.account).oldest)
      (s.rows p.account ++ [arriving p now])
      (fun r hr => by
        obtain rfl : arriving p now = r := by simpa using hr
        rfl)
      hnew.ascending hnew.posts hnew.bytes (by simp)
  have hroom := makeRoom_eq hs h now
  rw [← hroom] at hgone hposts hbytes
  have hinsert : insertPost (arriving p now) s = some (placed p now s) :=
    insertPost_fresh hs (by omega)
  have hfirst : Faulty.attempted (insertPost (arriving p now)) s = placed p now s := by
    rw [Faulty.attempted, hinsert]
    rfl
  refine ⟨⟨by rw [hinsert]; rfl, Faulty.succeed_map _ _⟩, before, rest, ?_⟩
  obtain ⟨hrows, hfeed, hrest⟩ := deleted_spec (a := p.account) (s := placed p now s)
    (s.makeRoom p now).gone
  have happlied : Faulty.applied (s.appending C p now) s = putHead p.account
      (s.headAfter C p now) (deleted p.account (s.makeRoom p now).gone (placed p now s)) := by
    rw [appending, Faulty.applied_cons, hfirst, List.map_append, Faulty.applied_append]
    rfl
  have hheads : ∀ b, (deleted p.account (s.makeRoom p now).gone (placed p now s)).headOf b =
      s.headOf b := by
    intro b
    rw [headOf, hfeed]
    rfl
  -- the serials that go are those of the rows before
  have hstay : (before ++ rest).filter (fun r => decide (r.serial ∉ (s.makeRoom p now).gone)) =
      rest := by
    have hascending := hnew.ascending
    rw [hsplit] at hascending
    have hcross := (List.pairwise_append.mp hascending).2.2
    rw [hgone, List.filter_append]
    have hleft : before.filter (fun r => decide (r.serial ∉ before.map (·.serial))) = [] := by
      refine List.filter_eq_nil_iff.mpr fun r hr => ?_
      simpa using ⟨r, hr, rfl⟩
    have hright : rest.filter (fun r => decide (r.serial ∉ before.map (·.serial))) = rest := by
      refine List.filter_eq_self.mpr fun r hr => ?_
      simp only [List.mem_map, decide_eq_true_eq]
      rintro ⟨x, hx, hserial⟩
      have hlt := hcross x hx r hr
      omega
    rw [hleft, hright, List.nil_append]
  exact {
    split := hsplit
    kept := hkept
    rows := by
      rw [happlied]
      change (deleted p.account (s.makeRoom p now).gone (placed p now s)).rows p.account = rest
      rw [hrows, rows_placed, hsplit, hstay]
    head := by
      rw [happlied, putHead, headOf_insert, if_pos rfl, hheads]
      simp [headAfter, hposts, hbytes]
    oldest := by rw [hgone, List.length_map]
    caps := hcaps
    other := fun b hb => by
      rw [happlied]
      refine ⟨?_, ?_⟩
      · rw [putHead, headOf_insert, if_neg (Ne.symm hb), hheads]
      · change (deleted p.account (s.makeRoom p now).gone (placed p now s)).rows b = s.rows b
        rw [hrest b hb, rows_placed_other hb] }

theorem append_clean (hs : Booked s) (h : s.accept C a p = .ok ()) (now : UInt64) :
    append C a p now (.clean s) =
      (.ok (p.serial.toNat, p.link C), .clean (Faulty.applied (s.appending C p now) s)) := by
  obtain ⟨hsucceed, -⟩ := appending_spec hs h now
  have hall : Faulty.execAll FeedError.storage (s.appending C p now) (.clean s) =
      (.ok (), .clean (Faulty.applied (s.appending C p now) s)) := Faulty.execAll_clean hsucceed
  have hbind := Call.bind_ok (f := fun _ : Unit =>
      (pure (p.serial.toNat, p.link C) : FeedM (Nat × Bytes32)))
    (show (Faulty.execAll FeedError.storage (s.appending C p now)).result (.clean s) = .ok () by
      rw [Call.result, hall])
  rw [Call.after, hall] at hbind
  rw [append_admitted (d := .clean s) h]
  exact hbind

theorem perform_append (hs : Booked s) :
    perform C s now (.append a p) = match s.accept C a p with
      | .ok () => Faulty.applied (s.appending C p now) s
      | .error _ => s := by
  rw [perform, after, Call.after]
  cases haccept : s.accept C a p with
  | error e => rw [append_error (d := .clean s) haccept]; rfl
  | ok => rw [append_clean hs haccept now]; rfl

theorem Appended.books {before rest : List PostRow} (h : Appended C s p now before rest s')
    (hs : Booked s) (haccept : s.accept C a p = .ok ()) : Booked s' := by
  obtain ⟨rfl, hbody, hserial, -⟩ := accept_ok haccept
  refine hs.of_elsewhere ?_ h.other
  have hnew := (hs p.account).snoc (r := arriving p now) hserial hbody 0 (p.link C)
  rw [h.split] at hnew
  rw [h.head, h.rows]
  exact hnew.sublist (List.sublist_append_right before rest) _

end Appending

section Sweeping

def fresh (now : UInt64) (f : PubKey × HeadRow) (s : Feeds) : List PostRow :=
  (s.rows f.1).filter fun r => ! isStale now f r

theorem sweepFeed_cases (now : UInt64) (f : PubKey × HeadRow) (hs : Booked s) :
    sweepFeed now s f = s ∨
      ((sweepFeed now s f).rows f.1 = fresh now f s ∧
        (sweepFeed now s f).headOf f.1 = { s.headOf f.1 with
          oldest := (((fresh now f s).map (·.serial)).min?).getD 0
          posts := (fresh now f s).length
          bytes := ((fresh now f s).map (·.post.stored)).sum } ∧
        ∀ b ≠ f.1, (sweepFeed now s f).headOf b = s.headOf b ∧
          (sweepFeed now s f).rows b = s.rows b) := by
  by_cases hany : s.post.any (isStale now f) = true
  · have hleft : (s.post.filter fun r => ! isStale now f r).filter (·.account == f.1) =
        fresh now f s := by
      rw [fresh, rows, List.filter_filter, List.filter_filter]
      exact List.filter_congr fun r _ => Bool.and_comm _ _
    have hsweep : sweepFeed now s f = updateHead f.1 (fun h => { h with
        oldest := (((fresh now f s).map (·.serial)).min?).getD 0
        posts := (fresh now f s).length
        bytes := ((fresh now f s).map (·.post.stored)).sum })
        { s with post := s.post.filter fun r => ! isStale now f r } := by
      rw [← hleft]
      exact if_neg (by rw [hany]; decide)
    obtain ⟨r, hr, hstale⟩ := List.any_eq_true.mp hany
    have haccount : r.account = f.1 := by
      simp only [isStale, Bool.and_eq_true, beq_iff_eq] at hstale
      exact hstale.1
    have hsome : (s.feed[f.1]?).isSome := isSome_of_mem (hs f.1).posts (mem_rows.mpr ⟨hr, haccount⟩)
    refine .inr ⟨?_, ?_, fun b hb => ⟨?_, ?_⟩⟩
    · rw [hsweep, rows_updateHead]
      exact hleft
    · rw [hsweep]
      exact headOf_updateHead
        (s := { s with post := s.post.filter fun r => ! isStale now f r }) hsome
    · rw [hsweep]
      exact headOf_updateHead_other
        (s := { s with post := s.post.filter fun r => ! isStale now f r }) hb
    · rw [hsweep, rows_updateHead, rows, List.filter_filter, rows]
      refine List.filter_congr fun x _ => ?_
      by_cases hx : x.account = b
      · simp [isStale, hx, hb]
      · simp [hx]
  · refine .inl (if_pos ?_)
    rw [Bool.eq_false_iff.mpr hany]
    rfl

theorem Booked.sweepFeed (now : UInt64) (f : PubKey × HeadRow) (hs : Booked s) :
    Booked (sweepFeed now s f) := by
  rcases sweepFeed_cases now f hs with hsame | ⟨hrows, hhead, hother⟩
  · rwa [hsame]
  · refine hs.of_elsewhere ?_ hother
    rw [hrows, hhead]
    exact (hs f.1).sublist List.filter_sublist _

end Sweeping

def withPolicy (s : Feeds) (a : PubKey) (retentionSecs maxPosts : Nat) (listed : Bool)
    (listedAt : Int64) : Feeds :=
  { s with feed := s.feed.insert a { s.headOf a with retentionSecs, maxPosts, listed, listedAt } }

theorem set_cases (a : PubKey) (retentionSecs maxPosts : Nat) (listed : Bool) (now : UInt64) :
    perform C s now (.set a retentionSecs maxPosts listed) = s ∨
      1 ≤ maxPosts ∧ perform C s now (.set a retentionSecs maxPosts listed) =
        s.withPolicy a retentionSecs maxPosts listed
          (if (s.headOf a).listed && listed then (s.headOf a).listedAt else now.toInt64) := by
  simp only [perform, set]
  split
  · rename_i s' hset
    split at hset
    · simp at hset
    · split at hset
      · simp at hset
      · obtain rfl := Except.ok.inj hset
        refine .inr ⟨by omega, rfl⟩
  · exact .inl rfl

/-- Every operation is made of a few: it takes bodies, appends a post, sets a policy or sweeps
feeds. What each of those keeps, every operation keeps. -/
theorem perform_induction {P : Feeds → Prop} {now : UInt64} {act : Act}
    (hbooked : ∀ s, P s → Booked s)
    (hstone : ∀ s r, P s → r ∈ s.post → r.post.body ≠ [] → P (stoned r s))
    (happend : ∀ p before rest s', P s → act = .append p.account p →
      s.accept C p.account p = .ok () → Appended C s p now before rest s' → P s')
    (hpolicy : ∀ a retentionSecs maxPosts listed, P s →
      act = .set a retentionSecs maxPosts listed → 1 ≤ maxPosts →
      P (s.withPolicy a retentionSecs maxPosts listed
        (if (s.headOf a).listed && listed then (s.headOf a).listedAt else now.toInt64)))
    (hsweep : ∀ s f, P s → P (sweepFeed now s f)) (hs : P s) : P (perform C s now act) := by
  have hexpire : ∀ s, P s → P (after (expire now) s) := by
    intro s hs
    rw [after_expire]
    obtain ⟨hmem, hdistinct⟩ := due_spec (hbooked s hs) now
    exact expiring_induction hstone hs hmem hdistinct
  cases act with
  | append a p =>
    cases haccept : s.accept C a p with
    | error e =>
      have hrun := @append_error C a p now e (.clean s) haccept
      rw [perform, after, Call.after, hrun]
      exact hs
    | ok =>
      obtain ⟨rfl, -⟩ := accept_ok haccept
      obtain ⟨-, before, rest, hspec⟩ := appending_spec (hbooked s hs) haccept now
      rw [perform, after, Call.after, append_clean (hbooked s hs) haccept now]
      exact happend p before rest _ hs rfl haccept hspec
  | withdraw a n =>
    rw [perform]
    rcases after_withdraw a n now s with hsame | ⟨r, hr, hbody, hstoned⟩
    · rw [hsame]
      exact hexpire s hs
    · rw [hstoned]
      exact hstone _ r (hexpire s hs) hr hbody
  | set a retentionSecs maxPosts listed =>
    rcases set_cases (C := C) (s := s) a retentionSecs maxPosts listed now with
      hsame | ⟨hmax, hset⟩
    · rwa [hsame]
    · rw [hset]
      exact hpolicy a retentionSecs maxPosts listed hs rfl hmax
  | read => exact hexpire s hs
  | sweep =>
    have hfold : ∀ (fs : List (PubKey × HeadRow)) (s : Feeds), P s →
        P (fs.foldl (sweepFeed now) s) := by
      intro fs
      induction fs with
      | nil => exact fun s hs => hs
      | cons f fs ih => exact fun s hs => ih _ (hsweep s f hs)
    exact hfold _ _ (hexpire s hs)

theorem Booked.withPolicy (a : PubKey) {maxPosts : Nat} (retentionSecs : Nat) (listed : Bool)
    (listedAt : Int64) (hs : Booked s) (hmax : 1 ≤ maxPosts) :
    Booked (s.withPolicy a retentionSecs maxPosts listed listedAt) := by
  intro b
  rw [Feeds.withPolicy, headOf_insert]
  split
  · rename_i hab
    subst hab
    exact (hs a).of_head (Nat.le_refl _) rfl rfl hmax
  · exact hs b

theorem Booked.perform (hs : Booked s) (now : UInt64) (act : Act) : Booked (perform C s now act) :=
  perform_induction (fun _ hs => hs) (fun _ _ hs hr _ => hs.stoned hr)
    (fun _ _ _ _ hs _ haccept hspec => hspec.books hs haccept)
    (fun a retentionSecs _ listed hs _ hmax => hs.withPolicy a retentionSecs listed _ hmax)
    (fun _ f hs => hs.sweepFeed now f) hs

theorem Appended.mem_post {before rest : List PostRow} (h : Appended C s p now before rest s')
    (hr : r ∈ s'.post) : r ∈ s.post ∨ r = arriving p now := by
  by_cases haccount : r.account = p.account
  · have hrest : r ∈ rest := h.rows ▸ mem_rows.mpr ⟨hr, haccount⟩
    have hsplit : r ∈ s.rows p.account ++ [arriving p now] := by
      rw [h.split]
      exact List.mem_append_right _ hrest
    cases List.mem_append.mp hsplit with
    | inl hold => exact .inl (mem_rows.mp hold).1
    | inr hnew => exact .inr (List.mem_singleton.mp hnew)
  · have hrow : r ∈ s'.rows r.account := mem_rows.mpr ⟨hr, rfl⟩
    rw [(h.other r.account haccount).2] at hrow
    exact .inl (mem_rows.mp hrow).1

theorem mem_post_of_sweepFeed {f : PubKey × HeadRow} (hr : r ∈ (sweepFeed now s f).post) :
    r ∈ s.post := by
  rw [sweepFeed] at hr
  split at hr
  · exact hr
  · exact List.mem_of_mem_filter hr

theorem perform_rows {R : PostRow → Prop} {act : Act} (hs : Booked s)
    (hstone : ∀ r, R r → R r.stone)
    (harrive : ∀ p, act = .append p.account p → s.accept C p.account p = .ok () →
      R (arriving p now)) (hR : ∀ r ∈ s.post, R r) :
    ∀ r ∈ (perform C s now act).post, R r := by
  have hboth : Booked (perform C s now act) ∧ ∀ r ∈ (perform C s now act).post, R r := by
    refine perform_induction (P := fun s => Booked s ∧ ∀ r ∈ s.post, R r) (fun _ h => h.1)
      (fun t r h hr _ => ⟨h.1.stoned hr, fun x hx => ?_⟩)
      (fun p before rest t h hact haccept hspec =>
        ⟨hspec.books h.1 haccept, fun x hx => ?_⟩)
      (fun a retentionSecs _ listed h _ hmax =>
        ⟨h.1.withPolicy a retentionSecs listed _ hmax, h.2⟩)
      (fun t f h => ⟨h.1.sweepFeed now f, fun x hx => h.2 x (mem_post_of_sweepFeed hx)⟩)
      ⟨hs, hR⟩
    · have hmap : x ∈ (writeStone r.account r.serial t).post := hx
      obtain ⟨y, hy, rfl⟩ := List.mem_map.mp hmap
      split
      · exact hstone y (h.2 y hy)
      · exact h.2 y hy
    · cases hspec.mem_post hx with
      | inl hold => exact h.2 x hold
      | inr hnew =>
        rw [hnew]
        exact harrive p hact haccept
  exact hboth.2

end Feeds
end Sqex.Feed
