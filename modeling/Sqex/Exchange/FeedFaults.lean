import Sqex.Exchange.FeedLog

/-! Faults within the writes of a feed. No statement of an append or a withdrawal is undone
when a later one fails, so a write is all or nothing only where a fault strikes none of its
statements or the first. -/
namespace Sqex.Feed
open Std Runs
variable {C : Crypto} {a b : PubKey} {n : Nat}

/-- The store as an append takes it that could not read the head. -/
def Feeds.forgetting (s : Feeds) (account : PubKey) : Feeds := ⟨s.feed.erase account, s.post⟩

def appendUnread (C : Crypto) (account : PubKey) (p : Post) (now : UInt64) :
    FeedM (Nat × Bytes32) := do
  let d ← Call.get
  ofExcept ((d.store.forgetting account).accept C account p)
  Faulty.execAll .storage ((d.store.forgetting account).appending C p now)
  pure (p.serial.toNat, p.link C)

/-- `withdraw` after the expiry, which is all of it where what is due could not be read. -/
def withdrawFound (account : PubKey) (serial : Nat) : FeedM Unit := do
  let d ← Call.get
  match d.store.post.find? (PostRow.isKey account serial) with
  | none => Call.fail .noSuchPost
  | some r =>
    if r.post.withdrawn then Call.fail .noSuchPost
    else Faulty.execAll .storage (Feeds.stoning r)

namespace Feeds

inductive Write where
  | append (account : PubKey) (post : Post)
  | withdraw (account : PubKey) (serial : Nat)

def Write.act : Write → Act
  | .append account p => .append account p
  | .withdraw account serial => .withdraw account serial

def Write.owner : Write → PubKey
  | .append account _ => account
  | .withdraw account _ => account

/-- What strikes a write: a fault at one of its statements, or a failure of the read it starts
with, which is taken for a read of nothing. -/
inductive Strike where
  | fault (fault : Fault)
  | unread

section
variable (C : Crypto) (s : Feeds) (i : UInt64 × Event) (now : UInt64)

def struckBy : Write → Strike → Feeds
  | .append account p, .fault f => ((append C account p now).after ⟨s, some f⟩).store
  | .append account p, .unread => after (appendUnread C account p now) s
  | .withdraw account serial, .fault f => ((withdraw account serial now).after ⟨s, some f⟩).store
  | .withdraw account serial, .unread => after (withdrawFound account serial) s

inductive Event where
  | whole (act : Act)
  | struck (write : Write) (strike : Strike)

def happen : Feeds :=
  match i.2 with
  | .whole act => perform C s i.1 act
  | .struck write strike => struckBy C s i.1 write strike

structure IsNext (owner : PubKey) (p : Post) : Prop where
  own : p.account = owner
  flags : p.flags = 0
  small : p.body.length ≤ maxBody
  whole : p.bodyMatches C = true
  signed : p.verify C = true
  serial : p.serial.toNat = (s.headOf owner).newest + 1
  prev : p.prev = (s.headOf owner).headInput

def AllOrNothing : Prop :=
  match i.2 with
  | .whole _ => True
  | .struck write _ =>
    (happen C s i = s ∨ happen C s i = perform C s i.1 write.act) ∧
      ∀ p later, IsNext C (happen C s i) write.owner p →
        (append C write.owner p later).result (.clean (happen C s i)) =
          .ok (p.serial.toNat, p.link C)

def found (account : PubKey) (serial : Nat) : Option PostRow :=
  (s.post.find? (PostRow.isKey account serial)).filter fun r => ! r.post.withdrawn

def statements : Write → Nat
  | .append account p =>
    match s.accept C account p with
    | .ok () => (s.appending C p now).length
    | .error _ => 0
  | .withdraw account serial =>
    (s.expiring now).length +
      match (after (expire now) s).found account serial with
      | none => 0
      | some _ => 2

/-- The strike changes nothing of a write, or all of it: it comes after the last statement or at the
first, and then it ends a withdrawal or nothing was due. A head that is not read is not taken for
that of a new feed, and what is due and not read is no more than what is withdrawn. -/
def Spares : Write → Strike → Prop
  | .append account p, .fault f =>
    statements C s now (.append account p) ≤ f.after ∨ f.after = 0
  | .withdraw account serial, .fault f =>
    statements C s now (.withdraw account serial) ≤ f.after ∨
      f.after = 0 ∧ (f.stops = true ∨ s.due now = [])
  | .append account p, .unread =>
    (s.forgetting account).accept C account p = .ok () →
      (s.headOf account).newest = 0 ∨ s.post.any (PostRow.isKey account 1) = true
  | .withdraw account serial, .unread =>
    ∀ r, s.found account serial = some r → ∀ x ∈ s.due now, x = r

def Spared : Prop :=
  match i.2 with
  | .whole _ => True
  | .struck write strike => Spares C s i.1 write strike

end

variable {s s' : Feeds} {r : PostRow} {p : Post} {now : UInt64} {f : Fault}

section Withdrawing

theorem found_spec (h : s.found a n = some r) :
    r ∈ s.post ∧ (r.account = a ∧ r.serial = n) ∧ r.post.body ≠ [] := by
  obtain ⟨hfind, hbody⟩ := Option.filter_eq_some_iff.mp h
  have hkey := List.find?_some hfind
  exact ⟨List.mem_of_find?_eq_some hfind, by simpa [PostRow.isKey] using hkey,
    by simpa [Post.withdrawn] using hbody⟩

theorem found_of_mem (hs : Booked s) (hr : r ∈ s.post) (hbody : r.post.body ≠ []) :
    s.found r.account r.serial = some r := by
  have hany : (s.post.find? (PostRow.isKey r.account r.serial)).isSome :=
    List.find?_isSome.mpr ⟨r, hr, by simp [PostRow.isKey]⟩
  obtain ⟨x, hx⟩ := Option.isSome_iff_exists.mp hany
  have hkey : x.account = r.account ∧ x.serial = r.serial := by
    simpa [PostRow.isKey] using List.find?_some hx
  have hxr : x = r := (hs r.account).unique
    (mem_rows.mpr ⟨List.mem_of_find?_eq_some hx, hkey.1⟩) (mem_rows.mpr ⟨hr, rfl⟩) hkey.2
  simp [found, hx, hxr, Option.filter, Post.withdrawn, hbody]

theorem found_stoned : (stoned r s).found r.account r.serial = none := by
  by_contra hsome
  obtain ⟨x, hx⟩ := Option.ne_none_iff_exists'.mp hsome
  obtain ⟨hmem, hkey, hbody⟩ := found_spec hx
  obtain ⟨y, -, hy⟩ := List.mem_map.mp hmem
  split at hy
  · exact hbody (by rw [← hy]; rfl)
  · rename_i hother
    exact hother (by simpa [PostRow.isKey, hy] using hkey)

theorem withdrawFound_eq (d : Faulty Feeds) :
    withdrawFound a n d = match d.store.found a n with
      | none => (.error .noSuchPost, d)
      | some r => Faulty.execAll .storage (stoning r) d := by
  change (match d.store.post.find? (PostRow.isKey a n) with
    | none => (Call.fail .noSuchPost : FeedM Unit)
    | some r =>
      if r.post.withdrawn then Call.fail .noSuchPost
      else Faulty.execAll .storage (stoning r)) d = _
  unfold found
  cases hfind : d.store.post.find? (PostRow.isKey a n) with
  | none => rfl
  | some r =>
    by_cases hgone : r.post.withdrawn = true
    · simp [hgone, Option.filter, Call.fail]
    · simp [hgone, Option.filter]

theorem after_withdrawFound :
    after (withdrawFound a n) s = match s.found a n with
      | none => s
      | some r => stoned r s := by
  rw [after, Call.after, withdrawFound_eq]
  cases hfound : s.found a n with
  | none => simp [Faulty.clean, hfound]
  | some r =>
    have hall : Faulty.execAll FeedError.storage (stoning r) (.clean s) = _ :=
      Faulty.execAll_clean (Faulty.succeed_map _ s)
    simp only [Faulty.clean, hfound] at hall ⊢
    rw [hall]
    rfl

theorem withdrawFound_struck :
    ((withdrawFound a n).after (Faulty.struck s true)).store = s := by
  rw [Call.after, withdrawFound_eq]
  cases hfound : s.found a n with
  | none => simp [Faulty.struck, hfound]
  | some r =>
    simp only [Faulty.struck, hfound, if_true]
    rfl

theorem withdraw_eq (d : Faulty Feeds) :
    withdraw a n now d = withdrawFound a n ((expire now).after d) :=
  Call.bind_ok (f := fun _ : Unit => withdrawFound a n) Faulty.tryAll_ok

theorem perform_withdraw :
    perform C s now (.withdraw a n) = after (withdrawFound a n) (after (expire now) s) := by
  have hexpire : (expire now).after (.clean s) = .clean (after (expire now) s) := by
    rw [after_expire, Call.after, expire_clean]
  rw [perform, after, Call.after, withdraw_eq, hexpire]
  rfl

end Withdrawing

section Counting

def bodies (s : Feeds) : Nat := (s.post.map (·.post.body.length)).sum

theorem bodies_writeStone {rows : List PostRow} (hr : r ∈ rows)
    (hdistinct : rows.Pairwise fun x y => ¬ (x.account = y.account ∧ x.serial = y.serial)) :
    ((rows.map fun x => if x.isKey r.account r.serial then x.stone else x).map
        (·.post.body.length)).sum + r.post.body.length =
      (rows.map (·.post.body.length)).sum := by
  induction rows with
  | nil => simp at hr
  | cons x rows ih =>
    obtain ⟨hx, hrest⟩ := List.pairwise_cons.mp hdistinct
    by_cases hkey : x.isKey r.account r.serial = true
    · have hsame : x.account = r.account ∧ x.serial = r.serial := by
        simpa [PostRow.isKey] using hkey
      have hxr : r = x := by
        rcases List.mem_cons.mp hr with h | h
        · exact h
        · exact absurd hsame (hx r h)
      -- no other row has its key
      have hid : ∀ y ∈ rows, (if y.isKey r.account r.serial then y.stone else y) = y := by
        intro y hy
        refine if_neg fun hy' => hx y hy ?_
        simp only [PostRow.isKey, Bool.and_eq_true, beq_iff_eq] at hy'
        exact ⟨hsame.1.trans hy'.1.symm, hsame.2.trans hy'.2.symm⟩
      rw [List.map_cons, if_pos hkey, List.map_congr_left hid, List.map_id']
      subst hxr
      simp [PostRow.stone, Post.tombstone]
      omega
    · have hmem : r ∈ rows := by
        rcases List.mem_cons.mp hr with rfl | h
        · simp [PostRow.isKey] at hkey
        · exact h
      have hsum := ih hmem hrest
      rw [List.map_cons, if_neg hkey]
      simp only [List.map_cons, List.sum_cons]
      omega

theorem bodies_stoned (hs : Booked s) (hr : r ∈ s.post) :
    (stoned r s).bodies + r.post.body.length = s.bodies :=
  bodies_writeStone hr (distinct_keys hs)

theorem bodies_expiring (hs : Booked s) {rs : List PostRow}
    (hmem : ∀ r ∈ rs, r ∈ s.post ∧ r.post.body ≠ [])
    (hdistinct : rs.Pairwise fun x y => ¬ (x.account = y.account ∧ x.serial = y.serial)) :
    Booked (Faulty.applied (rs.flatMap stoning) s) ∧
      (Faulty.applied (rs.flatMap stoning) s).bodies + (rs.map (·.post.body.length)).sum =
        s.bodies := by
  have hall := stoning_induction (P := fun left s' => Booked s' ∧
    s'.bodies + (rs.map (·.post.body.length)).sum = s.bodies + (left.map (·.post.body.length)).sum)
    (fun s' r left h hr _ => ⟨h.1.stoned hr, by
      have hone := bodies_stoned h.1 hr
      have hsum := h.2
      simp only [List.map_cons, List.sum_cons] at hsum
      omega⟩) ⟨hs, rfl⟩ hmem hdistinct
  simpa using hall

theorem body_pos (hbody : r.post.body ≠ []) : 0 < r.post.body.length :=
  List.length_pos_iff.mpr hbody

theorem bodies_pos {rs : List PostRow} (hmem : ∀ r ∈ rs, r.post.body ≠ []) (hr : r ∈ rs) :
    0 < (rs.map (·.post.body.length)).sum := by
  exact List.sum_pos_iff_exists_pos_nat.mpr
    ⟨_, List.mem_map_of_mem (f := (·.post.body.length)) hr, body_pos (hmem r hr)⟩

end Counting

section Miscounted

structure Miscounted (s : Feeds) : Prop where
  books : ∀ a, Books { s.headOf a with bytes := ((s.rows a).map (·.post.stored)).sum } (s.rows a)
  bytes : ∃ a, (s.headOf a).bytes ≠ ((s.rows a).map (·.post.stored)).sum

theorem Miscounted.not_booked (h : Miscounted s) : ¬ Booked s := by
  intro hs
  obtain ⟨a, hbytes⟩ := h.bytes
  exact hbytes (hs a).bytes

theorem Booked.miscounted (hs : Booked s) {h : HeadRow} (hbooks : Books h (s'.rows a))
    (hnewest : (s'.headOf a).newest = h.newest) (hposts : (s'.headOf a).posts = h.posts)
    (hcap : (s'.headOf a).maxPosts = h.maxPosts) (hbytes : (s'.headOf a).bytes ≠ h.bytes)
    (hother : ∀ b ≠ a, s'.headOf b = s.headOf b ∧ s'.rows b = s.rows b) : Miscounted s' where
  books b := by
    by_cases hb : b = a
    · subst hb
      exact hbooks.of_head (Nat.le_of_eq hnewest.symm) hposts hbooks.bytes.symm (by
        have hcap' := hbooks.cap
        dsimp only
        omega)
    · rw [(hother b hb).1, (hother b hb).2]
      exact (hs b).of_head (Nat.le_refl _) rfl (hs b).bytes.symm (hs b).cap
  bytes := ⟨a, fun h => hbytes (h.trans hbooks.bytes.symm)⟩

theorem miscounted_writeStone (hs : Booked s) (hr : r ∈ s.post) (hbody : r.post.body ≠ []) :
    Miscounted (writeStone r.account r.serial s) := by
  have hbooks := (hs r.account).stoned (mem_rows.mpr ⟨hr, rfl⟩)
  rw [← rows_writeStone] at hbooks
  refine hs.miscounted hbooks rfl rfl rfl ?_ fun b hb => ⟨rfl, rows_writeStone_other hb⟩
  have hsum := (hs r.account).stored_stonedAt (mem_rows.mpr ⟨hr, rfl⟩)
  have hbytes := (hs r.account).bytes
  have hpos := body_pos hbody
  change (s.headOf r.account).bytes ≠ (s.headOf r.account).bytes - r.post.body.length
  omega

theorem miscounted_freeBytes (hs : Booked s) (hr : r ∈ s.post) (hbody : r.post.body ≠ []) :
    Miscounted (freeBytes r.account r.post.body.length s) := by
  have hsome := isSome_of_mem (hs r.account).posts (mem_rows.mpr ⟨hr, rfl⟩)
  have hhead : (freeBytes r.account r.post.body.length s).headOf r.account = _ :=
    headOf_updateHead hsome
  refine hs.miscounted (hs r.account) ?_ ?_ ?_ ?_ fun b hb => ⟨headOf_updateHead_other hb, rfl⟩
  all_goals rw [hhead]
  have hsum := (hs r.account).stored_stonedAt (mem_rows.mpr ⟨hr, rfl⟩)
  have hbytes := (hs r.account).bytes
  have hpos := body_pos hbody
  dsimp only
  omega

theorem Miscounted.stoned (h : Miscounted s) (hr : r ∈ s.post) : Miscounted (Feeds.stoned r s) where
  books b := by
    by_cases hb : b = r.account
    · subst hb
      have hbooks := (h.books r.account).stoned (mem_rows.mpr ⟨hr, rfl⟩)
      rw [headOf_stoned (h.books r.account).posts hr, rows_stoned]
      exact hbooks.of_head (Nat.le_refl _) rfl hbooks.bytes.symm hbooks.cap
    · rw [headOf_stoned_other hb, rows_stoned_other hb]
      exact h.books b
  bytes := by
    obtain ⟨b, hbytes⟩ := h.bytes
    refine ⟨b, ?_⟩
    by_cases hb : b = r.account
    · subst hb
      have hsum := (h.books r.account).stored_stonedAt (mem_rows.mpr ⟨hr, rfl⟩)
      rw [headOf_stoned (h.books r.account).posts hr, rows_stoned]
      -- what is left of the row counts for its header, so the count is not 0
      have hmem : r.stone ∈ stonedAt r.serial (s.rows r.account) :=
        List.mem_map.mpr ⟨r, mem_rows.mpr ⟨hr, rfl⟩, by simp⟩
      have hpos := List.sum_pos_iff_exists_pos_nat.mpr
        ⟨_, List.mem_map_of_mem (f := (·.post.stored)) hmem, by simp [Post.stored]⟩
      dsimp only
      omega
    · rw [headOf_stoned_other hb, rows_stoned_other hb]
      exact hbytes

end Miscounted

section Cuts

theorem length_stonings (rs : List PostRow) : (rs.flatMap stoning).length = 2 * rs.length := by
  induction rs with
  | nil => rfl
  | cons r rs ih =>
    rw [List.flatMap_cons, List.length_append, ih]
    simp only [stoning, List.length_map, List.length_cons, List.length_nil]
    omega

theorem mem_expiring {x : PostRow} (hx : x ∈ s.post) {rs : List PostRow}
    (hrs : ∀ r ∈ rs, ¬ (x.account = r.account ∧ x.serial = r.serial)) :
    x ∈ (Faulty.applied (rs.flatMap stoning) s).post := by
  induction rs generalizing s with
  | nil => exact hx
  | cons r rs ih =>
    rw [List.flatMap_cons, Faulty.applied_append]
    exact ih (mem_writeStone hx (hrs r (by simp))) fun r' hr' => hrs r' (by simp [hr'])

structure SplitAt (s : Feeds) (before : List PostRow) (r : PostRow) (rest : List PostRow)
    (s' : Feeds) : Prop where
  booked : Booked s'
  bodies : s'.bodies + (before.map (·.post.body.length)).sum = s.bodies
  here : r ∈ s'.post ∧ r.post.body ≠ []
  others : ∀ x ∈ rest, (x ∈ s'.post ∧ x.post.body ≠ []) ∧
    ¬ (x.account = r.account ∧ x.serial = r.serial)
  distinct : rest.Pairwise fun x y => ¬ (x.account = y.account ∧ x.serial = y.serial)

theorem due_split (hs : Booked s) {before rest : List PostRow}
    (hdue : s.due now = before ++ r :: rest) :
    SplitAt s before r rest (Faulty.applied (before.flatMap stoning) s) := by
  obtain ⟨hmem, hdistinct⟩ := due_spec hs now
  rw [hdue] at hmem hdistinct
  obtain ⟨hbefore, hright, hcross⟩ := List.pairwise_append.mp hdistinct
  obtain ⟨hr, hrest⟩ := List.pairwise_cons.mp hright
  have hleft := bodies_expiring hs (fun x hx => hmem x (by simp [hx])) hbefore
  have hstays : ∀ x ∈ r :: rest, x ∈ (Faulty.applied (before.flatMap stoning) s).post :=
    fun x hx => mem_expiring (hmem x (List.mem_append_right _ hx)).1
      fun y hy hkey => hcross y hy x hx ⟨hkey.1.symm, hkey.2.symm⟩
  exact {
    booked := hleft.1
    bodies := hleft.2
    here := ⟨hstays r (by simp), (hmem r (by simp)).2⟩
    others := fun x hx => ⟨⟨hstays x (by simp [hx]), (hmem x (by simp [hx])).2⟩,
      fun hkey => hr x hx ⟨hkey.1.symm, hkey.2.symm⟩⟩
    distinct := hrest }

theorem SplitAt.miscounted {before rest : List PostRow} (h : SplitAt s before r rest s')
    {g : Feeds → Feeds}
    (hg : g = writeStone r.account r.serial ∨ g = freeBytes r.account r.post.body.length) :
    Miscounted (g s') ∧ Miscounted (Faulty.applied (rest.flatMap stoning) (g s')) := by
  have hfirst : Miscounted (g s') := by
    rcases hg with rfl | rfl
    · exact miscounted_writeStone h.booked h.here.1 h.here.2
    · exact miscounted_freeBytes h.booked h.here.1 h.here.2
  refine ⟨hfirst, expiring_induction (P := Miscounted) (fun s' r' hm hr' _ => hm.stoned hr') hfirst
    (fun x hx => ⟨?_, (h.others x hx).1.2⟩) h.distinct⟩
  obtain ⟨⟨hmem, -⟩, hkey⟩ := h.others x hx
  rcases hg with rfl | rfl
  · exact mem_writeStone hmem hkey
  · exact hmem

theorem Miscounted.withdrawFound (h : Miscounted s) :
    Miscounted (after (withdrawFound a n) s) := by
  rw [after_withdrawFound]
  cases hfound : s.found a n with
  | none => exact h
  | some r => exact h.stoned (found_spec hfound).1

theorem bodies_withdrawFound (hs : Booked s) :
    (after (Feed.withdrawFound a n) s).bodies ≤ s.bodies := by
  rw [after_withdrawFound]
  cases hfound : s.found a n with
  | none => exact Nat.le_refl _
  | some r =>
    have hone := bodies_stoned hs (found_spec hfound).1
    dsimp only
    omega

end Cuts

/-- A strike is spared a write and leaves one of the two stores, or it leaves neither. -/
def Settled (C : Crypto) (s : Feeds) (now : UInt64) (w : Write) (σ : Strike) : Prop :=
  (Spares C s now w σ ∧
      (struckBy C s now w σ = s ∨ struckBy C s now w σ = perform C s now w.act)) ∨
    (¬ Spares C s now w σ ∧ struckBy C s now w σ ≠ s ∧
      struckBy C s now w σ ≠ perform C s now w.act)

theorem Miscounted.settled {w : Write} {σ : Strike} (hs : Booked s)
    (h : Miscounted (struckBy C s now w σ)) (hspares : ¬ Spares C s now w σ) :
    Settled C s now w σ := by
  refine .inr ⟨hspares, fun hsame => h.not_booked ?_, fun hsame => h.not_booked ?_⟩
  · rwa [hsame]
  · rw [hsame]
    exact hs.perform now w.act

theorem settled_of_bodies {w : Write} {σ : Strike}
    (hless : (struckBy C s now w σ).bodies < s.bodies)
    (hmore : (perform C s now w.act).bodies < (struckBy C s now w σ).bodies)
    (hspares : ¬ Spares C s now w σ) : Settled C s now w σ := by
  refine .inr ⟨hspares, fun hsame => ?_, fun hsame => ?_⟩
  · rw [hsame] at hless
    omega
  · rw [← hsame] at hmore
    omega

section WithdrawFault

theorem struckBy_withdraw (f : Fault) :
    struckBy C s now (.withdraw a n) (.fault f) =
      ((withdrawFound a n).after ((expire now).after ⟨s, some f⟩)).store := by
  rw [struckBy, Call.after, withdraw_eq]
  rfl

theorem withdraw_cut (hs : Booked s) (hcut : f.after < (s.expiring now).length) :
    Settled C s now (.withdraw a n) (.fault f) := by
  obtain ⟨k, stops⟩ := f
  have hlength : (s.expiring now).length = 2 * (s.due now).length := length_stonings _
  have hmore : ¬ statements C s now (.withdraw a n) ≤ k := by
    simp only [statements]
    dsimp only at hcut
    omega
  have hexpire : (expire now).after ⟨s, some ⟨k, stops⟩⟩ = Faulty.struck
      (Faulty.applied (if stops then (s.expiring now).take k else (s.expiring now).eraseIdx k) s)
      stops := by
    have hrun : expire now ⟨s, some ⟨k, stops⟩⟩ = _ := Faulty.tryAll_cut hcut
    rw [Call.after, hrun]
  -- the row whose statements the fault is at
  obtain ⟨before, r, rest, hdue, hbefore⟩ : ∃ before r rest,
      s.due now = before ++ r :: rest ∧ before.length = k / 2 := by
    have hdrop : (s.due now).drop (k / 2) ≠ [] := by
      dsimp only at hcut
      simp only [ne_eq, List.drop_eq_nil_iff]
      omega
    obtain ⟨r, rest, hrest⟩ := List.exists_cons_of_ne_nil hdrop
    refine ⟨(s.due now).take (k / 2), r, rest, ?_, ?_⟩
    · rw [← hrest, List.take_append_drop]
    · dsimp only at hcut
      rw [List.length_take]
      omega
  have hsplit := due_split hs hdue
  have hstonings : (before.flatMap stoning).length = 2 * (k / 2) := by
    rw [length_stonings, hbefore]
  have hexpiring : s.expiring now =
      before.flatMap stoning ++ (stoning r ++ rest.flatMap stoning) := by
    rw [expiring, hdue, List.flatMap_append, List.flatMap_cons]
  have hw := hsplit.miscounted (g := writeStone r.account r.serial) (.inl rfl)
  have hf := hsplit.miscounted (g := freeBytes r.account r.post.body.length) (.inr rfl)
  have hnone : stops = false → ¬ Spares C s now (.withdraw a n) (.fault ⟨k, stops⟩) := by
    rintro rfl (hafter | ⟨-, hstops | hempty⟩)
    · exact hmore hafter
    · cases hstops
    · simp [hempty] at hdue
  rcases Nat.mod_two_eq_zero_or_one k with heven | hodd
  · have hk : k = (before.flatMap stoning).length := by omega
    cases stops with
    | true =>
      have hleft : struckBy C s now (.withdraw a n) (.fault ⟨k, true⟩) =
          Faulty.applied (before.flatMap stoning) s := by
        rw [struckBy_withdraw, hexpire, withdrawFound_struck, if_pos rfl, hexpiring, hk,
          List.take_left]
      by_cases hfirst : before = []
      · subst hfirst
        exact .inl ⟨.inr ⟨by simpa using hk, .inl rfl⟩, .inl hleft⟩
      · -- the bodies before the fault are gone, and the others are not
        obtain ⟨hmem, hdistinct⟩ := due_spec hs now
        have hall := bodies_expiring hs hmem hdistinct
        have hfound := bodies_withdrawFound (a := a) (n := n) hall.1
        have hsum := hall.2
        have hpart := hsplit.bodies
        have hr := body_pos hsplit.here.2
        obtain ⟨x, hx⟩ := List.exists_mem_of_ne_nil before hfirst
        have hpos := bodies_pos (fun y hy => (hmem y (by simp [hdue, hy])).2) hx
        rw [hdue] at hsum
        simp only [List.map_append, List.sum_append, List.map_cons, List.sum_cons] at hsum
        refine settled_of_bodies ?_ ?_ ?_
        · rw [hleft]
          omega
        · rw [hleft, Write.act, perform_withdraw, after_expire, expiring, hdue]
          rw [hdue] at hfound
          omega
        · rintro (hafter | ⟨hzero, -⟩)
          · exact hmore hafter
          · have hlen := List.length_pos_iff.mpr hfirst
            dsimp only at hzero
            omega
    | false =>
      refine Miscounted.settled hs ?_ (hnone rfl)
      rw [struckBy_withdraw, hexpire, if_neg (by simp), hexpiring,
        List.eraseIdx_append_of_length_le (Nat.le_of_eq hk.symm), ← hk, Nat.sub_self,
        Faulty.applied_append]
      exact hf.2.withdrawFound
  · have hk : k = (before.flatMap stoning).length + 1 := by omega
    cases stops with
    | true =>
      refine Miscounted.settled hs ?_ ?_
      · rw [struckBy_withdraw, hexpire, withdrawFound_struck, if_pos rfl, hexpiring, hk,
          List.take_length_add_append, Faulty.applied_append]
        exact hw.1
      · rintro (hafter | ⟨hzero, -⟩)
        · exact hmore hafter
        · dsimp only at hzero
          omega
    | false =>
      refine Miscounted.settled hs ?_ (hnone rfl)
      rw [struckBy_withdraw, hexpire, if_neg (by simp), hexpiring,
        List.eraseIdx_append_of_length_le (by omega), hk, Nat.add_sub_cancel_left,
        Faulty.applied_append]
      exact hw.2.withdrawFound

theorem withdraw_past (hs : Booked s) (hpast : (s.expiring now).length ≤ f.after) :
    Settled C s now (.withdraw a n) (.fault f) := by
  obtain ⟨k, stops⟩ := f
  have hlength : (s.expiring now).length = 2 * (s.due now).length := length_stonings _
  obtain ⟨hmem, hdistinct⟩ := due_spec hs now
  have hall := bodies_expiring hs hmem hdistinct
  set E := after (expire now) s with hE
  have hE' : Faulty.applied ((s.due now).flatMap stoning) s = E := by
    rw [hE, after_expire, expiring]
  rw [hE'] at hall
  have hstruck : struckBy C s now (.withdraw a n) (.fault ⟨k, stops⟩) =
      ((withdrawFound a n).after ⟨E, some ⟨k - (s.expiring now).length, stops⟩⟩).store := by
    have hrun : expire now ⟨s, some ⟨k, stops⟩⟩ = _ := Faulty.tryAll_past hpast
    have hafter : (expire now).after ⟨s, some ⟨k, stops⟩⟩ =
        ⟨E, some ⟨k - (s.expiring now).length, stops⟩⟩ := by
      rw [Call.after, hrun, hE, after_expire]
    rw [struckBy_withdraw, hafter]
  rw [Call.after, withdrawFound_eq] at hstruck
  have hperform : perform C s now (.withdraw a n) = after (withdrawFound a n) E := perform_withdraw
  rw [after_withdrawFound] at hperform
  cases hfound : E.found a n with
  | none =>
    simp only [hfound] at hstruck hperform
    refine .inl ⟨.inl ?_, .inr (hstruck.trans hperform.symm)⟩
    simp only [statements, ← hE, hfound]
    exact hpast
  | some r =>
    obtain ⟨hr, -, hbody⟩ := found_spec hfound
    have hcount : statements C s now (.withdraw a n) = (s.expiring now).length + 2 := by
      simp only [statements, ← hE, hfound]
    simp only [hfound] at hstruck hperform
    have hsucceed : Faulty.Succeed (stoning r) E := Faulty.succeed_map _ E
    have hone := bodies_stoned hall.1 hr
    have hpos := body_pos hbody
    rcases Nat.lt_trichotomy (k - (s.expiring now).length) 1 with hzero | hone' | hpair
    · -- before either of the two
      have hk : k - (s.expiring now).length = 0 := by omega
      have hrun : Faulty.execAll FeedError.storage (stoning r) ⟨E, some ⟨0, stops⟩⟩ = _ :=
        Faulty.execAll_cut hsucceed (by simp [stoning])
      rw [hk, hrun] at hstruck
      replace hstruck : struckBy C s now (.withdraw a n) (.fault ⟨k, stops⟩) = E := hstruck
      by_cases hempty : s.due now = []
      · have hsame : E = s := by simpa [hempty] using hE'.symm
        refine .inl ⟨.inr ⟨?_, .inr hempty⟩, .inl (hstruck.trans hsame)⟩
        simp only [hempty, List.length_nil] at hlength
        dsimp only
        omega
      · obtain ⟨x, hx⟩ := List.exists_mem_of_ne_nil _ hempty
        have hsum := bodies_pos (fun y hy => (hmem y hy).2) hx
        have hlen := List.length_pos_iff.mpr hempty
        refine settled_of_bodies ?_ ?_ ?_
        · rw [hstruck]
          omega
        · rw [hstruck, Write.act, hperform]
          omega
        · rintro (hafter | ⟨hfirst, -⟩)
          · simp only [hcount] at hafter
            omega
          · dsimp only at hfirst hpast
            omega
    · have hrun : Faulty.execAll FeedError.storage (stoning r) ⟨E, some ⟨1, stops⟩⟩ = _ :=
        Faulty.execAll_cut hsucceed (by simp [stoning])
      rw [hone', hrun] at hstruck
      replace hstruck : struckBy C s now (.withdraw a n) (.fault ⟨k, stops⟩) =
        writeStone r.account r.serial E := hstruck
      refine Miscounted.settled hs ?_ ?_
      · rw [hstruck]
        exact miscounted_writeStone hall.1 hr hbody
      · rintro (hafter | ⟨hfirst, -⟩)
        · simp only [hcount] at hafter
          omega
        · dsimp only at hfirst hpast
          omega
    · have hrun : Faulty.execAll FeedError.storage (stoning r)
          ⟨E, some ⟨k - (s.expiring now).length, stops⟩⟩ = _ :=
        Faulty.execAll_past hsucceed hpair
      rw [hrun] at hstruck
      refine .inl ⟨.inl ?_, .inr (hstruck.trans hperform.symm)⟩
      rw [hcount]
      dsimp only at hpast ⊢
      omega

theorem withdraw_unread (hs : Booked s) : Settled C s now (.withdraw a n) .unread := by
  obtain ⟨hmem, hdistinct⟩ := due_spec hs now
  have hall := bodies_expiring hs hmem hdistinct
  have hexpired : after (expire now) s = Faulty.applied ((s.due now).flatMap stoning) s :=
    after_expire
  have hstruck : struckBy C s now (.withdraw a n) .unread = after (withdrawFound a n) s := rfl
  have hperform : perform C s now (.withdraw a n) = _ := perform_withdraw
  rw [after_withdrawFound] at hstruck
  cases hfound : s.found a n with
  | none =>
    simp only [hfound] at hstruck
    refine .inl ⟨fun r hr => ?_, .inl hstruck⟩
    simp [hfound] at hr
  | some r =>
    simp only [hfound] at hstruck
    obtain ⟨hr, hkey, hbody⟩ := found_spec hfound
    have hone := bodies_stoned hs hr
    have hpos := body_pos hbody
    obtain ⟨rfl, rfl⟩ := hkey
    by_cases hdue : ∀ x ∈ s.due now, x = r
    · refine .inl ⟨fun r' hr' => ?_, .inr ?_⟩
      · obtain rfl : r = r' := by simpa [hfound] using hr'
        exact hdue
      · rw [hstruck, Write.act, hperform, after_withdrawFound, hexpired]
        cases hrows : s.due now with
        | nil => simp [hfound]
        | cons x rest =>
          -- nothing is due twice
          have hx : x = r := hdue x (by simp [hrows])
          have hrest : rest = [] := by
            refine List.eq_nil_iff_forall_not_mem.mpr fun y hy => ?_
            rw [hrows] at hdistinct
            have hy' : y = r := hdue y (by simp [hrows, hy])
            exact (List.pairwise_cons.mp hdistinct).1 y hy (by simp [hx, hy'])
          subst hx hrest
          have hsame : Faulty.applied ([x].flatMap stoning) s = stoned x s := by
            simp [stoned]
          rw [hsame, found_stoned]
    · rw [not_forall] at hdue
      obtain ⟨x, hx⟩ := hdue
      obtain ⟨hx, hxr⟩ := Classical.not_imp.mp hx
      have hsum := hall.2
      refine settled_of_bodies ?_ ?_ fun hspares => hxr (hspares r hfound x hx)
      · rw [hstruck]
        omega
      · rw [hstruck, Write.act, hperform, hexpired]
        by_cases hrdue : r ∈ s.due now
        · have hfound' := bodies_withdrawFound (a := r.account) (n := r.serial) hall.1
          obtain ⟨before, rest, hsplit⟩ := List.append_of_mem hrdue
          have hbodies : ∀ y ∈ before ++ r :: rest, y.post.body ≠ [] :=
            fun y hy => (hmem y (by rw [hsplit]; exact hy)).2
          have hother : 0 < ((before ++ rest).map (·.post.body.length)).sum := by
            refine bodies_pos (r := x) (fun y hy => hbodies y ?_) ?_
            · simp only [List.mem_append, List.mem_cons] at hy ⊢
              tauto
            · rw [hsplit] at hx
              simp only [List.mem_append, List.mem_cons] at hx ⊢
              tauto
          rw [hsplit] at hsum hfound' ⊢
          simp only [List.map_append, List.sum_append, List.map_cons, List.sum_cons] at hsum hother
          omega
        · have hstays := @mem_expiring s _ hr (s.due now) fun y hy hkey => by
            have hyr := (hs r.account).unique (mem_rows.mpr ⟨(hmem y hy).1, hkey.1.symm⟩)
              (mem_rows.mpr ⟨hr, rfl⟩) hkey.2.symm
            exact hrdue (hyr ▸ hy)
          have hrow := bodies_stoned hall.1 hstays
          have hother := bodies_pos (fun y hy => (hmem y hy).2) hx
          rw [after_withdrawFound, found_of_mem hall.1 hstays hbody]
          dsimp only
          omega

end WithdrawFault

section AppendFault

theorem newest_not_gone {max newest posts bytes oldest : Nat} (rows : List PostRow) :
    newest ∉ (evict max newest rows posts bytes oldest).gone := by
  induction rows generalizing posts bytes oldest with
  | nil => simp [evict]
  | cons r rest ih =>
    rw [evict]
    split
    · split
      · simp
      · rename_i hne
        simp only [List.mem_cons, not_or]
        exact ⟨fun h => hne h.symm, ih⟩
    · simp

theorem evict_under {max newest posts bytes oldest : Nat} {rows : List PostRow}
    (hposts : posts ≤ max) (hbytes : bytes ≤ maxFeedBytes) :
    (evict max newest rows posts bytes oldest).gone = [] := by
  cases rows with
  | nil => rfl
  | cons r rest => rw [evict, if_neg (by omega)]

theorem after_then {m : FeedM Unit} {x : Nat × Bytes32} (d : Faulty Feeds) :
    (m >>= fun _ => (pure x : FeedM (Nat × Bytes32))).after d = m.after d := by
  cases h : m.result d with
  | ok u =>
    rw [Call.after, Call.bind_ok h]
    rfl
  | error e => rw [Call.after, Call.bind_error h]

theorem append_fault (hs : Booked s) (f : Fault) :
    Settled C s now (.append a p) (.fault f) := by
  obtain ⟨k, stops⟩ := f
  have hperform := @perform_append C a s p now hs
  cases haccept : s.accept C a p with
  | error e =>
    have hleft : struckBy C s now (.append a p) (.fault ⟨k, stops⟩) = s := by
      rw [struckBy, Call.after, append_error (d := ⟨s, some ⟨k, stops⟩⟩) haccept]
    exact .inl ⟨.inl (by simp [statements, haccept]), .inl hleft⟩
  | ok =>
    obtain ⟨rfl, -, hserial, -⟩ := accept_ok haccept
    obtain ⟨hsucceed, before, rest, hspec⟩ := appending_spec hs haccept now
    have hcount : statements C s now (.append p.account p) = (s.appending C p now).length := by
      simp [statements, haccept]
    have hstruck : struckBy C s now (.append p.account p) (.fault ⟨k, stops⟩) =
        ((Faulty.execAll FeedError.storage (s.appending C p now)).after
          ⟨s, some ⟨k, stops⟩⟩).store := by
      rw [struckBy, Call.after, append_admitted (d := ⟨s, some ⟨k, stops⟩⟩) haccept]
      exact congrArg Faulty.store (after_then _)
    simp only [haccept] at hperform
    by_cases hpast : (s.appending C p now).length ≤ k
    · have hrun := @Faulty.execAll_past _ _ FeedError.storage _ _ _ stops hsucceed hpast
      rw [Call.after, hrun] at hstruck
      exact .inl ⟨.inl (by rw [hcount]; exact hpast), .inr (hstruck.trans hperform.symm)⟩
    · have hrun := @Faulty.execAll_cut _ _ FeedError.storage _ _ _ stops hsucceed
        (Nat.lt_of_not_le hpast)
      rw [Call.after, hrun] at hstruck
      cases k with
      | zero => exact .inl ⟨.inr rfl, .inl hstruck⟩
      | succ k =>
        -- the row is in, some of the rows that go are gone, and the head is not written
        have hinsert : Faulty.attempted (insertPost (arriving p now)) s = placed p now s := by
          rw [Faulty.attempted, insertPost_fresh hs (by omega)]
          rfl
        have hk : k ≤ (s.makeRoom p now).gone.length := by
          simp only [appending, List.length_cons, List.length_map, List.length_append,
            List.length_nil] at hpast
          omega
        have hleft : struckBy C s now (.append p.account p) (.fault ⟨k + 1, stops⟩) =
            deleted p.account ((s.makeRoom p now).gone.take k) (placed p now s) := by
          rw [hstruck, appending, List.take_succ_cons, Faulty.struck, Faulty.applied_cons, hinsert,
            deleted, List.map_append, List.take_append_of_le_length (by simpa using hk),
            ← List.map_take, ← List.map_take]
        obtain ⟨hrows, hfeed, -⟩ := deleted_spec (a := p.account) (s := placed p now s)
          ((s.makeRoom p now).gone.take k)
        rw [← hleft] at hrows hfeed
        refine .inr ⟨?_, fun hsame => ?_, fun hsame => ?_⟩
        · rintro (hafter | hzero)
          · exact hpast (hcount ▸ hafter)
          · simp at hzero
        · have hmem : arriving p now ∈ s.rows p.account := by
            rw [hsame, rows_placed] at hrows
            rw [hrows]
            refine List.mem_filter.mpr ⟨by simp, ?_⟩
            have hgone := @newest_not_gone (s.headOf p.account).maxPosts
              p.serial.toNat ((s.headOf p.account).posts + 1)
              ((s.headOf p.account).bytes + p.stored)
              (if (s.headOf p.account).oldest = 0 then p.serial.toNat
                else (s.headOf p.account).oldest) (s.rows p.account ++ [arriving p now])
            rw [← makeRoom_eq hs haccept now] at hgone
            exact decide_eq_true fun hmem => hgone (List.mem_of_mem_take hmem)
          have hbelow := (hs p.account).below _ hmem
          dsimp only [arriving] at hbelow
          omega
        · have hhead : (perform C s now (.append p.account p)).headOf p.account =
              s.headOf p.account := by
            rw [hsame] at hfeed
            rw [headOf, show (perform C s now (.append p.account p)).feed = _ from hfeed]
            rfl
          rw [hperform, hspec.head] at hhead
          have hnewest := congrArg HeadRow.newest hhead
          dsimp only at hnewest
          omega

def Unborn (s : Feeds) : Prop :=
  ∀ a, (s.headOf a).newest = 0 →
    s.rows a = [] ∧ (s.headOf a).headInput = genesis ∧ (s.headOf a).oldest = 0

theorem unborn_opened : Unborn opened := fun a _ => by
  simp [opened, headOf, rows, HeadRow.absent]

theorem Unborn.perform (hs : Booked s ∧ Unborn s) (act : Act) :
    Booked (perform C s now act) ∧ Unborn (perform C s now act) := by
  refine perform_induction (P := fun s => Booked s ∧ Unborn s) (fun _ h => h.1)
    (fun t r h hr _ => ⟨h.1.stoned hr, fun b hb => ?_⟩)
    (fun p before rest t' h _ haccept hspec => ⟨hspec.books h.1 haccept, fun b hb => ?_⟩)
    (fun a retentionSecs _ listed h _ hmax =>
      ⟨h.1.withPolicy a retentionSecs listed _ hmax, fun b hb => ?_⟩)
    (fun t f h => ⟨h.1.sweepFeed now f, fun b hb => ?_⟩) hs
  · by_cases hbr : b = r.account
    · subst hbr
      rw [headOf_stoned (h.1 r.account).posts hr] at hb ⊢
      obtain ⟨hrows, hhead⟩ := h.2 r.account hb
      rw [rows_stoned, hrows]
      exact ⟨rfl, hhead⟩
    · rw [headOf_stoned_other hbr] at hb ⊢
      rw [rows_stoned_other hbr]
      exact h.2 b hb
  · obtain ⟨-, -, hserial, -⟩ := accept_ok haccept
    by_cases hbp : b = p.account
    · subst hbp
      rw [hspec.head] at hb
      dsimp only at hb
      omega
    · rw [(hspec.other b hbp).1] at hb ⊢
      rw [(hspec.other b hbp).2]
      exact h.2 b hb
  · rw [Feeds.withPolicy, headOf_insert] at hb ⊢
    split at hb
    · rename_i hab
      subst hab
      simp only [if_true]
      exact h.2 a hb
    · rename_i hab
      simp only [hab, if_false]
      exact h.2 b hb
  · rcases sweepFeed_cases now f h.1 with hsame | ⟨hrows, hhead, hother⟩
    · rw [hsame] at hb ⊢
      exact h.2 b hb
    · by_cases hbf : b = f.1
      · subst hbf
        rw [hhead] at hb ⊢
        obtain ⟨hempty, hinput, -⟩ := h.2 f.1 hb
        have hfresh : fresh now f t = [] := by simp [fresh, hempty]
        rw [hrows, hfresh]
        exact ⟨rfl, hinput, rfl⟩
      · rw [(hother b hbf).1] at hb ⊢
        rw [(hother b hbf).2]
        exact h.2 b hb

theorem headOf_forgetting : (s.forgetting a).headOf a = .absent := by
  simp [forgetting, headOf]

theorem appending_forgetting (hs : Booked s) (hunborn : Unborn s)
    (hnewest : (s.headOf p.account).newest = 0) (hserial : p.serial.toNat = 1) :
    (s.forgetting p.account).appending C p now = s.appending C p now := by
  obtain ⟨hrows, hinput, holdest⟩ := hunborn p.account hnewest
  have hposts : (s.headOf p.account).posts = 0 := by simpa [hrows] using (hs p.account).posts
  have hbytes : (s.headOf p.account).bytes = 0 := by simpa [hrows] using (hs p.account).bytes
  have hroom : ∀ t : Feeds, t.rows p.account = [] → (t.headOf p.account).oldest = 0 →
      (t.headOf p.account).posts = 0 → (t.headOf p.account).bytes = 0 →
      t.makeRoom p now = ⟨[], 1, p.stored, 1⟩ := by
    intro t hr ho hp hb
    simp only [makeRoom, hr, ho, hp, hb, hserial, List.nil_append, List.insertionSort,
      List.orderedInsert, List.foldr]
    rw [evict]
    simp [arriving, hserial]
  have hs' := hroom s hrows holdest hposts hbytes
  have hf := hroom (s.forgetting p.account) hrows (by rw [headOf_forgetting]; rfl)
    (by rw [headOf_forgetting]; rfl) (by rw [headOf_forgetting]; rfl)
  rw [appending, appending, hs', hf]
  have hhead : putHead p.account ((s.forgetting p.account).headAfter C p now) =
      putHead p.account (s.headAfter C p now) := by
    funext t
    simp only [putHead, headAfter, hs', hf]
  rw [hhead]

theorem appendUnread_error {e : FeedError} (h : (s.forgetting a).accept C a p = .error e) :
    struckBy C s now (.append a p) .unread = s := by
  change ((ofExcept ((s.forgetting a).accept C a p) >>= _ : FeedM _).after (.clean s)).store = s
  rw [h]
  rfl

theorem appendUnread_admitted (h : (s.forgetting a).accept C a p = .ok ()) :
    struckBy C s now (.append a p) .unread = ((Faulty.execAll FeedError.storage
      ((s.forgetting a).appending C p now)).after (.clean s)).store := by
  change ((ofExcept ((s.forgetting a).accept C a p) >>= fun _ =>
    Faulty.execAll .storage ((s.forgetting a).appending C p now) >>= fun _ =>
      (pure (p.serial.toNat, p.link C) : FeedM (Nat × Bytes32))).after (.clean s)).store = _
  rw [h]
  exact congrArg Faulty.store (after_then _)

theorem append_unread (hs : Booked s) (hunborn : Unborn s) :
    Settled C s now (.append a p) .unread := by
  cases hread : (s.forgetting a).accept C a p with
  | error e =>
    refine .inl ⟨fun h => ?_, .inl (appendUnread_error hread)⟩
    rw [hread] at h
    cases h
  | ok =>
    have hstruck := @appendUnread_admitted C a s p now hread
    have hok := accept_ok hread
    rw [headOf_forgetting] at hok
    obtain ⟨rfl, hsmall, hserial, hprev⟩ := hok
    have hone : p.serial.toNat = 1 := hserial
    have hperform := @perform_append C p.account s p now hs
    by_cases hnewest : (s.headOf p.account).newest = 0
    · -- the same post, on a head that says the same
      obtain ⟨-, hinput, -⟩ := hunborn p.account hnewest
      have haccept : s.accept C p.account p = .ok () := by
        have hsame : (s.forgetting p.account).accept C p.account p = s.accept C p.account p := by
          rw [accept, accept, headOf_forgetting, hnewest, hinput]
          rfl
        rw [← hsame, hread]
      have hsucceed := (appending_spec hs haccept now).1
      rw [appending_forgetting hs hunborn hnewest hone, Call.after,
        Faulty.execAll_clean hsucceed] at hstruck
      rw [haccept] at hperform
      exact .inl ⟨fun _ => .inl hnewest, .inr (hstruck.trans hperform.symm)⟩
    · by_cases hheld : s.post.any (PostRow.isKey p.account 1) = true
      · -- its row is taken
        have hinsert : insertPost (arriving p now) s = none := by
          refine if_pos ?_
          simpa [arriving, hone] using hheld
        have hfirst : Faulty.exec FeedError.storage (insertPost (arriving p now)) (.clean s) =
            (.error .storage, .clean s) := by
          simp [Faulty.exec, Faulty.clean, hinsert]
        rw [appending, Call.after, Faulty.execAll_cons_error hfirst] at hstruck
        exact .inl ⟨fun _ => .inr hheld, .inl hstruck⟩
      · -- the row goes in, and its head in place of the one there is
        have hinsert : insertPost (arriving p now) s = some (placed p now s) :=
          if_neg (by simpa [arriving, hone] using hheld)
        have hgone : ((s.forgetting p.account).makeRoom p now).gone = [] := by
          have hstored : p.stored ≤ maxFeedBytes := by
            unfold Post.stored maxFeedBytes postHeader
            unfold maxBody at hsmall
            omega
          rw [makeRoom, headOf_forgetting]
          exact evict_under (by decide) (by simpa [HeadRow.absent] using hstored)
        have hsucceed : Faulty.Succeed ((s.forgetting p.account).appending C p now) s :=
          ⟨by rw [hinsert]; rfl, Faulty.succeed_map _ _⟩
        rw [Call.after, Faulty.execAll_clean hsucceed] at hstruck
        have hpost : (struckBy C s now (.append p.account p) .unread).post =
            s.post ++ [arriving p now] := by
          rw [hstruck, appending, hgone, Faulty.applied_cons, Faulty.attempted, hinsert]
          rfl
        have hrefused : perform C s now (.append p.account p) = s := by
          rw [hperform]
          cases haccept : s.accept C p.account p with
          | error e => rfl
          | ok =>
            have hnext := (accept_ok haccept).2.2.1
            omega
        have hne : struckBy C s now (.append p.account p) .unread ≠ s := by
          intro hsame
          have hlength := congrArg (·.post.length) hsame
          simp [hpost] at hlength
        refine .inr ⟨fun h => ?_, hne, ?_⟩
        · rcases h hread with h | h
          · exact hnewest h
          · exact hheld h
        · rw [Write.act, hrefused]
          exact hne

end AppendFault

theorem settled (hs : Booked s) (hunborn : Unborn s) (w : Write) (σ : Strike) :
    Settled C s now w σ := by
  cases w with
  | append a p =>
    cases σ with
    | fault f => exact append_fault hs f
    | unread => exact append_unread hs hunborn
  | withdraw a n =>
    cases σ with
    | fault f =>
      rcases Nat.lt_or_ge f.after (s.expiring now).length with hcut | hpast
      · exact withdraw_cut hs hcut
      · exact withdraw_past hs hpast
    | unread => exact withdraw_unread hs

theorem append_next (hs : Booked s) (hp : IsNext C s a p) :
    (append C a p now).result (.clean s) = .ok (p.serial.toNat, p.link C) := by
  have haccept : s.accept C a p = .ok () := by
    have hsmall := hp.small
    simp [accept, hp.own, hp.flags, hp.whole, hp.signed, hp.serial, hp.prev]
    omega
  rw [append_result hs, haccept]

theorem happen_struck (w : Write) (σ : Strike) :
    happen C s (now, .struck w σ) = struckBy C s now w σ := rfl

theorem allOrNothing_iff (hs : Booked s ∧ Unborn s) (i : UInt64 × Event) :
    AllOrNothing C s i ↔ Spared C s i := by
  obtain ⟨now, act | ⟨w, σ⟩⟩ := i
  · exact Iff.rfl
  · rcases @settled C s now hs.1 hs.2 w σ with ⟨hspares, hstore⟩ | ⟨hspares, hne, hne'⟩
    · refine iff_of_true ⟨hstore, fun p later hp => append_next ?_ hp⟩ hspares
      rcases hstore with hsame | hsame
      · rw [happen_struck, hsame]
        exact hs.1
      · rw [happen_struck, hsame]
        exact hs.1.perform now w.act
    · exact iff_of_false (fun h => h.1.elim hne hne') hspares

theorem happen_keeps (hs : Booked s ∧ Unborn s) (i : UInt64 × Event) (hspared : Spared C s i) :
    Booked (happen C s i) ∧ Unborn (happen C s i) := by
  obtain ⟨now, act | ⟨w, σ⟩⟩ := i
  · exact Unborn.perform hs act
  · rcases @settled C s now hs.1 hs.2 w σ with ⟨-, hsame | hsame⟩ | ⟨hnot, -⟩
    · rw [happen_struck, hsame]
      exact hs
    · rw [happen_struck, hsame]
      exact Unborn.perform hs w.act
    · exact absurd hspared hnot

/-- Over every run of operations, any of the writes struck anywhere: they are all or nothing as
long as each strike is one that is spared them, and the first that is not is neither. -/
theorem all_or_nothing_iff (C : Crypto) (events : List (UInt64 × Event)) :
    Each (AllOrNothing C) (happen C) opened events ↔ Each (Spared C) (happen C) opened events :=
  each_congr (I := fun s => Booked s ∧ Unborn s) (fun _ i hs _ hspared => happen_keeps hs i hspared)
    (fun _ i hs _ => allOrNothing_iff hs i) ⟨booked_opened, unborn_opened⟩
    (@each_of_mem _ _ (fun _ _ => True) _ _ (fun _ _ _ => trivial) opened)

/-- A crash after the first statement of a first post: the row is there and the head is not, and
the post, which is still the next, is refused. -/
theorem half_appended :
    ¬ AllOrNothing .toy opened (1, .struck (.append author firstPost) (.fault ⟨1, true⟩)) ∧
      IsNext .toy (struckBy .toy opened 1 (.append author firstPost) (.fault ⟨1, true⟩)) author
        firstPost ∧
      (append .toy author firstPost 2).result
        (.clean (struckBy .toy opened 1 (.append author firstPost) (.fault ⟨1, true⟩))) =
          .error .storage := by
  refine ⟨fun h => ?_, ?_, by decide +kernel⟩
  · rcases h.1 with hsame | hsame
    · have hheld := congrArg (fun s => s.post.length) hsame
      revert hheld
      decide +kernel
    · have hnewest := congrArg (fun s => (s.headOf author).newest) hsame
      revert hnewest
      decide +kernel
  · constructor <;> decide +kernel

end Feeds
end Sqex.Feed
