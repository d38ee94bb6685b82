import Sqex.Exchange.FeedLog

/-! What a feed's head says of its last post, at any times at all, and what an append and an
expiry make of one feed. -/
namespace Sqex.Feed.Feeds
open Runs
variable {C : Crypto} {a : PubKey} {s s' : Feeds} {p q : Post} {now : UInt64}
variable {before rest : List PostRow}

structure Tip (C : Crypto) (h : HeadRow) (rows : List PostRow) : Prop where
  last : ∀ r ∈ rows, r.serial = h.newest → r.post.link C = h.headInput
  first : h.newest = 0 → h.headInput = genesis

theorem Tip.of_rows {h h' : HeadRow} {rows rows' : List PostRow} (htip : Tip C h rows)
    (hnewest : h'.newest = h.newest) (hinput : h'.headInput = h.headInput)
    (hrows : ∀ r ∈ rows', ∃ r₀ ∈ rows, r₀.serial = r.serial ∧ r₀.post.link C = r.post.link C) :
    Tip C h' rows' where
  last r hr hserial := by
    obtain ⟨r₀, hr₀, hsame, hlink⟩ := hrows r hr
    have hlast := htip.last r₀ hr₀ (by omega)
    rw [hinput, ← hlast, hlink]
  first hzero := by
    rw [hinput]
    exact htip.first (by omega)

theorem mem_stonedAt {r : PostRow} {n : Nat} {rows : List PostRow} (hr : r ∈ stonedAt n rows) :
    ∃ r₀ ∈ rows, r₀.serial = r.serial ∧ r₀.post.link C = r.post.link C := by
  obtain ⟨r₀, hr₀, hsame⟩ := List.mem_map.mp hr
  refine ⟨r₀, hr₀, ?_⟩
  split at hsame
  all_goals subst hsame
  all_goals exact ⟨rfl, rfl⟩

def Tipped (C : Crypto) (s : Feeds) : Prop :=
  Booked s ∧ ∀ a, Tip C (s.headOf a) (s.rows a)

theorem tipped_opened : Tipped C opened := by
  refine ⟨booked_opened, fun a => ?_⟩
  have hhead : opened.headOf a = .absent := by simp [opened, headOf]
  rw [hhead]
  exact ⟨by simp [opened, rows], fun _ => rfl⟩

theorem Appended.mem_rest {r : PostRow} (h : Appended C s p now before rest s') (hr : r ∈ rest) :
    r ∈ s.rows p.account ∨ r = arriving p now := by
  have hmem : r ∈ s.rows p.account ++ [arriving p now] := by
    rw [h.split]
    exact List.mem_append_right _ hr
  simpa using hmem

theorem Appended.arriving_mem (h : Appended C s p now before rest s') :
    arriving p now ∈ s'.rows p.account := by
  have hlast := congrArg List.getLast? h.split
  have hrest : rest.getLast? = some (arriving p now) := by
    rw [List.getLast?_append_of_ne_nil before h.kept] at hlast
    simpa using hlast.symm
  rw [h.rows]
  exact List.mem_of_getLast? hrest

theorem Appended.gone_eq (h : Appended C s p now before rest s') (hs : Booked s)
    (haccept : s.accept C a p = .ok ()) :
    (s.makeRoom p now).gone = before.map (·.serial) := by
  have hroom := makeRoom_eq hs haccept now
  obtain ⟨rfl, hbody, hserial, -⟩ := accept_ok haccept
  have hnew := (hs p.account).snoc (r := arriving p now) hserial hbody 0 0
  have hlast : ∀ r, (s.rows p.account ++ [arriving p now]).getLast? = some r →
      r.serial = p.serial.toNat := by
    intro r hr
    obtain rfl : arriving p now = r := by simpa using hr
    rfl
  obtain ⟨gone, left, hsplit, -, hgone, -⟩ := @evict_spec (s.headOf p.account).maxPosts
    p.serial.toNat ((s.headOf p.account).posts + 1) ((s.headOf p.account).bytes + p.stored)
    (if (s.headOf p.account).oldest = 0 then p.serial.toNat else (s.headOf p.account).oldest)
    _ hlast hnew.ascending hnew.posts hnew.bytes (by simp)
  rw [← hroom] at hgone
  have hlength : gone.length = before.length := by
    rw [← h.oldest, hgone, List.length_map]
  have hsame : gone = before := List.append_inj_left (hsplit.symm.trans h.split) hlength
  rw [hgone, hsame]

theorem Tipped.append (hs : Tipped C s) (haccept : s.accept C p.account p = .ok ())
    (h : Appended C s p now before rest s') : Tipped C s' := by
  refine ⟨h.books hs.1 haccept, fun b => ?_⟩
  obtain ⟨-, -, hserial, -⟩ := accept_ok haccept
  by_cases hb : b = p.account
  · subst hb
    rw [h.head, h.rows]
    refine ⟨fun r hr hnewest => ?_, fun hzero => ?_⟩
    · cases h.mem_rest hr with
      | inl hold =>
        have hbelow := (hs.1 p.account).below r hold
        simp only at hnewest
        omega
      | inr hnew =>
        subst hnew
        rfl
    · simp only at hzero
      omega
  · rw [(h.other b hb).1, (h.other b hb).2]
    exact hs.2 b

theorem Tipped.perform (hs : Tipped C s) (act : Act) : Tipped C (perform C s now act) := by
  refine perform_induction (P := Tipped C) (fun _ hs => hs.1)
    (fun s r hs hr _ => ⟨hs.1.stoned hr, fun b => ?_⟩)
    (fun _ _ _ _ hs _ haccept hspec => hs.append haccept hspec)
    (fun b retentionSecs _ listed hs _ hmax =>
      ⟨hs.1.withPolicy b retentionSecs listed _ hmax, fun c => ?_⟩)
    (fun s f hs => ⟨hs.1.sweepFeed now f, fun b => ?_⟩) hs
  · by_cases hb : b = r.account
    · subst hb
      rw [headOf_stoned (hs.1 r.account).posts hr, rows_stoned]
      exact (hs.2 r.account).of_rows rfl rfl fun x hx => mem_stonedAt hx
    · rw [headOf_stoned_other hb, rows_stoned_other hb]
      exact hs.2 b
  · rw [Feeds.withPolicy, headOf_insert]
    split
    · rename_i hbc
      subst hbc
      exact (hs.2 b).of_rows rfl rfl fun x hx => ⟨x, hx, rfl, rfl⟩
    · exact hs.2 c
  · cases sweepFeed_cases now f hs.1 with
    | inl hsame =>
      rw [hsame]
      exact hs.2 b
    | inr hswept =>
      obtain ⟨hrows, hhead, hother⟩ := hswept
      by_cases hb : b = f.1
      · rw [hb, hrows, hhead]
        exact (hs.2 f.1).of_rows rfl rfl fun x hx => ⟨x, List.mem_of_mem_filter hx, rfl, rfl⟩
      · rw [(hother b hb).1, (hother b hb).2]
        exact hs.2 b

theorem tipped_run (acts : List (UInt64 × Act)) : Tipped C (run (step C) opened acts) :=
  run_invariant (fun _ i hs => hs.perform i.2) tipped_opened acts

theorem append_cases (C : Crypto) (hs : Booked s) (a : PubKey) (p : Post) (now : UInt64) :
    (∃ e, (append C a p now).result (.clean s) = .error e ∧ after (append C a p now) s = s) ∨
      s.accept C a p = .ok () ∧ p.account = a ∧
        (append C a p now).result (.clean s) = .ok (p.serial.toNat, p.link C) ∧
        ∃ before rest, Appended C s p now before rest (after (append C a p now) s) := by
  have hresult := @append_result C now s a p hs
  cases haccept : s.accept C a p with
  | error e =>
    rw [haccept] at hresult
    refine .inl ⟨e, hresult, ?_⟩
    rw [after, Call.after, append_error (d := .clean s) haccept]
    rfl
  | ok =>
    rw [haccept] at hresult
    obtain ⟨haccount, -⟩ := accept_ok haccept
    obtain ⟨-, before, rest, hspec⟩ := appending_spec hs haccept now
    refine .inr ⟨rfl, haccount, hresult, before, rest, ?_⟩
    rw [after, Call.after, append_clean hs haccept now]
    exact hspec

/-- What an expiry does to one feed: its head's serial and link stay, and so does a row that
does not expire by then; the rest may lose a body. -/
structure Aged (C : Crypto) (now : UInt64) (a : PubKey) (s s' : Feeds) : Prop where
  newest : (s'.headOf a).newest = (s.headOf a).newest
  input : (s'.headOf a).headInput = (s.headOf a).headInput
  stays : ∀ r ∈ s.rows a, now.toInt64 < r.expiresAt → r ∈ s'.rows a
  rows : ∀ r ∈ s'.rows a, ∃ r₀ ∈ s.rows a, r₀.serial = r.serial ∧
    r₀.post.link C = r.post.link C

theorem Aged.refl (C : Crypto) (now : UInt64) (a : PubKey) (s : Feeds) : Aged C now a s s :=
  ⟨rfl, rfl, fun _ hr _ => hr, fun r hr => ⟨r, hr, rfl, rfl⟩⟩

theorem Aged.trans {s₁ s₂ s₃ : Feeds} (h : Aged C now a s₁ s₂) (h' : Aged C now a s₂ s₃) :
    Aged C now a s₁ s₃ where
  newest := h'.newest.trans h.newest
  input := h'.input.trans h.input
  stays r hr hlate := h'.stays r (h.stays r hr hlate) hlate
  rows r hr := by
    obtain ⟨r₂, hr₂, hserial₂, hlink₂⟩ := h'.rows r hr
    obtain ⟨r₁, hr₁, hserial₁, hlink₁⟩ := h.rows r₂ hr₂
    exact ⟨r₁, hr₁, hserial₁.trans hserial₂, hlink₁.trans hlink₂⟩

theorem aged_stoned {r : PostRow} (hs : Booked s) (hr : r ∈ s.post)
    (hdue : r.expiresAt ≤ now.toInt64) (a : PubKey) : Aged C now a s (stoned r s) := by
  by_cases ha : a = r.account
  · subst ha
    have hhead := headOf_stoned (hs r.account).posts hr
    refine ⟨by rw [hhead], by rw [hhead], fun x hx hlate => ?_, fun x hx => ?_⟩
    · rw [rows_stoned]
      refine List.mem_map.mpr ⟨x, hx, if_neg fun hserial => ?_⟩
      have hsame := (hs r.account).unique hx (mem_rows.mpr ⟨hr, rfl⟩) hserial
      rw [hsame] at hlate
      exact absurd hdue (Int64.not_le.mpr hlate)
    · rw [rows_stoned] at hx
      exact mem_stonedAt hx
  · have hrefl := Aged.refl C now a s
    exact ⟨by rw [headOf_stoned_other ha], by rw [headOf_stoned_other ha],
      by rw [rows_stoned_other ha]; exact hrefl.stays,
      by rw [rows_stoned_other ha]; exact hrefl.rows⟩

theorem aged_expire (hs : Booked s) (now : UInt64) (a : PubKey) :
    Aged C now a s (after (expire now) s) := by
  obtain ⟨hmem, hdistinct⟩ := due_spec hs now
  have hall := stoning_induction
    (P := fun rs t => (∀ r ∈ rs, r.expiresAt ≤ now.toInt64) ∧ Booked t ∧ Aged C now a s t)
    (fun t r rs h hr _ => ⟨fun x hx => h.1 x (by simp [hx]), h.2.1.stoned hr,
      h.2.2.trans (aged_stoned h.2.1 hr (h.1 r (by simp)) a)⟩)
    ⟨fun r hr => ?_, hs, Aged.refl C now a s⟩ hmem hdistinct
  · rw [after_expire]
    exact hall.2.2
  · have hdue := (List.mem_filter.mp hr).2
    simp only [Bool.and_eq_true, decide_eq_true_eq] at hdue
    exact hdue.1

end Sqex.Feed.Feeds
