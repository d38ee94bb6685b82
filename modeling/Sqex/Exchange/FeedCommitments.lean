import Sqex.Exchange.FeedPages

/-! What a feed serves is what its author committed to: each post held or served is one that an
append accepted, or what is left of one, and carries the hash of the body that was signed. An
empty body is not held to its hash. -/
namespace Sqex.Feed
open Runs
variable {C : Crypto}

theorem mem_fill {posts : List Stored} {total : Nat} {rows : List PostRow} {x : Stored}
    (hx : x ∈ fill posts total rows) : x ∈ posts ∨ ∃ r ∈ rows, x = r.served := by
  induction rows generalizing posts total with
  | nil => exact .inl hx
  | cons r rows ih =>
    rw [fill] at hx
    split at hx
    · exact .inl hx
    · cases ih hx with
      | inl hbefore =>
        cases List.mem_append.mp hbefore with
        | inl hold => exact .inl hold
        | inr hthis => exact .inr ⟨r, by simp, List.mem_singleton.mp hthis⟩
      | inr hlater =>
        obtain ⟨y, hy, rfl⟩ := hlater
        exact .inr ⟨y, by simp [hy], rfl⟩

namespace Feeds
variable {s : Feeds} {a : PubKey} {p q : Post} {now : UInt64}

theorem mem_selected {req : Read} {r : PostRow} (hr : r ∈ s.selected req) :
    r ∈ s.rows req.account := by
  rw [selected] at hr
  split at hr <;>
    exact List.mem_of_mem_filter ((List.mem_insertionSort _).mp (List.mem_of_mem_take hr))

theorem mem_read {blocked : PubKey → PubKey → Bool} {caller : PubKey} {req : Read} {x : Stored}
    (hx : x ∈ (s.read blocked caller req now).2.posts) :
    ∃ r ∈ (after (expire now) s).post, r.account = req.account ∧ x = r.served := by
  cases hblocked : blocked req.account caller with
  | true =>
    rw [read_blocked req hblocked] at hx
    exact absurd hx List.not_mem_nil
  | false =>
    rw [(read_open s req now hblocked).2] at hx
    split at hx
    · cases mem_fill hx with
      | inl hnone => exact absurd hnone List.not_mem_nil
      | inr hrow =>
        obtain ⟨r, hr, rfl⟩ := hrow
        obtain ⟨hpost, haccount⟩ := mem_rows.mp (mem_selected hr)
        exact ⟨r, hpost, haccount, rfl⟩
    · exact absurd hx List.not_mem_nil

def taken (C : Crypto) (s : Feeds) : UInt64 × Act → List Post
  | (now, .append a p) =>
    match (append C a p now).result (.clean s) with
    | .ok _ => [p]
    | .error _ => []
  | _ => []

theorem mem_taken (hs : Booked s) {i : UInt64 × Act} :
    p ∈ taken C s i ↔ i.2 = .append p.account p ∧ s.accept C p.account p = .ok () := by
  obtain ⟨now, act⟩ := i
  cases act with
  | append a q =>
    rw [taken, append_result hs]
    cases haccept : s.accept C a q with
    | error e =>
      simp only [List.not_mem_nil, false_iff, not_and, Act.append.injEq]
      rintro ⟨rfl, rfl⟩
      simp [haccept]
    | ok =>
      obtain ⟨rfl, -⟩ := accept_ok haccept
      simp only [List.mem_singleton, Act.append.injEq]
      constructor
      · rintro rfl
        exact ⟨⟨rfl, rfl⟩, haccept⟩
      · exact fun h => h.1.2.symm
  | withdraw | set | read | sweep => simp [taken]

def acceptedBy (C : Crypto) (acts : List (UInt64 × Act)) : List Post :=
  emitted (taken C) (step C) opened acts

def Covered (C : Crypto) (accepted : List Post) (q : Post) : Prop :=
  ∃ p ∈ accepted, (q = p ∨ q = p.tombstone) ∧ q.verify C = true ∧ q.bodyHash = C.sha256 p.body

/-- Commitments cover what is served: every post accepted carries the hash of its body, and every
post held, and every post on any page read at any moment, is covered by one. -/
structure Commits (C : Crypto) (acts : List (UInt64 × Act)) : Prop where
  accepted : ∀ p ∈ acceptedBy C acts, p.bodyHash = C.sha256 p.body
  held : ∀ before rest, acts = before ++ rest → ∀ r ∈ (run (step C) opened before).post,
    Covered C (acceptedBy C before) r.post
  served : ∀ before rest, acts = before ++ rest → ∀ blocked caller req now,
    ∀ x ∈ ((run (step C) opened before).read blocked caller req now).2.posts,
      x.post.account = req.account ∧ Covered C (acceptedBy C before) x.post

/-- A post without a body that the feed takes next, by everything but its hash. -/
def Bare (C : Crypto) (s : Feeds) (p : Post) : Prop :=
  p.body = [] ∧ p.flags = 0 ∧ p.verify C = true ∧
    p.serial.toNat = (s.headOf p.account).newest + 1 ∧ p.prev = (s.headOf p.account).headInput

theorem checks_of_accept (h : s.accept C a p = .ok ()) :
    p.flags = 0 ∧ p.bodyMatches C = true ∧ p.verify C = true := by
  unfold accept at h
  split at h
  · simp at h
  split at h
  · simp at h
  rename_i hflags
  split at h
  · simp at h
  split at h
  · simp at h
  rename_i hmatches
  split at h
  · simp at h
  rename_i hverify
  exact ⟨by simpa using hflags, by simpa using hmatches, by simpa using hverify⟩

theorem hash_of_accept (h : s.accept C p.account p = .ok ()) (hbare : ¬ Bare C s p) :
    p.bodyHash = C.sha256 p.body := by
  obtain ⟨-, -, hserial, hprev⟩ := accept_ok h
  obtain ⟨hflags, hmatches, hverify⟩ := checks_of_accept h
  have hbody : p.body ≠ [] := fun hnil => hbare ⟨hnil, hflags, hverify, hserial, hprev⟩
  have hhash : C.sha256 p.body = p.bodyHash := by simpa [Post.bodyMatches, hbody] using hmatches
  exact hhash.symm

theorem Bare.accept (h : Bare C s p) : s.accept C p.account p = .ok () := by
  obtain ⟨hbody, hflags, hverify, hserial, hprev⟩ := h
  simp [Feeds.accept, hbody, hflags, hverify, hserial, hprev, Post.bodyMatches]

def Came (C : Crypto) (accepted : List Post) (r : PostRow) : Prop :=
  r.post.account = r.account ∧
    ∃ p ∈ accepted, (r.post = p ∨ r.post = p.tombstone) ∧ r.post.verify C = true

theorem Came.stone {accepted : List Post} {r : PostRow} (h : Came C accepted r) :
    Came C accepted r.stone := by
  obtain ⟨haccount, p, hp, hfrom, hverify⟩ := h
  have hstone : r.post.tombstone = p.tombstone := by
    cases hfrom with
    | inl hwhole => rw [hwhole]
    | inr hleft => rw [hleft, Post.tombstone, Post.tombstone]
  exact ⟨haccount, p, hp, .inr hstone, hverify⟩

theorem run_came (acts : List (UInt64 × Act)) :
    ∀ r ∈ (run (step C) opened acts).post, Came C (acceptedBy C acts) r := by
  induction acts using List.reverseRecOn with
  | nil => exact fun r hr => absurd hr List.not_mem_nil
  | append_singleton acts i ih =>
    have hbooked := run_booked (C := C) booked_opened acts
    rw [run_append]
    refine perform_rows hbooked (fun r => Came.stone) (fun p hact haccept => ?_) fun r hr => ?_
    · have hp : p ∈ taken C (run (step C) opened acts) i := (mem_taken hbooked).mpr ⟨hact, haccept⟩
      refine ⟨rfl, p, ?_, .inl rfl, (checks_of_accept haccept).2.2⟩
      rw [acceptedBy, emitted_append]
      exact List.mem_append_right _ (List.mem_append_left _ hp)
    · obtain ⟨haccount, p, hp, hfrom⟩ := ih r hr
      refine ⟨haccount, p, ?_, hfrom⟩
      rw [acceptedBy, emitted_append]
      exact List.mem_append_left _ hp

theorem Came.covered {accepted : List Post} {r : PostRow} (h : Came C accepted r)
    (hhash : ∀ p ∈ accepted, p.bodyHash = C.sha256 p.body) : Covered C accepted r.post := by
  obtain ⟨-, p, hp, hfrom, hverify⟩ := h
  refine ⟨p, hp, hfrom, hverify, ?_⟩
  have hsame : r.post.bodyHash = p.bodyHash := by
    cases hfrom with
    | inl hwhole => rw [hwhole]
    | inr hleft => rw [hleft, Post.tombstone]
  rw [hsame, hhash p hp]

/-- Over any run, commitments cover what is held and served exactly where no append takes a post
that has no body and does not carry the hash of none. -/
theorem commits_iff (C : Crypto) (acts : List (UInt64 × Act)) :
    Commits C acts ↔ Each (fun s i => ∀ p, i.2 = .append p.account p → Bare C s p →
      p.bodyHash = C.sha256 []) (step C) opened acts := by
  have hall : (∀ p ∈ acceptedBy C acts, p.bodyHash = C.sha256 p.body) ↔
      Each (fun s i => ∀ p, i.2 = .append p.account p → Bare C s p →
        p.bodyHash = C.sha256 []) (step C) opened acts := by
    rw [acceptedBy, forall_emitted_iff]
    have hany : Each (fun _ _ => True) (step C) opened acts :=
      each_of_mem (fun _ _ _ => trivial) opened
    refine each_congr (fun s i (hs : Booked s) _ _ => hs.perform i.1 i.2) (fun s i hs _ => ?_)
      booked_opened hany
    constructor
    · intro h p hact hbare
      have hhash := h p ((mem_taken hs).mpr ⟨hact, hbare.accept⟩)
      rwa [hbare.1] at hhash
    · intro h p hp
      obtain ⟨hact, haccept⟩ := (mem_taken hs).mp hp
      by_cases hbare : Bare C s p
      · rw [h p hact hbare, hbare.1]
      · exact hash_of_accept haccept hbare
  refine ⟨fun h => hall.mp h.accepted, fun h => ?_⟩
  have haccepted := hall.mpr h
  have hbefore : ∀ before rest, acts = before ++ rest →
      ∀ p ∈ acceptedBy C before, p.bodyHash = C.sha256 p.body := by
    rintro before rest rfl p hp
    refine haccepted p ?_
    rw [acceptedBy, emitted_append]
    exact List.mem_append_left _ hp
  refine ⟨haccepted, fun before rest hsplit r hr => ?_, ?_⟩
  · exact (run_came before r hr).covered (hbefore before rest hsplit)
  · intro before rest hsplit blocked caller req now x hx
    obtain ⟨r, hr, haccount, rfl⟩ := mem_read hx
    -- a page is read of what is left once the moment's due are gone, as after a read
    have hcame := run_came (C := C) (before ++ [(now, .read)]) r (by rw [run_append]; exact hr)
    have hnone : acceptedBy C (before ++ [(now, .read)]) = acceptedBy C before := by
      rw [acceptedBy, emitted_append]
      exact List.append_nil _
    rw [hnone] at hcame
    exact ⟨hcame.1.trans haccount, hcame.covered (hbefore before rest hsplit)⟩

section Edges

def hollow : Post :=
  let p : Post := ⟨author, author, 1, genesis, 0, 0, 0, Crypto.toy.sha256 [7], [], 0⟩
  { p with signature := Crypto.toy.sign 1 (p.inputHashed .toy p.bodyHash) }

/-- A post without a body is taken whatever it commits to, and served so. -/
theorem hollow_not_commits :
    hollow.body = [] ∧ hollow.bodyHash ≠ Crypto.toy.sha256 hollow.body ∧
      acceptedBy .toy [(1, .append author hollow)] = [hollow] ∧
      ¬ Commits .toy [(1, .append author hollow)] := by
  have hhash : hollow.bodyHash ≠ Crypto.toy.sha256 hollow.body := by decide +kernel
  have htaken : acceptedBy .toy [(1, .append author hollow)] = [hollow] := by decide +kernel
  refine ⟨rfl, hhash, htaken, fun h => hhash (h.accepted hollow ?_)⟩
  rw [htaken]
  exact List.mem_singleton_self _

end Edges

end Feeds
end Sqex.Feed
