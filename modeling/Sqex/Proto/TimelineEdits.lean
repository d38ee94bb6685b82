import Sqex.Proto.TimelineFinal

/-! The edit with the highest sequence number wins, in whatever order posts and their edits
arrive. -/
namespace Sqex.Timeline
open Std
variable {target : UInt64}

def Says (e : Received) : Prop :=
  (∃ post, e.read = some (.post post)) ∨ ∃ target post, e.read = some (.edit target post)

structure Edits (e₀ e : Received) (post : Post) : Prop where
  read : e.read = some (.edit e₀.seq post)
  account : e₀.account = e.account
  window : saturatingSub e.posted e₀.posted ≤ editWindow

def PostsFirst (entries : List Received) : Prop :=
  entries.Pairwise fun e e₀ => ∀ post target post', e₀.read = some (.post post) →
    e.read = some (.edit target post') → target ≠ e₀.seq

inductive Shown (entries : List Received) (e₀ : Received) (post : Post) : Message → Prop
  | posted : (∀ e ∈ entries, ∀ p, ¬ Edits e₀ e p) → Shown entries e₀ post (.fresh e₀ post)
  | edited (e : Received) (p : Post) : e ∈ entries → Edits e₀ e p →
    (∀ e' ∈ entries, ∀ p', Edits e₀ e' p' → e'.seq ≤ e.seq) →
    Shown entries e₀ post ((Message.fresh e₀ post).amend e p)

structure Holds (entries : List Received) (t : Timeline) : Prop where
  posted : ∀ seq m, t.messages[seq]? = some m →
    ∃ e₀ ∈ entries, ∃ post, e₀.read = some (.post post) ∧ e₀.seq = seq ∧ Shown entries e₀ post m
  shown : ∀ e₀ ∈ entries, ∀ post, e₀.read = some (.post post) → e₀.seq ∈ t.messages

def Distinct (entries : List Received) : Prop :=
  ∀ a ∈ entries, ∀ b ∈ entries, a.seq = b.seq → a = b

theorem distinct_of_nodup {entries : List Received} (h : (entries.map (·.seq)).Nodup) :
    Distinct entries :=
  fun _ ha _ hb heq => List.inj_on_of_nodup_map h ha hb heq

section
variable {entries : List Received} {e e₀ : Received} {post p : Post} {m : Message}

theorem Edits.post_eq {p' : Post} (h : Edits e₀ e p) (h' : Edits e₀ e p') : p = p' := by
  have heq := h.read.symm.trans h'.read
  simpa using heq

theorem Shown.unique {m' : Message} (hdistinct : Distinct entries) (h : Shown entries e₀ post m)
    (h' : Shown entries e₀ post m') : m = m' := by
  cases h with
  | posted hnone =>
    cases h' with
    | posted => rfl
    | edited e p he hedits => exact absurd hedits (hnone e he p)
  | edited e p he hedits hlast =>
    cases h' with
    | posted hnone => exact absurd hedits (hnone e he p)
    | edited e' p' he' hedits' hlast' =>
      have hseq := UInt64.le_antisymm (hlast' e he p hedits) (hlast e' he' p' hedits')
      obtain rfl := hdistinct e he e' he' hseq
      rw [hedits.post_eq hedits']

theorem Shown.perm {entries' : List Received} (hperm : entries'.Perm entries)
    (h : Shown entries' e₀ post m) : Shown entries e₀ post m := by
  cases h with
  | posted hnone => exact .posted fun e he => hnone e (hperm.mem_iff.mpr he)
  | edited e p he hedits hlast =>
    exact .edited e p (hperm.mem_iff.mp he) hedits fun e' he' => hlast e' (hperm.mem_iff.mpr he')

theorem Shown.other (h : Shown entries e₀ post m) (hnot : ∀ p, ¬ Edits e₀ e p) :
    Shown (entries ++ [e]) e₀ post m := by
  cases h with
  | posted hnone =>
    refine .posted fun e' he' => ?_
    cases List.mem_append.mp he' with
    | inl hold => exact hnone e' hold
    | inr hnew => rwa [List.mem_singleton.mp hnew]
  | edited e' p he' hedits hlast =>
    refine .edited e' p (List.mem_append_left _ he') hedits fun e'' he'' p' hedits' => ?_
    cases List.mem_append.mp he'' with
    | inl hold => exact hlast e'' hold p' hedits'
    | inr hnew => exact absurd (List.mem_singleton.mp hnew ▸ hedits') (hnot p')

theorem Shown.edit (h : Shown entries e₀ post m) (hedits : Edits e₀ e p) :
    Shown (entries ++ [e]) e₀ post
      (if m.editSeq.any (fun prev => decide (prev > e.seq)) then m else m.amend e p) := by
  have hself : e ∈ entries ++ [e] := by simp
  cases h with
  | posted hnone =>
    have hfirst : ((Message.fresh e₀ post).editSeq.any fun prev => decide (prev > e.seq)) = false :=
      rfl
    rw [hfirst, if_neg Bool.false_ne_true]
    refine .edited e p hself hedits fun e' he' p' hedits' => ?_
    rcases Runs.mem_concat.mp he' with hold | rfl
    · exact absurd hedits' (hnone e' hold p')
    · exact UInt64.le_refl _
  | edited e₁ p₁ he₁ hedits₁ hlast =>
    have hany : (((Message.fresh e₀ post).amend e₁ p₁).editSeq.any
        fun prev => decide (prev > e.seq)) = decide (e₁.seq > e.seq) := rfl
    rw [hany]
    by_cases hlater : e₁.seq > e.seq
    · rw [decide_eq_true hlater, if_pos rfl]
      refine .edited e₁ p₁ (List.mem_append_left _ he₁) hedits₁ fun e' he' p' hedits' => ?_
      rcases Runs.mem_concat.mp he' with hold | rfl
      · exact hlast e' hold p' hedits'
      · exact UInt64.le_of_lt hlater
    · rw [decide_eq_false hlater, if_neg Bool.false_ne_true]
      have hagain : ((Message.fresh e₀ post).amend e₁ p₁).amend e p =
          (Message.fresh e₀ post).amend e p := rfl
      rw [hagain]
      refine .edited e p hself hedits fun e' he' p' hedits' => ?_
      rcases Runs.mem_concat.mp he' with hold | rfl
      · exact UInt64.le_trans (hlast e' hold p' hedits') (UInt64.not_lt.mp hlater)
      · exact UInt64.le_refl _

theorem Shown.keeps (h : Shown entries e₀ post m) :
    m.account = e₀.account ∧ m.posted = e₀.posted := by
  cases h <;> exact ⟨rfl, rfl⟩

end

section
variable {entries : List Received} {t : Timeline} {e : Received} {admins : List PubKey}

theorem apply_read {body : Body} (h : e.read = some body) :
    t.apply e admins = (t.marked e).applyBody e admins body := by
  rcases t.apply_cases e admins with ⟨hnone, _⟩ | ⟨_, hbody, heq⟩ | ⟨hbody, _⟩ | ⟨hbody, _⟩
  · simp [hnone] at h
  · rw [hbody, Option.some.injEq] at h
    rw [heq, h]
  all_goals simp [Received.read, hbody.1, hbody.2.1, hbody.2.2.1, hbody.2.2.2] at h

/-- An edit of nothing, by somebody else or too late changes nothing; one that is in order
leaves the later of itself and the edit before it. -/
theorem apply_edit_messages (t : Timeline) (admins : List PubKey) {post : Post}
    (h : e.read = some (.edit target post)) :
    (t.apply e admins).messages = match t.messages[target]? with
      | none => t.messages
      | some m =>
        if m.account = e.account ∧ saturatingSub e.posted m.posted ≤ editWindow then
          t.messages.insert target
            (if m.editSeq.any (fun prev => decide (prev > e.seq)) then m else m.amend e post)
        else t.messages := by
  rw [apply_read h, applyBody, applyEdit, marked_messages]
  cases hm : t.messages[target]? with
  | none => simp
  | some m =>
    by_cases haccount : m.account = e.account
    · by_cases hwindow : saturatingSub e.posted m.posted ≤ editWindow
      · simp only [haccount, not_true_eq_false, ne_eq, if_false, hwindow, and_self, if_true,
          gt_iff_lt, UInt64.not_lt.mpr hwindow]
        split
        · rw [insert_of_lookup hm, marked_messages]
        · rfl
      · simp [haccount, hwindow, UInt64.not_le.mp hwindow]
    · simp [haccount]

theorem Holds.post {post : Post} (h : Holds entries t) (hread : e.read = some (.post post))
    (hfirst : PostsFirst (entries ++ [e])) : Holds (entries ++ [e]) (t.apply e admins) := by
  have hself : e ∈ entries ++ [e] := by simp
  have hmessages : (t.apply e admins).messages = t.messages.insert e.seq (.fresh e post) := by
    rw [apply_read hread, applyBody, marked_messages]
  have hnot (e₀ : Received) (p : Post) : ¬ Edits e₀ e p := fun hedits => by
    have := hedits.read
    simp [hread] at this
  constructor
  case posted =>
    intro seq m hm
    rw [hmessages, lookup_insert] at hm
    split at hm
    case isTrue hseq =>
      obtain rfl := Option.some.inj hm
      refine ⟨e, hself, post, hread, hseq, .posted fun e' he' p hedits => ?_⟩
      cases List.mem_append.mp he' with
      | inl hold =>
        have hlate := (List.pairwise_append.mp hfirst).2.2 e' hold e (by simp)
        exact hlate post e.seq p hread hedits.read rfl
      | inr hnew => exact hnot e p (List.mem_singleton.mp hnew ▸ hedits)
    case isFalse =>
      obtain ⟨e₀, he₀, post₀, hread₀, hseq₀, hshown⟩ := h.posted seq m hm
      exact ⟨e₀, List.mem_append_left _ he₀, post₀, hread₀, hseq₀, hshown.other (hnot e₀)⟩
  case shown =>
    intro e₀ he₀ post₀ hread₀
    rw [hmessages, ExtTreeMap.mem_insert]
    cases List.mem_append.mp he₀ with
    | inl hold => exact .inr (h.shown e₀ hold post₀ hread₀)
    | inr hnew => exact .inl (by simp [List.mem_singleton.mp hnew])

theorem mem_of_post {post post₀ : Post} {e₀ : Received} (hread : e.read = some (.edit target post))
    (he₀ : e₀ ∈ entries ++ [e]) (hread₀ : e₀.read = some (.post post₀)) : e₀ ∈ entries := by
  cases List.mem_append.mp he₀ with
  | inl hold => exact hold
  | inr hnew =>
    rw [List.mem_singleton.mp hnew, hread] at hread₀
    cases hread₀

theorem Holds.quiet {t' : Timeline} {post : Post} (h : Holds entries t)
    (hread : e.read = some (.edit target post)) (hsame : t'.messages = t.messages)
    (hnot : ∀ e₀ ∈ entries, ∀ post₀, e₀.read = some (.post post₀) → ∀ p, ¬ Edits e₀ e p) :
    Holds (entries ++ [e]) t' := by
  constructor
  · intro seq m hm
    rw [hsame] at hm
    obtain ⟨e₀, he₀, post₀, hread₀, hseq₀, hshown⟩ := h.posted seq m hm
    exact ⟨e₀, List.mem_append_left _ he₀, post₀, hread₀, hseq₀,
      hshown.other (hnot e₀ he₀ post₀ hread₀)⟩
  · intro e₀ he₀ post₀ hread₀
    rw [hsame]
    exact h.shown e₀ (mem_of_post hread he₀ hread₀) post₀ hread₀

theorem Edits.target_eq {post p : Post} {e₀ : Received} (hedits : Edits e₀ e p)
    (hread : e.read = some (.edit target post)) : e₀.seq = target := by
  have := hread.symm.trans hedits.read
  simp only [Option.some.injEq, Body.edit.injEq] at this
  exact this.1.symm

theorem Holds.edit {post : Post} (h : Holds entries t) (hread : e.read = some (.edit target post))
    (hdistinct : Distinct (entries ++ [e])) :
    Holds (entries ++ [e]) (t.apply e admins) := by
  have hmessages := apply_edit_messages t admins hread
  cases hm : t.messages[target]? with
  | none =>
    simp only [hm] at hmessages
    refine h.quiet hread hmessages fun e₀ he₀ post₀ hread₀ p hedits => ?_
    have hmem := h.shown e₀ he₀ post₀ hread₀
    rw [hedits.target_eq hread] at hmem
    simp [ExtTreeMap.mem_iff_isSome_getElem?, hm] at hmem
  | some m =>
    simp only [hm] at hmessages
    obtain ⟨e₁, he₁, post₁, hread₁, hseq₁, hshown₁⟩ := h.posted target m hm
    obtain ⟨haccount, hposted⟩ := hshown₁.keeps
    by_cases hauth : m.account = e.account ∧ saturatingSub e.posted m.posted ≤ editWindow
    · rw [if_pos hauth] at hmessages
      have hedits : Edits e₁ e post :=
        ⟨by rw [hread, hseq₁], haccount ▸ hauth.1, hposted ▸ hauth.2⟩
      constructor
      · intro seq m' hm'
        rw [hmessages, lookup_insert] at hm'
        split at hm'
        case isTrue hseq =>
          obtain rfl := Option.some.inj hm'
          exact ⟨e₁, List.mem_append_left _ he₁, post₁, hread₁, hseq₁.trans hseq,
            hshown₁.edit hedits⟩
        case isFalse hseq =>
          obtain ⟨e₀, he₀, post₀, hread₀, hseq₀, hshown⟩ := h.posted seq m' hm'
          exact ⟨e₀, List.mem_append_left _ he₀, post₀, hread₀, hseq₀,
            hshown.other fun p hedits' => hseq ((hedits'.target_eq hread).symm.trans hseq₀)⟩
      · intro e₀ he₀ post₀ hread₀
        rw [hmessages, ExtTreeMap.mem_insert]
        exact .inr (h.shown e₀ (mem_of_post hread he₀ hread₀) post₀ hread₀)
    · rw [if_neg hauth] at hmessages
      refine h.quiet hread hmessages fun e₀ he₀ post₀ hread₀ p hedits => hauth ?_
      have hsame : e₀ = e₁ :=
        hdistinct e₀ (List.mem_append_left _ he₀) e₁ (List.mem_append_left _ he₁)
          ((hedits.target_eq hread).trans hseq₁.symm)
      subst hsame
      exact ⟨haccount.trans hedits.account, hposted ▸ hedits.window⟩

theorem fold_holds (entries : List Received) (admins : List PubKey)
    (hpost : ∀ e ∈ entries, Says e) (hdistinct : Distinct entries) (hfirst : PostsFirst entries) :
    Holds entries (fold entries admins) := by
  induction entries using List.reverseRecOn with
  | nil =>
    constructor
    · intro seq m hm
      simp [fold, new] at hm
    · simp
  | append_singleton entries e ih =>
    have hbefore : Holds entries (fold entries admins) :=
      ih (fun e' he' => hpost e' (List.mem_append_left _ he'))
        (fun a ha b hb => hdistinct a (List.mem_append_left _ ha) b (List.mem_append_left _ hb))
        (List.pairwise_append.mp hfirst).1
    have hfold : fold (entries ++ [e]) admins = (fold entries admins).apply e admins := by
      simp [fold]
    rw [hfold]
    cases hpost e (by simp) with
    | inl hposting =>
      obtain ⟨post, hread⟩ := hposting
      exact hbefore.post hread hfirst
    | inr hedit =>
      obtain ⟨target, post, hread⟩ := hedit
      exact hbefore.edit hread hdistinct

theorem Holds.messages_eq {t' : Timeline} (hdistinct : Distinct entries) (h : Holds entries t)
    (h' : Holds entries t') : t.messages = t'.messages := by
  have hsame {t t' : Timeline} (h : Holds entries t) (h' : Holds entries t') {seq : UInt64}
      {m : Message} (hm : t.messages[seq]? = some m) : t'.messages[seq]? = some m := by
    obtain ⟨e₀, he₀, post, hread, rfl, hshown⟩ := h.posted seq m hm
    obtain ⟨m', hm'⟩ := Option.isSome_iff_exists.mp
      (ExtTreeMap.mem_iff_isSome_getElem?.mp (h'.shown e₀ he₀ post hread))
    obtain ⟨e₁, he₁, post₁, hread₁, hseq₁, hshown₁⟩ := h'.posted _ m' hm'
    obtain rfl := hdistinct e₁ he₁ e₀ he₀ hseq₁
    obtain rfl : post₁ = post := by simpa using hread₁.symm.trans hread
    rw [hm', hshown₁.unique hdistinct hshown]
  refine ExtTreeMap.ext_getElem? fun seq => Option.ext fun m => ?_
  exact ⟨hsame h h', hsame h' h⟩

end

/-- Posts and edits with numbers of their own, in any order that keeps each post before the edits
naming it: the fold gives the same messages, one for each post, and each is shown as the latest of
its author's edits within the window has it, or as it was posted. -/
theorem latest_edit_wins (entries entries' : List Received) (admins : List PubKey)
    (hpost : ∀ e ∈ entries, Says e) (hnodup : (entries.map (·.seq)).Nodup)
    (hfirst : PostsFirst entries) (hperm : entries'.Perm entries) (hfirst' : PostsFirst entries') :
    (fold entries' admins).messages = (fold entries admins).messages ∧
      Holds entries (fold entries admins) := by
  have hdistinct := distinct_of_nodup hnodup
  have hdistinct' : Distinct entries' := fun a ha b hb =>
    hdistinct a (hperm.mem_iff.mp ha) b (hperm.mem_iff.mp hb)
  have hholds := fold_holds entries admins hpost hdistinct hfirst
  have hholds' := fold_holds entries' admins (fun e he => hpost e (hperm.mem_iff.mp he))
    hdistinct' hfirst'
  refine ⟨Holds.messages_eq hdistinct ⟨?_, ?_⟩ hholds, hholds⟩
  · intro seq m hm
    obtain ⟨e₀, he₀, post, hread, hseq, hshown⟩ := hholds'.posted seq m hm
    exact ⟨e₀, hperm.mem_iff.mp he₀, post, hread, hseq, hshown.perm hperm⟩
  · exact fun e₀ he₀ => hholds'.shown e₀ (hperm.mem_iff.mpr he₀)

/-- Two edits of a post, the later one first. -/
theorem latest_edit_wins_early :
    let post := said 1 7 100 (.post ⟨[.text "one"], 0⟩)
    let first := said 2 7 101 (.edit 1 ⟨[.text "two"], 0⟩)
    let second := said 3 7 102 (.edit 1 ⟨[.text "three"], 0⟩)
    (fold [post, second, first] []).messages = (fold [post, first, second] []).messages ∧
      Holds [post, first, second] (fold [post, first, second] []) := by
  refine latest_edit_wins _ _ [] ?_ (by decide) ?_ (.cons _ (.swap _ _ _)) ?_
  · intro e he
    simp only [List.mem_cons, List.not_mem_nil, or_false] at he
    obtain rfl | rfl | rfl := he
    · exact .inl ⟨_, rfl⟩
    · exact .inr ⟨_, _, rfl⟩
    · exact .inr ⟨_, _, rfl⟩
  all_goals simp [PostsFirst, said, Received.read, kindMember, kindSystem]

end Sqex.Timeline
