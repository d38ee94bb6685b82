import Sqex.Proto.Timeline
import Sqex.Lib.Runs

/-! Whether a redaction is the last word: everything but an edit respects it. -/
namespace Sqex.Timeline
open Std Runs

/-- One entry, folded under the admin list it came with. -/
def step (t : Timeline) (i : Received × List PubKey) : Timeline := t.apply i.1 i.2

def Kept (t t' : Timeline) : Prop :=
  ∀ (seq : UInt64) (m : Message), t.messages[seq]? = some m → m.redacted = true →
    ∃ m' : Message, t'.messages[seq]? = some m' ∧ m'.redacted = true ∧
      (m.post = {} → m'.post = {}) ∧ (m.deletion = .asked → m'.deletion = .asked)

/-- The entry is an edit that lands on a redacted message and brings text. -/
def Refills (t : Timeline) (e : Received) : Prop :=
  ∃ (target : UInt64) (post : Post) (m : Message), e.read = some (.edit target post) ∧
    t.messages[target]? = some m ∧ m.redacted = true ∧ m.EditableBy e ∧ post ≠ {}

def Fresh (t : Timeline) (i : Received × List PubKey) : Prop :=
  i.1.seq ∉ t.messages ∧ i.1.seq ∉ t.unreadableBy

def Emptied (t : Timeline) : Prop :=
  ∀ (seq : UInt64) (m : Message), t.messages[seq]? = some m → m.redacted = true → m.post = {}

theorem not_mem_of_lookup {α : Type*} {m : ExtTreeMap UInt64 α} {k : UInt64}
    (h : k ∉ m) {v : α} : m[k]? ≠ some v := by
  intro hv
  exact h (ExtTreeMap.mem_iff_isSome_getElem?.mpr (by simp [hv]))

theorem taken_apply {t : Timeline} {e : Received} {admins : List PubKey} {seq : UInt64}
    (hm : seq ∉ t.messages) (hu : seq ∉ t.unreadableBy) (hne : seq ≠ e.seq) :
    seq ∉ (t.apply e admins).messages ∧ seq ∉ (t.apply e admins).unreadableBy := by
  constructor
  · intro hmem
    obtain ⟨m, hput⟩ := Option.isSome_iff_exists.mp (ExtTreeMap.mem_iff_isSome_getElem?.mp hmem)
    rcases t.apply_message e admins seq with hsame | ⟨m', _, hw⟩
    · exact not_mem_of_lookup hm (hsame ▸ hput)
    · cases hw with
      | post p _ hseq | gap _ _ hseq => exact hne hseq
      | edit m p _ hold _ | redact m _ hold _ => exact not_mem_of_lookup hm hold
      | unread author posted _ _ hun _ => exact not_mem_of_lookup hu hun
      | react m add emoji _ hold => exact not_mem_of_lookup hm hold
  · intro hmem
    obtain ⟨w, hput⟩ := Option.isSome_iff_exists.mp (ExtTreeMap.mem_iff_isSome_getElem?.mp hmem)
    rcases apply_unreadableBy hput with hold | ⟨_, hseq, _⟩
    · exact not_mem_of_lookup hu hold
    · exact hne hseq

theorem each_fresh {entries : List (Received × List PubKey)} {t : Timeline}
    (hnodup : (entries.map fun i => i.1.seq).Nodup) (hfresh : ∀ i ∈ entries, Fresh t i) :
    Each Fresh step t entries := by
  induction entries generalizing t with
  | nil => trivial
  | cons i rest ih =>
    rw [List.map_cons, List.nodup_cons] at hnodup
    refine ⟨hfresh i (by simp), ih hnodup.2 fun j hj => ?_⟩
    obtain ⟨hm, hu⟩ := hfresh j (by simp [hj])
    refine taken_apply hm hu fun heq => hnodup.1 ?_
    exact List.mem_map.mpr ⟨j, hj, heq⟩

theorem apply_edit {t : Timeline} {e : Received} (admins : List PubKey) {target : UInt64}
    {post : Post} {m : Message} (hread : e.read = some (.edit target post))
    (hm : t.messages[target]? = some m) (hauth : m.EditableBy e) :
    (t.apply e admins).messages[target]? = some (m.amend e post) := by
  rcases t.apply_cases e admins with ⟨hnone, _⟩ | ⟨body, hbody, heq⟩ | ⟨hbody, _⟩ | ⟨hbody, _⟩
  · rw [hnone] at hread
    cases hread
  · obtain rfl : body = .edit target post := Option.some.inj (hbody.symm.trans hread)
    obtain ⟨haccount, hwindow, hseq⟩ := hauth
    have hlast : m.editSeq.any (fun prev => decide (prev > e.seq)) = false := by
      cases hprev : m.editSeq with
      | none => rfl
      | some prev => simpa using hseq prev (by simp [hprev])
    rw [heq, applyBody, applyEdit]
    simp [hm, haccount, UInt64.not_lt.mpr hwindow, hlast]
  · simp [Received.read, hbody.2.2.2] at hread
  · simp [Received.read, hbody.2.2.2] at hread

/-- An entry at a new number keeps every redaction exactly when it is not an
edit that refills one. -/
theorem kept_iff {t : Timeline} (hempty : Emptied t) {i : Received × List PubKey}
    (hfresh : Fresh t i) : Kept t (step t i) ↔ ¬ Refills t i.1 := by
  obtain ⟨e, admins⟩ := i
  constructor
  · rintro hkept ⟨target, post, m, hread, hm, hred, hauth, hpost⟩
    obtain ⟨m', hm', _, hstill, _⟩ := hkept target m hm hred
    obtain rfl := Option.some.inj (hm'.symm.trans (apply_edit admins hread hm hauth))
    exact hpost (hstill (hempty target m hm hred))
  · intro hno seq m hm hred
    rcases t.apply_message e admins seq with hsame | ⟨m', hput, hw⟩
    · exact ⟨m, hsame ▸ hm, hred, id, id⟩
    · refine ⟨m', hput, ?_⟩
      cases hw with
      | post p _ hseq | gap _ _ hseq => exact absurd (hseq ▸ hm) (not_mem_of_lookup hfresh.1)
      | edit m' p hread hold hauth =>
        obtain rfl := Option.some.inj (hold.symm.trans hm)
        refine ⟨hred, fun _ => ?_, id⟩
        by_contra hp
        exact hno ⟨seq, p, m', hread, hold, hred, hauth, hp⟩
      | redact m' _ _ _ => exact ⟨rfl, fun _ => rfl, fun _ => rfl⟩
      | unread author posted _ hnone _ _ => rw [hnone] at hm; cases hm
      | react m' add emoji _ hold =>
        obtain rfl := Option.some.inj (hold.symm.trans hm)
        exact ⟨hred, id, id⟩

theorem emptied_step {t : Timeline} (hempty : Emptied t) {i : Received × List PubKey}
    (hno : ¬ Refills t i.1) : Emptied (step t i) := by
  obtain ⟨e, admins⟩ := i
  intro seq m hm hred
  rcases t.apply_message e admins seq with hsame | ⟨m', hput, hw⟩
  · exact hempty seq m (hsame ▸ hm) hred
  · obtain rfl := Option.some.inj (hput.symm.trans hm)
    cases hw with
    | post p _ _ => cases hred
    | gap _ _ _ => rfl
    | edit m' p hread hold hauth =>
      by_contra hp
      exact hno ⟨seq, p, m', hread, hold, hred, hauth, hp⟩
    | redact m' _ _ _ => rfl
    | unread author posted _ _ _ _ => rfl
    | react m' add emoji _ hold => exact hempty seq m' hold hred

/-- Over any run whose entries have numbers of their own, redaction is final
exactly when no step of it is an edit that refills a redacted message. -/
theorem redaction_final_iff (entries : List (Received × List PubKey))
    (h : (entries.map fun i => i.1.seq).Nodup) :
    Each (fun t i => Kept t (step t i)) step new entries ↔
      Each (fun t i => ¬ Refills t i.1) step new entries := by
  have hempty : Emptied new := by
    intro seq m hm
    simp [new] at hm
  have hfresh : Each Fresh step new entries := by
    refine each_fresh h fun i _ => ⟨?_, ?_⟩ <;> simp [new]
  exact each_congr (fun t i he _ hno => emptied_step he hno) (fun t i he hf => kept_iff he hf)
    hempty hfresh

/-- A member's entry, as a reader that opened and verified it holds it. -/
def said (seq : UInt64) (account : PubKey) (posted : UInt64) (body : Body) : Received where
  seq := seq
  account := account
  posted := posted
  kind := kindMember
  body := some body
  tombstone := false
  verdict := .valid
  standing := .unclaimed
  system := none
  commit := none

/-- A post that is taken down and left alone. -/
theorem redaction_final_quiet :
    let entries := [(said 1 7 100 (.post ⟨[.text "gone"], 0⟩), []),
      (said 2 7 101 (.redact 1), [])]
    (entries.map fun i => i.1.seq).Nodup ∧
      Each (fun t i => Kept t (step t i)) step new entries := by
  refine ⟨by decide, (redaction_final_iff _ (by decide)).mpr ⟨?_, ?_, trivial⟩⟩
  · rintro ⟨_, _, _, hread, _⟩
    cases hread
  · rintro ⟨_, _, _, hread, _⟩
    cases hread

/-- The author posts, takes the post down and edits it within the window: the
words are back under the redacted mark. -/
theorem redaction_undone :
    ¬ ∀ entries : List (Received × List PubKey), (entries.map fun i => i.1.seq).Nodup →
      Each (fun t i => Kept t (step t i)) step new entries := by
  intro hall
  obtain ⟨_, _, hkept, _⟩ := hall
    [(said 1 7 100 (.post ⟨[.text "gone"], 0⟩), []), (said 2 7 101 (.redact 1), []),
      (said 3 7 102 (.edit 1 ⟨[.text "back"], 0⟩), [])] (by decide)
  obtain ⟨m', hm', _, hstill, _⟩ := hkept 1 _ rfl rfl
  obtain rfl := Option.some.inj (hm'.symm.trans rfl)
  exact absurd (hstill rfl) (by decide)

end Sqex.Timeline
