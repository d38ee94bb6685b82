import Sqex.Proto.Timeline
import Sqex.Lib.Runs

/-! Where everything in a folded conversation comes from: every log, hostile ones
included, yields only messages and a name somebody was entitled to. -/
namespace Sqex.Timeline
open Std Runs

section
variable (entries : List Received) (admins : List PubKey)

/-- Behind `m` stands the entry `e`: it is the entry at that number, not forged,
and whatever was edited in or taken down had the authority for it. -/
structure Behind (m : Message) (e : Received) : Prop where
  listed : e ∈ entries
  genuine : e.verdict ≠ .forged
  seq : e.seq = m.seq
  account : e.account = m.account
  posted : e.posted = m.posted
  post : e.body = some (.post m.post) ∨
    (∃ d ∈ entries, d.verdict ≠ .forged ∧ d.body = some (.edit m.seq m.post) ∧
      d.account = m.account ∧ d.posted.toNat ≤ m.posted.toNat + editWindow.toNat) ∨
    m.post = {}
  redacted : m.redacted = true → (e.tombstone = true ∧ e.body = none) ∨
    ∃ d ∈ entries, d.verdict ≠ .forged ∧ d.body = some (.redact m.seq) ∧
      (d.account = m.account ∨ d.account ∈ admins)

/-- Every message and every remembered writer goes back to a listed entry, and
so does what the channel is called. -/
structure Grounded (t : Timeline) : Prop where
  messages : ∀ seq m, t.messages[seq]? = some m →
    m.seq = seq ∧ ∃ e, Behind entries admins m e
  unread : ∀ seq writer, t.unreadableBy[seq]? = some writer →
    ∃ e ∈ entries, e.verdict ≠ .forged ∧ e.seq = seq ∧ (e.account, e.posted) = writer
  face : t.face = ("", "", none) ∨
    ∃ e ∈ entries, e.verdict ≠ .forged ∧ e.account ∈ admins ∧
      e.body = some (.metadata t.name t.topic t.avatar)

theorem read_some {e : Received} {body : Body} (h : e.read = some body) :
    e.verdict ≠ .forged ∧ e.body = some body := by
  unfold Received.read at h
  split_ifs at h with hskip
  exact ⟨fun hforged => hskip (Or.inl hforged), h⟩

theorem saturatingSub_le {a b w : UInt64} (h : saturatingSub a b ≤ w) :
    a.toNat ≤ b.toNat + w.toNat := by
  unfold saturatingSub at h
  split_ifs at h with hlt
  · have := UInt64.lt_iff_toNat_lt.mp hlt
    omega
  · have hle : b ≤ a := UInt64.not_lt.mp hlt
    have hsub := UInt64.le_iff_toNat_le.mp h
    rw [UInt64.toNat_sub_of_le _ _ hle] at hsub
    have := UInt64.le_iff_toNat_le.mp hle
    omega

theorem grounded_new : Grounded entries admins new := by
  constructor
  case messages => intro seq m h; simp [new] at h
  case unread => intro seq writer h; simp [new] at h
  case face => exact Or.inl rfl

end

/-- Whatever an entry writes goes back to listed entries, given that what it
reads does. -/
theorem grounded_written {entries : List Received} {admins : List PubKey} {t : Timeline}
    (h : Grounded entries admins t) {e : Received} (he : e ∈ entries) {seq : UInt64}
    {m : Message} (hw : Written t e admins seq m) :
    m.seq = seq ∧ ∃ e, Behind entries admins m e := by
  cases hw with
  | post p hread hseq =>
    obtain ⟨hgenuine, hbody⟩ := read_some hread
    refine ⟨hseq.symm, e, he, hgenuine, rfl, rfl, rfl, Or.inl hbody, ?_⟩
    intro hred
    cases hred
  | gap hbody htomb hseq =>
    exact ⟨hseq.symm, e, he, hbody.1, rfl, rfl, rfl, Or.inr (Or.inr rfl),
      fun _ => Or.inl ⟨htomb, hbody.2.2.2⟩⟩
  | edit m p hread hm hauth =>
    obtain ⟨hseq, d, hd⟩ := h.messages seq m hm
    obtain ⟨hgenuine, hbody⟩ := read_some hread
    refine ⟨hseq, d, hd.listed, hd.genuine, hd.seq, hd.account, hd.posted, ?_, hd.redacted⟩
    refine Or.inr (Or.inl ⟨e, he, hgenuine, ?_, hauth.1.symm, saturatingSub_le hauth.2.1⟩)
    rw [hbody]
    exact congrArg some (congrArg (fun s => Body.edit s p) hseq.symm)
  | redact m hread hm hauth =>
    obtain ⟨hseq, d, hd⟩ := h.messages seq m hm
    obtain ⟨hgenuine, hbody⟩ := read_some hread
    refine ⟨hseq, d, hd.listed, hd.genuine, hd.seq, hd.account, hd.posted,
      Or.inr (Or.inr rfl), fun _ => Or.inr ⟨e, he, hgenuine, ?_, ?_⟩⟩
    · rw [hbody]
      exact congrArg some (congrArg Body.redact hseq.symm)
    · exact hauth.imp_left Eq.symm
  | unread author posted hread hnone hun hauth =>
    obtain ⟨d, hd, hdgenuine, hdseq, hdwriter⟩ := h.unread seq _ hun
    obtain ⟨haccount, hposted⟩ := Prod.mk.inj hdwriter
    obtain ⟨hgenuine, hbody⟩ := read_some hread
    exact ⟨rfl, d, hd, hdgenuine, hdseq, haccount, hposted, Or.inr (Or.inr rfl),
      fun _ => Or.inr ⟨e, he, hgenuine, hbody, hauth.imp_left Eq.symm⟩⟩
  | react m add emoji hread hm =>
    obtain ⟨hseq, d, hd⟩ := h.messages seq m hm
    exact ⟨hseq, d, hd.listed, hd.genuine, hd.seq, hd.account, hd.posted, hd.post, hd.redacted⟩

theorem grounded_apply {entries : List Received} {admins : List PubKey} {t : Timeline}
    (h : Grounded entries admins t) {e : Received} (he : e ∈ entries) :
    Grounded entries admins (t.apply e admins) := by
  constructor
  case messages =>
    intro seq m hm
    rcases t.apply_message e admins seq with hsame | ⟨m', hm', hw⟩
    · exact h.messages seq m (hsame ▸ hm)
    · obtain rfl : m' = m := Option.some.inj (hm'.symm.trans hm)
      exact grounded_written h he hw
  case unread =>
    intro seq writer hun
    rcases apply_unreadableBy hun with hold | ⟨hbody, hseq, hwriter⟩
    · exact h.unread seq writer hold
    · exact ⟨e, he, hbody.1, hseq.symm, hwriter.symm⟩
  case face =>
    rcases t.apply_face e admins with hsame | ⟨hauth, name, topic, avatar, hread, hface⟩
    · rw [hsame]
      refine h.face.imp_right ?_
      rintro ⟨d, hd, hgenuine, hauth, hbody⟩
      obtain ⟨hname, htopic, havatar⟩ : _ ∧ _ ∧ _ := by
        simpa only [face, Prod.mk.injEq] using hsame
      exact ⟨d, hd, hgenuine, hauth, by rw [hname, htopic, havatar]; exact hbody⟩
    · obtain ⟨hgenuine, hbody⟩ := read_some hread
      obtain ⟨hname, htopic, havatar⟩ : _ ∧ _ ∧ _ := by
        simpa only [face, Prod.mk.injEq] using hface
      exact Or.inr ⟨e, he, hgenuine, hauth, by rw [hname, htopic, havatar]; exact hbody⟩

/-- Over every log and every admin list, each folded message stands on the entry
at its number and on nothing said without authority, and the channel is called
what an admin called it. -/
theorem fold_grounded (entries : List Received) (admins : List PubKey) :
    (∀ seq m, (fold entries admins).messages[seq]? = some m →
      m.seq = seq ∧ ∃ e, Behind entries admins m e) ∧
    ((fold entries admins).face = ("", "", none) ∨
      ∃ e ∈ entries, e.verdict ≠ .forged ∧ e.account ∈ admins ∧
        e.body = some (.metadata (fold entries admins).name (fold entries admins).topic
          (fold entries admins).avatar)) := by
  have hall : Each (fun _ e => e ∈ entries) (fun t e => t.apply e admins) new entries :=
    each_of_mem (fun e he _ => he) new
  have hend : Grounded entries admins (run (fun t e => t.apply e admins) new entries) :=
    Each.run (P := Grounded entries admins) (fun t e ht he => grounded_apply ht he)
      (grounded_new entries admins) hall
  exact ⟨hend.messages, hend.face⟩

end Sqex.Timeline
