import Sqex.Lib.Collections
import Sqex.Proto.Message
import Sqex.Proto.Channel

/-! Folding a channel's log into what a person sees. -/
namespace Sqex
open Std

/-- What verification of the author's signature concluded about an entry. -/
inductive Verdict where
  | valid | forged | gap | fork | unattributed
  deriving DecidableEq, Inhabited

/-- What verification of the exchange's receipt concluded. -/
inductive Standing where
  | unclaimed | vouched | unlinked | diverged | repudiated
  deriving DecidableEq, Inhabited

inductive Deletion where
  | no | asked | unasked
  deriving DecidableEq, Inhabited

/-- One entry as it reached us, with its body already opened if we could. -/
structure Received where
  seq : UInt64
  account : PubKey
  posted : UInt64
  kind : UInt8
  body : Option Body
  tombstone : Bool
  verdict : Verdict
  standing : Standing
  system : Option System
  commit : Option Commit
  deriving DecidableEq

structure Message where
  seq : UInt64
  account : PubKey
  posted : UInt64
  post : Post
  edited : Option UInt64
  /-- The sequence number of the edit currently winning. -/
  editSeq : Option UInt64
  redacted : Bool
  deletion : Deletion
  reactions : ExtTreeMap String (List PubKey)

structure Happening where
  seq : UInt64
  posted : UInt64
  what : System

structure Committed where
  seq : UInt64
  posted : UInt64
  account : PubKey
  commit : Commit

structure CallRecord where
  seq : UInt64
  account : PubKey
  posted : UInt64
  media : UInt8
  ringSecs : UInt16
  secret : Bytes32
  ended : Option (UInt8 × UInt32 × PubKey)

structure Timeline where
  messages : ExtTreeMap UInt64 Message
  events : ExtTreeMap UInt64 Happening
  commits : ExtTreeMap UInt64 Committed
  unreadable : List UInt64
  unreadableBy : ExtTreeMap UInt64 (PubKey × UInt64)
  forged : List UInt64
  broken : List (UInt64 × Verdict)
  name : String
  topic : String
  avatar : Option Attachment
  metadataSeq : UInt64
  calls : ExtTreeMap UInt64 CallRecord

def Message.fresh (e : Received) (post : Post) : Message where
  seq := e.seq
  account := e.account
  posted := e.posted
  post := post
  edited := none
  editSeq := none
  redacted := false
  deletion := .no
  reactions := ∅

def Message.tombstone (seq : UInt64) (account : PubKey) (posted : UInt64)
    (deletion : Deletion) : Message where
  seq := seq
  account := account
  posted := posted
  post := {}
  edited := none
  editSeq := none
  redacted := true
  deletion := deletion
  reactions := ∅

def Message.amend (m : Message) (e : Received) (post : Post) : Message :=
  { m with post := post, edited := some e.posted, editSeq := some e.seq }

def Message.takeDown (m : Message) : Message :=
  { m with redacted := true, deletion := .asked, post := {} }

/-- The accounts behind one emoji after a reaction, and the message without the
emoji once nobody is behind it. -/
def Message.react (m : Message) (who : PubKey) (add : Bool) (emoji : String) : Message :=
  let held := m.reactions[emoji]?.getD []
  let after := match add with
    | true => if who ∈ held then held else held ++ [who]
    | false => held.filter (fun a => a != who)
  { m with reactions :=
      if after.isEmpty then m.reactions.erase emoji else m.reactions.insert emoji after }

namespace Timeline

def new : Timeline where
  messages := ∅
  events := ∅
  commits := ∅
  unreadable := []
  unreadableBy := ∅
  forged := []
  broken := []
  name := ""
  topic := ""
  avatar := none
  metadataSeq := 0
  calls := ∅

section
variable (t : Timeline) (e : Received) (target : UInt64) (admins : List PubKey)

/-- Unsigned subtraction that stops at zero. -/
def saturatingSub (a b : UInt64) : UInt64 := if a < b then 0 else a - b

def applyEdit (post : Post) : Timeline :=
  match t.messages[target]? with
  | none => t
  | some m =>
    if m.account ≠ e.account then t
    else if saturatingSub e.posted m.posted > editWindow then t
    -- Where two edits target one entry, the higher sequence wins.
    else if m.editSeq.any (fun prev => decide (prev > e.seq)) then t
    else { t with messages := t.messages.insert target (m.amend e post) }

def applyRedact (target : UInt64) : Timeline :=
  match t.messages[target]? with
  | none =>
    -- An entry this reader never understood can still be deleted.
    match t.unreadableBy[target]? with
    | some (author, posted) =>
      if author = e.account ∨ e.account ∈ admins then
        { t with
          unreadable := t.unreadable.filter (fun s => s != target)
          unreadableBy := t.unreadableBy.erase target
          messages := t.messages.insert target (.tombstone target author posted .asked) }
      else t
    | none => t
  | some m =>
    if m.account ≠ e.account ∧ e.account ∉ admins then t
    else { t with messages := t.messages.insert target m.takeDown }

def applyReaction (add : Bool) (emoji : String) : Timeline :=
  match t.messages[target]? with
  | none => t
  | some m => { t with messages := t.messages.insert target (m.react e.account add emoji) }

def applyMetadata (name topic : String) (avatar : Option Attachment) : Timeline :=
  if e.account ∉ admins ∨ e.seq < t.metadataSeq then t
  else { t with name, topic, avatar, metadataSeq := e.seq }

def applyCallEnd (outcome : UInt8) (duration : UInt32) : Timeline :=
  match t.calls[target]? with
  | none => t
  | some call =>
    if call.ended.isNone then
      let call := { call with ended := some (outcome, duration, e.account) }
      { t with calls := t.calls.insert target call }
    else t

def applyBody : Body → Timeline
  | .post post => { t with messages := t.messages.insert e.seq (.fresh e post) }
  | .edit target post => t.applyEdit e target post
  | .redact target => t.applyRedact e admins target
  | .reaction target add emoji => t.applyReaction e target add emoji
  | .metadata name topic avatar => t.applyMetadata e admins name topic avatar
  | .call media ringSecs secret =>
    let call := { seq := e.seq, account := e.account, posted := e.posted, media, ringSecs,
                  secret, ended := none }
    { t with calls := t.calls.insert e.seq call }
  | .callEnd target outcome duration => t.applyCallEnd e target outcome duration

/-- An entry nobody forged: the exchange's own record, a commit, a body, a gap,
or something that could not be read. -/
def applyHeld : Timeline :=
  if e.kind = kindSystem then
    match e.system with
    | some what =>
      { t with events := t.events.insert e.seq ⟨e.seq, e.posted, what⟩ }
    | none => t
  else match e.commit with
  | some commit =>
    { t with commits := t.commits.insert e.seq ⟨e.seq, e.posted, e.account, commit⟩ }
  | none => match e.body with
    | some body => t.applyBody e admins body
    | none =>
      if e.tombstone then
        let gap := Message.tombstone e.seq e.account e.posted .unasked
        { t with messages := t.messages.insert e.seq gap }
      else { t with
        unreadable := t.unreadable ++ [e.seq]
        unreadableBy := t.unreadableBy.insert e.seq (e.account, e.posted) }

def marked : Timeline :=
  if e.verdict = .valid then t else { t with broken := t.broken ++ [(e.seq, e.verdict)] }

def apply : Timeline :=
  if e.verdict = .forged then { t with forged := t.forged ++ [e.seq] }
  else (t.marked e).applyHeld e admins

end

def fold (entries : List Received) (admins : List PubKey) : Timeline :=
  entries.foldl (fun t e => t.apply e admins) new

end Timeline

/-- The body the fold reads from an entry: none of an entry that is forged, the
exchange's own, or a commit. -/
def Received.read (e : Received) : Option Body :=
  if e.verdict = .forged ∨ e.kind = kindSystem ∨ e.commit.isSome then none else e.body

def Received.Bodiless (e : Received) : Prop :=
  e.verdict ≠ .forged ∧ e.kind ≠ kindSystem ∧ e.commit = none ∧ e.body = none

def Message.EditableBy (m : Message) (e : Received) : Prop :=
  m.account = e.account ∧ Timeline.saturatingSub e.posted m.posted ≤ editWindow ∧
    ∀ prev ∈ m.editSeq, prev ≤ e.seq

namespace Timeline
variable {t : Timeline} {e : Received} {admins : List PubKey} {seq : UInt64}

@[simp] theorem marked_messages : (t.marked e).messages = t.messages := by
  unfold marked; split_ifs <;> rfl

@[simp] theorem marked_unreadableBy : (t.marked e).unreadableBy = t.unreadableBy := by
  unfold marked; split_ifs <;> rfl

def face (t : Timeline) : String × String × Option Attachment := (t.name, t.topic, t.avatar)

@[simp] theorem marked_face : (t.marked e).face = t.face := by
  unfold marked; split_ifs <;> rfl

/-- What one entry does: nothing to the messages, the body it carries, a gap, or
one more unread entry. -/
theorem apply_cases (t : Timeline) (e : Received) (admins : List PubKey) :
    (e.read = none ∧ (t.apply e admins).messages = t.messages ∧
      (t.apply e admins).unreadableBy = t.unreadableBy ∧ (t.apply e admins).face = t.face) ∨
    (∃ body, e.read = some body ∧ t.apply e admins = (t.marked e).applyBody e admins body) ∨
    (e.Bodiless ∧ e.tombstone = true ∧ t.apply e admins = { t.marked e with
      messages := t.messages.insert e.seq (.tombstone e.seq e.account e.posted .unasked) }) ∨
    (e.Bodiless ∧ e.tombstone = false ∧ t.apply e admins = { t.marked e with
      unreadable := (t.marked e).unreadable ++ [e.seq]
      unreadableBy := t.unreadableBy.insert e.seq (e.account, e.posted) }) := by
  by_cases hforged : e.verdict = .forged
  · exact Or.inl (by simp [apply, Received.read, hforged, face])
  rw [apply, if_neg hforged, applyHeld]
  by_cases hkind : e.kind = kindSystem
  · refine Or.inl ⟨by simp [Received.read, hkind], ?_⟩
    rw [if_pos hkind]
    cases e.system with
    | some what | none => exact ⟨marked_messages, marked_unreadableBy, marked_face⟩
  rw [if_neg hkind]
  cases hcommit : e.commit with
  | some commit =>
    exact Or.inl ⟨by simp [Received.read, hcommit], marked_messages, marked_unreadableBy,
      marked_face⟩
  | none =>
    cases hbody : e.body with
    | some body =>
      exact Or.inr (Or.inl ⟨body, by simp [Received.read, hforged, hkind, hcommit, hbody], rfl⟩)
    | none =>
      have hbodiless : e.Bodiless := ⟨hforged, hkind, hcommit, hbody⟩
      cases htomb : e.tombstone with
      | true => exact Or.inr (Or.inr (Or.inl ⟨hbodiless, rfl, by simp⟩))
      | false => exact Or.inr (Or.inr (Or.inr ⟨hbodiless, rfl, by simp⟩))

/-- What an entry may write at a sequence number: one case per way a message
comes to be or changes. -/
inductive Written (t : Timeline) (e : Received) (admins : List PubKey) (seq : UInt64) :
    Message → Prop
  | post (p : Post) : e.read = some (.post p) → seq = e.seq → Written t e admins seq (.fresh e p)
  | gap : e.Bodiless → e.tombstone = true → seq = e.seq →
    Written t e admins seq (.tombstone e.seq e.account e.posted .unasked)
  | edit (m : Message) (p : Post) : e.read = some (.edit seq p) → t.messages[seq]? = some m →
    m.EditableBy e → Written t e admins seq (m.amend e p)
  | redact (m : Message) : e.read = some (.redact seq) → t.messages[seq]? = some m →
    (m.account = e.account ∨ e.account ∈ admins) → Written t e admins seq m.takeDown
  | unread (author : PubKey) (posted : UInt64) : e.read = some (.redact seq) →
    t.messages[seq]? = none → t.unreadableBy[seq]? = some (author, posted) →
    (author = e.account ∨ e.account ∈ admins) →
    Written t e admins seq (.tombstone seq author posted .asked)
  | react (m : Message) (add : Bool) (emoji : String) : e.read = some (.reaction seq add emoji) →
    t.messages[seq]? = some m → Written t e admins seq (m.react e.account add emoji)

theorem written_insert {t' : Timeline} {key : UInt64} {m : Message}
    (h : t'.messages = t.messages.insert key m)
    (hw : key = seq → Written t e admins seq m) :
    t'.messages[seq]? = t.messages[seq]? ∨
      ∃ m, t'.messages[seq]? = some m ∧ Written t e admins seq m := by
  by_cases hkey : key = seq
  · exact Or.inr ⟨m, by simp [h, hkey], hw hkey⟩
  · exact Or.inl (by simp [h, lookup_insert, hkey])

theorem applyEdit_message {target : UInt64} {post : Post}
    (h : e.read = some (.edit target post)) :
    (t.applyEdit e target post).messages[seq]? = t.messages[seq]? ∨
      ∃ m, (t.applyEdit e target post).messages[seq]? = some m ∧
        Written t e admins seq m := by
  unfold applyEdit
  split
  · exact Or.inl rfl
  · rename_i m hm
    split_ifs with haccount hwindow hseq
    · exact Or.inl rfl
    · exact Or.inl rfl
    · exact Or.inl rfl
    · refine written_insert rfl fun heq => ?_
      subst heq
      refine .edit m post h hm ⟨not_not.mp haccount, UInt64.not_lt.mp hwindow, ?_⟩
      intro prev hprev
      rw [hprev] at hseq
      simpa using hseq

theorem applyRedact_message {target : UInt64} (h : e.read = some (.redact target)) :
    (t.applyRedact e admins target).messages[seq]? = t.messages[seq]? ∨
      ∃ m, (t.applyRedact e admins target).messages[seq]? = some m ∧
        Written t e admins seq m := by
  unfold applyRedact
  split
  · rename_i hm
    split
    · rename_i author posted hun
      split_ifs with hauth
      · refine written_insert rfl fun heq => ?_
        subst heq
        exact .unread author posted h hm hun hauth
      · exact Or.inl rfl
    · exact Or.inl rfl
  · rename_i m hm
    split_ifs with hauth
    · exact Or.inl rfl
    · refine written_insert rfl fun heq => ?_
      subst heq
      exact .redact m h hm (by tauto)

theorem applyBody_message {body : Body} (h : e.read = some body) :
    (t.applyBody e admins body).messages[seq]? = t.messages[seq]? ∨
      ∃ m, (t.applyBody e admins body).messages[seq]? = some m ∧
        Written t e admins seq m := by
  cases body with
  | post p =>
    refine written_insert rfl fun heq => ?_
    subst heq
    exact .post p h rfl
  | edit target p => exact applyEdit_message h
  | redact target => exact applyRedact_message h
  | reaction target add emoji =>
    simp only [applyBody, applyReaction]
    split
    · exact Or.inl rfl
    · rename_i m hm
      refine written_insert rfl fun heq => ?_
      subst heq
      exact .react m add emoji h hm
  | metadata name topic avatar =>
    simp only [applyBody, applyMetadata]
    split_ifs <;> exact Or.inl rfl
  | call media ringSecs secret => exact Or.inl rfl
  | callEnd target outcome duration =>
    simp only [applyBody, applyCallEnd]
    split
    · exact Or.inl rfl
    · split_ifs <;> exact Or.inl rfl

/-- What a write reads is the messages and who is behind the unread entries. -/
theorem Written.of_marked {m : Message} (h : Written (t.marked e) e admins seq m) :
    Written t e admins seq m := by
  cases h with
  | post p hread hseq => exact .post p hread hseq
  | gap hbody htomb hseq => exact .gap hbody htomb hseq
  | edit m p hread hm hauth => exact .edit m p hread (by simpa using hm) hauth
  | redact m hread hm hauth => exact .redact m hread (by simpa using hm) hauth
  | unread author posted hread hm hun hauth =>
    exact .unread author posted hread (by simpa using hm) (by simpa using hun) hauth
  | react m add emoji hread hm => exact .react m add emoji hread (by simpa using hm)

theorem apply_message (t : Timeline) (e : Received) (admins : List PubKey) (seq : UInt64) :
    (t.apply e admins).messages[seq]? = t.messages[seq]? ∨
      ∃ m, (t.apply e admins).messages[seq]? = some m ∧ Written t e admins seq m := by
  rcases t.apply_cases e admins with
    ⟨_, hsame, _⟩ | ⟨body, hread, heq⟩ | ⟨hbody, htomb, heq⟩ | ⟨_, _, heq⟩
  · exact Or.inl (by rw [hsame])
  · rw [heq]
    rcases @applyBody_message (t.marked e) e admins seq body hread with hsame | ⟨m, hm, hw⟩
    · exact Or.inl (by rw [hsame, marked_messages])
    · exact Or.inr ⟨m, hm, hw.of_marked⟩
  · rw [heq]
    exact written_insert rfl fun hseq => .gap hbody htomb hseq.symm
  · exact Or.inl (by rw [heq, marked_messages])

/-- A body takes away who is behind an unread entry, and never puts anyone there. -/
theorem applyBody_unreadableBy {body : Body} {writer : PubKey × UInt64}
    (h : (t.applyBody e admins body).unreadableBy[seq]? = some writer) :
    t.unreadableBy[seq]? = some writer := by
  cases body with
  | post post | call media ringSecs secret => exact h
  | edit target post =>
    simp only [applyBody, applyEdit] at h
    split at h
    · exact h
    · split_ifs at h <;> exact h
  | redact target =>
    simp only [applyBody, applyRedact] at h
    split at h
    · split at h
      · split_ifs at h
        · rw [lookup_erase] at h
          split_ifs at h
          exact h
        · exact h
      · exact h
    · split_ifs at h <;> exact h
  | reaction target add emoji =>
    simp only [applyBody, applyReaction] at h
    split at h <;> exact h
  | metadata name topic avatar =>
    simp only [applyBody, applyMetadata] at h
    split_ifs at h <;> exact h
  | callEnd target outcome duration =>
    simp only [applyBody, applyCallEnd] at h
    split at h
    · exact h
    · split_ifs at h <;> exact h

/-- Whoever is remembered behind an unread entry wrote the entry there. -/
theorem apply_unreadableBy {writer : PubKey × UInt64}
    (h : (t.apply e admins).unreadableBy[seq]? = some writer) :
    t.unreadableBy[seq]? = some writer ∨
      e.Bodiless ∧ seq = e.seq ∧ writer = (e.account, e.posted) := by
  rcases t.apply_cases e admins with
    ⟨_, _, hsame, _⟩ | ⟨body, _, heq⟩ | ⟨_, _, heq⟩ | ⟨hbody, _, heq⟩
  · exact Or.inl (by rwa [hsame] at h)
  · rw [heq] at h
    exact Or.inl (by simpa using applyBody_unreadableBy h)
  · rw [heq] at h
    exact Or.inl (by simpa using h)
  · rw [heq, lookup_insert] at h
    split_ifs at h with hseq
    · exact Or.inr ⟨hbody, hseq.symm, (Option.some.inj h).symm⟩
    · exact Or.inl h

theorem applyBody_face (body : Body) :
    (t.applyBody e admins body).face = t.face ∨
      e.account ∈ admins ∧ ∃ name topic avatar, body = .metadata name topic avatar ∧
        (t.applyBody e admins body).face = (name, topic, avatar) := by
  cases body with
  | metadata name topic avatar =>
    simp only [applyBody, applyMetadata]
    split_ifs with hauth
    · exact Or.inl rfl
    · exact Or.inr ⟨by tauto, name, topic, avatar, rfl, rfl⟩
  | post post | call media ringSecs secret => exact Or.inl rfl
  | edit target post =>
    simp only [applyBody, applyEdit]
    split
    · exact Or.inl rfl
    · split_ifs <;> exact Or.inl rfl
  | redact target =>
    simp only [applyBody, applyRedact]
    split
    · split
      · split_ifs <;> exact Or.inl rfl
      · exact Or.inl rfl
    · split_ifs <;> exact Or.inl rfl
  | reaction target add emoji =>
    simp only [applyBody, applyReaction]
    split <;> exact Or.inl rfl
  | callEnd target outcome duration =>
    simp only [applyBody, applyCallEnd]
    split
    · exact Or.inl rfl
    · split_ifs <;> exact Or.inl rfl

theorem apply_face (t : Timeline) (e : Received) (admins : List PubKey) :
    (t.apply e admins).face = t.face ∨
      e.account ∈ admins ∧ ∃ name topic avatar,
        e.read = some (.metadata name topic avatar) ∧
          (t.apply e admins).face = (name, topic, avatar) := by
  rcases t.apply_cases e admins with
    ⟨_, _, _, hsame⟩ | ⟨body, hread, heq⟩ | ⟨_, _, heq⟩ | ⟨_, _, heq⟩
  · exact Or.inl hsame
  · rw [heq]
    rcases @applyBody_face (t.marked e) e admins body with
      hsame | ⟨hauth, name, topic, avatar, rfl, hface⟩
    · exact Or.inl (by rw [hsame, marked_face])
    · exact Or.inr ⟨hauth, name, topic, avatar, hread, hface⟩
  · exact Or.inl (by rw [heq]; exact marked_face)
  · exact Or.inl (by rw [heq]; exact marked_face)

end Timeline
end Sqex
