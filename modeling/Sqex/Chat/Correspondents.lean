import Sqex.Exchange.OriginOps
import Sqex.Proto.Succession
import Sqex.Lib.Collections
import Sqex.Lib.Runs

/-! The people a client writes to: its contacts, the direct messages whose other party changed
key, and the succession entries of a log that move both. -/
namespace Sqex.Chat
open Std Runs

structure ContactRow where
  label : String
  added : UInt64
  deriving DecidableEq

/-- A direct message whose identifier no longer derives from the pair. -/
structure DmAlias where
  exchange : PubKey
  account : PubKey
  channel : Bytes32
  deriving DecidableEq

structure Correspondents where
  me : PubKey
  /-- The exchange the store is scoped to, where an alias is recorded as learned. -/
  exchange : PubKey
  contact : ExtTreeMap PubKey ContactRow
  aliases : List DmAlias

namespace Correspondents

section
variable (C : Crypto) (s : Correspondents) (account : PubKey) (channel : Bytes32)

def rekeyContact (old new : PubKey) : Correspondents :=
  match s.contact[old]? with
  | none => s
  | some row =>
    if new ∈ s.contact then s else { s with contact := (s.contact.erase old).insert new row }

def dmAlias : Option Bytes32 :=
  (s.aliases.filter (·.account = account)).getLast?.map (·.channel)

/-- One row per correspondent, whatever exchange it was learned at. -/
def setDmAlias : Correspondents :=
  { s with aliases := s.aliases.filter (·.account ≠ account) ++ [⟨s.exchange, account, channel⟩] }

/-- The direct message with `them`: the alias where one was recorded, the derived identifier
otherwise. -/
def dmWith (them : PubKey) : Bytes32 :=
  (s.dmAlias them).getD (Exchange.directMessageId C s.me them)

def Converses : Prop :=
  Exchange.directMessageId C s.me account = channel ∨ s.dmAlias account = some channel

instance (C : Crypto) (s : Correspondents) (account : PubKey) (channel : Bytes32) :
    Decidable (s.Converses C account channel) := inferInstanceAs (Decidable (_ ∨ _))

def followCorrespondent (old new : PubKey) : Correspondents :=
  if old = s.me ∨ new = s.me then s
  else
    let s := s.rekeyContact old new
    if s.Converses C old channel then s.setDmAlias new channel else s

def follow (s : Correspondents) (change : PubKey × PubKey) : Correspondents :=
  s.followCorrespondent C channel change.1 change.2

end

section
variable (s : Correspondents) (old new account : PubKey) (channel : Bytes32)

@[simp] theorem rekeyContact_me : (s.rekeyContact old new).me = s.me := by
  unfold rekeyContact
  split
  · rfl
  · split <;> rfl

@[simp] theorem rekeyContact_aliases : (s.rekeyContact old new).aliases = s.aliases := by
  unfold rekeyContact
  split
  · rfl
  · split <;> rfl

@[simp] theorem setDmAlias_me : (s.setDmAlias account channel).me = s.me := rfl

@[simp] theorem setDmAlias_contact : (s.setDmAlias account channel).contact = s.contact := rfl

@[simp] theorem dmAlias_rekeyContact :
    (s.rekeyContact old new).dmAlias account = s.dmAlias account := by
  simp [dmAlias]

theorem dmAlias_setDmAlias :
    (s.setDmAlias old channel).dmAlias account =
      if account = old then some channel else s.dmAlias account := by
  by_cases h : account = old
  · subst h
    simp [dmAlias, setDmAlias, List.filter_append]
  · have hkeep : (s.aliases.filter (·.account ≠ old)).filter (·.account = account) =
        s.aliases.filter (·.account = account) := by
      rw [List.filter_filter]
      refine List.filter_congr fun row _ => ?_
      grind
    have hnew : ¬ old = account := fun hsame => h hsame.symm
    simp only [dmAlias, setDmAlias, List.filter_append, hkeep, if_neg h]
    simp [hnew]

theorem contact_followCorrespondent (C : Crypto) (hold : old ≠ s.me) (hnew : new ≠ s.me) :
    (s.followCorrespondent C channel old new).contact = (s.rekeyContact old new).contact := by
  rw [followCorrespondent, if_neg (by simp [hold, hnew])]
  dsimp only
  split <;> rfl

theorem dmAlias_followCorrespondent (C : Crypto) (hold : old ≠ s.me) (hnew : new ≠ s.me) :
    (s.followCorrespondent C channel old new).dmAlias account =
      if s.Converses C old channel ∧ account = new then some channel else s.dmAlias account := by
  rw [followCorrespondent, if_neg (by simp [hold, hnew])]
  by_cases hconv : s.Converses C old channel
  · simp [Converses] at hconv
    simp [Converses, dmAlias_setDmAlias, hconv]
  · simp [Converses] at hconv
    simp [Converses, hconv]

@[simp] theorem followCorrespondent_me (C : Crypto) :
    (s.followCorrespondent C channel old new).me = s.me := by
  unfold followCorrespondent
  split
  · rfl
  · dsimp only
    split <;> simp

end

def Refiled (s s' : Correspondents) (a b : PubKey) : Prop :=
  s.contact[a]? ≠ none ∧ s'.contact[a]? = none ∧ s.contact[b]? = none ∧
    s'.contact[b]? = s.contact[a]?

instance (s s' : Correspondents) (a b : PubKey) : Decidable (s.Refiled s' a b) :=
  inferInstanceAs (Decidable (_ ∧ _ ∧ _ ∧ _))

def Becomes (C : Crypto) (s s' : Correspondents) (a b : PubKey) : Prop :=
  a ≠ b ∧ ∃ channel, s.Converses C a channel ∧ s.dmWith C b ≠ channel ∧ s'.dmWith C b = channel

/-- What following `old` to `new` moves, each from a key to `new` that are paired in `verified`:
the contact, and the direct message of everybody whose conversation the channel is. -/
structure Backed (C : Crypto) (verified : List (PubKey × PubKey)) (channel : Bytes32)
    (s : Correspondents) (old new : PubKey) : Prop where
  contact : old ∈ s.contact → new ∉ s.contact → (old, new) ∈ verified
  message : s.Converses C old channel → s.dmWith C new ≠ channel →
    ∀ a, a ≠ new → s.Converses C a channel → (a, new) ∈ verified

section
variable {C : Crypto} {s : Correspondents} {channel : Bytes32} {old new a b : PubKey}

theorem refiled_iff (hold : old ≠ s.me) (hnew : new ≠ s.me) :
    s.Refiled (s.followCorrespondent C channel old new) a b ↔
      a = old ∧ b = new ∧ old ∈ s.contact ∧ new ∉ s.contact := by
  rw [Refiled, contact_followCorrespondent s old new channel C hold hnew]
  unfold rekeyContact
  cases hrow : s.contact[old]? with
  | none =>
    have habsent : old ∉ s.contact := by simpa using hrow
    simp only [habsent, false_and, and_false, iff_false]
    rintro ⟨hsome, hnone, -⟩
    exact hsome hnone
  | some row =>
    have hpresent : old ∈ s.contact := ExtTreeMap.mem_iff_isSome_getElem?.mpr (by simp [hrow])
    by_cases htaken : new ∈ s.contact
    · simp only [htaken, if_true, not_true_eq_false, and_false, iff_false]
      rintro ⟨hsome, hnone, -⟩
      exact hsome hnone
    · have hfree : s.contact[new]? = none := by simpa using htaken
      have hne : old ≠ new := fun h => htaken (h ▸ hpresent)
      simp only [if_neg htaken, lookup_insert, lookup_erase]
      grind

theorem becomes_iff (hold : old ≠ s.me) (hnew : new ≠ s.me) :
    s.Becomes C (s.followCorrespondent C channel old new) a b ↔
      b = new ∧ a ≠ new ∧ s.Converses C old channel ∧ s.Converses C a channel ∧
        s.dmWith C new ≠ channel := by
  have hafter : (s.followCorrespondent C channel old new).dmWith C b =
      if s.Converses C old channel ∧ b = new then channel else s.dmWith C b := by
    rw [dmWith, dmAlias_followCorrespondent s old new b channel C hold hnew,
      followCorrespondent_me]
    split <;> rfl
  rw [Becomes, hafter]
  constructor
  · rintro ⟨hne, ch, hconv, hbefore, hnow⟩
    split at hnow
    · next h =>
      obtain ⟨hthrough, rfl⟩ := h
      subst hnow
      exact ⟨rfl, hne, hthrough, hconv, hbefore⟩
    · exact absurd hnow hbefore
  · rintro ⟨rfl, hne, hthrough, hconv, hbefore⟩
    exact ⟨hne, channel, hconv, hbefore, by simp [hthrough]⟩

end

/-- What an owner did is what moved: every contact re-filed and every conversation passed on
went from a key to one that are paired in `verified`. -/
def ByOwner (C : Crypto) (verified : List (PubKey × PubKey)) (s s' : Correspondents) : Prop :=
  ∀ a b, s.Refiled s' a b ∨ s.Becomes C s' a b → (a, b) ∈ verified

theorem byOwner_iff {C : Crypto} {verified : List (PubKey × PubKey)} {s : Correspondents}
    {channel : Bytes32} {old new : PubKey} :
    s.ByOwner C verified (s.followCorrespondent C channel old new) ↔
      (old ≠ s.me → new ≠ s.me → s.Backed C verified channel old new) := by
  by_cases hself : old = s.me ∨ new = s.me
  · have hsame : s.followCorrespondent C channel old new = s := if_pos hself
    rw [hsame]
    constructor
    · intro _ hold hnew
      exact absurd hself (by simp [hold, hnew])
    · rintro - a b (⟨hsome, hnone, -⟩ | ⟨-, ch, -, hbefore, hnow⟩)
      · exact absurd hnone hsome
      · exact absurd hnow hbefore
  · obtain ⟨hold, hnew⟩ := not_or.mp hself
    simp only [ByOwner, refiled_iff hold hnew, becomes_iff hold hnew, ne_eq, hold, hnew,
      not_false_eq_true, forall_const]
    constructor
    · intro h
      constructor
      · intro hpresent hfree
        exact h old new (.inl ⟨rfl, rfl, hpresent, hfree⟩)
      · intro hthrough hbefore a hne hconv
        exact h a new (.inr ⟨rfl, hne, hthrough, hconv, hbefore⟩)
    · rintro h a b (⟨rfl, rfl, hpresent, hfree⟩ | ⟨rfl, hne, hthrough, hconv, hbefore⟩)
      · exact h.contact hpresent hfree
      · exact h.message hthrough hbefore a hne hconv

end Correspondents

/-- The successions a batch of entries names, as whoever ordered it wrote them. -/
def successions (entries : List Entry) : List (PubKey × PubKey) :=
  (((entries.filter (·.kind = kindSystem)).filterMap
    (fun e => (System.decode e.body).toOption.join)).filter (·.event = Event.succeeded)).map
      fun s => (s.actor, s.subject)

/-- What a client does that moves the people it writes to, or that checks a succession. -/
inductive Turn where
  | absorb (channel : Bytes32) (entries : List Entry)
  /-- What the exchange recorded of an account's succession is asked for, and its proof checked. -/
  | successorOf (account : PubKey) (got : Option Succeeded)
  /-- A proof that this device succeeds an account is checked before it is presented. -/
  | succeed (proof : Proof)

/-- A client, and the successions it has verified: the store has no table of these. -/
structure Following where
  device : PubKey
  people : Correspondents
  verified : List (PubKey × PubKey)

namespace Following

def successorOf (C : Crypto) (account : PubKey) (got : Option Succeeded) : Option PubKey :=
  got.bind fun got =>
    if got.proof.account = account ∧ got.proof.proves C got.successor then some got.successor
    else none

def succeeds (C : Crypto) (device : PubKey) (proof : Proof) : Bool :=
  proof.successor == some device && proof.proves C device

def step (C : Crypto) (f : Following) : Turn → Following
  | .absorb channel entries =>
    { f with people := run (Correspondents.follow C channel) f.people (successions entries) }
  | .successorOf account got =>
    { f with verified := f.verified ++ (successorOf C account got).toList.map (account, ·) }
  | .succeed proof =>
    if succeeds C f.device proof then
      { f with verified := f.verified ++ [(proof.account, f.device)] }
    else f

/-- Whatever this turn moves, it moves by a succession this client has verified. -/
def OwnersAct (C : Crypto) (f : Following) : Turn → Prop
  | .absorb channel entries =>
    Each (fun s change => s.ByOwner C f.verified (s.follow C channel change))
      (Correspondents.follow C channel) f.people (successions entries)
  | .successorOf .. | .succeed _ => True

/-- Each succession the batch names is about this account, or moves nothing, or was verified. -/
def Heeds (C : Crypto) (f : Following) : Turn → Prop
  | .absorb channel entries =>
    Each (fun s change => change.1 ≠ s.me → change.2 ≠ s.me →
        s.Backed C f.verified channel change.1 change.2)
      (Correspondents.follow C channel) f.people (successions entries)
  | .successorOf .. | .succeed _ => True

theorem ownersAct_iff {C : Crypto} {f : Following} {turn : Turn} :
    f.OwnersAct C turn ↔ f.Heeds C turn := by
  cases turn with
  | absorb channel entries =>
    simp only [OwnersAct, Heeds, Correspondents.follow, Correspondents.byOwner_iff]
  | successorOf account got | succeed proof => exact Iff.rfl

end Following

theorem keys_change_by_owner (C : Crypto) (f : Following) (turns : List Turn) :
    Each (Following.OwnersAct C) (Following.step C) f turns ↔
      Each (Following.Heeds C) (Following.step C) f turns := by
  have hturn : Following.OwnersAct C = Following.Heeds C := by
    funext f turn
    exact propext Following.ownersAct_iff
  rw [hturn]

/-- That key 6 succeeds key 5, which the exchange writes over no signature of 5's. -/
def forgedSuccession : Entry :=
  ⟨1, kindSystem, 0, 0, 100, 0, 0, 0, 0, 0, 0, 0, none,
    System.encode ⟨Event.succeeded, 6, 5, 0, 0, 0, 0⟩⟩

/-- The contact filed under 5 is filed under 6, which 5 never named. -/
theorem forged_succession_followed :
    entryVerifies Crypto.toy 5 6 0 0 = false ∧
    ¬ Each (Following.OwnersAct Crypto.toy) (Following.step Crypto.toy)
      ⟨1, ⟨1, 8, {(5, ⟨"ana", 100⟩)}, []⟩, []⟩ [.absorb 9 [forgedSuccession]] := by
  refine ⟨by decide +kernel, fun h => ?_⟩
  have hnamed : successions [forgedSuccession] = [(5, 6)] := by decide +kernel
  simp only [Each, Following.OwnersAct, hnamed, and_true] at h
  have hmoved := h 5 6 (.inl (by decide +kernel))
  simp at hmoved

end Sqex.Chat
