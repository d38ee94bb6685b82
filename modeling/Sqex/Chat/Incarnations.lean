import Sqex.Chat.Client
import Sqex.Chat.TimedRun
import Sqex.Lib.Highest

/-! The keys of a channel's epochs, and of which of its incarnations they are: what siblings and
backups hand over, what is collected, minted and derived, and what is sealed under them. -/
namespace Sqex.Chat
open Std Runs

abbrev Keys := List (UInt32 × Bytes32)

def keepKeys (t : ExtTreeMap UInt32 Bytes32) (keys : Keys) : ExtTreeMap UInt32 Bytes32 :=
  keys.foldl (fun t k => t.insertIfNew k.1 k.2) t

def Archived.putKeys (a : Archived) (keys : Keys) : Archived :=
  { a with keys := keepKeys a.keys keys }

namespace Shelf

section
variable (s : Shelf) (inst : Bytes32) (origin : PubKey) (told : Bytes32)

def putKeys (keys : Keys) : Shelf :=
  keys.foldl (fun s k => s.putKey k.1 k.2) s

def generationOf : Option UInt64 :=
  (s.history.find? (·.inst = inst)).map (·.generation)

def putHistoryKeys (keys : Keys) : Shelf :=
  match s.generationOf inst with
  | some generation =>
    let put := fun a : Archived => if a.generation = generation then a.putKeys keys else a
    { s with history := s.history.map put }
  | none =>
    let new : Archived := ⟨s.nextGeneration, inst, origin, ∅, ∅, ∅⟩
    { s with history := s.history ++ [new.putKeys keys] }

def setIncarnation (announce : Bool) : Shelf :=
  { s with incarnation := some ⟨inst, announce⟩ }

/-- An incarnation the exchange stated, against the one recorded: another one ends what is held. -/
def noteIncarnation : Shelf :=
  if told = 0 then s
  else match s.incarnation with
    | some row => if row.inst = told then s else (s.reset origin).setIncarnation told true
    | none => s.setIncarnation told false

def post (plain : Bytes) (posted : Option Entry) : Shelf :=
  let s := s.noteIncarnation origin told
  match posted with
  | some e => s.posted e plain
  | none => s

/-- A poll found another incarnation, or a log that starts again. -/
def restart : Shelf :=
  if told = 0 then s.reset origin else (s.reset origin).setIncarnation told false

def highestEpoch : UInt32 := (s.channelKey.toList.getLast?.map Prod.fst).getD 0

/-- The exchange's epoch went backwards: what is held is another channel's, under the same name.
Which incarnation it was stays recorded. -/
def epochWentBack (epoch : UInt32) : Shelf :=
  if epoch < s.highestEpoch then s.reset origin else s

/-- Whether a signed copy of the entry at `seq` is held. -/
def hasEntry (seq : UInt64) : Bool :=
  let before := if seq = 0 then 0 else seq - 1
  ((rowsAfter s.entry before).head?.map Prod.fst) == some seq

def highestEntry : UInt64 := ((spanOf s.entry).map Prod.snd).getD 0

end

end Shelf

/-! What comes from a sibling, or out of a backup. -/

namespace Shelf

/-- Keys a sibling handed over, for a channel it names and no incarnation. One that was lacked may
open what could not be read. -/
def takeKeys (s : Shelf) (keys : Keys) : Shelf :=
  let fresh := keys.any fun k => k.1 ∉ s.channelKey
  let s' := s.putKeys keys
  if fresh ∧ s'.hasUnread then s'.rewind else s'

def offered (s : Shelf) (C : Crypto) (v : Sight) (entries : List Served) : List Served :=
  entries.filter fun i =>
    (i.entry.seq > s.highestEntry || !s.hasEntry i.entry.seq) && vouchedFor C v i.entry

/-- Entries of an incarnation, handed over. Those of another than the one recorded, or than the one
the exchange serves, are refused. -/
def import' (R : Reader) (t : Terms) (s : Shelf) (timeline : Timeline) (inst : Bytes32)
    (entries : List Served) : Shelf :=
  if entries = [] then s
  else if s.incarnation.any (·.inst ≠ inst) then s
  else if t.sight.inst ≠ inst then s
  else
    let f := foldEntries R { t with keepSigned := true } s timeline 0
      (s.offered R.crypto t.sight entries)
    f.shelf.rememberMeta f.timeline

end Shelf

/-- What an envelope collected turned out to hold. -/
inductive Opened
  | keys (first : UInt32) (slots : List Bytes32)
  /-- The chain as of the commit that admits this device, and past epochs' keys. -/
  | welcome (chain : Agreement.Chain) (past : Keys)
  | secret (epoch : UInt32) (secret : Bytes32)

def slotKeys (first : UInt32) : List Bytes32 → Keys
  | [] => []
  | key :: slots => (first, key) :: slotKeys (first + 1) slots

def Shelf.keepOpened (s : Shelf) (keys : Keys) : Shelf :=
  if keys = [] then s else (s.putKeys keys).rewind

def Shelf.absorbKey (C : Crypto) (s : Shelf) : Opened → Shelf
  | .keys first slots => s.keepOpened (slotKeys first slots)
  | .welcome chain past => (s.setAgreement chain).keepOpened past
  | .secret epoch secret => advanceAgreement C (s.putContribution epoch secret)

structure SealedBody where
  inst : Bytes32
  epoch : UInt32
  key : Bytes32
  deriving DecidableEq

/-- A channel as a device holds it, the ended incarnations it asked a sibling for, and the bodies
it sealed. Nothing reads the last. -/
structure Carried where
  shelf : Shelf
  asked : List (Bytes32 × PubKey)
  bodies : List SealedBody

/-- What is done to the keys of a channel. `told` is the incarnation the exchange states, and
`origin` the exchange that orders the channel. -/
inductive Carry
  /-- A session with a sibling begins: nothing is asked for yet. -/
  | session
  /-- A sibling offered an ended incarnation, of an origin this device knows. -/
  | ask (inst : Bytes32) (origin : PubKey)
  | siblingKeys (keys : Keys)
  | siblingKeysOf (inst : Bytes32) (keys : Keys)
  | siblingEntries (R : Reader) (t : Terms) (timeline : Timeline) (inst : Bytes32)
      (entries : List Served)
  | backupKeys (keys : Keys)
  | backupEntries (R : Reader) (t : Terms) (timeline : Timeline) (inst : Bytes32)
      (entries : List Served)
  | collected (C : Crypto) (o : Opened)
  /-- An epoch's key of this device's own making, once the exchange took it. -/
  | minted (epoch : UInt32) (key : Bytes32)
  | noteCommits (C : Crypto) (entries : List Served)
  | fold (R : Reader) (t : Terms) (timeline : Timeline) (since : UInt64) (entries : List Served)
  | restart (origin : PubKey) (told : Bytes32)
  | epochWentBack (origin : PubKey) (epoch : UInt32)
  | signed (origin : PubKey) (told : Bytes32)
  | sendBody (origin : PubKey) (told : Bytes32) (epoch : UInt32) (plain : Bytes)
      (posted : Option Entry)

namespace Carried

def empty : Carried := ⟨.empty, [], []⟩

/-- A body is sealed under the key held for the epoch, and posted. The incarnation is looked at as
the entry is signed. -/
def sendBody (c : Carried) (origin : PubKey) (told : Bytes32) (epoch : UInt32) (plain : Bytes)
    (posted : Option Entry) : Carried :=
  if epoch = 0 then { c with shelf := c.shelf.post origin told plain posted }
  else match c.shelf.channelKey[epoch]? with
    | none => c
    | some key =>
      { c with
        shelf := c.shelf.post origin told plain posted
        bodies := c.bodies ++ [⟨told, epoch, key⟩] }

def step (c : Carried) : Carry → Carried
  | .session => { c with asked := [] }
  | .ask inst origin =>
    if c.shelf.incarnation.any (·.inst = inst) then c
    else { c with asked := (inst, origin) :: c.asked.filter (·.1 ≠ inst) }
  | .siblingKeys keys => { c with shelf := c.shelf.takeKeys keys }
  | .siblingKeysOf inst keys => match c.asked.lookup inst with
    | some origin => { c with shelf := c.shelf.putHistoryKeys inst origin keys }
    | none => c
  | .siblingEntries R t timeline inst entries => match c.asked.lookup inst with
    | some origin => { c with
        shelf := (importEarlier R.crypto { t.sight with inst } t.bound origin c.shelf
          (entries.map (·.entry))).1 }
    | none => { c with shelf := c.shelf.import' R t timeline inst entries }
  | .backupKeys keys => { c with shelf := c.shelf.putKeys keys }
  | .backupEntries R t timeline inst entries =>
    { c with shelf := c.shelf.import' R t timeline inst entries }
  | .collected C o => { c with shelf := c.shelf.absorbKey C o }
  | .minted epoch key => { c with shelf := c.shelf.putKey epoch key }
  | .noteCommits C entries => { c with shelf := Chat.noteCommits C c.shelf entries }
  | .fold R t timeline since entries =>
    { c with shelf := (foldEntries R t c.shelf timeline since entries).shelf }
  | .restart origin told => { c with shelf := c.shelf.restart origin told }
  | .epochWentBack origin epoch => { c with shelf := c.shelf.epochWentBack origin epoch }
  | .signed origin told => { c with shelf := c.shelf.noteIncarnation origin told }
  | .sendBody origin told epoch plain posted => c.sendBody origin told epoch plain posted

end Carried

def derivedTo (C : Crypto) (ceiling : UInt32) : Nat → Agreement.Chain → Shelf → Keys
  | 0, _, _ => []
  | fuel + 1, chain, s =>
    if chain.epoch < ceiling then
      match s.contribution[chain.epoch + 1]? with
      | none => []
      | some secret =>
        match firstTaken C chain secret (s.commitsAt (chain.epoch + 1)) with
        | none => []
        | some (key, attempt) =>
          (chain.epoch + 1, key) :: derivedTo C ceiling fuel attempt
            ((((s.putKey (chain.epoch + 1) key).setAgreement attempt).dropContribution
              (chain.epoch + 1)).rewind)
    else []

namespace Shelf

def derived (C : Crypto) (s : Shelf) : Keys :=
  match s.agreement with
  | none => []
  | some chain => derivedTo C s.highestCommit s.highestCommit.toNat chain s

def folded (R : Reader) (t : Terms) (s : Shelf) (timeline : Timeline) (since : UInt64)
    (entries : List Served) : Keys :=
  let f := foldRun R t (starting t s timeline since) entries
  if f.committed then f.shelf.derived R.crypto else []

end Shelf

section
variable (keyOf : Bytes32 → UInt32 → Bytes32)

namespace Shelf

/-- Each key held for an epoch is the one an incarnation's members hold for it. -/
def Under (s : Shelf) (inst : Bytes32) : Prop :=
  ∀ (epoch : UInt32) (key : Bytes32), s.channelKey[epoch]? = some key → key = keyOf inst epoch

/-- Keys that go in, where none is held for their epochs, are an incarnation's. Of two keys for an
epoch the first goes in. -/
def Fits (s : Shelf) (inst : Bytes32) (keys : Keys) : Prop :=
  ∀ k ∈ keys, keys.find? (·.1 == k.1) = some k → k.1 ∉ s.channelKey → k.2 = keyOf inst k.1

def Takes (s : Shelf) (keys : Keys) : Prop :=
  ∀ row, s.incarnation = some row → s.Fits keyOf row.inst keys

def Records (s : Shelf) (told : Bytes32) : Prop :=
  told ≠ 0 → s.incarnation = none → s.Under keyOf told

/-- What a run of entries records and derives is of one incarnation with the keys held. -/
structure Follows (R : Reader) (t : Terms) (s : Shelf) (timeline : Timeline) (since : UInt64)
    (entries : List Served) : Prop where
  records : s.Records keyOf t.sight.inst
  takes : s.Takes keyOf (s.folded R t timeline since entries)
  fits : t.sight.inst ≠ 0 → s.incarnation = none →
    s.Fits keyOf t.sight.inst (s.folded R t timeline since entries)

def Imports (R : Reader) (t : Terms) (s : Shelf) (timeline : Timeline) (inst : Bytes32)
    (entries : List Served) : Prop :=
  entries ≠ [] → s.incarnation.all (·.inst = inst) → t.sight.inst = inst →
    s.Follows keyOf R { t with keepSigned := true } timeline 0
      (s.offered R.crypto t.sight entries)

def Serves (s : Shelf) (told : Bytes32) (epoch : UInt32) : Prop :=
  match s.incarnation with
  | some row => keyOf row.inst epoch = keyOf told epoch
  | none => ∀ key, s.channelKey[epoch]? = some key → key = keyOf told epoch

end Shelf

namespace Carried

/-- Each key held is of the incarnation recorded, and each body is sealed as the members of the
incarnation it goes to can open it. -/
structure InPlace (c : Carried) : Prop where
  keys : ∀ row, c.shelf.incarnation = some row → c.shelf.Under keyOf row.inst
  bodies : ∀ b ∈ c.bodies, b.key = keyOf b.inst b.epoch

/-- Where no key crosses: what goes in is of the incarnation recorded, what is recorded over none
is the one the keys are of, and what is sealed is for the one recorded. -/
def Apart (c : Carried) : Carry → Prop
  | .siblingKeys keys => c.shelf.Takes keyOf keys
  | .backupKeys keys => c.shelf.Takes keyOf keys
  | .siblingEntries R t timeline inst entries =>
    c.asked.lookup inst = none → c.shelf.Imports keyOf R t timeline inst entries
  | .backupEntries R t timeline inst entries => c.shelf.Imports keyOf R t timeline inst entries
  | .collected _ (.keys first slots) => c.shelf.Takes keyOf (slotKeys first slots)
  | .collected _ (.welcome _ past) => c.shelf.Takes keyOf past
  | .collected C (.secret epoch secret) =>
    c.shelf.Takes keyOf ((c.shelf.putContribution epoch secret).derived C)
  | .minted epoch key => c.shelf.Takes keyOf [(epoch, key)]
  | .fold R t timeline since entries => c.shelf.Follows keyOf R t timeline since entries
  | .signed _ told => c.shelf.Records keyOf told
  | .sendBody _ told epoch _ _ =>
    (epoch = 0 ∨ epoch ∈ c.shelf.channelKey → c.shelf.Records keyOf told) ∧
      (epoch ≠ 0 → epoch ∈ c.shelf.channelKey → c.shelf.Serves keyOf told epoch)
  | .session | .ask _ _ | .siblingKeysOf _ _ | .noteCommits _ _ | .restart _ _
  | .epochWentBack _ _ => True

end Carried
end

/-! What is read and kept leaves the keys and the incarnation as they are. -/

namespace Shelf

theorem redactMessage_toFiled (s : Shelf) (seq : UInt64) :
    (s.redactMessage seq).toFiled = s.toFiled := by
  unfold redactMessage
  split <;> rfl

theorem honour_toFiled (s : Shelf) (t : Timeline) (body : Option Body) :
    (s.honour t body).toFiled = s.toFiled := by
  unfold honour
  split
  · split_ifs
    · exact redactMessage_toFiled ..
    · rfl
  · rfl

theorem keep_toFiled (C : Crypto) (s : Shelf) (keepSigned : Bool) (e : Entry)
    (plain : Option Bytes) : (s.keep C keepSigned e plain).toFiled = s.toFiled := by
  have hredact : ∀ b : Shelf, b.toFiled = s.toFiled →
      (b.redactMessage e.seq).toFiled = s.toFiled :=
    fun b hb => (b.redactMessage_toFiled e.seq).trans hb
  rw [Shelf.keep]
  split <;> split_ifs
  all_goals first
    | rfl
    | exact hredact _ rfl

theorem posted_toFiled (s : Shelf) (e : Entry) (plain : Bytes) :
    (s.posted e plain).toFiled = s.toFiled := by
  unfold posted
  split_ifs <;> rfl

theorem rememberMeta_toFiled (s : Shelf) (t : Timeline) :
    (s.rememberMeta t).toFiled = s.toFiled := by
  unfold rememberMeta
  split
  · rfl
  · split
    · rfl
    · split <;> rfl

end Shelf

section
variable (R : Reader) (t : Terms)

theorem take_toFiled (f : Folding) (i : Served) :
    (f.take R t i).shelf.toFiled = f.shelf.toFiled := by
  simp only [Folding.take, Folding.judge, Folding.keep]
  split_ifs
  all_goals first
    | rfl
    | exact (Shelf.honour_toFiled ..).trans (Shelf.keep_toFiled ..)

theorem foldRun_toFiled (f : Folding) (entries : List Served) :
    (foldRun R t f entries).shelf.toFiled = f.shelf.toFiled := by
  induction entries generalizing f with
  | nil => rfl
  | cons i is ih =>
    rw [foldRun_cons, ih, take_toFiled]

end

theorem noteCommits_toFiled (C : Crypto) (s : Shelf) (entries : List Served) :
    (noteCommits C s entries).toFiled = s.toFiled := by
  rw [noteCommits_rest]

theorem foldEntries_toFiled (R : Reader) (t : Terms) (s : Shelf) (timeline : Timeline)
    (since : UInt64) (entries : List Served) :
    (foldRun R t (starting t s timeline since) entries).shelf.toFiled =
      if t.sight.inst ≠ 0 ∧ s.incarnation = none then
        { s.toFiled with incarnation := some ⟨t.sight.inst, false⟩ }
      else s.toFiled := by
  rw [foldRun_toFiled]
  unfold starting Folding.start
  split_ifs <;> rfl

theorem getElem?_keepKeys (t : ExtTreeMap UInt32 Bytes32) (keys : Keys) (epoch : UInt32) :
    (keepKeys t keys)[epoch]? =
      (t[epoch]?).or ((keys.find? (·.1 == epoch)).map Prod.snd) :=
  getElem?_foldl_insertIfNew keys epoch

theorem Shelf.putKeys_eq (s : Shelf) (keys : Keys) :
    s.putKeys keys = { s with channelKey := keepKeys s.channelKey keys } := by
  induction keys generalizing s with
  | nil => rfl
  | cons k keys ih =>
    rw [putKeys, List.foldl_cons]
    exact ih (s.putKey k.1 k.2)

theorem Shelf.keepOpened_keys (s : Shelf) (keys : Keys) :
    (s.keepOpened keys).channelKey = keepKeys s.channelKey keys ∧
      (s.keepOpened keys).incarnation = s.incarnation := by
  unfold keepOpened
  rw [s.putKeys_eq keys]
  by_cases hnone : keys = []
  · rw [if_pos hnone, hnone]
    exact ⟨rfl, rfl⟩
  · rw [if_neg hnone]
    exact ⟨rfl, rfl⟩

theorem advanceTo_keys (C : Crypto) (ceiling : UInt32) (fuel : Nat) (chain : Agreement.Chain)
    (s : Shelf) : (advanceTo C ceiling fuel chain s).2.channelKey =
        keepKeys s.channelKey (derivedTo C ceiling fuel chain s) ∧
      (advanceTo C ceiling fuel chain s).2.incarnation = s.incarnation := by
  induction fuel generalizing chain s with
  | zero => exact ⟨rfl, rfl⟩
  | succ fuel ih =>
    rw [advanceTo, derivedTo]
    by_cases hbelow : chain.epoch < ceiling
    · rw [if_pos hbelow, if_pos hbelow]
      cases hsecret : s.contribution[chain.epoch + 1]? with
      | none => exact ⟨rfl, rfl⟩
      | some secret =>
        cases htaken : firstTaken C chain secret (s.commitsAt (chain.epoch + 1)) with
        | none => simp [htaken, keepKeys]
        | some got =>
          simp only [htaken]
          exact ih got.2 _
    · rw [if_neg hbelow, if_neg hbelow]
      exact ⟨rfl, rfl⟩

theorem advanceAgreement_keys (C : Crypto) (s : Shelf) :
    (advanceAgreement C s).channelKey = keepKeys s.channelKey (s.derived C) ∧
      (advanceAgreement C s).incarnation = s.incarnation := by
  unfold advanceAgreement Shelf.derived
  cases s.agreement with
  | none => exact ⟨rfl, rfl⟩
  | some chain => exact advanceTo_keys C s.highestCommit s.highestCommit.toNat chain s

theorem foldEntries_keys (R : Reader) (t : Terms) (s : Shelf) (timeline : Timeline)
    (since : UInt64) (entries : List Served) :
    (foldEntries R t s timeline since entries).shelf.channelKey =
        keepKeys s.channelKey (s.folded R t timeline since entries) ∧
      (foldEntries R t s timeline since entries).shelf.incarnation =
        if t.sight.inst ≠ 0 ∧ s.incarnation = none then some ⟨t.sight.inst, false⟩
        else s.incarnation := by
  have hrun := foldEntries_toFiled R t s timeline since entries
  have hkeys : (foldRun R t (starting t s timeline since) entries).shelf.channelKey =
      s.channelKey := by
    have h := congrArg Filed.channelKey hrun
    rw [h]
    split_ifs <;> rfl
  have hinc : (foldRun R t (starting t s timeline since) entries).shelf.incarnation =
      if t.sight.inst ≠ 0 ∧ s.incarnation = none then some ⟨t.sight.inst, false⟩
      else s.incarnation := by
    have h := congrArg Filed.incarnation hrun
    rw [h]
    split_ifs <;> rfl
  have hderived := advanceAgreement_keys R.crypto
    (foldRun R t (starting t s timeline since) entries).shelf
  rw [foldEntries_eq, ended, Shelf.folded]
  by_cases hcommitted : (foldRun R t (starting t s timeline since) entries).committed = true
  · rw [if_pos hcommitted, if_pos hcommitted, ← hinc]
    rw [hkeys] at hderived
    exact hderived
  · rw [if_neg hcommitted, if_neg hcommitted]
    exact ⟨hkeys, hinc⟩

section
variable {keyOf : Bytes32 → UInt32 → Bytes32}

namespace Shelf

theorem under_of_keepKeys {s s' : Shelf} {keys : Keys} {inst : Bytes32}
    (hkeys : s'.channelKey = keepKeys s.channelKey keys) :
    s'.Under keyOf inst ↔ s.Under keyOf inst ∧ s.Fits keyOf inst keys := by
  constructor
  · intro h
    refine ⟨fun epoch key hheld => h epoch key ?_, fun k hk hfirst hnew => ?_⟩
    · rw [hkeys, getElem?_keepKeys, hheld, Option.some_or]
    · have hnone : s.channelKey[k.1]? = none := by simpa using hnew
      refine h k.1 k.2 ?_
      rw [hkeys, getElem?_keepKeys, hnone, hfirst, Option.none_or, Option.map_some]
  · rintro ⟨hheld, hfits⟩ epoch key hkey
    rw [hkeys, getElem?_keepKeys] at hkey
    cases hold : s.channelKey[epoch]? with
    | some held =>
      rw [hold, Option.some_or, Option.some.injEq] at hkey
      exact hkey ▸ hheld epoch held hold
    | none =>
      rw [hold, Option.none_or, Option.map_eq_some_iff] at hkey
      obtain ⟨k, hfirst, rfl⟩ := hkey
      have hepoch : k.1 = epoch := by simpa using List.find?_some hfirst
      subst hepoch
      exact hfits k (List.mem_of_find?_eq_some hfirst) hfirst (by simpa using hold)

end Shelf

namespace Carried
variable {c : Carried} {s' : Shelf} {keys : Keys}

theorem InPlace.takes_iff (h : c.InPlace keyOf)
    (hkeys : s'.channelKey = keepKeys c.shelf.channelKey keys)
    (hinc : s'.incarnation = c.shelf.incarnation) :
    InPlace keyOf { c with shelf := s' } ↔ c.shelf.Takes keyOf keys := by
  constructor
  · intro hafter row hrow
    exact ((Shelf.under_of_keepKeys hkeys).mp (hafter.keys row (hinc.trans hrow))).2
  · intro htakes
    refine ⟨fun row hrow => ?_, h.bodies⟩
    have hknown : c.shelf.incarnation = some row := hinc.symm.trans hrow
    exact (Shelf.under_of_keepKeys hkeys).mpr ⟨h.keys row hknown, htakes row hknown⟩

theorem InPlace.kept {s : Shelf} (h : c.InPlace keyOf)
    (hfiled : s.toFiled = c.shelf.toFiled) : InPlace keyOf { c with shelf := s } := by
  have hnone : c.shelf.Takes keyOf [] := fun _ _ k hk => by simp at hk
  exact (h.takes_iff (congrArg Filed.channelKey hfiled) (congrArg Filed.incarnation hfiled)).mpr
    hnone

theorem InPlace.emptied (h : c.InPlace keyOf) (hkeys : s'.channelKey = ∅) :
    InPlace keyOf { c with shelf := s' } := by
  refine ⟨fun row _ epoch key hkey => ?_, h.bodies⟩
  rw [hkeys] at hkey
  simp at hkey

theorem InPlace.noted_iff (h : c.InPlace keyOf) (origin : PubKey) (told : Bytes32) :
    InPlace keyOf { c with shelf := c.shelf.noteIncarnation origin told } ↔
      c.shelf.Records keyOf told := by
  unfold Shelf.noteIncarnation
  by_cases htold : told = 0
  · rw [if_pos htold]
    exact iff_of_true h fun hne => absurd htold hne
  · rw [if_neg htold]
    cases hknown : c.shelf.incarnation with
    | some row =>
      have hrecords : c.shelf.Records keyOf told := fun _ hnone => by simp [hknown] at hnone
      refine iff_of_true ?_ hrecords
      dsimp only
      split_ifs
      · exact h
      · exact h.emptied rfl
    | none =>
      constructor
      · exact fun hafter _ _ => hafter.keys ⟨told, false⟩ rfl
      · intro hrecords
        refine ⟨fun row hrow => ?_, h.bodies⟩
        obtain rfl : ⟨told, false⟩ = row := Option.some.inj hrow
        exact hrecords htold hknown

theorem InPlace.fold_iff (h : c.InPlace keyOf) (R : Reader) (t : Terms) (timeline : Timeline)
    (since : UInt64) (entries : List Served)
    (hfiled : s'.toFiled = (foldEntries R t c.shelf timeline since entries).shelf.toFiled) :
    InPlace keyOf { c with shelf := s' } ↔
      c.shelf.Follows keyOf R t timeline since entries := by
  obtain ⟨hkeys, hinc⟩ := foldEntries_keys R t c.shelf timeline since entries
  rw [← congrArg Filed.channelKey hfiled] at hkeys
  rw [← congrArg Filed.incarnation hfiled] at hinc
  by_cases hfirst : t.sight.inst ≠ 0 ∧ c.shelf.incarnation = none
  · rw [if_pos hfirst] at hinc
    constructor
    · intro hafter
      have hboth := (Shelf.under_of_keepKeys hkeys).mp (hafter.keys _ hinc)
      refine ⟨fun _ _ => hboth.1, fun row hrow => ?_, fun _ _ => hboth.2⟩
      simp [hfirst.2] at hrow
    · intro hfollows
      refine ⟨fun row hrow => ?_, h.bodies⟩
      obtain rfl : ⟨t.sight.inst, false⟩ = row := Option.some.inj (hinc.symm.trans hrow)
      exact (Shelf.under_of_keepKeys hkeys).mpr
        ⟨hfollows.records hfirst.1 hfirst.2, hfollows.fits hfirst.1 hfirst.2⟩
  · rw [if_neg hfirst] at hinc
    rw [h.takes_iff hkeys hinc]
    constructor
    · exact fun htakes => ⟨fun htold hnone => absurd ⟨htold, hnone⟩ hfirst, htakes,
        fun htold hnone => absurd ⟨htold, hnone⟩ hfirst⟩
    · exact fun hfollows => hfollows.takes

theorem InPlace.import_iff (h : c.InPlace keyOf) (R : Reader) (t : Terms) (timeline : Timeline)
    (inst : Bytes32) (entries : List Served) :
    InPlace keyOf { c with shelf := c.shelf.import' R t timeline inst entries } ↔
      c.shelf.Imports keyOf R t timeline inst entries := by
  unfold Shelf.import' Shelf.Imports
  by_cases hempty : entries = []
  · rw [if_pos hempty]
    exact iff_of_true h fun hne => absurd hempty hne
  rw [if_neg hempty]
  by_cases hother : c.shelf.incarnation.any (·.inst ≠ inst) = true
  · rw [if_pos hother]
    refine iff_of_true h fun _ hall => ?_
    cases hknown : c.shelf.incarnation <;> simp_all
  rw [if_neg hother]
  by_cases hserved : t.sight.inst ≠ inst
  · rw [if_pos hserved]
    exact iff_of_true h fun _ _ hsame => absurd hsame hserved
  rw [if_neg hserved]
  have hall : c.shelf.incarnation.all (·.inst = inst) = true := by
    cases hknown : c.shelf.incarnation <;> simp_all
  rw [h.fold_iff R { t with keepSigned := true } timeline 0
    (c.shelf.offered R.crypto t.sight entries) (Shelf.rememberMeta_toFiled ..)]
  exact ⟨fun hfollows _ _ _ => hfollows, fun hall' => hall' hempty hall (not_not.mp hserved)⟩

theorem InPlace.sealed_iff {key : Bytes32} {epoch : UInt32} {told : Bytes32}
    (h : c.InPlace keyOf) (hkey : c.shelf.channelKey[epoch]? = some key) :
    InPlace keyOf { c with shelf := s', bodies := c.bodies ++ [⟨told, epoch, key⟩] } ↔
      InPlace keyOf { c with shelf := s' } ∧ c.shelf.Serves keyOf told epoch := by
  have hserves : c.shelf.Serves keyOf told epoch ↔ key = keyOf told epoch := by
    unfold Shelf.Serves
    cases hknown : c.shelf.incarnation with
    | some row =>
      dsimp only
      rw [h.keys row hknown epoch key hkey]
    | none => simp [hkey]
  rw [hserves]
  constructor
  · intro hafter
    refine ⟨⟨hafter.keys, h.bodies⟩, ?_⟩
    exact hafter.bodies ⟨told, epoch, key⟩ (by simp)
  · rintro ⟨hshelf, hsame⟩
    refine ⟨hshelf.keys, fun b hb => ?_⟩
    rcases mem_concat.mp hb with hold | rfl
    · exact h.bodies b hold
    · exact hsame

theorem InPlace.post_iff (h : c.InPlace keyOf) (origin : PubKey) (told : Bytes32) (plain : Bytes)
    (posted : Option Entry) :
    InPlace keyOf { c with shelf := c.shelf.post origin told plain posted } ↔
      c.shelf.Records keyOf told := by
  rw [← h.noted_iff origin told]
  unfold Shelf.post
  cases posted with
  | none => rfl
  | some e =>
    have hfiled := (c.shelf.noteIncarnation origin told).posted_toFiled e plain
    constructor
    · exact fun hafter => hafter.kept (s := c.shelf.noteIncarnation origin told) hfiled.symm
    · exact fun hnoted => hnoted.kept hfiled

theorem InPlace.sendBody_iff (h : c.InPlace keyOf) (origin : PubKey) (told : Bytes32)
    (epoch : UInt32) (plain : Bytes) (posted : Option Entry) :
    (c.sendBody origin told epoch plain posted).InPlace keyOf ↔
      c.Apart keyOf (.sendBody origin told epoch plain posted) := by
  unfold sendBody Apart
  by_cases hpublic : epoch = 0
  · rw [if_pos hpublic, h.post_iff]
    simp [hpublic]
  · rw [if_neg hpublic]
    cases hkey : c.shelf.channelKey[epoch]? with
    | none =>
      have hnot : epoch ∉ c.shelf.channelKey := by simpa using hkey
      exact iff_of_true h ⟨fun hor => (hor.elim hpublic hnot).elim, fun _ hmem => (hnot hmem).elim⟩
    | some key =>
      have hmem : epoch ∈ c.shelf.channelKey :=
        ExtTreeMap.mem_iff_isSome_getElem?.mpr (by simp [hkey])
      rw [h.sealed_iff hkey, h.post_iff]
      simp [hpublic, hmem]

theorem InPlace.step_iff (h : c.InPlace keyOf) (op : Carry) :
    (c.step op).InPlace keyOf ↔ c.Apart keyOf op := by
  cases op with
  | session => exact iff_of_true ⟨h.keys, h.bodies⟩ trivial
  | ask inst origin =>
    refine iff_of_true ?_ trivial
    unfold step
    dsimp only
    split_ifs
    · exact h
    · exact ⟨h.keys, h.bodies⟩
  | siblingKeys keys =>
    have hfiled : (c.shelf.takeKeys keys).channelKey = keepKeys c.shelf.channelKey keys ∧
        (c.shelf.takeKeys keys).incarnation = c.shelf.incarnation := by
      unfold Shelf.takeKeys
      rw [c.shelf.putKeys_eq keys]
      dsimp only
      split_ifs <;> exact ⟨rfl, rfl⟩
    exact h.takes_iff hfiled.1 hfiled.2
  | siblingKeysOf inst keys =>
    refine iff_of_true ?_ trivial
    unfold step
    dsimp only
    cases c.asked.lookup inst with
    | none => exact h
    | some origin =>
      refine h.kept ?_
      unfold Shelf.putHistoryKeys
      split <;> rfl
  | siblingEntries R t timeline inst entries =>
    unfold step Apart
    dsimp only
    cases hasked : c.asked.lookup inst with
    | none => simpa using h.import_iff R t timeline inst entries
    | some origin =>
      refine iff_of_true (h.kept ?_) (by simp)
      rw [Cabinet.importEarlier_rest]
  | backupKeys keys =>
    have hputs := c.shelf.putKeys_eq keys
    exact h.takes_iff (congrArg (·.channelKey) hputs) (congrArg (·.incarnation) hputs)
  | backupEntries R t timeline inst entries => exact h.import_iff R t timeline inst entries
  | collected C o =>
    cases o with
    | keys first slots =>
      obtain ⟨hkeys, hinc⟩ := c.shelf.keepOpened_keys (slotKeys first slots)
      exact h.takes_iff hkeys hinc
    | welcome chain past =>
      obtain ⟨hkeys, hinc⟩ := (c.shelf.setAgreement chain).keepOpened_keys past
      exact h.takes_iff hkeys hinc
    | secret epoch secret =>
      obtain ⟨hkeys, hinc⟩ := advanceAgreement_keys C (c.shelf.putContribution epoch secret)
      exact h.takes_iff hkeys hinc
  | minted epoch key => exact h.takes_iff rfl rfl
  | noteCommits C entries => exact iff_of_true (h.kept (noteCommits_toFiled C _ entries)) trivial
  | fold R t timeline since entries => exact h.fold_iff R t timeline since entries rfl
  | restart origin told =>
    refine iff_of_true (h.emptied ?_) trivial
    unfold Shelf.restart
    split_ifs <;> rfl
  | epochWentBack origin epoch =>
    refine iff_of_true ?_ trivial
    unfold step Shelf.epochWentBack
    dsimp only
    split_ifs
    · exact h.emptied rfl
    · exact h
  | signed origin told => exact h.noted_iff origin told
  | sendBody origin told epoch plain posted => exact h.sendBody_iff origin told epoch plain posted

end Carried
end

/-- Keys stay with their incarnation in exactly the runs that keep them apart. -/
theorem keys_stay_apart (keyOf : Bytes32 → UInt32 → Bytes32) (ops : List Carry) :
    Always (Carried.InPlace keyOf) Carried.step .empty ops ↔
      Each (Carried.Apart keyOf) Carried.step .empty ops := by
  have hempty : Carried.empty.InPlace keyOf := by
    refine ⟨fun row hrow => ?_, fun b hb => ?_⟩
    · cases hrow
    · cases hb
  exact always_iff_each (fun _ op h => h.step_iff op) hempty

def keyOfToy (inst : Bytes32) (epoch : UInt32) : Bytes32 :=
  100 * inst + BitVec.ofNat 256 epoch.toNat

/-- A sibling hands over the key of incarnation 1. The exchange serves 2, and a body is sent. -/
def keyOfAnother : List Carry :=
  [.siblingKeys [(1, keyOfToy 1 1)], .sendBody 20 2 1 [8] none]

/-- The body is sealed under a key nobody of incarnation 2 holds. -/
theorem sealed_under_another :
    ¬ Always (Carried.InPlace keyOfToy) Carried.step .empty keyOfAnother := by
  intro hall
  have hend := always_iff_prefixes.mp hall keyOfAnother List.prefix_rfl
  have hbody : (⟨2, 1, 101⟩ : SealedBody) ∈ (run Carried.step .empty keyOfAnother).bodies := by
    decide +kernel
  exact absurd (hend.bodies _ hbody) (by decide +kernel)

end Sqex.Chat
