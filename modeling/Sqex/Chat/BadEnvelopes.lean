import Sqex.Chat.RightRule

/-! Envelopes a device cannot use beside those it can: what an envelope costs that nobody signed
or that does not open, and when it costs another its prekey. -/
namespace Sqex
open Std

namespace Pool

structure Same (id : UInt32) (p p' : Pool) : Prop where
  oneTime : p'.oneTime[id]? = p.oneTime[id]?
  fallback : (p'.fallback.filter (·.1 = id)) = p.fallback.filter (·.1 = id)
  spent : id ∈ p'.spent ↔ id ∈ p.spent

variable {p p' p'' : Pool} {id : UInt32}

theorem Same.refl (id : UInt32) (p : Pool) : Same id p p := ⟨rfl, rfl, Iff.rfl⟩

theorem Same.trans (h : Same id p p') (h' : Same id p' p'') : Same id p p'' :=
  ⟨h'.oneTime.trans h.oneTime, h'.fallback.trans h.fallback, h'.spent.trans h.spent⟩

theorem Same.mem_iff (h : Same id p p') : id ∈ p'.oneTime ↔ id ∈ p.oneTime := by
  rw [← ExtTreeMap.isSome_getElem?_iff_mem, h.oneTime, ExtTreeMap.isSome_getElem?_iff_mem]

end Pool

namespace Chat
open ChannelKey Runs

section
variable (C : Crypto) (u : Unsealer)

/-- The device comes to take the prekey an envelope names: the log told under which rule it is
read, and what it holds is not had. -/
def Tried (held : Option Agreement.Chain) (settled : Bool) (s : Collecting) (e : Envelope) : Prop :=
  (agreedChannel held s.shelf = true → s.shelf.commitsAt e.toEpoch ≠ []) ∧
    (agreedChannel held s.shelf = false → settled = true) ∧ alreadyHad u held s.shelf e = false

instance (held : Option Agreement.Chain) (settled : Bool) (s : Collecting) (e : Envelope) :
    Decidable (Tried u held settled s e) :=
  inferInstanceAs (Decidable ((_ → _) ∧ (_ → _) ∧ _))

/-- What a device that collects goes through. -/
inductive Gathering where
  | batch (settled : Bool) (envelopes : List Envelope)
  /-- Whatever else the client does to its store, and to its prekeys. -/
  | otherwise (shelf : Shelf) (pool : Pool)

def Collecting.gather (s : Collecting) : Gathering → Collecting
  | .batch settled envelopes => absorbKeys C u settled s envelopes
  | .otherwise shelf pool => { s with shelf := shelf, pool := pool }

def Passes (id : UInt32) (held : Option Agreement.Chain) (settled : Bool) (s : Collecting)
    (e : Envelope) : Prop :=
  Tried u held settled s e → e.prekeyId ≠ id

def Spares (id : UInt32) (s : Collecting) : Gathering → Prop
  | .batch settled envelopes => Each (Passes u id s.shelf.agreement settled)
      (absorbOne C u s.shelf.agreement settled) { s with opened := 0 } envelopes
  | .otherwise _ _ => True

/-- Keys are on file where none stood for their epoch before, the first of an epoch's. -/
def OnFile (old new : ExtTreeMap UInt32 Bytes32) (keys : Keys) : Prop :=
  ∀ epoch, new[epoch]? = (old[epoch]?).or ((keys.find? (·.1 == epoch)).map Prod.snd)

/-- An epoch's key is on file as its commit and a secret make it. -/
def Derived (commits : List Commit) (epoch : UInt32) (secret : Bytes32)
    (keys : ExtTreeMap UInt32 Bytes32) : Prop :=
  ∃ chain got, firstTaken C chain secret commits = some got ∧ keys[epoch]? = some got.1

/-- What an envelope's slots hold is on file, or what another brought for that epoch before. -/
structure Retained (s : Collecting) (e : Envelope) (slots : List Bytes32) (s' : Collecting) :
    Prop where
  epochKeys : ruleOf u.me (s.shelf.commitsAt e.toEpoch) = .epochKeys →
    s'.shelf.channelKey[e.fromEpoch]? = slots[0]? ∧
      OnFile s.shelf.channelKey s'.shelf.channelKey
        (slots.mapIdx fun i k => (e.fromEpoch + UInt32.ofNat i, k))
  /-- A commit's secret waits until its epoch is derived from it, where that is still to come. -/
  secret : ruleOf u.me (s.shelf.commitsAt e.toEpoch) = .secret →
    ∀ secret, (s.shelf.contribution[e.toEpoch]?).or slots.head? = some secret →
      s'.shelf.contribution[e.toEpoch]? = some secret ∨
        (∃ chain, s.shelf.agreement = some chain ∧ e.toEpoch ≤ chain.epoch) ∨
        Derived C (s.shelf.commitsAt e.toEpoch) e.toEpoch secret s'.shelf.channelKey
  welcome : ruleOf u.me (s.shelf.commitsAt e.toEpoch) = .welcome →
    ∃ commit ∈ s.shelf.commitsAt e.toEpoch, commit.admits u.me = true ∧
      ∀ chain keys, Agreement.readWelcome C commit e.fromEpoch slots = .ok (chain, keys) →
        s'.shelf.agreement = some chain ∧ OnFile s.shelf.channelKey s'.shelf.channelKey keys

end

section
variable {C : Crypto} {u : Unsealer} {held : Option Agreement.Chain} {settled : Bool}
  {s : Collecting} {e : Envelope} {id : UInt32} {slots : List Bytes32}

end

section
variable {C : Crypto} {u : Unsealer} {held : Option Agreement.Chain} {settled : Bool}
  {s : Collecting} {id : UInt32} {secret : Bytes32}

end

section
variable {C : Crypto} {u : Unsealer} {held : Option Agreement.Chain} {settled : Bool}
  {s s' s'' : Collecting} {e : Envelope} {slots : List Bytes32}

theorem Retained.congr (h : Retained C u s e slots s')
    (hkeys : s''.shelf.channelKey = s'.shelf.channelKey)
    (hsecrets : s''.shelf.contribution = s'.shelf.contribution)
    (hchain : s''.shelf.agreement = s'.shelf.agreement) : Retained C u s e slots s'' where
  epochKeys := by
    rw [hkeys]
    exact h.epochKeys
  secret := by
    rw [hsecrets, hkeys]
    exact h.secret
  welcome := by
    rw [hkeys, hchain]
    exact h.welcome

end

/-- No envelope that was tried before, in its batch or an earlier one, names a prekey. -/
def Spared (C : Crypto) (u : Unsealer) (id : UInt32) (s : Collecting) (earlier : List Gathering)
    (settled : Bool) (before : List Envelope) : Prop :=
  Each (Spares C u id) (Collecting.gather C u) s earlier ∧
    let s₀ := run (Collecting.gather C u) s earlier
    Each (Passes u id s₀.shelf.agreement settled) (absorbOne C u s₀.shelf.agreement settled)
      { s₀ with opened := 0 } before

section
variable {C : Crypto} {u : Unsealer} {s : Collecting} {earlier : List Gathering} {settled : Bool}
  {before : List Envelope} {id : UInt32} {secret : Bytes32}

end

section Edges

def sealedTo (sig : Bytes64) (prekeyId : UInt32) : Envelope := ⟨5, 4, sig, 1, 1, prekeyId, 0, [7]⟩

end Edges

end Chat
end Sqex
