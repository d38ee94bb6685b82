import Sqex.Chat.Incarnations
import Sqex.Proto.EnvelopeWire
import Sqex.Proto.Pool

/-! The envelopes a device collects, and the rule it reads each under: what the commits it has
noted say of the epoch, and how far it has read the log. -/
namespace Sqex

def Commit.admits (c : Commit) (account : PubKey) : Bool := c.adds.contains account

namespace Chat
open Std ChannelKey

inductive Rule where
  | epochKeys
  | secret
  /-- The chain as of a commit, and keys beside it. -/
  | welcome
  deriving DecidableEq

structure Unsealer where
  me : PubKey
  /-- Whether the publisher's signature holds, under any key the channel's receipts do. -/
  attested : Envelope → Bool
  /-- What an envelope opens to with the secret of the prekey it was sealed against. -/
  opens : Bytes32 → Envelope → Option (List Bytes32)

structure Collecting where
  shelf : Shelf
  pool : Pool
  opened : Nat
  read : List (Envelope × Rule)

section
variable (C : Crypto) (u : Unsealer)

/-- Whether what the envelope holds is had: asked of the right epoch for each rule. -/
def alreadyHad (held : Option Agreement.Chain) (s : Shelf) (e : Envelope) : Bool :=
  let commits := s.commitsAt e.toEpoch
  match commits.find? (·.admits u.me), commits.isEmpty with
  | some commit, _ => held.any fun c => decide (c.epoch ≥ commit.epoch)
  | none, false => (s.channelKey[e.toEpoch]?).isSome
  | none, true => (s.channelKey[e.fromEpoch]?).isSome

def keepSlots (s : Collecting) (e : Envelope) (slots : List Bytes32) : Collecting :=
  let commits := s.shelf.commitsAt e.toEpoch
  match commits.find? (·.admits u.me), commits.isEmpty with
  | some commit, _ =>
    let s := { s with read := s.read ++ [(e, .welcome)] }
    match Agreement.readWelcome C commit e.fromEpoch slots with
    | .error _ => s
    | .ok (chain, keys) =>
      { s with
        shelf := (s.shelf.setAgreement chain).putKeys keys
        opened := s.opened + keys.length }
  | none, false =>
    let s := { s with read := s.read ++ [(e, .secret)] }
    match slots with
    | [] => s
    | one :: _ =>
      let shelf := s.shelf.putContribution e.toEpoch one
      let after := advanceAgreement C shelf
      { s with
        shelf := after
        opened := s.opened + if shelf.highestEpoch < after.highestEpoch then 1 else 0 }
  | none, true =>
    { s with
      shelf := s.shelf.putKeys (slots.mapIdx fun i k => (e.fromEpoch + UInt32.ofNat i, k))
      opened := s.opened + slots.length
      read := s.read ++ [(e, .epochKeys)] }

/-- Whether the channel is one whose members agree on its keys, as far as the device knows. -/
def agreedChannel (held : Option Agreement.Chain) (s : Shelf) : Bool :=
  held.isSome || decide (0 < s.highestCommit)

def absorbOne (held : Option Agreement.Chain) (settled : Bool) (s : Collecting) (e : Envelope) :
    Collecting :=
  if agreedChannel held s.shelf ∧ s.shelf.commitsAt e.toEpoch = [] then s
  else if agreedChannel held s.shelf = false ∧ settled = false then s
  else if alreadyHad u held s.shelf e then s
  else
    let spent := s.pool.take e.prekeyId
    let s := { s with pool := spent.2 }
    match spent.1 with
    | .error _ => s
    | .ok secret =>
      if u.attested e then
        match u.opens secret e with
        | none => s
        | some slots => keepSlots C u s e slots
      else s

/-- Open the envelopes that were served. The chain held is read once, before them. -/
def absorbKeys (settled : Bool) (s : Collecting) (envelopes : List Envelope) : Collecting :=
  let done := envelopes.foldl (absorbOne C u s.shelf.agreement settled) { s with opened := 0 }
  if done.opened > 0 then { done with shelf := done.shelf.rewind } else done

/-- Whether a fetch came to the newest entry the exchange says it has. -/
def reached (since : UInt64) (entries : List Served) (last : UInt64) : Bool :=
  last == 0 || decide (max (((entries.map (·.entry.seq)).max?).getD since) since ≥ last)

def Collecting.note (s : Collecting) (entries : List Served) : Collecting :=
  { s with shelf := noteCommits C s.shelf entries }

def Collecting.poll (since last : UInt64) (epoch : UInt32) (entries : List Served)
    (envelopes : List Envelope) (s : Collecting) : Collecting :=
  let s := s.note C entries
  if 0 < epoch ∧ s.shelf.channelKey[epoch]? = none then
    absorbKeys C u (reached since entries last) s envelopes
  else s

/-- What a catch-up opens: the commits of its entries are taken out first. -/
def Collecting.catchup (since : UInt64) (fetched : Option (List Served × UInt64))
    (envelopes : List Envelope) (s : Collecting) : Collecting :=
  match fetched with
  | none => absorbKeys C u true s envelopes
  | some (entries, last) =>
    absorbKeys C u (reached since entries last) (s.note C entries) envelopes

/-- Keys collected by themselves. A device that is behind reads the log first, if it can. -/
def Collecting.collectKeys (last : UInt64) (asked : Option (List Served × UInt64))
    (envelopes : List Envelope) (s : Collecting) : Collecting :=
  let readTo := s.shelf.since
  if readTo ≥ last ∨ envelopes = [] then absorbKeys C u (decide (readTo ≥ last)) s envelopes
  else match asked with
    | none => absorbKeys C u false s envelopes
    | some (entries, last) =>
      absorbKeys C u (reached readTo entries last) (s.note C entries) envelopes

end
end Chat
end Sqex
