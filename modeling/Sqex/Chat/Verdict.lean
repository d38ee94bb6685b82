import Sqex.Proto.EntrySig
import Sqex.Proto.Receipt
import Sqex.Proto.Timeline

/-! What a client makes of an entry: whether its device signed it, and whether an exchange it
knows receipted it. -/
namespace Sqex.Chat

/-- Where each device's next entry stands in a run of entries, and the link it carries. -/
abbrev Chains := PubKey → Option (UInt64 × Bytes32)

/-- Devices as the lists answered name them: with the account, where a credential was checked. -/
abbrev Bindings := PubKey → Option (Option PubKey)

/-- What entries of a channel are checked under: the current key first, then the earlier ones. -/
structure Sight where
  keys : List PubKey
  channel : Bytes32
  inst : Bytes32

def Sight.place (v : Sight) (key : PubKey) : Place := ⟨key, v.inst, v.channel⟩

section
variable (C : Crypto)

section
variable (v : Sight) (key : PubKey) (e : Entry)

def receiptTerms (stamp : Receipted) : ReceiptTerms :=
  ⟨v.place key, e.seq, e.posted, stamp.entryHash, stamp.head⟩

def servedHash : Bytes32 :=
  link C ((e.terms (v.place key)).inputHashed C e.bodyHash)

def standingFor (held : Option Bytes32) : Sqex.Standing :=
  match e.stamp with
  | none => .unclaimed
  | some stamp =>
    if (receiptTerms v key e stamp).verify C stamp.receipt = false then .repudiated
    -- The hash of what the exchange wrote itself is not recomputable.
    else if e.kind = kindMember ∧ servedHash C v key e ≠ stamp.entryHash then .repudiated
    else match held with
      | none => .unlinked
      | some prev =>
        if advance C prev stamp.entryHash = stamp.head then .vouched else .diverged

def standingFrom (v : Sight) (e : Entry) (held : Option Bytes32) :
    List PubKey → Sqex.Standing → Sqex.Standing
  | [], last => last
  | key :: keys, _ =>
    let standing := standingFor C v key e held
    if standing = .repudiated then standingFrom v e held keys standing else standing

def standingUnder (held : Option Bytes32) : Sqex.Standing :=
  standingFrom C v e held v.keys .unclaimed

/-- Whether the device signed the entry at a place. A tombstone's body is gone, and its hash
is checked in its stead. -/
def signedAt (place : Place) : Bool :=
  if e.body = [] ∧ e.bodyHash ≠ C.sha256 [] then
    verifyEntryHashed C (e.terms place) e.bodyHash e.sig
  else verifyEntry C (e.terms place) e.sig

def signedUnder : Option Place :=
  (v.keys.map v.place).find? (signedAt C e)

def attribution (bound : Bindings) (e : Entry) : Option Verdict :=
  if e.device = e.account then none
  else match bound e.device with
    | some (some account) => if account = e.account then none else some .forged
    | some none | none => some .unattributed

def chained (place : Place) (e : Entry) (chains : Chains) : Verdict × Chains :=
  let moved := Function.update chains e.device
    (some (e.chainSeq + 1, link C ((e.terms place).inputHashed C e.bodyHash)))
  match chains e.device with
  | none => (.valid, moved)
  | some (seq, head) =>
    if e.chainSeq = seq ∧ e.prev = head then (.valid, moved)
    else if e.chainSeq ≤ seq then (.fork, if e.chainSeq = seq then moved else chains)
    else (.gap, moved)

def verdictFor (bound : Bindings) (e : Entry) (chains : Chains) : Verdict × Chains :=
  if e.kind = kindSystem then (.valid, chains)
  else match signedUnder C v e with
    | none => (.forged, chains)
    | some place => match attribution bound e with
      | some verdict => (verdict, chains)
      | none => chained C place e chains

end

variable {C}

theorem chained_ne_forged {e : Entry} {chains : Chains} (place : Place) :
    (chained C place e chains).1 ≠ .forged := by
  simp only [chained]
  grind

end
end Sqex.Chat
