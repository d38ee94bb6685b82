import Sqex.Lib.Collections
import Sqex.Lib.Columns
import Sqex.Proto.Primitives

/-! The directory of names: a durable table of who is bound to which name and under which kind
of lease, and beside it, in memory, the log of the claims each account made in the last hour. -/
namespace Sqex.Directory
open Std

def claimRatePerHour : Nat := 8

/-- A row of the table. The times are columns, which are signed. -/
structure NameRow where
  account : PubKey
  registeredAt : Int64
  lastActive : Int64
  adminSet : Bool
  deriving DecidableEq

inductive Claimed where
  | granted | taken | atCapacity | full | rateLimited
  deriving DecidableEq

structure Names where
  leaseSecs : UInt64
  maxNames : Option UInt64
  name : ExtTreeMap String NameRow
  claims : ExtTreeMap PubKey (List UInt64)

namespace Names

def opened (leaseSecs : UInt64) (maxNames : Option UInt64) : Names := ⟨leaseSecs, maxNames, ∅, ∅⟩

/-- When a row runs out: zero for an administrator's assignment, which does not. -/
def expires (adminSet : Bool) (lastActive : UInt64) (s : Names) : UInt64 :=
  if adminSet then 0 else Saturating.add lastActive s.leaseSecs

def held (account : PubKey) (s : Names) : Nat :=
  (s.name.filter fun _ r => r.account == account).size

def recent (now t : UInt64) : Bool := Saturating.sub now t < 3600

section RateLimit

def rateLimited (now : UInt64) (account : PubKey) (claims : ExtTreeMap PubKey (List UInt64)) :
    ExtTreeMap PubKey (List UInt64) × Bool :=
  let log := (claims.getD account []).filter (recent now)
  -- no empty log is left behind
  if log.isEmpty then (claims.erase account, false)
  else (claims.insert account log, decide (claimRatePerHour ≤ log.length))

def recordClaim (now : UInt64) (account : PubKey) (claims : ExtTreeMap PubKey (List UInt64)) :
    ExtTreeMap PubKey (List UInt64) :=
  claims.insert account (claims.getD account [] ++ [now])

def sweepRateLimiter (now : UInt64) (s : Names) : Names :=
  { s with claims := s.claims.filterMap fun _ log =>
      let log := log.filter (recent now)
      if log.isEmpty then none else some log }

end RateLimit

section
variable (now : UInt64) (name : String) (account : PubKey) (s : Names)

/-- The end of a claim, of a name that is free or whose lease ran out: one name an account, then
the total, which only a new row adds to, then the hourly rate. -/
def takeUp (fresh : Bool) (s : Names) : Names × Claimed :=
  if 1 ≤ s.held account then (s, .atCapacity)
  else if fresh && s.maxNames.any fun cap => cap.toNat ≤ s.name.size then (s, .full)
  else
    let (claims, limited) := rateLimited now account s.claims
    if limited then ({ s with claims }, .rateLimited)
    else
      ({ s with
          name := s.name.insert name ⟨account, now.toInt64, now.toInt64, false⟩
          claims := recordClaim now account claims }, .granted)

/-- A self-service claim. The caller's own name has its lease renewed, whatever kind it is. -/
def claim : Names × Claimed :=
  match s.name[name]? with
  | none => s.takeUp now name account true
  | some row =>
    if row.account = account then
      ({ s with name := s.name.insert name { row with lastActive := now.toInt64 } }, .granted)
    else if ! row.adminSet && s.expires row.adminSet row.lastActive.toUInt64 ≤ now then
      s.takeUp now name account false
    else (s, .taken)

def release : Names × Bool :=
  match s.name[name]? with
  | none => (s, false)
  | some row =>
    if row.account = account then ({ s with name := s.name.erase name }, true) else (s, false)

/-- An administrator's assignment: no lease and no cap. The time of registration is kept. -/
def assign : Names :=
  let registeredAt := (s.name[name]?.map NameRow.registeredAt).getD now.toInt64
  { s with name := s.name.insert name ⟨account, registeredAt, now.toInt64, true⟩ }

def releaseAdmin : Names × Bool :=
  ({ s with name := s.name.erase name }, s.name.contains name)

/-- Every name an account held is its successor's, leases and assignments alike. -/
def succeed (successor : PubKey) (s : Names) : Names :=
  { s with name := s.name.map fun _ r =>
      if r.account = account then { r with account := successor } else r }

def renew : Names :=
  { s with name := s.name.map fun _ r =>
      if r.account = account ∧ ! r.adminSet then { r with lastActive := now.toInt64 } else r }

/-- The column of times is compared as it is stored. -/
def sweep : Names :=
  let cutoff := Saturating.sub now (Saturating.mul s.leaseSecs 2)
  { s with name := s.name.filter fun _ r => ! (! r.adminSet && r.lastActive < cutoff.toInt64) }

end

end Names

inductive Act where
  | claim (name : String) (account : PubKey)
  | release (name : String) (account : PubKey)
  | assign (name : String) (account : PubKey)
  | releaseAdmin (name : String)
  | succeed (account successor : PubKey)
  | renew (account : PubKey)
  | sweep
  | sweepRateLimiter
  deriving DecidableEq

def Names.after (now : UInt64) (s : Names) : Act → Names
  | .claim name account => (s.claim now name account).1
  | .release name account => (s.release name account).1
  | .assign name account => s.assign now name account
  | .releaseAdmin name => (s.releaseAdmin name).1
  | .succeed account successor => s.succeed account successor
  | .renew account => s.renew now account
  | .sweep => s.sweep now
  | .sweepRateLimiter => s.sweepRateLimiter now

section Past

def Act.shows (name : String) (account : PubKey) (act : Act) : Bool :=
  act == .claim name account || act == .renew account

def Act.frees (name : String) : Act → Bool
  | .release other _ => other == name
  | .releaseAdmin other => other == name
  | _ => false

def Act.succeeds : Act → Bool
  | .succeed _ _ => true
  | _ => false

/-- What there is to tell of a name: the account it is bound to, or was last, the times that
account (or whom it succeeded) was active as its holder, and whether it was released since. -/
structure Past where
  holder : Option PubKey
  active : List UInt64
  freed : Bool
  deriving DecidableEq

def Past.found (row : Option NameRow) : Past :=
  ⟨row.map NameRow.account, (row.map fun r => r.lastActive.toUInt64).toList, false⟩

def Past.next (now : UInt64) (name : String) (act : Act) (row row' : Option NameRow) (p : Past) :
    Past :=
  match row' with
  | none => { p with freed := p.freed || (row.isSome && act.frees name) }
  | some r =>
    let earlier := if p.holder = some r.account ∨ act.succeeds then p.active else []
    ⟨some r.account, if act.shows name r.account then now :: earlier else earlier, false⟩

end Past

/-- The directory at a time, what there is to tell of each name, and the names gained by
claims. -/
structure World where
  clock : UInt64
  names : Names
  past : String → Past
  gained : List (PubKey × UInt64)

namespace World

def opened (clock leaseSecs : UInt64) (maxNames : Option UInt64)
    (name : ExtTreeMap String NameRow) : World :=
  ⟨clock, ⟨leaseSecs, maxNames, name, ∅⟩, fun n => .found name[n]?, []⟩

def gains (w : World) (now : UInt64) : Act → List (PubKey × UInt64)
  | .claim name account =>
    if (w.names.claim now name account).2 = .granted ∧
        (w.names.name[name]?.map NameRow.account) ≠ some account then [(account, now)] else []
  | _ => []

def step (w : World) (turn : UInt64 × Act) : World where
  clock := turn.1
  names := w.names.after turn.1 turn.2
  past n :=
    (w.past n).next turn.1 n turn.2 w.names.name[n]? (w.names.after turn.1 turn.2).name[n]?
  gained := w.gained ++ w.gains turn.1 turn.2

def gainedBy (account : PubKey) (w : World) : List UInt64 :=
  (w.gained.filter fun g => g.1 == account).map Prod.snd

def gainedIn (start : Nat) (account : PubKey) (w : World) : Nat :=
  (w.gainedBy account).countP fun t => start ≤ t.toNat ∧ t.toNat < start + 3600

end World

end Sqex.Directory
