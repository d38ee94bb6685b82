import Mathlib.Data.List.Destutter
import Sqex.Proto.Channel

/-! Finding an exchange by name: the records a domain publishes, the handovers its exchange's keys
sign, and the store of what this client decided each domain's key is. -/
namespace Sqex.Discovery

def isWhite (c : Char) : Bool :=
  let n := c.toNat
  (9 ≤ n && n ≤ 13) || (0x2000 ≤ n && n ≤ 0x200a) ||
    [0x20, 0x85, 0xa0, 0x1680, 0x2028, 0x2029, 0x202f, 0x205f, 0x3000].contains n

def trimEnd (p : Char → Bool) (cs : List Char) : List Char := (cs.reverse.dropWhile p).reverse

/-- The domain as it is signed: lowercased, no trailing dot. -/
def canonicalDomain (domain : String) : String :=
  let trimmed := trimEnd isWhite (domain.toList.dropWhile isWhite)
  String.ofList ((trimEnd (· == '.') trimmed).map Char.toLower)

/-- Two spellings of a domain, but for the case of their letters. -/
def sameDomain (a b : String) : Bool := a.toList.map Char.toLower == b.toList.map Char.toLower

def handoverPrefix : Bytes := "sqex-handover-v1".toUTF8.toList

structure Handover where
  fromKey : PubKey
  toKey : PubKey
  until_ : UInt64
  sig : Bytes64
  moves : fromKey ≠ toKey

namespace Handover

def signingInput (domain : String) (fromKey toKey : PubKey) (until_ : UInt64) : Bytes :=
  let domain := (canonicalDomain domain).toUTF8.toList
  handoverPrefix ++ [UInt8.ofNat domain.length] ++ domain ++ Bytes32.toBytes fromKey ++
    Bytes32.toBytes toKey ++ beBytes 8 until_.toNat

def verify (C : Crypto) (h : Handover) (domain : String) : Bool :=
  C.checks h.fromKey (signingInput domain h.fromKey h.toKey h.until_) h.sig

/-- Whether this carries `pinned` to a key that is published too, and has not expired. -/
def carries (h : Handover) (pinned : PubKey) (offered : List PubKey) (now : UInt64) : Bool :=
  h.fromKey == pinned && offered.contains h.toKey && decide (now < h.until_)

end Handover

structure Record where
  key : PubKey
  /-- The host whose address it is. `none` is the queried domain. -/
  host : Option String
  port : UInt16
  deriving DecidableEq

/-- Why a record that claimed to be ours could not be used. -/
inductive Invalid
  | noKey
  | badKey (text : String)
  | badPort (text : String)
  | duplicate (tag : String)
  | emptyHost

inductive Parsed
  | ours (r : Record)
  | handover (h : Handover)
  | foreign
  | broken (why : Invalid)

structure Published where
  records : List Record
  handovers : List Handover

def Published.offered (p : Published) : List PubKey := p.records.map (·.key)

def sortOut (C : Crypto) (domain : String) : List Parsed → Except Invalid Published
  | [] => .ok ⟨[], []⟩
  | .ours r :: ps => (sortOut C domain ps).map fun p => { p with records := r :: p.records }
  | .handover h :: ps => (sortOut C domain ps).map fun p =>
    -- one that does not verify is somebody else's record
    if h.verify C domain then { p with handovers := h :: p.handovers } else p
  | .foreign :: ps => sortOut C domain ps
  | .broken why :: _ => .error why

inductive Decision
  | firstContact (key : PubKey)
  | pinned (key : PubKey)
  | moved (fromKey toKey : PubKey)
  | changed (pinned : PubKey) (offered : List PubKey)
  deriving DecidableEq

/-- Where the handovers that carry a pin take it: each run of one successor once. -/
def successors (p : PubKey) (offered : List PubKey) (handovers : List Handover) (now : UInt64) :
    List PubKey :=
  ((handovers.filter fun h => h.carries p offered now).map (·.toKey)).destutter (· ≠ ·)

def decide (offered : List PubKey) (pinned : Option PubKey) (handovers : List Handover)
    (now : UInt64) : Option Decision :=
  match offered with
  | [] => none
  | first :: _ =>
    match pinned with
    | none => some (.firstContact first)
    | some p =>
      if p ∈ offered then some (.pinned p)
      -- Withdrawn. The one case a handover speaks to.
      else match successors p offered handovers now with
        | [to_] => some (.moved p to_)
        | _ => some (.changed p offered)

/-- One line of the store. The host and the addresses are a cache of where it was. -/
structure Entry where
  domain : String
  key : PubKey
  host : Option String
  addrs : List String
  movedFrom : Option PubKey
  comment : String

abbrev Known := List Entry

namespace Known

def get (k : Known) (domain : String) : Option Entry := k.find? fun e => sameDomain e.domain domain

def lookup (k : Known) (domain : String) : Option PubKey := (k.get domain).map (·.key)

/-- Record a key for a domain, in place of any entry already there. -/
def add (k : Known) (domain : String) (key : PubKey) (comment : String) : Known :=
  k.filter (fun e => !sameDomain e.domain domain) ++ [⟨domain, key, none, [], none, comment⟩]

/-- Move a domain's pin on a handover. The exchange is where it was. -/
def addMoved (k : Known) (domain : String) (fromKey toKey : PubKey) (comment : String) : Known :=
  let held := k.get domain
  k.filter (fun e => !sameDomain e.domain domain) ++
    [⟨domain, toKey, held.bind (·.host), (held.map (·.addrs)).getD [], some fromKey, comment⟩]

end Known

inductive Failure
  | unresolved
  | malformed (why : Invalid)
  | notPublished
  | changed (pinned : PubKey) (offered : List PubKey)
  | store

inductive Pin
  | held
  | first
  | moved (fromKey : PubKey)

structure Found where
  key : PubKey
  host : String
  port : UInt16
  pin : Pin

/-- A domain as it was asked for, what was published, and whether the store could be written. -/
structure Resolution where
  domain : String
  answer : Option (List Parsed)
  now : UInt64
  today : String
  saves : Bool

section
variable (C : Crypto) (k : Known) (r : Resolution)

def lookup : Except Failure Published :=
  match r.answer with
  | none => .error .unresolved
  | some texts => match sortOut C r.domain texts with
    | .error why => .error (.malformed why)
    | .ok p => if p.records = [] then .error .notPublished else .ok p

def decision : Option Decision :=
  match lookup C r with
  | .error _ => none
  | .ok p => decide p.offered (k.lookup r.domain) p.handovers r.now

/-- The record naming the key that was settled on decides the address. -/
def found (p : Published) (key : PubKey) (pin : Pin) : Found :=
  let chosen := p.records.find? (·.key = key)
  ⟨key, (chosen.bind (·.host)).getD r.domain, (chosen.map (·.port)).getD 0, pin⟩

/-- Find the exchange of a domain. What could not be written is not kept. -/
def discover : Except Failure Found × Known :=
  match lookup C r with
  | .error e => (.error e, k)
  | .ok p => match decide p.offered (k.lookup r.domain) p.handovers r.now with
    | none => (.error .notPublished, k)
    | some (.pinned key) => (.ok (found r p key .held), k)
    | some (.firstContact key) =>
      if r.saves then
        (.ok (found r p key .first), k.add r.domain key ("discovered " ++ r.today))
      else (.error .store, k)
    | some (.moved fromKey toKey) =>
      if r.saves then
        (.ok (found r p toKey (.moved fromKey)),
          k.addMoved r.domain fromKey toKey ("moved " ++ r.today ++ " (SIP-40 handover)"))
      else (.error .store, k)
    | some (.changed pinned offered) => (.error (.changed pinned offered), k)

def step : Known := (discover C k r).2

end

end Sqex.Discovery
