import Sqex.Proto.BodyWire
import Sqex.Proto.Credential
import Sqex.Proto.Feed
import Sqex.Proto.Succession

/-! A citation resolved: what a reader asks of an exchange about the post it names, and what it
makes of the answers. -/
namespace Sqex.Citation

def quoteDepth : Nat := 2
/-- Posts a reader looks forward for what took one off. -/
def corroborate : Nat := 64
def maxPage : Nat := 64

inductive Reply (α : Type) where
  | body (answer : α)
  | refused (status : Nat)
  | noChatHere
  /-- Nothing came back, or what did could not be read. -/
  | failed
  deriving DecidableEq

structure Homed where
  home : PubKey
  domain : String
  since : UInt64
  deriving DecidableEq

structure Stored where
  received : UInt64
  post : Feed.Post
  deriving DecidableEq

structure Page where
  found : Bool
  oldest : UInt64
  newest : UInt64
  now : UInt64
  posts : List Stored
  deriving DecidableEq

structure Device where
  device : PubKey
  added : UInt64
  notAfter : UInt64
  credential : Option Credential
  deriving DecidableEq

structure Devices where
  now : UInt64
  devices : List Device
  deriving DecidableEq

structure Withdrawn where
  device : PubKey
  time : UInt64
  revocation : Option Revocation
  deriving DecidableEq

structure Revoked where
  now : UInt64
  rows : List Withdrawn
  deriving DecidableEq

/-- A request and what came of it. Pages are asked for forward. -/
inductive Exchanged where
  | home (account : PubKey) (reply : Reply Homed)
  | page (account : PubKey) (since : UInt64) (limit : Nat) (reply : Reply Page)
  | devices (account : PubKey) (reply : Reply Devices)
  | revoked (account : PubKey) (reply : Reply Revoked)
  | succession (account : PubKey) (reply : Reply Succeeded)
  deriving DecidableEq

/-- An exchange, which composes each answer knowing all that was asked and answered before. -/
structure Exchange where
  home : List Exchanged → PubKey → Reply Homed
  page : List Exchanged → PubKey → UInt64 → Nat → Reply Page
  devices : List Exchanged → PubKey → Reply Devices
  revoked : List Exchanged → PubKey → Reply Revoked
  succession : List Exchanged → PubKey → Reply Succeeded

/-! What is made of it. Each function says what it asked beside what it makes of the answers. -/

inductive Cited where
  | got (stored : Stored)
  | withdrawn
  | removed
  | evicted
  | noFeed
  | forged
  | elsewhere (home : PubKey) (domain : String)
  | unresolved
  | unverifiable
  | succeeded (successor : PubKey) (found : Cited)
  | tooDeep
  | circular
  deriving DecidableEq

inductive Bound where
  | yes
  | no
  /-- Neither established nor disproved. -/
  | unprovable
  deriving DecidableEq

section
variable (C : Crypto) (x : Exchange)

section
variable (past : List Exchanged) (account : PubKey) (serial : UInt64)

/-- A page of somebody's feed, less the posts whose signature does not hold. -/
def pageOf (since : UInt64) (limit : Nat) : Option Page × List Exchanged :=
  let limit := max 1 (min limit maxPage)
  let reply := x.page past account since limit
  (match reply with
    | .body page => some { page with posts := page.posts.filter (·.post.verify C) }
    | _ => none,
    [.page account since limit reply])

/-- Whether a row stands: the exchange's bare word, or a withdrawal the account signed. -/
def Withdrawn.holds (now : UInt64) (r : Withdrawn) : Bool :=
  match r.revocation with
  | some v => v.device == r.device && (v.verify C account now revocationSkew).isOk
  | none => true

/-- What the account has revoked. An exchange too old to say reads as one with nothing. -/
def revokedBy : Option (List Withdrawn) × List Exchanged :=
  let reply := x.revoked past account
  (match reply with
    | .refused 400 | .noChatHere => some []
    | .body listing => some (listing.rows.filter (Withdrawn.holds C account listing.now))
    | _ => none,
    [.revoked account reply])

/-- Who holds an account now, if the proof is about it and holds. -/
def successorOf : Option PubKey × List Exchanged :=
  let reply := x.succession past account
  (match reply with
    | .body got =>
      if got.proof.account = account ∧ got.proof.proves C got.successor then some got.successor
      else none
    | _ => none,
    [.succession account reply])

/-- Whether a device is bound to an account by a credential the reader can check. The
revocations are asked for where the list does not answer. -/
def boundTo (device : PubKey) : Bound × List Exchanged :=
  if device = account then (.yes, [])
  else
    let reply := x.devices past account
    let heard := [Exchanged.devices account reply]
    match reply with
    | .body listed => match listed.devices.find? (·.device = device) with
      | none =>
        let gone := revokedBy C x (past ++ heard) account
        (if (gone.1.getD []).any (·.device = device) then .unprovable else .no, heard ++ gone.2)
      | some row => match row.credential with
        | none => (.unprovable, heard)
        | some c =>
          (if c.delegate = device ∧ c.account = account ∧
            (c.verify C account scopeChat listed.now).isOk then .yes else .no, heard)
    | _ => (.unprovable, heard)

def redacts (s : Stored) : Bool :=
  match Body.decode s.post.body with
  | .ok (some (.redact target)) => target == serial
  | _ => false

/-- Which of the two tombstones this is: looked for forward of it, and not for long. -/
def whoTookItOff (account : PubKey) (serial newest : UInt64) (past : List Exchanged)
    (since : UInt64) : Cited × List Exchanged :=
  if since < newest then
    let want := min corroborate (min (newest - since).toNat 65535)
    let asked := pageOf C x past account since want
    match asked.1 with
    | none => (.removed, asked.2)
    | some page => match page.posts.getLast? with
      | none => (.removed, asked.2)
      | some last =>
        if page.posts.any (redacts serial) then (.withdrawn, asked.2)
        else if last.post.serial ≤ since ∨ last.post.serial.toNat - serial.toNat ≥ corroborate then
          (.removed, asked.2)
        else
          let rest := whoTookItOff account serial newest (past ++ asked.2) last.post.serial
          (rest.1, asked.2 ++ rest.2)
  else (.removed, [])
termination_by serial.toNat + corroborate - since.toNat
decreasing_by
  rename_i h
  simp only [UInt64.le_iff_toNat_le] at h
  omega

def answerFrom (page : Page) : Cited × List Exchanged :=
  if serial < page.oldest then (.evicted, [])
  else match page.posts.find? (·.post.serial = serial) with
    -- The exchange says it has the serial, so what is missing was dropped.
    | none => (if serial ≤ page.newest then .forged else .unresolved, [])
    | some stored =>
      if stored.post.withdrawn then whoTookItOff C x account serial page.newest past serial
      else
        let bound := boundTo C x past account stored.post.device
        (match bound.1 with
          | .yes => .got stored
          | .unprovable => .unverifiable
          | .no => .forged,
          bound.2)

/-- Where a feed lives, if that is known and is not the exchange asked. -/
def elsewhere (here : PubKey) : Reply Homed → Option Cited
  | .body homed => if homed.home ≠ here then some (.elsewhere homed.home homed.domain) else none
  | _ => none

def citesOwn : Option (PubKey × UInt64) → Bool
  | some (who, at_) => who == account && serial ≥ at_
  | none => false

end

/-- The post a citation names, or why not, and what was asked hop by hop. -/
def resolveQuoteFrom (here : PubKey) (serial : UInt64) (citer : Option (PubKey × UInt64))
    (past : List Exchanged) (account : PubKey) (depth : Nat) : Cited × List (List Exchanged) :=
  if depth > quoteDepth then (.tooDeep, [])
  else if serial = 0 then (.circular, [])
  else if citesOwn account serial citer then (.circular, [])
  else
    let homed := x.home past account
    let heard := [Exchanged.home account homed]
    match elsewhere here homed with
    | some cited => (cited, [heard])
    -- A lookup that failed falls through: this step only ever improves an answer.
    | none =>
      let asked := pageOf C x (past ++ heard) account (serial - 1) 1
      let heard := heard ++ asked.2
      match asked.1 with
      | none => (.unresolved, [heard])
      | some page =>
        if page.found then
          let answer := answerFrom C x (past ++ heard) account serial page
          (answer.1, [heard ++ answer.2])
        else
          let next := successorOf C x (past ++ heard) account
          let heard := heard ++ next.2
          match next.1 with
          | none => (.noFeed, [heard])
          | some next =>
            let found := resolveQuoteFrom here serial citer (past ++ heard) next (depth + 1)
            (.succeeded next found.1, heard :: found.2)
termination_by quoteDepth + 1 - depth

def resolveQuote (here account : PubKey) (serial : UInt64) : Cited × List (List Exchanged) :=
  resolveQuoteFrom C x here serial none [] account 1

end
end Sqex.Citation
