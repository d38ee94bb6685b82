import Sqex.Lib.Faults
import Sqex.Proto.Feed

/-! Feeds at an exchange: a head row for each account and the log of its posts, and the statements
by which each operation changes the two. Times are in columns, and so signed. -/
namespace Sqex.Feed
open Std

inductive FeedError where
  | notYours | badSignature | badBody | tooLarge | stale | brokenChain | reserved
  | noSuchPost | badRetention | storage
  deriving DecidableEq

/-- Where a feed has got to, and the policy its author set. -/
structure HeadRow where
  /-- The lowest serial still held; 0 where none is. -/
  oldest : Nat
  /-- The highest serial ever accepted. -/
  newest : Nat
  headInput : Bytes32
  posts : Nat
  bytes : Nat
  retentionSecs : Nat
  maxPosts : Nat
  listed : Bool
  listedAt : Int64
  deriving DecidableEq

def HeadRow.absent : HeadRow where
  oldest := 0
  newest := 0
  headInput := genesis
  posts := 0
  bytes := 0
  retentionSecs := defaultRetention
  maxPosts := Feed.maxPosts
  listed := false
  listedAt := 0

/-- A stored post. The column holds its encoding, which decodes to it. -/
structure PostRow where
  account : PubKey
  serial : Nat
  received : Int64
  expiresAt : Int64
  post : Post
  deriving DecidableEq

def PostRow.isKey (account : PubKey) (serial : Nat) (r : PostRow) : Bool :=
  r.account == account && r.serial == serial

def PostRow.stone (r : PostRow) : PostRow :=
  { r with post := r.post.tombstone, expiresAt := Int64.maxValue }

structure Feeds where
  feed : ExtTreeMap PubKey HeadRow
  post : List PostRow

namespace Feeds

def opened : Feeds := ⟨∅, []⟩

def rows (s : Feeds) (account : PubKey) : List PostRow := s.post.filter (·.account == account)

def headOf (s : Feeds) (account : PubKey) : HeadRow := (s.feed[account]?).getD .absent

section Statements

def insertPost (r : PostRow) (s : Feeds) : Option Feeds :=
  if s.post.any (PostRow.isKey r.account r.serial) then none
  else some { s with post := s.post ++ [r] }

def deletePost (account : PubKey) (serial : Nat) (s : Feeds) : Feeds :=
  { s with post := s.post.filter fun r => ! r.isKey account serial }

def updateHead (account : PubKey) (f : HeadRow → HeadRow) (s : Feeds) : Feeds :=
  { s with feed := s.feed.alter account (Option.map f) }

/-- Write a feed's head. A row that is there keeps its policy, and a new one has the default. -/
def putHead (account : PubKey) (h : HeadRow) (s : Feeds) : Feeds :=
  let row := { s.headOf account with
    oldest := h.oldest, newest := h.newest, headInput := h.headInput, posts := h.posts
    bytes := h.bytes }
  { s with feed := s.feed.insert account row }

def writeStone (account : PubKey) (serial : Nat) (s : Feeds) : Feeds :=
  { s with post := s.post.map fun r => if r.isKey account serial then r.stone else r }

def freeBytes (account : PubKey) (freed : Nat) : Feeds → Feeds :=
  updateHead account fun h => { h with bytes := h.bytes - freed }

end Statements

section
variable (C : Crypto) (s : Feeds) (p : Post) (now : UInt64)

def expiresAt : Int64 :=
  if p.expiresAfter = 0 then Int64.maxValue
  else (UInt64.ofNat (min (2 ^ 64 - 1) (now.toNat + p.expiresAfter.toNat))).toInt64

structure Evicted where
  gone : List Nat
  posts : Nat
  bytes : Nat
  oldest : Nat

/-- Evict from the oldest end while either cap is passed, but never the newest post. Each turn
takes the oldest row that is left. -/
def evict (max newest : Nat) : List PostRow → Nat → Nat → Nat → Evicted
  | [], posts, bytes, oldest => ⟨[], posts, bytes, oldest⟩
  | r :: rest, posts, bytes, oldest =>
    if posts > max ∨ bytes > maxFeedBytes then
      if r.serial = newest then ⟨[], posts, bytes, oldest⟩
      else
        let e := evict max newest rest (posts - 1) (bytes - r.post.stored) (r.serial + 1)
        { e with gone := r.serial :: e.gone }
    else ⟨[], posts, bytes, oldest⟩

def accept (account : PubKey) (p : Post) : Except FeedError Unit :=
  if p.account ≠ account then .error .notYours
  else if p.flags ≠ 0 then .error .reserved
  else if p.body.length > maxBody then .error .tooLarge
  else if ! p.bodyMatches C then .error .badBody
  else if ! p.verify C then .error .badSignature
  else if p.serial.toNat ≠ (s.headOf account).newest + 1 then .error .stale
  else if p.prev ≠ (s.headOf account).headInput then .error .brokenChain
  else .ok ()

def arriving : PostRow :=
  ⟨p.account, p.serial.toNat, now.toInt64, expiresAt p now, p⟩

def makeRoom : Evicted :=
  let h := s.headOf p.account
  let held := (s.rows p.account ++ [arriving p now]).insertionSort fun a b => a.serial ≤ b.serial
  evict h.maxPosts p.serial.toNat held (h.posts + 1) (h.bytes + p.stored)
    (if h.oldest = 0 then p.serial.toNat else h.oldest)

def headAfter : HeadRow :=
  let e := s.makeRoom p now
  { s.headOf p.account with
    oldest := e.oldest, newest := p.serial.toNat, headInput := p.link C, posts := e.posts
    bytes := e.bytes }

def appending : List (Feeds → Option Feeds) :=
  let evicting := (s.makeRoom p now).gone.map fun serial => deletePost p.account serial
  let head := putHead p.account (s.headAfter C p now)
  insertPost (arriving p now) :: (evicting ++ [head]).map fun f s => some (f s)

def due : List PostRow :=
  s.post.filter fun r => r.expiresAt ≤ now.toInt64 && r.post.stored > postHeader + 64

def stoning (r : PostRow) : List (Feeds → Option Feeds) :=
  [writeStone r.account r.serial, freeBytes r.account r.post.body.length].map fun f s => some (f s)

/-- The statements that drop what has passed its own timer. -/
def expiring : List (Feeds → Option Feeds) := (s.due now).flatMap stoning

end

end Feeds

abbrev FeedM := Call FeedError (Faulty Feeds)

def ofExcept {α : Type} : Except FeedError α → FeedM α
  | .ok a => pure a
  | .error e => Call.fail e

def append (C : Crypto) (account : PubKey) (p : Post) (now : UInt64) : FeedM (Nat × Bytes32) := do
  let d ← Call.get
  ofExcept (d.store.accept C account p)
  Faulty.execAll .storage (d.store.appending C p now)
  pure (p.serial.toNat, p.link C)

/-- Drop what has passed its own timer, leaving tombstones. No failure stops it. -/
def expire (now : UInt64) : FeedM Unit := do
  let d ← Call.get
  Faulty.tryAll .storage (d.store.expiring now)

/-- Drop a post's body, keeping its hash and signature. -/
def withdraw (account : PubKey) (serial : Nat) (now : UInt64) : FeedM Unit := do
  expire now
  let d ← Call.get
  match d.store.post.find? (PostRow.isKey account serial) with
  | none => Call.fail .noSuchPost
  | some r =>
    if r.post.withdrawn then Call.fail .noSuchPost
    else Faulty.execAll .storage (Feeds.stoning r)

namespace Feeds

def after {α : Type} (m : FeedM α) (s : Feeds) : Feeds := (m.after (.clean s)).store

def set (s : Feeds) (account : PubKey) (retentionSecs maxPosts : Nat) (listed : Bool)
    (now : UInt64) : Except FeedError Feeds :=
  if retentionSecs < minRetention ∨ maxRetention < retentionSecs then .error .badRetention
  else if maxPosts = 0 ∨ Feed.maxPosts < maxPosts then .error .badRetention
  else
    let h := s.headOf account
    let listedAt := if h.listed && listed then h.listedAt else now.toInt64
    .ok { s with
      feed := s.feed.insert account { h with retentionSecs, maxPosts, listed, listedAt } }

def isStale (now : UInt64) (f : PubKey × HeadRow) (r : PostRow) : Bool :=
  let cutoff := (now - min now (UInt64.ofNat f.2.retentionSecs)).toInt64
  r.account == f.1 && decide (r.received < cutoff)

/-- Evict what is past one feed's retention, and count what is left. -/
def sweepFeed (now : UInt64) (s : Feeds) (f : PubKey × HeadRow) : Feeds :=
  if ! s.post.any (isStale now f) then s
  else
    let post := s.post.filter fun r => ! isStale now f r
    let left := post.filter (·.account == f.1)
    let oldest := ((left.map (·.serial)).min?).getD 0
    let bytes := (left.map (·.post.stored)).sum
    updateHead f.1 (fun h => { h with oldest, posts := left.length, bytes }) { s with post }

/-- Evict what is past its feed's retention, after what has expired went. -/
def sweep (s : Feeds) (now : UInt64) : Feeds :=
  let s := after (expire now) s
  s.feed.toList.foldl (sweepFeed now) s

/-- An operation on the feeds. Every read drops what has expired first, and no more. -/
inductive Act where
  | append (account : PubKey) (post : Post)
  | withdraw (account : PubKey) (serial : Nat)
  | set (account : PubKey) (retentionSecs maxPosts : Nat) (listed : Bool)
  | read
  | sweep

def perform (C : Crypto) (s : Feeds) (now : UInt64) : Act → Feeds
  | .append account p => after (Feed.append C account p now) s
  | .withdraw account serial => after (Feed.withdraw account serial now) s
  | .set account retentionSecs maxPosts listed =>
    match s.set account retentionSecs maxPosts listed now with
    | .ok s' => s'
    | .error _ => s
  | .read => after (expire now) s
  | .sweep => s.sweep now

end Feeds
end Sqex.Feed
