import Mathlib.Data.UInt
import Sqex.Exchange.OriginSteps
import Sqex.Lib.Tables

/-! Files: the chunks an exchange holds, the tables that name them, and who may fetch one.
A file is attached to channels, to feeds, to an account's backup, or to what is left of a
folded direct message. -/
namespace Sqex.Exchange
open Std Tables

def maxBlobChannels : Nat := 64
def foldedSecs : UInt64 := 7 * 24 * 60 * 60

/-- Held by a channel, or, where the account's key stands in its place, by a backup. -/
structure Attachment where
  channel : Bytes32
  blob : Bytes32
  attached : UInt64
  expiresAfter : UInt32
  uploader : PubKey

structure FeedAttachment where
  account : PubKey
  blob : Bytes32
  attached : UInt64
  expiresAfter : UInt32
  uploader : PubKey

structure FoldedAttachment where
  channel : Bytes32
  blob : Bytes32
  foldedAt : UInt64

/-- A direct message folded into another exchange's, and its two members. -/
structure Fold where
  channel : Bytes32
  incarnation : Bytes32
  into : PubKey
  domain : String
  first : PubKey
  second : PubKey
  foldedAt : UInt64

structure BlobRow where
  id : Bytes32
  size : UInt64
  chunks : Nat

structure BlobChunk where
  blob : Bytes32
  idx : Nat
  bytes : Bytes

structure Upload where
  id : UInt64
  channel : Bytes32
  uploader : PubKey
  size : UInt64
  chunks : UInt32
  expiresAfter : UInt32
  started : UInt64
  isFeed : Bool

structure UploadChunk where
  upload : UInt64
  idx : UInt32
  bytes : Bytes

structure Backup where
  account : PubKey
  generation : UInt64
  device : PubKey
  written : UInt64
  blobs : List Bytes32
  body : Bytes
  sig : Bytes64

structure Files where
  channels : ExtTreeMap Bytes32 Rows
  retired : List (Bytes32 × Bytes32)
  folded : List Fold
  attachment : List Attachment
  feedAttachment : List FeedAttachment
  foldedAttachment : List FoldedAttachment
  blob : List BlobRow
  blobChunk : List BlobChunk
  upload : List Upload
  uploadChunk : List UploadChunk
  backup : List Backup
  succeeded : List (PubKey × PubKey)

namespace Files

def empty : Files where
  channels := ∅
  retired := []
  folded := []
  attachment := []
  feedAttachment := []
  foldedAttachment := []
  blob := []
  blobChunk := []
  upload := []
  uploadChunk := []
  backup := []
  succeeded := []

def rows (f : Files) (channel : Bytes32) : Rows := f.channels[channel]?.getD .empty

def putRows (f : Files) (channel : Bytes32) (r : Rows) : Files :=
  { f with channels := f.channels.insert channel r }

@[simp] theorem rows_putRows (f : Files) (channel other : Bytes32) (r : Rows) :
    (f.putRows channel r).rows other = if channel = other then r else f.rows other := by
  simp only [rows, putRows, lookup_insert]
  split <;> rfl

def visibilityOf (f : Files) (channel : Bytes32) : Option Visibility :=
  (f.rows channel).channel.map (·.visibility)

def roleOf (f : Files) (channel : Bytes32) (who : PubKey) : Option Role :=
  (f.rows channel).roleOf who

def succeededBy (f : Files) (account : PubKey) : Option PubKey :=
  (f.succeeded.find? (·.1 == account)).map Prod.snd

end Files

/-- Whether a time and the window from it are still ahead, in signed columns. -/
def stillFolded (foldedAt now : UInt64) : Bool :=
  decide (foldedAt.toInt64.toInt + foldedSecs.toInt64.toInt > now.toInt64.toInt)

namespace Files

section
variable (f : Files) (channel blob : Bytes32) (who : PubKey) (now : UInt64)

def foldedRow : Option Fold :=
  f.folded.find? fun fold => fold.channel == channel && stillFolded fold.foldedAt now

def foldedPairs : List (PubKey × PubKey) :=
  (f.foldedAttachment.filter (·.blob == blob)).flatMap fun a =>
    (f.folded.filter fun fold => fold.channel == a.channel && stillFolded fold.foldedAt now).map
      fun fold => (fold.first, fold.second)

/-- The channels a blob is attached to, an account's key among them where its backup holds it. -/
def holders : List Bytes32 :=
  (f.attachment.filter (·.blob == blob)).map (·.channel)

def heldBy (holder : Bytes32) : Bool :=
  holder == who || f.succeededBy holder == some who

def attachedToAFeed : Bool := f.feedAttachment.any (·.blob == blob)

/-- A member of a channel that holds the blob, its account or successor, or of a folded pair. -/
def isMember (blob : Bytes32) (now : UInt64) : Bool :=
  (f.holders blob).any (fun c => f.heldBy who c || (f.roleOf c who).isSome) ||
    (f.foldedPairs blob now).any fun pair => pair.1 == who || pair.2 == who

/-- Whether the caller may fetch a blob. A public channel or a feed serves everybody, unless
a private channel or a standing fold holds the blob too. -/
def mayFetch (blob : Bytes32) (now : UInt64) : Bool :=
  let others := (f.holders blob).filter fun c => !f.heldBy who c
  let shut := others.any (fun c => f.visibilityOf c == some .priv) ||
    !(f.foldedPairs blob now).isEmpty
  let shown := others.any (fun c => f.visibilityOf c == some .pub) || f.attachedToAFeed blob
  f.isMember who blob now || shown && !shut

def attachedPrivately : Bool :=
  (f.holders blob).any fun c => f.visibilityOf c != some .pub

/-- Hold a blob against a channel: anew, or where it is held already from now on. -/
def attach (expiresAfter : UInt32) (now : UInt64) : Except ChannelError Files := do
  let here := f.attachment.countP fun a => a.blob == blob && a.channel == channel
  let elsewhere := f.attachment.countP fun a => a.blob == blob && a.channel != channel
  refuseIf (here = 0 ∧ elsewhere ≥ maxBlobChannels) .blobChannels
  pure { f with
    attachment := upsert (fun a => a.channel == channel && a.blob == blob)
      (fun a => { a with attached := now, expiresAfter })
      ⟨channel, blob, now, expiresAfter, who⟩ f.attachment }

def attachToFeed (account blob : Bytes32) (who : PubKey) (expiresAfter : UInt32) (now : UInt64) :
    Files :=
  { f with
    feedAttachment := upsert (fun a => a.account == account && a.blob == blob)
      (fun a => { a with attached := now, expiresAfter })
      ⟨account, blob, now, expiresAfter, who⟩ f.feedAttachment }

/-- Whether a row of any of the three tables names the blob. -/
def named : Bool :=
  f.attachment.any (·.blob == blob) || f.foldedAttachment.any (·.blob == blob) ||
    f.feedAttachment.any (·.blob == blob)

def dropBlobs (gone : Bytes32 → Bool) : Files :=
  { f with
    blob := f.blob.filter fun b => !gone b.id
    blobChunk := f.blobChunk.filter fun c => !gone c.blob }

def collectBlob : Files :=
  if f.named blob then f else f.dropBlobs (· == blob)

def release (which : Attachment → Bool) : Files :=
  let held := (f.attachment.filter which).map (·.blob)
  held.foldl collectBlob { f with attachment := f.attachment.filter fun a => !which a }

def destroyFiles : Files := f.release (·.channel == channel)

/-- Whether an attachment has outlived its channel's window or its own timer, in signed
columns. -/
def outlived (c : ChannelRow) (now : UInt64) (a : Attachment) : Bool :=
  let window := if 0 < a.expiresAfter ∧ a.expiresAfter < c.retentionSecs then a.expiresAfter
    else c.retentionSecs
  decide (now.toInt64.toInt - a.attached.toInt64.toInt ≥ window.toNat)

def pruneAttachments : Files :=
  match (f.rows channel).channel with
  | none => f
  | some c => f.release fun a => a.channel == channel && outlived c now a

def storeChunk (t : List BlobChunk) (c : Bytes × Nat) : List BlobChunk :=
  insertOrIgnore (fun row => row.blob == blob && row.idx == c.2) ⟨blob, c.2, c.1⟩ t

def storeChunks (size : UInt64) (chunks : List Bytes) : Files :=
  { f with
    blob := insertOrIgnore (·.id == blob) ⟨blob, size, chunks.length⟩ f.blob
    blobChunk := chunks.zipIdx.foldl (storeChunk blob) f.blobChunk }

def channelBlobBytes : UInt64 :=
  ((f.attachment.filter (·.channel == channel)).flatMap fun a =>
    (f.blob.filter (·.id == a.blob)).map (·.size)).sum

def feedBlobBytes (account : PubKey) : UInt64 :=
  ((f.feedAttachment.filter (·.account == account)).flatMap fun a =>
    (f.blob.filter (·.id == a.blob)).map (·.size)).sum

end

end Files
end Sqex.Exchange
