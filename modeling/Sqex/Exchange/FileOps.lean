import Sqex.Exchange.Files

/-! The operations that write files or what names them: uploads, attachments, feeds, backups,
folds, the requests that end a channel, and the sweep. -/
namespace Sqex.Exchange
open Std Tables

def blobContext : Bytes := "sqex-blob-v1".toUTF8.toList
def maxChannelBlobBytes : UInt64 := 2 * 1024 * 1024 * 1024
def maxFeedBlobBytes : UInt64 := 256 * 1024 * 1024
def maxUploads : Nat := 8
def uploadTtl : UInt64 := 60 * 60

def blobId (C : Crypto) (chunks : List Bytes) : Bytes32 := C.sha256 (blobContext ++ chunks.flatten)

/-- What an upload asks for: a channel, or an account, and how much. -/
structure Begin where
  channel : Bytes32
  size : UInt64
  chunks : UInt32
  expiresAfter : UInt32

structure Manifest where
  generation : UInt64
  blobs : List Bytes32
  body : Bytes
  sig : Bytes64

/-- A public channel, empty of people and entries for as long as that lasts. -/
def Rows.abandoned (r : Rows) (now : UInt64) : Bool :=
  r.channel.any fun c => r.counts.1 == 0 && r.window == (0, 0) && c.visibility == .pub &&
    c.emptySince.any fun since => decide (now - min since now ≥ abandonSecs)

/-- Whether a request that goes through destroys the channel, be it to make it again. -/
def Rows.destroys (C : Crypto) (h : Host) (channel : Bytes32) (w : Around) (r : Rows) :
    Request → Bool
  | .close _ => true
  | .leave _ _ _ => r.channel.any (·.visibility == .priv) && r.counts.1 == 1
  | .create caller device req => r.channel.isSome && r.founds C channel (.create caller device req)
  | .sweep => (r.prune h w.now).abandoned w.now
  | _ => false

namespace Files

/-- What a request reads of the tables beside its channel's own. -/
def around (f : Files) (channel : Bytes32) (w : Around) : Around :=
  { w with
    folded := (f.foldedRow channel w.now).map fun fold => (fold.into, fold.first, fold.second)
    retired := fun incarnation => f.retired.contains (channel, incarnation) }

/-- The incarnations used once a request went through. -/
def retires (C : Crypto) (f : Files) (channel : Bytes32) : Request → List (Bytes32 × Bytes32)
  | .create caller device req =>
    if (f.rows channel).founds C channel (.create caller device req) then
      (channel, req.incarnation) :: f.retired
    else f.retired
  | _ => f.retired

def request (C : Crypto) (h : Host) (f : Files) (channel : Bytes32) (w : Around) (req : Request) :
    Except ChannelError Files := do
  let r := f.rows channel
  let (r', _) ← r.perform C h channel (f.around channel w) req
  let done := { f.putRows channel r' with retired := f.retires C channel req }
  pure (if r.destroys C h channel w req then done.destroyFiles channel else done)

def succeedIn (C : Crypto) (h : Host) (account successor : PubKey) (issued : UInt64)
    (sig : Bytes64) (now : UInt64) (f : Files) (channel : Bytes32) : Except ChannelError Files := do
  let (r, _) ← (f.rows channel).succeedAccount C h channel account successor issued sig now
  pure (f.putRows channel r)

section
variable (C : Crypto) (h : Host) (f : Files) (who uploader : PubKey) (id : UInt64)
  (channel : Bytes32) (account : PubKey) (blob : Bytes32) (now : UInt64)

def succeed (successor : PubKey) (issued : UInt64) (sig : Bytes64) (now : UInt64) :
    Except ChannelError Files :=
  let said := { f with
    succeeded := (account, successor) :: f.succeeded.filter (·.1 != account) }
  f.channels.keys.foldlM (succeedIn C h account successor issued sig now) said

/-- Adopt a channel as a copy. A copy of another incarnation is dropped first. -/
def adopt (f : Files) (channel incarnation : Bytes32) (origin : PubKey) (windowSecs : UInt32)
    (now : UInt64) : Except ChannelError Files := do
  let r := f.rows channel
  let r' ← r.adopt incarnation origin windowSecs now
  let done := f.putRows channel r'
  pure (if r.channel.any (·.incarnation != incarnation) then done.destroyFiles channel else done)

def forgetCopy : Except ChannelError Files := do
  refuseIf ((f.rows channel).replicated = none) .noSuchChannel
  pure ((f.putRows channel { (f.rows channel).destroy with replicated := none }).destroyFiles
    channel)

def recordFold (record : Fold) : Files :=
  let kept := (f.attachment.filter (·.channel == record.channel)).map fun a =>
    FoldedAttachment.mk record.channel a.blob record.foldedAt
  let others := f.foldedAttachment.filter (·.channel != record.channel)
  let used := (record.channel, record.incarnation)
  { f with
    folded := upsert (fun x : Fold => x.channel == record.channel) (fun _ => record) record
      f.folded
    retired := insertOrIgnore (· == used) used f.retired
    foldedAttachment := kept ++ others }

def fold (into : PubKey) (domain : String) (incarnation : Bytes32) (now : UInt64) :
    Except ChannelError Files := do
  let r := f.rows channel
  refuseIf (r.originRow.isSome = true) .notAMember
  let c ← r.channelRow
  refuseIf (c.incarnation = incarnation) .notAMember
  refuseIf (r.isDirectMessage C channel = false) .notAMember
  match (r.member.toList.filter (·.2.present)).map Prod.fst with
  | [first, second] =>
    let folded := f.recordFold ⟨channel, c.incarnation, into, domain, first, second, now⟩
    pure ((folded.putRows channel r.destroy).destroyFiles channel)
  | _ => .error .notAMember

def dropUpload : Files :=
  { f with
    upload := f.upload.filter (·.id != id)
    uploadChunk := f.uploadChunk.filter (·.upload != id) }

def expireUploads : Files :=
  let stale := f.upload.filter fun u =>
    decide (now.toInt64.toInt - u.started.toInt64.toInt ≥ uploadTtl.toInt64.toInt)
  stale.foldl (fun f u => f.dropUpload u.id) f

def reserve (req : Begin) (isFeed : Bool) (now : UInt64) : Files × UInt64 :=
  let id := (f.upload.map (·.id)).foldl max 0 + 1
  ({ f with
      upload := ⟨id, req.channel, uploader, req.size, req.chunks, req.expiresAfter, now,
        isFeed⟩ :: f.upload }, id)

def openUploads : Nat :=
  f.upload.countP (·.uploader == uploader)

/-- Reserve an upload against a channel's quota, or against the caller's own backup. -/
def beginUpload (quota : UInt64) (uploader : PubKey) (req : Begin) (now : UInt64) :
    Except ChannelError (Files × UInt64) := do
  let own := req.channel == uploader
  if own then
    refuseIf (f.channelBlobBytes req.channel + req.size > quota) .blobQuota
  else
    let r := f.rows req.channel
    let _ ← r.channelRow
    refuseIf ((r.roleOf uploader).isNone = true) r.unreadable
    refuseIf (r.isMuted uploader = true) .muted
  let f := f.expireUploads now
  refuseIf (f.openUploads uploader ≥ maxUploads) .tooManyUploads
  refuseIf (own = false ∧ f.channelBlobBytes req.channel + req.size > maxChannelBlobBytes)
    .blobQuota
  pure (f.reserve uploader req false now)

def beginFeedUpload (req : Begin) (now : UInt64) : Except ChannelError (Files × UInt64) := do
  refuseIf (uploader ≠ req.channel) .notAMember
  let f := f.expireUploads now
  refuseIf (f.openUploads uploader ≥ maxUploads) .tooManyUploads
  refuseIf (f.feedBlobBytes req.channel + req.size > maxFeedBlobBytes) .blobQuota
  pure (f.reserve uploader req true now)

def uploadOf : Except ChannelError Upload :=
  match f.upload.find? (·.id == id) with
  | none => .error .noSuchUpload
  | some u => if u.uploader = uploader then .ok u else .error .notAMember

def putChunk (idx : UInt32) (bytes : Bytes) : Except ChannelError Files := do
  let u ← f.uploadOf uploader id
  refuseIf (idx ≥ u.chunks) .badChunk
  pure { f with
    uploadChunk := upsert (fun c : UploadChunk => c.upload == id && c.idx == idx)
      (fun c => { c with bytes }) ⟨id, idx, bytes⟩ f.uploadChunk }

def gathered (u : Upload) : Option (List Bytes) :=
  (List.range u.chunks.toNat).mapM fun i =>
    (f.uploadChunk.find? fun c => c.upload == u.id && c.idx.toNat == i).map (·.bytes)

def commitUpload (claimed : Bytes32) (now : UInt64) : Except ChannelError (Files × Bool) := do
  let u ← f.uploadOf uploader id
  match f.gathered u with
  | none => pure (f, false)
  | some chunks =>
    if blobId C chunks ≠ claimed then pure (f, false)
    else
      let stored := f.storeChunks claimed u.size chunks
      let f ← if u.isFeed then
          pure (stored.attachToFeed u.channel claimed uploader u.expiresAfter now)
        else stored.attach u.channel claimed uploader u.expiresAfter now
      pure (f.dropUpload id, true)

def abortUpload : Except ChannelError Files := do
  let _ ← f.uploadOf uploader id
  pure (f.dropUpload id)

def attachBlob (expiresAfter : UInt32) (now : UInt64) : Except ChannelError Files := do
  let r := f.rows channel
  let c ← r.channelRow
  refuseIf ((r.roleOf who).isNone = true) .notAMember
  refuseIf (f.mayFetch who blob now = false) .noSuchBlob
  refuseIf (c.visibility = .pub ∧ f.attachedPrivately blob = true) .wouldPublish
  f.attach channel blob who expiresAfter now

def detachBlob : Except ChannelError Files := do
  let r := f.rows channel
  let _ ← r.channelRow
  match f.attachment.find? fun a => a.channel == channel && a.blob == blob with
  | none => .error .noSuchBlob
  | some a =>
    refuseIf (a.uploader ≠ who ∧ r.isAdmin who = false) .notAnAdmin
    pure (f.release fun a => a.channel == channel && a.blob == blob)

/-- Hold a blob that is stored already against the caller's own feed. -/
def attachFeedBlob (expiresAfter : UInt32) (now : UInt64) : Except ChannelError Files := do
  refuseIf (who ≠ account) .notAMember
  refuseIf (f.mayFetch who blob now = false) .noSuchBlob
  refuseIf (f.attachedPrivately blob = true) .wouldPublish
  refuseIf (f.feedBlobBytes account > maxFeedBlobBytes) .blobQuota
  pure (f.attachToFeed account blob who expiresAfter now)

def detachFeedBlob : Except ChannelError Files := do
  refuseIf (who ≠ account) .notAMember
  pure (collectBlob { f with
    feedAttachment := f.feedAttachment.filter fun a => !(a.account == account && a.blob == blob) }
    blob)

def storeBlob (size : UInt64) (chunks : List Bytes) (now : UInt64) : Files :=
  let stored := f.storeChunks blob size chunks
  { stored with
    attachment := insertOrIgnore (fun a => a.channel == channel && a.blob == blob)
      ⟨channel, blob, now, 0, 0⟩ stored.attachment }

def backupOf : Option Backup :=
  f.backup.find? (·.account == account)

def putBackup (b : Backup) : Files :=
  { f with backup := upsert (fun x : Backup => x.account == b.account) (fun _ => b) b f.backup }

def heldFor : List Bytes32 :=
  (f.attachment.filter (·.channel == account)).map (·.blob)

def holdNamed (account device : PubKey) (held : List Bytes32) (now : UInt64) :
    Files → List Bytes32 → Except ChannelError Files
  | f, [] => .ok f
  | f, blob :: rest =>
    if held.contains blob then holdNamed account device held now f rest
    else do
      refuseIf (f.mayFetch account blob now = false) .notHeld
      let f ← f.attach account blob device 0 now
      holdNamed account device held now f rest

def writeBackup (device : PubKey) (m : Manifest) (now : UInt64) : Except ChannelError Files := do
  match f.backupOf account with
  | some b => refuseIf (m.generation ≤ b.generation) (.staleGeneration b.generation)
  | none => pure ()
  let held := f.heldFor account
  let f ← holdNamed account device held now f m.blobs
  let f := f.release fun a => a.channel == account && held.contains a.blob &&
    !m.blobs.contains a.blob
  pure (f.putBackup ⟨account, m.generation, device, now, m.blobs, m.body, m.sig⟩)

def dropBackup : Files :=
  let f := f.release (·.channel == account)
  { f with backup := f.backup.filter (·.account != account) }

/-- Store a blob collected for an account's backup, as held by nobody's device. -/
def storeBackupBlob (quota : UInt64) (account : PubKey) (blob : Bytes32) (size : UInt64)
    (chunks : List Bytes) (now : UInt64) : Except ChannelError Files := do
  refuseIf (f.channelBlobBytes account + size > quota) .blobQuota
  (f.storeChunks blob size chunks).attach account blob 0 0 now

/-- Take over the manifest a former home served, where the account has none here. -/
def importBackup (b : Backup) : Except ChannelError (Files × Bool) :=
  if (f.backupOf b.account).isSome then .ok (f, false)
  else do
    refuseIf (b.blobs.any (fun blob => !(f.heldFor b.account).contains blob) = true) .notHeld
    pure ({ f with backup := b :: f.backup }, true)

def releaseCollectedOrphans : Files :=
  let keep := ((f.backupOf account).map (·.blobs)).getD []
  f.release fun a => a.channel == account && a.uploader == 0 && !keep.contains a.blob

def releaseBackupIf (generation : UInt64) : Files × Bool :=
  if generation = 0 ∨ ((f.backupOf account).map (·.generation)).getD 0 ≠ generation then (f, false)
  else (f.dropBackup account, true)

/-- Fold records past their window go, and their attachments with them. -/
def expireFolds : Files :=
  let expired := (f.foldedAttachment.filter fun a => !stillFolded a.foldedAt now).map (·.blob)
  let f := expired.foldl collectBlob
    { f with foldedAttachment := f.foldedAttachment.filter fun a => stillFolded a.foldedAt now }
  { f with folded := f.folded.filter fun fold => stillFolded fold.foldedAt now }

def sweepChannel (f : Files) (channel : Bytes32) : Files :=
  let r := f.rows channel
  let swept := (f.pruneAttachments channel now).putRows channel (r.sweep h now)
  if (r.prune h now).abandoned now then swept.destroyFiles channel else swept

def channelIds : List Bytes32 :=
  (f.channels.toList.filter fun p => p.2.channel.isSome).map Prod.fst

/-- Nothing points at the blob any more, as the sweep ends by counting: an attachment or a
feed's. -/
def leaked : Bool :=
  !f.attachment.any (·.blob == blob) && !f.feedAttachment.any (·.blob == blob)

def dropLeaked : Files := f.dropBlobs f.leaked

def sweep : Files :=
  let ids := f.channelIds
  (ids.foldl (sweepChannel h now) ((f.expireUploads now).expireFolds now)).dropLeaked

end

end Files
end Sqex.Exchange
