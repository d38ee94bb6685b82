import Mathlib.Algebra.Order.BigOperators.Group.List
import Sqex.Exchange.BlobLives

/-! What is stored against a quota: the sealed chunks of the files a channel, a feed or an
account's backup holds, beside the sizes declared for them and for the uploads open. -/
namespace Sqex.Exchange
open Std Tables Runs

/-- What files are held against: a channel, or an account's backup under the account's key; or a
feed. -/
inductive Holder where
  | channel (channel : Bytes32)
  | feed (account : PubKey)
  deriving DecidableEq

inductive Storing where
  | beginUpload (uploader : PubKey) (req : Begin) (now : UInt64)
  | beginFeedUpload (uploader : PubKey) (req : Begin) (now : UInt64)
  | putChunk (uploader : PubKey) (id : UInt64) (idx : UInt32) (bytes : Bytes)
  | commitUpload (uploader : PubKey) (id : UInt64) (claimed : Bytes32) (now : UInt64)
  | attachBlob (who : PubKey) (channel blob : Bytes32) (expiresAfter : UInt32) (now : UInt64)
  | attachFeedBlob (who account : PubKey) (blob : Bytes32) (expiresAfter : UInt32) (now : UInt64)
  | writeBackup (account device : PubKey) (m : Manifest) (now : UInt64)
  | storeBackupBlob (account : PubKey) (blob : Bytes32) (size : UInt64) (chunks : List Bytes)
      (now : UInt64)

def Storing.filing (quota : UInt64) : Storing → Filing
  | .beginUpload uploader req now => .beginUpload quota uploader req now
  | .beginFeedUpload uploader req now => .beginFeedUpload uploader req now
  | .putChunk uploader id idx bytes => .putChunk uploader id idx bytes
  | .commitUpload uploader id claimed now => .commitUpload uploader id claimed now
  | .attachBlob who channel blob expiresAfter now => .attachBlob who channel blob expiresAfter now
  | .attachFeedBlob who account blob expiresAfter now =>
    .attachFeedBlob who account blob expiresAfter now
  | .writeBackup account device m now => .writeBackup account device m now
  | .storeBackupBlob account blob size chunks now =>
    .storeBackupBlob quota account blob size chunks now

def Files.store (C : Crypto) (h : Host) (quota : UInt64) (f : Files) (op : Storing) : Files :=
  f.step C h (op.filing quota)

def Room (limit : Nat) (chunks : List Bytes) : Prop :=
  (chunks.map List.length).sum ≤ limit + 16 * chunks.length

instance (limit : Nat) (chunks : List Bytes) : Decidable (Room limit chunks) :=
  inferInstanceAs (Decidable (_ ≤ _))

def sealedChunks (t : List BlobChunk) (blob : Bytes32) : List Bytes :=
  (t.filter (·.blob == blob)).map (·.bytes)

def Upload.into (u : Upload) : Holder := if u.isFeed then .feed u.channel else .channel u.channel

variable {expiresAfter : UInt32} {size id : UInt64} {req : Begin} {x : Holder}

namespace Files

section
variable (quota : UInt64) (f : Files) (blob : Bytes32) (x : Holder) (size : UInt64)

def blobsHeld : Holder → List Bytes32
  | .channel channel => f.heldFor channel
  | .feed account => (f.feedAttachment.filter (·.account == account)).map (·.blob)

def chunksHeld : List Bytes :=
  (f.blobsHeld x).flatMap (sealedChunks f.blobChunk)

/-- What a holder may come to: what is held under a key that is no channel here is a backup. -/
def limit (quota : UInt64) : Holder → UInt64
  | .channel channel =>
    if (f.rows channel).channel.isSome then maxChannelBlobBytes else quota
  | .feed _ => maxFeedBlobBytes

def Within : Prop :=
  ∀ x, Room (f.limit quota x).toNat (f.chunksHeld x)

def stores : Bool := f.blob.any (·.id == blob)

def declared : Nat :=
  ((f.blob.filter (·.id == blob)).map (·.size.toNat)).sum

/-- What a blob counts for once it is stored: a size declared for it later is not kept. -/
def declaring : Nat :=
  if f.stores blob then f.declared blob else size.toNat

def declaredTo : Nat := ((f.blobsHeld x).map f.declared).sum

/-- The sizes declared by the uploads open for a holder. -/
def openFor : Nat :=
  ((f.upload.filter (·.into = x)).map (·.size.toNat)).sum

/-- The table of chunks with a blob's stored, where they are not held yet. -/
def chunksWith (chunks : List Bytes) : List BlobChunk :=
  chunks.zipIdx.foldl (storeChunk blob) f.blobChunk

/-! When an operation keeps to what was declared. -/

/-- What fits beside what is held fits beside what is open for the holder as well. -/
def Beside : Prop :=
  f.declaredTo x + size.toNat < 2 ^ 64 ∧
    (f.declaredTo x + size.toNat ≤ (f.limit quota x).toNat →
      f.declaredTo x + f.openFor x + size.toNat ≤ (f.limit quota x).toNat)

/-- The chunks a blob has, and brings, come to no more than was declared for it. -/
def Honest (chunks : List Bytes) : Prop :=
  Room (f.declaring blob size) (sealedChunks (f.chunksWith blob chunks) blob)

/-- A holder has a blob, or has room for it. -/
def Fits (blob : Bytes32) : Prop :=
  blob ∈ f.blobsHeld x ∨
    f.declaredTo x + f.openFor x + f.declared blob ≤ (f.limit quota x).toNat

/-- The blobs an account has of a manifest's once it is written. -/
def naming (account : PubKey) (m : Manifest) : List Bytes32 :=
  (m.blobs.foldl (fun held blob => held.insert blob) (f.heldFor account)).filter
    (m.blobs.contains ·)

end

def Declares (C : Crypto) (quota : UInt64) (f : Files) : Storing → Prop
  | .beginUpload uploader req now =>
    (req.channel = uploader → (f.rows uploader).channel = none) ∧
      (f.expireUploads now).Beside quota (.channel req.channel) req.size
  | .beginFeedUpload _ req now => (f.expireUploads now).Beside quota (.feed req.channel) req.size
  | .putChunk .. => True
  | .commitUpload uploader id claimed _ =>
    ∀ u ∈ (f.uploadOf uploader id).toOption, ∀ chunks ∈ f.gathered u, blobId C chunks = claimed →
      f.Honest claimed u.size chunks ∧
        (claimed ∈ f.blobsHeld u.into ∨ f.declaring claimed u.size ≤ u.size.toNat)
  | .attachBlob _ channel blob _ _ => f.Fits quota (.channel channel) blob
  | .attachFeedBlob _ account blob _ _ => f.Fits quota (.feed account) blob
  | .writeBackup account _ m _ => (∀ blob ∈ m.blobs, blob ∈ f.heldFor account) ∨
    ((f.naming account m).map f.declared).sum + f.openFor (.channel account) ≤
      (f.limit quota (.channel account)).toNat
  | .storeBackupBlob account blob size chunks _ =>
    (f.rows account).channel = none ∧ f.Beside quota (.channel account) size ∧
      f.Honest blob size chunks ∧ (blob ∈ f.heldFor account ∨ f.declaring blob size ≤ size.toNat)

/-- What is not refused keeps to what was declared. -/
def Tidy (C : Crypto) (h : Host) (quota : UInt64) (f : Files) (op : Storing) : Prop :=
  (f.perform C h (op.filing quota)).isOk = true → f.Declares C quota op

section
variable (C : Crypto) (h : Host) (quota : UInt64) (f : Files)

instance (x : Holder) (size : UInt64) : Decidable (f.Beside quota x size) :=
  inferInstanceAs (Decidable (_ ∧ _))

instance (x : Holder) (blob : Bytes32) : Decidable (f.Fits quota x blob) :=
  inferInstanceAs (Decidable (_ ∨ _))

instance (blob : Bytes32) (size : UInt64) (chunks : List Bytes) :
    Decidable (f.Honest blob size chunks) := inferInstanceAs (Decidable (Room _ _))

instance : (op : Storing) → Decidable (f.Declares C quota op)
  | .beginUpload .. => inferInstanceAs (Decidable ((_ → _) ∧ Beside _ _ _ _))
  | .beginFeedUpload .. => inferInstanceAs (Decidable (Beside _ _ _ _))
  | .putChunk .. => isTrue trivial
  | .commitUpload uploader id _ _ => inferInstanceAs
    (Decidable (∀ u ∈ (f.uploadOf uploader id).toOption, ∀ chunks ∈ f.gathered u,
      _ → Honest _ _ _ _ ∧ _))
  | .attachBlob .. => inferInstanceAs (Decidable (Fits _ _ _ _))
  | .attachFeedBlob .. => inferInstanceAs (Decidable (Fits _ _ _ _))
  | .writeBackup account _ m _ =>
    have := List.decidableBAll (· ∈ f.heldFor account) m.blobs
    inferInstanceAs (Decidable (_ ∨ _))
  | .storeBackupBlob .. => inferInstanceAs
    (Decidable (_ ∧ Beside _ _ _ _ ∧ Honest _ _ _ _ ∧ _))

instance (op : Storing) : Decidable (f.Tidy C h quota op) :=
  inferInstanceAs (Decidable (_ → Declares _ _ _ _))

end

/-- Every blob that something names is stored, and no larger than was declared. -/
structure Ledger (f : Files) : Prop where
  stored : ∀ blob, f.named blob = true → f.stores blob = true
  honest : ∀ blob, Room (f.declared blob) (sealedChunks f.blobChunk blob)

structure Booked (quota : UInt64) (f : Files) : Prop extends Ledger f where
  room : ∀ x, f.declaredTo x + f.openFor x ≤ (f.limit quota x).toNat

section
variable {C : Crypto} {h : Host} {quota : UInt64} {f f' : Files} {channel blob : Bytes32}
  {who account : PubKey} {now : UInt64}

def attached (f : Files) (channel blob : Bytes32) (who : PubKey) (expiresAfter : UInt32)
    (now : UInt64) : Files :=
  { f with
    attachment := upsert (fun a => a.channel == channel && a.blob == blob)
      (fun a => { a with attached := now, expiresAfter })
      ⟨channel, blob, now, expiresAfter, who⟩ f.attachment }

theorem blobsHeld_attached (x : Holder) :
    (f.attached channel blob who expiresAfter now).blobsHeld x =
      if x = .channel channel then (f.blobsHeld x).insert blob else f.blobsHeld x := by
  cases x with
  | feed account => rw [if_neg (by simp)]; rfl
  | channel other =>
    by_cases hother : other = channel
    · subst hother
      rw [if_pos rfl]
      exact map_filter_upsert (fun _ => rfl) (fun _ => rfl) (fun _ => rfl) (by simp)
    · rw [if_neg (by simpa using hother)]
      exact map_filter_upsert_of_not (fun _ => rfl) (fun _ => rfl) (by simpa using Ne.symm hother)

theorem blobsHeld_attachToFeed (x : Holder) :
    (f.attachToFeed account blob who expiresAfter now).blobsHeld x =
      if x = .feed account then (f.blobsHeld x).insert blob else f.blobsHeld x := by
  cases x with
  | channel other => rw [if_neg (by simp)]; rfl
  | feed other =>
    by_cases hother : other = account
    · subst hother
      rw [if_pos rfl]
      exact map_filter_upsert (fun _ => rfl) (fun _ => rfl) (fun _ => rfl) (by simp)
    · rw [if_neg (by simpa using hother)]
      exact map_filter_upsert_of_not (fun _ => rfl) (fun _ => rfl) (by simpa using Ne.symm hother)

theorem room_flatMap {held : List Bytes32} {declared : Bytes32 → Nat} {chunks : Bytes32 → List Bytes}
    (h : ∀ blob, Room (declared blob) (chunks blob)) :
    Room (held.map declared).sum (held.flatMap chunks) := by
  induction held with
  | nil => simp [Room]
  | cons blob held ih =>
    have hone := h blob
    simp only [Room, List.flatMap_cons, List.map_append, List.sum_append, List.length_append,
      List.map_cons, List.sum_cons] at ih hone ⊢
    omega

theorem Booked.within (h : f.Booked quota) : f.Within quota := by
  intro x
  have hroom := h.room x
  have hall : Room (f.declaredTo x) (f.chunksHeld x) := room_flatMap h.honest
  unfold Room at hall ⊢
  omega

theorem toNat_sum_flatMap {α : Type} (rows : List α) (sizes : α → List UInt64) :
    (rows.flatMap sizes).sum.toNat =
      (rows.map fun a => ((sizes a).map (·.toNat)).sum).sum % 2 ^ 64 := by
  have hsum : ∀ l : List UInt64, l.sum.toNat = (l.map (·.toNat)).sum % 2 ^ 64 := by
    intro l
    induction l with
    | nil => rfl
    | cons n l ih => simp [UInt64.toNat_add, ih]
  rw [hsum, List.map_flatMap, List.flatMap_def, List.sum_flatten, List.map_map]
  rfl

theorem channelBlobBytes_toNat (h : f.declaredTo (.channel channel) < 2 ^ 64) :
    (f.channelBlobBytes channel).toNat = f.declaredTo (.channel channel) := by
  have hsame : f.declaredTo (.channel channel) = ((f.attachment.filter (·.channel == channel)).map
      fun a => (((f.blob.filter (·.id == a.blob)).map (·.size)).map (·.toNat)).sum).sum := by
    simp only [declaredTo, blobsHeld, heldFor, List.map_map]
    rfl
  rw [channelBlobBytes, toNat_sum_flatMap, ← hsame, Nat.mod_eq_of_lt h]

theorem feedBlobBytes_toNat (h : f.declaredTo (.feed account) < 2 ^ 64) :
    (f.feedBlobBytes account).toNat = f.declaredTo (.feed account) := by
  have hsame : f.declaredTo (.feed account) = ((f.feedAttachment.filter (·.account == account)).map
      fun a => (((f.blob.filter (·.id == a.blob)).map (·.size)).map (·.toNat)).sum).sum := by
    simp only [declaredTo, blobsHeld, List.map_map]
    rfl
  rw [feedBlobBytes, toNat_sum_flatMap, ← hsame, Nat.mod_eq_of_lt h]

theorem not_full_iff {held limit : UInt64} (hwrap : held.toNat + size.toNat < 2 ^ 64) :
    ¬ held + size > limit ↔ held.toNat + size.toNat ≤ limit.toNat := by
  rw [gt_iff_lt, UInt64.not_lt, UInt64.le_iff_toNat_le, UInt64.toNat_add, Nat.mod_eq_of_lt hwrap]

theorem limit_congr (hchannels : f'.channels = f.channels) (x : Holder) :
    f'.limit quota x = f.limit quota x := by
  cases x with
  | channel channel =>
    have hrows : f'.rows channel = f.rows channel := by rw [rows, rows, hchannels]
    simp only [limit, hrows]
  | feed account => rfl

/-- All but the uploads is as it was. -/
structure Keeps (f f' : Files) : Prop where
  channels : f'.channels = f.channels
  attachment : f'.attachment = f.attachment
  feedAttachment : f'.feedAttachment = f.feedAttachment
  foldedAttachment : f'.foldedAttachment = f.foldedAttachment
  blob : f'.blob = f.blob
  blobChunk : f'.blobChunk = f.blobChunk

theorem Keeps.declaredTo (h : Keeps f f') (x : Holder) : f'.declaredTo x = f.declaredTo x := by
  have hone : f'.declared = f.declared := by
    funext blob
    simp only [declared, h.blob]
  cases x with
  | channel channel => simp only [Files.declaredTo, blobsHeld, heldFor, h.attachment, hone]
  | feed account => simp only [Files.declaredTo, blobsHeld, h.feedAttachment, hone]

theorem Ledger.keeps (hf : f.Ledger) (h : Keeps f f') : f'.Ledger where
  stored blob hnamed := by
    simp only [named, h.attachment, h.feedAttachment, h.foldedAttachment] at hnamed
    simpa only [stores, h.blob] using hf.stored blob hnamed
  honest blob := by
    simpa only [declared, h.blob, h.blobChunk] using hf.honest blob

theorem openFor_sublist (h : f'.upload.Sublist f.upload) (x : Holder) :
    f'.openFor x ≤ f.openFor x :=
  ((h.filter _).map _).sum_le_sum fun _ _ => Nat.zero_le _

theorem Booked.frees (hf : f.Booked quota) (h : Keeps f f') (hless : f'.upload.Sublist f.upload) :
    f'.Booked quota where
  toLedger := hf.keeps h
  room x := by
    rw [h.declaredTo, limit_congr h.channels]
    have hopen := openFor_sublist hless x
    have hroom := hf.room x
    omega

theorem expireUploads_frees (f : Files) (now : UInt64) :
    Keeps f (f.expireUploads now) ∧ (f.expireUploads now).upload.Sublist f.upload := by
  have hdrop : ∀ (stale : List Upload) (f : Files),
      Keeps f (stale.foldl (fun f u => f.dropUpload u.id) f) ∧
        (stale.foldl (fun f u => f.dropUpload u.id) f).upload.Sublist f.upload := by
    intro stale
    induction stale with
    | nil => exact fun f => ⟨⟨rfl, rfl, rfl, rfl, rfl, rfl⟩, .refl _⟩
    | cons u stale ih =>
      intro f
      obtain ⟨⟨hchannels, hattachment, hfeed, hfolded, hblob, hchunk⟩, hless⟩ :=
        ih (f.dropUpload u.id)
      exact ⟨⟨hchannels, hattachment, hfeed, hfolded, hblob, hchunk⟩,
        hless.trans List.filter_sublist⟩
  exact hdrop _ f

theorem Booked.reserve (hf : f.Booked quota) {isFeed : Bool}
    (hx : (if isFeed then .feed req.channel else .channel req.channel) = x)
    (hbeside : f.Beside quota x req.size)
    (hfits : f.declaredTo x + req.size.toNat ≤ (f.limit quota x).toNat) :
    (f.reserve who req isFeed now).1.Booked quota where
  toLedger := hf.keeps ⟨rfl, rfl, rfl, rfl, rfl, rfl⟩
  room y := by
    have hkeeps : Keeps f (f.reserve who req isFeed now).1 := ⟨rfl, rfl, rfl, rfl, rfl, rfl⟩
    rw [hkeeps.declaredTo, limit_congr hkeeps.channels]
    have hopen : (f.reserve who req isFeed now).1.openFor y =
        (if x = y then req.size.toNat else 0) + f.openFor y := by
      simp only [openFor, Files.reserve, List.filter_cons, Upload.into, hx]
      by_cases hy : x = y <;> simp [hy]
    rw [hopen]
    by_cases hy : x = y
    · have hroom := hbeside.2 hfits
      subst hy
      rw [if_pos rfl]
      omega
    · have hroom := hf.room y
      rw [if_neg hy]
      omega

/-- What the checks of a begun upload let through has room, once nothing else is open. -/
theorem beginUpload_booked (hf : f.Booked quota)
    (htidy : f.Declares C quota (.beginUpload who req now))
    (hok : f.beginUpload quota who req now = .ok (f', id)) : f'.Booked quota := by
  obtain ⟨hkeeps, hless⟩ := expireUploads_frees f now
  have hexpired : (f.expireUploads now).Booked quota := hf.frees hkeeps hless
  rw [beginUpload_ok hok]
  by_cases hown : req.channel = who
  · simp only [beginUpload, hown, beq_self_eq_true, if_true, bind_eq_ok, refuseIf_eq_ok,
      exists_const] at hok
    obtain ⟨hfull, -, -⟩ := hok
    obtain ⟨hnone, hbeside⟩ := htidy
    have hwrap := hbeside.1
    rw [hkeeps.declaredTo, hown] at hwrap
    have hheld : (f.channelBlobBytes who).toNat = f.declaredTo (.channel who) :=
      channelBlobBytes_toNat (by omega)
    rw [not_full_iff (by rwa [hheld]), hheld] at hfull
    refine hexpired.reserve rfl hbeside ?_
    rw [hkeeps.declaredTo, limit_congr hkeeps.channels, hown]
    simpa [limit, hnone hown] using hfull
  · have hnot : (req.channel == who) = false := by simpa using hown
    simp only [beginUpload, hnot, Bool.false_eq_true, if_false, bind_eq_ok, refuseIf_eq_ok,
      exists_const, true_and, Rows.channelRow_ok] at hok
    obtain ⟨c, hc, -, -, -, hfull, -⟩ := hok
    have hrows : (f.expireUploads now).rows req.channel = f.rows req.channel := by
      rw [rows, rows, hkeeps.channels]
    have hbeside := htidy.2
    have hheld : ((f.expireUploads now).channelBlobBytes req.channel).toNat =
        (f.expireUploads now).declaredTo (.channel req.channel) :=
      channelBlobBytes_toNat (by have := hbeside.1; omega)
    rw [not_full_iff (by rw [hheld]; exact hbeside.1), hheld] at hfull
    refine hexpired.reserve rfl hbeside ?_
    simpa [limit, hrows, hc] using hfull

theorem beginFeedUpload_booked (hf : f.Booked quota)
    (htidy : f.Declares C quota (.beginFeedUpload who req now))
    (hok : f.beginFeedUpload who req now = .ok (f', id)) : f'.Booked quota := by
  obtain ⟨hkeeps, hless⟩ := expireUploads_frees f now
  rw [beginFeedUpload_ok hok]
  simp only [beginFeedUpload, bind_eq_ok, refuseIf_eq_ok, exists_const, not_not] at hok
  obtain ⟨-, -, hfull, -⟩ := hok
  have hbeside : (f.expireUploads now).Beside quota (.feed req.channel) req.size := htidy
  have hheld : ((f.expireUploads now).feedBlobBytes req.channel).toNat =
      (f.expireUploads now).declaredTo (.feed req.channel) :=
    feedBlobBytes_toNat (by have := hbeside.1; omega)
  rw [not_full_iff (by rw [hheld]; exact hbeside.1), hheld] at hfull
  exact (hf.frees hkeeps hless).reserve rfl hbeside hfull

theorem named_of_mem (hmem : blob ∈ f.blobsHeld x) : f.named blob = true := by
  cases x with
  | channel channel =>
    simp only [blobsHeld, heldFor, List.mem_map, List.mem_filter] at hmem
    obtain ⟨a, ⟨ha, -⟩, rfl⟩ := hmem
    simp only [named, Bool.or_eq_true, List.any_eq_true]
    exact .inl (.inl ⟨a, ha, by simp⟩)
  | feed account =>
    simp only [blobsHeld, List.mem_map, List.mem_filter] at hmem
    obtain ⟨a, ⟨ha, -⟩, rfl⟩ := hmem
    simp only [named, Bool.or_eq_true, List.any_eq_true]
    exact .inr ⟨a, ha, by simp⟩

theorem declared_storeChunks {chunks : List Bytes} (other : Bytes32) :
    (f.storeChunks blob size chunks).declared other =
      if blob = other then f.declaring blob size else f.declared other := by
  cases hstores : f.stores blob with
  | true =>
    have hany : f.blob.any (·.id == blob) = true := hstores
    have hsame : (f.storeChunks blob size chunks).blob = f.blob := by
      simp [storeChunks, insertOrIgnore, hany]
    have hall : (f.storeChunks blob size chunks).declared = f.declared := by
      funext b
      simp only [declared, hsame]
    rw [hall, declaring, if_pos hstores]
    split
    · next heq => rw [heq]
    · rfl
  | false =>
    have hnone : f.blob.any (·.id == blob) = false := hstores
    have hnew : (f.storeChunks blob size chunks).blob = ⟨blob, size, chunks.length⟩ :: f.blob := by
      simp [storeChunks, insertOrIgnore, hnone]
    have hno : f.declared blob = 0 := by
      have hempty : f.blob.filter (·.id == blob) = [] := by
        simpa [List.filter_eq_nil_iff] using hnone
      simp [declared, hempty]
    rw [declaring, hstores, declared, hnew, List.filter_cons]
    by_cases heq : blob = other
    · subst heq
      rw [declared] at hno
      simp [hno]
    · simp [heq, declared]

theorem sealedChunks_storeChunks {chunks : List Bytes} {other : Bytes32} (hother : other ≠ blob) :
    sealedChunks (f.storeChunks blob size chunks).blobChunk other =
      sealedChunks f.blobChunk other := by
  have hall : ∀ (stored : List (Bytes × Nat)) (t : List BlobChunk),
      sealedChunks (stored.foldl (storeChunk blob) t) other = sealedChunks t other := by
    intro stored
    induction stored with
    | nil => exact fun _ => rfl
    | cons c stored ih =>
      intro t
      rw [List.foldl_cons, ih]
      unfold storeChunk insertOrIgnore sealedChunks
      split
      · rfl
      · simp [Ne.symm hother]
  exact hall _ _

theorem stores_storeChunks {chunks : List Bytes} (other : Bytes32) :
    (f.storeChunks blob size chunks).stores other = true ↔
      blob = other ∨ f.stores other = true := by
  simp only [stores, List.any_eq_true, beq_iff_eq]
  exact exists_mem_insertOrIgnore (p := fun row : BlobRow => row.id = other)
    (fun row hrow => by rw [beq_iff_eq.mp hrow])

theorem declaredTo_storeChunks {chunks : List Bytes} (hf : f.Ledger) (x : Holder) :
    (f.storeChunks blob size chunks).declaredTo x = f.declaredTo x := by
  have hheld : (f.storeChunks blob size chunks).blobsHeld x = f.blobsHeld x := by
    cases x <;> rfl
  rw [declaredTo, declaredTo, hheld]
  congr 1
  refine List.map_congr_left fun other hother => ?_
  rw [declared_storeChunks]
  split
  · next heq =>
    subst heq
    rw [declaring, if_pos (hf.stored _ (named_of_mem hother))]
  · rfl

theorem Booked.stores {chunks : List Bytes} (hf : f.Booked quota)
    (hhonest : f.Honest blob size chunks) : (f.storeChunks blob size chunks).Booked quota where
  stored other hnamed := (stores_storeChunks other).mpr (.inr (hf.stored other hnamed))
  honest other := by
    rw [declared_storeChunks]
    by_cases hother : other = blob
    · subst hother
      rw [if_pos rfl]
      exact hhonest
    · rw [if_neg (Ne.symm hother), sealedChunks_storeChunks hother]
      exact hf.honest other
  room x := by
    rw [declaredTo_storeChunks hf.toLedger]
    exact hf.room x

/-- A holder takes a blob that is stored. -/
structure Takes (f f' : Files) (x : Holder) (blob : Bytes32) : Prop where
  channels : f'.channels = f.channels
  blobs : f'.blob = f.blob
  blobChunk : f'.blobChunk = f.blobChunk
  upload : f'.upload = f.upload
  held : ∀ y, f'.blobsHeld y = if y = x then (f.blobsHeld y).insert blob else f.blobsHeld y
  named : ∀ other, f'.named other = true → other = blob ∨ f.named other = true

theorem takes_attached :
    Takes f (f.attached channel blob who expiresAfter now) (.channel channel) blob where
  channels := rfl
  blobs := rfl
  blobChunk := rfl
  upload := rfl
  held := blobsHeld_attached
  named other hnamed := by
    simp only [named, attached, Bool.or_eq_true, List.any_eq_true, beq_iff_eq] at hnamed ⊢
    rw [exists_mem_upsert (p := fun a : Attachment => a.blob = other) (by grind) (by grind)]
      at hnamed
    grind

theorem takes_attachToFeed :
    Takes f (f.attachToFeed account blob who expiresAfter now) (.feed account) blob where
  channels := rfl
  blobs := rfl
  blobChunk := rfl
  upload := rfl
  held := blobsHeld_attachToFeed
  named other hnamed := by
    simp only [named, attachToFeed, Bool.or_eq_true, List.any_eq_true, beq_iff_eq] at hnamed ⊢
    rw [exists_mem_upsert (p := fun a : FeedAttachment => a.blob = other) (by grind) (by grind)]
      at hnamed
    grind

theorem Ledger.takes (hf : f.Ledger) (h : Takes f f' x blob) (hstored : f.stores blob = true) :
    f'.Ledger where
  stored other hnamed := by
    have hbefore : f.stores other = true := by
      obtain rfl | hbefore := h.named other hnamed
      · exact hstored
      · exact hf.stored other hbefore
    simpa only [Files.stores, h.blobs] using hbefore
  honest other := by simpa only [declared, h.blobs, h.blobChunk] using hf.honest other

theorem Booked.takes (hf : f.Booked quota) (h : Takes f f' x blob) (hstored : f.stores blob = true)
    (hfits : f.Fits quota x blob) : f'.Booked quota where
  toLedger := hf.toLedger.takes h hstored
  room y := by
    have hdeclared : f'.declared = f.declared := by
      funext other
      simp only [declared, h.blobs]
    have hopen : f'.openFor y = f.openFor y := by simp only [openFor, h.upload]
    rw [limit_congr h.channels, hopen, declaredTo, hdeclared, h.held]
    have hroom := hf.room y
    by_cases hy : y = x
    · subst hy
      rw [if_pos rfl]
      by_cases hthere : blob ∈ f.blobsHeld y
      · rw [List.insert_of_mem hthere]
        exact hroom
      · have hnew := hfits.resolve_left hthere
        rw [List.insert_of_not_mem hthere, List.map_cons, List.sum_cons]
        unfold declaredTo at hnew
        omega
    · rw [if_neg hy]
      exact hroom

theorem openFor_dropUpload {u : Upload} (hu : u ∈ f.upload) (hid : u.id = id) :
    (f.dropUpload id).openFor u.into + u.size.toNat ≤ f.openFor u.into := by
  simp only [openFor, dropUpload]
  generalize f.upload = uploads at hu
  induction uploads with
  | nil => cases hu
  | cons v uploads ih =>
    have hless : ((uploads.filter (·.id != id)).filter (·.into = u.into)).Sublist
        (uploads.filter (·.into = u.into)) := List.filter_sublist.filter _
    have hsum : (((uploads.filter (·.id != id)).filter (·.into = u.into)).map
        (·.size.toNat)).sum ≤ ((uploads.filter (·.into = u.into)).map (·.size.toNat)).sum :=
      (hless.map _).sum_le_sum fun _ _ => Nat.zero_le _
    cases List.mem_cons.mp hu with
    | inl heq =>
      subst heq
      simp only [List.filter_cons, hid, bne_self_eq_false, Bool.false_eq_true, if_false,
        decide_true, if_true, List.map_cons, List.sum_cons]
      omega
    | inr hrest =>
      have htail := ih hrest
      by_cases hv : v.id = id <;> by_cases hx : v.into = u.into <;>
        simp [-List.filter_filter, hv, hx] <;> omega

theorem commitUpload_booked {done : Bool} (hf : f.Booked quota)
    (htidy : f.Declares C quota (.commitUpload who id blob now))
    (hok : f.commitUpload C who id blob now = .ok (f', done)) : f'.Booked quota := by
  simp only [commitUpload, bind_eq_ok] at hok
  obtain ⟨u, hu, hok⟩ := hok
  cases hgathered : f.gathered u with
  | none =>
    rw [hgathered] at hok
    obtain ⟨rfl, -⟩ := Prod.mk.inj (pure_eq_ok.mp hok)
    exact hf
  | some chunks =>
    rw [hgathered] at hok
    dsimp only at hok
    by_cases hname : blobId C chunks = blob
    · rw [if_neg (not_not.mpr hname)] at hok
      have hopened : u ∈ f.upload ∧ u.id = id := by
        unfold uploadOf at hu
        split at hu
        · cases hu
        · next v hfind =>
          split at hu
          · cases hu
            exact ⟨List.mem_of_find?_eq_some hfind, by simpa using List.find?_some hfind⟩
          · cases hu
      have hleft : Booked quota (f.dropUpload id) :=
        hf.frees ⟨rfl, rfl, rfl, rfl, rfl, rfl⟩ List.filter_sublist
      obtain ⟨hhonest, hsize⟩ := htidy u (by rw [hu]; rfl) chunks hgathered hname
      have hbooked : Booked quota ((f.dropUpload id).storeChunks blob u.size chunks) :=
        hleft.stores hhonest
      have hfits : ((f.dropUpload id).storeChunks blob u.size chunks).Fits quota u.into blob := by
        refine hsize.imp (fun hmem => ?_) fun hsize => ?_
        · cases hinto : u.into <;> rw [hinto] at hmem <;> exact hmem
        · have hopen := openFor_dropUpload hopened.1 hopened.2
          have hroom := hf.room u.into
          have hkeeps : Keeps f (f.dropUpload id) := ⟨rfl, rfl, rfl, rfl, rfl, rfl⟩
          rw [declaredTo_storeChunks hleft.toLedger, declared_storeChunks, if_pos rfl,
            hkeeps.declaredTo]
          change f.declaredTo u.into + (f.dropUpload id).openFor u.into +
            f.declaring blob u.size ≤ (f.limit quota u.into).toNat
          omega
      have hstored : ((f.dropUpload id).storeChunks blob u.size chunks).stores blob = true :=
        (stores_storeChunks blob).mpr (.inl rfl)
      cases hfeed : u.isFeed with
      | true =>
        rw [hfeed, if_pos rfl] at hok
        obtain ⟨rfl, -⟩ := Prod.mk.inj (pure_eq_ok.mp hok)
        have hinto : u.into = .feed u.channel := by simp [Upload.into, hfeed]
        rw [hinto] at hfits
        exact hbooked.takes takes_attachToFeed hstored hfits
      | false =>
        rw [hfeed, if_neg Bool.false_ne_true] at hok
        obtain ⟨f₁, hattached, hdone⟩ := bind_eq_ok.mp hok
        obtain ⟨rfl, -⟩ := Prod.mk.inj (pure_eq_ok.mp hdone)
        have hinto : u.into = .channel u.channel := by simp [Upload.into, hfeed]
        rw [hinto] at hfits
        rw [attach_ok hattached]
        exact hbooked.takes takes_attached hstored hfits
    · rw [if_pos hname] at hok
      obtain ⟨rfl, -⟩ := Prod.mk.inj (pure_eq_ok.mp hok)
      exact hf

theorem attachBlob_booked (hf : f.Booked quota)
    (htidy : f.Declares C quota (.attachBlob who channel blob expiresAfter now))
    (hok : f.attachBlob who channel blob expiresAfter now = .ok f') : f'.Booked quota := by
  obtain ⟨-, hfetch, hattach⟩ := attachBlob_ok hok
  rw [attach_ok hattach]
  exact hf.takes takes_attached (hf.stored blob (named_of_mayFetch hfetch)) htidy

theorem attachFeedBlob_booked (hf : f.Booked quota)
    (htidy : f.Declares C quota (.attachFeedBlob who account blob expiresAfter now))
    (hok : f.attachFeedBlob who account blob expiresAfter now = .ok f') : f'.Booked quota := by
  obtain ⟨hfetch, -, rfl⟩ := attachFeedBlob_ok hok
  exact hf.takes takes_attachToFeed (hf.stored blob (named_of_mayFetch hfetch)) htidy

theorem storeBackupBlob_booked {chunks : List Bytes} (hf : f.Booked quota)
    (htidy : f.Declares C quota (.storeBackupBlob account blob size chunks now))
    (hok : f.storeBackupBlob quota account blob size chunks now = .ok f') : f'.Booked quota := by
  simp only [storeBackupBlob, bind_eq_ok, refuseIf_eq_ok, exists_const] at hok
  obtain ⟨hfull, hattach⟩ := hok
  obtain ⟨hnone, hbeside, hhonest, hsize⟩ := htidy
  have hheld : (f.channelBlobBytes account).toNat = f.declaredTo (.channel account) :=
    channelBlobBytes_toNat (by have := hbeside.1; omega)
  rw [not_full_iff (by rw [hheld]; exact hbeside.1), hheld] at hfull
  have hlimit : f.limit quota (.channel account) = quota := by simp [limit, hnone]
  have hroom := hbeside.2 (by rwa [hlimit])
  rw [attach_ok hattach]
  refine (hf.stores hhonest).takes takes_attached ((stores_storeChunks blob).mpr (.inl rfl)) ?_
  refine hsize.imp id fun hsize => ?_
  rw [declaredTo_storeChunks hf.toLedger, declared_storeChunks, if_pos rfl]
  change f.declaredTo (.channel account) + f.openFor (.channel account) +
    f.declaring blob size ≤ (f.limit quota (.channel account)).toNat
  omega

/-! A manifest: what it names is held, and what it no longer names is let go. -/

structure Holding (f f' : Files) (account : PubKey) (blobs : List Bytes32) : Prop where
  channels : f'.channels = f.channels
  table : f'.blob = f.blob
  blobChunk : f'.blobChunk = f.blobChunk
  upload : f'.upload = f.upload
  held : ∀ x, f'.blobsHeld x =
    if x = .channel account then blobs.foldl (fun held blob => held.insert blob) (f.blobsHeld x)
    else f.blobsHeld x
  named : ∀ other, f'.named other = true → f.named other = true

theorem holding_holdNamed {device : PubKey} {held blobs : List Bytes32}
    (hheld : ∀ blob ∈ held, blob ∈ f.heldFor account)
    (hok : holdNamed account device held now f blobs = .ok f') : Holding f f' account blobs := by
  induction blobs generalizing f with
  | nil =>
    simp only [holdNamed, Except.ok.injEq] at hok
    subst hok
    exact ⟨rfl, rfl, rfl, rfl, by simp, fun _ => id⟩
  | cons blob blobs ih =>
    by_cases hthere : blob ∈ held
    · simp only [holdNamed, List.contains_eq_mem, hthere, decide_true, if_true] at hok
      have hrest := ih hheld hok
      refine { hrest with held := fun x => ?_ }
      rw [hrest.held]
      by_cases hx : x = .channel account
      · have hmem : blob ∈ f.blobsHeld x := hx ▸ hheld blob hthere
        rw [if_pos hx, if_pos hx, List.foldl_cons, List.insert_of_mem hmem]
      · simp [hx]
    · simp only [holdNamed, List.contains_eq_mem, hthere, decide_false, Bool.false_eq_true,
        if_false, bind_eq_ok, refuseIf_eq_ok] at hok
      obtain ⟨-, hfetch, f₁, hattach, hok⟩ := hok
      rw [attach_ok hattach] at hok
      have htakes : Takes f (f.attached account blob device 0 now) (.channel account) blob :=
        takes_attached
      have hstill : ∀ other ∈ held,
          other ∈ (f.attached account blob device 0 now).heldFor account := by
        intro other hother
        have hinsert := htakes.held (.channel account)
        rw [if_pos rfl] at hinsert
        change other ∈ (f.attached account blob device 0 now).blobsHeld (.channel account)
        rw [hinsert]
        exact List.mem_insert_of_mem (hheld other hother)
      obtain ⟨hchannels, hblobs, hchunks, hupload, hrest, hnamed⟩ := ih hstill hok
      refine ⟨hchannels, hblobs, hchunks, hupload, fun x => ?_, fun other hother => ?_⟩
      · rw [hrest, htakes.held]
        by_cases hx : x = .channel account <;> simp [hx]
      · obtain rfl | hbefore := htakes.named other (hnamed other hother)
        · exact named_of_mayFetch (by simpa using hfetch)
        · exact hbefore

/-- What dropping blobs that nothing names does: a blob goes with all its chunks. -/
structure Drops (f f' : Files) : Prop where
  channels : f'.channels = f.channels
  upload : f'.upload = f.upload
  declared : ∀ blob, f'.declared blob ≤ f.declared blob
  ledger : f.Ledger → f'.Ledger

theorem Drops.trans {f'' : Files} (h : Drops f f') (h' : Drops f' f'') : Drops f f'' where
  channels := h'.channels.trans h.channels
  upload := h'.upload.trans h.upload
  declared blob := (h'.declared blob).trans (h.declared blob)
  ledger := h'.ledger ∘ h.ledger

theorem drops_collectBlob : Drops f (f.collectBlob blob) := by
  by_cases hnamed : f.named blob = true
  · rw [collectBlob, if_pos hnamed]
    exact ⟨rfl, rfl, fun _ => Nat.le_refl _, id⟩
  · rw [collectBlob, if_neg hnamed]
    have hgone : ∀ other, (f.dropBlobs (· == blob)).declared other =
        if other = blob then 0 else f.declared other := by
      intro other
      simp only [Files.declared, dropBlobs, List.filter_filter]
      split
      · next heq => simp [heq]
      · next hne =>
        congr 2
        refine List.filter_congr fun row _ => ?_
        grind
    refine ⟨rfl, rfl, fun other => ?_, fun hf => ⟨fun other hother => ?_, fun other => ?_⟩⟩
    · rw [hgone]
      split
      · exact Nat.zero_le _
      · exact Nat.le_refl _
    · have hne : other ≠ blob := fun heq => hnamed (heq ▸ hother)
      obtain ⟨row, hrow, hid⟩ := List.any_eq_true.mp (hf.stored other hother)
      refine List.any_eq_true.mpr ⟨row, List.mem_filter.mpr ⟨hrow, ?_⟩, hid⟩
      rw [beq_iff_eq] at hid
      simpa [hid] using hne
    · rw [hgone]
      by_cases heq : other = blob
      · have hnone : sealedChunks (f.dropBlobs (· == blob)).blobChunk other = [] := by
          simp [sealedChunks, dropBlobs, heq]
        rw [hnone]
        exact Nat.zero_le _
      · have hsame : sealedChunks (f.dropBlobs (· == blob)).blobChunk other =
            sealedChunks f.blobChunk other := by
          simp only [sealedChunks, dropBlobs, List.filter_filter]
          congr 1
          refine List.filter_congr fun c _ => ?_
          grind
        rw [if_neg heq, hsame]
        exact hf.honest other

theorem drops_release {which : Attachment → Bool} : Drops f (f.release which) := by
  have hall : ∀ (gone : List Bytes32) (f : Files), Drops f (gone.foldl collectBlob f) := by
    intro gone
    induction gone with
    | nil => exact fun f => ⟨rfl, rfl, fun _ => Nat.le_refl _, id⟩
    | cons blob gone ih => exact fun f => drops_collectBlob.trans (ih _)
  obtain ⟨hchannels, hupload, hdeclared, hledger⟩ := hall
    ((f.attachment.filter which).map (·.blob))
    { f with attachment := f.attachment.filter fun a => !which a }
  refine ⟨hchannels, hupload, hdeclared, fun hf => hledger ⟨fun other hother => ?_, hf.honest⟩⟩
  refine hf.stored other ?_
  simp only [named, Bool.or_eq_true, List.any_eq_true, List.mem_filter] at hother ⊢
  grind

theorem blobsHeld_release_account {which : Attachment → Bool} (gone : Bytes32 → Bool)
    (hwhich : ∀ a, which a = (a.channel == account && gone a.blob)) (x : Holder) :
    (f.release which).blobsHeld x =
      if x = .channel account then (f.blobsHeld x).filter (fun blob => !gone blob)
      else f.blobsHeld x := by
  have hsame := release_sameNames f which
  cases x with
  | feed other => rw [if_neg (by simp)]; simp only [blobsHeld, hsame.feedAttachment]
  | channel other =>
    simp only [blobsHeld, heldFor, hsame.attachment, List.filter_filter, List.filter_map]
    by_cases hother : other = account
    · subst hother
      rw [if_pos rfl]
      congr 1
      refine List.filter_congr fun a _ => ?_
      grind
    · rw [if_neg (by simpa using hother)]
      congr 1
      refine List.filter_congr fun a _ => ?_
      grind

theorem mem_foldl_insert {blobs held : List Bytes32} :
    blob ∈ blobs.foldl (fun held blob => held.insert blob) held ↔ blob ∈ blobs ∨ blob ∈ held := by
  induction blobs generalizing held with
  | nil => simp
  | cons other blobs ih => rw [List.foldl_cons, ih, List.mem_insert_iff, List.mem_cons]; tauto

theorem writeBackup_booked {device : PubKey} {m : Manifest} (hf : f.Booked quota)
    (htidy : f.Declares C quota (.writeBackup account device m now))
    (hok : f.writeBackup account device m now = .ok f') : f'.Booked quota := by
  obtain ⟨f₁, b, hnames, rfl⟩ := writeBackup_ok hok
  have hholding := holding_holdNamed (fun _ hblob => hblob) hnames
  let which := fun a : Attachment => a.channel == account &&
    (f.heldFor account).contains a.blob && !m.blobs.contains a.blob
  have hdrops : Drops f₁ (f₁.release which) := drops_release
  have hledger : f₁.Ledger := by
    refine ⟨fun other hother => ?_, fun other => ?_⟩
    · simpa only [Files.stores, hholding.table] using hf.stored other (hholding.named other hother)
    · simpa only [declared, hholding.table, hholding.blobChunk] using hf.honest other
  have hwhich : ∀ a, which a = (a.channel == account &&
      ((f.heldFor account).contains a.blob && !m.blobs.contains a.blob)) :=
    fun a => Bool.and_assoc _ _ _
  -- the blobs held are of those declared before the write, or the manifest's
  have hsum : ∀ (x : Holder) (held : List Bytes32), (f₁.release which).blobsHeld x = held →
      (f₁.release which).declaredTo x ≤ (held.map f.declared).sum := by
    rintro x held rfl
    have hdeclared : f₁.declared = f.declared := by
      funext other
      simp only [declared, hholding.table]
    rw [← hdeclared]
    exact List.sum_le_sum fun other _ => hdrops.declared other
  have hopen : ∀ x, (f₁.release which).openFor x = f.openFor x := fun x => by
    simp only [openFor, hdrops.upload, hholding.upload]
  have hchannels : (f₁.release which).channels = f.channels :=
    hdrops.channels.trans hholding.channels
  have hkept : (f₁.release which).Ledger := hdrops.ledger hledger
  refine ⟨⟨hkept.stored, hkept.honest⟩, fun x => ?_⟩
  change (f₁.release which).declaredTo x + (f₁.release which).openFor x ≤
    ((f₁.release which).limit quota x).toNat
  rw [limit_congr hchannels, hopen]
  have hleft := blobsHeld_release_account (f := f₁)
    (fun blob => (f.heldFor account).contains blob && !m.blobs.contains blob) hwhich x
  rw [hholding.held] at hleft
  have hroom := hf.room x
  by_cases hx : x = .channel account
  · subst hx
    rw [if_pos rfl, if_pos rfl] at hleft
    have hnaming : (f₁.release which).blobsHeld (.channel account) = f.naming account m := by
      rw [hleft]
      refine List.filter_congr fun blob hblob => ?_
      have hmem := mem_foldl_insert.mp hblob
      simp only [blobsHeld, List.contains_eq_mem] at hmem ⊢
      grind
    have hless := hsum _ _ hnaming
    obtain hall | hnew := htidy
    · have hheld : m.blobs.foldl (fun held blob => held.insert blob) (f.heldFor account) =
          f.heldFor account := by
        have hinsert : ∀ blobs : List Bytes32, (∀ blob ∈ blobs, blob ∈ f.heldFor account) →
            blobs.foldl (fun held blob => held.insert blob) (f.heldFor account) =
              f.heldFor account := by
          intro blobs
          induction blobs with
          | nil => exact fun _ => rfl
          | cons blob blobs ih =>
            intro hblobs
            obtain ⟨hfirst, hrest⟩ := List.forall_mem_cons.mp hblobs
            rw [List.foldl_cons, List.insert_of_mem hfirst, ih hrest]
        exact hinsert m.blobs hall
      have hsub : (f.naming account m).Sublist (f.heldFor account) := by
        rw [naming, hheld]
        exact List.filter_sublist
      have hpart : ((f.naming account m).map f.declared).sum ≤ f.declaredTo (.channel account) :=
        (hsub.map _).sum_le_sum fun _ _ => Nat.zero_le _
      omega
    · omega
  · rw [if_neg hx, if_neg hx] at hleft
    have hless := hsum x _ hleft
    unfold declaredTo at hroom
    omega

end

theorem Booked.step {C : Crypto} {h : Host} {quota : UInt64} {f : Files} {op : Storing}
    (hf : f.Booked quota) (htidy : f.Tidy C h quota op) : (f.store C h quota op).Booked quota := by
  rw [store, Files.step]
  cases hperform : f.perform C h (op.filing quota) with
  | error e => exact hf
  | ok f' =>
    dsimp only
    have htidy : f.Declares C quota op := htidy (by rw [hperform]; rfl)
    cases op with
    | beginUpload uploader req now =>
      obtain ⟨⟨f₁, id⟩, hok, rfl⟩ := map_eq_ok.mp hperform
      exact beginUpload_booked hf htidy hok
    | beginFeedUpload uploader req now =>
      obtain ⟨⟨f₁, id⟩, hok, rfl⟩ := map_eq_ok.mp hperform
      exact beginFeedUpload_booked hf htidy hok
    | putChunk uploader id idx bytes =>
      simp only [Storing.filing, perform, putChunk, bind_eq_ok, pure_eq_ok] at hperform
      obtain ⟨-, -, -, -, rfl⟩ := hperform
      exact hf.frees ⟨rfl, rfl, rfl, rfl, rfl, rfl⟩ (.refl _)
    | commitUpload uploader id claimed now =>
      obtain ⟨⟨f₁, done⟩, hok, rfl⟩ := map_eq_ok.mp hperform
      exact commitUpload_booked hf htidy hok
    | attachBlob who channel blob expiresAfter now => exact attachBlob_booked hf htidy hperform
    | attachFeedBlob who account blob expiresAfter now =>
      exact attachFeedBlob_booked hf htidy hperform
    | writeBackup account device m now => exact writeBackup_booked hf htidy hperform
    | storeBackupBlob account blob size chunks now =>
      exact storeBackupBlob_booked hf htidy hperform

end Files

/-- The quotas hold in every state of a run that begins with what is stored and open declared within
them, and whose steps keep to what is declared: no two uploads open that only fit apart, no chunks
beyond the size declared, and nothing attached, or named by a manifest, without room. -/
theorem quotas_bound (C : Crypto) (h : Host) (quota : UInt64) (f : Files) (ops : List Storing)
    (hstart : f.Booked quota) (hops : Each (Files.Tidy C h quota) (Files.store C h quota) f ops) :
    Always (Files.Within quota) (Files.store C h quota) f ops :=
  (hops.always (fun _ _ hf htidy => hf.step htidy) hstart).imp fun _ hf => hf.within

theorem booked_empty (quota : UInt64) : Files.empty.Booked quota where
  stored := by simp [Files.named, Files.empty]
  honest := by simp [Room, sealedChunks, Files.empty]
  room x := by cases x <;> simp [Files.declaredTo, Files.blobsHeld, Files.heldFor, Files.openFor,
    Files.empty]

/-- An account has two uploads to its backup open, each of 8 bytes sealed in one chunk of 24, and
commits both. -/
def sideBySide : List Storing :=
  let first := List.replicate 24 1
  let second := List.replicate 24 2
  [.beginUpload 5 ⟨5, 8, 1, 0⟩ 100, .beginUpload 5 ⟨5, 8, 1, 0⟩ 101,
    .putChunk 5 1 0 first, .putChunk 5 2 0 second,
    .commitUpload 5 1 (blobId Crypto.toy [first]) 102,
    .commitUpload 5 2 (blobId Crypto.toy [second]) 103]

/-- A manifest that names one of the two follows, and lets the other go. -/
theorem quotas_bound_side_by_side :
    let ops := sideBySide ++
      [.writeBackup 5 5 ⟨1, [blobId Crypto.toy [List.replicate 24 2]], [], 0⟩ 104]
    Always (Files.Within 16) (Files.store Crypto.toy ⟨1, none, 50000⟩ 16) .empty ops :=
  quotas_bound Crypto.toy ⟨1, none, 50000⟩ 16 .empty _ (booked_empty 16) (by decide +kernel)

/-- Where the backup may come to 10 bytes, neither of the two is refused. -/
theorem quota_passed_side_by_side :
    ¬ Always (Files.Within 10) (Files.store Crypto.toy ⟨1, none, 50000⟩ 10) .empty sideBySide := by
  intro hall
  have hend := always_iff_prefixes.mp hall sideBySide List.prefix_rfl (.channel 5)
  exact absurd hend (by decide +kernel)

end Sqex.Exchange
