import Sqex.Exchange.DirectMessage
import Sqex.Exchange.FileRun

/-! A blob is held exactly while something names it, but for what the sweep forgets: it ends by
deleting what neither a channel nor a feed holds, and a fold that still stands is neither. -/
namespace Sqex.Exchange
open Std Runs Tables
variable {now id : UInt64} {channel : Bytes32} {who account uploader : PubKey}
  {expiresAfter : UInt32} {op : Filing}

namespace Files
variable {C : Crypto} {h : Host} {f f' : Files} {blob : Bytes32}

/-- A row names the blob; one of a fold counts within its window. -/
def namedAt (f : Files) (now : UInt64) (blob : Bytes32) : Bool :=
  f.attachment.any (·.blob == blob) ||
    f.foldedAttachment.any (fun a => a.blob == blob && stillFolded a.foldedAt now) ||
    f.feedAttachment.any (·.blob == blob)

def Holds (f : Files) (blob : Bytes32) : Prop :=
  ∃ row ∈ f.blob, row.id = blob ∧
    ∀ i < row.chunks, ∃ c ∈ f.blobChunk, c.blob = blob ∧ c.idx = i

/-- Whatever a row names is held, whenever one looks. -/
def Lives (f : Files) : Prop := ∀ now blob, f.namedAt now blob = true → f.Holds blob

def Clean (f : Files) (now : UInt64) : Prop :=
  (∀ row ∈ f.blob, f.namedAt now row.id = true) ∧
    ∀ c ∈ f.blobChunk, f.namedAt now c.blob = true

/-- After an operation what is named is held, and after a sweep nothing else is. -/
def Lived (C : Crypto) (h : Host) (f : Files) (op : Filing) : Prop :=
  (f.step C h op).Lives ∧ ∀ now, op = .sweep now → (f.step C h op).Clean now

def survives (f : Files) (h : Host) (now : UInt64) (a : Attachment) : Bool :=
  match (f.rows a.channel).channel with
  | none => true
  | some c => !outlived c now a && !((f.rows a.channel).prune h now).abandoned now

/-- What a fold that stands has kept is on a feed too, or attached where a sweep leaves it. -/
def Sheltered (h : Host) (f : Files) : Filing → Prop
  | .sweep now => ∀ a ∈ f.foldedAttachment, stillFolded a.foldedAt now = true →
    f.feedAttachment.any (·.blob == a.blob) = true ∨
      f.attachment.any (fun x => x.blob == a.blob && f.survives h now x) = true
  | _ => True

theorem named_iff : f.named blob = true ↔ (∃ a ∈ f.attachment, a.blob = blob) ∨
    (∃ a ∈ f.foldedAttachment, a.blob = blob) ∨ ∃ a ∈ f.feedAttachment, a.blob = blob := by
  simp [named, or_assoc]

theorem named_of_namedAt (hnamed : f.namedAt now blob = true) :
    f.named blob = true := by
  rw [named_iff]
  simp only [namedAt, Bool.or_eq_true, List.any_eq_true, Bool.and_eq_true, beq_iff_eq] at hnamed
  obtain (hattached | ⟨a, ha, hblob, -⟩) | hfed := hnamed
  · exact .inl hattached
  · exact .inr (.inl ⟨a, ha, hblob⟩)
  · exact .inr (.inr hfed)

structure Kept (f : Files) : Prop where
  whole : ∀ row ∈ f.blob, ∀ i < row.chunks, ∃ c ∈ f.blobChunk, c.blob = row.id ∧ c.idx = i
  stored : ∀ blob, f.named blob = true → ∃ row ∈ f.blob, row.id = blob

theorem Kept.lives (hkept : Kept f) : f.Lives := by
  intro now blob hnamed
  obtain ⟨row, hrow, rfl⟩ := hkept.stored blob (named_of_namedAt hnamed)
  exact ⟨row, hrow, rfl, hkept.whole row hrow⟩

theorem kept_empty : Kept empty := by
  refine ⟨?_, ?_⟩
  · intro row hrow
    cases hrow
  · intro blob hnamed
    cases hnamed

structure Fewer (f f' : Files) : Prop where
  blob : f'.blob = f.blob
  blobChunk : f'.blobChunk = f.blobChunk
  named : ∀ blob, f'.named blob = true → f.named blob = true

theorem Kept.fewer (hkept : Kept f) (hfewer : Fewer f f') : Kept f' := by
  refine ⟨?_, ?_⟩
  · rw [hfewer.blob, hfewer.blobChunk]
    exact hkept.whole
  · intro blob hnamed
    rw [hfewer.blob]
    exact hkept.stored blob (hfewer.named blob hnamed)

theorem Kept.dropBlobs (hkept : Kept f) {gone : Bytes32 → Bool}
    (hgone : ∀ blob, f.named blob = true → gone blob = false) : Kept (f.dropBlobs gone) := by
  refine ⟨?_, ?_⟩
  · intro row hrow i hi
    obtain ⟨hrow, hstays⟩ := List.mem_filter.mp hrow
    obtain ⟨c, hc, hblob, hidx⟩ := hkept.whole row hrow i hi
    exact ⟨c, List.mem_filter.mpr ⟨hc, by rw [hblob]; exact hstays⟩, hblob, hidx⟩
  · intro blob hnamed
    obtain ⟨row, hrow, rfl⟩ := hkept.stored blob hnamed
    exact ⟨row, List.mem_filter.mpr ⟨hrow, by simp [hgone row.id hnamed]⟩, rfl⟩

theorem Kept.collect (hkept : Kept f) (blob : Bytes32) : Kept (f.collectBlob blob) := by
  unfold collectBlob
  by_cases hnamed : f.named blob = true
  · rw [if_pos hnamed]
    exact hkept
  · rw [if_neg hnamed]
    refine hkept.dropBlobs fun other hother => ?_
    have hne : other ≠ blob := by
      intro heq
      exact hnamed (heq ▸ hother)
    simpa using hne

theorem Kept.collectAll (hkept : Kept f) (blobs : List Bytes32) :
    Kept (blobs.foldl collectBlob f) :=
  List.foldlRecOn blobs _ hkept fun _ hf blob _ => hf.collect blob

theorem Kept.release (hkept : Kept f) (which : Attachment → Bool) : Kept (f.release which) := by
  let left := f.attachment.filter fun a => !which a
  have hfewer : Fewer f { f with attachment := left } := by
    refine ⟨rfl, rfl, fun blob hnamed => ?_⟩
    rw [named_iff] at hnamed ⊢
    obtain ⟨a, ha, hblob⟩ | hrest := hnamed
    · exact .inl ⟨a, List.mem_of_mem_filter ha, hblob⟩
    · exact .inr hrest
  exact (hkept.fewer hfewer).collectAll _

theorem Kept.putRows (hkept : Kept f) (channel : Bytes32) (r : Rows) : Kept (f.putRows channel r) :=
  hkept.fewer ⟨rfl, rfl, fun _ hnamed => hnamed⟩

theorem mem_storeChunks {t : List BlobChunk} {c : BlobChunk} (hc : c ∈ t)
    (chunks : List (Bytes × Nat)) : c ∈ chunks.foldl (storeChunk blob) t := by
  induction chunks generalizing t with
  | nil => exact hc
  | cons chunk chunks ih => exact ih (mem_insertOrIgnore_of_mem hc)

theorem exists_storeChunks {chunks : List (Bytes × Nat)} {chunk : Bytes × Nat}
    (hchunk : chunk ∈ chunks) (t : List BlobChunk) :
    ∃ c ∈ chunks.foldl (storeChunk blob) t, c.blob = blob ∧ c.idx = chunk.2 := by
  induction chunks generalizing t with
  | nil => cases hchunk
  | cons first chunks ih =>
    rw [List.foldl_cons]
    cases List.mem_cons.mp hchunk with
    | inl heq =>
      have hkey : ∀ x : BlobChunk, (x.blob == blob && x.idx == first.2) = true →
          ((x.blob = blob ∧ x.idx = first.2) ↔ (blob = blob ∧ first.2 = first.2)) := by
        intro x hx
        simpa using hx
      obtain ⟨c, hc, hheld⟩ : ∃ x ∈ storeChunk blob t first, x.blob = blob ∧ x.idx = first.2 :=
        (exists_mem_insertOrIgnore hkey).mpr (.inl ⟨rfl, rfl⟩)
      exact ⟨c, mem_storeChunks hc chunks, heq ▸ hheld⟩
    | inr hrest => exact ih hrest _

theorem Kept.storeChunks (hkept : Kept f) (blob : Bytes32) (size : UInt64)
    (chunks : List Bytes) :
    Kept (f.storeChunks blob size chunks) ∧
      ∃ row ∈ (f.storeChunks blob size chunks).blob, row.id = blob := by
  refine ⟨⟨?_, ?_⟩, ?_⟩
  · intro row hrow i hi
    cases mem_of_insertOrIgnore hrow with
    | inl hnew =>
      rw [hnew] at hi ⊢
      have hchunk : (chunks[i], i) ∈ chunks.zipIdx := by
        simpa using List.mk_mem_zipIdx_iff_getElem?.mpr (List.getElem?_eq_getElem hi)
      exact exists_storeChunks hchunk _
    | inr hold =>
      obtain ⟨c, hc, hheld⟩ := hkept.whole row hold i hi
      exact ⟨c, mem_storeChunks hc _, hheld⟩
  · intro other hnamed
    obtain ⟨row, hrow, hid⟩ := hkept.stored other hnamed
    exact ⟨row, mem_insertOrIgnore_of_mem hrow, hid⟩
  · have hkey : ∀ x : BlobRow, (x.id == blob) = true → (x.id = blob ↔ blob = blob) := by
      intro x hx
      simpa using hx
    have hrow : BlobRow.id ⟨blob, size, chunks.length⟩ = blob := rfl
    exact (exists_mem_insertOrIgnore hkey).mpr (.inl hrow)

theorem Kept.named (hkept : Kept f) (hblob : f'.blob = f.blob)
    (hchunk : f'.blobChunk = f.blobChunk) (hheld : ∃ row ∈ f.blob, row.id = blob)
    (hnamed : ∀ other, f'.named other = true → other = blob ∨ f.named other = true) :
    Kept f' := by
  refine ⟨by rw [hblob, hchunk]; exact hkept.whole, ?_⟩
  intro other hother
  rw [hblob]
  cases hnamed other hother with
  | inl heq => rw [heq]; exact hheld
  | inr hold => exact hkept.stored other hold

theorem Kept.attach (hkept : Kept f) (hheld : ∃ row ∈ f.blob, row.id = blob)
    (hok : f.attach channel blob who expiresAfter now = .ok f') : Kept f' := by
  rw [attach_ok hok]
  refine hkept.named rfl rfl hheld fun other hother => ?_
  rw [named_iff] at hother ⊢
  rw [exists_mem_upsert (fun x hx => by simp_all) (fun x hx => by simp_all)] at hother
  obtain (hnew | hold) | hrest := hother
  · exact .inl hnew.symm
  · exact .inr (.inl hold)
  · exact .inr (.inr hrest)

theorem Kept.attachToFeed (hkept : Kept f) (hheld : ∃ row ∈ f.blob, row.id = blob)
    (account who : PubKey) (expiresAfter : UInt32) (now : UInt64) :
    Kept (f.attachToFeed account blob who expiresAfter now) := by
  refine hkept.named rfl rfl hheld fun other hother => ?_
  rw [named_iff] at hother ⊢
  simp only [Files.attachToFeed] at hother
  rw [exists_mem_upsert (fun x hx => by simp_all) (fun x hx => by simp_all)] at hother
  obtain hattached | hfolded | hnew | hold := hother
  · exact .inr (.inl hattached)
  · exact .inr (.inr (.inl hfolded))
  · exact .inl hnew.symm
  · exact .inr (.inr (.inr hold))

theorem named_of_mayFetch (hfetch : f.mayFetch who blob now = true) :
    f.named blob = true := by
  have hholder : ∀ c ∈ f.holders blob, f.named blob = true := by
    intro c hc
    obtain ⟨a, ha, -⟩ := List.mem_map.mp hc
    obtain ⟨ha, hblob⟩ := List.mem_filter.mp ha
    exact named_iff.mpr (.inl ⟨a, ha, by simpa using hblob⟩)
  have hpair : ∀ pair ∈ f.foldedPairs blob now, f.named blob = true := by
    intro pair hpair
    obtain ⟨a, ha, -⟩ := List.mem_flatMap.mp hpair
    obtain ⟨ha, hblob⟩ := List.mem_filter.mp ha
    exact named_iff.mpr (.inr (.inl ⟨a, ha, by simpa using hblob⟩))
  simp only [mayFetch, isMember, Bool.or_eq_true, Bool.and_eq_true, List.any_eq_true] at hfetch
  obtain (⟨c, hc, -⟩ | ⟨pair, hmem, -⟩) | ⟨⟨c, hc, -⟩ | hfed, -⟩ := hfetch
  · exact hholder c hc
  · exact hpair pair hmem
  · exact hholder c (List.mem_of_mem_filter hc)
  · obtain ⟨a, ha, hblob⟩ := List.any_eq_true.mp hfed
    exact named_iff.mpr (.inr (.inr ⟨a, ha, by simpa using hblob⟩))

theorem Kept.request {w : Around} {req : Request} (hkept : Kept f)
    (hok : f.request C h channel w req = .ok f') : Kept f' := by
  obtain ⟨r, es, -, rfl⟩ := request_ok hok
  have hdone : Kept { f.putRows channel r with retired := f.retires C channel req } :=
    hkept.fewer ⟨rfl, rfl, fun _ hnamed => hnamed⟩
  dsimp only
  split
  · exact hdone.release _
  · exact hdone

theorem Kept.succeed {successor : PubKey} {issued : UInt64} {sig : Bytes64} (hkept : Kept f)
    (hok : f.succeed C h account successor issued sig now = .ok f') :
    Kept f' := by
  refine succeed_induction hok (fun _ => ?_) fun g channel r _ hg _ => hg.putRows channel r
  exact hkept.fewer ⟨rfl, rfl, fun _ hnamed => hnamed⟩

theorem Kept.recordFold (hkept : Kept f) (record : Fold) : Kept (f.recordFold record) := by
  refine hkept.fewer ⟨rfl, rfl, fun blob hnamed => ?_⟩
  rw [named_iff] at hnamed ⊢
  obtain hattached | ⟨a, ha, hblob⟩ | hfed := hnamed
  · exact .inl hattached
  · cases List.mem_append.mp ha with
    | inl hkeeps =>
      obtain ⟨b, hb, rfl⟩ := List.mem_map.mp hkeeps
      exact .inl ⟨b, List.mem_of_mem_filter hb, hblob⟩
    | inr hold => exact .inr (.inl ⟨a, List.mem_of_mem_filter hold, hblob⟩)
  · exact .inr (.inr hfed)

theorem Kept.fold {into : PubKey} {domain : String} {incarnation : Bytes32} (hkept : Kept f)
    (hok : f.fold C channel into domain incarnation now = .ok f') : Kept f' := by
  obtain ⟨record, rfl⟩ := fold_ok hok
  exact ((hkept.recordFold record).putRows channel _).release _

theorem Kept.adopt {incarnation : Bytes32} {origin : PubKey} {windowSecs : UInt32} (hkept : Kept f)
    (hok : f.adopt channel incarnation origin windowSecs now = .ok f') : Kept f' := by
  obtain ⟨r, -, rfl | rfl⟩ := adopt_ok hok
  · exact hkept.putRows channel r
  · exact (hkept.putRows channel r).release _

theorem Kept.forgetCopy (hkept : Kept f) (hok : f.forgetCopy channel = .ok f') : Kept f' := by
  rw [forgetCopy_ok hok]
  exact (hkept.putRows channel _).release _

theorem Kept.expireUploads (hkept : Kept f) (now : UInt64) : Kept (f.expireUploads now) := by
  obtain ⟨uploads, chunks, hexpired⟩ := expireUploads_eq f now
  rw [hexpired]
  exact hkept.fewer ⟨rfl, rfl, fun _ hnamed => hnamed⟩

theorem Kept.beginUpload {quota : UInt64} {req : Begin} (hkept : Kept f)
    (hok : f.beginUpload quota uploader req now = .ok (f', id)) : Kept f' := by
  rw [beginUpload_ok hok]
  exact (hkept.expireUploads now).fewer ⟨rfl, rfl, fun _ hnamed => hnamed⟩

theorem Kept.beginFeedUpload {req : Begin} (hkept : Kept f)
    (hok : f.beginFeedUpload uploader req now = .ok (f', id)) : Kept f' := by
  rw [beginFeedUpload_ok hok]
  exact (hkept.expireUploads now).fewer ⟨rfl, rfl, fun _ hnamed => hnamed⟩

theorem Kept.putChunk {idx : UInt32} {bytes : Bytes} (hkept : Kept f)
    (hok : f.putChunk uploader id idx bytes = .ok f') : Kept f' := by
  simp only [Files.putChunk, bind_eq_ok, pure_eq_ok] at hok
  obtain ⟨u, -, -, -, rfl⟩ := hok
  exact hkept.fewer ⟨rfl, rfl, fun _ hnamed => hnamed⟩

theorem Kept.dropUpload (hkept : Kept f) (id : UInt64) : Kept (f.dropUpload id) :=
  hkept.fewer ⟨rfl, rfl, fun _ hnamed => hnamed⟩

theorem Kept.commitUpload {claimed : Bytes32} {done : Bool} (hkept : Kept f)
    (hok : f.commitUpload C uploader id claimed now = .ok (f', done)) : Kept f' := by
  obtain rfl | ⟨u, chunks, f₁, rfl, hattach⟩ := commitUpload_ok hok
  · exact hkept
  · obtain ⟨hstored, hheld⟩ := hkept.storeChunks claimed u.size chunks
    refine Kept.dropUpload ?_ id
    cases hattach with
    | inl hfeed =>
      rw [← hfeed]
      exact hstored.attachToFeed hheld _ _ _ _
    | inr hchannel => exact hstored.attach hheld hchannel

theorem Kept.abortUpload (hkept : Kept f) (hok : f.abortUpload uploader id = .ok f') : Kept f' := by
  simp only [Files.abortUpload, bind_eq_ok, pure_eq_ok] at hok
  obtain ⟨u, -, rfl⟩ := hok
  exact hkept.dropUpload id

theorem Kept.held (hkept : Kept f) (hfetch : f.mayFetch who blob now = true) :
    ∃ row ∈ f.blob, row.id = blob :=
  hkept.stored blob (named_of_mayFetch hfetch)

theorem Kept.attachBlob (hkept : Kept f)
    (hok : f.attachBlob who channel blob expiresAfter now = .ok f') :
    Kept f' := by
  obtain ⟨-, hfetch, hattach⟩ := attachBlob_ok hok
  exact hkept.attach (hkept.held hfetch) hattach

theorem Kept.detachBlob (hkept : Kept f) (hok : f.detachBlob who channel blob = .ok f') :
    Kept f' := by
  rw [detachBlob_ok hok]
  exact hkept.release _

theorem Kept.attachFeedBlob (hkept : Kept f)
    (hok : f.attachFeedBlob who account blob expiresAfter now = .ok f') :
    Kept f' := by
  obtain ⟨hfetch, -, rfl⟩ := attachFeedBlob_ok hok
  exact hkept.attachToFeed (hkept.held hfetch) _ _ _ _

theorem Kept.detachFeedBlob (hkept : Kept f) (hok : f.detachFeedBlob who account blob = .ok f') :
    Kept f' := by
  rw [detachFeedBlob_ok hok]
  let rest := f.feedAttachment.filter fun a => !(a.account == account && a.blob == blob)
  have hfewer : Fewer f { f with feedAttachment := rest } := by
    refine ⟨rfl, rfl, fun other hnamed => ?_⟩
    rw [named_iff] at hnamed ⊢
    obtain hattached | hfolded | ⟨a, ha, hfed⟩ := hnamed
    · exact .inl hattached
    · exact .inr (.inl hfolded)
    · exact .inr (.inr ⟨a, List.mem_of_mem_filter ha, hfed⟩)
  exact (hkept.fewer hfewer).collect blob

theorem Kept.storeBlob (hkept : Kept f) (channel blob : Bytes32) (size : UInt64)
    (chunks : List Bytes) (now : UInt64) : Kept (f.storeBlob channel blob size chunks now) := by
  obtain ⟨hstored, hheld⟩ := hkept.storeChunks blob size chunks
  refine hstored.named rfl rfl hheld fun other hother => ?_
  rw [named_iff] at hother ⊢
  simp only [Files.storeBlob] at hother
  rw [exists_mem_insertOrIgnore (fun x hx => by simp_all)] at hother
  obtain (hnew | hold) | hrest := hother
  · exact .inl hnew.symm
  · exact .inr (.inl hold)
  · exact .inr (.inr hrest)

theorem Kept.holdNamed {device : PubKey} {held blobs : List Bytes32} (hkept : Kept f)
    (hok : Files.holdNamed account device held now f blobs = .ok f') :
    Kept f' :=
  holdNamed_induction hok hkept fun _ _ _ _ hg hmay hattach => hg.attach (hg.held hmay) hattach

theorem Kept.writeBackup {device : PubKey} {m : Manifest} (hkept : Kept f)
    (hok : f.writeBackup account device m now = .ok f') : Kept f' := by
  obtain ⟨f₁, b, hnamed, rfl⟩ := writeBackup_ok hok
  exact ((hkept.holdNamed hnamed).release _).fewer ⟨rfl, rfl, fun _ hnamed => hnamed⟩

theorem Kept.dropBackup (hkept : Kept f) (account : PubKey) : Kept (f.dropBackup account) :=
  (hkept.release _).fewer ⟨rfl, rfl, fun _ hnamed => hnamed⟩

theorem Kept.storeBackupBlob {quota : UInt64} {size : UInt64} {chunks : List Bytes} (hkept : Kept f)
    (hok : f.storeBackupBlob quota account blob size chunks now = .ok f') : Kept f' := by
  simp only [Files.storeBackupBlob, bind_eq_ok] at hok
  obtain ⟨-, -, hattach⟩ := hok
  obtain ⟨hstored, hheld⟩ := hkept.storeChunks blob size chunks
  exact hstored.attach hheld hattach

theorem Kept.importBackup {b : Backup} {done : Bool} (hkept : Kept f)
    (hok : f.importBackup b = .ok (f', done)) : Kept f' := by
  obtain rfl | rfl := importBackup_ok hok
  · exact hkept
  · exact hkept.fewer ⟨rfl, rfl, fun _ hnamed => hnamed⟩

theorem Kept.releaseBackupIf (hkept : Kept f) (account : PubKey) (generation : UInt64) :
    Kept (f.releaseBackupIf account generation).1 := by
  unfold Files.releaseBackupIf
  split
  · exact hkept
  · exact hkept.dropBackup account

def swept (h : Host) (f : Files) (now : UInt64) : Files :=
  f.channelIds.foldl (sweepChannel h now) ((f.expireUploads now).expireFolds now)

theorem Kept.expireFolds (hkept : Kept f) (now : UInt64) : Kept (f.expireFolds now) := by
  let standing := f.foldedAttachment.filter fun a => stillFolded a.foldedAt now
  have hfewer : Fewer f { f with foldedAttachment := standing } := by
    refine ⟨rfl, rfl, fun blob hnamed => ?_⟩
    rw [named_iff] at hnamed ⊢
    obtain hattached | ⟨a, ha, hblob⟩ | hfed := hnamed
    · exact .inl hattached
    · exact .inr (.inl ⟨a, List.mem_of_mem_filter ha, hblob⟩)
    · exact .inr (.inr hfed)
  exact ((hkept.fewer hfewer).collectAll _).fewer ⟨rfl, rfl, fun _ hnamed => hnamed⟩

theorem Kept.sweepChannel (hkept : Kept f) (now : UInt64) (channel : Bytes32) :
    Kept (f.sweepChannel h now channel) := by
  have hpruned : Kept (f.pruneAttachments channel now) := by
    unfold pruneAttachments
    split
    · exact hkept
    · exact hkept.release _
  unfold Files.sweepChannel
  dsimp only
  split
  · exact (hpruned.putRows channel _).release _
  · exact hpruned.putRows channel _

theorem Kept.swept (hkept : Kept f) (now : UInt64) : Kept (f.swept h now) :=
  List.foldlRecOn _ _ ((hkept.expireUploads now).expireFolds now) fun _ hf channel _ =>
    hf.sweepChannel now channel

theorem Kept.perform (hkept : Kept f) (hok : f.perform C h op = .ok f') :
    Kept f' ∨ ∃ now, op = .sweep now := by
  cases op with
  | request channel w req => exact .inl (hkept.request hok)
  | succeed account successor issued sig now => exact .inl (hkept.succeed hok)
  | adopt channel incarnation origin windowSecs now => exact .inl (hkept.adopt hok)
  | forgetCopy channel => exact .inl (hkept.forgetCopy hok)
  | copied channel rows =>
    cases hok
    exact .inl (hkept.putRows channel rows)
  | fold channel into domain incarnation now => exact .inl (hkept.fold hok)
  | beginUpload quota uploader req now =>
    obtain ⟨⟨f₁, id⟩, hbegun, rfl⟩ := map_eq_ok.mp hok
    exact .inl (hkept.beginUpload hbegun)
  | beginFeedUpload uploader req now =>
    obtain ⟨⟨f₁, id⟩, hbegun, rfl⟩ := map_eq_ok.mp hok
    exact .inl (hkept.beginFeedUpload hbegun)
  | putChunk uploader id idx bytes => exact .inl (hkept.putChunk hok)
  | commitUpload uploader id claimed now =>
    obtain ⟨⟨f₁, done⟩, hcommitted, rfl⟩ := map_eq_ok.mp hok
    exact .inl (hkept.commitUpload hcommitted)
  | abortUpload uploader id => exact .inl (hkept.abortUpload hok)
  | attachBlob who channel blob expiresAfter now => exact .inl (hkept.attachBlob hok)
  | detachBlob who channel blob => exact .inl (hkept.detachBlob hok)
  | attachFeedBlob who account blob expiresAfter now => exact .inl (hkept.attachFeedBlob hok)
  | detachFeedBlob who account blob => exact .inl (hkept.detachFeedBlob hok)
  | storeBlob channel blob size chunks now =>
    cases hok
    exact .inl (hkept.storeBlob channel blob size chunks now)
  | writeBackup account device m now => exact .inl (hkept.writeBackup hok)
  | dropBackup account =>
    cases hok
    exact .inl (hkept.dropBackup account)
  | storeBackupBlob quota account blob size chunks now => exact .inl (hkept.storeBackupBlob hok)
  | importBackup b =>
    obtain ⟨⟨f₁, done⟩, himported, rfl⟩ := map_eq_ok.mp hok
    exact .inl (hkept.importBackup himported)
  | releaseCollectedOrphans account =>
    cases hok
    exact .inl (hkept.release _)
  | releaseBackupIf account generation =>
    cases hok
    exact .inl (hkept.releaseBackupIf account generation)
  | sweep now => exact .inr ⟨now, rfl⟩

theorem mem_channelIds :
    channel ∈ f.channelIds ↔ (f.rows channel).channel.isSome = true := by
  simp only [channelIds, List.mem_map, List.mem_filter, Prod.exists, exists_and_right,
    exists_eq_right, ExtTreeMap.mem_toList_iff_getElem?_eq_some, rows]
  cases hrows : f.channels[channel]? with
  | none => simp [Rows.empty]
  | some r => simp

theorem nodup_channelIds (f : Files) : f.channelIds.Nodup := by
  have hkeys : (f.channels.toList.map Prod.fst).Nodup := by
    rw [ExtTreeMap.map_fst_toList_eq_keys]
    exact ExtTreeMap.nodup_keys
  exact hkeys.sublist (List.filter_sublist.map Prod.fst)

theorem rows_release (f : Files) (which : Attachment → Bool) (channel : Bytes32) :
    (f.release which).rows channel = f.rows channel := by
  rw [rows, (release_sameNames f which).channels]
  rfl

theorem rows_sweepChannel {other : Bytes32} (hne : channel ≠ other) :
    (f.sweepChannel h now channel).rows other = f.rows other := by
  have hpruned : (f.pruneAttachments channel now).rows other = f.rows other := by
    unfold pruneAttachments
    split
    · rfl
    · exact rows_release f _ other
  unfold sweepChannel
  dsimp only
  split
  · rw [destroyFiles, rows_release, rows_putRows, if_neg hne, hpruned]
  · rw [rows_putRows, if_neg hne, hpruned]

theorem attachment_sweepChannel (hthere : (f.rows channel).channel.isSome = true) :
    (f.sweepChannel h now channel).attachment =
      f.attachment.filter fun a => a.channel != channel || f.survives h now a := by
  obtain ⟨c, hc⟩ := Option.isSome_iff_exists.mp hthere
  have hpruned : (f.pruneAttachments channel now).attachment =
      f.attachment.filter fun a => !(a.channel == channel && outlived c now a) := by
    simp only [pruneAttachments, hc]
    exact (release_sameNames f _).attachment
  unfold sweepChannel
  dsimp only
  by_cases hleft : ((f.rows channel).prune h now).abandoned now = true
  · rw [if_pos hleft, destroyFiles, (release_sameNames _ _).attachment]
    simp only [putRows, hpruned, List.filter_filter]
    refine List.filter_congr fun a _ => ?_
    by_cases hhere : a.channel = channel
    · simp [survives, hhere, hc, hleft]
    · have hother : (a.channel == channel) = false := by simpa using hhere
      simp [bne, hother]
  · rw [if_neg hleft]
    simp only [putRows, hpruned]
    refine List.filter_congr fun a _ => ?_
    by_cases hhere : a.channel = channel
    · simp [survives, hhere, hc, hleft]
    · have hother : (a.channel == channel) = false := by simpa using hhere
      simp [bne, hother]

theorem survives_congr {a : Attachment} (hrows : f'.rows a.channel = f.rows a.channel) :
    f'.survives h now a = f.survives h now a := by
  simp only [survives, hrows]

theorem attachment_sweepChannels {ids : List Bytes32} (hnodup : ids.Nodup)
    (hthere : ∀ c ∈ ids, (f.rows c).channel.isSome = true) :
    (ids.foldl (sweepChannel h now) f).attachment =
      f.attachment.filter fun a => !ids.contains a.channel || f.survives h now a := by
  induction ids generalizing f with
  | nil => simp
  | cons channel ids ih =>
    obtain ⟨hfresh, hnodup⟩ := List.nodup_cons.mp hnodup
    have hrows : ∀ other, other ≠ channel →
        (f.sweepChannel h now channel).rows other = f.rows other :=
      fun other hne => rows_sweepChannel (Ne.symm hne)
    have hlater : ∀ c ∈ ids, ((f.sweepChannel h now channel).rows c).channel.isSome = true := by
      intro c hc
      rw [hrows c fun heq => hfresh (heq ▸ hc)]
      exact hthere c (by simp [hc])
    rw [List.foldl_cons, ih hnodup hlater, attachment_sweepChannel (hthere channel (by simp)),
      List.filter_filter]
    refine List.filter_congr fun a _ => ?_
    by_cases hhere : a.channel = channel
    · simp [hhere, hfresh]
    · rw [survives_congr (hrows a.channel hhere)]
      simp [hhere]

section
variable (f : Files) (h : Host) (now : UInt64)

theorem sweepChannel_others (channel : Bytes32) :
    (f.sweepChannel h now channel).feedAttachment = f.feedAttachment ∧
      (f.sweepChannel h now channel).foldedAttachment = f.foldedAttachment := by
  have hpruned : (f.pruneAttachments channel now).feedAttachment = f.feedAttachment ∧
      (f.pruneAttachments channel now).foldedAttachment = f.foldedAttachment := by
    unfold pruneAttachments
    split
    · exact ⟨rfl, rfl⟩
    · exact ⟨(release_sameNames f _).feedAttachment, (release_sameNames f _).foldedAttachment⟩
  unfold sweepChannel
  dsimp only
  split
  · rw [destroyFiles, (release_sameNames _ _).feedAttachment,
      (release_sameNames _ _).foldedAttachment]
    exact hpruned
  · exact hpruned

theorem sweepChannels_others (ids : List Bytes32) :
    (ids.foldl (sweepChannel h now) f).feedAttachment = f.feedAttachment ∧
      (ids.foldl (sweepChannel h now) f).foldedAttachment = f.foldedAttachment := by
  induction ids generalizing f with
  | nil => exact ⟨rfl, rfl⟩
  | cons channel ids ih =>
    obtain ⟨hfeed, hfolded⟩ := ih (f.sweepChannel h now channel)
    obtain ⟨hfeed', hfolded'⟩ := sweepChannel_others f h now channel
    exact ⟨hfeed.trans hfeed', hfolded.trans hfolded'⟩

theorem expireFolds_sameNames :
    (f.expireFolds now).channels = f.channels ∧
      (f.expireFolds now).attachment = f.attachment ∧
      (f.expireFolds now).feedAttachment = f.feedAttachment ∧
      (f.expireFolds now).foldedAttachment =
        f.foldedAttachment.filter fun a => stillFolded a.foldedAt now := by
  let standing := f.foldedAttachment.filter fun a => stillFolded a.foldedAt now
  let expired := (f.foldedAttachment.filter fun a => !stillFolded a.foldedAt now).map (·.blob)
  have hsame := collectAll_sameNames { f with foldedAttachment := standing } expired
  exact ⟨hsame.channels, hsame.attachment, hsame.feedAttachment, hsame.foldedAttachment⟩

theorem swept_names :
    (f.swept h now).attachment = f.attachment.filter (f.survives h now) ∧
      (f.swept h now).feedAttachment = f.feedAttachment ∧
      (f.swept h now).foldedAttachment =
        f.foldedAttachment.filter fun a => stillFolded a.foldedAt now := by
  obtain ⟨uploads, chunks, hexpired⟩ := expireUploads_eq f now
  obtain ⟨hchannels, hattachment, hfeed, hfolded⟩ := expireFolds_sameNames (f.expireUploads now) now
  let f₁ := (f.expireUploads now).expireFolds now
  have hchannels : f₁.channels = f.channels := by rw [hchannels, hexpired]
  have hrows : ∀ c, f₁.rows c = f.rows c := by
    intro c
    rw [rows, hchannels]
    rfl
  have hattached : (f.swept h now).attachment = f.attachment.filter (f.survives h now) := by
    have hloop : (f.swept h now).attachment = f₁.attachment.filter fun a =>
        !f.channelIds.contains a.channel || f₁.survives h now a :=
      attachment_sweepChannels (nodup_channelIds f) fun c hc => by
        rw [hrows]
        exact mem_channelIds.mp hc
    rw [hloop, hattachment, hexpired]
    refine List.filter_congr fun a _ => ?_
    rw [survives_congr (hrows a.channel)]
    by_cases hthere : a.channel ∈ f.channelIds
    · simp [hthere]
    · have hnone : (f.rows a.channel).channel = none := by
        rw [mem_channelIds] at hthere
        simpa using hthere
      simp [survives, hnone]
  obtain ⟨hfeeds, hfolds⟩ := sweepChannels_others f₁ h now f.channelIds
  refine ⟨hattached, ?_, ?_⟩
  · rw [swept, hfeeds, hfeed, hexpired]
  · rw [swept, hfolds, hfolded, hexpired]

end

/-- Before its last two deletions a sweep counts what a standing fold kept as leaked exactly
where nothing shelters it. -/
theorem sheltered_iff : Sheltered h f (.sweep now) ↔
    ∀ a ∈ (f.swept h now).foldedAttachment, (f.swept h now).leaked a.blob = false := by
  obtain ⟨hattachment, hfeed, hfolded⟩ := swept_names f h now
  have hleaked : ∀ blob, (f.swept h now).leaked blob = false ↔
      f.feedAttachment.any (·.blob == blob) = true ∨
        f.attachment.any (fun x => x.blob == blob && f.survives h now x) = true := by
    intro blob
    simp only [leaked, hattachment, hfeed, List.any_filter, Bool.and_eq_false_iff,
      Bool.not_eq_false', Bool.and_comm]
    exact or_comm
  simp only [Sheltered, hleaked, hfolded, List.mem_filter, and_imp]

theorem Kept.sweep_kept (hkept : Kept f) (hsheltered : Sheltered h f (.sweep now)) :
    Kept (f.sweep h now) := by
  have hstays : ∀ blob, (f.swept h now).named blob = true →
      (f.swept h now).leaked blob = false := by
    intro blob hnamed
    obtain ⟨a, ha, rfl⟩ | ⟨a, ha, rfl⟩ | ⟨a, ha, rfl⟩ := named_iff.mp hnamed
    · have hattached : (f.swept h now).attachment.any (·.blob == a.blob) = true :=
        List.any_eq_true.mpr ⟨a, ha, by simp⟩
      simp only [leaked, hattached, Bool.not_true, Bool.false_and]
    · exact sheltered_iff.mp hsheltered a ha
    · have hfed : (f.swept h now).feedAttachment.any (·.blob == a.blob) = true :=
        List.any_eq_true.mpr ⟨a, ha, by simp⟩
      simp only [leaked, hfed, Bool.not_true, Bool.and_false]
  exact (hkept.swept now).dropBlobs hstays

theorem Kept.sweep_lives (hkept : Kept f) :
    (f.sweep h now).Lives ↔ Sheltered h f (.sweep now) := by
  constructor
  · intro hlives
    refine sheltered_iff.mpr fun a ha => ?_
    have hstands : stillFolded a.foldedAt now = true := by
      rw [(swept_names f h now).2.2] at ha
      simpa using (List.mem_filter.mp ha).2
    have hnamed : (f.sweep h now).namedAt now a.blob = true := by
      have hfold : (f.sweep h now).foldedAttachment.any
          (fun x => x.blob == a.blob && stillFolded x.foldedAt now) = true :=
        List.any_eq_true.mpr ⟨a, ha, by simp [hstands]⟩
      simp [namedAt, hfold]
    obtain ⟨row, hrow, hid, -⟩ := hlives now a.blob hnamed
    have hstays : (!(f.swept h now).leaked row.id) = true := (List.mem_filter.mp hrow).2
    rw [hid, Bool.not_eq_true'] at hstays
    exact hstays
  · intro hsheltered
    exact (hkept.sweep_kept hsheltered).lives

theorem sweep_clean (f : Files) (h : Host) (now : UInt64) : (f.sweep h now).Clean now := by
  have hnamed : ∀ blob, (!(f.swept h now).leaked blob) = true →
      (f.sweep h now).namedAt now blob = true := by
    intro blob hstays
    have hpoints : (f.swept h now).attachment.any (·.blob == blob) = true ∨
        (f.swept h now).feedAttachment.any (·.blob == blob) = true := by
      simpa only [leaked, Bool.not_eq_true', Bool.and_eq_false_iff, Bool.not_eq_false'] using hstays
    simp only [namedAt, Bool.or_eq_true]
    exact hpoints.imp_left Or.inl
  refine ⟨?_, ?_⟩
  · intro row hrow
    exact hnamed row.id (List.mem_filter.mp hrow).2
  · intro c hc
    exact hnamed c.blob (List.mem_filter.mp hc).2

theorem Kept.step (hkept : Kept f) (hsheltered : Sheltered h f op) :
    Kept (f.step C h op) := by
  unfold Files.step
  split
  · rename_i f' hok
    cases hkept.perform hok with
    | inl hkept' => exact hkept'
    | inr hsweep =>
      obtain ⟨now, rfl⟩ := hsweep
      cases hok
      exact hkept.sweep_kept hsheltered
  · exact hkept

theorem Kept.lived_iff (hkept : Kept f) :
    Lived C h f op ↔ Sheltered h f op := by
  by_cases hsweep : ∃ now, op = .sweep now
  · obtain ⟨now, rfl⟩ := hsweep
    have hclean : ∀ t, Filing.sweep now = .sweep t → (f.step C h (.sweep now)).Clean t := by
      intro t heq
      cases heq
      exact sweep_clean f h now
    exact (and_iff_left hclean).trans hkept.sweep_lives
  · have hsheltered : Sheltered h f op := by
      cases op with
      | sweep now => exact absurd ⟨now, rfl⟩ hsweep
      | _ => trivial
    have hlives : (f.step C h op).Lives := (hkept.step hsheltered).lives
    exact iff_of_true ⟨hlives, fun now heq => absurd ⟨now, heq⟩ hsweep⟩ hsheltered

/-- Over every run a blob is held while something names it, and after a sweep only then,
exactly where every sweep finds sheltered what standing folds kept. -/
theorem blobs_live (C : Crypto) (h : Host) (ops : List Filing) :
    Each (Lived C h) (step C h) empty ops ↔ Each (Sheltered h) (step C h) empty ops := by
  have hall : Each (fun _ _ => True) (step C h) empty ops := each_of_mem (by simp) _
  refine each_congr (I := Kept) ?_ ?_ kept_empty hall
  · intro f op hkept _ hsheltered
    exact hkept.step hsheltered
  · intro f op hkept _
    exact hkept.lived_iff

/-- Two accounts have a direct message, one of them attaches a file, and its exchange folds the
message into another's. -/
def foldedRun : List Filing :=
  let request := ⟨.priv, 86400, 0, "", "", 0, [⟨5, .member⟩],
    [Paired.act Event.created 7 7 (constitution Paired.flatDigest .priv 86400 0 "" "") 0,
      Paired.act Event.added 5 7 [Role.member.toByte] 1]⟩
  [.request 0 (.clear 10) (.create 7 (Paired.flatDigest.publicKey 8) request),
    .beginUpload 1000 7 ⟨0, 1, 1, 0⟩ 11, .putChunk 7 1 0 [9], .commitUpload 7 1 0 12,
    .fold 0 2 "" 1 20]

def foldedFiles : Files := run (step Paired.flatDigest Paired.exchange) empty foldedRun

/-- The sweep after a fold deletes the file, which its members may fetch for a week yet. -/
theorem folded_file_swept : ¬Each (Lived Paired.flatDigest Paired.exchange)
    (step Paired.flatDigest Paired.exchange) empty (foldedRun ++ [.sweep 21]) := by
  intro hlived
  have hlives : (foldedFiles.sweep Paired.exchange 21).Lives := (each_append.mp hlived).2.1.1
  have hnamed : (foldedFiles.sweep Paired.exchange 21).namedAt 21 0 = true := by decide +kernel
  have hnone : (foldedFiles.sweep Paired.exchange 21).blob.isEmpty = true := by decide +kernel
  obtain ⟨row, hrow, -⟩ := hlives 21 0 hnamed
  rw [List.isEmpty_iff.mp hnone] at hrow
  cases hrow

end Files
end Sqex.Exchange
