import Sqex.Exchange.BlobLives

/-! A chunk that is held is what it was for as long as an attachment stands: storing leaves a
chunk that is there, and collecting leaves a blob that something names. -/
namespace Sqex.Exchange
open Std Runs Tables
variable {channel other : Bytes32} {account : PubKey} {now : UInt64}

namespace Files
variable {C : Crypto} {h : Host} {f f' f₁ f₂ : Files} {blob : Bytes32} {i : Nat}

def chunkAt (f : Files) (blob : Bytes32) (i : Nat) : Option Bytes :=
  (f.blobChunk.find? fun c => c.blob == blob && c.idx == i).map (·.bytes)

def standing (f : Files) (blob : Bytes32) : Bool :=
  f.attachment.any (·.blob == blob) || f.feedAttachment.any (·.blob == blob)

theorem standing_iff : f.standing blob = true ↔
    (∃ a ∈ f.attachment, a.blob = blob) ∨ ∃ a ∈ f.feedAttachment, a.blob = blob := by
  simp [standing]

theorem named_of_standing (hstanding : f.standing blob = true) : f.named blob = true := by
  rw [standing_iff] at hstanding
  cases hstanding with
  | inl hattached => exact named_iff.mpr (.inl hattached)
  | inr hfed => exact named_iff.mpr (.inr (.inr hfed))

def MoreChunks (blob : Bytes32) (f f' : Files) : Prop :=
  ∀ i b, f.chunkAt blob i = some b → f'.chunkAt blob i = some b

def SameChunks (blob : Bytes32) (f f' : Files) : Prop :=
  f'.standing blob = true → f.standing blob = true ∧ ∀ i, f'.chunkAt blob i = f.chunkAt blob i

section Same

theorem same_of_eq (hblob : f'.blobChunk = f.blobChunk)
    (hstanding : f'.standing blob = true → f.standing blob = true) : SameChunks blob f f' :=
  fun h => ⟨hstanding h, fun i => by rw [chunkAt, hblob, chunkAt]⟩

theorem SameChunks.refl (blob : Bytes32) (f : Files) : SameChunks blob f f :=
  fun h => ⟨h, fun _ => rfl⟩

theorem SameChunks.trans (h : SameChunks blob f f₁) (h' : SameChunks blob f₁ f₂) :
    SameChunks blob f f₂ := by
  intro hstanding
  obtain ⟨hmiddle, hsame'⟩ := h' hstanding
  obtain ⟨hfirst, hsame⟩ := h hmiddle
  exact ⟨hfirst, fun i => (hsame' i).trans (hsame i)⟩

theorem chunkAt_dropBlobs {gone : Bytes32 → Bool} (hgone : gone blob = false) :
    (f.dropBlobs gone).chunkAt blob i = f.chunkAt blob i := by
  rw [chunkAt, dropBlobs, List.find?_filter, chunkAt]
  congr 2
  funext c
  by_cases hblob : c.blob = blob
  · simp [hblob, hgone, beq_eq_decide]
  · simp [hblob]

theorem same_dropBlobs {gone : Bytes32 → Bool}
    (hgone : f.standing blob = true → gone blob = false) :
    SameChunks blob f (f.dropBlobs gone) :=
  fun h => ⟨h, fun _ => chunkAt_dropBlobs (hgone h)⟩

theorem same_collect (other : Bytes32) : SameChunks blob f (f.collectBlob other) := by
  unfold collectBlob
  split
  · exact SameChunks.refl blob f
  · rename_i hnamed
    refine same_dropBlobs fun hstanding => ?_
    have hne : blob ≠ other := by
      intro heq
      exact hnamed (heq ▸ named_of_standing hstanding)
    simpa using hne

theorem same_collectAll (blobs : List Bytes32) : SameChunks blob f (blobs.foldl collectBlob f) :=
  List.foldlRecOn blobs _ (SameChunks.refl blob f) fun _ hg other _ => hg.trans (same_collect other)

theorem same_release (which : Attachment → Bool) : SameChunks blob f (f.release which) := by
  have hfewer : SameChunks blob f
      { f with attachment := f.attachment.filter fun a => !which a } := by
    refine same_of_eq rfl fun hstanding => ?_
    rw [standing_iff] at hstanding ⊢
    obtain ⟨a, ha, hblob⟩ | hfed := hstanding
    · exact .inl ⟨a, List.mem_of_mem_filter ha, hblob⟩
    · exact .inr hfed
  exact hfewer.trans (same_collectAll _)

theorem same_putRows (channel : Bytes32) (r : Rows) : SameChunks blob f (f.putRows channel r) :=
  same_of_eq rfl id

theorem same_expireUploads (now : UInt64) : SameChunks blob f (f.expireUploads now) := by
  obtain ⟨uploads, chunks, hexpired⟩ := expireUploads_eq f now
  rw [hexpired]
  exact same_of_eq rfl id

theorem same_request {w : Around} {req : Request} (hok : f.request C h channel w req = .ok f') :
    SameChunks blob f f' := by
  obtain ⟨r, es, -, rfl⟩ := request_ok hok
  have hdone : SameChunks blob f
      { f.putRows channel r with retired := f.retires C channel req } := same_of_eq rfl id
  dsimp only
  split
  · exact hdone.trans (same_release _)
  · exact hdone

theorem same_succeed {successor : PubKey} {issued : UInt64} {sig : Bytes64}
    (hok : f.succeed C h account successor issued sig now = .ok f') :
    SameChunks blob f f' := by
  refine succeed_induction hok (fun _ => ?_) fun g channel r _ hg _ =>
    hg.trans (same_putRows channel r)
  exact same_of_eq rfl id

theorem same_adopt {incarnation : Bytes32} {origin : PubKey} {windowSecs : UInt32}
    (hok : f.adopt channel incarnation origin windowSecs now = .ok f') :
    SameChunks blob f f' := by
  obtain ⟨r, -, hdone⟩ := adopt_ok hok
  cases hdone with
  | inl hput =>
    rw [hput]
    exact same_putRows channel r
  | inr hdestroyed =>
    rw [hdestroyed]
    exact (same_putRows channel r).trans (same_release _)

theorem same_fold {into : PubKey} {domain : String} {incarnation : Bytes32}
    (hok : f.fold C channel into domain incarnation now = .ok f') :
    SameChunks blob f f' := by
  obtain ⟨record, rfl⟩ := fold_ok hok
  have hrecorded : SameChunks blob f (f.recordFold record) := same_of_eq rfl id
  exact (hrecorded.trans (same_putRows channel _)).trans (same_release _)

theorem same_detachFeedBlob {who : PubKey} (hok : f.detachFeedBlob who account other = .ok f') :
    SameChunks blob f f' := by
  rw [detachFeedBlob_ok hok]
  have hfewer : SameChunks blob f { f with
      feedAttachment := f.feedAttachment.filter fun a =>
        !(a.account == account && a.blob == other) } := by
    refine same_of_eq rfl fun hstanding => ?_
    rw [standing_iff] at hstanding ⊢
    obtain hattached | ⟨a, ha, hblob⟩ := hstanding
    · exact .inl hattached
    · exact .inr ⟨a, List.mem_of_mem_filter ha, hblob⟩
  exact hfewer.trans (same_collect other)

theorem same_sweep (now : UInt64) : SameChunks blob f (f.sweep h now) := by
  have hfolds : ∀ f : Files, SameChunks blob f (f.expireFolds now) := by
    intro f
    have hstanding : SameChunks blob f { f with
        foldedAttachment := f.foldedAttachment.filter fun a => stillFolded a.foldedAt now } :=
      same_of_eq rfl id
    exact (hstanding.trans (same_collectAll _)).trans (same_of_eq rfl id)
  have hchannel : ∀ (f : Files) (channel : Bytes32),
      SameChunks blob f (f.sweepChannel h now channel) := by
    intro f channel
    have hpruned : SameChunks blob f (f.pruneAttachments channel now) := by
      unfold pruneAttachments
      split
      · exact SameChunks.refl blob f
      · exact same_release _
    unfold sweepChannel
    dsimp only
    split
    · exact (hpruned.trans (same_putRows channel _)).trans (same_release _)
    · exact hpruned.trans (same_putRows channel _)
  have hswept : SameChunks blob f (f.channelIds.foldl (sweepChannel h now)
      ((f.expireUploads now).expireFolds now)) :=
    List.foldlRecOn _ _ ((same_expireUploads now).trans (hfolds _)) fun g hg channel _ =>
      hg.trans (hchannel g channel)
  refine hswept.trans (same_dropBlobs fun hstanding => ?_)
  rw [leaked, Bool.and_eq_false_iff, Bool.not_eq_false', Bool.not_eq_false']
  simpa [standing] using hstanding

end Same

section More

theorem more_of_eq (hblob : f'.blobChunk = f.blobChunk) : MoreChunks blob f f' :=
  fun i b hheld => by rw [chunkAt, hblob]; exact hheld

theorem MoreChunks.refl (blob : Bytes32) (f : Files) : MoreChunks blob f f := fun _ _ h => h

theorem MoreChunks.trans (h : MoreChunks blob f f₁) (h' : MoreChunks blob f₁ f₂) :
    MoreChunks blob f f₂ := fun i b hheld => h' i b (h i b hheld)

theorem find?_storeChunk {t : List BlobChunk} {chunk : Bytes × Nat} {c : BlobChunk}
    (hc : t.find? (fun c => c.blob == blob && c.idx == i) = some c) :
    (storeChunk other t chunk).find? (fun c => c.blob == blob && c.idx == i) = some c := by
  unfold storeChunk insertOrIgnore
  split
  · exact hc
  · rename_i hfresh
    rw [List.find?_cons_of_neg]
    · exact hc
    · intro hkey
      simp only [Bool.and_eq_true, beq_iff_eq] at hkey
      have hmem := List.mem_of_find?_eq_some hc
      have hsame := List.find?_some hc
      refine hfresh (List.any_eq_true.mpr ⟨c, hmem, ?_⟩)
      rw [hkey.1, hkey.2]
      exact hsame

theorem find?_storeAll {t : List BlobChunk} {c : BlobChunk} (chunks : List (Bytes × Nat))
    (hc : t.find? (fun c => c.blob == blob && c.idx == i) = some c) :
    (chunks.foldl (storeChunk other) t).find? (fun c => c.blob == blob && c.idx == i) =
      some c := by
  induction chunks generalizing t with
  | nil => exact hc
  | cons chunk chunks ih => exact ih (find?_storeChunk hc)

theorem more_storeChunks (other : Bytes32) (size : UInt64) (chunks : List Bytes) :
    MoreChunks blob f (f.storeChunks other size chunks) := by
  intro i b hheld
  obtain ⟨c, hc, hbytes⟩ := Option.map_eq_some_iff.mp hheld
  exact Option.map_eq_some_iff.mpr ⟨c, find?_storeAll chunks.zipIdx hc, hbytes⟩

theorem more_attach {who : PubKey} {expiresAfter : UInt32}
    (hok : f.attach channel other who expiresAfter now = .ok f') :
    MoreChunks blob f f' := by
  rw [attach_ok hok]
  exact more_of_eq rfl

theorem more_commitUpload {uploader : PubKey} {id : UInt64} {claimed : Bytes32} {done : Bool}
    (hok : f.commitUpload C uploader id claimed now = .ok (f', done)) :
    MoreChunks blob f f' := by
  obtain rfl | ⟨u, chunks, f₁, rfl, hattach⟩ := commitUpload_ok hok
  · exact MoreChunks.refl blob f'
  · have hstored := @more_storeChunks f blob claimed u.size chunks
    have hdropped : MoreChunks blob f₁ (f₁.dropUpload id) := more_of_eq rfl
    refine MoreChunks.trans ?_ hdropped
    cases hattach with
    | inl hfeed =>
      rw [← hfeed]
      exact hstored.trans (more_of_eq rfl)
    | inr hchannel => exact hstored.trans (more_attach hchannel)

theorem more_holdNamed {device : PubKey} {held blobs : List Bytes32}
    (hok : holdNamed account device held now f blobs = .ok f') : MoreChunks blob f f' :=
  holdNamed_induction hok (MoreChunks.refl blob f) fun _ _ _ _ hg _ hattach =>
    hg.trans (more_attach hattach)

end More

theorem chunkAt_perform {op : Filing} (hok : f.perform C h op = .ok f')
    (hstanding : f'.standing blob = true) : MoreChunks blob f f' := by
  have hsame : SameChunks blob f f' → MoreChunks blob f f' :=
    fun hsame i b hheld => ((hsame hstanding).2 i).trans hheld
  have hthen : ∀ {f₁ : Files}, MoreChunks blob f f₁ → SameChunks blob f₁ f' →
      MoreChunks blob f f' :=
    fun hmore hsame i b hheld => ((hsame hstanding).2 i).trans (hmore i b hheld)
  cases op with
  | request channel w req => exact hsame (same_request hok)
  | succeed account successor issued sig now => exact hsame (same_succeed hok)
  | adopt channel incarnation origin windowSecs now => exact hsame (same_adopt hok)
  | forgetCopy channel =>
    rw [forgetCopy_ok hok] at hsame ⊢
    exact hsame ((same_putRows channel _).trans (same_release _))
  | copied channel rows =>
    cases hok
    exact hsame (same_putRows channel rows)
  | fold channel into domain incarnation now => exact hsame (same_fold hok)
  | beginUpload quota uploader req now =>
    obtain ⟨⟨f₁, number⟩, hbegun, rfl⟩ := map_eq_ok.mp hok
    rw [beginUpload_ok hbegun] at hsame ⊢
    exact hsame ((same_expireUploads now).trans (same_of_eq rfl id))
  | beginFeedUpload uploader req now =>
    obtain ⟨⟨f₁, number⟩, hbegun, rfl⟩ := map_eq_ok.mp hok
    rw [beginFeedUpload_ok hbegun] at hsame ⊢
    exact hsame ((same_expireUploads now).trans (same_of_eq rfl id))
  | putChunk uploader id idx bytes =>
    simp only [perform, putChunk, bind_eq_ok, pure_eq_ok] at hok
    obtain ⟨u, -, -, -, rfl⟩ := hok
    exact more_of_eq rfl
  | commitUpload uploader id claimed now =>
    obtain ⟨⟨f₁, done⟩, hcommitted, rfl⟩ := map_eq_ok.mp hok
    exact more_commitUpload hcommitted
  | abortUpload uploader id =>
    simp only [perform, abortUpload, bind_eq_ok, pure_eq_ok] at hok
    obtain ⟨u, -, rfl⟩ := hok
    exact more_of_eq rfl
  | attachBlob who channel other expiresAfter now => exact more_attach (attachBlob_ok hok).2.2
  | detachBlob who channel other =>
    rw [detachBlob_ok hok] at hsame ⊢
    exact hsame (same_release _)
  | attachFeedBlob who account other expiresAfter now =>
    rw [(attachFeedBlob_ok hok).2.2]
    exact more_of_eq rfl
  | detachFeedBlob who account other => exact hsame (same_detachFeedBlob hok)
  | storeBlob channel other size chunks now =>
    cases hok
    exact (more_storeChunks other size chunks).trans (more_of_eq rfl)
  | writeBackup account device m now =>
    obtain ⟨f₁, b, hheld, rfl⟩ := writeBackup_ok hok
    exact hthen (more_holdNamed hheld) ((same_release _).trans (same_of_eq rfl id))
  | dropBackup account =>
    cases hok
    exact hsame ((same_release _).trans (same_of_eq rfl id))
  | storeBackupBlob quota account other size chunks now =>
    simp only [perform, storeBackupBlob, bind_eq_ok] at hok
    obtain ⟨-, -, hattach⟩ := hok
    exact (more_storeChunks other size chunks).trans (more_attach hattach)
  | importBackup b =>
    obtain ⟨⟨f₁, done⟩, himported, rfl⟩ := map_eq_ok.mp hok
    cases importBackup_ok himported with
    | inl hnone =>
      dsimp only at hnone ⊢
      rw [hnone]
      exact MoreChunks.refl blob f
    | inr hadded =>
      dsimp only at hadded ⊢
      rw [hadded]
      exact more_of_eq rfl
  | releaseCollectedOrphans account =>
    cases hok
    exact hsame (same_release _)
  | releaseBackupIf account generation =>
    cases hok
    unfold releaseBackupIf at hsame ⊢
    split
    · exact MoreChunks.refl blob f
    · rename_i hmine
      rw [if_neg hmine] at hsame
      exact hsame ((same_release _).trans (same_of_eq rfl id))
  | sweep now =>
    cases hok
    exact hsame (same_sweep now)

theorem chunkAt_step {op : Filing} (hstanding : (f.step C h op).standing blob = true) :
    MoreChunks blob f (f.step C h op) := by
  unfold step at hstanding ⊢
  cases hperform : f.perform C h op with
  | error e => exact MoreChunks.refl blob f
  | ok f' =>
    rw [hperform] at hstanding
    exact chunkAt_perform hperform hstanding

end Files
end Sqex.Exchange
