import Sqex.Exchange.FileOps

/-! The operations on files as the steps of a run, and what each one did where it went
through. -/
namespace Sqex.Exchange
open Std Tables
variable {expiresAfter : UInt32} {id : UInt64}

inductive Filing where
  | request (channel : Bytes32) (w : Around) (req : Request)
  | succeed (account successor : PubKey) (issued : UInt64) (sig : Bytes64) (now : UInt64)
  | adopt (channel incarnation : Bytes32) (origin : PubKey) (windowSecs : UInt32) (now : UInt64)
  | forgetCopy (channel : Bytes32)
  /-- What a copy takes from its origin into a channel's own tables: entries, a shape, a move. -/
  | copied (channel : Bytes32) (rows : Rows)
  | fold (channel : Bytes32) (into : PubKey) (domain : String) (incarnation : Bytes32)
      (now : UInt64)
  | beginUpload (quota : UInt64) (uploader : PubKey) (req : Begin) (now : UInt64)
  | beginFeedUpload (uploader : PubKey) (req : Begin) (now : UInt64)
  | putChunk (uploader : PubKey) (id : UInt64) (idx : UInt32) (bytes : Bytes)
  | commitUpload (uploader : PubKey) (id : UInt64) (claimed : Bytes32) (now : UInt64)
  | abortUpload (uploader : PubKey) (id : UInt64)
  | attachBlob (who : PubKey) (channel blob : Bytes32) (expiresAfter : UInt32) (now : UInt64)
  | detachBlob (who : PubKey) (channel blob : Bytes32)
  | attachFeedBlob (who account : PubKey) (blob : Bytes32) (expiresAfter : UInt32) (now : UInt64)
  | detachFeedBlob (who account : PubKey) (blob : Bytes32)
  | storeBlob (channel blob : Bytes32) (size : UInt64) (chunks : List Bytes) (now : UInt64)
  | writeBackup (account device : PubKey) (m : Manifest) (now : UInt64)
  | dropBackup (account : PubKey)
  | storeBackupBlob (quota : UInt64) (account : PubKey) (blob : Bytes32) (size : UInt64)
      (chunks : List Bytes) (now : UInt64)
  | importBackup (b : Backup)
  | releaseCollectedOrphans (account : PubKey)
  | releaseBackupIf (account : PubKey) (generation : UInt64)
  | sweep (now : UInt64)

namespace Files

def perform (C : Crypto) (h : Host) (f : Files) : Filing → Except ChannelError Files
  | .request channel w req => f.request C h channel w req
  | .succeed account successor issued sig now => f.succeed C h account successor issued sig now
  | .adopt channel incarnation origin windowSecs now =>
    f.adopt channel incarnation origin windowSecs now
  | .forgetCopy channel => f.forgetCopy channel
  | .copied channel rows => .ok (f.putRows channel rows)
  | .fold channel into domain incarnation now => f.fold C channel into domain incarnation now
  | .beginUpload quota uploader req now => (f.beginUpload quota uploader req now).map Prod.fst
  | .beginFeedUpload uploader req now => (f.beginFeedUpload uploader req now).map Prod.fst
  | .putChunk uploader id idx bytes => f.putChunk uploader id idx bytes
  | .commitUpload uploader id claimed now => (f.commitUpload C uploader id claimed now).map Prod.fst
  | .abortUpload uploader id => f.abortUpload uploader id
  | .attachBlob who channel blob expiresAfter now => f.attachBlob who channel blob expiresAfter now
  | .detachBlob who channel blob => f.detachBlob who channel blob
  | .attachFeedBlob who account blob expiresAfter now =>
    f.attachFeedBlob who account blob expiresAfter now
  | .detachFeedBlob who account blob => f.detachFeedBlob who account blob
  | .storeBlob channel blob size chunks now => .ok (f.storeBlob channel blob size chunks now)
  | .writeBackup account device m now => f.writeBackup account device m now
  | .dropBackup account => .ok (f.dropBackup account)
  | .storeBackupBlob quota account blob size chunks now =>
    f.storeBackupBlob quota account blob size chunks now
  | .importBackup b => (f.importBackup b).map Prod.fst
  | .releaseCollectedOrphans account => .ok (f.releaseCollectedOrphans account)
  | .releaseBackupIf account generation => .ok (f.releaseBackupIf account generation).1
  | .sweep now => .ok (f.sweep h now)

def step (C : Crypto) (h : Host) (f : Files) (op : Filing) : Files :=
  match f.perform C h op with
  | .ok f' => f'
  | .error _ => f

theorem perform_of_isOk {C : Crypto} {h : Host} {f : Files} {op : Filing}
    (hok : (f.perform C h op).isOk = true) : f.perform C h op = .ok (f.step C h op) := by
  unfold step
  cases hperform : f.perform C h op with
  | error e =>
    rw [hperform] at hok
    cases hok
  | ok f' => rfl

structure SameNames (f f' : Files) : Prop where
  channels : f'.channels = f.channels
  folded : f'.folded = f.folded
  attachment : f'.attachment = f.attachment
  feedAttachment : f'.feedAttachment = f.feedAttachment
  foldedAttachment : f'.foldedAttachment = f.foldedAttachment
  succeeded : f'.succeeded = f.succeeded

theorem collectBlob_sameNames (f : Files) (blob : Bytes32) : SameNames f (f.collectBlob blob) := by
  unfold collectBlob
  split
  · exact ⟨rfl, rfl, rfl, rfl, rfl, rfl⟩
  · exact ⟨rfl, rfl, rfl, rfl, rfl, rfl⟩

theorem collectAll_sameNames (f : Files) (blobs : List Bytes32) :
    SameNames f (blobs.foldl collectBlob f) := by
  induction blobs generalizing f with
  | nil => exact ⟨rfl, rfl, rfl, rfl, rfl, rfl⟩
  | cons blob blobs ih =>
    have hfirst := collectBlob_sameNames f blob
    have hrest := ih (f.collectBlob blob)
    exact ⟨hrest.channels.trans hfirst.channels, hrest.folded.trans hfirst.folded,
      hrest.attachment.trans hfirst.attachment,
      hrest.feedAttachment.trans hfirst.feedAttachment,
      hrest.foldedAttachment.trans hfirst.foldedAttachment,
      hrest.succeeded.trans hfirst.succeeded⟩

theorem release_sameNames (f : Files) (which : Attachment → Bool) :
    SameNames { f with attachment := f.attachment.filter fun a => !which a } (f.release which) :=
  collectAll_sameNames _ _

section Returned
variable {C : Crypto} {h : Host} {f f' : Files} {channel blob : Bytes32} {who account : PubKey}
  {now : UInt64}

theorem attach_ok (hok : f.attach channel blob who expiresAfter now = .ok f') :
    f' = { f with
      attachment := upsert (fun a => a.channel == channel && a.blob == blob)
        (fun a => { a with attached := now, expiresAfter })
        ⟨channel, blob, now, expiresAfter, who⟩ f.attachment } := by
  simp only [attach, bind_eq_ok, pure_eq_ok] at hok
  obtain ⟨-, -, hok⟩ := hok
  exact hok.symm

theorem request_ok {w : Around} {req : Request} (hok : f.request C h channel w req = .ok f') :
    ∃ r es, (f.rows channel).perform C h channel (f.around channel w) req = .ok (r, es) ∧
      f' =
        let done := { f.putRows channel r with retired := f.retires C channel req }
        if (f.rows channel).destroys C h channel w req then done.destroyFiles channel else done := by
  simp only [request, bind_eq_ok, Prod.exists, pure_eq_ok] at hok
  obtain ⟨r, es, hperform, rfl⟩ := hok
  exact ⟨r, es, hperform, rfl⟩

theorem adopt_ok {incarnation : Bytes32} {origin : PubKey} {windowSecs : UInt32}
    (hok : f.adopt channel incarnation origin windowSecs now = .ok f') :
    ∃ r, (f.rows channel).adopt incarnation origin windowSecs now = .ok r ∧
      (f' = f.putRows channel r ∨ f' = (f.putRows channel r).destroyFiles channel) := by
  simp only [adopt, bind_eq_ok, pure_eq_ok] at hok
  obtain ⟨r, hadopt, rfl⟩ := hok
  refine ⟨r, hadopt, ?_⟩
  split
  · exact .inr rfl
  · exact .inl rfl

theorem forgetCopy_ok (hok : f.forgetCopy channel = .ok f') :
    f' = (f.putRows channel { (f.rows channel).destroy with replicated := none }).destroyFiles
      channel := by
  simp only [forgetCopy, bind_eq_ok, pure_eq_ok] at hok
  obtain ⟨-, -, rfl⟩ := hok
  rfl

theorem fold_ok {into : PubKey} {domain : String} {incarnation : Bytes32}
    (hok : f.fold C channel into domain incarnation now = .ok f') : ∃ record,
      f' = ((f.recordFold record).putRows channel (f.rows channel).destroy).destroyFiles
        channel := by
  simp only [fold, bind_eq_ok] at hok
  obtain ⟨-, -, c, -, -, -, -, -, hok⟩ := hok
  split at hok
  · exact ⟨_, (pure_eq_ok.mp hok).symm⟩
  · cases hok

theorem beginUpload_ok {quota : UInt64} {req : Begin}
    (hok : f.beginUpload quota who req now = .ok (f', id)) :
    f' = ((f.expireUploads now).reserve who req false now).1 := by
  simp only [beginUpload] at hok
  split at hok <;> simp only [bind_eq_ok, pure_eq_ok] at hok <;> grind

theorem beginFeedUpload_ok {req : Begin} (hok : f.beginFeedUpload who req now = .ok (f', id)) :
    f' = ((f.expireUploads now).reserve who req true now).1 := by
  simp only [beginFeedUpload, bind_eq_ok, pure_eq_ok] at hok
  obtain ⟨-, -, -, -, -, -, hfinal⟩ := hok
  rw [hfinal]

theorem commitUpload_ok {done : Bool} (hok : f.commitUpload C who id blob now = .ok (f', done)) :
    f' = f ∨ ∃ (u : Upload) (chunks : List Bytes) (f₁ : Files), f' = f₁.dropUpload id ∧
      ((f.storeChunks blob u.size chunks).attachToFeed u.channel blob who u.expiresAfter now = f₁ ∨
        (f.storeChunks blob u.size chunks).attach u.channel blob who u.expiresAfter now =
          .ok f₁) := by
  simp only [commitUpload, bind_eq_ok] at hok
  obtain ⟨u, -, hok⟩ := hok
  split at hok
  · obtain ⟨rfl, -⟩ := Prod.mk.inj (pure_eq_ok.mp hok)
    exact .inl rfl
  · rename_i chunks _
    split_ifs at hok with hname hfeed
    · obtain ⟨rfl, -⟩ := Prod.mk.inj (pure_eq_ok.mp hok)
      exact .inl rfl
    · obtain ⟨rfl, -⟩ := Prod.mk.inj (pure_eq_ok.mp hok)
      exact .inr ⟨u, chunks, _, rfl, .inl rfl⟩
    · obtain ⟨f₁, hattach, hdone⟩ := bind_eq_ok.mp hok
      obtain ⟨rfl, -⟩ := Prod.mk.inj (pure_eq_ok.mp hdone)
      exact .inr ⟨u, chunks, f₁, rfl, .inr hattach⟩

theorem attachBlob_ok (hok : f.attachBlob who channel blob expiresAfter now = .ok f') :
    (∃ v, f.visibilityOf channel = some v ∧ (v = .pub → f.attachedPrivately blob = false)) ∧
      f.mayFetch who blob now = true ∧
      f.attach channel blob who expiresAfter now = .ok f' := by
  simp only [attachBlob, bind_eq_ok, refuseIf_eq_ok, exists_const, Rows.channelRow_ok] at hok
  obtain ⟨c, hc, -, hfetch, hpublish, hattach⟩ := hok
  refine ⟨⟨c.visibility, by simp [visibilityOf, hc], fun hpub => ?_⟩, by simpa using hfetch,
    hattach⟩
  simpa [hpub] using hpublish

theorem detachBlob_ok (hok : f.detachBlob who channel blob = .ok f') :
    f' = f.release fun a => a.channel == channel && a.blob == blob := by
  simp only [detachBlob, bind_eq_ok] at hok
  obtain ⟨c, -, hok⟩ := hok
  split at hok
  · cases hok
  · simp only [bind_eq_ok, pure_eq_ok] at hok
    obtain ⟨-, -, rfl⟩ := hok
    rfl

theorem attachFeedBlob_ok (hok : f.attachFeedBlob who account blob expiresAfter now = .ok f') :
    f.mayFetch who blob now = true ∧ f.attachedPrivately blob = false ∧
      f' = f.attachToFeed account blob who expiresAfter now := by
  simp only [attachFeedBlob, bind_eq_ok, refuseIf_eq_ok, exists_const, pure_eq_ok] at hok
  obtain ⟨-, hfetch, hpublish, -, rfl⟩ := hok
  exact ⟨by simpa using hfetch, by simpa using hpublish, rfl⟩

theorem detachFeedBlob_ok (hok : f.detachFeedBlob who account blob = .ok f') :
    f' = collectBlob { f with
      feedAttachment := f.feedAttachment.filter (fun a => !(a.account == account &&
        a.blob == blob)) } blob := by
  simp only [detachFeedBlob, bind_eq_ok, pure_eq_ok] at hok
  obtain ⟨-, -, rfl⟩ := hok
  rfl

theorem writeBackup_ok {device : PubKey} {m : Manifest}
    (hok : f.writeBackup account device m now = .ok f') : ∃ f₁ b,
      holdNamed account device (f.heldFor account) now f m.blobs = .ok f₁ ∧
      f' = (f₁.release fun a => a.channel == account && (f.heldFor account).contains a.blob &&
        !m.blobs.contains a.blob).putBackup b := by
  simp only [writeBackup] at hok
  split at hok <;> simp only [bind_eq_ok, pure_eq_ok] at hok <;> grind

theorem importBackup_ok {b : Backup} {done : Bool} (hok : f.importBackup b = .ok (f', done)) :
    f' = f ∨ f' = { f with backup := b :: f.backup } := by
  simp only [importBackup] at hok
  split_ifs at hok
  · obtain ⟨rfl, -⟩ := Prod.mk.inj (pure_eq_ok.mp hok)
    exact .inl rfl
  · simp only [bind_eq_ok, pure_eq_ok] at hok
    obtain ⟨-, -, hdone⟩ := hok
    obtain ⟨rfl, -⟩ := Prod.mk.inj hdone
    exact .inr rfl

end Returned

theorem expireUploads_eq (f : Files) (now : UInt64) : ∃ uploads chunks,
    f.expireUploads now = { f with upload := uploads, uploadChunk := chunks } := by
  have hdrop : ∀ (stale : List Upload) (f : Files), ∃ uploads chunks,
      stale.foldl (fun f u => f.dropUpload u.id) f =
        { f with upload := uploads, uploadChunk := chunks } := by
    intro stale
    induction stale with
    | nil => exact fun f => ⟨f.upload, f.uploadChunk, rfl⟩
    | cons u stale ih =>
      intro f
      obtain ⟨uploads, chunks, hrest⟩ := ih (f.dropUpload u.id)
      exact ⟨uploads, chunks, hrest⟩
  exact hdrop _ f

section Induction
variable {C : Crypto} {h : Host} {f f' : Files} {P : Files → Prop} {account device : PubKey}
  {now : UInt64}

/-- A succession goes through the channels one at a time. -/
theorem succeed_induction {successor : PubKey} {issued : UInt64} {sig : Bytes64}
    (hok : f.succeed C h account successor issued sig now = .ok f')
    (hsaid : ∀ said, P { f with succeeded := said })
    (hput : ∀ g channel r es, P g →
      (g.rows channel).succeedAccount C h channel account successor issued sig now = .ok (r, es) →
        P (g.putRows channel r)) : P f' := by
  have hall : ∀ (channels : List Bytes32) (g : Files), P g →
      channels.foldlM (succeedIn C h account successor issued sig now) g = .ok f' → P f' := by
    intro channels
    induction channels with
    | nil =>
      intro g hg hok
      obtain rfl : g = f' := pure_eq_ok.mp hok
      exact hg
    | cons channel channels ih =>
      intro g hg hok
      rw [List.foldlM_cons, bind_eq_ok] at hok
      obtain ⟨g₁, hfirst, hrest⟩ := hok
      simp only [succeedIn, bind_eq_ok, Prod.exists, pure_eq_ok] at hfirst
      obtain ⟨r, es, hmoved, rfl⟩ := hfirst
      exact ih _ (hput g channel r es hg hmoved) hrest
  exact hall f.channels.keys _ (hsaid _) hok

/-- A manifest's blobs are held one at a time, each where its account may fetch it. -/
theorem holdNamed_induction {held blobs : List Bytes32}
    (hok : holdNamed account device held now f blobs = .ok f') (hstart : P f)
    (hattach : ∀ g g₁, ∀ b ∈ blobs, P g → g.mayFetch account b now = true →
      g.attach account b device 0 now = .ok g₁ → P g₁) : P f' := by
  induction blobs generalizing f with
  | nil =>
    obtain rfl : f = f' := pure_eq_ok.mp hok
    exact hstart
  | cons b blobs ih =>
    have hlater := fun g g₁ other (hother : other ∈ blobs) =>
      hattach g g₁ other (List.mem_cons_of_mem b hother)
    rw [holdNamed] at hok
    split_ifs at hok with hheld
    · exact ih hok hstart hlater
    · simp only [bind_eq_ok, refuseIf_eq_ok] at hok
      obtain ⟨-, hfetch, f₁, hfirst, hrest⟩ := hok
      exact ih hrest (hattach f f₁ b List.mem_cons_self hstart (by simpa using hfetch) hfirst)
        hlater

end Induction

end Files
end Sqex.Exchange
