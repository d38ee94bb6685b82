import Sqex.Exchange.Aging

/-! The backups accounts keep at an exchange: the manifest that stands for an account, what its
devices have staged, and the releases on their way; and what every operation leaves of them. -/
namespace Sqex.Exchange
open Std Runs Tables
variable {channel : Bytes32} {op : Filing}

namespace Files
variable {C : Crypto} {h : Host} {f f' f₁ : Files} {account blob : Bytes32} {now : UInt64}

def Attached (f : Files) (account blob : Bytes32) : Prop :=
  ∃ a ∈ f.attachment, a.channel = account ∧ a.blob = blob

def names (f : Files) (account blob : Bytes32) : Bool :=
  (f.backupOf account).any (·.blobs.contains blob)

def Apart (f : Files) (account : Bytes32) : Prop :=
  (f.rows account).channel = none ∧ (f.rows account).replicated = none

def Leaves (f f' : Files) (account : Bytes32) : Prop :=
  ∀ blob, f.Attached account blob → f'.Attached account blob

theorem Leaves.trans (hfirst : Leaves f f₁ account) (hlater : Leaves f₁ f' account) :
    Leaves f f' account := fun blob hblob => hlater blob (hfirst blob hblob)

theorem leaves_of_eq (hattachment : f'.attachment = f.attachment) : Leaves f f' account := by
  intro blob hblob
  rwa [Attached, hattachment]

theorem Stays.leaves (hstays : Stays f f') (account : Bytes32) : Leaves f f' account := by
  rintro blob ⟨a, ha, rfl, rfl⟩
  exact hstays.attachment a ha

theorem attached_release {which : Attachment → Bool} :
    (f.release which).Attached account blob ↔
      ∃ a ∈ f.attachment, which a = false ∧ a.channel = account ∧ a.blob = blob := by
  simp only [Attached, (release_sameNames f which).attachment, List.mem_filter,
    Bool.not_eq_true', and_assoc]

theorem leaves_release {which : Attachment → Bool}
    (hwhich : ∀ a ∈ f.attachment, a.channel = account → which a = false) :
    Leaves f (f.release which) account := by
  rintro blob ⟨a, ha, hchannel, hblob⟩
  exact attached_release.mpr ⟨a, ha, hwhich a ha hchannel, hchannel, hblob⟩

theorem leaves_destroyFiles (hne : channel ≠ account) :
    Leaves f (f.destroyFiles channel) account := by
  refine leaves_release fun a _ hchannel => ?_
  simpa [hchannel] using Ne.symm hne

theorem leaves_putRows (channel : Bytes32) (r : Rows) : Leaves f (f.putRows channel r) account :=
  leaves_of_eq rfl

theorem collectAll_backup (f : Files) (blobs : List Bytes32) :
    (blobs.foldl collectBlob f).backup = f.backup := by
  refine List.foldlRecOn blobs collectBlob (motive := fun g => g.backup = f.backup) rfl
    fun g hg blob _ => ?_
  rw [collectBlob]
  split
  · exact hg
  · exact hg

@[simp] theorem release_backup (f : Files) (which : Attachment → Bool) :
    (f.release which).backup = f.backup := collectAll_backup _ _

@[simp] theorem destroyFiles_backup (f : Files) (channel : Bytes32) :
    (f.destroyFiles channel).backup = f.backup := release_backup f _

theorem find?_upsert {α : Type*} {same : α → Bool} {row : α} (hrow : same row = true)
    (t : List α) : (upsert same (fun _ => row) row t).find? same = some row := by
  unfold upsert
  split
  · next hany =>
    obtain ⟨y, hy, hsame⟩ := List.any_eq_true.mp hany
    have hcomp : (same ∘ fun x => if same x = true then row else x) = same := by
      funext x
      by_cases hx : same x = true
      · simp [hx, hrow]
      · simp [hx]
    rw [List.find?_map, hcomp]
    cases hfound : t.find? same with
    | none => exact absurd hsame (List.find?_eq_none.mp hfound y hy)
    | some z => simp [List.find?_some hfound]
  · rw [List.find?_cons_of_pos hrow]

theorem find?_upsert_of_not {α : Type*} {same p : α → Bool} {row : α} (hrow : p row = false)
    (hother : ∀ x, same x = true → p x = false) (t : List α) :
    (upsert same (fun _ => row) row t).find? p = t.find? p := by
  unfold upsert
  split
  · have hcomp : (p ∘ fun x => if same x = true then row else x) = p := by
      funext x
      by_cases hx : same x = true
      · simp [hx, hrow, hother x hx]
      · simp [hx]
    rw [List.find?_map, hcomp]
    cases hfound : t.find? p with
    | none => rfl
    | some z =>
      have hz : same z = false := by
        by_contra hsame
        have hnot := hother z (by simpa using hsame)
        rw [List.find?_some hfound] at hnot
        cases hnot
      simp [hz]
  · rw [List.find?_cons_of_neg (by simp [hrow])]

theorem backupOf_putBackup (f : Files) (b : Backup) (account : PubKey) :
    (f.putBackup b).backupOf account = if b.account = account then some b
      else f.backupOf account := by
  unfold backupOf putBackup
  by_cases hb : b.account = account
  · subst hb
    rw [if_pos rfl]
    exact find?_upsert (by simp) _
  · rw [if_neg hb]
    refine find?_upsert_of_not (by simpa using hb) (fun x hx => ?_) _
    have hx : x.account = b.account := by simpa using hx
    simpa [hx] using hb

theorem backupOf_dropBackup (f : Files) (dropped account : PubKey) :
    (f.dropBackup dropped).backupOf account = if dropped = account then none
      else f.backupOf account := by
  unfold backupOf dropBackup
  simp only [release_backup]
  rw [List.find?_filter]
  by_cases hsame : dropped = account
  · rw [if_pos hsame, List.find?_eq_none]
    intro b _
    simp [hsame]
  · rw [if_neg hsame]
    congr 1
    funext b
    by_cases hb : b.account = account
    · simp [hb, Ne.symm hsame]
    · simp [hb]

theorem attached_dropBackup {dropped : PubKey} (hne : dropped ≠ account) :
    Leaves f (f.dropBackup dropped) account := by
  have hreleased : Leaves f (f.release (·.channel == dropped)) account := by
    refine leaves_release fun a _ hchannel => ?_
    simpa [hchannel] using Ne.symm hne
  exact hreleased.trans (leaves_of_eq rfl)

theorem there_of_destroys {w : Around} {req : Request} {r r' : Rows} {es : List Ordered}
    (hok : r.perform C h channel w req = .ok (r', es))
    (hdestroys : r.destroys C h channel w req = true) : r.channel ≠ none := by
  intro hnone
  cases req with
  | close caller =>
    simp only [Rows.perform, quiet_eq_ok, Rows.close_ok] at hok
    obtain ⟨⟨⟨c, hc⟩, -⟩, -⟩ := hok
    rw [hnone] at hc
    cases hc
  | leave caller device action | create caller device req =>
    simp [Rows.destroys, hnone] at hdestroys
  | sweep =>
    have hempty : (r.prune h w.now).channel = none := hnone
    simp [Rows.destroys, Rows.abandoned, hempty] at hdestroys
  | _ => cases hdestroys

theorem leaves_request {w : Around} {req : Request} (hapart : f.Apart account)
    (hok : f.request C h channel w req = .ok f') : Leaves f f' account := by
  obtain ⟨r, es, hperform, rfl⟩ := request_ok hok
  have hdone : Leaves f { f.putRows channel r with retired := f.retires C channel req } account :=
    leaves_of_eq rfl
  dsimp only
  split
  · next hdestroys =>
    refine hdone.trans (leaves_destroyFiles ?_)
    rintro rfl
    exact there_of_destroys hperform hdestroys hapart.1
  · exact hdone

theorem leaves_adopt {incarnation : Bytes32} {origin : PubKey} {windowSecs : UInt32}
    (hapart : f.Apart account) (hok : f.adopt channel incarnation origin windowSecs now = .ok f') :
    Leaves f f' account := by
  simp only [adopt, bind_eq_ok, pure_eq_ok] at hok
  obtain ⟨r, -, rfl⟩ := hok
  split
  · next hother =>
    refine (leaves_putRows channel r).trans (leaves_destroyFiles ?_)
    rintro rfl
    simp [hapart.1] at hother
  · exact leaves_putRows channel r

theorem leaves_forgetCopy (hapart : f.Apart account) (hok : f.forgetCopy channel = .ok f') :
    Leaves f f' account := by
  simp only [forgetCopy, bind_eq_ok, refuseIf_eq_ok, exists_const, pure_eq_ok] at hok
  obtain ⟨hcopy, rfl⟩ := hok
  refine (leaves_putRows channel _).trans (leaves_destroyFiles ?_)
  rintro rfl
  exact hcopy hapart.2

theorem leaves_fold {into : PubKey} {domain : String} {incarnation : Bytes32}
    (hapart : f.Apart account) (hok : f.fold C channel into domain incarnation now = .ok f') :
    Leaves f f' account := by
  have hthere : (f.rows channel).channel ≠ none := by
    intro hnone
    simp only [fold, bind_eq_ok, Rows.channelRow_ok] at hok
    obtain ⟨-, -, c, hc, -⟩ := hok
    rw [hnone] at hc
    cases hc
  obtain ⟨record, rfl⟩ := fold_ok hok
  have hrecorded : Leaves f (f.recordFold record) account := leaves_of_eq rfl
  refine (hrecorded.trans (leaves_putRows channel _)).trans (leaves_destroyFiles ?_)
  rintro rfl
  exact hthere hapart.1

theorem leaves_detachBlob {who : PubKey} (hapart : f.Apart account)
    (hok : f.detachBlob who channel blob = .ok f') : Leaves f f' account := by
  have hthere : (f.rows channel).channel ≠ none := by
    intro hnone
    simp only [detachBlob, bind_eq_ok, Rows.channelRow_ok] at hok
    obtain ⟨c, hc, -⟩ := hok
    rw [hnone] at hc
    cases hc
  rw [detachBlob_ok hok]
  refine leaves_release fun a _ hchannel => ?_
  have hne : a.channel ≠ channel := by
    rw [hchannel]
    rintro rfl
    exact hthere hapart.1
  simp [hne]

theorem leaves_sweep (hapart : f.Apart account) (now : UInt64) :
    Leaves f (f.sweep h now) account := by
  rintro blob ⟨a, ha, rfl, rfl⟩
  have hempty : ((f.rows a.channel).prune h now).channel = none := hapart.1
  refine ⟨a, mem_swept.mpr ⟨ha, fun _ => hapart.1, ?_, ?_⟩, rfl, rfl⟩
  · simp [windowOut, hapart.1]
  · simp [Rows.abandoned, hempty]

theorem succeed_same {account successor : PubKey} {issued : UInt64} {sig : Bytes64}
    (hok : f.succeed C h account successor issued sig now = .ok f') :
    f'.attachment = f.attachment ∧ f'.backup = f.backup :=
  succeed_induction (P := fun g => g.attachment = f.attachment ∧ g.backup = f.backup) hok
    (fun _ => ⟨rfl, rfl⟩) fun _ _ _ _ hg _ => hg

/-- What writes, takes over or drops a manifest, or lets go of what an account has attached. -/
def ofBackup : Filing → Bool
  | .writeBackup .. | .dropBackup .. | .importBackup .. => true
  | .releaseCollectedOrphans .. | .releaseBackupIf .. => true
  | _ => false

theorem leaves_perform (hapart : f.Apart account) (hother : ofBackup op = false)
    (hok : f.perform C h op = .ok f') : Leaves f f' account := by
  by_cases hages : ages op = true
  · exact (stays_perform hages hok).leaves account
  · cases op with
    | request channel w req => exact leaves_request hapart hok
    | succeed holder successor issued sig now => exact leaves_of_eq (succeed_same hok).1
    | adopt channel incarnation origin windowSecs now => exact leaves_adopt hapart hok
    | forgetCopy channel => exact leaves_forgetCopy hapart hok
    | copied channel rows =>
      cases hok
      exact leaves_putRows channel rows
    | fold channel into domain incarnation now => exact leaves_fold hapart hok
    | detachBlob who channel blob => exact leaves_detachBlob hapart hok
    | detachFeedBlob who holder blob =>
      rw [detachFeedBlob_ok hok]
      exact leaves_of_eq (collectBlob_sameNames _ blob).attachment
    | storeBlob channel blob size chunks now =>
      cases hok
      rintro other ⟨a, ha, hchannel, hblob⟩
      exact ⟨a, mem_insertOrIgnore_of_mem ha, hchannel, hblob⟩
    | storeBackupBlob quota holder blob size chunks now =>
      simp only [perform, storeBackupBlob, bind_eq_ok] at hok
      obtain ⟨-, -, hattach⟩ := hok
      have hstored : Leaves f (f.storeChunks blob size chunks) account := leaves_of_eq rfl
      exact hstored.trans ((Stays.attach hattach).leaves _)
    | sweep now =>
      cases hok
      exact leaves_sweep hapart now
    | writeBackup | dropBackup | importBackup | releaseCollectedOrphans | releaseBackupIf =>
      cases hother
    | _ => exact absurd rfl hages

theorem backup_collectBlob (f : Files) (blob : Bytes32) : (f.collectBlob blob).backup = f.backup :=
  collectAll_backup f [blob]

theorem backup_expireUploads (f : Files) (now : UInt64) :
    (f.expireUploads now).backup = f.backup := by
  obtain ⟨uploads, chunks, hexpired⟩ := expireUploads_eq f now
  rw [hexpired]

theorem backup_attach {who : PubKey} {expiresAfter : UInt32}
    (hok : f.attach channel blob who expiresAfter now = .ok f') : f'.backup = f.backup := by
  rw [attach_ok hok]

theorem backup_sweep (f : Files) (h : Host) (now : UInt64) : (f.sweep h now).backup = f.backup := by
  have hpruned : ∀ (f : Files) (channel : Bytes32),
      (f.pruneAttachments channel now).backup = f.backup := by
    intro f channel
    unfold pruneAttachments
    split
    · rfl
    · exact release_backup f _
  have hchannel : ∀ (f : Files) (channel : Bytes32),
      (f.sweepChannel h now channel).backup = f.backup := by
    intro f channel
    unfold sweepChannel
    dsimp only
    split
    · rw [destroyFiles_backup]
      exact hpruned f channel
    · exact hpruned f channel
  have hfolds : (((f.expireUploads now).expireFolds now)).backup = f.backup :=
    (collectAll_backup _ _).trans (backup_expireUploads f now)
  exact List.foldlRecOn f.channelIds (sweepChannel h now)
    (motive := fun g => g.backup = f.backup) hfolds fun g hg channel _ =>
      (hchannel g channel).trans hg

theorem backup_perform (hother : ofBackup op = false) (hok : f.perform C h op = .ok f') :
    f'.backup = f.backup := by
  cases op with
  | request channel w req =>
    obtain ⟨r, es, -, rfl⟩ := request_ok hok
    dsimp only
    split
    · rw [destroyFiles_backup]
      rfl
    · rfl
  | succeed account successor issued sig now => exact (succeed_same hok).2
  | adopt channel incarnation origin windowSecs now =>
    obtain ⟨r, -, hkept⟩ := adopt_ok hok
    cases hkept with
    | inl hsame => rw [hsame]; rfl
    | inr hanew => rw [hanew, destroyFiles_backup]; rfl
  | forgetCopy channel =>
    rw [forgetCopy_ok hok, destroyFiles_backup]
    rfl
  | copied channel rows =>
    cases hok
    rfl
  | fold channel into domain incarnation now =>
    obtain ⟨record, rfl⟩ := fold_ok hok
    rw [destroyFiles_backup]
    rfl
  | beginUpload quota uploader req now =>
    obtain ⟨⟨f₁, id⟩, hbegun, rfl⟩ := map_eq_ok.mp hok
    rw [beginUpload_ok hbegun]
    exact backup_expireUploads f now
  | beginFeedUpload uploader req now =>
    obtain ⟨⟨f₁, id⟩, hbegun, rfl⟩ := map_eq_ok.mp hok
    rw [beginFeedUpload_ok hbegun]
    exact backup_expireUploads f now
  | putChunk uploader id idx bytes =>
    simp only [perform, putChunk, bind_eq_ok, pure_eq_ok] at hok
    obtain ⟨u, -, -, -, rfl⟩ := hok
    rfl
  | commitUpload uploader id claimed now =>
    obtain ⟨⟨f₁, done⟩, hcommitted, rfl⟩ := map_eq_ok.mp hok
    obtain hsame | ⟨u, chunks, f₂, hdropped, hattach⟩ := commitUpload_ok hcommitted
    · exact congrArg Files.backup hsame
    · rw [hdropped]
      cases hattach with
      | inl hfeed => rw [← hfeed]; rfl
      | inr hchannel =>
        have hsame := backup_attach hchannel
        exact hsame
  | abortUpload uploader id =>
    simp only [perform, abortUpload, bind_eq_ok, pure_eq_ok] at hok
    obtain ⟨u, -, rfl⟩ := hok
    rfl
  | attachBlob who channel blob expiresAfter now => exact backup_attach (attachBlob_ok hok).2.2
  | detachBlob who channel blob => rw [detachBlob_ok hok, release_backup]
  | attachFeedBlob who account blob expiresAfter now => rw [(attachFeedBlob_ok hok).2.2]; rfl
  | detachFeedBlob who account blob => rw [detachFeedBlob_ok hok, backup_collectBlob]
  | storeBlob channel blob size chunks now =>
    cases hok
    rfl
  | storeBackupBlob quota account blob size chunks now =>
    simp only [perform, storeBackupBlob, bind_eq_ok] at hok
    obtain ⟨-, -, hattach⟩ := hok
    have hsame := backup_attach hattach
    exact hsame
  | sweep now =>
    cases hok
    exact backup_sweep f h now
  | writeBackup | dropBackup | importBackup | releaseCollectedOrphans | releaseBackupIf =>
    cases hother

theorem backupOf_perform (hother : ofBackup op = false) (hok : f.perform C h op = .ok f')
    (account : PubKey) :
    f'.backupOf account = f.backupOf account := by
  rw [backupOf, backup_perform hother hok]
  rfl

end Files
end Sqex.Exchange
