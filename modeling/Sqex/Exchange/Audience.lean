import Sqex.Exchange.BlobLives

/-! Who may fetch a blob after it is attached to one more channel: nobody but members, for as
long as no public channel and no feed holds it. -/
namespace Sqex.Exchange
open Std Runs Tables
variable {now : UInt64} {who : PubKey} {b : Bytes32} {expiresAfter : UInt32} {op : Filing}

namespace Rows
variable {C : Crypto} {h : Host} {channel : Bytes32} {w : Around} {r r' r₁ : Rows}
  {es : List Ordered} {caller device : PubKey}

def visible (r : Rows) : Option Visibility := r.channel.map (·.visibility)

def Steady (r r' : Rows) : Prop := ∀ v, r'.visible = some v → r.visible = some v

theorem Turns.steady {seated : Option PubKey} {lost : PubKey → Bool}
    (hturns : Turns r r' seated lost) : Steady r r' := by
  intro v hv
  obtain hgone | hsame := hturns.ident
  · simp [visible, hgone] at hv
  · have hvisible := congrArg (Option.map Prod.fst) hsame
    simp only [Rows.ident, Option.map_map, Function.comp_def] at hvisible
    exact hvisible.symm.trans hv

theorem found_visible {req : Create}
    (hok : r.found C h channel w caller device req = .ok (r', es)) :
    r'.visible = some req.visibility := by
  have hmade := congrArg (Option.map Prod.fst) (found_ident hok)
  rw [ident, Option.map_map] at hmade
  exact hmade

theorem perform_founds {req : Request} (hfounds : r.founds C channel req = true)
    (hok : r.perform C h channel w req = .ok (r', es)) : ∃ caller device asked,
      req = .create caller device asked ∧ r'.visible = some asked.visibility := by
  obtain ⟨caller, device, asked, base, hreq, -, hfound⟩ := found_of_founds hfounds hok
  exact ⟨caller, device, asked, hreq, found_visible hfound⟩

theorem adopt_steady {incarnation : Bytes32} {origin : PubKey} {windowSecs : UInt32}
    (hok : r.adopt incarnation origin windowSecs now = .ok r') :
    r'.visible = some .pub → r.visible = some .pub := by
  unfold adopt at hok
  dsimp only at hok
  split at hok
  · cases hok
  · split at hok
    · cases hok
      intro hpub
      cases hpub
    · cases hok
      rename_i held row hc hcopied hsame
      simp [visible, hc]
  · cases hok
    rename_i hc
    intro hpub
    simp [visible, hc] at hpub

end Rows

namespace Files
variable {C : Crypto} {h : Host} {f f' : Files} {blob : Bytes32}

def Shown (f : Files) (blob : Bytes32) : Prop :=
  f.attachedToAFeed blob = true ∨
    ∃ a ∈ f.attachment, a.blob = blob ∧ f.visibilityOf a.channel = some .pub

theorem mem_holders {c : Bytes32} :
    c ∈ f.holders blob ↔ ∃ a ∈ f.attachment, a.blob = blob ∧ a.channel = c := by
  simp [holders, and_assoc]

theorem member_of_hidden (hhidden : ¬Shown f blob) (hfetch : f.mayFetch who blob now = true) :
    f.isMember who blob now = true := by
  have hfeed : f.attachedToAFeed blob = false := by
    by_contra hfed
    exact hhidden (.inl (by simpa using hfed))
  have hshown : ((f.holders blob).filter fun c => !f.heldBy who c).any
      (fun c => f.visibilityOf c == some .pub) = false := by
    rw [List.any_eq_false]
    intro c hc hpub
    obtain ⟨a, ha, hblob, rfl⟩ := mem_holders.mp (List.mem_of_mem_filter hc)
    exact hhidden (.inr ⟨a, ha, hblob, by simpa using hpub⟩)
  simpa only [mayFetch, hshown, hfeed, Bool.or_false, Bool.false_and] using hfetch

def heldIn (f : Files) (channel blob : Bytes32) : Bool :=
  f.attachment.any fun a => a.channel == channel && a.blob == blob

/-- A step makes public no identifier the blob is attached under, nor puts the blob under one
that is public, but by an upload or an attachment proper. -/
def Unpublished (blob : Bytes32) (f : Files) : Filing → Prop
  | .request channel _ (.create _ _ req) =>
    f.visibilityOf channel = none → req.visibility = .pub → f.heldIn channel blob = false
  | .copied channel rows => rows.visible = some .pub → f.heldIn channel blob = false
  | .storeBlob channel b _ _ _ => b = blob → f.visibilityOf channel ≠ some .pub
  | .storeBackupBlob _ account b _ _ _ => b = blob → f.visibilityOf account ≠ some .pub
  | .writeBackup account _ m _ => blob ∈ m.blobs → f.visibilityOf account ≠ some .pub
  | _ => True

def Discreet (C : Crypto) (h : Host) (blob : Bytes32) (f : Files) (op : Filing) : Prop :=
  (f.perform C h op).isOk = true → Unpublished blob f op

def uploadsOrAttaches (blob : Bytes32) : Filing → Bool
  | .commitUpload _ _ claimed _ => claimed == blob
  | .attachBlob _ _ b _ _ => b == blob
  | .attachFeedBlob _ _ b _ _ => b == blob
  | _ => false

theorem Shown.congr (hshown : Shown f' blob) (hchannels : f'.channels = f.channels)
    (hattachment : f'.attachment = f.attachment)
    (hfeed : f'.feedAttachment = f.feedAttachment) : Shown f blob := by
  simpa only [Shown, attachedToAFeed, visibilityOf, rows, hchannels, hattachment, hfeed]
    using hshown

theorem SameNames.shown (hsame : SameNames f f') (hshown : Shown f' blob) : Shown f blob :=
  hshown.congr hsame.channels hsame.attachment hsame.feedAttachment

theorem Shown.of_release {which : Attachment → Bool} (hshown : Shown (f.release which) blob) :
    Shown f blob := by
  have hleft := (release_sameNames f which).shown hshown
  refine hleft.imp_right ?_
  intro hpublic
  obtain ⟨a, ha, hblob, hpub⟩ := hpublic
  exact ⟨a, List.mem_of_mem_filter ha, hblob, hpub⟩

theorem visibilityOf_putRows (channel other : Bytes32) (r : Rows) :
    (f.putRows channel r).visibilityOf other =
      if channel = other then r.visible else f.visibilityOf other := by
  rw [visibilityOf, rows_putRows]
  split <;> rfl

theorem Shown.of_putRows {channel : Bytes32} {r : Rows}
    (hshown : Shown (f.putRows channel r) blob)
    (hrows : r.visible = some .pub →
      f.visibilityOf channel = some .pub ∨ f.heldIn channel blob = false) : Shown f blob := by
  cases hshown with
  | inl hfed => exact .inl hfed
  | inr hpublic =>
    obtain ⟨a, ha, hblob, hpub⟩ := hpublic
    rw [visibilityOf_putRows] at hpub
    split at hpub
    · rename_i hhere
      have hattached : f.heldIn channel blob = true :=
        List.any_eq_true.mpr ⟨a, ha, by simp [hhere, hblob]⟩
      cases hrows hpub with
      | inl hwas => exact .inr ⟨a, ha, hblob, hhere ▸ hwas⟩
      | inr hnot => simp [hnot] at hattached
    · exact .inr ⟨a, ha, hblob, hpub⟩

theorem Shown.of_attach {channel : Bytes32} (hok : f.attach channel b who expiresAfter now = .ok f')
    (hshown : Shown f' blob) :
    Shown f blob ∨ b = blob ∧ f.visibilityOf channel = some .pub := by
  rw [attach_ok hok] at hshown
  cases hshown with
  | inl hfed => exact .inl (.inl hfed)
  | inr hpublic =>
    have hrow : (∃ a ∈ upsert (fun a => a.channel == channel && a.blob == b)
        (fun a => { a with attached := now, expiresAfter })
        (Attachment.mk channel b now expiresAfter who) f.attachment,
        a.blob = blob ∧ f.visibilityOf a.channel = some .pub) := hpublic
    rw [exists_mem_upsert (fun x hx => by simp_all) (fun x hx => by simp_all)] at hrow
    exact hrow.elim .inr fun hold => .inl (.inr hold)

theorem Shown.of_request {channel : Bytes32} {w : Around} {req : Request}
    (hok : f.request C h channel w req = .ok f')
    (hunpublished : Unpublished blob f (.request channel w req)) (hshown : Shown f' blob) :
    Shown f blob := by
  obtain ⟨r, es, hperform, rfl⟩ := request_ok hok
  dsimp only at hshown
  cases hfounds : (f.rows channel).founds C channel req with
  | false =>
    have hsteady := (Rows.perform_turns hfounds hperform).steady
    have hdone : Shown (f.putRows channel r) blob := by
      split at hshown
      · exact hshown.of_release.congr rfl rfl rfl
      · exact hshown.congr rfl rfl rfl
    exact hdone.of_putRows fun hpub => .inl (hsteady .pub hpub)
  | true =>
    obtain ⟨caller, device, asked, rfl, hvisible⟩ := Rows.perform_founds hfounds hperform
    cases hthere : (f.rows channel).channel with
    | none =>
      have hdone : Shown (f.putRows channel r) blob := by
        rw [if_neg (by simp [Rows.destroys, hthere])] at hshown
        exact hshown.congr rfl rfl rfl
      refine hdone.of_putRows fun hpub => .inr ?_
      rw [hvisible, Option.some.injEq] at hpub
      exact hunpublished (by simp [visibilityOf, hthere]) hpub
    | some c =>
      -- A squatter's channel goes with what it held.
      rw [if_pos (by simp [Rows.destroys, hthere, hfounds])] at hshown
      have hleft := (release_sameNames _ _).shown hshown
      cases hleft with
      | inl hfed => exact .inl hfed
      | inr hpublic =>
        obtain ⟨a, ha, hblob, hpub⟩ := hpublic
        obtain ⟨hmem, hother⟩ := List.mem_filter.mp ha
        have hne : ¬channel = a.channel := by
          intro heq
          simp [heq] at hother
        have hsame : f.visibilityOf a.channel = some .pub := by
          have hput : (f.putRows channel r).visibilityOf a.channel = some .pub := hpub
          rwa [visibilityOf_putRows, if_neg hne] at hput
        exact .inr ⟨a, hmem, hblob, hsame⟩

theorem Shown.of_succeed {account successor : PubKey} {issued : UInt64} {sig : Bytes64}
    (hok : f.succeed C h account successor issued sig now = .ok f') (hshown : Shown f' blob) :
    Shown f blob := by
  refine succeed_induction (P := fun g => Shown g blob → Shown f blob) hok (fun _ hsaid => ?_)
    (fun g channel r es hg hmoved hput => ?_) hshown
  · exact hsaid.congr rfl rfl rfl
  · exact hg (hput.of_putRows fun hpub => .inl ((Rows.succeed_turns hmoved).steady .pub hpub))

theorem Shown.of_expireUploads (hshown : Shown (f.expireUploads now) blob) :
    Shown f blob := by
  obtain ⟨uploads, chunks, hexpired⟩ := expireUploads_eq f now
  rw [hexpired] at hshown
  exact hshown.congr rfl rfl rfl

theorem Shown.of_sweepChannel {channel : Bytes32}
    (hshown : Shown (f.sweepChannel h now channel) blob) : Shown f blob := by
  have hswept : Shown ((f.pruneAttachments channel now).putRows channel
      ((f.rows channel).sweep h now)) blob := by
    unfold sweepChannel at hshown
    dsimp only at hshown
    split at hshown
    · exact hshown.of_release
    · exact hshown
  have hrows : (f.pruneAttachments channel now).visibilityOf channel = f.visibilityOf channel := by
    unfold pruneAttachments
    split
    · rfl
    · rw [visibilityOf, rows_release]
      rfl
  have hpruned : Shown (f.pruneAttachments channel now) blob := by
    refine hswept.of_putRows fun hpub => .inl ?_
    rw [hrows]
    have hturns : (f.rows channel).Turns ((f.rows channel).sweep h now) none fun _ => false :=
      Rows.sweep_turns now
    exact hturns.steady .pub hpub
  unfold pruneAttachments at hpruned
  split at hpruned
  · exact hpruned
  · exact hpruned.of_release

theorem Shown.of_sweep (hshown : Shown (f.sweep h now) blob) : Shown f blob := by
  obtain ⟨hchannels, hattachment, hfeed, -⟩ := expireFolds_sameNames (f.expireUploads now) now
  refine List.foldlRecOn f.channelIds (sweepChannel h now)
    (motive := fun g => Shown g blob → Shown f blob) (fun hexpired => ?_)
    (fun g hg channel _ hswept => hg hswept.of_sweepChannel) (hshown.congr rfl rfl rfl)
  have hfirst : Shown (f.expireUploads now) blob := hexpired.congr hchannels hattachment hfeed
  exact hfirst.of_expireUploads

theorem Shown.of_holdNamed {account device : PubKey} {held blobs : List Bytes32}
    (hok : holdNamed account device held now f blobs = .ok f')
    (hhidden : blob ∈ blobs → f.visibilityOf account ≠ some .pub) (hshown : Shown f' blob) :
    Shown f blob := by
  have hheld : f'.visibilityOf account = f.visibilityOf account ∧ (Shown f' blob → Shown f blob) := by
    refine holdNamed_induction (P := fun g => g.visibilityOf account = f.visibilityOf account ∧
      (Shown g blob → Shown f blob)) hok ⟨rfl, id⟩ fun g g₁ b hb hg _ hattach => ?_
    obtain ⟨hvisible, hshown⟩ := hg
    refine ⟨by rw [← hvisible, attach_ok hattach]; rfl, fun hnew => ?_⟩
    obtain hold | ⟨rfl, hpub⟩ := hnew.of_attach hattach
    · exact hshown hold
    · exact absurd (hvisible ▸ hpub) (hhidden hb)
  exact hheld.2 hshown

theorem Shown.of_storeBlob {channel : Bytes32} {size : UInt64} {chunks : List Bytes}
    (hhidden : b = blob → f.visibilityOf channel ≠ some .pub)
    (hshown : Shown (f.storeBlob channel b size chunks now) blob) : Shown f blob := by
  cases hshown with
  | inl hfed => exact .inl hfed
  | inr hpublic =>
    have hrow : (∃ a ∈ insertOrIgnore (fun a => a.channel == channel && a.blob == b)
        (Attachment.mk channel b now 0 0) f.attachment,
        a.blob = blob ∧ f.visibilityOf a.channel = some .pub) := hpublic
    rw [exists_mem_insertOrIgnore (fun x hx => by simp_all)] at hrow
    cases hrow with
    | inl hnew =>
      obtain ⟨rfl, hpub⟩ := hnew
      exact absurd hpub (hhidden rfl)
    | inr hold => exact .inr hold

theorem Shown.of_attachToFeed {account : Bytes32} (hne : b ≠ blob)
    (hshown : Shown (f.attachToFeed account b who expiresAfter now) blob) : Shown f blob := by
  refine hshown.imp_left fun hfed => ?_
  simp only [attachedToAFeed, attachToFeed, List.any_eq_true] at hfed ⊢
  rw [exists_mem_upsert (fun x hx => by simp_all) (fun x hx => by simp_all)] at hfed
  cases hfed with
  | inl hnew => exact absurd (by simpa using hnew) hne
  | inr hold => exact hold

theorem Shown.of_dropBackup {account : PubKey} (hshown : Shown (f.dropBackup account) blob) :
    Shown f blob := by
  have hleft : Shown (f.release (·.channel == account)) blob := hshown.congr rfl rfl rfl
  exact hleft.of_release

theorem Shown.of_commitUpload {uploader : PubKey} {id : UInt64} {claimed : Bytes32} {done : Bool}
    (hok : f.commitUpload C uploader id claimed now = .ok (f', done)) (hne : claimed ≠ blob)
    (hshown : Shown f' blob) : Shown f blob := by
  obtain rfl | ⟨u, chunks, f₁, rfl, hattach⟩ := commitUpload_ok hok
  · exact hshown
  · have hattached : Shown f₁ blob := hshown.congr rfl rfl rfl
    have hstored : Shown (f.storeChunks claimed u.size chunks) blob := by
      cases hattach with
      | inl hfeed =>
        rw [← hfeed] at hattached
        exact hattached.of_attachToFeed hne
      | inr hchannel =>
        cases hattached.of_attach hchannel with
        | inl hold => exact hold
        | inr hnew => exact absurd hnew.1 hne
    exact hstored.congr rfl rfl rfl

/-- A step that goes through shows no blob that was not shown, but by an upload, an attachment
or a public name for where the blob is attached. -/
theorem Shown.of_perform (hok : f.perform C h op = .ok f') (hunpublished : Unpublished blob f op)
    (hother : uploadsOrAttaches blob op = false) (hshown : Shown f' blob) : Shown f blob := by
  cases op with
  | request channel w req => exact hshown.of_request hok hunpublished
  | succeed account successor issued sig now => exact hshown.of_succeed hok
  | adopt channel incarnation origin windowSecs now =>
    obtain ⟨r, hadopt, rfl | rfl⟩ := adopt_ok hok
    · exact hshown.of_putRows fun hpub => .inl (Rows.adopt_steady hadopt hpub)
    · exact hshown.of_release.of_putRows fun hpub => .inl (Rows.adopt_steady hadopt hpub)
  | forgetCopy channel =>
    rw [forgetCopy_ok hok] at hshown
    exact hshown.of_release.of_putRows fun hpub => by cases hpub
  | copied channel rows =>
    cases hok
    exact hshown.of_putRows fun hpub => .inr (hunpublished hpub)
  | fold channel into domain incarnation now =>
    obtain ⟨record, rfl⟩ := fold_ok hok
    have hfolded : Shown (f.recordFold record) blob :=
      hshown.of_release.of_putRows fun hpub => by cases hpub
    exact hfolded.congr rfl rfl rfl
  | beginUpload quota uploader req now =>
    obtain ⟨⟨f₁, id⟩, hbegun, rfl⟩ := map_eq_ok.mp hok
    rw [beginUpload_ok hbegun] at hshown
    have hexpired : Shown (f.expireUploads now) blob := hshown.congr rfl rfl rfl
    exact hexpired.of_expireUploads
  | beginFeedUpload uploader req now =>
    obtain ⟨⟨f₁, id⟩, hbegun, rfl⟩ := map_eq_ok.mp hok
    rw [beginFeedUpload_ok hbegun] at hshown
    have hexpired : Shown (f.expireUploads now) blob := hshown.congr rfl rfl rfl
    exact hexpired.of_expireUploads
  | putChunk uploader id idx bytes =>
    simp only [perform, putChunk, bind_eq_ok, pure_eq_ok] at hok
    obtain ⟨u, -, -, -, rfl⟩ := hok
    exact hshown.congr rfl rfl rfl
  | commitUpload uploader id claimed now =>
    obtain ⟨⟨f₁, done⟩, hcommitted, rfl⟩ := map_eq_ok.mp hok
    exact hshown.of_commitUpload hcommitted (by simpa [uploadsOrAttaches] using hother)
  | abortUpload uploader id =>
    simp only [perform, abortUpload, bind_eq_ok, pure_eq_ok] at hok
    obtain ⟨u, -, rfl⟩ := hok
    exact hshown.congr rfl rfl rfl
  | attachBlob who channel b expiresAfter now =>
    have hne : b ≠ blob := by simpa [uploadsOrAttaches] using hother
    obtain ⟨-, -, hattach⟩ := attachBlob_ok hok
    cases hshown.of_attach hattach with
    | inl hold => exact hold
    | inr hnew => exact absurd hnew.1 hne
  | detachBlob who channel b =>
    rw [detachBlob_ok hok] at hshown
    exact hshown.of_release
  | attachFeedBlob who account b expiresAfter now =>
    obtain ⟨-, -, rfl⟩ := attachFeedBlob_ok hok
    exact hshown.of_attachToFeed (by simpa [uploadsOrAttaches] using hother)
  | detachFeedBlob who account b =>
    rw [detachFeedBlob_ok hok] at hshown
    have hleft := (collectBlob_sameNames _ b).shown hshown
    refine hleft.imp_left ?_
    intro hfed
    obtain ⟨a, ha, hblob⟩ := List.any_eq_true.mp hfed
    exact List.any_eq_true.mpr ⟨a, List.mem_of_mem_filter ha, hblob⟩
  | storeBlob channel b size chunks now =>
    cases hok
    exact hshown.of_storeBlob hunpublished
  | writeBackup account device m now =>
    obtain ⟨f₁, b, hnamed, rfl⟩ := writeBackup_ok hok
    have hheld : Shown (f₁.release fun a => a.channel == account &&
        (f.heldFor account).contains a.blob && !m.blobs.contains a.blob) blob :=
      hshown.congr rfl rfl rfl
    exact hheld.of_release.of_holdNamed hnamed hunpublished
  | dropBackup account =>
    cases hok
    exact hshown.of_dropBackup
  | storeBackupBlob quota account b size chunks now =>
    simp only [perform, storeBackupBlob, bind_eq_ok] at hok
    obtain ⟨-, -, hattach⟩ := hok
    cases hshown.of_attach hattach with
    | inl hold => exact hold.congr rfl rfl rfl
    | inr hnew => exact absurd hnew.2 (hunpublished hnew.1)
  | importBackup b =>
    obtain ⟨⟨f₁, done⟩, himported, rfl⟩ := map_eq_ok.mp hok
    obtain rfl | hmade := importBackup_ok himported
    · exact hshown
    · exact hshown.congr (by rw [hmade]) (by rw [hmade]) (by rw [hmade])
  | releaseCollectedOrphans account =>
    cases hok
    exact hshown.of_release
  | releaseBackupIf account generation =>
    cases hok
    unfold releaseBackupIf at hshown
    split at hshown
    · exact hshown
    · exact hshown.of_dropBackup
  | sweep now =>
    cases hok
    exact hshown.of_sweep

theorem hidden_step (hhidden : ¬Shown f blob) (hdiscreet : Discreet C h blob f op)
    (hother : uploadsOrAttaches blob op = false) : ¬Shown (f.step C h op) blob := by
  intro hshown
  unfold step at hshown
  split at hshown
  · rename_i f' hok
    have hunpublished : Unpublished blob f op := hdiscreet (by rw [hok]; rfl)
    exact hhidden (hshown.of_perform hok hunpublished hother)
  · exact hhidden hshown

/-- A private channel, an account's backup or a standing fold holds the blob. -/
def heldPrivately (f : Files) (blob : Bytes32) (now : UInt64) : Bool :=
  f.attachedPrivately blob || !(f.foldedPairs blob now).isEmpty

def attaching : Filing → Option (Bytes32 × UInt64)
  | .attachBlob _ _ blob _ now => some (blob, now)
  | .attachFeedBlob _ _ blob _ now => some (blob, now)
  | _ => none

/-- Once an attachment is made of a blob that is held privately, nobody but a member fetches it
until it is uploaded or attached again. -/
def Narrow (C : Crypto) (h : Host) (f : Files) (op : Filing) (later : List Filing) : Prop :=
  ∀ blob now f', attaching op = some (blob, now) → f.perform C h op = .ok f' →
    f'.heldPrivately blob now = true →
      ∀ ops, ops <+: later → (∀ o ∈ ops, uploadsOrAttaches blob o = false) → ∀ who t,
        (run (step C h) f' ops).mayFetch who blob t = true →
          (run (step C h) f' ops).isMember who blob t = true

/-- The blob goes to a private channel and nothing shows it, or to a public one or a feed and
no standing fold holds it. -/
def Enclosed (f : Files) : Filing → Prop
  | .attachBlob _ channel blob _ now =>
    if f.visibilityOf channel = some .pub then f.foldedPairs blob now = [] else ¬Shown f blob
  | .attachFeedBlob _ _ blob _ now => f.foldedPairs blob now = []
  | _ => True

theorem attachedPrivately_iff : f.attachedPrivately blob = true ↔
    ∃ a ∈ f.attachment, a.blob = blob ∧ f.visibilityOf a.channel ≠ some .pub := by
  simp [attachedPrivately, holders]

theorem attach_public {channel : Bytes32}
    (hok : f.attach channel blob who expiresAfter now = .ok f')
    (hpub : f.visibilityOf channel = some .pub) (hnot : f.attachedPrivately blob = false) :
    f'.attachedPrivately blob = false := by
  rw [attach_ok hok, Bool.eq_false_iff, ne_eq, attachedPrivately_iff]
  intro hprivate
  have hrow : (∃ a ∈ upsert (fun a => a.channel == channel && a.blob == blob)
      (fun a => { a with attached := now, expiresAfter })
      (Attachment.mk channel blob now expiresAfter who) f.attachment,
      a.blob = blob ∧ f.visibilityOf a.channel ≠ some .pub) := hprivate
  rw [exists_mem_upsert (fun x hx => by simp_all) (fun x hx => by simp_all)] at hrow
  cases hrow with
  | inl hnew => exact hnew.2 hpub
  | inr hold => simp [attachedPrivately_iff.mpr hold] at hnot

theorem Enclosed.hidden (henclosed : f.Enclosed op) (hattaching : attaching op = some (blob, now))
    (hok : f.perform C h op = .ok f') (hprivate : f'.heldPrivately blob now = true) :
    ¬Shown f' blob := by
  cases op with
  | attachBlob who channel b expiresAfter t =>
    obtain ⟨rfl, rfl⟩ := Prod.mk.inj (Option.some.inj hattaching)
    obtain ⟨⟨v, hv, hpublish⟩, -, hattach⟩ := attachBlob_ok hok
    simp only [Enclosed] at henclosed
    by_cases hpub : f.visibilityOf channel = some .pub
    · rw [if_pos hpub] at henclosed
      obtain rfl : v = .pub := Option.some.inj (hv.symm.trans hpub)
      have hpairs : f'.foldedPairs b t = [] := by
        rw [attach_ok hattach]
        exact henclosed
      simp [heldPrivately, attach_public hattach hpub (hpublish rfl), hpairs] at hprivate
    · rw [if_neg hpub] at henclosed
      intro hshown
      exact (hshown.of_attach hattach).elim henclosed fun hnew => hpub hnew.2
  | attachFeedBlob who account b expiresAfter t =>
    obtain ⟨rfl, rfl⟩ := Prod.mk.inj (Option.some.inj hattaching)
    obtain ⟨-, hnot, rfl⟩ := attachFeedBlob_ok hok
    have hheld : f.heldPrivately b t = true := hprivate
    have hpairs : f.foldedPairs b t = [] := henclosed
    simp [heldPrivately, hnot, hpairs] at hheld
  | _ => cases hattaching

/-- An attachment widens no audience, from any store and in any run after it, where it is
enclosed and no step after it publishes where the blob is attached. -/
theorem attach_narrow (C : Crypto) (h : Host) (f : Files) (op : Filing) (later : List Filing)
    (henclosed : f.Enclosed op)
    (hlater : ∀ blob now, attaching op = some (blob, now) →
      Each (Discreet C h blob) (step C h) (f.step C h op) later) : Narrow C h f op later := by
  intro blob now f' hattaching hok hprivate ops hbegins hnone who t hfetch
  have hstep : f.step C h op = f' := by simp only [step, hok]
  obtain ⟨rest, rfl⟩ := hbegins
  have hops : Each (Discreet C h blob) (step C h) f' ops := by
    rw [← hstep]
    exact (each_append.mp (hlater blob now hattaching)).1
  have hothers : Each (fun _ o => uploadsOrAttaches blob o = false) (step C h) f' ops :=
    each_of_mem (fun o ho _ => hnone o ho) f'
  have hhidden : ¬Shown (run (step C h) f' ops) blob := by
    refine (hops.and hothers).run (P := fun s => ¬Shown s blob) ?_ ?_
    · exact fun s o hs hboth => hidden_step hs hboth.1 hboth.2
    · exact henclosed.hidden hattaching hok hprivate
  exact member_of_hidden hhidden hfetch

section Example

def pairFiles : Files :=
  run (step Paired.flatDigest Paired.exchange) empty (foldedRun.take 4)

/-- The file attached again where it is, and folded afterwards, is for the pair. -/
theorem attach_narrow_pair : (pairFiles.perform Paired.flatDigest Paired.exchange
      (.attachBlob 7 0 0 0 13)).isOk = true ∧
    Narrow Paired.flatDigest Paired.exchange pairFiles (.attachBlob 7 0 0 0 13)
      [.fold 0 2 "" 1 20, .sweep 21] := by
  refine ⟨by decide +kernel, attach_narrow _ _ _ _ _ ?_ ?_⟩
  · have hpriv : pairFiles.visibilityOf 0 ≠ some .pub := by decide +kernel
    simp only [Enclosed, if_neg hpriv]
    unfold Shown
    decide +kernel
  · exact fun _ _ _ => ⟨fun _ => trivial, fun _ => trivial, trivial⟩

def roomFiles : Files :=
  let arg := constitution Paired.flatDigest .pub 86400 0 "" ""
  let opening := (actedAt Paired.flatDigest 9 Event.created 7 7 arg 0 genesis).1
  foldedFiles.step Paired.flatDigest Paired.exchange
    (.request 9 (.clear 21) (.create 7 (Paired.flatDigest.publicKey 8)
      ⟨.pub, 86400, 0, "", "", 0, [], [opening]⟩))

/-- The folded file attached to the room is anybody's once the fold's week is over. -/
theorem folded_file_published :
    ¬Narrow Paired.flatDigest Paired.exchange roomFiles (.attachBlob 7 9 0 0 22) [] := by
  intro hnarrow
  let published := roomFiles.step Paired.flatDigest Paired.exchange (.attachBlob 7 9 0 0 22)
  have hok : (roomFiles.perform Paired.flatDigest Paired.exchange
      (.attachBlob 7 9 0 0 22)).isOk = true := by decide +kernel
  have hprivate : published.heldPrivately 0 22 = true := by decide +kernel
  have hfetch : published.mayFetch 6 0 604820 = true := by decide +kernel
  have hstranger : published.isMember 6 0 604820 = false := by decide +kernel
  have hmember := hnarrow 0 22 published rfl (perform_of_isOk hok) hprivate [] List.nil_prefix
    (by simp) 6 604820 hfetch
  rw [run_nil, hstranger] at hmember
  cases hmember

end Example

end Files
end Sqex.Exchange
