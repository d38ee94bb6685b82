import Sqex.Exchange.BlobLives

/-! An attachment goes when its own timer or its channel's window has run out, where a sweep walks
every attachment that a timer ran out on, and closes no channel over one that still runs. -/
namespace Sqex.Exchange
open Std Runs Tables
namespace Files
variable {C : Crypto} {h : Host} {f f' : Files} {now : UInt64}

/-- That many seconds have gone by, in signed columns. -/
def elapsed (since now : UInt64) (secs : UInt32) : Bool :=
  decide (now.toInt64.toInt - since.toInt64.toInt ≥ secs.toNat)

def timerOut (attached now : UInt64) (expiresAfter : UInt32) : Bool :=
  decide (0 < expiresAfter) && elapsed attached now expiresAfter

def windowOut (f : Files) (now : UInt64) (a : Attachment) : Bool :=
  (f.rows a.channel).channel.any fun c => elapsed a.attached now c.retentionSecs

def ranOut (f : Files) (now : UInt64) (a : Attachment) : Bool :=
  timerOut a.attached now a.expiresAfter || f.windowOut now a

/-- Every row that names a blob has run out: a fold's when its record has. -/
def Lapsed (f : Files) (now : UInt64) (blob : Bytes32) : Prop :=
  (∀ a ∈ f.attachment, a.blob = blob → f.ranOut now a = true) ∧
    (∀ a ∈ f.feedAttachment, a.blob = blob → timerOut a.attached now a.expiresAfter = true) ∧
    ∀ a ∈ f.foldedAttachment, a.blob = blob → stillFolded a.foldedAt now = false

def ages : Filing → Bool
  | .beginUpload .. | .beginFeedUpload .. | .putChunk .. | .commitUpload .. | .abortUpload .. => true
  | .attachBlob .. | .attachFeedBlob .. => true
  | .request _ _ (.retain ..) => true
  | _ => false

structure Stays (f f' : Files) : Prop where
  attachment : ∀ a ∈ f.attachment, ∃ x ∈ f'.attachment, x.channel = a.channel ∧ x.blob = a.blob
  feed : ∀ a ∈ f.feedAttachment, ∃ x ∈ f'.feedAttachment, x.account = a.account ∧ x.blob = a.blob
  folded : ∀ a ∈ f.foldedAttachment, a ∈ f'.foldedAttachment

structure Swept (f f' : Files) (now : UInt64) : Prop where
  gone : ∀ a ∈ f'.attachment, f.ranOut now a = false
  feedGone : ∀ a ∈ f'.feedAttachment, timerOut a.attached now a.expiresAfter = false
  foldedGone : ∀ a ∈ f'.foldedAttachment, stillFolded a.foldedAt now = true
  shut : ∀ blob, f.Lapsed now blob → ∀ who later, f'.mayFetch who blob later = false
  kept : ∀ a ∈ f.attachment, f.ranOut now a = false → a ∈ f'.attachment
  feedKept : ∀ a ∈ f.feedAttachment, timerOut a.attached now a.expiresAfter = false →
    a ∈ f'.feedAttachment
  foldedKept : ∀ a ∈ f.foldedAttachment, stillFolded a.foldedAt now = true →
    a ∈ f'.foldedAttachment

def Timely (C : Crypto) (h : Host) (f : Files) (op : Filing) : Prop :=
  (ages op = true → Stays f (f.step C h op)) ∧
    ∀ now, op = .sweep now → Swept f (f.step C h op) now

structure Walked (h : Host) (f : Files) (now : UInt64) : Prop where
  feed : ∀ a ∈ f.feedAttachment, timerOut a.attached now a.expiresAfter = false
  alone : ∀ a ∈ f.attachment, (f.rows a.channel).channel = none →
    timerOut a.attached now a.expiresAfter = false
  closes : ∀ a ∈ f.attachment, ((f.rows a.channel).prune h now).abandoned now = true →
    f.ranOut now a = true

def Walks (h : Host) (f : Files) (op : Filing) : Prop := ∀ now, op = .sweep now → Walked h f now

theorem Stays.refl (f : Files) : Stays f f :=
  ⟨fun a ha => ⟨a, ha, rfl, rfl⟩, fun a ha => ⟨a, ha, rfl, rfl⟩, fun _ ha => ha⟩

theorem Stays.trans {f₁ : Files} (hfirst : Stays f f₁) (hlater : Stays f₁ f') : Stays f f' where
  attachment a ha := by
    obtain ⟨x, hx, hchannel, hblob⟩ := hfirst.attachment a ha
    obtain ⟨y, hy, hchannel', hblob'⟩ := hlater.attachment x hx
    exact ⟨y, hy, hchannel'.trans hchannel, hblob'.trans hblob⟩
  feed a ha := by
    obtain ⟨x, hx, haccount, hblob⟩ := hfirst.feed a ha
    obtain ⟨y, hy, haccount', hblob'⟩ := hlater.feed x hx
    exact ⟨y, hy, haccount'.trans haccount, hblob'.trans hblob⟩
  folded a ha := hlater.folded a (hfirst.folded a ha)

theorem Stays.of_eq (hattachment : f'.attachment = f.attachment)
    (hfeed : f'.feedAttachment = f.feedAttachment)
    (hfolded : f'.foldedAttachment = f.foldedAttachment) : Stays f f' := by
  refine ⟨?_, ?_, ?_⟩
  · rw [hattachment]
    exact (Stays.refl f).attachment
  · rw [hfeed]
    exact (Stays.refl f).feed
  · rw [hfolded]
    exact (Stays.refl f).folded

theorem exists_upsert {α : Type*} {same : α → Bool} {change : α → α} {row : α} {t : List α}
    {p : α → Prop} (hchange : ∀ x, p x → p (change x)) {x : α} (hx : x ∈ t) (hp : p x) :
    ∃ y ∈ upsert same change row t, p y := by
  unfold upsert
  split
  · refine ⟨if same x then change x else x, List.mem_map.mpr ⟨x, hx, rfl⟩, ?_⟩
    split
    · exact hchange x hp
    · exact hp
  · exact ⟨x, List.mem_cons_of_mem _ hx, hp⟩

theorem Stays.attach {channel blob : Bytes32} {who : PubKey} {expiresAfter : UInt32}
    (hok : f.attach channel blob who expiresAfter now = .ok f') : Stays f f' := by
  rw [attach_ok hok]
  refine ⟨?_, (Stays.refl f).feed, (Stays.refl f).folded⟩
  intro a ha
  exact exists_upsert (fun x hx => hx) ha ⟨rfl, rfl⟩

theorem Stays.attachToFeed (f : Files) (account blob : Bytes32) (who : PubKey)
    (expiresAfter : UInt32) (now : UInt64) :
    Stays f (f.attachToFeed account blob who expiresAfter now) := by
  refine ⟨(Stays.refl f).attachment, ?_, (Stays.refl f).folded⟩
  intro a ha
  exact exists_upsert (fun x hx => hx) ha ⟨rfl, rfl⟩

theorem Stays.expireUploads (f : Files) (now : UInt64) : Stays f (f.expireUploads now) := by
  obtain ⟨uploads, chunks, hexpired⟩ := expireUploads_eq f now
  rw [hexpired]
  exact Stays.of_eq rfl rfl rfl

theorem Stays.commitUpload {uploader : PubKey} {id : UInt64} {claimed : Bytes32} {done : Bool}
    (hok : f.commitUpload C uploader id claimed now = .ok (f', done)) : Stays f f' := by
  obtain rfl | ⟨u, chunks, f₁, rfl, hattach⟩ := commitUpload_ok hok
  · exact Stays.refl _
  · have hstored : Stays f (f.storeChunks claimed u.size chunks) := Stays.of_eq rfl rfl rfl
    have hdropped : Stays f₁ (f₁.dropUpload id) := Stays.of_eq rfl rfl rfl
    refine hstored.trans (Stays.trans ?_ hdropped)
    cases hattach with
    | inl hfeed =>
      rw [← hfeed]
      exact Stays.attachToFeed _ _ _ _ _ _
    | inr hchannel => exact Stays.attach hchannel

theorem stays_perform {op : Filing} (hages : ages op = true) (hok : f.perform C h op = .ok f') :
    Stays f f' := by
  cases op with
  | beginUpload quota uploader req now =>
    obtain ⟨⟨f₁, id⟩, hbegun, rfl⟩ := map_eq_ok.mp hok
    rw [beginUpload_ok hbegun]
    exact (Stays.expireUploads f now).trans (Stays.of_eq rfl rfl rfl)
  | beginFeedUpload uploader req now =>
    obtain ⟨⟨f₁, id⟩, hbegun, rfl⟩ := map_eq_ok.mp hok
    rw [beginFeedUpload_ok hbegun]
    exact (Stays.expireUploads f now).trans (Stays.of_eq rfl rfl rfl)
  | putChunk uploader id idx bytes =>
    simp only [perform, putChunk, bind_eq_ok, pure_eq_ok] at hok
    obtain ⟨u, -, -, -, rfl⟩ := hok
    exact Stays.of_eq rfl rfl rfl
  | commitUpload uploader id claimed now =>
    obtain ⟨⟨f₁, done⟩, hcommitted, rfl⟩ := map_eq_ok.mp hok
    exact Stays.commitUpload hcommitted
  | abortUpload uploader id =>
    simp only [perform, abortUpload, bind_eq_ok, pure_eq_ok] at hok
    obtain ⟨u, -, rfl⟩ := hok
    exact Stays.of_eq rfl rfl rfl
  | attachBlob who channel blob expiresAfter now => exact Stays.attach (attachBlob_ok hok).2.2
  | attachFeedBlob who account blob expiresAfter now =>
    rw [(attachFeedBlob_ok hok).2.2]
    exact Stays.attachToFeed f _ _ _ _ _
  | request channel w req =>
    cases req with
    | retain caller device retentionSecs maxEntries action =>
      obtain ⟨r, es, -, rfl⟩ := request_ok hok
      exact Stays.of_eq rfl rfl rfl
    | _ => cases hages
  | _ => cases hages

theorem stays_step {op : Filing} (hages : ages op = true) : Stays f (f.step C h op) := by
  unfold Files.step
  split
  · next hok => exact stays_perform hages hok
  · exact Stays.refl f

theorem outlived_iff {c : ChannelRow} {a : Attachment}
    (hc : (f.rows a.channel).channel = some c) :
    outlived c now a = true ↔ f.ranOut now a = true := by
  have hwindow : f.windowOut now a = elapsed a.attached now c.retentionSecs := by
    simp [windowOut, hc]
  simp only [ranOut, hwindow, outlived, timerOut, elapsed, Bool.or_eq_true, Bool.and_eq_true,
    decide_eq_true_eq, UInt32.lt_iff_toNat_lt]
  split
  · next hshorter =>
    constructor
    · exact fun hout => .inl ⟨hshorter.1, hout⟩
    · intro hout
      omega
  · next hlonger =>
    constructor
    · exact Or.inr
    · intro hout
      omega

theorem mem_swept {a : Attachment} : a ∈ (f.sweep h now).attachment ↔
    a ∈ f.attachment ∧ (timerOut a.attached now a.expiresAfter = true →
      (f.rows a.channel).channel = none) ∧ f.windowOut now a = false ∧
      ((f.rows a.channel).prune h now).abandoned now = false := by
  have hattachment : (f.sweep h now).attachment = f.attachment.filter (f.survives h now) :=
    (swept_names f h now).1
  rw [hattachment, List.mem_filter]
  refine and_congr_right fun _ => ?_
  cases hc : (f.rows a.channel).channel with
  | none =>
    have hempty : ((f.rows a.channel).prune h now).channel = none := hc
    simp [survives, windowOut, Rows.abandoned, hc, hempty]
  | some c =>
    have hout : outlived c now a = true ↔ f.ranOut now a = true := outlived_iff hc
    simp only [ranOut, Bool.or_eq_true] at hout
    simp only [survives, hc, Bool.and_eq_true, Bool.not_eq_true', reduceCtorEq, imp_false,
      Bool.not_eq_true, ← and_assoc]
    refine and_congr_left fun _ => ?_
    rw [← Bool.not_eq_true, hout]
    simp

theorem sweep_others (f : Files) (h : Host) (now : UInt64) :
    (f.sweep h now).feedAttachment = f.feedAttachment ∧
      (f.sweep h now).foldedAttachment =
        f.foldedAttachment.filter fun a => stillFolded a.foldedAt now :=
  (swept_names f h now).2

theorem shut_of_gone {blob : Bytes32}
    (hgone : ∀ a ∈ (f.sweep h now).attachment, f.ranOut now a = false)
    (hfeed : ∀ a ∈ (f.sweep h now).feedAttachment, timerOut a.attached now a.expiresAfter = false)
    (hlapsed : f.Lapsed now blob) (who : PubKey) (later : UInt64) :
    (f.sweep h now).mayFetch who blob later = false := by
  obtain ⟨hattached, hfed, hfolded⟩ := hlapsed
  obtain ⟨hfeeds, hfolds⟩ := sweep_others f h now
  by_contra hfetch
  have hnamed := named_of_mayFetch (Bool.not_eq_false _ ▸ hfetch)
  obtain ⟨a, ha, hblob⟩ | ⟨a, ha, hblob⟩ | ⟨a, ha, hblob⟩ := named_iff.mp hnamed
  · have hout := hattached a (mem_swept.mp ha).1 hblob
    rw [hgone a ha] at hout
    cases hout
  · rw [hfolds, List.mem_filter] at ha
    have hout := hfolded a ha.1 hblob
    rw [hout] at ha
    cases ha.2
  · have hout := hfed a (hfeeds ▸ ha) hblob
    rw [hfeed a ha] at hout
    cases hout

theorem swept_iff : Swept f (f.sweep h now) now ↔ Walked h f now := by
  obtain ⟨hfeeds, hfolds⟩ := sweep_others f h now
  constructor
  · intro hswept
    refine ⟨hfeeds ▸ hswept.feedGone, ?_, ?_⟩
    · intro a ha hnone
      have hempty : ((f.rows a.channel).prune h now).channel = none := hnone
      have hleft : a ∈ (f.sweep h now).attachment :=
        mem_swept.mpr ⟨ha, fun _ => hnone, by simp [windowOut, hnone],
          by simp [Rows.abandoned, hempty]⟩
      have hruns := hswept.gone a hleft
      rw [ranOut, Bool.or_eq_false_iff] at hruns
      exact hruns.1
    · intro a ha hcloses
      by_contra hruns
      have hleft := hswept.kept a ha (by simpa using hruns)
      rw [mem_swept, hcloses] at hleft
      cases hleft.2.2.2
  · intro hwalked
    have hgone : ∀ a ∈ (f.sweep h now).attachment, f.ranOut now a = false := by
      intro a ha
      obtain ⟨hthere, htimer, hwindow, -⟩ := mem_swept.mp ha
      have hruns : timerOut a.attached now a.expiresAfter = false := by
        by_contra hout
        exact hout (hwalked.alone a hthere (htimer (by simpa using hout)))
      rw [ranOut, hruns, hwindow]
      rfl
    have hfeedGone : ∀ a ∈ (f.sweep h now).feedAttachment,
        timerOut a.attached now a.expiresAfter = false := hfeeds ▸ hwalked.feed
    refine ⟨hgone, hfeedGone, ?_, fun blob hlapsed => shut_of_gone hgone hfeedGone hlapsed,
      ?_, ?_, ?_⟩
    · intro a ha
      rw [hfolds] at ha
      exact (List.mem_filter.mp ha).2
    · intro a ha hruns
      have hstays : ((f.rows a.channel).prune h now).abandoned now = false := by
        by_contra hcloses
        have hout := hwalked.closes a ha (by simpa using hcloses)
        rw [hruns] at hout
        cases hout
      rw [ranOut, Bool.or_eq_false_iff] at hruns
      refine mem_swept.mpr ⟨ha, fun hout => ?_, hruns.2, hstays⟩
      rw [hruns.1] at hout
      cases hout
    · intro a ha _
      rwa [hfeeds]
    · intro a ha hstands
      rw [hfolds]
      exact List.mem_filter.mpr ⟨ha, hstands⟩

theorem timely_iff {op : Filing} : Timely C h f op ↔ Walks h f op := by
  have hsweep : ∀ now, op = .sweep now → f.step C h op = f.sweep h now := by
    rintro now rfl
    rfl
  constructor
  · intro htimely now hop
    have hswept := htimely.2 now hop
    rw [hsweep now hop] at hswept
    exact swept_iff.mp hswept
  · intro hwalks
    refine ⟨stays_step, fun now hop => ?_⟩
    rw [hsweep now hop]
    exact swept_iff.mpr (hwalks now hop)

/-- Over every run an attachment goes when its time comes and not before, exactly where every
sweep walks what has a timer that ran out and closes no channel over what still runs. -/
theorem attachments_age (C : Crypto) (h : Host) (ops : List Filing) :
    Each (Timely C h) (step C h) empty ops ↔ Each (Walks h) (step C h) empty ops := by
  have hall : Each (fun _ _ => True) (step C h) empty ops := each_of_mem (by simp) _
  refine each_congr (I := fun _ => True) (fun _ _ _ _ _ => trivial) ?_ trivial hall
  exact fun _ _ _ _ => timely_iff

/-- An account holds a picture against its feed for ten seconds. -/
def feedRun : List Filing :=
  [.beginFeedUpload 7 ⟨7, 1, 1, 10⟩ 0, .putChunk 7 1 0 [9], .commitUpload 7 1 0 1]

def feedFiles : Files := run (step Paired.flatDigest Paired.exchange) empty feedRun

/-- A day later a sweep leaves it, and a stranger may fetch it. -/
theorem feed_timer_ignored : ¬Each (Timely Paired.flatDigest Paired.exchange)
    (step Paired.flatDigest Paired.exchange) empty (feedRun ++ [.sweep 86400]) := by
  intro htimely
  have hswept : Swept feedFiles (feedFiles.sweep Paired.exchange 86400) 86400 :=
    (each_append.mp htimely).2.1.2 86400 rfl
  have hlapsed : feedFiles.Lapsed 86400 0 := by
    refine ⟨?_, ?_, ?_⟩ <;> decide +kernel
  have hfetch : (feedFiles.sweep Paired.exchange 86400).mayFetch 3 0 86401 = true := by
    decide +kernel
  rw [hswept.shut 0 hlapsed 3 86401] at hfetch
  cases hfetch

end Files
end Sqex.Exchange
