import Sqex.Exchange.Backups

/-! Over any interleaving of an account's devices, a collection and a release, the manifest that
stands is whole and what is staged stays: exactly the places where it does not are left out. -/
namespace Sqex.Exchange
open Std Runs Tables
variable {device : PubKey} {op : Filing} {p : PubKey × Bytes32}

namespace Files
variable {C : Crypto} {h : Host} {f f' f₁ : Files} {account blob : Bytes32} {now : UInt64}

theorem attach_attached {channel : Bytes32} {who : PubKey} {expiresAfter : UInt32}
    (hok : f.attach channel blob who expiresAfter now = .ok f') : f'.Attached channel blob := by
  rw [attach_ok hok]
  refine (exists_mem_upsert (fun x hx => ?_) fun x hx => ?_).mpr (.inl ⟨rfl, rfl⟩)
  · simpa using hx
  · simpa using hx

theorem mem_heldFor : blob ∈ f.heldFor account ↔ f.Attached account blob := by
  simp [heldFor, Attached, and_assoc]

theorem holdNamed_attached {held blobs : List Bytes32}
    (hheld : ∀ blob ∈ held, f.Attached account blob)
    (hok : holdNamed account device held now f blobs = .ok f') :
    Stays f f' ∧ f'.backup = f.backup ∧ ∀ blob ∈ blobs, f'.Attached account blob := by
  induction blobs generalizing f with
  | nil =>
    obtain rfl : f = f' := pure_eq_ok.mp hok
    exact ⟨Stays.refl f, rfl, by simp⟩
  | cons blob blobs ih =>
    rw [holdNamed] at hok
    by_cases hthere : held.contains blob = true
    · rw [if_pos hthere] at hok
      obtain ⟨hstays, hbackup, hrest⟩ := ih hheld hok
      refine ⟨hstays, hbackup, ?_⟩
      intro other hother
      cases List.mem_cons.mp hother with
      | inl heq =>
        rw [heq]
        exact hstays.leaves account blob (hheld blob (by simpa using hthere))
      | inr hlater => exact hrest other hlater
    · rw [if_neg hthere] at hok
      simp only [bind_eq_ok] at hok
      obtain ⟨-, -, f₁, hattach, hok⟩ := hok
      have hfirst := Stays.attach hattach
      have hstill : ∀ blob ∈ held, f₁.Attached account blob := fun blob hblob =>
        hfirst.leaves account blob (hheld blob hblob)
      obtain ⟨hstays, hbackup, hrest⟩ := ih hstill hok
      refine ⟨hfirst.trans hstays, hbackup.trans (backup_attach hattach), ?_⟩
      intro other hother
      cases List.mem_cons.mp hother with
      | inl heq =>
        rw [heq]
        exact hstays.leaves account blob (attach_attached hattach)
      | inr hlater => exact hrest other hlater

theorem writeBackup_leaves {m : Manifest} (hok : f.writeBackup account device m now = .ok f') :
    (∃ b, f'.backupOf account = some b ∧ b.blobs = m.blobs) ∧
      (∀ blob ∈ m.blobs, f'.Attached account blob) ∧
      ∀ other, other ≠ account → f'.backupOf other = f.backupOf other ∧ Leaves f f' other := by
  have hwritten : ∃ f₁, holdNamed account device (f.heldFor account) now f m.blobs = .ok f₁ ∧
      f' = (f₁.release fun a => a.channel == account && (f.heldFor account).contains a.blob &&
        !m.blobs.contains a.blob).putBackup
          ⟨account, m.generation, device, now, m.blobs, m.body, m.sig⟩ := by
    simp only [writeBackup] at hok
    split at hok <;> simp only [bind_eq_ok, pure_eq_ok] at hok
    · obtain ⟨-, -, f₁, hnamed, hdone⟩ := hok
      exact ⟨f₁, hnamed, hdone.symm⟩
    · obtain ⟨f₁, hnamed, hdone⟩ := hok
      exact ⟨f₁, hnamed, hdone.symm⟩
  obtain ⟨f₁, hnamed, rfl⟩ := hwritten
  obtain ⟨hstays, hbackup, hall⟩ := holdNamed_attached (fun _ hb => mem_heldFor.mp hb) hnamed
  refine ⟨⟨_, by rw [backupOf_putBackup, if_pos rfl], rfl⟩, ?_, ?_⟩
  · intro blob hblob
    obtain ⟨a, ha, hchannel, rfl⟩ := hall blob hblob
    exact attached_release.mpr ⟨a, ha, by simp [hblob], hchannel, rfl⟩
  · intro other hother
    refine ⟨?_, (hstays.leaves other).trans (leaves_release fun a _ hchannel => ?_)⟩
    · rw [backupOf_putBackup, if_neg (Ne.symm hother), backupOf, release_backup, hbackup]
      rfl
    · have hne : a.channel ≠ account := hchannel ▸ hother
      simp [hne]

theorem importBackup_leaves {b : Backup} {done : Bool}
    (hok : f.importBackup b = .ok (f', done)) : f' = f ∨
      f'.attachment = f.attachment ∧ f.backupOf b.account = none ∧
        (∀ blob ∈ b.blobs, f.Attached b.account blob) ∧
        ∀ other, f'.backupOf other = if b.account = other then some b else f.backupOf other := by
  unfold importBackup at hok
  split at hok
  · obtain ⟨rfl, -⟩ := Prod.mk.inj (pure_eq_ok.mp hok)
    exact .inl rfl
  · next hnone =>
    simp only [bind_eq_ok, refuseIf_eq_ok, exists_const, pure_eq_ok, Prod.mk.injEq] at hok
    obtain ⟨hheld, rfl, -⟩ := hok
    refine .inr ⟨rfl, by simpa using hnone, ?_, ?_⟩
    · intro blob hblob
      by_contra hnot
      refine hheld (List.any_eq_true.mpr ⟨blob, hblob, ?_⟩)
      rw [← mem_heldFor] at hnot
      simpa using hnot
    · intro other
      unfold backupOf
      rw [List.find?_cons]
      by_cases hb : b.account = other
      · simp [hb]
      · have hnot : (b.account == other) = false := by simpa using hb
        simp [hb, hnot]

theorem orphans_leave {other : PubKey} (hattached : f.Attached other blob)
    (hstays : other = account → f.names account blob = true ∨
      ∀ a ∈ f.attachment, a.channel = account → a.blob = blob → a.uploader ≠ 0) :
    (f.releaseCollectedOrphans account).Attached other blob := by
  obtain ⟨a, ha, rfl, rfl⟩ := hattached
  refine attached_release.mpr ⟨a, ha, ?_, rfl, rfl⟩
  by_cases hmine : a.channel = account
  · cases hstays hmine with
    | inl hnamed =>
      unfold names at hnamed
      cases hb : f.backupOf account with
      | none => simp [hb] at hnamed
      | some b =>
        rw [hb] at hnamed
        simp only [Option.any_some, List.contains_iff_mem] at hnamed
        simp [hnamed]
    | inr hdevice =>
      have hnot : (a.uploader == 0) = false := by simpa using hdevice a ha hmine rfl
      simp only [hnot, Bool.and_false, Bool.false_and]
  · simp [hmine]

theorem commitUpload_attached {uploader : PubKey} {id : UInt64} {claimed : Bytes32} {u : Upload}
    (hok : f.commitUpload C uploader id claimed now = .ok (f', true))
    (hu : f.upload.find? (·.id == id) = some u) (hfeed : u.isFeed = false) :
    f'.Attached u.channel claimed := by
  simp only [commitUpload, bind_eq_ok, uploadOf, hu] at hok
  obtain ⟨v, hv, hok⟩ := hok
  obtain rfl : u = v := by
    split at hv
    · exact Except.ok.inj hv
    · cases hv
  split at hok
  · cases hok
  · split at hok
    · cases hok
    · simp only [hfeed, Bool.false_eq_true, if_false, bind_eq_ok, pure_eq_ok, Prod.mk.injEq,
        and_true] at hok
      obtain ⟨f₁, hattach, rfl⟩ := hok
      have hattached := attach_attached hattach
      exact hattached

end Files

/-- An exchange, what devices have staged there against their accounts and no manifest has named
yet, and the releases between the generation they read and their drop. -/
structure Keeping where
  files : Files
  staged : List (PubKey × Bytes32)
  releasing : List (PubKey × UInt64)

inductive Backing where
  /-- Any operation; of a release, that it reads the generation. -/
  | filing (op : Filing)
  /-- A collection that found the account over its quota drops what the account has. -/
  | giveUp (account : PubKey)
  | release (account : PubKey) (generation : UInt64)

namespace Keeping
variable {C : Crypto} {h : Host} {s : Keeping} {f f' : Files}

def new : Keeping := ⟨.empty, [], []⟩

section
variable (s : Keeping) (C : Crypto) (h : Host)

def stages (f : Files) : Filing → Option (PubKey × Bytes32)
  | .commitUpload uploader id claimed now =>
    match f.upload.find? (·.id == id), f.commitUpload C uploader id claimed now with
    | some u, .ok (_, true) =>
      if u.isFeed = false ∧ u.channel = uploader then some (uploader, claimed) else none
    | _, _ => none
  | _ => none

def drops (account : PubKey) : Filing → Bool
  | .dropBackup dropped => dropped == account
  | _ => false

/-- Staged still: neither named by a manifest since, nor dropped. -/
def left (op : Filing) (files : Files) : List (PubKey × Bytes32) :=
  ((stages C s.files op).toList ++ s.staged).filter fun p =>
    !files.names p.1 p.2 && !drops p.1 op

def step (s : Keeping) (b : Backing) : Keeping :=
  match b with
  | .filing (.releaseBackupIf account generation) =>
    if generation = 0 ∨ ((s.files.backupOf account).map (·.generation)).getD 0 ≠ generation then s
    else { s with releasing := (account, generation) :: s.releasing }
  | .filing op => match s.files.perform C h op with
    | .error _ => s
    | .ok files => { s with files, staged := s.left C op files }
  | .giveUp account => { s with files := s.files.dropBackup account }
  | .release account generation =>
    if (account, generation) ∈ s.releasing then { s with
      files := s.files.dropBackup account
      releasing := s.releasing.erase (account, generation) }
    else s

structure Whole : Prop where
  manifest : ∀ account b, s.files.backupOf account = some b → ∀ blob ∈ b.blobs,
    s.files.Holds blob ∧ s.files.Attached account blob
  staged : ∀ p ∈ s.staged, s.files.Attached p.1 p.2

def Matches : Backing → Prop
  | .release account generation => (account, generation) ∈ s.releasing →
    ∀ b, s.files.backupOf account = some b → b.generation = generation
  | _ => True

def Safe (s : Keeping) (b : Backing) : Prop :=
  (s.step C h b).Whole ∧ s.Matches b

def Keeps (account : PubKey) : Prop :=
  (s.files.backupOf account).isSome = true ∨ ∃ p ∈ s.staged, p.1 = account

/-- What has to hold of one operation, beside that no channel goes by the key of an account with
something to lose. -/
def Clear (s : Keeping) : Backing → Prop
  | .filing (.sweep now) => Files.Sheltered h s.files (.sweep now)
  | .filing (.writeBackup account device m now) =>
    (s.files.writeBackup account device m now).isOk = true →
      (∀ p ∈ s.staged, p.1 = account → p.2 ∈ m.blobs) ∧ ∀ p ∈ s.releasing, p.1 ≠ account
  | .filing (.importBackup b) => (s.files.backupOf b.account) = none →
    ∀ p ∈ s.releasing, p.1 ≠ b.account
  | .filing (.releaseCollectedOrphans account) => ∀ p ∈ s.staged, p.1 = account →
    ∀ a ∈ s.files.attachment, a.channel = account → a.blob = p.2 → a.uploader ≠ 0
  | .giveUp account => ∀ p ∈ s.staged, p.1 ≠ account
  | .release account generation => (account, generation) ∈ s.releasing →
    ∀ p ∈ s.staged, p.1 ≠ account
  | _ => True

def Meets (s : Keeping) (b : Backing) : Prop :=
  (∀ account, s.Keeps account → s.files.Apart account) ∧ s.Clear h b

structure Held : Prop where
  kept : s.files.Kept
  whole : ∀ account b, s.files.backupOf account = some b → ∀ blob ∈ b.blobs,
    s.files.Attached account blob
  staged : ∀ p ∈ s.staged, s.files.Attached p.1 p.2
  releasing : ∀ p ∈ s.releasing, ∀ b, s.files.backupOf p.1 = some b → b.generation = p.2

end

theorem held_new : Held new :=
  ⟨Files.kept_empty, by simp [new, Files.backupOf, Files.empty], by simp [new], by simp [new]⟩

theorem Held.toWhole (hheld : Held s) : Whole s where
  manifest account b hb blob hblob := by
    have hattached := hheld.whole account b hb blob hblob
    refine ⟨?_, hattached⟩
    obtain ⟨a, ha, -, rfl⟩ := hattached
    have hnamed : s.files.named a.blob = true := Files.named_iff.mpr (.inl ⟨a, ha, rfl⟩)
    obtain ⟨row, hrow, hid⟩ := hheld.kept.stored a.blob hnamed
    refine ⟨row, hrow, hid, fun i hi => ?_⟩
    rw [← hid]
    exact hheld.kept.whole row hrow i hi
  staged := hheld.staged

theorem Held.matches_of (hheld : Held s) (b : Backing) : s.Matches b := by
  cases b with
  | filing op | giveUp account => trivial
  | release account generation => exact fun hmem => hheld.releasing _ hmem

theorem mem_left {C : Crypto} {files : Files} :
    p ∈ s.left C op files ↔ (stages C s.files op = some p ∨ p ∈ s.staged) ∧
      files.names p.1 p.2 = false ∧ drops p.1 op = false := by
  simp only [left, List.mem_filter, List.mem_append, Option.mem_toList,
    Bool.and_eq_true, Bool.not_eq_true']

theorem stages_attached (hp : stages C f op = some p) (hok : f.perform C h op = .ok f') :
    f'.Attached p.1 p.2 := by
  cases op with
  | commitUpload uploader id claimed now =>
    obtain ⟨⟨f₁, done⟩, hcommitted, rfl⟩ := map_eq_ok.mp hok
    simp only [stages, hcommitted] at hp
    split at hp
    · next hu hdone =>
      split at hp
      · next hto =>
        obtain ⟨hfeed, hchannel⟩ := hto
        obtain rfl := Option.some.inj hp
        obtain ⟨rfl, rfl⟩ := Prod.mk.inj (Except.ok.inj hdone)
        rw [← hchannel]
        exact Files.commitUpload_attached hcommitted hu hfeed
      · cases hp
    · cases hp
  | _ => cases hp

theorem keeps_of_backup {account : PubKey} {b : Backup} (hb : s.files.backupOf account = some b) :
    s.Keeps account := .inl (by rw [hb]; rfl)

theorem keeps_of_staged (hp : p ∈ s.staged) : s.Keeps p.1 :=
  .inr ⟨p, hp, rfl⟩

theorem Held.other (hheld : Held s) {b : Backing} (hmeets : Meets h s b)
    (hother : Files.ofBackup op = false) (hok : s.files.perform C h op = .ok f') (hkept : f'.Kept) :
    Held { s with files := f', staged := s.left C op f' } := by
  have hsame := Files.backupOf_perform hother hok
  have hleaves : ∀ account, s.Keeps account → Files.Leaves s.files f' account :=
    fun account hkeeps => Files.leaves_perform (hmeets.1 account hkeeps) hother hok
  refine ⟨hkept, ?_, ?_, ?_⟩
  · intro account b hb blob hblob
    rw [hsame account] at hb
    exact hleaves account (keeps_of_backup hb) blob (hheld.whole account b hb blob hblob)
  · intro p hp
    cases (mem_left.mp hp).1 with
    | inl hnew => exact stages_attached hnew hok
    | inr hold => exact hleaves p.1 (keeps_of_staged hold) p.2 (hheld.staged p hold)
  · intro p hp b hb
    rw [hsame p.1] at hb
    exact hheld.releasing p hp b hb

theorem Held.write (hheld : Held s) {account : PubKey} {m : Manifest} {now : UInt64}
    (hok : s.files.writeBackup account device m now = .ok f') (hkept : f'.Kept)
    (hstaged : ∀ p ∈ s.staged, p.1 = account → p.2 ∈ m.blobs)
    (hreleasing : ∀ p ∈ s.releasing, p.1 ≠ account) :
    Held { s with files := f', staged := s.left C (.writeBackup account device m now) f' } := by
  obtain ⟨⟨b, hb, hblobs⟩, hall, hothers⟩ := Files.writeBackup_leaves hok
  refine ⟨hkept, ?_, ?_, ?_⟩
  · intro other b' hb' blob hblob
    by_cases hmine : other = account
    · subst hmine
      obtain rfl := Option.some.inj (hb.symm.trans hb')
      exact hall blob (hblobs ▸ hblob)
    · obtain ⟨hsame, hleaves⟩ := hothers other hmine
      rw [hsame] at hb'
      exact hleaves blob (hheld.whole other b' hb' blob hblob)
  · intro p hp
    have hold : p ∈ s.staged := (mem_left.mp hp).1.resolve_left (by simp [stages])
    by_cases hmine : p.1 = account
    · rw [hmine]
      exact hall p.2 (hstaged p hold hmine)
    · exact (hothers p.1 hmine).2 p.2 (hheld.staged p hold)
  · intro p hp b' hb'
    rw [(hothers p.1 (hreleasing p hp)).1] at hb'
    exact hheld.releasing p hp b' hb'

theorem Held.drop (hheld : Held s) {account : PubKey} {staged : List (PubKey × Bytes32)}
    {releasing : List (PubKey × UInt64)} (hstaged : ∀ p ∈ staged, p ∈ s.staged ∧ p.1 ≠ account)
    (hreleasing : ∀ p ∈ releasing, p ∈ s.releasing) :
    Held ⟨s.files.dropBackup account, staged, releasing⟩ := by
  refine ⟨hheld.kept.dropBackup account, ?_, ?_, ?_⟩
  · intro other b hb blob hblob
    rw [Files.backupOf_dropBackup] at hb
    split at hb
    · cases hb
    · next hne =>
      exact Files.attached_dropBackup hne blob (hheld.whole other b hb blob hblob)
  · intro p hp
    obtain ⟨hold, hne⟩ := hstaged p hp
    exact Files.attached_dropBackup (Ne.symm hne) p.2 (hheld.staged p hold)
  · intro p hp b hb
    rw [Files.backupOf_dropBackup] at hb
    split at hb
    · cases hb
    · exact hheld.releasing p (hreleasing p hp) b hb

theorem Held.takeOver (hheld : Held s) {b : Backup} {done : Bool}
    (hok : s.files.importBackup b = .ok (f', done)) (hkept : f'.Kept)
    (hreleasing : s.files.backupOf b.account = none → ∀ p ∈ s.releasing, p.1 ≠ b.account) :
    Held { s with files := f', staged := s.left C (.importBackup b) f' } := by
  have hold : ∀ p ∈ s.left C (.importBackup b) f', p ∈ s.staged := fun p hp =>
    (mem_left.mp hp).1.resolve_left (by simp [stages])
  obtain rfl | ⟨hattachment, hnone, hall, hsame⟩ := Files.importBackup_leaves hok
  · exact ⟨hkept, hheld.whole, fun p hp => hheld.staged p (hold p hp), hheld.releasing⟩
  · have hleaves : ∀ account, Files.Leaves s.files f' account := fun account =>
      Files.leaves_of_eq hattachment
    refine ⟨hkept, ?_, fun p hp => hleaves p.1 p.2 (hheld.staged p (hold p hp)), ?_⟩
    · intro other b' hb' blob hblob
      rw [hsame other] at hb'
      split at hb'
      · next hmine =>
        obtain rfl := Option.some.inj hb'
        exact hleaves other blob (hmine ▸ hall blob hblob)
      · exact hleaves other blob (hheld.whole other b' hb' blob hblob)
    · intro p hp b' hb'
      rw [hsame p.1, if_neg (Ne.symm (hreleasing hnone p hp))] at hb'
      exact hheld.releasing p hp b' hb'

theorem Held.orphans (hheld : Held s) {account : PubKey}
    (hstaged : ∀ p ∈ s.staged, p.1 = account →
      ∀ a ∈ s.files.attachment, a.channel = account → a.blob = p.2 → a.uploader ≠ 0) :
    Held { s with
      files := s.files.releaseCollectedOrphans account
      staged := s.left C (.releaseCollectedOrphans account)
        (s.files.releaseCollectedOrphans account) } := by
  have hsame : ∀ other, (s.files.releaseCollectedOrphans account).backupOf other =
      s.files.backupOf other := by
    intro other
    rw [Files.backupOf, Files.releaseCollectedOrphans, Files.release_backup]
    rfl
  refine ⟨hheld.kept.release _, ?_, ?_, ?_⟩
  · intro other b hb blob hblob
    rw [hsame other] at hb
    refine Files.orphans_leave (hheld.whole other b hb blob hblob) fun hmine => .inl ?_
    rw [hmine] at hb
    simpa [Files.names, hb] using hblob
  · intro p hp
    have hold : p ∈ s.staged := (mem_left.mp hp).1.resolve_left (by simp [stages])
    exact Files.orphans_leave (hheld.staged p hold) fun hmine => .inr (hstaged p hold hmine)
  · intro p hp b hb
    rw [hsame p.1] at hb
    exact hheld.releasing p hp b hb

theorem Held.step (hheld : Held s) {b : Backing} (hmeets : Meets h s b) :
    Held (s.step C h b) := by
  cases b with
  | giveUp account =>
    exact hheld.drop (fun p hp => ⟨hp, hmeets.2 p hp⟩) fun _ hp => hp
  | release account generation =>
    simp only [Keeping.step]
    split
    · next hmem =>
      exact hheld.drop (fun p hp => ⟨hp, hmeets.2 hmem p hp⟩) fun _ hp => List.mem_of_mem_erase hp
    · exact hheld
  | filing op =>
    have hkept : ∀ files, s.files.perform C h op = .ok files → Files.Sheltered h s.files op →
        files.Kept := by
      intro files hok hsheltered
      have hnext := hheld.kept.step (C := C) hsheltered
      unfold Files.step at hnext
      rwa [hok] at hnext
    cases op with
    | releaseBackupIf account generation =>
      simp only [Keeping.step]
      split
      · exact hheld
      · next hcheck =>
        refine ⟨hheld.kept, hheld.whole, hheld.staged, ?_⟩
        intro p hp b hb
        cases List.mem_cons.mp hp with
        | inl hnew =>
          subst hnew
          simp only [hb, Option.map_some, Option.getD_some, not_or, ne_eq, not_not] at hcheck
          exact hcheck.2
        | inr hold => exact hheld.releasing p hold b hb
    | writeBackup account device m now =>
      simp only [Keeping.step]
      split
      · exact hheld
      · next files hok =>
        have hwrite : s.files.writeBackup account device m now = .ok files := hok
        obtain ⟨hstaged, hreleasing⟩ := hmeets.2 (by rw [hwrite]; rfl)
        exact hheld.write hwrite (hkept files hok trivial) hstaged hreleasing
    | dropBackup account =>
      simp only [Keeping.step, Files.perform]
      refine hheld.drop (fun p hp => ?_) fun _ hp => hp
      obtain ⟨hmem, -, hdrops⟩ := mem_left.mp hp
      have hne : account ≠ p.1 := by simpa [drops] using hdrops
      exact ⟨hmem.resolve_left (by simp [stages]), Ne.symm hne⟩
    | importBackup b =>
      simp only [Keeping.step]
      split
      · exact hheld
      · next files hok =>
        obtain ⟨⟨f₁, done⟩, himported, rfl⟩ := map_eq_ok.mp hok
        exact hheld.takeOver himported (hkept _ hok trivial) hmeets.2
    | releaseCollectedOrphans account => exact hheld.orphans hmeets.2
    | sweep now => exact hheld.other hmeets rfl rfl (hkept _ rfl hmeets.2)
    | _ =>
      simp only [Keeping.step]
      split
      · exact hheld
      · next files hok => exact hheld.other hmeets rfl hok (hkept files hok trivial)

/-- In every run whose steps meet the condition every manifest is whole, what is staged stays, and
a release drops what it was for. -/
theorem backups_whole (C : Crypto) (h : Host) (bs : List Backing)
    (hmeets : Each (Meets h) (step C h) new bs) : Each (Safe C h) (step C h) new bs := by
  refine hmeets.imp_of (P := Held) (fun s b hheld hb => hheld.step hb) ?_ held_new
  intro s b hheld hb
  exact ⟨(hheld.step hb).toWhole, hheld.matches_of b⟩

section Example
open Paired

/-- 7 writes a manifest, a release for it reads its generation, 7 writes another. -/
def overtaken : List Backing :=
  [.filing (.writeBackup 7 8 ⟨1, [], [], 0⟩ 10), .filing (.releaseBackupIf 7 1),
    .filing (.writeBackup 7 8 ⟨2, [], [], 0⟩ 11)]

/-- One device of 7 stages a segment, another writes a manifest. -/
def writtenOver : List Backing :=
  [.filing (.beginUpload 1000 7 ⟨7, 1, 1, 0⟩ 10), .filing (.putChunk 7 1 0 [9]),
    .filing (.commitUpload 7 1 0 11)]

/-- The release for the first drops the second; the write lets go of the other device's segment. -/
theorem dropped_and_let_go :
    ¬Each (Safe flatDigest exchange) (step flatDigest exchange) new (overtaken ++ [.release 7 1]) ∧
      ¬Each (Safe flatDigest exchange) (step flatDigest exchange) new
        (writtenOver ++ [.filing (.writeBackup 7 8 ⟨1, [], [], 0⟩ 12)]) := by
  constructor
  · intro hsafe
    let s := run (step flatDigest exchange) new overtaken
    have hmatches : s.Matches (.release 7 1) := (each_append.mp hsafe).2.1.2
    have hcoming : ((7 : PubKey), (1 : UInt64)) ∈ s.releasing := by decide +kernel
    have hsecond : (s.files.backupOf 7).map (·.generation) = some 2 := by decide +kernel
    obtain ⟨b, hb, hgeneration⟩ := Option.map_eq_some_iff.mp hsecond
    have hfirst := hmatches hcoming b hb
    rw [hgeneration] at hfirst
    exact absurd hfirst (by decide)
  · intro hsafe
    let s := run (step flatDigest exchange) new
      (writtenOver ++ [.filing (.writeBackup 7 8 ⟨1, [], [], 0⟩ 12)])
    have hwhole : s.Whole := (each_append.mp hsafe).2.1.1
    have hstaged : ((7 : PubKey), (0 : Bytes32)) ∈ s.staged := by decide +kernel
    have hnone : s.files.attachment.length = 0 := by decide +kernel
    obtain ⟨a, ha, -⟩ := hwhole.staged _ hstaged
    rw [List.length_eq_zero_iff.mp hnone] at ha
    cases ha

theorem meets_of_clear {b : Backing} (hnone : s.files.channels.isEmpty = true)
    (hclear : Clear h s b) : Meets h s b := by
  refine ⟨fun account _ => ?_, hclear⟩
  have hempty : s.files.rows account = .empty := by
    rw [Files.rows, ExtTreeMap.isEmpty_iff.mp hnone]
    rfl
  exact ⟨by rw [hempty]; rfl, by rw [hempty]; rfl⟩

/-- A device of 7 stages a segment and writes the manifest that names it. -/
theorem backups_whole_staged : Each (Safe flatDigest exchange) (step flatDigest exchange) new
    (writtenOver ++ [.filing (.writeBackup 7 8 ⟨1, [0], [], 0⟩ 12)]) := by
  refine backups_whole flatDigest exchange _ ⟨?_, ?_, ?_, ?_, trivial⟩
  · exact meets_of_clear (by decide +kernel) trivial
  · exact meets_of_clear (by decide +kernel) trivial
  · exact meets_of_clear (by decide +kernel) trivial
  · have hstaged : (run (step flatDigest exchange) new writtenOver).staged = [(7, 0)] := by
      decide +kernel
    have hreleasing : (run (step flatDigest exchange) new writtenOver).releasing = [] := by
      decide +kernel
    refine meets_of_clear (by decide +kernel) fun _ => ⟨fun p hp _ => ?_, fun p hp => ?_⟩
    · obtain rfl := List.mem_singleton.mp (hstaged ▸ hp)
      exact List.mem_singleton_self _
    · exact absurd (hreleasing ▸ hp) List.not_mem_nil

end Example

end Keeping
end Sqex.Exchange
