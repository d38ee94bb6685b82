import Sqex.Exchange.BlobLives

/-! Whoever writes into a channel is let in at that moment, present and not muted: posts are asked
when they are written, an upload and a signal where they begin, which is not where they take effect.
-/
namespace Sqex.Exchange
open Std Runs Tables
variable {channel : Bytes32} {account : PubKey} {now : UInt64} {op : Filing}

structure Pass where
  channel : Bytes32
  incarnation : Bytes32
  account : PubKey
  deriving DecidableEq

namespace Files

def lets (f : Files) (channel : Bytes32) (account : PubKey) : Bool :=
  (f.rows channel).channel.isSome && (f.roleOf channel account).isSome &&
    !(f.rows channel).isMuted account

def stands (f : Files) (p : Pass) : Bool :=
  (f.rows p.channel).channel.any (·.incarnation == p.incarnation) && f.lets p.channel p.account

def passOf (f : Files) (channel : Bytes32) (account : PubKey) : Option Pass :=
  (f.rows channel).channel.map fun c => ⟨channel, c.incarnation, account⟩

def opened (f : Files) (id : UInt64) (p : Pass) : Bool :=
  (f.upload.find? (·.id == id)).any fun u => u.channel == p.channel && u.uploader == p.account

def reserved (f : Files) : Filing → Option UInt64
  | .beginUpload quota uploader req now =>
    (f.beginUpload quota uploader req now).toOption.map Prod.snd
  | .beginFeedUpload uploader req now => (f.beginFeedUpload uploader req now).toOption.map Prod.snd
  | _ => none

def admitted (f : Files) : Filing → Option (UInt64 × Pass)
  | .beginUpload quota uploader req now => do
    let id ← f.reserved (.beginUpload quota uploader req now)
    let p ← f.passOf req.channel uploader
    pure (id, p)
  | _ => none

/-- The signal an operation lets in, which is logged later. -/
def rings (f : Files) : Filing → Option Pass
  | .request channel _ (.signal caller) => f.passOf channel caller
  | _ => none

def ToChannel (f : Files) (u : Upload) : Prop :=
  u.isFeed = false ∧ (u.channel ≠ u.uploader ∨ (f.rows u.channel).channel.isSome = true)

/-- What an operation that goes through takes from an account in a channel: its place, its voice
or the channel, were it only to be made again. -/
def silences (C : Crypto) (f : Files) (op : Filing) (p : Pass) : Bool :=
  match op with
  | .request channel _ req =>
    channel == p.channel && ((f.rows channel).founds C channel req || req.silences p.account)
  | .succeed account _ _ _ _ => account == p.account
  | .adopt channel _ _ _ _ => channel == p.channel
  | .forgetCopy channel => channel == p.channel
  | .copied channel _ => channel == p.channel
  | .fold channel _ _ _ _ => channel == p.channel
  | _ => false

section Standing
variable {C : Crypto} {h : Host} {f f' : Files} {p : Pass}

theorem lets_iff : f.lets channel account = true ↔
    (f.rows channel).channel.isSome = true ∧ ((f.rows channel).roleOf account).isSome = true ∧
      (f.rows channel).isMuted account = false := by
  simp [lets, roleOf, and_assoc]

theorem stands_iff : f.stands p = true ↔
    (f.rows p.channel).ident.any (·.2 == p.incarnation) = true ∧
      (f.rows p.channel).voices p.account = true := by
  have hvoices : (f.rows p.channel).voices p.account = true ↔
      ((f.rows p.channel).roleOf p.account).isSome = true ∧
        (f.rows p.channel).isMuted p.account = false := by
    simp only [Rows.voices, Rows.roleOf, Rows.isMuted]
    cases (f.rows p.channel).member[p.account]? <;> simp
  rw [hvoices, stands, Bool.and_eq_true, lets_iff, Rows.ident]
  cases (f.rows p.channel).channel <;> simp

theorem stands_of_rows (hrows : f'.rows p.channel = f.rows p.channel)
    (hstands : f.stands p = true) : f'.stands p = true := by
  rw [stands_iff, hrows]
  exact stands_iff.mp hstands

theorem stands_of_channels (hchannels : f'.channels = f.channels) (hstands : f.stands p = true) :
    f'.stands p = true :=
  stands_of_rows (by rw [rows, rows, hchannels]) hstands

/-- Whoever a change takes nothing from stands as it did. -/
theorem stands_of_turns {seated : Option PubKey} {lost : PubKey → Bool}
    (hturns : (f.rows p.channel).Turns (f'.rows p.channel) seated lost)
    (hkept : lost p.account = false) (hstands : f.stands p = true) : f'.stands p = true := by
  obtain ⟨hident, hvoices⟩ := stands_iff.mp hstands
  obtain ⟨hstill, hsame⟩ := hturns.voices p.account hvoices hkept
  exact stands_iff.mpr ⟨hsame ▸ hident, hstill⟩

theorem stands_request {w : Around} {req : Request} (hok : f.request C h channel w req = .ok f')
    (hkept : f.silences C (.request channel w req) p = false) (hstands : f.stands p = true) :
    f'.stands p = true := by
  obtain ⟨r, es, hperform, rfl⟩ := request_ok hok
  have hrows : Files.rows (if (f.rows channel).destroys C h channel w req then
      destroyFiles { f.putRows channel r with retired := f.retires C channel req } channel
      else { f.putRows channel r with retired := f.retires C channel req }) p.channel =
        if channel = p.channel then r else f.rows p.channel := by
    split
    · rw [destroyFiles, rows_release]
      exact rows_putRows f channel p.channel r
    · exact rows_putRows f channel p.channel r
  by_cases hhere : channel = p.channel
  · rw [if_pos hhere] at hrows
    simp only [silences, hhere, beq_self_eq_true, Bool.true_and, Bool.or_eq_false_iff] at hkept
    rw [hhere] at hperform
    have hturns := Rows.perform_turns hkept.1 hperform
    rw [← hrows] at hturns
    exact stands_of_turns hturns hkept.2 hstands
  · rw [if_neg hhere] at hrows
    exact stands_of_rows hrows hstands

theorem stands_succeed {successor : PubKey} {issued : UInt64} {sig : Bytes64}
    (hok : f.succeed C h account successor issued sig now = .ok f')
    (hkept : (account == p.account) = false) (hstands : f.stands p = true) :
    f'.stands p = true := by
  refine succeed_induction (P := fun g => g.stands p = true) hok (fun _ => hstands)
    fun g channel r es hg hmoved => ?_
  by_cases hhere : channel = p.channel
  · rw [hhere] at hmoved
    have hturns := Rows.succeed_turns hmoved
    have hrow : (g.putRows channel r).rows p.channel = r := by rw [rows_putRows, if_pos hhere]
    rw [← hrow] at hturns
    exact stands_of_turns hturns hkept hg
  · exact stands_of_rows (by rw [rows_putRows, if_neg hhere]) hg

theorem stands_sweep (hstands : f.stands p = true) :
    (f.sweep h now).stands p = true := by
  have hchannel : ∀ (g : Files) (channel : Bytes32), g.stands p = true →
      (g.sweepChannel h now channel).stands p = true := by
    intro g channel hg
    by_cases hhere : channel = p.channel
    · have hswept : (g.sweepChannel h now channel).rows p.channel =
          (g.rows p.channel).sweep h now := by
        unfold sweepChannel
        dsimp only
        split
        · rw [destroyFiles, rows_release, rows_putRows, if_pos hhere, hhere]
        · rw [rows_putRows, if_pos hhere, hhere]
      have hturns : (g.rows p.channel).Turns ((g.sweepChannel h now channel).rows p.channel) none
          fun _ => false := hswept ▸ Rows.sweep_turns now
      exact stands_of_turns hturns rfl hg
    · exact stands_of_rows (rows_sweepChannel hhere) hg
  obtain ⟨uploads, chunks, hexpired⟩ := expireUploads_eq f now
  have hchannels : ((f.expireUploads now).expireFolds now).channels = f.channels := by
    rw [(expireFolds_sameNames _ now).1, hexpired]
  have hswept : (f.swept h now).stands p = true :=
    List.foldlRecOn (motive := fun g => g.stands p = true) _ _
      (stands_of_channels hchannels hstands) fun g hg channel _ => hchannel g channel hg
  exact stands_of_channels rfl hswept

/-- Only what `silences` names takes anything from whoever stands. -/
theorem stands_kept (hok : f.perform C h op = .ok f') (hkept : f.silences C op p = false)
    (hstands : f.stands p = true) : f'.stands p = true := by
  have hother : ∀ {channel : Bytes32}, (channel == p.channel) = false → channel ≠ p.channel :=
    fun hne => by simpa using hne
  cases op with
  | request channel w req => exact stands_request hok hkept hstands
  | succeed account successor issued sig now => exact stands_succeed hok hkept hstands
  | adopt channel incarnation origin windowSecs now =>
    obtain ⟨r, -, rfl | rfl⟩ := adopt_ok hok
    · exact stands_of_rows (by rw [rows_putRows, if_neg (hother hkept)]) hstands
    · refine stands_of_rows ?_ hstands
      rw [destroyFiles, rows_release, rows_putRows, if_neg (hother hkept)]
  | forgetCopy channel =>
    rw [forgetCopy_ok hok]
    refine stands_of_rows ?_ hstands
    rw [destroyFiles, rows_release, rows_putRows, if_neg (hother hkept)]
  | copied channel rows =>
    cases hok
    exact stands_of_rows (by rw [rows_putRows, if_neg (hother hkept)]) hstands
  | fold channel into domain incarnation now =>
    obtain ⟨record, rfl⟩ := fold_ok hok
    refine stands_of_rows ?_ hstands
    rw [destroyFiles, rows_release, rows_putRows, if_neg (hother hkept)]
    rfl
  | beginUpload quota uploader req now =>
    obtain ⟨⟨f₁, id⟩, hbegun, rfl⟩ := map_eq_ok.mp hok
    obtain ⟨uploads, chunks, hexpired⟩ := expireUploads_eq f now
    refine stands_of_channels ?_ hstands
    rw [beginUpload_ok hbegun, hexpired]
    rfl
  | beginFeedUpload uploader req now =>
    obtain ⟨⟨f₁, id⟩, hbegun, rfl⟩ := map_eq_ok.mp hok
    obtain ⟨uploads, chunks, hexpired⟩ := expireUploads_eq f now
    refine stands_of_channels ?_ hstands
    rw [beginFeedUpload_ok hbegun, hexpired]
    rfl
  | putChunk uploader id idx bytes =>
    simp only [perform, putChunk, bind_eq_ok, pure_eq_ok] at hok
    obtain ⟨u, -, -, -, rfl⟩ := hok
    exact stands_of_channels rfl hstands
  | commitUpload uploader id claimed now =>
    obtain ⟨⟨f₁, done⟩, hcommitted, rfl⟩ := map_eq_ok.mp hok
    obtain rfl | ⟨u, chunks, f₂, rfl, hattach⟩ := commitUpload_ok hcommitted
    · exact hstands
    · refine stands_of_channels (f := f) ?_ hstands
      obtain hfeed | hchannel := hattach
      · rw [← hfeed]
        rfl
      · rw [attach_ok hchannel]
        rfl
  | abortUpload uploader id =>
    simp only [perform, abortUpload, bind_eq_ok, pure_eq_ok] at hok
    obtain ⟨u, -, rfl⟩ := hok
    exact stands_of_channels rfl hstands
  | attachBlob who channel blob expiresAfter now =>
    obtain ⟨-, -, hattach⟩ := attachBlob_ok hok
    rw [attach_ok hattach]
    exact stands_of_channels rfl hstands
  | detachBlob who channel blob =>
    rw [detachBlob_ok hok]
    exact stands_of_rows (rows_release f _ p.channel) hstands
  | attachFeedBlob who account blob expiresAfter now =>
    obtain ⟨-, -, rfl⟩ := attachFeedBlob_ok hok
    exact stands_of_channels rfl hstands
  | detachFeedBlob who account blob =>
    rw [detachFeedBlob_ok hok]
    exact stands_of_channels (collectBlob_sameNames _ blob).channels hstands
  | storeBlob channel blob size chunks now =>
    cases hok
    exact stands_of_channels rfl hstands
  | writeBackup account device m now =>
    obtain ⟨f₁, b, hnamed, rfl⟩ := writeBackup_ok hok
    have hheld : f₁.stands p = true :=
      holdNamed_induction (P := fun g => g.stands p = true) hnamed hstands
        fun g g₁ _ _ hg _ hattach => by
          rw [attach_ok hattach]
          exact stands_of_channels rfl hg
    exact stands_of_rows (rows_release f₁ _ p.channel) hheld
  | dropBackup account =>
    cases hok
    exact stands_of_rows (rows_release f _ p.channel) hstands
  | storeBackupBlob quota account blob size chunks now =>
    simp only [perform, storeBackupBlob, bind_eq_ok] at hok
    obtain ⟨-, -, hattach⟩ := hok
    rw [attach_ok hattach]
    exact stands_of_channels rfl hstands
  | importBackup b =>
    obtain ⟨⟨f₁, done⟩, himported, rfl⟩ := map_eq_ok.mp hok
    obtain rfl | hmade := importBackup_ok himported
    · exact hstands
    · exact stands_of_channels (by rw [hmade]) hstands
  | releaseCollectedOrphans account =>
    cases hok
    exact stands_of_rows (rows_release f _ p.channel) hstands
  | releaseBackupIf account generation =>
    cases hok
    unfold releaseBackupIf
    split
    · exact hstands
    · exact stands_of_rows (rows_release f _ p.channel) hstands
  | sweep now =>
    cases hok
    exact stands_sweep hstands

/-- Where an upload to a channel begins, its uploader is let in. -/
theorem stands_admitted {x : UInt64 × Pass} (hx : x ∈ f.admitted op)
    (hother : x.2.channel ≠ x.2.account) : f.stands x.2 = true := by
  cases op with
  | beginUpload quota uploader req now =>
    simp only [admitted, reserved, passOf, Option.mem_def, Option.bind_eq_bind,
      Option.bind_eq_some_iff, Option.map_eq_some_iff] at hx
    obtain ⟨id, ⟨y, hbegun, rfl⟩, q, ⟨c, hc, rfl⟩, heq⟩ := hx
    obtain rfl := Option.some.inj heq
    have hown : (req.channel == uploader) = false := by simpa using hother
    cases hok : f.beginUpload quota uploader req now with
    | error e => simp [hok, Except.toOption] at hbegun
    | ok z =>
      simp only [beginUpload, hown, Bool.false_eq_true, if_false, bind_eq_ok, refuseIf_eq_ok,
        exists_const] at hok
      obtain ⟨-, -, hrole, hmuted, -⟩ := hok
      have hlets : f.lets req.channel uploader = true :=
        lets_iff.mpr ⟨by rw [hc]; rfl, by simpa [Option.isSome_iff_ne_none] using hrole,
          by simpa using hmuted⟩
      simp [stands, hc, hlets]
  | _ => simp [admitted] at hx

theorem stands_rings (hok : f.perform C h op = .ok f') (hp : p ∈ f.rings op) :
    f.stands p = true ∧ f.silences C op p = false := by
  cases op with
  | request channel w req =>
    cases req with
    | signal caller =>
      obtain ⟨r, es, hperform, -⟩ := request_ok hok
      simp only [rings, passOf, Option.mem_def, Option.map_eq_some_iff] at hp
      obtain ⟨c, hc, rfl⟩ := hp
      obtain ⟨u, hsignal, -⟩ := map_eq_ok.mp (quiet_eq_ok.mp hperform).1
      simp only [Rows.signal, bind_eq_ok, refuseIf_eq_ok] at hsignal
      obtain ⟨-, -, -, hrole, hmuted⟩ := hsignal
      have hlets : f.lets channel caller = true :=
        lets_iff.mpr ⟨by rw [hc]; rfl, by simpa [Option.isSome_iff_ne_none] using hrole,
          by simpa using hmuted⟩
      exact ⟨by simp [stands, hc, hlets], by simp [silences, Rows.founds, Request.silences]⟩
    | _ => simp [rings] at hp
  | _ => simp [rings] at hp

end Standing

end Files

/-- An exchange, and the signals between their check and the log. Beside it: the uploads open whose
uploader was let in ever since they began (`good`), those nothing was taken from by any step since
(`calm`), and the signals of accounts so spared (`calling`). -/
structure Desk where
  files : Files
  good : List (UInt64 × Pass)
  calm : List (UInt64 × Pass)
  calling : List Pass
  ringing : List Pass
  heard : List Pass

inductive Act where
  | filing (op : Filing)
  /-- A signal that was let in is logged for the channel. -/
  | hear (p : Pass)

namespace Desk
variable {C : Crypto} {h : Host} {s : Desk} {f f' : Files}

def new : Desk := ⟨.empty, [], [], [], [], []⟩

/-- Uploads before their standing is looked at again: a number may come back. -/
def begun (s : Desk) (op : Filing) (uploads : List (UInt64 × Pass)) : List (UInt64 × Pass) :=
  (s.files.admitted op).toList ++ uploads.filter fun x => s.files.reserved op != some x.1

def step (C : Crypto) (h : Host) (s : Desk) (act : Act) : Desk :=
  match act with
  | .filing op => match s.files.perform C h op with
    | .error _ => s
    | .ok files =>
      { files
        good := (s.begun op s.good).filter fun x => files.opened x.1 x.2 && files.stands x.2
        calm := (s.begun op s.calm).filter fun x =>
          files.opened x.1 x.2 && x.2.channel != x.2.account && !s.files.silences C op x.2
        calling := (s.files.rings op).toList ++ s.calling.filter fun p => !s.files.silences C op p
        ringing := (s.files.rings op).toList ++ s.ringing
        heard := s.heard }
  | .hear p =>
    if p ∈ s.ringing then { s with ringing := s.ringing.erase p, heard := p :: s.heard } else s

/-- Whoever adds an entry of its own, an attachment or a signal is let in as it does; and an
upload adds nothing unless its uploader was let in ever since. -/
def Proper (C : Crypto) (h : Host) (s : Desk) (act : Act) : Prop :=
  match act with
  | .filing (.request channel w (.post account device req)) =>
    (s.files.perform C h (.request channel w (.post account device req))).isOk = true →
      s.files.lets channel account = true
  | .filing (.attachBlob who channel blob expiresAfter now) =>
    (s.files.attachBlob who channel blob expiresAfter now).isOk = true →
      s.files.lets channel who = true
  | .filing (.commitUpload uploader id claimed now) =>
    ∀ files u, s.files.commitUpload C uploader id claimed now = .ok (files, true) →
      s.files.upload.find? (·.id == id) = some u → s.files.ToChannel u →
        s.files.lets u.channel uploader = true ∧
          ∃ p, (id, p) ∈ s.good ∧ p.channel = u.channel ∧ p.account = uploader
  | .hear p => p ∈ s.ringing → s.files.stands p = true
  | _ => True

/-- Nobody muted attaches; and from nobody who was let in as an upload began, or as a signal was
checked, is its place, its voice or the channel taken before that takes effect. -/
def Granted (C : Crypto) (s : Desk) (act : Act) : Prop :=
  match act with
  | .filing (.attachBlob who channel blob expiresAfter now) =>
    (s.files.attachBlob who channel blob expiresAfter now).isOk = true →
      (s.files.rows channel).isMuted who = false
  | .filing (.commitUpload uploader id claimed now) =>
    ∀ files u, s.files.commitUpload C uploader id claimed now = .ok (files, true) →
      s.files.upload.find? (·.id == id) = some u → s.files.ToChannel u → ∃ p, (id, p) ∈ s.calm
  | .hear p => p ∈ s.ringing → p ∈ s.calling
  | _ => True

theorem lets_post {w : Around} {device : PubKey} {req : Post}
    (hok : (f.perform C h (.request channel w (.post account device req))).isOk = true) :
    f.lets channel account = true := by
  obtain ⟨r, es, hpost, -⟩ := Files.request_ok (Files.perform_of_isOk hok)
  obtain ⟨-, hrole, hmuted, c, r₁, e, -, hposted, -⟩ := Rows.post_ok hpost
  obtain ⟨_, _, _, happended⟩ := hposted
  have hchannel : (f.rows channel).channel = some c := happended.channel
  exact Files.lets_iff.mpr ⟨by rw [hchannel]; rfl, hrole, hmuted⟩

theorem lets_attach {blob : Bytes32} {who : PubKey} {expiresAfter : UInt32}
    (hok : (f.attachBlob who channel blob expiresAfter now).isOk = true) :
    f.lets channel who = true ↔ (f.rows channel).isMuted who = false := by
  cases hattach : f.attachBlob who channel blob expiresAfter now with
  | error e =>
    rw [hattach] at hok
    cases hok
  | ok f' =>
    simp only [Files.attachBlob, bind_eq_ok, refuseIf_eq_ok, exists_const,
      Rows.channelRow_ok] at hattach
    obtain ⟨c, hc, hrole, -⟩ := hattach
    rw [Files.lets_iff, hc]
    simp only [Option.isSome_some, true_and, and_iff_right_iff_imp]
    intro _
    simpa [Option.isSome_iff_ne_none] using hrole

/-- What is calm is good, whoever is good is let in, and so is whoever calls. -/
structure Settled (s : Desk) : Prop where
  calm : ∀ x ∈ s.calm, x ∈ s.good
  good : ∀ x ∈ s.good, s.files.opened x.1 x.2 = true ∧ s.files.stands x.2 = true
  calling : ∀ p ∈ s.calling, s.files.stands p = true

theorem settled_step (hs : Settled s) (act : Act) : Settled (s.step C h act) := by
  cases act with
  | hear p =>
    simp only [step]
    split
    · exact ⟨hs.calm, hs.good, hs.calling⟩
    · exact hs
  | filing op =>
    cases hok : s.files.perform C h op with
    | error e =>
      simp only [step, hok]
      exact hs
    | ok files =>
      simp only [step, hok]
      refine ⟨fun x hx => ?_, fun x hx => by simpa using (List.mem_filter.mp hx).2,
        fun p hp => ?_⟩
      · simp only [begun, List.mem_filter, List.mem_append, Option.mem_toList, Bool.and_eq_true,
          bne_iff_ne, Bool.not_eq_true'] at hx ⊢
        obtain ⟨hfrom, ⟨hopened, hother⟩, hkept⟩ := hx
        have hstands : s.files.stands x.2 = true := by
          obtain hnew | hheld := hfrom
          · exact Files.stands_admitted hnew hother
          · exact (hs.good x (hs.calm x hheld.1)).2
        exact ⟨hfrom.imp_right fun hheld => ⟨hs.calm x hheld.1, hheld.2⟩, hopened,
          Files.stands_kept hok hkept hstands⟩
      · rw [List.mem_append, Option.mem_toList, List.mem_filter, Bool.not_eq_true'] at hp
        obtain hnew | ⟨hheld, hkept⟩ := hp
        · obtain ⟨hstands, hkept⟩ := Files.stands_rings hok hnew
          exact Files.stands_kept hok hkept hstands
        · exact Files.stands_kept hok hkept (hs.calling p hheld)

theorem proper_of_granted (hs : Settled s) {act : Act} (hgranted : Granted C s act) :
    Proper C h s act := by
  cases act with
  | hear p => exact fun hp => hs.calling p (hgranted hp)
  | filing op =>
    cases op with
    | request channel w req =>
      cases req with
      | post account device req => exact lets_post
      | _ => trivial
    | attachBlob who channel blob expiresAfter now =>
      exact fun hok => (lets_attach hok).mpr (hgranted hok)
    | commitUpload uploader id claimed now =>
      intro files u hok hu hto
      obtain ⟨p, hp⟩ := hgranted files u hok hu hto
      have hgood := hs.calm _ hp
      obtain ⟨hopened, hstands⟩ := hs.good _ hgood
      have hmine : u.uploader = uploader := by
        simp only [Files.commitUpload, bind_eq_ok, Files.uploadOf, hu] at hok
        obtain ⟨v, hv, -⟩ := hok
        split at hv
        · assumption
        · cases hv
      simp only [Files.opened, hu, Option.any_some, Bool.and_eq_true, beq_iff_eq] at hopened
      have hwho : p.account = uploader := hopened.2.symm.trans hmine
      simp only [Files.stands, Bool.and_eq_true] at hstands
      refine ⟨?_, p, hgood, hopened.1.symm, hwho⟩
      rw [hopened.1, ← hwho]
      exact hstands.2
    | _ => trivial

/-- In every run in which nobody muted attaches and nobody loses its place, its voice or its channel
between the beginning of an upload or the check of a signal and its taking effect, whoever writes is
let in. -/
theorem writers_let_in (C : Crypto) (h : Host) {acts : List Act}
    (hgranted : Each (Granted C) (step C h) new acts) :
    Each (Proper C h) (step C h) new acts := by
  have hnew : Settled new := by
    constructor
    · exact fun x hx => by cases hx
    · exact fun x hx => by cases hx
    · exact fun p hp => by cases hp
  exact hgranted.imp_of (fun _ act hs _ => settled_step hs act)
    (fun _ _ hs hgranted => proper_of_granted hs hgranted) hnew

section Example
open Paired

def uploading : List Act :=
  let request := ⟨.priv, 86400, 0, "", "", 0, [⟨5, .member⟩],
    [act Event.created 7 7 (constitution flatDigest .priv 86400 0 "" "") 0,
      act Event.added 5 7 [Role.member.toByte] 1]⟩
  [.filing (.request 0 (.clear 10) (.create 7 (flatDigest.publicKey 8) request)),
    .filing (.beginUpload 1000 5 ⟨0, 1, 1, 0⟩ 11), .filing (.putChunk 5 1 0 [9])]

def muting : Act :=
  .filing (.request 0 (.clear 12) (.mute 7 (flatDigest.publicKey 8) 5
    (act Event.muted 5 7 [] 2) true))

/-- A signal and an upload that take effect before 5 is muted. -/
def beforehand : List Act :=
  uploading ++ [.filing (.request 0 (.clear 11) (.signal 5)), .hear ⟨0, 0, 5⟩,
    .filing (.commitUpload 5 1 0 12), muting]

theorem writers_let_in_beforehand :
    Each (Proper flatDigest exchange) (step flatDigest exchange) new beforehand ∧
      (run (step flatDigest exchange) new beforehand).heard = [⟨0, 0, 5⟩] ∧
      (run (step flatDigest exchange) new beforehand).files.attachment.length = 1 ∧
      (run (step flatDigest exchange) new beforehand).files.lets 0 5 = false := by
  refine ⟨writers_let_in flatDigest exchange ⟨trivial, trivial, trivial, trivial, ?_, ?_, trivial,
    trivial⟩, by decide +kernel, by decide +kernel, by decide +kernel⟩
  · exact fun _ => by decide +kernel
  · exact fun _ _ _ _ _ => ⟨⟨0, 0, 5⟩, by decide +kernel⟩

def mutedMeanwhile : List Act := uploading ++ [muting]

def mutedDesk : Desk := run (step flatDigest exchange) new mutedMeanwhile

/-- What 5 uploads lands all the same. -/
theorem muted_upload_lands : ¬Each (Proper flatDigest exchange) (step flatDigest exchange) new
    (mutedMeanwhile ++ [.filing (.commitUpload 5 1 0 13)]) := by
  intro hproper
  have hcommit : Proper flatDigest exchange mutedDesk (.filing (.commitUpload 5 1 0 13)) :=
    (each_append.mp hproper).2.1
  have hmuted : mutedDesk.files.lets 0 5 = false := by decide +kernel
  have hupload : (mutedDesk.files.upload.find? (·.id == 1)).map
      (fun u => (u.channel, u.uploader, u.isFeed)) = some (0, 5, false) := by decide +kernel
  have hstored : (mutedDesk.files.commitUpload flatDigest 5 1 0 13).toOption.map Prod.snd =
      some true := by decide +kernel
  obtain ⟨u, hu, hwhere⟩ := Option.map_eq_some_iff.mp hupload
  simp only [Prod.mk.injEq] at hwhere
  obtain ⟨hchannel, huploader, hfeed⟩ := hwhere
  have hto : mutedDesk.files.ToChannel u := by
    refine ⟨hfeed, .inl ?_⟩
    rw [hchannel, huploader]
    decide
  cases hcommitted : mutedDesk.files.commitUpload flatDigest 5 1 0 13 with
  | error e =>
    rw [hcommitted] at hstored
    cases hstored
  | ok x =>
    obtain ⟨files, done⟩ := x
    have hdone : done = true := by
      rw [hcommitted] at hstored
      exact Option.some.inj hstored
    have hlets := (hcommit files u (hdone ▸ hcommitted) hu hto).1
    rw [hchannel, hmuted] at hlets
    cases hlets

end Example

end Desk
end Sqex.Exchange
