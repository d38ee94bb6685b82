import Sqex.Exchange.Cursors
import Sqex.Exchange.DirectMessage
import Sqex.Exchange.FileOps
import Sqex.Exchange.Tombstones

/-! A channel destroyed and made again under one identifier: what the tables hold of it then,
against what they would hold had it never been there. -/
namespace Sqex.Exchange
open Std

structure EnvelopeRow where
  recipient : PubKey
  publisher : PubKey
  sig : Bytes64
  epoch : UInt32
  fromEpoch : UInt32
  toEpoch : UInt32
  prekeyId : UInt32
  ephemeral : Bytes32
  ciphertext : Bytes

structure Report where
  id : UInt64
  reporter : PubKey
  target : UInt64
  reason : UInt8
  reported : UInt64
  note : String

/-- Everything the tables hold under one identifier, but the incarnations it has used. -/
structure Record where
  rows : Rows
  envelope : List EnvelopeRow
  cursor : ExtTreeMap PubKey CursorRow
  attachment : List Attachment
  tombstone : Stones
  report : List Report
  upload : List Upload
  uploadChunk : List UploadChunk
  folded : Option Fold
  /-- The log of a folded direct message, each entry under its incarnation. -/
  foldedEntry : List (Bytes32 × Entry)
  foldedAttachment : List FoldedAttachment

namespace Record

def empty : Record where
  rows := .empty
  envelope := []
  cursor := ∅
  attachment := []
  tombstone := ∅
  report := []
  upload := []
  uploadChunk := []
  folded := none
  foldedEntry := []
  foldedAttachment := []

/-- Drop the channel, and of the other tables what the store's list of them names. -/
def destroy (x : Record) : Record :=
  { x with rows := x.rows.destroy, envelope := [], cursor := ∅, attachment := [] }

def perform (C : Crypto) (h : Host) (channel : Bytes32) (w : Around) (x : Record)
    (req : Request) : Except ChannelError Record := do
  let (r, _) ← x.rows.perform C h channel w req
  let kept := if x.rows.destroys C h channel w req then x.destroy else x
  pure { kept with rows := r }

/-- Nothing is held that a destroyed channel leaves behind. -/
structure Bare (x : Record) : Prop where
  replica : x.rows.replica = ∅
  replicated : x.rows.replicated = none
  originHistory : x.rows.originHistory = ∅
  stranded : x.rows.stranded = ∅
  tombstone : x.tombstone = ∅
  report : x.report = []
  upload : x.upload = []
  uploadChunk : x.uploadChunk = []
  folded : x.folded = none
  foldedEntry : x.foldedEntry = []
  foldedAttachment : x.foldedAttachment = []

/-- The channel is destroyed: an admin closes it, the last member of a private one leaves, or it
is a squatter's and the create that follows discards it. -/
inductive Destroyed (C : Crypto) (h : Host) (channel : Bytes32) (x : Record) (create : Request) :
    Record → Prop
  | closed {w caller x'} (hok : x.perform C h channel w (.close caller) = .ok x') :
    Destroyed C h channel x create x'
  | left {w caller device action x'}
    (hlast : x.rows.destroys C h channel w (.leave caller device action) = true)
    (hok : x.perform C h channel w (.leave caller device action) = .ok x') :
    Destroyed C h channel x create x'
  | squatted (hheld : x.rows.channel.isSome = true)
    (hclaim : x.rows.founds C channel create = true) : Destroyed C h channel x create x

end Record

def Around.fresh (w : Around) : Around := { w with folded := none, retired := fun _ => false }

namespace Rows
variable {C : Crypto} {h : Host} {channel : Bytes32} {w : Around} {k r r' : Rows}
  {es : List Ordered} {caller device : PubKey}

def carry (k r : Rows) : Rows :=
  { r with
    replica := k.replica
    replicated := k.replicated
    originHistory := k.originHistory
    stranded := k.stranded }

theorem destroy_eq_carry (k : Rows) : k.destroy = k.carry .empty := rfl

theorem writeSystem_carry {s : System} {arg : Bytes} {now : UInt64} :
    (k.carry r).writeSystem C h channel s arg now = .ok (r', es) ↔
      ∃ r₁, r.writeSystem C h channel s arg now = .ok (r₁, es) ∧ r' = k.carry r₁ := by
  simp only [writeSystem_ok]
  constructor
  · intro hwritten
    obtain ⟨c, input, e, hes, hacted⟩ := hwritten
    have hordered := hacted.appended
    exact ⟨_, ⟨c, input, e, hes, hacted.signed, hacted.terms, hacted.step,
      ⟨hordered.channel, hordered.free, hordered.ordered, rfl⟩⟩, hordered.rows⟩
  · intro hplain
    obtain ⟨r₁, ⟨c, input, e, hes, hacted⟩, rfl⟩ := hplain
    have hordered := hacted.appended
    refine ⟨c, input, e, hes, hacted.signed, hacted.terms, hacted.step,
      ⟨hordered.channel, hordered.free, hordered.ordered, ?_⟩⟩
    rw [hordered.rows]
    rfl

theorem addInvitees_carry {invitees : List (Invitee × Action)}
    (hok : (k.carry r).addInvitees C h channel w caller device invitees = .ok (r', es)) :
    ∃ r₁, r.addInvitees C h channel w.fresh caller device invitees = .ok (r₁, es) ∧
      r' = k.carry r₁ := by
  induction invitees generalizing r es r' with
  | nil =>
    obtain ⟨rfl, rfl⟩ := Prod.mk.inj (Except.ok.inj hok)
    exact ⟨r, rfl, rfl⟩
  | cons i rest ih =>
    obtain ⟨i, action⟩ := i
    unfold addInvitees at hok ⊢
    have hsame : w.fresh.blocked i.account caller = w.blocked i.account caller := rfl
    rw [hsame]
    split at hok
    · rename_i hblocked
      rw [if_pos hblocked]
      exact ih hok
    · rename_i hblocked
      rw [if_neg hblocked]
      simp only [bind_eq_ok, Prod.exists, pure_eq_ok, Prod.mk.injEq] at hok ⊢
      obtain ⟨r₁, es₁, hwrite, r₂, more, hrest, rfl, rfl⟩ := hok
      have hseated : (k.carry r).seatNew i.account i.role w.now =
          k.carry (r.seatNew i.account i.role w.now) := rfl
      rw [hseated] at hwrite
      obtain ⟨r₃, hwritten, rfl⟩ := writeSystem_carry.mp hwrite
      obtain ⟨r₄, hadded, rfl⟩ := ih hrest
      exact ⟨r₄, ⟨r₃, es₁, hwritten, r₄, more, hadded, rfl, rfl⟩, rfl⟩

theorem found_carry {req : Create}
    (hok : (k.carry r).found C h channel w caller device req = .ok (r', es)) :
    ∃ r₁, r.found C h channel w.fresh caller device req = .ok (r₁, es) ∧ r' = k.carry r₁ := by
  simp only [found, bind_eq_ok, refuseIf_eq_ok, exists_const] at hok ⊢
  obtain ⟨-, -, hmany, hfull, hquota, -, hfree, hok⟩ := hok
  cases hactions : req.actions with
  | nil => simp [hactions] at hok
  | cons opening actions =>
    simp only [hactions, bind_eq_ok, refuseIf_eq_ok, exists_const, Prod.exists, pure_eq_ok,
      Prod.mk.injEq] at hok ⊢
    obtain ⟨hlength, r₁, first, hfirst, r₂, more, hmore, rfl, rfl⟩ := hok
    have hbase : ∀ c : ChannelRow,
        seatNew { k.carry r with channel := some c } caller .admin w.now =
          k.carry (seatNew { r with channel := some c } caller .admin w.now) := fun _ => rfl
    rw [hbase] at hfirst
    obtain ⟨r₃, hopened, rfl⟩ := writeSystem_carry.mp hfirst
    obtain ⟨r₄, hadded, rfl⟩ := addInvitees_carry hmore
    exact ⟨r₄, ⟨(), rfl, hmany, hfull, hquota, Bool.false_ne_true, hfree, hlength, r₃, first,
      hopened, r₄, more, hadded, rfl, rfl⟩, rfl⟩

theorem found_plain {req : Create}
    (hok : Rows.empty.found C h channel w caller device req = .ok (r, es)) :
    Rows.empty.carry r = r := by
  have hcarried : (Rows.empty.carry .empty).found C h channel w caller device req = .ok (r, es) :=
    hok
  obtain ⟨r₁, -, rfl⟩ := found_carry hcarried
  rfl

/-- The last member of a private channel leaves nothing more behind than a close does. -/
theorem leave_destroys {action : Action}
    (hlast : r.destroys C h channel w (.leave caller device action) = true)
    (hok : r.leave C h channel w caller device action = .ok (r', es)) : r' = r.destroy := by
  obtain ⟨-, c, hc, role, -, -, r₁, hwrite, rfl⟩ := leave_ok.mp hok
  simp only [destroys, hc, Option.any_some, Bool.and_eq_true, beq_iff_eq] at hlast
  obtain ⟨hpriv, halone⟩ := hlast
  obtain ⟨c₁, input, e, -, hacted⟩ := writeSystem_ok.mp hwrite
  have hstood : standDown c r caller role = r.unseat caller := by simp [standDown, hpriv]
  have hrows := hacted.appended.rows
  have hchannel := hacted.appended.channel
  rw [hstood] at hrows hchannel
  obtain rfl : c = c₁ := Option.some.inj (hc.symm.trans hchannel)
  have hleft : (after C c (link C input)).visibility ≠ .pub := by simp [after, hpriv]
  rw [if_pos halone, hrows]
  simp only [lastOut, if_neg hleft]
  rfl

end Rows

namespace Record
variable {C : Crypto} {h : Host} {channel : Bytes32} {w : Around} {x d x' : Record}
  {caller device : PubKey} {req : Create}

theorem perform_ok {asked : Request} : x.perform C h channel w asked = .ok x' ↔
    ∃ r es, x.rows.perform C h channel w asked = .ok (r, es) ∧
      x' = { (if x.rows.destroys C h channel w asked then x.destroy else x) with rows := r } := by
  simp only [perform, bind_eq_ok, Prod.exists, pure_eq_ok]
  constructor
  · intro hdone
    obtain ⟨r, es, hok, rfl⟩ := hdone
    exact ⟨r, es, hok, rfl⟩
  · intro hdone
    obtain ⟨r, es, hok, rfl⟩ := hdone
    exact ⟨r, es, hok, rfl⟩

theorem Destroyed.remade (hdestroyed : Destroyed C h channel x (.create caller device req) d)
    (hok : d.perform C h channel w (.create caller device req) = .ok x') :
    validRetention req.retentionSecs = true ∧
      ∃ r es, x.rows.destroy.found C h channel w caller device req = .ok (r, es) ∧
        x' = { x.destroy with rows := r } := by
  obtain ⟨r, es, hcreate, rfl⟩ := perform_ok.mp hok
  simp only [Rows.perform, Rows.create, bind_eq_ok, refuseIf_eq_ok, exists_const] at hcreate
  obtain ⟨hretention, hcreate⟩ := hcreate
  have hvalid : validRetention req.retentionSecs = true := by simpa using hretention
  have hended : d = x.destroy → validRetention req.retentionSecs = true ∧
      ∃ r' es', x.rows.destroy.found C h channel w caller device req = .ok (r', es') ∧
        { (if d.rows.destroys C h channel w (.create caller device req) then d.destroy else d) with
          rows := r } = { x.destroy with rows := r' } := by
    intro hd
    subst hd
    have hnone : x.destroy.rows.channel = none := rfl
    rw [hnone] at hcreate
    refine ⟨hvalid, r, es, hcreate, ?_⟩
    simp [Rows.destroys, hnone]
  cases hdestroyed with
  | closed hclosed =>
    obtain ⟨r₁, es₁, hclose, hd⟩ := perform_ok.mp hclosed
    obtain ⟨hdone, -⟩ := quiet_eq_ok.mp hclose
    obtain ⟨-, -, rfl⟩ := Rows.close_ok.mp hdone
    exact hended hd
  | left hlast hleft =>
    obtain ⟨r₁, es₁, hleave, hd⟩ := perform_ok.mp hleft
    have hgone := Rows.leave_destroys hlast hleave
    rw [if_pos hlast, hgone] at hd
    exact hended hd
  | squatted hheld hclaim =>
    obtain ⟨c, hc⟩ := Option.isSome_iff_exists.mp hheld
    have hdestroys : x.rows.destroys C h channel w (.create caller device req) = true := by
      simp only [Rows.destroys, hheld, hclaim, Bool.and_self]
    simp only [Rows.founds, hc, Option.isNone_some, Bool.false_or, Bool.and_eq_true,
      Option.isNone_iff_eq_none, beq_iff_eq] at hclaim
    obtain ⟨hrole, hsquatted⟩ := hclaim
    simp only [hc, hrole, hsquatted, Option.isSome_none, Bool.false_eq_true, if_false] at hcreate
    refine ⟨hvalid, r, es, hcreate, ?_⟩
    rw [if_pos hdestroys]

theorem empty_perform (hvalid : validRetention req.retentionSecs = true) {r : Rows}
    {es : List Ordered}
    (hfound : Rows.empty.found C h channel w caller device req = .ok (r, es)) :
    empty.perform C h channel w (.create caller device req) = .ok { empty with rows := r } := by
  refine perform_ok.mpr ⟨r, es, ?_, by simp [Rows.destroys, empty, Rows.empty]⟩
  have hretention : refuseIf (validRetention req.retentionSecs = false) .badRetention = .ok () := by
    simp [hvalid]
  have hcreate : Rows.empty.create C h channel w caller device req = .ok (r, es) := by
    rw [Rows.create, hretention]
    exact hfound
  exact hcreate

theorem made_bare (hok : empty.perform C h channel w (.create caller device req) = .ok x') :
    x'.Bare := by
  obtain ⟨r, es, hcreate, rfl⟩ := perform_ok.mp hok
  simp only [Rows.perform, Rows.create, bind_eq_ok, refuseIf_eq_ok, exists_const] at hcreate
  have hplain := Rows.found_plain hcreate.2
  rw [← hplain]
  have hnot : empty.rows.destroys C h channel w (.create caller device req) = false := rfl
  rw [hnot]
  exact ⟨rfl, rfl, rfl, rfl, rfl, rfl, rfl, rfl, rfl, rfl, rfl⟩

/-- A channel destroyed and made again holds exactly what it would hold had it never been there,
where a destroy left nothing behind. -/
theorem recreated_iff {x' : Record} (C : Crypto) (h : Host) (channel : Bytes32) (w : Around)
    (x d : Record) (caller device : PubKey) (req : Create)
    (hdestroyed : Destroyed C h channel x (.create caller device req) d)
    (hmade : d.perform C h channel w (.create caller device req) = .ok x') :
    empty.perform C h channel w.fresh (.create caller device req) = .ok x' ↔ x.Bare := by
  obtain ⟨hvalid, r, es, hfound, rfl⟩ := hdestroyed.remade hmade
  rw [Rows.destroy_eq_carry] at hfound
  obtain ⟨r₁, hfresh, rfl⟩ := Rows.found_carry hfound
  rw [empty_perform hvalid hfresh, Except.ok.injEq]
  have hplain := Rows.found_plain hfresh
  constructor
  · intro hsame
    have hrows : Rows.empty.carry r₁ = x.rows.carry r₁ := hplain.trans (congrArg rows hsame)
    exact ⟨(congrArg Rows.replica hrows).symm, (congrArg Rows.replicated hrows).symm,
      (congrArg Rows.originHistory hrows).symm, (congrArg Rows.stranded hrows).symm,
      (congrArg tombstone hsame).symm, (congrArg report hsame).symm,
      (congrArg upload hsame).symm, (congrArg uploadChunk hsame).symm,
      (congrArg folded hsame).symm, (congrArg foldedEntry hsame).symm,
      (congrArg foldedAttachment hsame).symm⟩
  · intro hbare
    have hrows : x.rows.carry r₁ = r₁ := by
      conv_rhs => rw [← hplain]
      simp only [Rows.carry, Rows.empty, hbare.replica, hbare.replicated, hbare.originHistory,
        hbare.stranded]
    simp only [hrows, destroy, empty, hbare.tombstone, hbare.report, hbare.upload,
      hbare.uploadChunk, hbare.folded, hbare.foldedEntry, hbare.foldedAttachment]

section Example

def performed (C : Crypto) (h : Host) (channel : Bytes32) (w : Around) (x : Record)
    (req : Request) : Record :=
  match x.perform C h channel w req with
  | .ok x' => x'
  | .error _ => x

theorem perform_of_isOk {asked : Request} (hok : (x.perform C h channel w asked).isOk = true) :
    x.perform C h channel w asked = .ok (x.performed C h channel w asked) := by
  unfold performed
  cases hperform : x.perform C h channel w asked with
  | error e =>
    rw [hperform] at hok
    cases hok
  | ok x' => rfl

def room (incarnation : Bytes32) : Request :=
  let device := Paired.flatDigest.publicKey 8
  let arg := constitution Paired.flatDigest .pub 86400 0 "" ""
  let terms : ActionTerms :=
    ⟨⟨1, incarnation, 0⟩, 7, device, Event.created, 7, arg, 0, genesis⟩
  let opening : Action := match terms.input Paired.flatDigest with
    | .ok input => ⟨0, genesis, Paired.flatDigest.sign 8 input⟩
    | .error _ => ⟨0, genesis, 0⟩
  .create 7 device ⟨.pub, 86400, 0, "", "", incarnation, [], [opening]⟩

def roomMade : Record := empty.performed Paired.flatDigest Paired.exchange 0 (.clear 10) (room 0)

def roomClosed : Record :=
  roomMade.performed Paired.flatDigest Paired.exchange 0 (.clear 11) (.close 7)

def roomShared : Record :=
  roomMade.performed Paired.flatDigest Paired.exchange 0 (.clear 11)
    (.replicate 7 (Paired.flatDigest.publicKey 8) 2 (Paired.act Event.replicate 2 7 [] 1) true)

def sharedClosed : Record :=
  roomShared.performed Paired.flatDigest Paired.exchange 0 (.clear 12) (.close 7)

/-- A room closed and made again with nothing left behind is as new. -/
theorem recreated_room :
    empty.perform Paired.flatDigest Paired.exchange 0 (Around.clear 13).fresh (room 1) =
      .ok (roomClosed.performed Paired.flatDigest Paired.exchange 0 (.clear 13) (room 1)) := by
  have hclose : (roomMade.perform Paired.flatDigest Paired.exchange 0 (.clear 11)
      (.close 7)).isOk = true := by decide +kernel
  have hagain : (roomClosed.perform Paired.flatDigest Paired.exchange 0 (.clear 13)
      (room 1)).isOk = true := by decide +kernel
  have hmade : (empty.perform Paired.flatDigest Paired.exchange 0 (.clear 10)
      (room 0)).isOk = true := by decide +kernel
  have hbare : roomMade.Bare := made_bare (perform_of_isOk hmade)
  exact (recreated_iff Paired.flatDigest Paired.exchange 0 (.clear 13) roomMade roomClosed 7
    (Paired.flatDigest.publicKey 8) _ (.closed (perform_of_isOk hclose))
    (perform_of_isOk hagain)).mpr hbare

/-- The room shared, closed and made again still authorises exchange 2. -/
theorem recreated_shared :
    Destroyed Paired.flatDigest Paired.exchange 0 roomShared (room 1) sharedClosed ∧
      sharedClosed.perform Paired.flatDigest Paired.exchange 0 (.clear 13) (room 1) =
        .ok (sharedClosed.performed Paired.flatDigest Paired.exchange 0 (.clear 13) (room 1)) ∧
      empty.perform Paired.flatDigest Paired.exchange 0 (Around.clear 13).fresh (room 1) ≠
        .ok (sharedClosed.performed Paired.flatDigest Paired.exchange 0 (.clear 13) (room 1)) := by
  have hclose : (roomShared.perform Paired.flatDigest Paired.exchange 0 (.clear 12)
      (.close 7)).isOk = true := by decide +kernel
  have hagain : (sharedClosed.perform Paired.flatDigest Paired.exchange 0 (.clear 13)
      (room 1)).isOk = true := by decide +kernel
  refine ⟨.closed (perform_of_isOk hclose), perform_of_isOk hagain, ?_⟩
  intro hfresh
  have hnew : (empty.performed Paired.flatDigest Paired.exchange 0 (Around.clear 13).fresh
      (room 1)).rows.replica.contains 2 = false := by decide +kernel
  have hheld : (sharedClosed.performed Paired.flatDigest Paired.exchange 0 (.clear 13)
      (room 1)).rows.replica.contains 2 = true := by decide +kernel
  rw [performed, hfresh] at hnew
  rw [hnew] at hheld
  cases hheld

end Example

end Record
end Sqex.Exchange
