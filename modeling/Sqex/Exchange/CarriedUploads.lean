import Sqex.Exchange.DirectMessage
import Sqex.Exchange.Carrying

/-! A carried upload beside a direct one: the same requests through a copy and straight to the
origin, which answer alike as long as what is named is still carried. -/
namespace Sqex.Exchange
open Std Runs
variable {C : Crypto} {h : Host} {reach : PubKey → Reach} {channel : Bytes32} {origin : PubKey}

theorem carriedBit_or (n : UInt64) (hn : n.toNat < 2 ^ 63) :
    (carriedBit ||| n).toNat = 2 ^ 63 + n.toNat := by
  have hbit : carriedBit.toNat = 2 ^ 63 := by decide
  rw [UInt64.toNat_or, hbit]
  have hadd := Nat.two_pow_add_eq_or_of_lt hn 1
  rw [Nat.mul_one] at hadd
  exact hadd.symm

theorem carriedBit_marked (n : UInt64) : (carriedBit ||| n) &&& carriedBit ≠ 0 := by
  have habsorb : (carriedBit ||| n) &&& carriedBit = carriedBit := by
    rw [UInt64.and_comm]
    apply UInt64.eq_of_toBitVec_eq
    ext i hi
    simp
    tauto
  rw [habsorb]
  decide

namespace BlobRequest

def upload? : BlobRequest → Option UInt64
  | .put upload _ _ | .commit upload _ | .abort upload => some upload
  | _ => none

def renumber (theirs : UInt64) : BlobRequest → BlobRequest
  | .put _ idx bytes => .put theirs idx bytes
  | .commit _ blob => .commit theirs blob
  | .abort _ => .abort theirs
  | req => req

def isPut : BlobRequest → Bool
  | .put _ _ _ => true
  | _ => false

def channel? : BlobRequest → Option Bytes32
  | .beginUpload req => some req.channel
  | .attach channel _ _ | .detach channel _ => some channel
  | _ => none

end BlobRequest

namespace Files
variable {f f' : Files} {w : Asked} {me : PubKey} {req : BlobRequest} {x : UInt64}

theorem uploadOf_eq_noSuch : f.uploadOf me x = .error .noSuchUpload ↔
    ∀ u ∈ f.upload, u.id ≠ x := by
  have hfind : f.upload.find? (·.id == x) = none ↔ ∀ u ∈ f.upload, u.id ≠ x := by
    simp
  rw [← hfind, uploadOf]
  cases f.upload.find? (·.id == x) with
  | none => simp
  | some u =>
    by_cases hmine : u.uploader = me <;> simp [hmine]

theorem blobHere_unknown (hreq : req.upload? = some x) (hnone : ∀ u ∈ f.upload, u.id ≠ x) :
    f.blobHere C w me req = (f, .refused .noSuchUpload) := by
  have hmine : f.uploadOf me x = .error .noSuchUpload := uploadOf_eq_noSuch.mpr hnone
  cases req with
  | beginUpload _ | attach _ _ _ | detach _ _ => cases hreq
  | put upload idx bytes =>
    cases hreq
    simp [blobHere, acked, putChunk, hmine, bind, Except.bind]
  | commit upload blob =>
    cases hreq
    simp [blobHere, commitUpload, hmine, bind, Except.bind]
  | abort upload =>
    cases hreq
    simp [blobHere, acked, abortUpload, hmine, bind, Except.bind]

theorem attach_error {blob : Bytes32} {who : PubKey} {expiresAfter : UInt32} {now : UInt64}
    {e : ChannelError} (hattach : f.attach channel blob who expiresAfter now = .error e) :
    e = .blobChannels := by
  simp only [attach, refuseIf] at hattach
  split_ifs at hattach
  · simpa [bind, Except.bind] using hattach.symm
  · simp [bind, Except.bind, pure, Except.pure] at hattach

theorem blobHere_known (hreq : req.upload? = some x) (hsome : ∃ u ∈ f.upload, u.id = x) :
    (f.blobHere C w me req).2 ≠ .refused .noSuchUpload := by
  have hthere : f.uploadOf me x ≠ .error .noSuchUpload := by
    intro hnone
    obtain ⟨u, hu, hid⟩ := hsome
    exact uploadOf_eq_noSuch.mp hnone u hu hid
  cases hmine : f.uploadOf me x with
  | error e =>
    have hne : e ≠ .noSuchUpload := fun heq => hthere (heq ▸ hmine)
    cases req with
    | beginUpload _ | attach _ _ _ | detach _ _ => cases hreq
    | put upload idx bytes =>
      cases hreq
      simp [blobHere, acked, putChunk, hmine, bind, Except.bind, hne]
    | commit upload blob =>
      cases hreq
      simp [blobHere, commitUpload, hmine, bind, Except.bind, hne]
    | abort upload =>
      cases hreq
      simp [blobHere, acked, abortUpload, hmine, bind, Except.bind, hne]
  | ok u =>
    cases req with
    | beginUpload _ | attach _ _ _ | detach _ _ => cases hreq
    | put upload idx bytes =>
      cases hreq
      by_cases hindex : idx ≥ u.chunks <;>
        simp [blobHere, acked, putChunk, hmine, bind, Except.bind, refuseIf, hindex, pure,
          Except.pure]
    | commit upload blob =>
      cases hreq
      cases hcommit : f.commitUpload C me x blob w.now with
      | ok r => simp [blobHere, hcommit]
      | error e =>
        have hchannels : e = .blobChannels := by
          simp only [commitUpload, hmine, bind, Except.bind] at hcommit
          split at hcommit
          · cases hcommit
          · split_ifs at hcommit
            · cases hcommit
            · cases hcommit
            · split at hcommit
              · rename_i hattach
                cases hcommit
                exact attach_error hattach
              · cases hcommit
        simp [blobHere, hcommit, hchannels]
    | abort upload =>
      cases hreq
      simp [blobHere, acked, abortUpload, hmine, bind, Except.bind, pure, Except.pure]

theorem blobHere_answers (f : Files) (C : Crypto) (w : Asked) (me : PubKey) (req : BlobRequest) :
    (f.blobHere C w me req).2 ≠ .notYours ∧
      ∀ upload now, (f.blobHere C w me req).2 = .begun upload now →
        ∃ r, req = .beginUpload r := by
  have hacked : ∀ r, (f.acked w.now r).2 ≠ .notYours ∧
      ∀ upload now, (f.acked w.now r).2 ≠ .begun upload now := by
    intro r
    cases r <;> simp [acked]
  cases req with
  | beginUpload r =>
    refine ⟨?_, fun upload now _ => ⟨r, rfl⟩⟩
    unfold blobHere
    dsimp only
    split
    · simp
    · split <;> simp
  | put upload idx bytes => exact ⟨(hacked _).1, fun _ _ heq => absurd heq ((hacked _).2 _ _)⟩
  | commit upload blob =>
    unfold blobHere
    dsimp only
    split <;> simp
  | abort upload => exact ⟨(hacked _).1, fun _ _ heq => absurd heq ((hacked _).2 _ _)⟩
  | attach channel blob expiresAfter =>
    exact ⟨(hacked _).1, fun _ _ heq => absurd heq ((hacked _).2 _ _)⟩
  | detach channel blob => exact ⟨(hacked _).1, fun _ _ heq => absurd heq ((hacked _).2 _ _)⟩

end Files

/-! What is asked, and how it is carried. -/

namespace Ask
variable {a : Ask} {k : Nat}

theorem request_named (hnamed : a.named = some k) : ∃ R : UInt64 → BlobRequest,
    (∀ channel given, a.request channel given = given[k]?.map R) ∧
      (∀ x, (R x).upload? = some x) ∧ (∀ x theirs, (R x).renumber theirs = R theirs) ∧
        ∀ x r, R x ≠ .beginUpload r := by
  cases a with
  | put k idx bytes =>
    cases hnamed
    exact ⟨fun x => .put x idx bytes, fun _ _ => rfl, fun _ => rfl, fun _ _ => rfl,
      fun _ _ => by simp⟩
  | commit k blob =>
    cases hnamed
    exact ⟨fun x => .commit x blob, fun _ _ => rfl, fun _ => rfl, fun _ _ => rfl,
      fun _ _ => by simp⟩
  | abort k =>
    cases hnamed
    exact ⟨fun x => .abort x, fun _ _ => rfl, fun _ => rfl, fun _ _ => rfl, fun _ _ => by simp⟩
  | beginUpload _ _ _ | attach _ _ | detach _ => cases hnamed

theorem request_unnamed (hnamed : a.named = none) (channel : Bytes32) : ∃ req : BlobRequest,
    (∀ given, a.request channel given = some req) ∧ req.channel? = some channel := by
  cases a with
  | put k _ _ | commit k _ | abort k => cases hnamed
  | beginUpload size chunks expiresAfter =>
    exact ⟨.beginUpload ⟨channel, size, chunks, expiresAfter⟩, fun _ => rfl, rfl⟩
  | attach blob expiresAfter => exact ⟨.attach channel blob expiresAfter, fun _ => rfl, rfl⟩
  | detach blob => exact ⟨.detach channel blob, fun _ => rfl, rfl⟩

end Ask

namespace Carrying
variable {s : Carrying} {w : Asked} {me : PubKey} {req : BlobRequest} {x : UInt64} {c : Carried}

theorem carryBlob_named (hreq : req.upload? = some x) : s.carryBlob C reach w me req =
    s.carryOn C reach w me x req.renumber req.isPut := by
  cases req with
  | put upload idx bytes | commit upload blob | abort upload =>
    cases hreq
    rfl
  | beginUpload _ | attach _ _ _ | detach _ _ => cases hreq

theorem blobWrite_foreign (hreq : req.upload? = some x) (hx : x &&& carriedBit ≠ 0)
    (hc : s.carried[x]? = some c) (howner : c.owner ≠ me) :
    s.blobWrite C reach w me req = (s, .notYours) := by
  simp [blobWrite, carryBlob_named hreq, carryOn, hx, hc, howner]

theorem blobWrite_lost (hreq : req.upload? = some x) (hx : x &&& carriedBit ≠ 0)
    (hc : s.carried[x]? = none) (hnone : ∀ u ∈ s.here.upload, u.id ≠ x) :
    s.blobWrite C reach w me req = (s, .refused .noSuchUpload) := by
  simp [blobWrite, carryBlob_named hreq, carryOn, hx, hc, Files.blobHere_unknown hreq hnone]

theorem blobWrite_own (hreq : req.upload? = some x) (hx : x &&& carriedBit ≠ 0)
    (hc : s.carried[x]? = some c) (howner : c.owner = me) (hreach : reach c.origin = .answers) :
    s.blobWrite C reach w me req =
      (if req.isPut = false ∧ (s.action C w c.origin me (req.renumber c.theirs)).2.ok = true then
          { (s.action C w c.origin me (req.renumber c.theirs)).1 with
            carried := s.carried.erase x }
        else (s.action C w c.origin me (req.renumber c.theirs)).1,
        (s.action C w c.origin me (req.renumber c.theirs)).2) := by
  simp only [blobWrite, carryBlob_named hreq, carryOn, hx, hc, howner, hreach, if_false, ne_eq,
    not_true_eq_false]
  rfl

/-- A request to a channel that lives elsewhere is answered there; the number of an upload it
begins is translated. -/
theorem blobWrite_channel (hreq : req.channel? = some channel)
    (horigin : s.originOf channel = some origin) (hreach : reach origin = .answers) :
    s.blobWrite C reach w me req =
      match (s.action C w origin me req).2 with
      | .begun theirs now =>
        (((s.action C w origin me req).1.translate origin theirs me).1,
          .begun ((s.action C w origin me req).1.translate origin theirs me).2 now)
      | answer => ((s.action C w origin me req).1, answer) := by
  cases req with
  | put _ _ _ | commit _ _ | abort _ => cases hreq
  | beginUpload r =>
    cases hreq
    have hcarried : s.carryTo C reach w me r.channel (.beginUpload r) =
        some (origin, s.action C w origin me (.beginUpload r)) := by
      simp only [carryTo, horigin, hreach]
    rewrite [blobWrite, carryBlob, hcarried]
    rfl
  | attach _ _ _ | detach _ _ =>
    cases hreq
    simp only [blobWrite, carryBlob, carryTo, horigin, hreach, Option.map_some]
    split
    · rename_i hbegun
      obtain ⟨r, hr⟩ := (Files.blobHere_answers _ C w me _).2 _ _ hbegun
      cases hr
    · rfl

theorem action_away (origin : PubKey) :
    (s.action C w origin me req).1.away origin = ((s.away origin).blobHere C w me req).1 := by
  simp [action]

end Carrying

namespace Both
variable {s : Both} {i : CarryStep}

/-- The origin holds the same either way; the copy is one; a number given marks an upload as
carried, and while it is, is translated to the number given straight. -/
structure Matched (channel : Bytes32) (origin : PubKey) (s : Both) : Prop where
  same : s.carrying.away origin = s.origin
  copy : s.carrying.originOf channel = some origin
  columns : ∀ u ∈ s.carrying.here.upload, u.id.toNat < 2 ^ 63
  length : s.given.length = s.givenThere.length
  marked : ∀ number ∈ s.given, number &&& carriedBit ≠ 0 ∧ 2 ^ 63 ≤ number.toNat ∧
    number.toNat ≤ 2 ^ 63 + s.carrying.nextCarried.toNat
  entries : ∀ (k : Nat) (number theirs : UInt64) (c : Carried), s.given[k]? = some number →
    s.givenThere[k]? = some theirs → s.carrying.carried[number]? = some c →
      c.origin = origin ∧ c.theirs = theirs

theorem Matched.theirs (hm : Matched channel origin s) {k : Nat} {number : UInt64}
    (hnumber : s.given[k]? = some number) : ∃ theirs, s.givenThere[k]? = some theirs := by
  obtain ⟨hlt, -⟩ := List.getElem?_eq_some_iff.mp hnumber
  exact ⟨_, List.getElem?_eq_getElem (hm.length ▸ hlt)⟩

theorem Matched.not_here (hm : Matched channel origin s) {number : UInt64}
    (hnumber : number ∈ s.given) : ∀ u ∈ s.carrying.here.upload, u.id ≠ number := by
  rintro u hu rfl
  have hcolumn := hm.columns u hu
  have hmarked := (hm.marked _ hnumber).2.1
  omega

theorem Matched.named (hm : Matched channel origin s) (hreach : reach origin = .answers)
    {who : PubKey} {w : Asked} {a : Ask} {k : Nat} {number theirs : UInt64}
    (hnamed : a.named = some k) (hnumber : s.given[k]? = some number)
    (htheirs : s.givenThere[k]? = some theirs) :
    ∃ R : BlobRequest, R.upload? = some theirs ∧ (∀ r, R ≠ .beginUpload r) ∧
      s.straightAsk C channel who w a =
        ((s.origin.blobHere C w who R).1, some (s.origin.blobHere C w who R).2) ∧
      match s.carrying.carried[number]? with
      | none => s.carriedAsk C reach channel who w a = (s.carrying, some (.refused .noSuchUpload))
      | some c =>
        if c.owner = who then
          (s.carriedAsk C reach channel who w a).2 = some (s.origin.blobHere C w who R).2 ∧
          (s.carriedAsk C reach channel who w a).1.here = s.carrying.here ∧
          (s.carriedAsk C reach channel who w a).1.away origin =
            (s.origin.blobHere C w who R).1 ∧
          (s.carriedAsk C reach channel who w a).1.nextCarried = s.carrying.nextCarried ∧
          ∀ (x : UInt64) (c : Carried),
            (s.carriedAsk C reach channel who w a).1.carried[x]? = some c →
              s.carrying.carried[x]? = some c
        else s.carriedAsk C reach channel who w a = (s.carrying, some .notYours) := by
  obtain ⟨R, hrequest, hupload, hrenumber, hbegin⟩ := Ask.request_named hnamed
  have hmarked := (hm.marked number (List.mem_of_getElem? hnumber)).1
  have hasked : a.request channel s.given = some (R number) := by
    rw [hrequest, hnumber]
    rfl
  refine ⟨R theirs, hupload theirs, hbegin theirs, ?_, ?_⟩
  · simp only [straightAsk, hrequest, htheirs, Option.map_some]
  · simp only [carriedAsk, hasked]
    cases hc : s.carrying.carried[number]? with
    | none =>
      have hlost : s.carrying.blobWrite C reach w who (R number) =
          (s.carrying, .refused .noSuchUpload) :=
        Carrying.blobWrite_lost (hupload number) hmarked hc
          (hm.not_here (List.mem_of_getElem? hnumber))
      simp only [hlost]
    | some c =>
      obtain ⟨horigin, hnumbered⟩ := hm.entries k number theirs c hnumber htheirs hc
      dsimp only
      split_ifs with howner
      · have hown : s.carrying.blobWrite C reach w who (R number) = _ :=
          Carrying.blobWrite_own (hupload number) hmarked hc howner (horigin ▸ hreach)
        rw [horigin, hnumbered, hrenumber] at hown
        have hanswer : (s.carrying.action C w origin who (R theirs)).2 =
            (s.origin.blobHere C w who (R theirs)).2 := by
          rw [← hm.same]
          rfl
        have haway : (s.carrying.action C w origin who (R theirs)).1.away origin =
            (s.origin.blobHere C w who (R theirs)).1 := by
          rw [Carrying.action_away, hm.same]
        rw [hown]
        refine ⟨congrArg some hanswer, ?_⟩
        dsimp only
        split_ifs with hspent
        · refine ⟨rfl, haway, rfl, fun x c' hx => ?_⟩
          simp only [ExtTreeMap.getElem?_erase] at hx
          split_ifs at hx
          exact hx
        · exact ⟨rfl, haway, rfl, fun x c' hx => hx⟩
      · have hforeign : s.carrying.blobWrite C reach w who (R number) = (s.carrying, .notYours) :=
          Carrying.blobWrite_foreign (hupload number) hmarked hc howner
        rw [hforeign]

theorem Matched.unnamed (hm : Matched channel origin s) (hreach : reach origin = .answers)
    {who : PubKey} {w : Asked} {a : Ask} (hnamed : a.named = none) :
    ∃ R : BlobRequest, s.straightAsk C channel who w a =
        ((s.origin.blobHere C w who R).1, some (s.origin.blobHere C w who R).2) ∧
      (s.carriedAsk C reach channel who w a).1.here = s.carrying.here ∧
      (s.carriedAsk C reach channel who w a).1.away origin =
        (s.origin.blobHere C w who R).1 ∧
      match (s.origin.blobHere C w who R).2 with
      | .begun theirs now =>
        (∃ size chunks expiresAfter, a = .beginUpload size chunks expiresAfter) ∧
        (s.carriedAsk C reach channel who w a).2 =
          some (.begun (carriedBit ||| (s.carrying.nextCarried + 1)) now) ∧
        (s.carriedAsk C reach channel who w a).1.nextCarried = s.carrying.nextCarried + 1 ∧
        (s.carriedAsk C reach channel who w a).1.carried = s.carrying.carried.insert
          (carriedBit ||| (s.carrying.nextCarried + 1)) ⟨origin, theirs, who⟩
      | answer =>
        (s.carriedAsk C reach channel who w a).2 = some answer ∧
        (s.carriedAsk C reach channel who w a).1.nextCarried = s.carrying.nextCarried ∧
        (s.carriedAsk C reach channel who w a).1.carried = s.carrying.carried := by
  obtain ⟨R, hrequest, hchannel⟩ := Ask.request_unnamed hnamed channel
  have hwrite : s.carrying.blobWrite C reach w who R = _ :=
    Carrying.blobWrite_channel hchannel hm.copy hreach
  have hanswer : (s.carrying.action C w origin who R).2 = (s.origin.blobHere C w who R).2 := by
    rw [← hm.same]
    rfl
  have haway : (s.carrying.action C w origin who R).1.away origin =
      (s.origin.blobHere C w who R).1 := by
    rw [Carrying.action_away, hm.same]
  rw [hanswer] at hwrite
  refine ⟨R, by simp only [straightAsk, hrequest], ?_⟩
  simp only [carriedAsk, hrequest, hwrite]
  cases hbegun : (s.origin.blobHere C w who R).2 with
  | begun theirs now =>
    obtain ⟨r, hr⟩ := (Files.blobHere_answers s.origin C w who R).2 theirs now hbegun
    have hask : ∃ size chunks expiresAfter, a = .beginUpload size chunks expiresAfter := by
      have hreq := hrequest []
      cases a with
      | beginUpload size chunks expiresAfter => exact ⟨size, chunks, expiresAfter, rfl⟩
      | put _ _ _ | commit _ _ | abort _ => cases hnamed
      | attach _ _ | detach _ =>
        rw [hr] at hreq
        cases hreq
    exact ⟨rfl, haway, hask, rfl, rfl, rfl⟩
  | ack _ | committed _ _ _ | refused _ | rateLimited _ | notYours | replicated | originRefused _ |
      originAway =>
    exact ⟨rfl, haway, rfl, rfl, rfl⟩

theorem Matched.keeps (hm : Matched channel origin s) {s' : Both}
    (hsame : s'.carrying.away origin = s'.origin) (hhere : s'.carrying.here = s.carrying.here)
    (hgiven : s'.given = s.given) (hthere : s'.givenThere = s.givenThere)
    (hnext : s'.carrying.nextCarried = s.carrying.nextCarried)
    (hcarried : ∀ (x : UInt64) (c : Carried), s'.carrying.carried[x]? = some c →
      s.carrying.carried[x]? = some c) : Matched channel origin s' := by
  refine ⟨hsame, ?_, ?_, ?_, ?_, ?_⟩
  · rw [Carrying.originOf, hhere]
    exact hm.copy
  · rw [hhere]
    exact hm.columns
  · rw [hgiven, hthere]
    exact hm.length
  · rw [hgiven, hnext]
    exact hm.marked
  · intro k number theirs c hnumber htheirs hc
    exact hm.entries k number theirs c (hgiven ▸ hnumber) (hthere ▸ htheirs) (hcarried _ _ hc)

theorem Matched.next (hm : Matched channel origin s)
    (hcount : s.carrying.nextCarried.toNat + 1 < 2 ^ 63) :
    (s.carrying.nextCarried + 1).toNat = s.carrying.nextCarried.toNat + 1 ∧
      (carriedBit ||| (s.carrying.nextCarried + 1)).toNat =
        2 ^ 63 + (s.carrying.nextCarried.toNat + 1) ∧
      ∀ number ∈ s.given, number ≠ carriedBit ||| (s.carrying.nextCarried + 1) := by
  have hsucc : (s.carrying.nextCarried + 1).toNat = s.carrying.nextCarried.toNat + 1 := by
    rw [UInt64.toNat_add]
    simp only [UInt64.toNat_one]
    omega
  have hor := carriedBit_or (s.carrying.nextCarried + 1) (by omega)
  rw [hsucc] at hor
  refine ⟨hsucc, hor, fun number hnumber heq => ?_⟩
  have hbelow := (hm.marked number hnumber).2.2
  rw [heq, hor] at hbelow
  omega

theorem Matched.begun (hm : Matched channel origin s) {s' : Both} {theirs : UInt64} {who : PubKey}
    (hcount : s.carrying.nextCarried.toNat + 1 < 2 ^ 63)
    (hsame : s'.carrying.away origin = s'.origin) (hhere : s'.carrying.here = s.carrying.here)
    (hgiven : s'.given = s.given ++ [carriedBit ||| (s.carrying.nextCarried + 1)])
    (hthere : s'.givenThere = s.givenThere ++ [theirs])
    (hnext : s'.carrying.nextCarried = s.carrying.nextCarried + 1)
    (hcarried : s'.carrying.carried = s.carrying.carried.insert
      (carriedBit ||| (s.carrying.nextCarried + 1)) ⟨origin, theirs, who⟩) :
    Matched channel origin s' := by
  obtain ⟨hsucc, hnumber, hfresh⟩ := hm.next hcount
  refine ⟨hsame, ?_, ?_, ?_, ?_, ?_⟩
  · rw [Carrying.originOf, hhere]
    exact hm.copy
  · rw [hhere]
    exact hm.columns
  · rw [hgiven, hthere, List.length_append, List.length_append, hm.length]
    rfl
  · rw [hgiven, hnext, hsucc]
    intro number hmem
    rcases mem_concat.mp hmem with hold | rfl
    · obtain ⟨hmark, hlow, hhigh⟩ := hm.marked number hold
      exact ⟨hmark, hlow, by omega⟩
    · exact ⟨carriedBit_marked _, by omega, by omega⟩
  · intro k number theirs' c hk htheirs hc
    rw [hgiven] at hk
    rw [hthere] at htheirs
    rw [hcarried, ExtTreeMap.getElem?_insert] at hc
    by_cases hlt : k < s.given.length
    · rw [List.getElem?_append_left hlt] at hk
      rw [List.getElem?_append_left (hm.length ▸ hlt)] at htheirs
      have hne := hfresh number (List.mem_of_getElem? hk)
      rw [if_neg (by simpa using Ne.symm hne)] at hc
      exact hm.entries k number theirs' c hk htheirs hc
    · obtain rfl : k = s.given.length := by
        have hbound := (List.getElem?_eq_some_iff.mp hk).1
        simp only [List.length_append, List.length_cons, List.length_nil] at hbound
        omega
      obtain rfl : carriedBit ||| (s.carrying.nextCarried + 1) = number := by simpa using hk
      rw [hm.length] at htheirs
      obtain rfl : theirs = theirs' := by simpa using htheirs
      rw [if_pos (by simp)] at hc
      obtain rfl : Carried.mk origin theirs who = c := by simpa using hc
      exact ⟨rfl, rfl⟩

theorem Matched.asked_none {who : PubKey} {w : Asked} {a : Ask} {k : Nat} (hm : Matched channel origin s)
    (hnamed : a.named = some k) (hnumber : s.given[k]? = none) :
    s.carriedAsk C reach channel who w a = (s.carrying, none) ∧
      s.straightAsk C channel who w a = (s.origin, none) := by
  obtain ⟨R, hrequest, -⟩ := Ask.request_named hnamed
  have hthere : s.givenThere[k]? = none := by
    rw [List.getElem?_eq_none_iff] at hnumber ⊢
    exact hm.length ▸ hnumber
  simp [carriedAsk, straightAsk, hrequest, hnumber, hthere]

theorem SameHeld.refl (f : Files) : f.SameHeld f := ⟨rfl, rfl, rfl⟩

theorem same_refl (a : BlobAnswer) : a.Same a := by
  cases a <;> rfl

theorem same_refused {e : ChannelError} {b : BlobAnswer} (hsame : (BlobAnswer.refused e).Same b) :
    b = .refused e := by
  cases b <;> exact hsame.symm

theorem same_notYours {b : BlobAnswer} (hsame : BlobAnswer.notYours.Same b) : b = .notYours := by
  cases b <;> exact hsame.symm

theorem proper_ask_iff {k : Nat} {number theirs : UInt64} {who : PubKey} {w : Asked} {a : Ask}
    (hnamed : a.named = some k) (hnumber : s.given[k]? = some number)
    (htheirs : s.givenThere[k]? = some theirs) :
    Proper s (.ask who w a) ↔ match s.carrying.carried[number]? with
      | some c => c.owner = who
      | none => ∀ u ∈ s.origin.upload, u.id ≠ theirs := by
  constructor
  · exact fun hproper => hproper k number theirs hnamed hnumber htheirs
  · intro hthis k' number' theirs' hk hk' htheirs'
    obtain rfl : k = k' := by simpa [hnamed] using hk
    obtain rfl : number = number' := by simpa [hnumber] using hk'
    obtain rfl : theirs = theirs' := by simpa [htheirs] using htheirs'
    exact hthis

theorem proper_of_owned {k : Nat} {number theirs : UInt64} {who : PubKey} {w : Asked} {a : Ask}
    (hnamed : a.named = some k) (hnumber : s.given[k]? = some number)
    (htheirs : s.givenThere[k]? = some theirs)
    (howned : s.carrying.carried[number]?.any (·.owner == who) = true) :
    Proper s (.ask who w a) := by
  rw [proper_ask_iff hnamed hnumber htheirs]
  cases hc : s.carrying.carried[number]? with
  | none => simp [hc] at howned
  | some c => simpa [hc] using howned

theorem Matched.agreed_iff (hm : Matched channel origin s) (hreach : reach origin = .answers) :
    Agreed C h reach channel origin s i ↔ Proper s i := by
  cases i with
  | there op =>
    refine ⟨fun _ => trivial, fun _ => ⟨fun _ _ _ heq => (by cases heq), ?_⟩⟩
    simp only [Both.step, Function.update_self, hm.same]
    exact SameHeld.refl _
  | here f =>
    refine ⟨fun _ => trivial, fun _ => ⟨fun _ _ _ heq => (by cases heq), ?_⟩⟩
    simp only [Both.step, hm.same]
    exact SameHeld.refl _
  | other c =>
    refine ⟨fun _ => trivial, fun _ => ⟨fun _ _ _ heq => (by cases heq), ?_⟩⟩
    simp only [Both.step, Carrying.translate, hm.same]
    exact SameHeld.refl _
  | ask who w a =>
    have hagreed : Agreed C h reach channel origin s (.ask who w a) ↔
        Option.Rel BlobAnswer.Same (s.carriedAsk C reach channel who w a).2
          (s.straightAsk C channel who w a).2 ∧
        ((s.carriedAsk C reach channel who w a).1.away origin).SameHeld
          (s.straightAsk C channel who w a).1 := by
      constructor
      · exact fun hagreed => ⟨hagreed.answer who w a rfl, hagreed.held⟩
      · rintro ⟨hanswer, hheld⟩
        refine ⟨fun who' w' a' heq => ?_, hheld⟩
        cases heq
        exact hanswer
    rw [hagreed]
    cases hnamed : a.named with
    | none =>
      obtain ⟨R, hstraight, -, haway, hanswer⟩ : ∃ R, _ := hm.unnamed hreach hnamed
      refine ⟨fun _ k _ _ hk => ?_, fun _ => ?_⟩
      · rw [hnamed] at hk
        cases hk
      · rw [hstraight, haway]
        refine ⟨?_, SameHeld.refl _⟩
        dsimp only
        cases hbegun : (s.origin.blobHere C w who R).2 with
        | begun theirs now =>
          rw [hbegun] at hanswer
          rw [hanswer.2.1]
          exact .some rfl
        | ack _ | committed _ _ _ | refused _ | rateLimited _ | notYours | replicated
        | originRefused _ | originAway =>
          rw [hbegun] at hanswer
          rw [hanswer.1]
          exact .some (same_refl _)
    | some k =>
      cases hnumber : s.given[k]? with
      | none =>
        obtain ⟨hcarried, hstraight⟩ :
            s.carriedAsk C reach channel who w a = (s.carrying, none) ∧
              s.straightAsk C channel who w a = (s.origin, none) := hm.asked_none hnamed hnumber
        refine ⟨fun _ k' number theirs hk hk' _ => ?_, fun _ => ?_⟩
        · obtain rfl : k = k' := by simpa [hnamed] using hk
          rw [hnumber] at hk'
          cases hk'
        · rw [hcarried, hstraight, hm.same]
          exact ⟨.none, SameHeld.refl _⟩
      | some number =>
        obtain ⟨theirs, htheirs⟩ := hm.theirs hnumber
        obtain ⟨R, hupload, hbegin, hstraight, hcarried⟩ : ∃ R, _ :=
          hm.named hreach hnamed hnumber htheirs
        rw [proper_ask_iff hnamed hnumber htheirs, hstraight]
        cases hc : s.carrying.carried[number]? with
        | none =>
          rw [hc] at hcarried
          dsimp only at hcarried ⊢
          rw [hcarried]
          constructor
          · rintro ⟨hanswer, -⟩ u hu hid
            cases hanswer with
            | some hsame =>
              exact Files.blobHere_known hupload ⟨u, hu, hid⟩ (same_refused hsame)
          · intro hnone
            rw [Files.blobHere_unknown hupload hnone, hm.same]
            exact ⟨.some rfl, SameHeld.refl _⟩
        | some c =>
          rw [hc] at hcarried
          dsimp only at hcarried ⊢
          split_ifs at hcarried with howner
          · rw [hcarried.1, hcarried.2.2.1]
            exact ⟨fun _ => howner, fun _ => ⟨.some (same_refl _), SameHeld.refl _⟩⟩
          · rw [hcarried]
            refine ⟨fun hanswer => ?_, fun heq => absurd heq howner⟩
            cases hanswer.1 with
            | some hsame =>
              exact absurd (same_notYours hsame) (Files.blobHere_answers s.origin C w who R).1

theorem givenAfter_of_not {given : List UInt64} {b : BlobAnswer}
    (hb : ∀ upload now, b ≠ .begun upload now) : givenAfter given (some b) = given := by
  cases b with
  | begun upload now => exact absurd rfl (hb upload now)
  | ack _ | committed _ _ _ | refused _ | rateLimited _ | notYours | replicated
  | originRefused _ | originAway => rfl

theorem Matched.step (hm : Matched channel origin s) (hreach : reach origin = .answers)
    (hcount : Counted s i) (hproper : Proper s i) :
    Matched channel origin (s.step C h reach channel origin i) := by
  cases i with
  | there op =>
    refine hm.keeps ?_ rfl rfl rfl rfl fun _ _ hx => hx
    simp only [Both.step, Function.update_self, hm.same]
  | here f =>
    refine ⟨hm.same, hm.copy, fun u hu => ?_, hm.length, hm.marked, hm.entries⟩
    have hlt := (List.mem_filter.mp hu).2
    have hbit : carriedBit.toNat = 2 ^ 63 := by decide
    rw [decide_eq_true_eq, UInt64.lt_iff_toNat_lt, hbit] at hlt
    exact hlt
  | other c =>
    obtain ⟨hsucc, hnumber, hfresh⟩ := hm.next hcount
    refine ⟨hm.same, hm.copy, hm.columns, hm.length, fun number hmem => ?_, ?_⟩
    · obtain ⟨hmark, hlow, hhigh⟩ := hm.marked number hmem
      refine ⟨hmark, hlow, ?_⟩
      simp only [Both.step, Carrying.translate, hsucc]
      omega
    · intro k number theirs c' hk htheirs hc
      simp only [Both.step, Carrying.translate, ExtTreeMap.getElem?_insert] at hk htheirs hc
      have hne := hfresh number (List.mem_of_getElem? hk)
      rw [if_neg (by simpa using Ne.symm hne)] at hc
      exact hm.entries k number theirs c' hk htheirs hc
  | ask who w a =>
    cases hnamed : a.named with
    | none =>
      obtain ⟨R, hstraight, hhere, haway, hanswer⟩ : ∃ R, _ := hm.unnamed hreach hnamed
      have hsame : (s.carriedAsk C reach channel who w a).1.away origin =
          (s.straightAsk C channel who w a).1 := by
        rw [haway, hstraight]
      cases hbegun : (s.origin.blobHere C w who R).2 with
      | begun theirs now =>
        rw [hbegun] at hanswer
        obtain ⟨⟨size, chunks, expiresAfter, rfl⟩, hgiven, hnext, hcarried⟩ := hanswer
        refine hm.begun hcount hsame hhere ?_ ?_ hnext hcarried
        · simp only [Both.step, hgiven, givenAfter]
        · simp only [Both.step, hstraight, hbegun, givenAfter]
      | ack _ | committed _ _ _ | refused _ | rateLimited _ | notYours | replicated
      | originRefused _ | originAway =>
        rw [hbegun] at hanswer
        obtain ⟨hgiven, hnext, hcarried⟩ := hanswer
        refine hm.keeps hsame hhere ?_ ?_ hnext fun _ _ hx => hcarried ▸ hx
        · simp only [Both.step, hgiven, givenAfter]
        · simp only [Both.step, hstraight, hbegun, givenAfter]
    | some k =>
      cases hnumber : s.given[k]? with
      | none =>
        obtain ⟨hcarried, hstraight⟩ :
            s.carriedAsk C reach channel who w a = (s.carrying, none) ∧
              s.straightAsk C channel who w a = (s.origin, none) := hm.asked_none hnamed hnumber
        refine hm.keeps ?_ ?_ ?_ ?_ ?_ fun _ _ hx => ?_
        · simp only [Both.step, hcarried, hstraight, hm.same]
        · simp only [Both.step, hcarried]
        · simp only [Both.step, hcarried, givenAfter]
        · simp only [Both.step, hstraight, givenAfter]
        · simp only [Both.step, hcarried]
        · simpa only [Both.step, hcarried] using hx
      | some number =>
        obtain ⟨theirs, htheirs⟩ := hm.theirs hnumber
        obtain ⟨R, hupload, hbegin, hstraight, hcarried⟩ : ∃ R, _ :=
          hm.named hreach hnamed hnumber htheirs
        have hnever : ∀ upload now, (s.origin.blobHere C w who R).2 ≠ .begun upload now := by
          intro upload now hbegun
          obtain ⟨r, hr⟩ := (Files.blobHere_answers s.origin C w who R).2 upload now hbegun
          exact hbegin r hr
        have hthere : givenAfter s.givenThere (s.straightAsk C channel who w a).2 =
            s.givenThere := by
          rw [hstraight]
          exact givenAfter_of_not hnever
        have hthis := hproper k number theirs hnamed hnumber htheirs
        cases hc : s.carrying.carried[number]? with
        | none =>
          rw [hc] at hcarried hthis
          dsimp only at hcarried hthis
          refine hm.keeps ?_ ?_ ?_ hthere ?_ fun _ _ hx => ?_
          · simp only [Both.step, hcarried, hstraight, Files.blobHere_unknown hupload hthis,
              hm.same]
          · simp only [Both.step, hcarried]
          · simp only [Both.step, hcarried, givenAfter]
          · simp only [Both.step, hcarried]
          · simpa only [Both.step, hcarried] using hx
        | some c =>
          rw [hc] at hcarried hthis
          dsimp only at hcarried hthis
          rw [if_pos hthis] at hcarried
          obtain ⟨hanswer, hhere, haway, hnext, hfewer⟩ := hcarried
          refine hm.keeps ?_ hhere ?_ hthere hnext hfewer
          · simp only [Both.step, haway, hstraight]
          · simp only [Both.step, hanswer]
            exact givenAfter_of_not hnever

theorem matched_start {here there : Files} {away : PubKey → Files}
    (hcopy : (here.rows channel).originRow = some origin)
    (hcolumns : ∀ u ∈ here.upload, u.id.toNat < 2 ^ 63) :
    Matched channel origin (start origin here there away) := by
  refine ⟨?_, hcopy, hcolumns, rfl, fun number hmem => ?_, fun k number theirs c hk => ?_⟩
  · simp [start]
  · cases hmem
  · simp [start] at hk

end Both

theorem filter_upsert_of_not {α : Type*} {same keep : α → Bool} {change : α → α} {row : α}
    {t : List α} (hsame : ∀ a, same a = true → keep a = false ∧ keep (change a) = false)
    (hrow : keep row = false) : (Tables.upsert same change row t).filter keep = t.filter keep := by
  have hchange : ∀ t : List α,
      (t.map fun a => if same a then change a else a).filter keep = t.filter keep := by
    intro t
    induction t with
    | nil => rfl
    | cons a t ih =>
      by_cases ha : same a = true
      · simp [ha, (hsame a ha).1, (hsame a ha).2, ih]
      · simp [ha, List.filter_cons, ih]
  unfold Tables.upsert
  split
  · exact hchange t
  · simp [hrow]

namespace Files
variable {f f' : Files} {me : PubKey} {w : Asked} {req : BlobRequest}

/-- Nothing came of a request to the uploads of others, nor to what they hold. -/
def Untouched (me : PubKey) (f f' : Files) : Prop :=
  ∀ u, f.upload.find? (·.id == u.id) = some u → u.uploader ≠ me →
    f'.upload.find? (·.id == u.id) = some u ∧
      f'.uploadChunk.filter (·.upload == u.id) = f.uploadChunk.filter (·.upload == u.id)

def SameUploads (f f' : Files) : Prop := f'.upload = f.upload ∧ f'.uploadChunk = f.uploadChunk

theorem SameUploads.untouched (hsame : SameUploads f f') : Untouched me f f' := by
  intro u hu _
  rw [hsame.1, hsame.2]
  exact ⟨hu, rfl⟩

theorem release_sameUploads (f : Files) (which : Attachment → Bool) :
    SameUploads f (f.release which) := by
  have hcollect : ∀ (blobs : List Bytes32) (f : Files), SameUploads f (blobs.foldl collectBlob f) := by
    intro blobs
    induction blobs with
    | nil => exact fun f => ⟨rfl, rfl⟩
    | cons blob rest ih =>
      intro f
      have hfirst : SameUploads f (f.collectBlob blob) := by
        unfold collectBlob
        split
        · exact ⟨rfl, rfl⟩
        · exact ⟨rfl, rfl⟩
      have hrest := ih (f.collectBlob blob)
      exact ⟨hrest.1.trans hfirst.1, hrest.2.trans hfirst.2⟩
  exact hcollect _ _

theorem attach_sameUploads {channel blob : Bytes32} {who : PubKey} {expiresAfter : UInt32}
    {now : UInt64} (hok : f.attach channel blob who expiresAfter now = .ok f') :
    SameUploads f f' := by
  rw [attach_ok hok]
  exact ⟨rfl, rfl⟩

theorem uploadOf_ok {id : UInt64} {u : Upload} (hok : f.uploadOf me id = .ok u) :
    f.upload.find? (·.id == id) = some u ∧ u.uploader = me := by
  unfold uploadOf at hok
  split at hok
  · cases hok
  · split_ifs at hok with hmine
    obtain rfl := Except.ok.inj hok
    exact ⟨by assumption, hmine⟩

theorem other_id {id : UInt64} {u u' : Upload} (hok : f.uploadOf me id = .ok u)
    (hu' : f.upload.find? (·.id == u'.id) = some u') (hother : u'.uploader ≠ me) :
    u'.id ≠ id := by
  rintro rfl
  obtain ⟨hfind, hmine⟩ := uploadOf_ok hok
  rw [hu'] at hfind
  exact hother (Option.some.inj hfind ▸ hmine)

theorem dropUpload_untouched {id : UInt64} {u : Upload} (hok : f.uploadOf me id = .ok u)
    (hsame : SameUploads f f') : Untouched me f (f'.dropUpload id) := by
  intro u' hu' hother
  have hne := other_id hok hu' hother
  simp only [dropUpload, hsame.1, hsame.2, List.filter_filter, List.find?_filter]
  constructor
  · rw [← hu']
    congr 1
    funext v
    by_cases hv : v.id = u'.id <;> simp [hv, hne]
  · refine List.filter_congr fun c _ => ?_
    by_cases hc : c.upload = u'.id <;> simp [hc, hne]

theorem blobHere_untouched (hreq : ∀ r, req ≠ .beginUpload r) :
    Untouched me f (f.blobHere C w me req).1 := by
  have hacked : ∀ r : Except ChannelError Files, (∀ f', r = .ok f' → Untouched me f f') →
      Untouched me f (f.acked w.now r).1 := by
    intro r hr
    cases r with
    | error e => exact SameUploads.untouched ⟨rfl, rfl⟩
    | ok f' => exact hr f' rfl
  cases req with
  | beginUpload r => exact absurd rfl (hreq r)
  | put id idx bytes =>
    refine hacked _ fun f' hok => ?_
    obtain ⟨u, hmine, hput⟩ := bind_eq_ok.mp hok
    obtain ⟨_, _, hput⟩ := bind_eq_ok.mp hput
    obtain rfl := pure_eq_ok.mp hput
    intro u' hu' hother
    have hne := other_id hmine hu' hother
    refine ⟨hu', filter_upsert_of_not (fun c hc => ?_) ?_⟩
    · simp only [Bool.and_eq_true, beq_iff_eq] at hc
      simp [hc.1, Ne.symm hne]
    · simpa using Ne.symm hne
  | commit id blob =>
    unfold blobHere
    dsimp only
    cases hcommit : f.commitUpload C me id blob w.now with
    | error e => exact SameUploads.untouched ⟨rfl, rfl⟩
    | ok r =>
      obtain ⟨f', stored⟩ := r
      obtain ⟨u, hmine, -⟩ := bind_eq_ok.mp hcommit
      rcases commitUpload_ok hcommit with rfl | ⟨u', chunks, f₁, rfl, hstored⟩
      · exact SameUploads.untouched ⟨rfl, rfl⟩
      · refine dropUpload_untouched hmine ?_
        rcases hstored with rfl | hattach
        · exact ⟨rfl, rfl⟩
        · have hheld := attach_sameUploads hattach
          exact ⟨hheld.1, hheld.2⟩
  | abort id =>
    refine hacked _ fun f' hok => ?_
    obtain ⟨u, hmine, hdrop⟩ := bind_eq_ok.mp hok
    obtain rfl := pure_eq_ok.mp hdrop
    exact dropUpload_untouched hmine ⟨rfl, rfl⟩
  | attach channel blob expiresAfter =>
    exact hacked _ fun f' hok => (attach_sameUploads (attachBlob_ok hok).2.2).untouched
  | detach channel blob =>
    refine hacked _ fun f' hok => ?_
    rw [detachBlob_ok hok]
    exact (release_sameUploads _ _).untouched

end Files

namespace Carrying
variable {s : Carrying} {w : Asked} {me : PubKey} {req : BlobRequest}

/-- No upload of another's is acted on, here or at any origin, nor given up. -/
structure Spared (me : PubKey) (s s' : Carrying) : Prop where
  here : Files.Untouched me s.here s'.here
  away : ∀ o, Files.Untouched me (s.away o) (s'.away o)
  carried : ∀ (x : UInt64) (c : Carried), s.carried[x]? = some c → c.owner ≠ me →
    s'.carried[x]? = some c

theorem spared_refl (me : PubKey) (s : Carrying) : Spared me s s :=
  ⟨Files.SameUploads.untouched ⟨rfl, rfl⟩, fun _ => Files.SameUploads.untouched ⟨rfl, rfl⟩,
    fun _ _ hx _ => hx⟩

theorem action_spared (hreq : ∀ r, req ≠ .beginUpload r) (origin : PubKey) :
    Spared me s (s.action C w origin me req).1 := by
  refine ⟨Files.SameUploads.untouched ⟨rfl, rfl⟩, fun o => ?_, fun _ _ hx _ => hx⟩
  by_cases ho : o = origin
  · subst ho
    rw [action_away]
    exact Files.blobHere_untouched hreq
  · simp only [action, Function.update_of_ne ho]
    exact Files.SameUploads.untouched ⟨rfl, rfl⟩

theorem blobWrite_spared (hreq : ∀ r, req ≠ .beginUpload r) :
    Spared me s (s.blobWrite C reach w me req).1 := by
  have hlocal : Spared me s { s with here := (s.here.blobHere C w me req).1 } :=
    ⟨Files.blobHere_untouched hreq, fun _ => Files.SameUploads.untouched ⟨rfl, rfl⟩,
      fun _ _ hx _ => hx⟩
  have hcarried : ∀ r, s.carryBlob C reach w me req = some r → Spared me s r.1 := by
    intro r hr
    cases hupload : req.upload? with
    | some x =>
      have hrenumber : ∀ theirs r, req.renumber theirs ≠ .beginUpload r := by
        intro theirs r
        cases req with
        | beginUpload r' => exact absurd rfl (hreq r')
        | put _ _ _ | commit _ _ | abort _ | attach _ _ _ | detach _ _ =>
          simp [BlobRequest.renumber]
      rw [carryBlob_named hupload, carryOn] at hr
      split_ifs at hr with hmark
      cases hc : s.carried[x]? with
      | none => simp [hc] at hr
      | some c =>
        simp only [hc] at hr
        by_cases howner : c.owner ≠ me
        · rw [if_pos howner] at hr
          obtain rfl := Option.some.inj hr
          exact spared_refl me s
        · rw [if_neg howner] at hr
          cases hreach : reach c.origin with
          | nowhere | failed e =>
            rw [hreach] at hr
            obtain rfl := Option.some.inj hr
            exact spared_refl me s
          | answers =>
            rw [hreach] at hr
            obtain rfl := Option.some.inj hr
            have hspared : Spared me s (s.action C w c.origin me (req.renumber c.theirs)).1 :=
              action_spared (hrenumber _) _
            dsimp only
            split_ifs
            · refine ⟨hspared.here, hspared.away, fun y c' hy hother => ?_⟩
              have hne : x ≠ y := by
                rintro rfl
                rw [hc] at hy
                exact hother (Option.some.inj hy ▸ not_not.mp howner)
              rw [ExtTreeMap.getElem?_erase, if_neg (by simpa using hne)]
              exact hy
            · exact hspared
    | none =>
      have hto : ∀ (channel : Bytes32) (p : PubKey × (Carrying × BlobAnswer)),
          s.carryTo C reach w me channel req = some p → Spared me s p.2.1 := by
        intro channel p hp
        unfold carryTo at hp
        cases ho : s.originOf channel with
        | none => simp [ho] at hp
        | some origin =>
          simp only [ho] at hp
          cases hreach : reach origin with
          | nowhere | failed e =>
            rw [hreach] at hp
            obtain rfl := Option.some.inj hp
            exact spared_refl me s
          | answers =>
            rw [hreach] at hp
            obtain rfl := Option.some.inj hp
            exact action_spared hreq origin
      cases req with
      | beginUpload r => exact absurd rfl (hreq r)
      | put _ _ _ | commit _ _ | abort _ => cases hupload
      | attach channel blob expiresAfter | detach channel blob =>
        obtain ⟨p, hp, rfl⟩ := Option.map_eq_some_iff.mp hr
        exact hto _ p hp
  unfold blobWrite
  cases hr : s.carryBlob C reach w me req with
  | some r => exact hcarried r hr
  | none => exact hlocal

end Carrying

namespace Both

/-- A carried upload is answered as a direct one, and leaves the origin's blobs and attachments as
they would be, through any run of a copied channel's requests, exactly where every upload named is
its caller's and still carried, or is at the origin no more. And whatever number a member names, no
upload another began is acted on. -/
theorem carried_as_direct (C : Crypto) (h : Host) (reach : PubKey → Reach) (channel : Bytes32)
    (origin : PubKey) (hreach : reach origin = .answers) (here there : Files)
    (away : PubKey → Files) (hcopy : (here.rows channel).originRow = some origin)
    (hcolumns : ∀ u ∈ here.upload, u.id.toNat < 2 ^ 63) (is : List CarryStep)
    (hcounted : Each Counted (step C h reach channel origin) (start origin here there away) is) :
    (Each (Agreed C h reach channel origin) (step C h reach channel origin)
        (start origin here there away) is ↔
      Each Proper (step C h reach channel origin) (start origin here there away) is) ∧
    ∀ (s : Carrying) (w : Asked) (me : PubKey) (req : BlobRequest),
      (∀ r, req ≠ .beginUpload r) → Carrying.Spared me s (s.blobWrite C reach w me req).1 := by
  constructor
  · refine each_congr (I := Matched channel origin) (fun s i hm hcount hproper => ?_)
      (fun s i hm _ => hm.agreed_iff hreach) (matched_start hcopy hcolumns) hcounted
    exact hm.step hreach hcount hproper
  · exact fun s w me req hreq => Carrying.blobWrite_spared hreq

section Example
open Paired

def roomThere : Files := Files.empty.putRows 9 { Rows.empty with
  channel := some ⟨.priv, 0, 0, "", "", 1, 1, 5, 1, 1, 9, 0, none⟩
  member := ({} : ExtTreeMap PubKey MemberRow).insert 5 ⟨.admin, 1, true, true, false⟩ }

def roomHere : Files := Files.empty.putRows 9 { roomThere.rows 9 with
  replicated := some ⟨3, 0, true, none, true, ""⟩ }

def early : List CarryStep :=
  [.ask 5 ⟨1000, none, 10⟩ (.beginUpload 1 1 0), .ask 5 ⟨1000, none, 11⟩ (.commit 0 0)]

/-- The chunk 5 then puts is taken straight, and refused carried. -/
theorem early_commit_loses : ¬ Each (Agreed flatDigest exchange (fun _ => .answers) 9 3)
    (step flatDigest exchange (fun _ => .answers) 9 3) (start 3 roomHere roomThere fun _ => .empty)
    (early ++ [.ask 5 ⟨1000, none, 12⟩ (.put 0 0 [1])]) := by
  intro hagreed
  let s := run (step flatDigest exchange (fun _ => .answers) 9 3)
    (start 3 roomHere roomThere fun _ => .empty) early
  have hlast : Agreed flatDigest exchange (fun _ => .answers) 9 3 s
      (.ask 5 ⟨1000, none, 12⟩ (.put 0 0 [1])) := (each_append.mp hagreed).2.1
  have hanswer := hlast.answer 5 ⟨1000, none, 12⟩ (.put 0 0 [1]) rfl
  have hcarried : (s.carriedAsk flatDigest (fun _ => .answers) 9 5 ⟨1000, none, 12⟩
      (.put 0 0 [1])).2 = some (.refused .noSuchUpload) := by decide +kernel
  have hstraight : (s.straightAsk flatDigest 9 5 ⟨1000, none, 12⟩ (.put 0 0 [1])).2 =
      some (.ack 12) := by decide +kernel
  rw [hcarried, hstraight] at hanswer
  cases hanswer with
  | some hsame => exact absurd (same_refused hsame) (by simp)

def inTime : List CarryStep :=
  [.ask 5 ⟨1000, none, 10⟩ (.beginUpload 1 1 0), .ask 5 ⟨1000, none, 11⟩ (.put 0 0 [1]),
    .ask 5 ⟨1000, none, 12⟩ (.commit 0 0)]

theorem carried_as_direct_in_time : Each (Agreed flatDigest exchange (fun _ => .answers) 9 3)
    (step flatDigest exchange (fun _ => .answers) 9 3)
    (start 3 roomHere roomThere fun _ => .empty) inTime := by
  refine (carried_as_direct flatDigest exchange (fun _ => .answers) 9 3 rfl roomHere roomThere
    (fun _ => .empty) (by decide +kernel) (fun u hu => by cases hu) inTime
    ⟨show (0 : UInt64).toNat + 1 < 2 ^ 63 by decide +kernel, trivial, trivial, trivial⟩).1.mpr
    ⟨fun _ _ _ hnamed => (nomatch hnamed), ?_, ?_, trivial⟩
  · refine proper_of_owned rfl (?_ : _ = some (carriedBit ||| 1)) (?_ : _ = some (1 : UInt64)) ?_ <;>
      decide +kernel
  · refine proper_of_owned rfl (?_ : _ = some (carriedBit ||| 1)) (?_ : _ = some (1 : UInt64)) ?_ <;>
      decide +kernel

end Example

end Both
end Sqex.Exchange
