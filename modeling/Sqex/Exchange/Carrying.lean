import Sqex.Exchange.FileRun

/-! The blob store's write requests, at the exchange a channel lives at and at a copy of it: a
copy carries them on, and keeps nothing but the number it gave for each upload. -/
namespace Sqex.Exchange
open Std Runs

inductive BlobRequest where
  | beginUpload (req : Begin)
  | put (upload : UInt64) (idx : UInt32) (bytes : Bytes)
  | commit (upload : UInt64) (blob : Bytes32)
  | abort (upload : UInt64)
  | attach (channel blob : Bytes32) (expiresAfter : UInt32)
  | detach (channel blob : Bytes32)

inductive BlobAnswer where
  | begun (upload now : UInt64)
  | ack (now : UInt64)
  | committed (stored : Bool) (blob : Bytes32) (now : UInt64)
  | refused (e : ChannelError)
  | rateLimited (secs : UInt64)
  | notYours
  /-- No way to the channel's origin is known. -/
  | replicated
  | originRefused (code : UInt16)
  | originAway
  deriving DecidableEq

def BlobAnswer.ok : BlobAnswer → Bool
  | .begun _ _ | .ack _ | .committed _ _ _ => true
  | _ => false

/-- What an exchange's answer depends on beside its files. -/
structure Asked where
  quota : UInt64
  /-- How long the caller has to wait before it may begin another upload, if it has to. -/
  wait : Option UInt64
  now : UInt64

namespace Files

/-- What a request that changes files answers, and what it leaves. -/
def acked (f : Files) (now : UInt64) (r : Except ChannelError Files) : Files × BlobAnswer :=
  match r with
  | .ok f' => (f', .ack now)
  | .error e => (f, .refused e)

/-- The blob store's write routes, answered here. -/
def blobHere (C : Crypto) (w : Asked) (f : Files) (me : PubKey) :
    BlobRequest → Files × BlobAnswer
  | .beginUpload req =>
    match w.wait with
    | some secs => (f, .rateLimited secs)
    | none =>
      match f.beginUpload w.quota me req w.now with
      | .ok (f', upload) => (f', .begun upload w.now)
      | .error e => (f, .refused e)
  | .put upload idx bytes => f.acked w.now (f.putChunk me upload idx bytes)
  | .commit upload blob =>
    match f.commitUpload C me upload blob w.now with
    | .ok (f', stored) => (f', .committed stored blob w.now)
    | .error e => (f, .refused e)
  | .abort upload => f.acked w.now (f.abortUpload me upload)
  | .attach channel blob expiresAfter =>
    f.acked w.now (f.attachBlob me channel blob expiresAfter w.now)
  | .detach channel blob => f.acked w.now (f.detachBlob me channel blob)

end Files

structure Carried where
  origin : PubKey
  theirs : UInt64
  owner : PubKey

inductive ForwardFailed where
  | limited (secs : UInt64)
  | refused (code : UInt16)
  | unreachable

inductive Reach where
  | nowhere
  | failed (e : ForwardFailed)
  | answers

def ForwardFailed.answer : ForwardFailed → BlobAnswer
  | .limited secs => .rateLimited secs
  | .refused code => .originRefused code
  | .unreachable => .originAway

def carriedBit : UInt64 := (1 : UInt64) <<< 63

/-- An exchange with copies of channels, what the origins of these hold, and the uploads it
carries. -/
structure Carrying where
  here : Files
  away : PubKey → Files
  carried : ExtTreeMap UInt64 Carried
  nextCarried : UInt64

namespace Carrying

section
variable (C : Crypto) (reach : PubKey → Reach) (w : Asked) (s : Carrying) (me : PubKey)

def originOf (channel : Bytes32) : Option PubKey :=
  (s.here.rows channel).originRow

def action (origin me : PubKey) (req : BlobRequest) : Carrying × BlobAnswer :=
  let r := (s.away origin).blobHere C w me req
  ({ s with away := Function.update s.away origin r.1 }, r.2)

def translate (origin : PubKey) (theirs : UInt64) (me : PubKey) : Carrying × UInt64 :=
  let n := s.nextCarried + 1
  ({ s with
    carried := s.carried.insert (carriedBit ||| n) ⟨origin, theirs, me⟩
    nextCarried := n }, carriedBit ||| n)

def carryOn (upload : UInt64) (rewritten : UInt64 → BlobRequest) (isPut : Bool) :
    Option (Carrying × BlobAnswer) :=
  if upload &&& carriedBit = 0 then none
  else
    match s.carried[upload]? with
    | none => none
    | some c =>
      if c.owner ≠ me then some (s, .notYours)
      else
        match reach c.origin with
        | .nowhere => some (s, .replicated)
        | .failed e => some (s, e.answer)
        | .answers =>
          let r := s.action C w c.origin me (rewritten c.theirs)
          some (if isPut = false ∧ r.2.ok = true then
              { r.1 with carried := r.1.carried.erase upload }
            else r.1, r.2)

def carryTo (channel : Bytes32) (req : BlobRequest) : Option (PubKey × (Carrying × BlobAnswer)) :=
  match s.originOf channel with
  | none => none
  | some origin =>
    match reach origin with
    | .nowhere => some (origin, s, .replicated)
    | .failed e => some (origin, s, e.answer)
    | .answers => some (origin, s.action C w origin me req)

def carryBlob : BlobRequest → Option (Carrying × BlobAnswer)
  | .beginUpload req =>
    (s.carryTo C reach w me req.channel (.beginUpload req)).map fun p =>
      match p.2.2 with
      | .begun theirs now =>
        ((p.2.1.translate p.1 theirs me).1, .begun (p.2.1.translate p.1 theirs me).2 now)
      | answer => (p.2.1, answer)
  | .put upload idx bytes =>
    s.carryOn C reach w me upload (fun theirs => .put theirs idx bytes) true
  | .commit upload blob => s.carryOn C reach w me upload (fun theirs => .commit theirs blob) false
  | .abort upload => s.carryOn C reach w me upload (fun theirs => .abort theirs) false
  | .attach channel blob expiresAfter =>
    (s.carryTo C reach w me channel (.attach channel blob expiresAfter)).map Prod.snd
  | .detach channel blob =>
    (s.carryTo C reach w me channel (.detach channel blob)).map Prod.snd

def blobWrite (req : BlobRequest) : Carrying × BlobAnswer :=
  match s.carryBlob C reach w me req with
  | some r => r
  | none =>
    let r := s.here.blobHere C w me req
    ({ s with here := r.1 }, r.2)

end

end Carrying

/-- What a member of the channel asks, its uploads named by their order among those begun. -/
inductive Ask where
  | beginUpload (size : UInt64) (chunks expiresAfter : UInt32)
  | put (k : Nat) (idx : UInt32) (bytes : Bytes)
  | commit (k : Nat) (blob : Bytes32)
  | abort (k : Nat)
  | attach (blob : Bytes32) (expiresAfter : UInt32)
  | detach (blob : Bytes32)

namespace Ask

def request (channel : Bytes32) (given : List UInt64) : Ask → Option BlobRequest
  | .beginUpload size chunks expiresAfter =>
    some (.beginUpload ⟨channel, size, chunks, expiresAfter⟩)
  | .put k idx bytes => given[k]?.map fun upload => .put upload idx bytes
  | .commit k blob => given[k]?.map fun upload => .commit upload blob
  | .abort k => given[k]?.map fun upload => .abort upload
  | .attach blob expiresAfter => some (.attach channel blob expiresAfter)
  | .detach blob => some (.detach channel blob)

def named : Ask → Option Nat
  | .put k _ _ | .commit k _ | .abort k => some k
  | _ => none

end Ask

def givenAfter (given : List UInt64) : Option BlobAnswer → List UInt64
  | some (.begun upload _) => given ++ [upload]
  | _ => given

/-- One channel's requests sent twice: through a copy, and straight to the origin. -/
structure Both where
  carrying : Carrying
  given : List UInt64
  origin : Files
  givenThere : List UInt64

/-- What a member asks; what else happens at the origin, and to the copy's own files; and an
upload of another channel that the copy carries. -/
inductive CarryStep where
  | ask (who : PubKey) (w : Asked) (a : Ask)
  | there (op : Filing)
  | here (f : Files)
  | other (c : Carried)

namespace Both

def start (origin : PubKey) (here there : Files) (away : PubKey → Files) : Both where
  carrying := ⟨here, Function.update away origin there, ∅, 0⟩
  given := []
  origin := there
  givenThere := []

/-- What the copy answers to an ask, where it names an upload begun. -/
def carriedAsk (C : Crypto) (reach : PubKey → Reach) (channel : Bytes32) (s : Both)
    (who : PubKey) (w : Asked) (a : Ask) : Carrying × Option BlobAnswer :=
  match a.request channel s.given with
  | some req =>
    ((s.carrying.blobWrite C reach w who req).1, some (s.carrying.blobWrite C reach w who req).2)
  | none => (s.carrying, none)

def straightAsk (C : Crypto) (channel : Bytes32) (s : Both) (who : PubKey) (w : Asked) (a : Ask) :
    Files × Option BlobAnswer :=
  match a.request channel s.givenThere with
  | some req => ((s.origin.blobHere C w who req).1, some (s.origin.blobHere C w who req).2)
  | none => (s.origin, none)

/-- Whatever else happens to the copy's files, they go on holding copies, and an upload's number
is a positive column. -/
def step (C : Crypto) (h : Host) (reach : PubKey → Reach) (channel : Bytes32) (origin : PubKey)
    (s : Both) : CarryStep → Both
  | .ask who w a =>
    { carrying := (s.carriedAsk C reach channel who w a).1
      given := givenAfter s.given (s.carriedAsk C reach channel who w a).2
      origin := (s.straightAsk C channel who w a).1
      givenThere := givenAfter s.givenThere (s.straightAsk C channel who w a).2 }
  | .there op =>
    { s with
      carrying := { s.carrying with
        away := Function.update s.carrying.away origin ((s.carrying.away origin).step C h op) }
      origin := s.origin.step C h op }
  | .here f =>
    { s with
      carrying := { s.carrying with
        here := { f with
          channels := s.carrying.here.channels
          upload := f.upload.filter fun u => u.id < carriedBit } } }
  | .other c => { s with carrying := (s.carrying.translate c.origin c.theirs c.owner).1 }

end Both

def BlobAnswer.Same : BlobAnswer → BlobAnswer → Prop
  | .begun _ now, .begun _ now' => now = now'
  | a, b => a = b

structure Files.SameHeld (f f' : Files) : Prop where
  blob : f.blob = f'.blob
  blobChunk : f.blobChunk = f'.blobChunk
  attachment : f.attachment = f'.attachment

namespace Both
variable (C : Crypto) (h : Host) (reach : PubKey → Reach) (channel : Bytes32) (origin : PubKey)

/-- A carried request is answered as one sent straight, and leaves the origin's files so. -/
structure Agreed (s : Both) (i : CarryStep) : Prop where
  answer : ∀ who w a, i = .ask who w a → Option.Rel BlobAnswer.Same
    (s.carriedAsk C reach channel who w a).2 (s.straightAsk C channel who w a).2
  held : ((s.step C h reach channel origin i).carrying.away origin).SameHeld
    (s.step C h reach channel origin i).origin

def Proper (s : Both) : CarryStep → Prop
  | .ask who _ a => ∀ k number theirs, a.named = some k → s.given[k]? = some number →
      s.givenThere[k]? = some theirs →
        match s.carrying.carried[number]? with
        | some c => c.owner = who
        | none => ∀ u ∈ s.origin.upload, u.id ≠ theirs
  | _ => True

/-- The count of what was carried stays below the bit that marks it. -/
def Counted (s : Both) : CarryStep → Prop
  | .ask _ _ (.beginUpload _ _ _) | .other _ => s.carrying.nextCarried.toNat + 1 < 2 ^ 63
  | _ => True

end Both
end Sqex.Exchange
