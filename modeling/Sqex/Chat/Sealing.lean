import Sqex.Exchange.BlobChunks
import Sqex.Lib.Chunks
import Sqex.Proto.BodyWire

/-! A file sealed for an exchange and opened again: the chunks under a key of their own, the
reference that names them, and the messages that carry them. -/
namespace Sqex.Sealing
open Exchange Chunks Offsets
variable {C : Crypto}

def chunkBytes : Nat := 256 * 1024
def maxBlob : Nat := 100 * 1024 * 1024
def maxChunks : Nat := 400

def kindImage : UInt8 := 0x01
def kindVideo : UInt8 := 0x02
def kindVoice : UInt8 := 0x03
def kindFile : UInt8 := 0x04

/-! The messages of an upload, and of a fetch. -/

def typeBegin : UInt8 := 0x01
def typePut : UInt8 := 0x02
def typeBeginFeed : UInt8 := 0x0a

def encodeBegin (type : UInt8) (req : Begin) : Bytes :=
  [type] ++ (Bytes32.toBytes req.channel ++ (beBytes 8 req.size.toNat ++
    (beBytes 4 req.chunks.toNat ++ beBytes 4 req.expiresAfter.toNat)))

def decodeBegin (type : UInt8) (what : String) (b : Bytes) : Except Error Begin := do
  malformedIf (b.length ≠ 49) s!"{what} is {b.length} bytes, want 49"
  malformedIf (byteAt b 0 ≠ type) s!"not a {what} (type {hex (byteAt b 0)})"
  let size := u64At b 33
  let chunks := u32At b 41
  malformedIf (size.toNat > maxBlob) s!"blob is {size} bytes, limit is {maxBlob}"
  malformedIf (chunks = 0 ∨ chunks.toNat > maxChunks)
    s!"blob claims {chunks} chunks, want 1..={maxChunks}"
  pure { channel := keyAt b 1, size, chunks, expiresAfter := u32At b 45 }

def decodeChannelBegin : Bytes → Except Error Begin := decodeBegin typeBegin "begin"
def decodeFeedBegin : Bytes → Except Error Begin := decodeBegin typeBeginFeed "begin-feed"

structure PutChunk where
  upload : UInt64
  index : UInt32
  sealed : Bytes

def PutChunk.encode (p : PutChunk) : Bytes :=
  [typePut] ++ (beBytes 8 p.upload.toNat ++ (beBytes 4 p.index.toNat ++ p.sealed))

def PutChunk.decode (b : Bytes) : Except Error PutChunk := do
  malformedIf (b.length < 13) s!"put is {b.length} bytes, want at least 13"
  malformedIf (byteAt b 0 ≠ typePut) s!"not a put (type {hex (byteAt b 0)})"
  let sealed := b.drop 13
  malformedIf (sealed.length > chunkBytes + 16)
    s!"chunk is {sealed.length} bytes, limit is {chunkBytes + 16}"
  pure { upload := u64At b 1, index := u32At b 9, sealed }

structure Chunk where
  found : Bool
  index : UInt32
  sealed : Bytes

def Chunk.none (index : UInt32) : Chunk := ⟨false, index, []⟩

def Chunk.encode (c : Chunk) : Bytes :=
  [if c.found then 1 else 0] ++ (beBytes 4 c.index.toNat ++ (beBytes 4 c.sealed.length ++ c.sealed))

def Chunk.decode (b : Bytes) : Except Error Chunk := do
  malformedIf (b.length < 9) s!"chunk is {b.length} bytes, want at least 9"
  let len := (u32At b 5).toNat
  malformedIf (b.length ≠ 9 + len) s!"chunk is {b.length} bytes, want {9 + len}"
  malformedIf (len > chunkBytes + 16) s!"chunk is {len} bytes, limit is {chunkBytes + 16}"
  pure { found := byteAt b 0 ≠ 0, index := u32At b 1, sealed := b.drop 9 }

inductive Panic where
  | chunkSize
  | capacity
  deriving DecidableEq

inductive ChatError where
  | protocol (text : String)
  | wire (e : Error)
  deriving DecidableEq

def chunkNonce (index : UInt32) : Bytes := beBytes 8 index.toNat ++ [0, 0, 0, 0]

/-- What follows the last dot of a name, or all of it, in small letters. -/
def extension (name : String) : String :=
  (String.ofList (name.toList.reverse.takeWhile (· ≠ '.')).reverse).toLower

def kindOf (name : String) : UInt8 × String :=
  match extension name with
  | "png" => (kindImage, "image/png")
  | "jpg" | "jpeg" => (kindImage, "image/jpeg")
  | "gif" => (kindImage, "image/gif")
  | "webp" => (kindImage, "image/webp")
  | "mp4" => (kindVideo, "video/mp4")
  | "mov" => (kindVideo, "video/quicktime")
  | "webm" => (kindVideo, "video/webm")
  | "opus" => (kindVoice, "audio/opus")
  | "ogg" => (kindVoice, "audio/ogg")
  | "wav" => (kindVoice, "audio/wav")
  | "txt" | "md" => (kindFile, "text/plain")
  | "pdf" => (kindFile, "application/pdf")
  | _ => (kindFile, "application/octet-stream")

def sealFrom (C : Crypto) (key : Bytes32) : Nat → List Bytes → List Bytes
  | _, [] => []
  | i, c :: cs => C.encrypt key (chunkNonce (UInt32.ofNat i)) c :: sealFrom C key (i + 1) cs

/-- A file ready to upload: its reference, and what it is sealed into. -/
structure Prepared where
  attachment : Sqex.Attachment
  sealed : List Bytes

def shapeOf (kind : UInt8) (name : String) : Bytes :=
  if kind = kindFile then
    let n := (textBytes name).take 255
    UInt8.ofNat n.length :: n
  else []

/-- Seal bytes in hand as a file called `name`, under a fresh key. -/
def fromBytes (C : Crypto) (key : Bytes32) (name : String) (plaintext : Bytes) (chunk : Nat) :
    Except Panic (Except ChatError Prepared) :=
  if maxBlob < plaintext.length then
    .ok (.error (.protocol s!"{name} is {plaintext.length} bytes; the limit is {maxBlob}"))
  else if plaintext = [] then .ok (.error (.protocol s!"{name} is empty"))
  else if chunk = 0 then .error .chunkSize
  else
    let sealed := sealFrom C key 0 (chunks chunk plaintext)
    let (kind, mime) := kindOf name
    .ok (.ok {
      attachment := {
        kind, blob := blobId C sealed, key
        size := UInt64.ofNat plaintext.length
        chunks := UInt32.ofNat sealed.length
        mime := String.ofList (mime.toList.take Attachment.maxMime)
        «meta» := shapeOf kind name
        preview := [] }
      sealed })

def openFrom (C : Crypto) (key : Bytes32) : Nat → List Bytes → Except ChatError Bytes
  | _, [] => .ok []
  | i, c :: cs =>
    match C.decrypt key (chunkNonce (UInt32.ofNat i)) c with
    | none => .error (.protocol s!"chunk {i} would not open under the message's key")
    | some plain => do
      let rest ← openFrom C key (i + 1) cs
      pure (plain ++ rest)

/-- Open what was fetched, once it is known for what the message named. A vector is made for all
the message says it is, `capacity` the most there is to be had. -/
def openSealed (C : Crypto) (capacity : Nat) (a : Sqex.Attachment) (sealed : List Bytes) :
    Except Panic (Except ChatError Bytes) :=
  if blobId C sealed ≠ a.blob then
    .ok (.error (.protocol
      "what the exchange served does not hash to the name the message gave"))
  else if capacity < a.size.toNat then .error .capacity
  else .ok do
    let out ← openFrom C a.key 0 sealed
    if out.length ≠ a.size.toNat then
      .error (.protocol s!"the attachment says {a.size} bytes and opened to {out.length}")
    else .ok out

def getChunk (f : Files) (who : PubKey) (blob : Bytes32) (index : UInt32) (now : UInt64) : Chunk :=
  if f.mayFetch who blob now then
    match f.chunkAt blob index.toNat with
    | some sealed => ⟨true, index, sealed⟩
    | none => .none index
  else .none index

def received (i : Nat) (b : Bytes) : Except ChatError Bytes :=
  match Chunk.decode b with
  | .error e => .error (.wire e)
  | .ok c =>
    if c.found then .ok c.sealed
    else .error (.protocol (s!"the exchange no longer holds chunk {i} — the attachment has " ++
      "passed its retention window"))

def fetchSealed (f : Files) (who : PubKey) (a : Sqex.Attachment) (now : UInt64) :
    Except ChatError (List Bytes) :=
  (List.range a.chunks.toNat).mapM fun i =>
    received i (getChunk f who a.blob (UInt32.ofNat i) now).encode

end Sqex.Sealing
