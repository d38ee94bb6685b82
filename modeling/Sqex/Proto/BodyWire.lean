import Sqex.Proto.Fields
import Sqex.Proto.Message

/-! Messages as they are written and read: posts part by part, stepping over the parts of a
kind this version does not know, and the bodies that carry them. -/
namespace Sqex
open Offsets
variable {part : Part} {raws : List (UInt8 × Bytes)} {q : Post}

namespace Attachment

def maxPreview : Nat := 8 * 1024
def maxMime : Nat := 128
def maxMeta : Nat := 1024
def maxChunks : UInt32 := 400

def write (a : Attachment) : Bytes :=
  [a.kind] ++ (Bytes32.toBytes a.blob ++ (Bytes32.toBytes a.key ++ (beBytes 8 a.size.toNat ++
    (beBytes 4 a.chunks.toNat ++ ([UInt8.ofNat (textBytes a.mime).length] ++ (textBytes a.mime ++
    (beBytes 2 a.meta.length ++ (a.meta ++ (beBytes 2 a.preview.length ++ a.preview)))))))))

def read : ReaderAt Error Attachment := fun b o => do
  malformedIf (b.length < o + 78) "attachment is truncated"
  let chunks := u32At b (o + 73)
  malformedIf (chunks > maxChunks) s!"attachment claims {chunks} chunks, limit is {maxChunks}"
  let mimeLen := (byteAt b (o + 77)).toNat
  malformedIf (mimeLen > maxMime) s!"mime is {mimeLen} bytes, limit is {maxMime}"
  let p := o + 78
  malformedIf (b.length < p + mimeLen + 2) "attachment is truncated"
  let mime ← utf8 (slice b p mimeLen) "mime"
  let p := p + mimeLen
  let metaLen := (u16At b p).toNat
  let p := p + 2
  malformedIf (metaLen > maxMeta) s!"meta is {metaLen} bytes, limit is {maxMeta}"
  malformedIf (b.length < p + metaLen + 2) "attachment is truncated"
  let info := slice b p metaLen
  let p := p + metaLen
  let prevLen := (u16At b p).toNat
  let p := p + 2
  malformedIf (prevLen > maxPreview) s!"preview is {prevLen} bytes, limit is {maxPreview}"
  malformedIf (b.length < p + prevLen) "attachment preview is truncated"
  pure ({ kind := byteAt b o, blob := keyAt b (o + 1), key := keyAt b (o + 33),
          size := u64At b (o + 65), chunks, mime, «meta» := info, preview := slice b p prevLen },
    p + prevLen)

end Attachment

def partText : UInt8 := 0x01
def partAttachment : UInt8 := 0x02
def partLink : UInt8 := 0x03
def partReply : UInt8 := 0x04
def partMention : UInt8 := 0x05
def partVia : UInt8 := 0x06
def partSaid : UInt8 := 0x07
def partQuote : UInt8 := 0x08
def partRegard : UInt8 := 0x09

def maxText : Nat := 16 * 1024
def maxParts : Nat := 32
def maxAttachments : Nat := 4
def maxLinks : Nat := 4
def maxMentions : Nat := 32
def maxEmoji : Nat := 32
def maxUrl : Nat := 2 * 1024
def maxTitle : Nat := 256
def maxDesc : Nat := 1024
def maxName : Nat := 64
def maxTopic : Nat := 256

def Part.kind : Part → UInt8
  | .text _ => partText
  | .attachment _ => partAttachment
  | .link _ => partLink
  | .reply _ => partReply
  | .mention _ => partMention
  | .via _ => partVia
  | .said _ => partSaid
  | .quote _ _ => partQuote
  | .regard _ => partRegard

section
variable (post : Post) (b : Bytes)

def writeStr (s : String) : Bytes := beBytes 2 (textBytes s).length ++ textBytes s

def writeFile (file : Option Attachment) : Bytes :=
  match file with
  | some a => [1] ++ a.write
  | none => [0]

def Link.write (l : Link) : Bytes :=
  writeStr l.url ++ (writeStr l.title ++ (writeStr l.description ++ writeFile l.image))

def Part.body : Part → Bytes
  | .text t => textBytes t
  | .attachment a => a.write
  | .reply t => beBytes 8 t.toNat
  | .mention m => Bytes32.toBytes m
  | .via v => Bytes32.toBytes v
  | .said posted => beBytes 8 posted.toNat
  | .regard emoji => textBytes emoji
  | .quote who serial => Bytes32.toBytes who ++ beBytes 8 serial.toNat
  | .link l => l.write

/-- A part on the wire: what kind it is, how long, and what it holds. -/
def writeRaw (kind : UInt8) (body : Bytes) : Bytes := [kind] ++ (beBytes 4 body.length ++ body)

def writePart (part : Part) : Bytes := writeRaw part.kind part.body

def readStr (o cap : Nat) (what : String) : Except Error (String × Nat) := do
  malformedIf (b.length < o + 2) s!"{what} length is truncated"
  let n := (u16At b o).toNat
  let o := o + 2
  malformedIf (n > cap) s!"{what} is {n} bytes, limit is {cap}"
  malformedIf (b.length < o + n) s!"{what} is truncated"
  let s ← utf8 (slice b o n) what
  pure (s, o + n)

def readFile : ReaderAt Error (Option Attachment) := fun b o =>
  if byteAt b o ≠ 0 then do
    let (a, o) ← Attachment.read b (o + 1)
    pure (some a, o)
  else pure (none, o + 1)

def readLink : Except Error Part := do
  let (url, o) ← readStr b 0 maxUrl "url"
  let (title, o) ← readStr b o maxTitle "title"
  let (description, o) ← readStr b o maxDesc "description"
  malformedIf (b.length ≤ o) "link preview is truncated"
  let (image, o) ← readFile b o
  malformedIf (o ≠ b.length) "link part has trailing bytes"
  pure (.link { url, title, description, image })

def readFixed (n : Nat) (what : String) (part : Part) : Except Error Part := do
  malformedIf (b.length ≠ n) s!"{what} is {b.length} bytes, want {n}"
  pure part

def readText : Except Error Part := do
  malformedIf (b.length > maxText) s!"text is {b.length} bytes, limit is {maxText}"
  let t ← utf8 b "text"
  pure (.text t)

def readAttachment : Except Error Part := do
  let (a, o) ← Attachment.read b 0
  malformedIf (o ≠ b.length) "attachment part has trailing bytes"
  pure (.attachment a)

def readRegard : Except Error Part := do
  malformedIf (b = [] ∨ b.length > maxEmoji) s!"regard is {b.length} bytes, want 1..={maxEmoji}"
  let emoji ← textOr b "regard is not utf-8"
  pure (.regard emoji)

def readPart (kind : UInt8) (b : Bytes) : Except Error (Option Part) :=
  if kind = partText then some <$> readText b
  else if kind = partSaid then some <$> readFixed b 8 "said" (.said (u64At b 0))
  else if kind = partVia then some <$> readFixed b 32 "via" (.via (keyAt b 0))
  else if kind = partAttachment then some <$> readAttachment b
  else if kind = partReply then some <$> readFixed b 8 "reply" (.reply (u64At b 0))
  else if kind = partMention then some <$> readFixed b 32 "mention" (.mention (keyAt b 0))
  else if kind = partLink then some <$> readLink b
  else if kind = partRegard then some <$> readRegard b
  else if kind = partQuote then
    some <$> readFixed b 40 "quote" (.quote (keyAt b 0) (u64At b 32))
  else pure none

/-- Parts on the wire, known or not: how many, and each with its kind and what it holds. -/
def writeRaws (raws : List (UInt8 × Bytes)) : Bytes :=
  [UInt8.ofNat raws.length] ++ raws.flatMap fun raw => writeRaw raw.1 raw.2

def Post.write : Bytes :=
  [UInt8.ofNat post.parts.length] ++ post.parts.flatMap writePart

def cap (count limit : Nat) (what : String) : Except Error Unit :=
  malformedIf (count > limit) s!"post has {count} {what}, limit is {limit}"

def Post.count (kind : UInt8) : Nat := post.parts.countP (·.kind == kind)

def Post.validate : Except Error Unit := do
  cap (post.count partText) 1 "text parts"
  cap (post.count partReply) 1 "reply parts"
  cap (post.count partVia) 1 "via parts"
  cap (post.count partSaid) 1 "said parts"
  cap (post.count partQuote) 1 "quote parts"
  cap (post.count partRegard) 1 "regard parts"
  malformedIf (post.count partRegard > 0 ∧ post.count partQuote = 0)
    "a regard with no quote names nothing"
  cap (post.count partAttachment) maxAttachments "attachments"
  cap (post.count partLink) maxLinks "link previews"
  cap (post.count partMention) maxMentions "mentions"

def Post.add : Option Part → Post
  | some part => { post with parts := part :: post.parts }
  | none => { post with unknown := post.unknown + 1 }

end

def readParts : Nat → ReaderAt Error Post
  | 0, _, o => pure ({}, o)
  | n + 1, b, o => do
    malformedIf (b.length < o + 5) "part header is truncated"
    let kind := byteAt b o
    let len := (u32At b (o + 1)).toNat
    let o := o + 5
    malformedIf (b.length < o + len) "part body is truncated"
    let part ← readPart kind (slice b o len)
    let (rest, o) ← readParts n b (o + len)
    pure (rest.add part, o)

def readPost : ReaderAt Error Post := fun b o => do
  malformedIf (b.length ≤ o) "post is truncated"
  let count := (byteAt b o).toNat
  malformedIf (count > maxParts) s!"post has {count} parts, limit is {maxParts}"
  let (post, o) ← readParts count b (o + 1)
  post.validate
  pure (post, o)

def typePost : UInt8 := 0x01
def typeReaction : UInt8 := 0x02
def typeEdit : UInt8 := 0x03
def typeRedact : UInt8 := 0x04
def typeMetadata : UInt8 := 0x05
def typeCall : UInt8 := 0x06
def typeCallEnd : UInt8 := 0x07

def reactAdd : UInt8 := 0x01
def reactRemove : UInt8 := 0x02

namespace Body

def encode : Body → Bytes
  | .post p => [typePost] ++ p.write
  | .reaction target add emoji => [typeReaction] ++ (beBytes 8 target.toNat ++
      ([if add then reactAdd else reactRemove] ++
      ([UInt8.ofNat (textBytes emoji).length] ++ textBytes emoji)))
  | .edit target p => [typeEdit] ++ (beBytes 8 target.toNat ++ p.write)
  | .redact target => [typeRedact] ++ beBytes 8 target.toNat
  | .metadata name topic avatar => [typeMetadata] ++
      ([UInt8.ofNat (textBytes name).length] ++ (textBytes name ++ (writeStr topic ++
      writeFile avatar)))
  | .call media ringSecs secret => [typeCall] ++ ([media] ++ (beBytes 2 ringSecs.toNat ++
      Bytes32.toBytes secret))
  | .callEnd target outcome duration => [typeCallEnd] ++ (beBytes 8 target.toNat ++
      ([outcome] ++ beBytes 4 duration.toNat))

def done (b : Bytes) (o : Nat) : Except Error Unit :=
  malformedIf (o ≠ b.length) s!"body has {b.length - o} trailing bytes"

def decodePost (b : Bytes) : Except Error Body := do
  let (p, o) ← readPost b 1
  done b o
  pure (.post p)

def reactionOp : UInt8 → Except Error Bool
  | 0x01 => .ok true
  | 0x02 => .ok false
  | other => .error (.malformed s!"unknown reaction op {other}")

def decodeReaction (b : Bytes) : Except Error Body := do
  malformedIf (b.length < 11) "reaction is truncated"
  let target := u64At b 1
  let add ← reactionOp (byteAt b 9)
  let n := (byteAt b 10).toNat
  malformedIf (n > maxEmoji) s!"emoji is {n} bytes, limit is {maxEmoji}"
  malformedIf (b.length ≠ 11 + n) "reaction is truncated"
  let emoji ← utf8 (b.drop 11) "emoji"
  pure (.reaction target add emoji)

def decodeEdit (b : Bytes) : Except Error Body := do
  malformedIf (b.length < 9) "edit is truncated"
  let (p, o) ← readPost b 9
  done b o
  pure (.edit (u64At b 1) p)

def decodeRedact (b : Bytes) : Except Error Body := do
  malformedIf (b.length ≠ 9) s!"redact is {b.length} bytes, want 9"
  pure (.redact (u64At b 1))

def decodeMetadata (b : Bytes) : Except Error Body := do
  malformedIf (b.length < 2) "metadata is truncated"
  let nameLen := (byteAt b 1).toNat
  malformedIf (nameLen > maxName) s!"name is {nameLen} bytes, limit is {maxName}"
  let o := 2
  malformedIf (b.length < o + nameLen + 2) "metadata is truncated"
  let name ← utf8 (slice b o nameLen) "name"
  let o := o + nameLen
  let topicLen := (u16At b o).toNat
  let o := o + 2
  malformedIf (topicLen > maxTopic) s!"topic is {topicLen} bytes, limit is {maxTopic}"
  malformedIf (b.length < o + topicLen + 1) "metadata is truncated"
  let topic ← utf8 (slice b o topicLen) "topic"
  let o := o + topicLen
  let (avatar, o) ← readFile b o
  done b o
  pure (.metadata name topic avatar)

def decodeCall (b : Bytes) : Except Error Body := do
  malformedIf (b.length ≠ 1 + 1 + 2 + 32) s!"call is {b.length} bytes, want 36"
  pure (.call (byteAt b 1) (u16At b 2) (keyAt b 4))

def decodeCallEnd (b : Bytes) : Except Error Body := do
  malformedIf (b.length ≠ 1 + 8 + 1 + 4) s!"call end is {b.length} bytes, want 14"
  pure (.callEnd (u64At b 1) (byteAt b 9) (u32At b 10))

def decode (b : Bytes) : Except Error (Option Body) := do
  malformedIf (b = []) "body is empty"
  let type := byteAt b 0
  if type = typePost then some <$> decodePost b
  else if type = typeReaction then some <$> decodeReaction b
  else if type = typeEdit then some <$> decodeEdit b
  else if type = typeRedact then some <$> decodeRedact b
  else if type = typeMetadata then some <$> decodeMetadata b
  else if type = typeCall then some <$> decodeCall b
  else if type = typeCallEnd then some <$> decodeCallEnd b
  else pure none

end Body

/-! What has a wire form: nothing longer than the format lets it be. -/

structure Attachment.Fits (a : Attachment) : Prop where
  chunks : a.chunks ≤ maxChunks
  mime : (textBytes a.mime).length ≤ maxMime
  info : a.meta.length ≤ maxMeta
  preview : a.preview.length ≤ maxPreview

structure Link.Fits (l : Link) : Prop where
  url : (textBytes l.url).length ≤ maxUrl
  title : (textBytes l.title).length ≤ maxTitle
  description : (textBytes l.description).length ≤ maxDesc
  image : ∀ a ∈ l.image, a.Fits

def Part.Fits : Part → Prop
  | .text t => (textBytes t).length ≤ maxText
  | .attachment a => a.Fits
  | .link l => l.Fits
  | .regard emoji => textBytes emoji ≠ [] ∧ (textBytes emoji).length ≤ maxEmoji
  | _ => True

structure Post.Fits (post : Post) : Prop where
  count : post.parts.length ≤ maxParts
  parts : ∀ part ∈ post.parts, part.Fits
  known : post.unknown = 0
  valid : post.validate = .ok ()

def Body.Fits : Body → Prop
  | .post p => p.Fits
  | .reaction _ _ emoji => (textBytes emoji).length ≤ maxEmoji
  | .edit _ p => p.Fits
  | .metadata name topic avatar => (textBytes name).length ≤ maxName ∧
      (textBytes topic).length ≤ maxTopic ∧ ∀ a ∈ avatar, a.Fits
  | _ => True

section
variable {b : Bytes} {o : Nat}

namespace Attachment

theorem length_write (a : Attachment) : a.write.length =
    78 + (textBytes a.mime).length + 2 + a.meta.length + 2 + a.preview.length := by
  simp only [write, List.length_append, List.length_singleton, Bytes32.length_toBytes,
    beBytes_length]
  omega

theorem read_stands {a : Attachment} (h : a.Fits) (hs : Stands b o a.write) :
    read b o = .ok (a, o + a.write.length) := by
  have hmime : (textBytes a.mime).length < 256 := Nat.lt_of_le_of_lt h.mime (by decide)
  have hinfo : a.meta.length < 2 ^ 16 := Nat.lt_of_le_of_lt h.info (by decide)
  have hpreview : a.preview.length < 2 ^ 16 := Nat.lt_of_le_of_lt h.preview (by decide)
  have hend := hs.length
  rw [length_write] at hend
  rw [write, stands_byte_append, stands_key_append, stands_key_append, stands_u64_append,
    stands_u32_append, stands_len8_append hmime, stands_part_append, stands_len16_append hinfo,
    stands_part_append, stands_len16_append hpreview, stands_iff_slice] at hs
  simp only [Nat.add_assoc, Nat.reduceAdd] at hs
  obtain ⟨hkind, hblob, hkey, hsize, hchunks, hlen, htext, hlen₁, hinfo, hlen₂, _, hpreview⟩ := hs
  simp only [read, bind_eq_ok, malformedIf_eq_ok, utf8_eq_ok, pure_eq_ok, Nat.add_assoc, hkind,
    hblob, hkey, hsize, hchunks, hlen, htext, hlen₁, hinfo, hlen₂, hpreview, Nat.not_lt,
    gt_iff_lt]
  refine ⟨(), by omega, (), UInt32.not_lt.mpr h.chunks, (), h.mime, (), by omega, a.mime, rfl,
    (), h.info, (), by omega, (), h.preview, (), by omega, ?_⟩
  rw [length_write]
  simp only [Nat.add_assoc]

end Attachment

theorem readFile_stands {file : Option Attachment} (h : ∀ a ∈ file, a.Fits)
    (hs : Stands b o (writeFile file)) :
    readFile b o = .ok (file, o + (writeFile file).length) := by
  cases file with
  | none =>
    have hbyte : byteAt b o = 0 := (stands_byte.mp hs).2
    rw [readFile, if_neg (by simp [hbyte])]
    rfl
  | some a =>
    rw [writeFile, stands_byte_append] at hs
    have hread := Attachment.read_stands (h a rfl) hs.2
    have hbyte : byteAt b o ≠ 0 := by simp [hs.1]
    rw [readFile, if_pos hbyte, bind_eq_ok]
    refine ⟨_, hread, ?_⟩
    simp only [pure_eq_ok, writeFile, List.length_append, List.length_singleton, Prod.mk.injEq,
      true_and]
    omega

theorem readStr_stands {s : String} {limit : Nat} (what : String)
    (h : (textBytes s).length ≤ limit) (hlimit : limit < 2 ^ 16) (hs : Stands b o (writeStr s)) :
    readStr b o limit what = .ok (s, o + (writeStr s).length) := by
  have hlen : (textBytes s).length < 2 ^ 16 := Nat.lt_of_le_of_lt h hlimit
  rw [writeStr, stands_len16_append hlen, stands_text] at hs
  obtain ⟨hn, hroom, htext⟩ := hs
  simp only [readStr, bind_eq_ok, malformedIf_eq_ok, utf8_eq_ok, pure_eq_ok, hn, htext, Nat.not_lt,
    gt_iff_lt]
  refine ⟨(), by omega, (), h, (), hroom, s, rfl, ?_⟩
  rw [writeStr, List.length_append, beBytes_length, Nat.add_assoc]

theorem writeFile_pos (file : Option Attachment) : 0 < (writeFile file).length := by
  cases file <;> simp [writeFile]

theorem readLink_write {l : Link} (h : l.Fits) : readLink l.write = .ok (.link l) := by
  have hs : Stands l.write 0 l.write := stands_self
  have hlen : l.write.length = (writeStr l.url).length + (writeStr l.title).length +
      (writeStr l.description).length + (writeFile l.image).length := by
    simp only [Link.write, List.length_append, Nat.add_assoc]
  rw [Link.write, stands_append, stands_append, stands_append, ← Link.write, Nat.zero_add] at hs
  obtain ⟨hurl, htitle, hdescription, himage⟩ := hs
  have hpos := writeFile_pos l.image
  simp only [readLink, bind_eq_ok, malformedIf_eq_ok, pure_eq_ok, Prod.exists]
  refine ⟨l.url, _, readStr_stands _ h.url (by decide) hurl, l.title, _,
    readStr_stands _ h.title (by decide) (by rwa [Nat.zero_add]), l.description, _,
    readStr_stands _ h.description (by decide) (by rwa [Nat.zero_add]), (), ?_, l.image, _,
    readFile_stands h.image (by rwa [Nat.zero_add]), (), ?_, rfl⟩
  · omega
  · omega

theorem readFixed_eq {n : Nat} (what : String) {read : Part} (hlen : b.length = n)
    (hread : read = part) : some <$> readFixed b n what read = .ok (some part) := by
  subst hread
  rw [readFixed, malformedIf, if_neg (by simpa using hlen)]
  rfl

theorem u64At_write (n : UInt64) : u64At (beBytes 8 n.toNat) 0 = n :=
  (stands_u64.mp stands_self).2

theorem keyAt_write (k : Bytes32) : keyAt (Bytes32.toBytes k) 0 = k :=
  (stands_key.mp stands_self).2

theorem readPart_body (h : part.Fits) :
    readPart part.kind part.body = .ok (some part) := by
  cases part with
  | text t =>
    have hread : readText (textBytes t) = .ok (.text t) := by
      simp only [readText, bind_eq_ok, malformedIf_eq_ok, utf8_eq_ok, pure_eq_ok]
      exact ⟨(), Nat.not_lt.mpr h, t, rfl, rfl⟩
    exact congrArg (some <$> ·) hread
  | attachment a =>
    have hread : readAttachment a.write = .ok (.attachment a) := by
      simp only [readAttachment, bind_eq_ok, malformedIf_eq_ok, pure_eq_ok, Prod.exists]
      exact ⟨a, _, Attachment.read_stands h stands_self, (), by simp, rfl⟩
    exact congrArg (some <$> ·) hread
  | link l => exact congrArg (some <$> ·) (readLink_write h)
  | reply t => exact readFixed_eq "reply" (beBytes_length _ _) (congrArg _ (u64At_write t))
  | mention m => exact readFixed_eq "mention" (beBytes_length _ _) (congrArg _ (keyAt_write m))
  | via v => exact readFixed_eq "via" (beBytes_length _ _) (congrArg _ (keyAt_write v))
  | said posted =>
    exact readFixed_eq "said" (beBytes_length _ _) (congrArg _ (u64At_write posted))
  | quote who serial =>
    have hs : Stands (Bytes32.toBytes who ++ beBytes 8 serial.toNat) 0 _ := stands_self
    rw [stands_key_append, stands_u64, Nat.zero_add] at hs
    refine readFixed_eq "quote" ?_ (by rw [Part.body, hs.1, hs.2.2])
    simp [Part.body, beBytes_length]
  | regard emoji =>
    have hread : readRegard (textBytes emoji) = .ok (.regard emoji) := by
      simp only [readRegard, bind_eq_ok, malformedIf_eq_ok, textOr_eq_ok, pure_eq_ok, not_or]
      exact ⟨(), ⟨h.1, Nat.not_lt.mpr h.2⟩, emoji, rfl, rfl⟩
    exact congrArg (some <$> ·) hread

def knownKinds : List UInt8 :=
  [partText, partAttachment, partLink, partReply, partMention, partVia, partSaid, partQuote,
    partRegard]

theorem readPart_unknown {kind : UInt8} (h : kind ∉ knownKinds) (b : Bytes) :
    readPart kind b = .ok none := by
  simp only [knownKinds, List.mem_cons, List.not_mem_nil, or_false, not_or] at h
  obtain ⟨h₁, h₂, h₃, h₄, h₅, h₆, h₇, h₈, h₉⟩ := h
  simp only [readPart, h₁, h₂, h₃, h₄, h₅, h₆, h₇, h₈, h₉, if_false]
  rfl

/-! Parts one after another, whatever bytes they are read from. -/

def readRaws : List (UInt8 × Bytes) → Except Error Post
  | [] => pure {}
  | (kind, body) :: raws => do
    let part ← readPart kind body
    let rest ← readRaws raws
    pure (rest.add part)

theorem length_writeRaw (kind : UInt8) (body : Bytes) :
    (writeRaw kind body).length = 5 + body.length := by
  rw [writeRaw, List.length_append, List.length_append, beBytes_length, List.length_singleton,
    ← Nat.add_assoc]

theorem readParts_stands {o' : Nat} (hlen : ∀ raw ∈ raws, raw.2.length < 2 ^ 32)
    (hs : Stands b o (raws.flatMap fun raw => writeRaw raw.1 raw.2)) :
    readParts raws.length b o = .ok (q, o') ↔ readRaws raws = .ok q ∧
      o' = o + (raws.flatMap fun raw => writeRaw raw.1 raw.2).length := by
  induction raws generalizing o q o' with
  | nil =>
    simp only [List.length_nil, readParts, readRaws, pure_eq_ok, Prod.mk.injEq, List.flatMap_nil]
    simp [eq_comm]
  | cons raw raws ih =>
    obtain ⟨hhead, hrest⟩ := List.forall_mem_cons.mp hlen
    rw [List.flatMap_cons, stands_append, length_writeRaw] at hs
    obtain ⟨hraw, htail⟩ := hs
    rw [writeRaw, stands_byte_append, stands_len32_append hhead, stands_iff_slice] at hraw
    simp only [Nat.add_assoc, Nat.reduceAdd] at hraw
    obtain ⟨hkind, hn, hroom, hbody⟩ := hraw
    simp only [List.length_cons, readParts, readRaws, bind_eq_ok, malformedIf_eq_ok, Nat.not_lt,
      hkind, hn, hbody, pure_eq_ok, Prod.exists, Prod.mk.injEq, Nat.add_assoc, List.flatMap_cons,
      List.length_append, length_writeRaw]
    constructor
    · rintro ⟨_, -, _, -, part, hpart, rest, _, hread, rfl, rfl⟩
      obtain ⟨hraws, rfl⟩ := (ih hrest htail).mp hread
      exact ⟨⟨part, hpart, rest, hraws, rfl⟩, by omega⟩
    · rintro ⟨⟨part, hpart, rest, hraws, rfl⟩, rfl⟩
      have hread := (ih hrest htail).mpr ⟨hraws, rfl⟩
      exact ⟨(), by omega, (), hroom, part, hpart, rest, _, hread, rfl, by omega⟩

theorem length_writeRaws (raws : List (UInt8 × Bytes)) : (writeRaws raws).length =
    1 + (raws.flatMap fun raw => writeRaw raw.1 raw.2).length := by
  rw [writeRaws, List.length_append, List.length_singleton]

theorem readPost_stands {o' : Nat} (hcount : raws.length ≤ maxParts)
    (hlen : ∀ raw ∈ raws, raw.2.length < 2 ^ 32) (hs : Stands b o (writeRaws raws)) :
    readPost b o = .ok (q, o') ↔
      readRaws raws = .ok q ∧ q.validate = .ok () ∧ o' = o + (writeRaws raws).length := by
  have hsmall : raws.length < 256 := Nat.lt_of_le_of_lt hcount (by decide)
  rw [writeRaws, stands_len8_append hsmall] at hs
  obtain ⟨hn, hparts⟩ := hs
  have hroom := hparts.1
  simp only [readPost, bind_eq_ok, malformedIf_eq_ok, Nat.not_le, Nat.not_lt, gt_iff_lt, hn,
    pure_eq_ok, Prod.exists, Prod.mk.injEq, length_writeRaws]
  constructor
  · rintro ⟨_, -, _, -, post, last, hread, _, hvalid, rfl, rfl⟩
    obtain ⟨hraws, rfl⟩ := (readParts_stands hlen hparts).mp hread
    exact ⟨hraws, hvalid, Nat.add_assoc _ _ _⟩
  · rintro ⟨hraws, hvalid, rfl⟩
    have hread := (readParts_stands hlen hparts).mpr ⟨hraws, rfl⟩
    exact ⟨(), by omega, (), hcount, q, _, hread, (), hvalid, rfl, Nat.add_assoc _ _ _⟩

theorem readRaws_parts {parts : List Part} (h : ∀ part ∈ parts, part.Fits) :
    readRaws (parts.map fun part => (part.kind, part.body)) = .ok { parts } := by
  induction parts with
  | nil => rfl
  | cons part parts ih =>
    obtain ⟨hhead, hrest⟩ := List.forall_mem_cons.mp h
    simp only [List.map_cons, readRaws, bind_eq_ok, pure_eq_ok]
    exact ⟨_, readPart_body hhead, _, ih hrest, rfl⟩

theorem readRaws_unknown {kind : UInt8} (h : kind ∉ knownKinds) (body : Bytes)
    {front back : List (UInt8 × Bytes)} (hread : readRaws (front ++ back) = .ok q) :
    readRaws (front ++ (kind, body) :: back) = .ok { q with unknown := q.unknown + 1 } := by
  induction front generalizing q with
  | nil =>
    simp only [List.nil_append, readRaws, bind_eq_ok, pure_eq_ok]
    exact ⟨none, readPart_unknown h body, q, hread, rfl⟩
  | cons raw front ih =>
    simp only [List.cons_append, readRaws, bind_eq_ok, pure_eq_ok] at hread ⊢
    obtain ⟨part, hpart, rest, hrest, rfl⟩ := hread
    refine ⟨part, hpart, _, ih hrest, ?_⟩
    cases part <;> rfl

theorem Attachment.length_le {a : Attachment} (h : a.Fits) : a.write.length ≤ 9426 := by
  obtain ⟨-, hmime, hinfo, hpreview⟩ := h
  rw [Attachment.maxMime] at hmime
  rw [Attachment.maxMeta] at hinfo
  rw [Attachment.maxPreview] at hpreview
  rw [Attachment.length_write]
  omega

theorem writeFile_le {file : Option Attachment} (h : ∀ a ∈ file, a.Fits) :
    (writeFile file).length ≤ 9427 := by
  cases file with
  | none => simp [writeFile]
  | some a =>
    have hlen := Attachment.length_le (h a rfl)
    rw [writeFile, List.length_append, List.length_singleton]
    omega

theorem Part.length_body (h : part.Fits) : part.body.length < 2 ^ 32 := by
  cases part with
  | text t => exact Nat.lt_of_le_of_lt h (by decide)
  | attachment a => exact Nat.lt_of_le_of_lt (Attachment.length_le h) (by decide)
  | link l =>
    obtain ⟨hurl, htitle, hdescription, himage⟩ := h
    have hfile := writeFile_le himage
    rw [maxUrl] at hurl
    rw [maxTitle] at htitle
    rw [maxDesc] at hdescription
    simp only [Part.body, Link.write, writeStr, List.length_append, beBytes_length]
    omega
  | regard emoji => exact Nat.lt_of_le_of_lt h.2 (by decide)
  | reply _ | mention _ | via _ | said _ | quote _ _ =>
    simp [Part.body, beBytes_length]

/-- The bytes a body that carries a post opens with, and the body: a new post, or an edit of
an entry. -/
def opening : Option UInt64 → Bytes
  | none => [typePost]
  | some target => [typeEdit] ++ beBytes 8 target.toNat

def carrying : Option UInt64 → Post → Body
  | none, p => .post p
  | some target, p => .edit target p

theorem encode_carrying (target : Option UInt64) (p : Post) : (carrying target p).encode =
    opening target ++ writeRaws (p.parts.map fun part => (part.kind, part.body)) := by
  have hpost : p.write = writeRaws (p.parts.map fun part => (part.kind, part.body)) := by
    rw [Post.write, writeRaws, List.length_map, List.flatMap_map]
    rfl
  cases target with
  | none => rw [← hpost]; rfl
  | some target => rw [← hpost, opening, List.append_assoc]; rfl

theorem map_some_eq_ok {ε α : Type} {x : Except ε α} {a : α} :
    some <$> x = .ok (some a) ↔ x = .ok a := by
  cases x with
  | error e => exact iff_of_false nofun nofun
  | ok y =>
    have hmap : some <$> (.ok y : Except ε α) = .ok (some y) := rfl
    rw [hmap, Except.ok.injEq, Except.ok.injEq, Option.some.injEq]

theorem decode_carrying {target : Option UInt64} {p : Post} (hcount : raws.length ≤ maxParts)
    (hlen : ∀ raw ∈ raws, raw.2.length < 2 ^ 32) :
    Body.decode (opening target ++ writeRaws raws) = .ok (some (carrying target p)) ↔
      readRaws raws = .ok p ∧ p.validate = .ok () := by
  have hs : Stands (opening target ++ writeRaws raws) 0 _ := stands_self
  rw [stands_append, Nat.zero_add] at hs
  have hend : (opening target ++ writeRaws raws).length =
      (opening target).length + (writeRaws raws).length := List.length_append
  cases target with
  | none =>
    have hdecode : Body.decode (opening none ++ writeRaws raws) =
      some <$> Body.decodePost (opening none ++ writeRaws raws) := rfl
    have hlen₁ : (opening none).length = 1 := rfl
    rw [hlen₁] at hs hend
    rw [hdecode, map_some_eq_ok]
    simp only [Body.decodePost, bind_eq_ok, Body.done, malformedIf_eq_ok, pure_eq_ok, Prod.exists,
      readPost_stands hcount hlen hs.2, hend, carrying, Body.post.injEq]
    constructor
    · rintro ⟨_, _, ⟨hraws, hvalid, -⟩, _, -, rfl⟩
      exact ⟨hraws, hvalid⟩
    · rintro ⟨hraws, hvalid⟩
      exact ⟨p, _, ⟨hraws, hvalid, rfl⟩, (), by simp, rfl⟩
  | some target =>
    have hdecode : Body.decode (opening (some target) ++ writeRaws raws) =
      some <$> Body.decodeEdit (opening (some target) ++ writeRaws raws) := rfl
    have hlen₁ : (opening (some target)).length = 9 := by
      rw [opening, List.length_append, beBytes_length]
      rfl
    rw [hlen₁] at hs hend
    obtain ⟨hopening, hpost⟩ := hs
    rw [opening, stands_byte_append, stands_u64] at hopening
    have htarget : u64At (opening (some target) ++ writeRaws raws) 1 = target := hopening.2.2
    rw [hdecode, map_some_eq_ok]
    simp only [Body.decodeEdit, bind_eq_ok, Body.done, malformedIf_eq_ok, pure_eq_ok, Prod.exists,
      readPost_stands hcount hlen hpost, hend, carrying, Body.edit.injEq, htarget, Nat.not_lt]
    constructor
    · rintro ⟨_, -, _, _, ⟨hraws, hvalid, -⟩, _, -, -, rfl⟩
      exact ⟨hraws, hvalid⟩
    · rintro ⟨hraws, hvalid⟩
      exact ⟨(), by omega, p, _, ⟨hraws, hvalid, rfl⟩, (), by simp, trivial, rfl⟩

theorem decode_encode_carrying (target : Option UInt64) {p : Post} (h : p.Fits) :
    Body.decode (carrying target p).encode = .ok (some (carrying target p)) := by
  rw [encode_carrying]
  refine (decode_carrying (by simpa using h.count) fun raw hraw => ?_).mpr ⟨?_, h.valid⟩
  · obtain ⟨part, hpart, rfl⟩ := List.mem_map.mp hraw
    exact Part.length_body (h.parts part hpart)
  · rw [readRaws_parts h.parts, ← h.known]

theorem decode_encode_reaction (target : UInt64) (add : Bool) {emoji : String}
    (h : (textBytes emoji).length ≤ maxEmoji) :
    Body.decode (Body.reaction target add emoji).encode =
      .ok (some (.reaction target add emoji)) := by
  have hlen : (textBytes emoji).length < 256 := Nat.lt_of_le_of_lt h (by decide)
  have hdecode : Body.decode (Body.reaction target add emoji).encode =
    some <$> Body.decodeReaction (Body.reaction target add emoji).encode := rfl
  rw [hdecode, map_some_eq_ok]
  generalize hb : (Body.reaction target add emoji).encode = b
  have hs : Stands b 0 (Body.reaction target add emoji).encode := hb ▸ stands_self
  have hend : b.length = 11 + (textBytes emoji).length := by
    rw [← hb]
    simp only [Body.encode, List.length_append, List.length_singleton, beBytes_length]
    omega
  rw [Body.encode, stands_byte_append, stands_u64_append, stands_byte_append,
    stands_len8_append hlen] at hs
  obtain ⟨-, htarget, hop, hn, htext⟩ := hs
  have hrest : b.drop 11 = textBytes emoji := (stands_rest.mp ⟨htext, hend⟩).2
  have hadd : Body.reactionOp (if add then reactAdd else reactRemove) = .ok add := by
    cases add <;> rfl
  simp only [Body.decodeReaction, bind_eq_ok, malformedIf_eq_ok, utf8_eq_ok, pure_eq_ok, htarget,
    hop, hn, hrest, hend]
  exact ⟨(), by omega, add, hadd, (), by omega, (), by simp, emoji, rfl, rfl⟩

theorem decode_encode_metadata {name topic : String} {avatar : Option Attachment}
    (hname : (textBytes name).length ≤ maxName) (htopic : (textBytes topic).length ≤ maxTopic)
    (havatar : ∀ a ∈ avatar, a.Fits) :
    Body.decode (Body.metadata name topic avatar).encode =
      .ok (some (.metadata name topic avatar)) := by
  have hlen : (textBytes name).length < 256 := Nat.lt_of_le_of_lt hname (by decide)
  have hlen' : (textBytes topic).length < 2 ^ 16 := Nat.lt_of_le_of_lt htopic (by decide)
  have hdecode : Body.decode (Body.metadata name topic avatar).encode =
    some <$> Body.decodeMetadata (Body.metadata name topic avatar).encode := rfl
  rw [hdecode, map_some_eq_ok]
  generalize hb : (Body.metadata name topic avatar).encode = b
  have hs : Stands b 0 (Body.metadata name topic avatar).encode := hb ▸ stands_self
  have hpos := writeFile_pos avatar
  have hend : b.length = 2 + (textBytes name).length + 2 + (textBytes topic).length +
      (writeFile avatar).length := by
    rw [← hb]
    simp only [Body.encode, writeStr, List.length_append, List.length_singleton, beBytes_length]
    omega
  rw [Body.encode, writeStr, List.append_assoc, stands_byte_append, stands_len8_append hlen,
    stands_part_append, stands_len16_append hlen', stands_part_append] at hs
  obtain ⟨-, hn, hname', hn', htopic', hfile⟩ := hs
  have hread := readFile_stands havatar hfile
  simp only [Nat.zero_add, Nat.reduceAdd] at hn hname' hn' htopic' hread
  simp only [Body.decodeMetadata, bind_eq_ok, Body.done, malformedIf_eq_ok, utf8_eq_ok, pure_eq_ok,
    Prod.exists, hn, hname', hn', htopic', hend, Nat.not_lt, gt_iff_lt]
  refine ⟨(), by omega, (), hname, (), by omega, name, rfl, (), htopic, (), by omega, topic, rfl,
    avatar, _, hread, (), ?_, rfl⟩
  omega

theorem decode_encode_redact (target : UInt64) :
    Body.decode (Body.redact target).encode = .ok (some (.redact target)) := by
  have hdecode : Body.decode (Body.redact target).encode =
    some <$> Body.decodeRedact (Body.redact target).encode := rfl
  have hs : Stands (Body.redact target).encode 0 (Body.redact target).encode := stands_self
  rw [hdecode, map_some_eq_ok]
  rw [Body.encode, stands_byte_append, stands_u64] at hs
  simp only [Body.encode, Body.decodeRedact, bind_eq_ok, pure_eq_ok]
  exact ⟨(), by simp [beBytes_length], congrArg Body.redact hs.2.2⟩

theorem decode_encode_call (media : UInt8) (ringSecs : UInt16) (secret : Bytes32) :
    Body.decode (Body.call media ringSecs secret).encode =
      .ok (some (.call media ringSecs secret)) := by
  have hdecode : Body.decode (Body.call media ringSecs secret).encode =
    some <$> Body.decodeCall (Body.call media ringSecs secret).encode := rfl
  rw [hdecode, map_some_eq_ok]
  generalize hb : (Body.call media ringSecs secret).encode = b
  have hs : Stands b 0 (Body.call media ringSecs secret).encode := hb ▸ stands_self
  have hend : b.length = 36 := by
    rw [← hb]
    simp [Body.encode, beBytes_length]
  rw [Body.encode, stands_byte_append, stands_byte_append, stands_u16_append, stands_key] at hs
  obtain ⟨-, hmedia, hring, -, hsecret⟩ := hs
  simp only [Body.decodeCall, bind_eq_ok, malformedIf_eq_ok, pure_eq_ok, hmedia, hring, hsecret,
    hend]
  exact ⟨(), by simp, trivial⟩

theorem decode_encode_callEnd (target : UInt64) (outcome : UInt8) (duration : UInt32) :
    Body.decode (Body.callEnd target outcome duration).encode =
      .ok (some (.callEnd target outcome duration)) := by
  have hdecode : Body.decode (Body.callEnd target outcome duration).encode =
    some <$> Body.decodeCallEnd (Body.callEnd target outcome duration).encode := rfl
  rw [hdecode, map_some_eq_ok]
  generalize hb : (Body.callEnd target outcome duration).encode = b
  have hs : Stands b 0 (Body.callEnd target outcome duration).encode := hb ▸ stands_self
  have hend : b.length = 14 := by
    rw [← hb]
    simp [Body.encode, beBytes_length]
  rw [Body.encode, stands_byte_append, stands_u64_append, stands_byte_append, stands_u32] at hs
  obtain ⟨-, htarget, houtcome, -, hduration⟩ := hs
  simp only [Body.decodeCallEnd, bind_eq_ok, malformedIf_eq_ok, pure_eq_ok, htarget, houtcome,
    hduration, hend]
  exact ⟨(), by simp, trivial⟩

/-- Every body that fits is read back as it was written, and a post or an edit that is read
reads the same with a part of a kind that is not known put in anywhere, and that part
counted. -/
theorem bodies_round_trip :
    (∀ body : Body, body.Fits → Body.decode body.encode = .ok (some body)) ∧
    (∀ target p, (carrying target p).encode =
      opening target ++ writeRaws (p.parts.map fun part => (part.kind, part.body))) ∧
    ∀ target front back kind body p, (∀ raw ∈ front ++ back, raw.2.length < 2 ^ 32) →
      body.length < 2 ^ 32 → (front ++ back).length < maxParts → kind ∉ knownKinds →
      Body.decode (opening target ++ writeRaws (front ++ back)) =
        .ok (some (carrying target p)) →
      Body.decode (opening target ++ writeRaws (front ++ (kind, body) :: back)) =
        .ok (some (carrying target { p with unknown := p.unknown + 1 })) := by
  refine ⟨fun body h => ?_, encode_carrying, ?_⟩
  · cases body with
    | post p => exact decode_encode_carrying none h
    | reaction target add emoji => exact decode_encode_reaction target add h
    | edit target p => exact decode_encode_carrying (some target) h
    | redact target => exact decode_encode_redact target
    | metadata name topic avatar => exact decode_encode_metadata h.1 h.2.1 h.2.2
    | call media ringSecs secret => exact decode_encode_call media ringSecs secret
    | callEnd target outcome duration => exact decode_encode_callEnd target outcome duration
  · intro target front back kind body p hlen hbody hcount hkind hread
    obtain ⟨hraws, hvalid⟩ := (decode_carrying (Nat.le_of_lt hcount) hlen).mp hread
    have hcount' : (front ++ (kind, body) :: back).length ≤ maxParts := by
      rw [List.length_append] at hcount ⊢
      rw [List.length_cons]
      omega
    have hlen' : ∀ raw ∈ front ++ (kind, body) :: back, raw.2.length < 2 ^ 32 := by
      intro raw hraw
      rw [List.mem_append, List.mem_cons] at hraw
      cases hraw with
      | inl hfront => exact hlen raw (List.mem_append_left _ hfront)
      | inr hrest =>
        cases hrest with
        | inl heq => rw [heq]; exact hbody
        | inr hback => exact hlen raw (List.mem_append_right _ hback)
    exact (decode_carrying hcount' hlen').mpr ⟨readRaws_unknown hkind body hraws, hvalid⟩

end

def answered : Post where
  parts := [.text "é", .reply 7, .quote 3 4, .regard "+"]

theorem bodies_round_trip_answered :
    let raws (parts : List Part) : List (UInt8 × Bytes) :=
      parts.map fun part => (part.kind, part.body)
    Body.decode (Body.post answered).encode = .ok (some (.post answered)) ∧
    Body.decode (opening none ++ writeRaws
        (raws (answered.parts.take 2) ++ (0x7f, [1, 2]) :: raws (answered.parts.drop 2))) =
      .ok (some (.post { answered with unknown := 1 })) := by
  have hfits : answered.Fits :=
    { count := by decide
      parts := fun part hpart => by
        simp only [answered, List.mem_cons, List.not_mem_nil, or_false] at hpart
        obtain rfl | rfl | rfl | rfl := hpart
        · exact show (textBytes "é").length ≤ maxText by decide +kernel
        · trivial
        · trivial
        · exact ⟨by decide +kernel, by decide +kernel⟩
      known := rfl
      valid := rfl }
  have hread := bodies_round_trip.1 (.post answered) hfits
  exact ⟨hread, bodies_round_trip.2.2 none _ _ 0x7f [1, 2] answered (by decide +kernel) (by decide)
    (by decide) (by decide) (bodies_round_trip.2.1 none answered ▸ hread)⟩

end Sqex
