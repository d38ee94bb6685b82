import Sqex.Chat.Sealing

/-! A file comes back as it was sent, where its chunks are of a size that may be sent, the
exchange held none of them cut otherwise, and the reference says a length that can be held. -/
namespace Sqex.Sealing
open Exchange Exchange.Files Chunks Offsets Runs
variable {C : Crypto}
variable {uploader : PubKey} {id now : UInt64}

section Wire
variable {b : Bytes}

theorem length_encodeBegin (type : UInt8) (req : Begin) : (encodeBegin type req).length = 49 := by
  simp [encodeBegin, beBytes_length]

/-- A reservation is read back exactly if it is within what a blob may be. -/
theorem decodeBegin_encode (type : UInt8) (what : String) (req : Begin) :
    decodeBegin type what (encodeBegin type req) = .ok req ↔
      req.size.toNat ≤ maxBlob ∧ req.chunks ≠ 0 ∧ req.chunks.toNat ≤ maxChunks := by
  have hstands : Stands (encodeBegin type req) 0 (encodeBegin type req) := stands_self
  rw [encodeBegin, stands_byte_append, stands_key_append, stands_u64_append, stands_u32_append,
    stands_u32, ← encodeBegin] at hstands
  obtain ⟨htype, hchannel, hsize, hchunks, _, hexpires⟩ := hstands
  simp only [decodeBegin, bind_eq_ok, malformedIf_eq_ok, pure_eq_ok, length_encodeBegin, htype,
    hchannel, hsize, hchunks, hexpires, ne_eq, not_true_eq_false, not_false_eq_true, exists_const,
    true_and, gt_iff_lt, Nat.not_lt, not_or, and_true]

/-- A chunk is read back, by the exchange or from it, exactly if it is short enough. -/
theorem PutChunk.decode_encode (p : PutChunk) :
    decode p.encode = .ok p ↔ p.sealed.length ≤ chunkBytes + 16 := by
  have hstands : Stands p.encode 0 p.encode := stands_self
  have hlength : p.encode.length = 13 + p.sealed.length := by
    simp only [encode, List.length_append, List.length_singleton, beBytes_length]
    omega
  rw [encode, stands_byte_append, stands_u64_append, stands_u32_append, ← encode] at hstands
  obtain ⟨htype, hupload, hindex, hrest⟩ := hstands
  have hbytes : p.encode.drop 13 = p.sealed := (stands_rest.mp ⟨hrest, hlength⟩).2
  have hshort : ¬ p.encode.length < 13 := by omega
  simp only [decode, bind_eq_ok, malformedIf_eq_ok, pure_eq_ok, hshort, htype, hupload, hindex,
    hbytes, ne_eq, not_true_eq_false, not_false_eq_true, exists_const, true_and, gt_iff_lt,
    Nat.not_lt, and_true]

theorem Chunk.decode_encode {c : Chunk} (hlen : c.sealed.length ≤ chunkBytes + 16) :
    decode c.encode = .ok c := by
  have hstands : Stands c.encode 0 c.encode := stands_self
  have hlength : c.encode.length = 9 + c.sealed.length := by
    simp only [encode, List.length_append, List.length_singleton, beBytes_length]
    omega
  have hfits : c.sealed.length < 2 ^ 32 := Nat.lt_of_le_of_lt hlen (by decide)
  rw [encode, stands_byte_append, stands_u32_append, stands_len32_append hfits, ← encode] at hstands
  obtain ⟨hfound, hindex, hlen', hrest⟩ := hstands
  have hbytes : c.encode.drop 9 = c.sealed := (stands_rest.mp ⟨hrest, hlength⟩).2
  have hsaid : decide (byteAt c.encode 0 ≠ 0) = c.found := by
    rw [hfound]
    cases c.found <;> decide
  simp only [decode, bind_eq_ok, malformedIf_eq_ok, pure_eq_ok, hlen', hlength, hindex, hbytes,
    hsaid, ne_eq, not_true_eq_false, not_false_eq_true, exists_const, true_and, gt_iff_lt,
    Nat.not_lt, and_true]
  exact ⟨by omega, hlen⟩

end Wire

section Sealed
variable {key : Bytes32} {i : Nat} {cs : List Bytes}

theorem length_sealFrom : (sealFrom C key i cs).length = cs.length := by
  induction cs generalizing i with
  | nil => rfl
  | cons c cs ih => simp [sealFrom, ih]

theorem forall_length_sealFrom
    (hgrows : ∀ key index plain,
      (C.encrypt key (chunkNonce index) plain).length = plain.length + 16) {m : Nat} :
    (∀ c ∈ sealFrom C key i cs, c.length ≤ m + 16) ↔ ∀ c ∈ cs, c.length ≤ m := by
  induction cs generalizing i with
  | nil => simp [sealFrom]
  | cons c cs ih => simp [sealFrom, ih, hgrows]

theorem openFrom_sealFrom
    (hopens : ∀ key index plain, C.decrypt key (chunkNonce index)
      (C.encrypt key (chunkNonce index) plain) = some plain) :
    openFrom C key i (sealFrom C key i cs) = .ok cs.flatten := by
  induction cs generalizing i with
  | nil => rfl
  | cons c cs ih => simp [sealFrom, openFrom, hopens, ih, bind, Except.bind, pure, Except.pure]

end Sealed

/-- A size of chunk under which a file may be sent: one that cuts it, into no more chunks than
a blob may have, and none longer than a chunk may be. -/
def Fits (plaintext : Bytes) (chunk : Nat) : Prop :=
  0 < chunk ∧ plaintext.length ≤ maxChunks * chunk ∧
    (chunk ≤ chunkBytes ∨ plaintext.length ≤ chunkBytes)

instance (plaintext : Bytes) (chunk : Nat) : Decidable (Fits plaintext chunk) :=
  inferInstanceAs (Decidable (_ ∧ _ ∧ _))

structure Prepared.Accepted (p : Prepared) : Prop where
  begins : ∀ channel expiresAfter,
    let req : Begin := ⟨channel, p.attachment.size, p.attachment.chunks, expiresAfter⟩
    decodeChannelBegin (encodeBegin typeBegin req) = .ok req ∧
      decodeFeedBegin (encodeBegin typeBeginFeed req) = .ok req
  puts : ∀ upload index, ∀ bytes ∈ p.sealed,
    PutChunk.decode (PutChunk.encode ⟨upload, index, bytes⟩) = .ok ⟨upload, index, bytes⟩
  refers : Sqex.Attachment.read p.attachment.write 0 =
    .ok (p.attachment, p.attachment.write.length)

/-- The media type and the shape of any name are within what a reference may carry. -/
theorem kindOf_fits (name : String) :
    (textBytes (String.ofList ((kindOf name).2.toList.take Sqex.Attachment.maxMime))).length ≤
        Sqex.Attachment.maxMime ∧
      (shapeOf (kindOf name).1 name).length ≤ Sqex.Attachment.maxMeta := by
  constructor
  · unfold kindOf
    split <;> decide +kernel
  · unfold shapeOf
    split
    · simp only [List.length_cons, List.length_take, Sqex.Attachment.maxMeta]
      omega
    · simp

section Preparing
variable {key : Bytes32} {name : String} {plaintext : Bytes} {chunk : Nat} {p : Prepared}

def preparedOf (C : Crypto) (key : Bytes32) (name : String) (plaintext : Bytes) (chunk : Nat) :
    Prepared where
  attachment := {
    kind := (kindOf name).1
    blob := blobId C (sealFrom C key 0 (chunks chunk plaintext)), key
    size := UInt64.ofNat plaintext.length
    chunks := UInt32.ofNat (sealFrom C key 0 (chunks chunk plaintext)).length
    mime := String.ofList ((kindOf name).2.toList.take Sqex.Attachment.maxMime)
    «meta» := shapeOf (kindOf name).1 name
    preview := [] }
  sealed := sealFrom C key 0 (chunks chunk plaintext)

theorem fromBytes_eq (hne : plaintext ≠ []) (hmax : plaintext.length ≤ maxBlob) :
    fromBytes C key name plaintext chunk =
      if chunk = 0 then .error .chunkSize
      else .ok (.ok (preparedOf C key name plaintext chunk)) := by
  unfold fromBytes
  rw [if_neg (by omega), if_neg hne]
  rfl

theorem fromBytes_ok (hp : fromBytes C key name plaintext chunk = .ok (.ok p)) :
    plaintext ≠ [] ∧ plaintext.length ≤ maxBlob ∧ 0 < chunk ∧
      p = preparedOf C key name plaintext chunk := by
  have hmax : plaintext.length ≤ maxBlob := by
    by_contra hlong
    simp [fromBytes, Nat.lt_of_not_le hlong] at hp
  have hne : plaintext ≠ [] := by
    rintro rfl
    simp [fromBytes] at hp
  rw [fromBytes_eq hne hmax] at hp
  split at hp
  · cases hp
  · rename_i hchunk
    exact ⟨hne, hmax, by omega, (Except.ok.inj (Except.ok.inj hp)).symm⟩

theorem size_preparedOf (hmax : plaintext.length ≤ maxBlob) :
    (preparedOf C key name plaintext chunk).attachment.size.toNat = plaintext.length := by
  have hbound : maxBlob < 2 ^ 64 := by decide
  simp only [preparedOf, UInt64.toNat_ofNat']
  omega

theorem chunks_preparedOf (hmax : plaintext.length ≤ maxBlob) (hchunk : 0 < chunk) :
    (preparedOf C key name plaintext chunk).attachment.chunks.toNat =
        (preparedOf C key name plaintext chunk).sealed.length ∧
      (preparedOf C key name plaintext chunk).sealed.length =
        (chunks chunk plaintext).length := by
  have hbound : maxBlob < 2 ^ 32 := by decide
  have hle : (chunks chunk plaintext).length ≤ plaintext.length :=
    (length_chunks_le hchunk).mpr (Nat.le_mul_of_pos_right _ hchunk)
  have hlength : (preparedOf C key name plaintext chunk).sealed.length =
      (chunks chunk plaintext).length := length_sealFrom
  have hcount : (preparedOf C key name plaintext chunk).attachment.chunks =
      UInt32.ofNat (preparedOf C key name plaintext chunk).sealed.length := rfl
  refine ⟨?_, hlength⟩
  rw [hcount, UInt32.toNat_ofNat', Nat.mod_eq_of_lt (by omega)]

theorem accepted_iff
    (hgrows : ∀ key index plain,
      (C.encrypt key (chunkNonce index) plain).length = plain.length + 16)
    (hne : plaintext ≠ []) (hmax : plaintext.length ≤ maxBlob) (hchunk : 0 < chunk) :
    (preparedOf C key name plaintext chunk).Accepted ↔ Fits plaintext chunk := by
  have hsize := @size_preparedOf C key name plaintext chunk hmax
  obtain ⟨hcount, hlength⟩ := @chunks_preparedOf C key name plaintext chunk hmax hchunk
  have hpos := length_chunks_pos hchunk hne
  have hsome : (preparedOf C key name plaintext chunk).attachment.chunks ≠ 0 := by
    intro hzero
    rw [hzero] at hcount
    simp at hcount
    omega
  have hmany := @length_chunks_le _ chunk plaintext hchunk maxChunks
  have hlong : (∀ bytes ∈ (preparedOf C key name plaintext chunk).sealed,
      bytes.length ≤ chunkBytes + 16) ↔ chunk ≤ chunkBytes ∨ plaintext.length ≤ chunkBytes := by
    rw [← forall_length_le hchunk hne]
    exact forall_length_sealFrom hgrows
  constructor
  · intro haccepted
    have hbegins := (haccepted.begins 0 0).1
    rw [decodeChannelBegin, decodeBegin_encode] at hbegins
    dsimp only at hbegins
    refine ⟨hchunk, hmany.mp (by omega), hlong.mp fun bytes hbytes => ?_⟩
    exact (PutChunk.decode_encode _).mp (haccepted.puts 0 0 bytes hbytes)
  · rintro ⟨-, hfew, hshort⟩
    have hcap : (preparedOf C key name plaintext chunk).attachment.chunks.toNat ≤ maxChunks := by
      have hle := hmany.mpr hfew
      omega
    refine ⟨fun channel expiresAfter => ⟨?_, ?_⟩, fun upload index bytes hbytes => ?_, ?_⟩
    · exact (decodeBegin_encode _ _ _).mpr ⟨hsize ▸ hmax, hsome, hcap⟩
    · exact (decodeBegin_encode _ _ _).mpr ⟨hsize ▸ hmax, hsome, hcap⟩
    · exact (PutChunk.decode_encode _).mpr (hlong.mpr hshort bytes hbytes)
    · have hfits : (preparedOf C key name plaintext chunk).attachment.Fits :=
        ⟨hcap, (kindOf_fits name).1, (kindOf_fits name).2, Nat.zero_le _⟩
      have hread := Sqex.Attachment.read_stands hfits stands_self
      rwa [Nat.zero_add] at hread

theorem openSealed_preparedOf {capacity : Nat} (hcapacity : maxBlob ≤ capacity)
    (hopens : ∀ key index plain, C.decrypt key (chunkNonce index)
      (C.encrypt key (chunkNonce index) plain) = some plain)
    (hmax : plaintext.length ≤ maxBlob) (hchunk : 0 < chunk) :
    openSealed C capacity (preparedOf C key name plaintext chunk).attachment
      (preparedOf C key name plaintext chunk).sealed = .ok (.ok plaintext) := by
  have hsize := @size_preparedOf C key name plaintext chunk hmax
  have hopened : openFrom C (preparedOf C key name plaintext chunk).attachment.key 0
      (preparedOf C key name plaintext chunk).sealed = .ok plaintext := by
    have hflat : (chunks chunk plaintext).flatten = plaintext := flatten_chunks hchunk
    exact (openFrom_sealFrom hopens).trans (congrArg Except.ok hflat)
  rw [openSealed, if_neg (by simp [preparedOf]), if_neg (by omega), hopened]
  simp [bind, Except.bind, hsize]

end Preparing

section Stored
variable {f f' : Files} {blob : Bytes32} {i : Nat} {b : Bytes}

theorem find?_storeAll_new {t : List BlobChunk} {pieces : List (Bytes × Nat)}
    (hpieces : (pieces.map Prod.snd).Nodup) (hmem : (b, i) ∈ pieces)
    (hfree : t.find? (fun c => c.blob == blob && c.idx == i) = none) :
    (pieces.foldl (storeChunk blob) t).find? (fun c => c.blob == blob && c.idx == i) =
      some ⟨blob, i, b⟩ := by
  induction pieces generalizing t with
  | nil => cases hmem
  | cons piece pieces ih =>
    obtain ⟨hfirst, hrest⟩ := List.nodup_cons.mp hpieces
    have hnone : ∀ j, j = i → ¬ t.any (fun row => row.blob == blob && row.idx == j) = true := by
      rintro j rfl hany
      obtain ⟨row, hrow, hkey⟩ := List.any_eq_true.mp hany
      exact List.find?_eq_none.mp hfree row hrow hkey
    rw [List.foldl_cons]
    cases List.mem_cons.mp hmem with
    | inl hhere =>
      subst hhere
      refine find?_storeAll pieces ?_
      rw [storeChunk, Tables.insertOrIgnore, if_neg (hnone i rfl)]
      simp
    | inr hlater =>
      have hne : piece.2 ≠ i := by
        rintro rfl
        exact hfirst (List.mem_map.mpr ⟨_, hlater, rfl⟩)
      refine ih hrest hlater ?_
      unfold storeChunk Tables.insertOrIgnore
      split
      · exact hfree
      · rw [List.find?_cons_of_neg (by simp [hne])]
        exact hfree

def Serves (f : Files) (p : Prepared) : Prop :=
  ∀ i b, p.sealed[i]? = some b → f.chunkAt p.attachment.blob i = some b

/-- What the exchange holds of the blob already, it holds cut the same way. -/
def Uncut (f : Files) (p : Prepared) : Prop :=
  ∀ i < p.sealed.length,
    f.chunkAt p.attachment.blob i = none ∨ f.chunkAt p.attachment.blob i = p.sealed[i]?

instance (f : Files) (p : Prepared) : Decidable (Uncut f p) :=
  inferInstanceAs (Decidable (∀ i < p.sealed.length, _))

theorem serves_storeChunks {p : Prepared} (huncut : Uncut f p) (size : UInt64) :
    Serves (f.storeChunks p.attachment.blob size p.sealed) p := by
  intro i b hb
  have hi : i < p.sealed.length := (List.getElem?_eq_some_iff.mp hb).1
  cases huncut i hi with
  | inr hheld => exact more_storeChunks p.attachment.blob size p.sealed i b (hheld.trans hb)
  | inl hnone =>
    have hfree := Option.map_eq_none_iff.mp hnone
    have hmem : (b, i) ∈ p.sealed.zipIdx := List.mk_mem_zipIdx_iff_getElem?.mpr hb
    have hnodup : (p.sealed.zipIdx.map Prod.snd).Nodup := by
      rw [List.zipIdx_map_snd]
      exact List.nodup_range'
    exact congrArg (Option.map (·.bytes)) (find?_storeAll_new hnodup hmem hfree)

/-- The caller's upload holds what was prepared, chunk by chunk. -/
def Carries (f : Files) (uploader : PubKey) (id : UInt64) (p : Prepared) : Prop :=
  ∃ u, f.uploadOf uploader id = .ok u ∧ f.gathered u = some p.sealed

theorem serves_commit {p : Prepared} (hcarries : Carries f uploader id p) (huncut : Uncut f p)
    (hcommit : f.commitUpload C uploader id p.attachment.blob now = .ok (f', true)) :
    Serves f' p := by
  obtain ⟨u, hu, hgathered⟩ := hcarries
  have hserves := serves_storeChunks huncut u.size
  simp only [commitUpload, hu, bind_eq_ok, Except.ok.injEq, exists_eq_left', hgathered] at hcommit
  split at hcommit
  · simp at hcommit
  · have hchunks : f'.blobChunk =
        (f.storeChunks p.attachment.blob u.size p.sealed).blobChunk := by
      split at hcommit
      · obtain ⟨f₁, hattached, hdone⟩ := bind_eq_ok.mp hcommit
        obtain ⟨rfl, -⟩ := Prod.mk.inj (pure_eq_ok.mp hdone)
        rw [← pure_eq_ok.mp hattached]
        rfl
      · obtain ⟨f₁, hattached, hdone⟩ := bind_eq_ok.mp hcommit
        obtain ⟨rfl, -⟩ := Prod.mk.inj (pure_eq_ok.mp hdone)
        rw [attach_ok hattached]
        rfl
    exact fun i b hb => more_of_eq hchunks i b (hserves i b hb)

theorem fetchSealed_eq {p : Prepared} {who : PubKey} (hserves : Serves f p)
    (hcount : p.attachment.chunks.toNat = p.sealed.length)
    (hshort : ∀ bytes ∈ p.sealed, bytes.length ≤ chunkBytes + 16)
    (hfetch : f.mayFetch who p.attachment.blob now = true) :
    fetchSealed f who p.attachment now = .ok p.sealed := by
  rw [fetchSealed, mapM_range_eq_ok]
  refine ⟨hcount.symm, fun i hi => ?_⟩
  have hindex : (UInt32.ofNat i).toNat = i := by
    have hbound := p.attachment.chunks.toNat_lt
    rw [UInt32.toNat_ofNat', Nat.mod_eq_of_lt (by omega)]
  have hheld := hserves i p.sealed[i] (List.getElem?_eq_getElem hi)
  have hanswer : getChunk f who p.attachment.blob (UInt32.ofNat i) now =
      ⟨true, UInt32.ofNat i, p.sealed[i]⟩ := by
    rw [getChunk, if_pos hfetch, hindex, hheld]
  have hread := @Chunk.decode_encode ⟨true, UInt32.ofNat i, p.sealed[i]⟩
    (hshort _ (List.getElem_mem hi))
  rw [hanswer, received, hread]
  rfl

theorem received_encode {bytes : Bytes} {index : UInt32}
    (hread : received i (Chunk.encode ⟨true, index, bytes⟩) = .ok b) : b = bytes := by
  unfold received at hread
  split at hread
  · cases hread
  · rename_i c hdecode
    have hbytes : c.sealed = bytes := by
      simp only [Chunk.decode, bind_eq_ok, pure_eq_ok] at hdecode
      obtain ⟨-, -, -, -, -, -, rfl⟩ := hdecode
      simp [Chunk.encode, beBytes]
    split at hread
    · rw [← Except.ok.inj hread, hbytes]
    · cases hread

theorem cut_otherwise {p : Prepared} {who : PubKey} {now' : UInt64} (hcut : ¬ Uncut f p)
    (hcommit : f.commitUpload C uploader id p.attachment.blob now = .ok (f', true)) :
    fetchSealed f' who p.attachment now' ≠ .ok p.sealed := by
  intro hserved
  obtain ⟨hcount, hall⟩ := mapM_range_eq_ok.mp hserved
  refine hcut fun i hi => ?_
  cases hheld : f.chunkAt p.attachment.blob i with
  | none => exact .inl rfl
  | some b =>
    have hindex : (UInt32.ofNat i).toNat = i := by
      have hbound := p.attachment.chunks.toNat_lt
      rw [UInt32.toNat_ofNat', Nat.mod_eq_of_lt (by omega)]
    have hread := hall i hi
    rw [getChunk, hindex, more_commitUpload hcommit i b hheld] at hread
    split at hread
    · rw [List.getElem?_eq_getElem hi, received_encode hread]
      exact .inr rfl
    · have hnone : received i (Chunk.none (UInt32.ofNat i)).encode ≠ .ok p.sealed[i] := by
        rw [received, Chunk.decode_encode (Nat.zero_le _)]
        simp [Chunk.none]
      exact absurd hread hnone

theorem commit_done {h : Host} {claimed : Bytes32}
    (hdone : (f.commitUpload C uploader id claimed now).map Prod.snd = .ok true) :
    f.commitUpload C uploader id claimed now =
      .ok (f.step C h (.commitUpload uploader id claimed now), true) := by
  obtain ⟨⟨f₁, done⟩, hcommit, rfl⟩ := map_eq_ok.mp hdone
  simp only [Files.step, Files.perform, hcommit, Except.map]

def Returns (C : Crypto) (capacity : Nat) (a : Sqex.Attachment) (plaintext : Bytes) (f : Files) :
    Prop :=
  ∀ who now, f.mayFetch who a.blob now = true → ∃ fetched,
    fetchSealed f who a now = .ok fetched ∧ openSealed C capacity a fetched = .ok (.ok plaintext)

end Stored

/-- A file is refused or sealed into what is accepted exactly if the size of chunk fits. Once
stored where none of it was held cut otherwise, it comes back through every run in which an
attachment stands. And no reference panics whose length a vector may have, nor one that names
other bytes. -/
theorem file_returns (C : Crypto) (h : Host) (capacity : Nat) (hcapacity : maxBlob ≤ capacity)
    (hopens : ∀ key index plain, C.decrypt key (chunkNonce index)
      (C.encrypt key (chunkNonce index) plain) = some plain)
    (hgrows : ∀ key index plain,
      (C.encrypt key (chunkNonce index) plain).length = plain.length + 16) :
    (∀ key name plaintext (chunk : UInt32), plaintext ≠ [] → plaintext.length ≤ maxBlob →
      ((∃ r, fromBytes C key name plaintext chunk.toNat = .ok r ∧ ∀ p, r = .ok p → p.Accepted) ↔
        Fits plaintext chunk.toNat)) ∧
    (∀ key name plaintext (chunk : UInt32) p,
      fromBytes C key name plaintext chunk.toNat = .ok (.ok p) → Fits plaintext chunk.toNat →
      ∀ f uploader id now f', Carries f uploader id p → Uncut f p →
        f.commitUpload C uploader id p.attachment.blob now = .ok (f', true) →
        ∀ ops, Each (fun g op => (g.step C h op).standing p.attachment.blob = true)
            (Files.step C h) f' ops →
          Always (Returns C capacity p.attachment plaintext) (Files.step C h) f' ops) ∧
    ∀ a fetched, (∃ r, openSealed C capacity a fetched = .ok r) ↔
      (blobId C fetched = a.blob → a.size.toNat ≤ capacity) := by
  refine ⟨fun key name plaintext chunk hne hmax => ?_, ?_, fun a fetched => ?_⟩
  · rw [fromBytes_eq hne hmax]
    by_cases hchunk : chunk.toNat = 0
    · simp [hchunk, Fits]
    · rw [if_neg hchunk]
      simpa using accepted_iff hgrows hne hmax (by omega)
  · intro key name plaintext chunk p hp hfits f uploader id now f' hcarries huncut hcommit ops hops
    obtain ⟨hne, hmax, hchunk, rfl⟩ := fromBytes_ok hp
    have haccepted := (@accepted_iff C key name plaintext chunk.toNat hgrows hne hmax hchunk).mpr
      hfits
    have hserves := serves_commit hcarries huncut hcommit
    have hall : Always (fun g => Serves g _) (Files.step C h) f' ops :=
      hops.always (fun g op hg hstanding i b hb => chunkAt_step hstanding i b (hg i b hb)) hserves
    refine hall.imp fun g hg who now hfetch => ⟨_, fetchSealed_eq hg
      (chunks_preparedOf hmax hchunk).1 (fun bytes hbytes => ?_) hfetch,
      openSealed_preparedOf hcapacity hopens hmax hchunk⟩
    exact (PutChunk.decode_encode _).mp (haccepted.puts 0 0 bytes hbytes)
  · unfold openSealed
    by_cases hname : blobId C fetched = a.blob
    · by_cases hsize : capacity < a.size.toNat
      · simp [hname, hsize, Nat.not_le.mpr hsize]
      · simp [hname, hsize, Nat.not_lt.mp hsize]
    · simp [hname]

section Edges

def tagged : Crypto := { Crypto.toy with
  encrypt := fun key nonce plain => nonce ++ (Bytes32.toBytes key).take 4 ++ plain
  decrypt := fun key nonce c =>
    let tag := nonce ++ (Bytes32.toBytes key).take 4
    if tag <+: c then some (c.drop tag.length) else none }

theorem tagged_opens (key : Bytes32) (index : UInt32) (plain : Bytes) :
    tagged.decrypt key (chunkNonce index) (tagged.encrypt key (chunkNonce index) plain) =
      some plain := by
  have hstart : chunkNonce index ++ (Bytes32.toBytes key).take 4 <+:
      chunkNonce index ++ (Bytes32.toBytes key).take 4 ++ plain := List.prefix_append _ _
  simp only [tagged]
  rw [if_pos hstart, List.drop_left]

theorem tagged_grows (key : Bytes32) (index : UInt32) (plain : Bytes) :
    (tagged.encrypt key (chunkNonce index) plain).length = plain.length + 16 := by
  simp [tagged, chunkNonce, beBytes_length]
  omega

def pair : Prepared := preparedOf tagged 3 "a" [1, 2] 1

def ours : List Filing :=
  [.beginUpload 1000 5 ⟨5, 2, 2, 0⟩ 12, .putChunk 5 1 0 (pair.sealed.getD 0 []),
    .putChunk 5 1 1 (pair.sealed.getD 1 [])]

def theirs : List Filing :=
  [.beginUpload 1000 6 ⟨6, 2, 1, 0⟩ 10, .putChunk 6 1 0 pair.sealed.flatten,
    .commitUpload 6 1 pair.attachment.blob 11]

def stored (before : List Filing) : Except ChannelError (Files × Bool) :=
  (run (Files.step tagged Paired.exchange) .empty before).commitUpload tagged 5 1
    pair.attachment.blob 14

def comesBack (before : List Filing) : Option (Bool × Bool × Option Bool) :=
  (stored before).toOption.map fun r => (r.2, r.1.mayFetch 5 pair.attachment.blob 15,
    (fetchSealed r.1 5 pair.attachment 15).toOption.map fun fetched =>
      decide (openSealed tagged (2 ^ 63 - 1) pair.attachment fetched = .ok (.ok [1, 2])))

/-- A reference to nothing at all, of half of all lengths at least. -/
def vast : Sqex.Attachment where
  kind := kindFile
  blob := blobId tagged []
  key := 0
  size := 2 ^ 63
  chunks := 0
  mime := ""
  «meta» := []
  preview := []

theorem crumbs {plaintext : Bytes} (hmany : maxChunks < plaintext.length)
    (hmax : plaintext.length ≤ maxBlob) :
    ¬ ∃ r, fromBytes tagged 3 "a" plaintext 1 = .ok r ∧ ∀ p, r = .ok p → p.Accepted := by
  have hne : plaintext ≠ [] := by
    rintro rfl
    simp at hmany
  rw [fromBytes_eq hne hmax, if_neg (by decide)]
  simp only [Except.ok.injEq, exists_eq_left', forall_eq']
  rw [accepted_iff tagged_grows hne hmax (by decide)]
  rintro ⟨-, hfew, -⟩
  omega

/-- A size of chunk of nothing panics, and one too small makes what is not accepted; what is
stored already and cut otherwise stays, and the file does not open; and a reference that reads
panics. -/
theorem file_lost :
    fromBytes tagged 3 "a" [1, 2] 0 = .error .chunkSize ∧
    (¬ ∃ r, fromBytes tagged 3 "a" (List.replicate 401 0) 1 = .ok r ∧
      ∀ p, r = .ok p → p.Accepted) ∧
    comesBack (theirs ++ ours) = some (true, true, some false) ∧
    Sqex.Attachment.read vast.write 0 = .ok (vast, vast.write.length) ∧
    openSealed tagged (2 ^ 63 - 1) vast [] = .error .capacity := by
  refine ⟨rfl, crumbs ?_ ?_, by decide +kernel, ?_, by decide +kernel⟩
  · rw [List.length_replicate]
    decide
  · rw [List.length_replicate]
    decide
  · have hread := Sqex.Attachment.read_stands (a := vast) (b := vast.write) (o := 0)
      ⟨by decide, by decide +kernel, by decide, by decide⟩ stands_self
    rwa [Nat.zero_add] at hread

def kept : Files := run (Files.step tagged Paired.exchange) .empty ours

/-- 5's file comes back, though 6 then puts up the same bytes cut otherwise. -/
theorem file_returns_pair :
    Always (Returns tagged maxBlob pair.attachment [1, 2]) (Files.step tagged Paired.exchange)
      (kept.step tagged Paired.exchange (.commitUpload 5 1 pair.attachment.blob 14)) theirs :=
  (file_returns tagged Paired.exchange maxBlob (Nat.le_refl _) tagged_opens tagged_grows).2.1 3 "a"
    [1, 2] 1 pair rfl (by decide) kept 5 1 14 _
    ⟨⟨1, 5, 5, 2, 2, 0, 12, false⟩, rfl, by decide +kernel⟩ (by decide +kernel)
    (commit_done (by decide +kernel)) theirs (by decide +kernel)

end Edges

end Sqex.Sealing
