import Sqex.Proto.Room
import Sqex.Relay.Bridges

/-! What one exchange says to another, as it is written: the controls of a bridge, and one
exchange's view of a shared room, each behind its length on the link's stream. -/
namespace Sqex.Relay
open Offsets Room

def typeInvite : UInt8 := 0x01
def typeRinging : UInt8 := 0x02
def typeReject : UInt8 := 0x03
def typeAccept : UInt8 := 0x04
def typeClose : UInt8 := 0x05
def typeRoomShare : UInt8 := 0x06
def typeInviteDevice : UInt8 := 0x07
def typeInviteSigned : UInt8 := 0x08
def typeRoomShareSigned : UInt8 := 0x0a

def maxControl : Nat := 1536
def lengthPrefix : Nat := 4
def maxDomain : Nat := 253

namespace CallWord

def encode (w : CallWord) : Bytes :=
  beBytes 8 w.issued.toNat ++ (beBytes 2 (Credential.optionBytes w.credential).length ++
    (Credential.optionBytes w.credential ++ Bytes64.toBytes w.sig))

def decode (b : Bytes) : Except Error CallWord := do
  notShort b 0 8 "call word"
  notShort b 8 2 "call word"
  let n := (u16At b 8).toNat
  notShort b 10 n "call word"
  let credential ← Credential.decodeOption (slice b 10 n)
  notShort b (10 + n) 64 "call word"
  malformedIf (b.length ≠ 10 + n + 64) "trailing bytes after a call word"
  pure { issued := u64At b 0, credential, sig := sigAt b (10 + n) }

end CallWord

structure RoomWord where
  issued : UInt64
  credential : Option Credential
  sig : Bytes64
  deriving DecidableEq

namespace RoomWord

def encode (w : RoomWord) : Bytes := CallWord.encode ⟨w.issued, w.credential, w.sig⟩

def read (b : Bytes) : Except Error (RoomWord × Nat) := do
  notShort b 8 2 "room word"
  let len := 10 + (u16At b 8).toNat + 64
  notShort b 0 len "room word"
  let w ← CallWord.decode (slice b 0 len)
  pure (⟨w.issued, w.credential, w.sig⟩, len)

end RoomWord

/-- What crosses a link: a bridge's control, or the members one exchange knows to be in a room,
alone or on the word of one of them. -/
inductive LinkControl where
  | bridged (control : Control)
  | roomShare (handle : Bytes32) (members : List HomedMember)
  | roomShareSigned (handle : Bytes32) (members : List HomedMember) (sharer : PubKey)
      (word : RoomWord)
  deriving DecidableEq

def bridgeBytes (bridge : Bridge) : Bytes := beBytes 16 bridge.toNat
def bridgeAt (b : Bytes) (o : Nat) : Bridge := BitVec.ofNat 128 (natAt b o 16)

namespace Control

def wordBytes : Option (String × CallWord) → Bytes
  | none => []
  | some (target, w) =>
    [UInt8.ofNat (textBytes target).length] ++ (textBytes target ++ w.encode)

def encode : Control → Bytes
  | .invite bridge caller callerEph account callerDomain word =>
    [if word.isSome then typeInviteSigned else typeInvite] ++ (bridgeBytes bridge ++
      (Bytes32.toBytes caller ++ (Bytes32.toBytes callerEph ++ (Bytes32.toBytes account ++
        ([UInt8.ofNat (textBytes callerDomain).length] ++ (textBytes callerDomain ++
          wordBytes word))))))
  | .ringing bridge => [typeRinging] ++ bridgeBytes bridge
  | .reject bridge reason => [typeReject] ++ (bridgeBytes bridge ++ [reason])
  | .accept bridge callee calleeEph =>
    [typeAccept] ++ (bridgeBytes bridge ++ (Bytes32.toBytes callee ++ Bytes32.toBytes calleeEph))
  | .close bridge reason => [typeClose] ++ (bridgeBytes bridge ++ [reason])
  | .inviteDevice bridge caller callerEph device =>
    [typeInviteDevice] ++ (bridgeBytes bridge ++ (Bytes32.toBytes caller ++
      (Bytes32.toBytes callerEph ++ Bytes32.toBytes device)))

def decodeWord (after : Bytes) : Except Error (String × CallWord) := do
  malformedIf (after = []) "invite target cut short"
  let n := (byteAt after 0).toNat
  malformedIf (after.length < 1 + n) "invite target cut short"
  let target ← utf8 (slice after 1 n) "invite target"
  let w ← CallWord.decode (after.drop (1 + n))
  pure (target, w)

def decodeTail (kind : UInt8) (domLen : Nat) (after : Bytes) :
    Except Error (Option (String × CallWord)) :=
  if kind = typeInviteSigned then do
    let word ← decodeWord after
    pure (some word)
  else do
    malformedIf (after ≠ [])
      s!"invite domain is {domLen + after.length} bytes, header says {domLen}"
    pure none

def decodeInvite (kind : UInt8) (bridge : Bridge) (b : Bytes) : Except Error Control := do
  malformedIf (b.length < 17 + (32 + 32 + 32 + 1)) "invite truncated"
  let domLen := (byteAt b 113).toNat
  malformedIf (b.length < 114 + domLen) "invite domain cut short"
  let word ← decodeTail kind domLen (b.drop (114 + domLen))
  let callerDomain ← utf8 (slice b 114 domLen) "invite domain"
  pure (.invite bridge (keyAt b 17) (keyAt b 49) (keyAt b 81) callerDomain word)

def decode (b : Bytes) : Except Error Control := do
  malformedIf (b.length < 17) "relay control frame truncated"
  let kind := byteAt b 0
  let bridge := bridgeAt b 1
  if kind = typeInvite ∨ kind = typeInviteSigned then
    decodeInvite kind bridge b
  else if kind = typeRinging then
    malformedIf (b.length ≠ 17) "ringing has a trailing body"
    pure (.ringing bridge)
  else if kind = typeReject then
    malformedIf (b.length ≠ 17 + 1) "reject wants one reason byte"
    pure (.reject bridge (byteAt b 17))
  else if kind = typeAccept then
    malformedIf (b.length ≠ 17 + 64) "accept wants callee[32] eph[32]"
    pure (.accept bridge (keyAt b 17) (keyAt b 49))
  else if kind = typeInviteDevice then
    malformedIf (b.length ≠ 17 + 96) "device invite wants 96 bytes"
    pure (.inviteDevice bridge (keyAt b 17) (keyAt b 49) (keyAt b 81))
  else if kind = typeClose then
    malformedIf (b.length ≠ 17 + 1) "close wants one reason byte"
    pure (.close bridge (byteAt b 17))
  else .error (.malformed s!"unknown relay control {hex kind}")

end Control

namespace LinkControl

def shareBytes (handle : Bytes32) (members : List HomedMember) : Bytes :=
  Bytes32.toBytes handle ++ ([UInt8.ofNat members.length] ++ members.flatMap HomedMember.write)

def encode : LinkControl → Bytes
  | .bridged control => control.encode
  | .roomShare handle members => [typeRoomShare] ++ shareBytes handle members
  | .roomShareSigned handle members sharer word =>
    [typeRoomShareSigned] ++ (shareBytes handle members ++
      (Bytes32.toBytes sharer ++ word.encode))

def decodeShare (kind : UInt8) (b : Bytes) : Except Error LinkControl := do
  malformedIf (b.length < 34) "room share cut short"
  let count := (byteAt b 33).toNat
  malformedIf (count > maxMembers) s!"a share names at most {maxMembers} members, not {count}"
  let last := 34 + count * 96
  malformedIf (kind = typeRoomShare ∧ b.length ≠ last) "room share cut short"
  malformedIf (kind = typeRoomShareSigned ∧ b.length < last + 32) "signed room share cut short"
  let members := (List.range count).map fun i => HomedMember.readAt b (34 + i * 96)
  if kind = typeRoomShareSigned then
    let (word, len) ← RoomWord.read (b.drop (last + 32))
    malformedIf (last + 32 + len ≠ b.length) "trailing bytes after a signed room share"
    pure (.roomShareSigned (keyAt b 1) members (keyAt b last) word)
  else
    pure (.roomShare (keyAt b 1) members)

def decode (b : Bytes) : Except Error LinkControl := do
  malformedIf (b = []) "empty relay control frame"
  let kind := byteAt b 0
  if kind = typeRoomShare ∨ kind = typeRoomShareSigned then
    decodeShare kind b
  else
    let control ← Control.decode b
    pure (.bridged control)

def frame (c : LinkControl) : Bytes := beBytes 4 c.encode.length ++ c.encode

end LinkControl

/-- The controls a link's reader takes from its stream, until the stream ends or holds what is
not one: a length of 0 or past the limit, or what does not decode. -/
def controlReader (b : Bytes) : List LinkControl :=
  let n := (u32At b 0).toNat
  if b.length < lengthPrefix ∨ n = 0 ∨ n > maxControl ∨ b.length < lengthPrefix + n then []
  else match LinkControl.decode (slice b lengthPrefix n) with
    | .ok c => c :: controlReader (b.drop (lengthPrefix + n))
    | .error _ => []
termination_by b.length
decreasing_by
  rename_i h
  rw [List.length_drop]
  unfold lengthPrefix at h ⊢
  omega

section
variable {b : Bytes} {o : Nat}

namespace CallWord

theorem length_encode (w : CallWord) :
    w.encode.length = 74 + (Credential.optionBytes w.credential).length := by
  simp only [encode, List.length_append, beBytes_length, Bytes64.length_toBytes]
  omega

theorem length_encode_le {w : CallWord} (h : Credential.OptionFits w.credential) :
    w.encode.length ≤ 251 := by
  have hle := Credential.length_optionBytes_le h
  rw [length_encode]
  omega

theorem stands_encode {w : CallWord} (h : Credential.OptionFits w.credential) :
    Stands b o w.encode ↔
    let n := (u16At b (o + 8)).toNat
    o + (10 + n + 64) ≤ b.length ∧ u64At b o = w.issued ∧
      n = (Credential.optionBytes w.credential).length ∧
      slice b (o + 10) n = Credential.optionBytes w.credential ∧ sigAt b (o + 10 + n) = w.sig := by
  have hle := Credential.length_optionBytes_le h
  rw [encode, stands_u64_append, stands_len16_append (by omega), stands_part_append, stands_sig]
  constructor
  · rintro ⟨hissued, hn, hcredential, hlen, hsig⟩
    rw [hn]
    exact ⟨by omega, hissued, rfl, hcredential, hsig⟩
  · rintro ⟨hlen, hissued, hn, hcredential, hsig⟩
    rw [hn] at hlen hcredential hsig
    exact ⟨hissued, hn, hcredential, by omega, hsig⟩

theorem decode_eq_ok {w : CallWord} :
    decode b = .ok w ↔ b = w.encode ∧ Credential.OptionFits w.credential := by
  simp only [decode, bind_eq_ok, malformedIf_eq_ok, notShort_eq_ok, pure_eq_ok, ne_eq,
    Decidable.not_not, Credential.decodeOption_eq_ok]
  constructor
  · rintro ⟨-, -, -, -, -, hroom, credential, ⟨hcredential, hfits⟩, -, -, -, hwhole, rfl⟩
    refine ⟨stands_whole.mp ⟨(stands_encode hfits).mpr ?_, ?_⟩, hfits⟩
    · have hn := congrArg List.length hcredential
      rw [length_slice hroom] at hn
      have hend : 0 + (10 + (u16At b 8).toNat + 64) ≤ b.length := by omega
      exact ⟨hend, rfl, hn, hcredential, rfl⟩
    · rw [length_encode, hwhole, ← hcredential, length_slice hroom]
      omega
  · rintro ⟨hb, hfits⟩
    rw [← stands_whole, stands_encode hfits, length_encode] at hb
    simp only [Nat.zero_add] at hb
    obtain ⟨⟨hlen, hissued, hn, hcredential, hsig⟩, hwhole⟩ := hb
    exact ⟨(), by omega, (), by omega, (), by omega, w.credential, ⟨hcredential, hfits⟩, (),
      by omega, (), by omega, by rw [hissued, hsig]⟩

end CallWord

namespace RoomWord

theorem read_eq_ok {w : RoomWord} {n : Nat} : read b = .ok (w, n) ↔
    Stands b 0 w.encode ∧ n = w.encode.length ∧ Credential.OptionFits w.credential := by
  simp only [read, bind_eq_ok, notShort_eq_ok, pure_eq_ok, Prod.mk.injEq, CallWord.decode_eq_ok,
    Nat.zero_add]
  constructor
  · rintro ⟨-, -, -, hroom, word, ⟨hword, hfits⟩, rfl, rfl⟩
    have hlen : 10 + (u16At b 8).toNat + 64 = word.encode.length := by
      rw [← hword, length_slice (by omega)]
    refine ⟨?_, hlen, hfits⟩
    rw [encode, ← hword]
    exact stands_slice (by omega)
  · rintro ⟨hstands, rfl, hfits⟩
    have hfields := (CallWord.stands_encode (w := ⟨w.issued, w.credential, w.sig⟩) hfits).mp hstands
    simp only [Nat.zero_add] at hfields
    obtain ⟨hroom, -, hn, -⟩ := hfields
    have hlen : 10 + (u16At b 8).toNat + 64 = w.encode.length := by
      rw [encode, CallWord.length_encode, hn]
      exact Nat.add_right_comm _ _ _
    refine ⟨(), by omega, (), hroom, ⟨w.issued, w.credential, w.sig⟩, ⟨?_, hfits⟩, rfl, hlen⟩
    rw [hlen]
    exact hstands.slice

theorem read_all_eq_ok {w : RoomWord} {n : Nat} : read b = .ok (w, n) ∧ n = b.length ↔
    (b = w.encode ∧ Credential.OptionFits w.credential) ∧ n = b.length := by
  rw [read_eq_ok, ← stands_whole]
  constructor
  · rintro ⟨⟨hstands, hn, hfits⟩, hwhole⟩
    exact ⟨⟨⟨hstands, hn ▸ hwhole⟩, hfits⟩, hwhole⟩
  · rintro ⟨⟨⟨hstands, hlen⟩, hfits⟩, hwhole⟩
    exact ⟨⟨hstands, hlen.symm ▸ hwhole, hfits⟩, hwhole⟩

end RoomWord

theorem length_bridgeBytes (bridge : Bridge) : (bridgeBytes bridge).length = 16 := beBytes_length ..

theorem stands_bridge_append {bridge : Bridge} {w : Bytes} :
    Stands b o (bridgeBytes bridge ++ w) ↔ bridgeAt b o = bridge ∧ Stands b (o + 16) w :=
  stands_field (length_bridgeBytes bridge) (stands_word (n := 16))

namespace Control

/-- An invite's domain is within a length, its target in what a byte counts, and the scope of its
word's credential in what one may be. -/
def Within (longest : Nat) : Control → Prop
  | .invite _ _ _ _ callerDomain word => (textBytes callerDomain).length ≤ longest ∧
    ∀ signed ∈ word, (textBytes signed.1).length < 256 ∧
      Credential.OptionFits signed.2.credential
  | _ => True

variable {target callerDomain : String} {w : CallWord} {word : Option (String × CallWord)}
  {bridge : Bridge} {caller account : PubKey} {callerEph : Bytes32}

theorem decodeWord_eq_ok : decodeWord b = .ok (target, w) ↔ b = wordBytes (some (target, w)) ∧
    (textBytes target).length < 256 ∧ Credential.OptionFits w.credential := by
  have hcut : ∀ n, (textBytes target).length = n →
      ([UInt8.ofNat (textBytes target).length] ++ textBytes target).length = 1 + n := by
    rintro n rfl
    rw [List.length_append, List.length_singleton]
  simp only [decodeWord, bind_eq_ok, malformedIf_eq_ok, pure_eq_ok, Prod.mk.injEq, utf8_eq_ok,
    CallWord.decode_eq_ok, Nat.not_lt, wordBytes]
  rw [← List.append_assoc, eq_append_iff, stands_append, List.length_singleton, Nat.zero_add]
  constructor
  · rintro ⟨-, hsome, -, hroom, target, htext, w, ⟨hword, hfits⟩, rfl, rfl⟩
    have hlt := (byteAt b 0).toNat_lt
    have hn : (textBytes target).length = (byteAt b 0).toNat := by
      rw [← htext, length_slice hroom]
    rw [hcut _ hn, stands_len8 (by omega), stands_text, hn]
    exact ⟨⟨⟨⟨by omega, rfl⟩, hroom, htext⟩, hword⟩, by omega, hfits⟩
  · rintro ⟨⟨⟨hlen, htext⟩, hword⟩, hshort, hfits⟩
    rw [stands_len8 hshort] at hlen
    rw [stands_text] at htext
    rw [hcut _ hlen.2.symm] at hword
    rw [← hlen.2] at htext
    have hsome : ¬ b = [] := by
      rintro rfl
      exact absurd hlen.1 (by decide)
    exact ⟨(), hsome, (), htext.1, target, htext.2, w, ⟨hword, hfits⟩, rfl, rfl⟩

def inviteHead (bridge : Bridge) (caller : PubKey) (callerEph : Bytes32) (account : PubKey)
    (callerDomain : String) (word : Option (String × CallWord)) : Bytes :=
  [if word.isSome then typeInviteSigned else typeInvite] ++ (bridgeBytes bridge ++
    (Bytes32.toBytes caller ++ (Bytes32.toBytes callerEph ++ (Bytes32.toBytes account ++
      ([UInt8.ofNat (textBytes callerDomain).length] ++ textBytes callerDomain)))))

theorem encode_invite : encode (.invite bridge caller callerEph account callerDomain word) =
    inviteHead bridge caller callerEph account callerDomain word ++ wordBytes word := by
  simp only [encode, inviteHead, List.append_assoc]

theorem length_inviteHead :
    (inviteHead bridge caller callerEph account callerDomain word).length =
      114 + (textBytes callerDomain).length := by
  simp only [inviteHead, List.length_append, length_bridgeBytes, Bytes32.length_toBytes,
    List.length_singleton]
  omega

theorem stands_inviteHead (hdomain : (textBytes callerDomain).length < 256) :
    Stands b 0 (inviteHead bridge caller callerEph account callerDomain word) ↔
      byteAt b 0 = (if word.isSome then typeInviteSigned else typeInvite) ∧
      bridgeAt b 1 = bridge ∧ keyAt b 17 = caller ∧ keyAt b 49 = callerEph ∧
      keyAt b 81 = account ∧ (byteAt b 113).toNat = (textBytes callerDomain).length ∧
      114 + (textBytes callerDomain).length ≤ b.length ∧
      slice b 114 (textBytes callerDomain).length = textBytes callerDomain := by
  rw [inviteHead, stands_byte_append, stands_bridge_append, stands_key_append, stands_key_append,
    stands_key_append, stands_len8_append hdomain, stands_text]

variable {c : Control}

theorem decodeTail_eq_ok {kind : UInt8} {domLen : Nat}
    (hkind : kind = typeInvite ∨ kind = typeInviteSigned) :
    decodeTail kind domLen b = .ok word ↔
      kind = (if word.isSome then typeInviteSigned else typeInvite) ∧ b = wordBytes word ∧
        ∀ signed ∈ word, (textBytes signed.1).length < 256 ∧
          Credential.OptionFits signed.2.credential := by
  have hdiffer : typeInvite ≠ typeInviteSigned := by decide
  unfold decodeTail
  split
  · rename_i hsigned
    simp only [bind_eq_ok, pure_eq_ok, Prod.exists, decodeWord_eq_ok]
    cases word with
    | none => simp [hsigned, hdiffer.symm]
    | some signed =>
      obtain ⟨target, w⟩ := signed
      simp [hsigned]
  · rename_i hplain
    have hinvite := hkind.resolve_right hplain
    simp only [bind_eq_ok, malformedIf_eq_ok, pure_eq_ok, ne_eq, Decidable.not_not]
    cases word with
    | none => simp [hinvite, wordBytes]
    | some signed => simp [hinvite, hdiffer]

theorem encode_of_decodeInvite
    (hkind : byteAt b 0 = typeInvite ∨ byteAt b 0 = typeInviteSigned)
    (h : decodeInvite (byteAt b 0) (bridgeAt b 1) b = .ok c) :
    b = c.encode ∧ c.Within 255 := by
  simp only [decodeInvite, bind_eq_ok, malformedIf_eq_ok, pure_eq_ok, Nat.not_lt,
    utf8_eq_ok] at h
  obtain ⟨-, -, -, hroom, word, hword, callerDomain, htext, rfl⟩ := h
  have hlt := (byteAt b 113).toNat_lt
  have hn : (textBytes callerDomain).length = (byteAt b 113).toNat := by
    rw [← htext, length_slice hroom]
  have hdomain : (textBytes callerDomain).length < 256 := by omega
  obtain ⟨hsigned, htail, hfits⟩ := (decodeTail_eq_ok hkind).mp hword
  refine ⟨?_, Nat.le_of_lt_succ hdomain, hfits⟩
  rw [encode_invite, eq_append_iff, length_inviteHead, stands_inviteHead hdomain, hn]
  exact ⟨⟨hsigned, rfl, rfl, rfl, rfl, rfl, hroom, htext⟩, htail⟩

theorem decodeInvite_encode (hb : b = encode (.invite bridge caller callerEph account callerDomain
      word)) (hwithin : Within 255 (.invite bridge caller callerEph account callerDomain word)) :
    decodeInvite (byteAt b 0) (bridgeAt b 1) b =
      .ok (.invite bridge caller callerEph account callerDomain word) := by
  have hdomain : (textBytes callerDomain).length < 256 := Nat.lt_succ_of_le hwithin.1
  rw [encode_invite, eq_append_iff, length_inviteHead, stands_inviteHead hdomain] at hb
  obtain ⟨⟨hkind, hbridge, hcaller, heph, haccount, hn, hlen, htext⟩, htail⟩ := hb
  simp only [decodeInvite, bind_eq_ok, malformedIf_eq_ok, pure_eq_ok, Nat.not_lt,
    utf8_eq_ok]
  rw [hkind, hbridge, hcaller, heph, haccount, hn]
  refine ⟨(), by omega, (), hlen, word, ?_, callerDomain, htext, rfl⟩
  rw [htail, decodeTail_eq_ok]
  · exact ⟨rfl, rfl, hwithin.2⟩
  · cases word with
    | none => exact Or.inl rfl
    | some signed => exact Or.inr rfl

theorem checked_eq_ok {wrong : Prop} [Decidable wrong] {text : String} {x y : Control} :
    (do malformedIf (¬ wrong) text; pure x : Except Error Control) = .ok y ↔ wrong ∧ x = y := by
  simp only [bind_eq_ok, malformedIf_eq_ok, pure_eq_ok, Decidable.not_not]
  exact exists_const Unit

theorem eq_bridged {kind : UInt8} {rest : Bytes} :
    b = [kind] ++ (bridgeBytes bridge ++ rest) ↔ b.length = 17 + rest.length ∧
      byteAt b 0 = kind ∧ bridgeAt b 1 = bridge ∧ Stands b 17 rest := by
  rw [← stands_whole, stands_byte_append, stands_bridge_append, List.length_append,
    List.length_append, length_bridgeBytes, List.length_singleton, ← Nat.add_assoc, and_comm,
    eq_comm]

theorem eq_ringing : b = encode (.ringing bridge) ↔
    b.length = 17 ∧ byteAt b 0 = typeRinging ∧ bridgeAt b 1 = bridge := by
  rw [encode, ← List.append_nil (bridgeBytes bridge), eq_bridged, stands_nil, List.length_nil]
  exact and_congr_right fun hlen => by simp [hlen]

theorem eq_reason {kind reason : UInt8} : b = [kind] ++ (bridgeBytes bridge ++ [reason]) ↔
    b.length = 17 + 1 ∧ byteAt b 0 = kind ∧ bridgeAt b 1 = bridge ∧ byteAt b 17 = reason := by
  rw [eq_bridged, stands_byte, List.length_singleton]
  exact and_congr_right fun hlen => by simp [hlen]

theorem eq_accept {callee : PubKey} {calleeEph : Bytes32} :
    b = encode (.accept bridge callee calleeEph) ↔ b.length = 17 + 64 ∧
      byteAt b 0 = typeAccept ∧ bridgeAt b 1 = bridge ∧ keyAt b 17 = callee ∧
      keyAt b 49 = calleeEph := by
  rw [encode, eq_bridged, stands_key_append, stands_key, List.length_append,
    Bytes32.length_toBytes, Bytes32.length_toBytes]
  exact and_congr_right fun hlen => by simp [hlen]

theorem eq_inviteDevice {device : PubKey} :
    b = encode (.inviteDevice bridge caller callerEph device) ↔ b.length = 17 + 96 ∧
      byteAt b 0 = typeInviteDevice ∧ bridgeAt b 1 = bridge ∧ keyAt b 17 = caller ∧
      keyAt b 49 = callerEph ∧ keyAt b 81 = device := by
  rw [encode, eq_bridged, stands_key_append, stands_key_append, stands_key, List.length_append,
    List.length_append, Bytes32.length_toBytes, Bytes32.length_toBytes, Bytes32.length_toBytes]
  exact and_congr_right fun hlen => by simp [hlen]

/-- What is read is what was written, of a control whose texts are in what a byte counts. -/
theorem decode_eq_ok : decode b = .ok c ↔ b = c.encode ∧ c.Within 255 := by
  simp only [decode, bind_eq_ok, malformedIf_eq_ok, Nat.not_lt]
  constructor
  · rintro ⟨-, -, h⟩
    split at h
    · rename_i hkind
      exact encode_of_decodeInvite hkind h
    split at h
    · rename_i hkind
      obtain ⟨hlen, rfl⟩ := checked_eq_ok.mp h
      exact ⟨eq_ringing.mpr ⟨hlen, hkind, rfl⟩, trivial⟩
    split at h
    · rename_i hkind
      obtain ⟨hlen, rfl⟩ := checked_eq_ok.mp h
      exact ⟨eq_reason.mpr ⟨hlen, hkind, rfl, rfl⟩, trivial⟩
    split at h
    · rename_i hkind
      obtain ⟨hlen, rfl⟩ := checked_eq_ok.mp h
      exact ⟨eq_accept.mpr ⟨hlen, hkind, rfl, rfl, rfl⟩, trivial⟩
    split at h
    · rename_i hkind
      obtain ⟨hlen, rfl⟩ := checked_eq_ok.mp h
      exact ⟨eq_inviteDevice.mpr ⟨hlen, hkind, rfl, rfl, rfl, rfl⟩, trivial⟩
    split at h
    · rename_i hkind
      obtain ⟨hlen, rfl⟩ := checked_eq_ok.mp h
      exact ⟨eq_reason.mpr ⟨hlen, hkind, rfl, rfl⟩, trivial⟩
    · cases h
  · rintro ⟨hb, hwithin⟩
    have hkinds : (typeRinging ≠ typeInvite ∧ typeRinging ≠ typeInviteSigned) ∧
        (typeReject ≠ typeInvite ∧ typeReject ≠ typeInviteSigned ∧ typeReject ≠ typeRinging) ∧
        (typeAccept ≠ typeInvite ∧ typeAccept ≠ typeInviteSigned ∧ typeAccept ≠ typeRinging ∧
          typeAccept ≠ typeReject) ∧
        (typeInviteDevice ≠ typeInvite ∧ typeInviteDevice ≠ typeInviteSigned ∧
          typeInviteDevice ≠ typeRinging ∧ typeInviteDevice ≠ typeReject ∧
          typeInviteDevice ≠ typeAccept) ∧
        typeClose ≠ typeInvite ∧ typeClose ≠ typeInviteSigned ∧ typeClose ≠ typeRinging ∧
          typeClose ≠ typeReject ∧ typeClose ≠ typeAccept ∧ typeClose ≠ typeInviteDevice := by
      decide
    cases c with
    | invite bridge caller callerEph account callerDomain word =>
      have hkind : byteAt b 0 = typeInvite ∨ byteAt b 0 = typeInviteSigned := by
        rw [hb, encode, List.singleton_append, byteAt, List.getD_cons_zero]
        cases word with
        | none => exact Or.inl rfl
        | some signed => exact Or.inr rfl
      have hlen := congrArg List.length hb
      rw [encode_invite, List.length_append, length_inviteHead] at hlen
      rw [if_pos hkind]
      exact ⟨(), by omega, decodeInvite_encode hb hwithin⟩
    | ringing bridge =>
      obtain ⟨hlen, hkind, hbridge⟩ := eq_ringing.mp hb
      simp only [hlen, hkind, hbridge, hkinds, or_self, if_false, if_true,
        bind_eq_ok, malformedIf_eq_ok, pure_eq_ok]
      exact ⟨(), by decide, (), by simp, trivial⟩
    | reject bridge reason =>
      obtain ⟨hlen, hkind, hbridge, hreason⟩ := eq_reason.mp hb
      simp only [hlen, hkind, hbridge, hreason, hkinds, or_self, if_false, if_true,
        bind_eq_ok, malformedIf_eq_ok, pure_eq_ok]
      exact ⟨(), by decide, (), by simp, trivial⟩
    | accept bridge callee calleeEph =>
      obtain ⟨hlen, hkind, hbridge, hcallee, heph⟩ := eq_accept.mp hb
      simp only [hlen, hkind, hbridge, hcallee, heph, hkinds, or_self, if_false, if_true,
        bind_eq_ok, malformedIf_eq_ok, pure_eq_ok]
      exact ⟨(), by decide, (), by simp, trivial⟩
    | close bridge reason =>
      obtain ⟨hlen, hkind, hbridge, hreason⟩ := eq_reason.mp hb
      simp only [hlen, hkind, hbridge, hreason, hkinds, or_self, if_false, if_true,
        bind_eq_ok, malformedIf_eq_ok, pure_eq_ok]
      exact ⟨(), by decide, (), by simp, trivial⟩
    | inviteDevice bridge caller callerEph device =>
      obtain ⟨hlen, hkind, hbridge, hcaller, heph, hdevice⟩ := eq_inviteDevice.mp hb
      simp only [hlen, hkind, hbridge, hcaller, heph, hdevice, hkinds, or_self, if_false, if_true,
        bind_eq_ok, malformedIf_eq_ok, pure_eq_ok]
      exact ⟨(), by decide, (), by simp, trivial⟩

theorem length_encode_le (h : c.Within maxDomain) : c.encode.length ≤ maxControl := by
  have hcap : maxControl = 1536 := rfl
  cases c with
  | invite bridge caller callerEph account callerDomain word =>
    obtain ⟨hdomain, hword⟩ := h
    unfold maxDomain at hdomain
    have htail : (wordBytes word).length ≤ 507 := by
      cases word with
      | none => simp [wordBytes]
      | some signed =>
        obtain ⟨htarget, hfits⟩ := hword signed rfl
        have hle := CallWord.length_encode_le hfits
        simp only [wordBytes, List.length_append, List.length_singleton]
        omega
    rw [encode_invite, List.length_append, length_inviteHead]
    omega
  | _ =>
    simp only [encode, List.length_append, List.length_singleton, length_bridgeBytes,
      Bytes32.length_toBytes]
    omega

theorem Within.mono {short long : Nat} (h : c.Within short) (hle : short ≤ long) :
    c.Within long := by
  cases c with
  | invite => exact ⟨Nat.le_trans h.1 hle, h.2⟩
  | _ => trivial

theorem kind_encode (c : Control) :
    byteAt c.encode 0 ≠ typeRoomShare ∧ byteAt c.encode 0 ≠ typeRoomShareSigned := by
  have hother : ∀ kind ∈ [typeInvite, typeInviteSigned, typeRinging, typeReject, typeAccept,
      typeClose, typeInviteDevice], kind ≠ typeRoomShare ∧ kind ≠ typeRoomShareSigned := by
    simp [typeInvite, typeInviteSigned, typeRinging, typeReject, typeAccept, typeClose,
      typeInviteDevice, typeRoomShare, typeRoomShareSigned]
  refine hother _ ?_
  cases c with
  | invite bridge caller callerEph account callerDomain word =>
    cases word with
    | none => exact .head _
    | some signed => exact .tail _ (.head _)
  | _ => simp [encode, byteAt]

end Control

namespace LinkControl
variable {handle : Bytes32} {members : List HomedMember} {sharer : PubKey} {word : RoomWord}
  {c : LinkControl}

/-- What may be sent: a domain no longer than `longest`, a share of no more members than one
exchange admits, and a word whose credential's scope fits. -/
def Within (longest : Nat) : LinkControl → Prop
  | .bridged control => control.Within longest
  | .roomShare _ members => members.length ≤ maxMembers
  | .roomShareSigned _ members _ word =>
    members.length ≤ maxMembers ∧ Credential.OptionFits word.credential

theorem length_shareBytes : (shareBytes handle members).length = 33 + members.length * 96 := by
  simp only [shareBytes, List.length_append, Bytes32.length_toBytes, List.length_singleton,
    length_flatMap HomedMember.length_write]
  omega

theorem stands_share (hcount : members.length ≤ maxMembers) {kind : UInt8} :
    Stands b 0 ([kind] ++ shareBytes handle members) ↔ byteAt b 0 = kind ∧ keyAt b 1 = handle ∧
      (byteAt b 33).toNat = members.length ∧ 34 + members.length * 96 ≤ b.length ∧
      (List.range members.length).map (fun i => HomedMember.readAt b (34 + i * 96)) = members := by
  have hfew : members.length < 256 := Nat.lt_of_le_of_lt hcount (by decide)
  rw [shareBytes, stands_byte_append, stands_key_append, stands_len8_append hfew,
    HomedMember.stands_all]

theorem eq_roomShare (hcount : members.length ≤ maxMembers) :
    b = encode (.roomShare handle members) ↔ b.length = 34 + members.length * 96 ∧
      byteAt b 0 = typeRoomShare ∧ keyAt b 1 = handle ∧ (byteAt b 33).toNat = members.length ∧
      (List.range members.length).map (fun i => HomedMember.readAt b (34 + i * 96)) = members := by
  rw [encode, ← stands_whole, stands_share hcount, List.length_append, length_shareBytes,
    List.length_singleton, ← Nat.add_assoc, and_comm, eq_comm]
  exact and_congr_right fun hlen => by simp [hlen]

theorem eq_roomShareSigned (hcount : members.length ≤ maxMembers) :
    b = encode (.roomShareSigned handle members sharer word) ↔
      34 + members.length * 96 + 32 ≤ b.length ∧ byteAt b 0 = typeRoomShareSigned ∧
      keyAt b 1 = handle ∧ (byteAt b 33).toNat = members.length ∧
      (List.range members.length).map (fun i => HomedMember.readAt b (34 + i * 96)) = members ∧
      keyAt b (34 + members.length * 96) = sharer ∧
      b.drop (34 + members.length * 96 + 32) = word.encode := by
  have hshare : ([typeRoomShareSigned] ++ shareBytes handle members).length =
      34 + members.length * 96 := by
    rw [List.length_append, length_shareBytes, List.length_singleton]
    omega
  rw [encode, ← List.append_assoc, ← List.append_assoc, eq_append_iff, stands_append,
    stands_share hcount, stands_key, hshare, List.length_append, hshare, Bytes32.length_toBytes,
    Nat.zero_add]
  constructor
  · rintro ⟨⟨⟨hkind, hhandle, hn, -, hmembers⟩, hlen, hsharer⟩, hword⟩
    exact ⟨hlen, hkind, hhandle, hn, hmembers, hsharer, hword⟩
  · rintro ⟨hlen, hkind, hhandle, hn, hmembers, hsharer, hword⟩
    exact ⟨⟨⟨hkind, hhandle, hn, by omega, hmembers⟩, hlen, hsharer⟩, hword⟩

theorem decode_eq_ok : decode b = .ok c ↔ b = c.encode ∧ c.Within 255 := by
  have hdiffer : typeRoomShare ≠ typeRoomShareSigned := by decide
  simp only [decode, bind_eq_ok, malformedIf_eq_ok]
  constructor
  · rintro ⟨-, -, h⟩
    split at h
    · rename_i hkind
      simp only [decodeShare, bind_eq_ok, malformedIf_eq_ok, Nat.not_lt, gt_iff_lt, not_and] at h
      obtain ⟨-, hroom, -, hcount, -, hwhole, -, hsharer, h⟩ := h
      have hmembers : ((List.range (byteAt b 33).toNat).map
          fun i => HomedMember.readAt b (34 + i * 96)).length = (byteAt b 33).toNat := by
        rw [List.length_map, List.length_range]
      split at h
      · rename_i hsigned
        simp only [bind_eq_ok, malformedIf_eq_ok, pure_eq_ok, Prod.exists, ne_eq,
          Decidable.not_not] at h
        obtain ⟨word, len, hread, -, hend, rfl⟩ := h
        have hall := (RoomWord.read_all_eq_ok (b := b.drop (34 + (byteAt b 33).toNat * 96 + 32))
          (w := word) (n := len)).mp ⟨hread, by rw [List.length_drop]; omega⟩
        refine ⟨(eq_roomShareSigned (hmembers.le.trans hcount)).mpr ?_,
          hmembers.le.trans hcount, hall.1.2⟩
        rw [hmembers]
        exact ⟨hsharer hsigned, hsigned, rfl, rfl, rfl, rfl, hall.1.1⟩
      · rename_i hplain
        rw [pure_eq_ok] at h
        have hshare := hkind.resolve_right hplain
        subst h
        refine ⟨(eq_roomShare (hmembers.le.trans hcount)).mpr ?_, hmembers.le.trans hcount⟩
        rw [hmembers]
        exact ⟨not_not.mp (hwhole hshare), hshare, rfl, rfl, rfl⟩
    · simp only [bind_eq_ok, pure_eq_ok] at h
      obtain ⟨control, hcontrol, rfl⟩ := h
      exact Control.decode_eq_ok.mp hcontrol
  · rintro ⟨hb, hwithin⟩
    cases c with
    | bridged control =>
      have hkind := control.kind_encode
      rw [encode] at hb
      rw [← hb] at hkind
      have hsome : ¬ b = [] := by
        rintro rfl
        have hlen := congrArg List.length hb
        cases control <;> simp [Control.encode] at hlen
      rw [if_neg (not_or.mpr hkind)]
      simp only [bind_eq_ok, pure_eq_ok]
      exact ⟨(), hsome, control, Control.decode_eq_ok.mpr ⟨hb, hwithin⟩, rfl⟩
    | roomShare handle members =>
      obtain ⟨hwhole, hkind, hhandle, hn, hmembers⟩ := (eq_roomShare hwithin).mp hb
      have hsome : ¬ b = [] := by
        rintro rfl
        rw [List.length_nil] at hwhole
        omega
      rw [if_pos (Or.inl hkind), hkind]
      simp only [decodeShare, bind_eq_ok, malformedIf_eq_ok, pure_eq_ok, Nat.not_lt, gt_iff_lt,
        not_and, hn, hmembers, hhandle, if_neg hdiffer]
      exact ⟨(), hsome, (), by omega, (), hwithin, (), fun _ => not_not.mpr hwhole, (),
        fun h => absurd h hdiffer, trivial⟩
    | roomShareSigned handle members sharer word =>
      obtain ⟨hcount, hfits⟩ := hwithin
      obtain ⟨hlen, hkind, hhandle, hn, hmembers, hsharer, hword⟩ :=
        (eq_roomShareSigned hcount).mp hb
      have hsome : ¬ b = [] := by
        rintro rfl
        rw [List.length_nil] at hlen
        omega
      have hread := RoomWord.read_all_eq_ok.mpr ⟨⟨hword, hfits⟩, rfl⟩
      rw [if_pos (Or.inr hkind), hkind]
      simp only [decodeShare, bind_eq_ok, malformedIf_eq_ok, pure_eq_ok, Nat.not_lt, gt_iff_lt,
        not_and, hn, hmembers, hhandle, hsharer, if_true, Prod.exists, ne_eq, Decidable.not_not]
      refine ⟨(), hsome, (), by omega, (), hcount, (), fun h => absurd h hdiffer.symm, (),
        fun _ => hlen, word, _, hread.1, (), ?_, rfl⟩
      rw [List.length_drop]
      omega

theorem length_encode_le (h : c.Within maxDomain) : c.encode.length ≤ maxControl := by
  have hcap : maxControl = 1536 := rfl
  have hcount : maxMembers = 8 := rfl
  cases c with
  | bridged control => exact Control.length_encode_le h
  | roomShare handle members =>
    have hmembers : members.length ≤ maxMembers := h
    simp only [encode, List.length_append, List.length_singleton, length_shareBytes]
    omega
  | roomShareSigned handle members sharer word =>
    have hmembers : members.length ≤ maxMembers := h.1
    have hword := CallWord.length_encode_le (w := ⟨word.issued, word.credential, word.sig⟩) h.2
    simp only [encode, List.length_append, List.length_singleton, length_shareBytes,
      Bytes32.length_toBytes, RoomWord.encode]
    omega

theorem Within.mono {short long : Nat} (h : c.Within short) (hle : short ≤ long) :
    c.Within long := by
  cases c with
  | bridged control => exact Control.Within.mono h hle
  | roomShare | roomShareSigned => exact h

theorem decode_encode (h : c.Within maxDomain) : decode c.encode = .ok c :=
  decode_eq_ok.mpr ⟨rfl, h.mono (by decide)⟩

theorem length_encode_pos (h : c.Within maxDomain) : 0 < c.encode.length := by
  have hdecode := decode_encode h
  cases henc : c.encode with
  | nil =>
    have hnil : decode [] = .error (.malformed "empty relay control frame") := rfl
    rw [henc, hnil] at hdecode
    cases hdecode
  | cons x rest => simp

end LinkControl

/-- The reader takes a framed control off the front of its stream, and goes on behind it. -/
theorem controlReader_frame {c : LinkControl} {rest : Bytes} (h : c.Within maxDomain) :
    controlReader (c.frame ++ rest) = c :: controlReader rest := by
  have hcap := LinkControl.length_encode_le h
  have hpos := LinkControl.length_encode_pos h
  unfold maxControl at hcap
  have hwhole : c.frame ++ rest = beBytes 4 c.encode.length ++ (c.encode ++ rest) := by
    rw [LinkControl.frame, List.append_assoc]
  have hstands := stands_self (w := c.frame ++ rest)
  rw [hwhole, stands_append, stands_append, stands_len32 (by omega), beBytes_length, Nat.zero_add,
    ← hwhole] at hstands
  obtain ⟨⟨-, hn⟩, hbody, -⟩ := hstands
  have hlen := hbody.length
  have hslice := hbody.slice
  have hdrop : (c.frame ++ rest).drop (4 + c.encode.length) = rest := by
    rw [hwhole, ← List.append_assoc]
    exact List.drop_left' (by rw [List.length_append, beBytes_length])
  rw [controlReader, hn, lengthPrefix, hslice, LinkControl.decode_encode h, hdrop, if_neg]
  unfold maxControl
  omega

theorem controlReader_frames (cs : List LinkControl) (rest : Bytes)
    (h : ∀ c ∈ cs, c.Within maxDomain) :
    controlReader (cs.flatMap LinkControl.frame ++ rest) = cs ++ controlReader rest := by
  induction cs with
  | nil => rfl
  | cons c cs ih =>
    rw [List.forall_mem_cons] at h
    rw [List.flatMap_cons, List.append_assoc, controlReader_frame h.1, ih h.2, List.cons_append]

/-- Every control within the caps is read back from its bytes, which fit in a frame, and a link's
reader takes from the controls framed one after another exactly those. -/
theorem controls_cross_link :
    (∀ c : LinkControl, c.Within maxDomain →
      LinkControl.decode c.encode = .ok c ∧ c.encode.length ≤ maxControl) ∧
    ∀ cs : List LinkControl, (∀ c ∈ cs, c.Within maxDomain) →
      controlReader (cs.flatMap LinkControl.frame) = cs := by
  refine ⟨fun c h => ⟨LinkControl.decode_encode h, LinkControl.length_encode_le h⟩, fun cs h => ?_⟩
  have hrun := controlReader_frames cs [] h
  have hnil : controlReader [] = [] := by simp [controlReader, lengthPrefix]
  rwa [hnil, List.append_nil, List.append_nil] at hrun

def crossing : List LinkControl :=
  [.bridged (.invite 7 1 2 3 "squic.org" (some ("bob@trunk.exchange", ⟨5, none, 9⟩))),
    .roomShareSigned 3 [⟨1, 2, 0⟩] 1 ⟨99, some ⟨1, 2, scopeChat, 0, 1, 4⟩, 8⟩,
    .bridged (.ringing 7)]

theorem crossing_crosses : controlReader (crossing.flatMap LinkControl.frame) = crossing := by
  refine controls_cross_link.2 crossing fun c hc => ?_
  have hdomain : (textBytes "squic.org").length ≤ maxDomain := by decide +kernel
  have htarget : (textBytes "bob@trunk.exchange").length < 256 := by decide +kernel
  have hscope : (textBytes scopeChat).length ≤ maxScope := by decide +kernel
  simp only [crossing, List.mem_cons, List.not_mem_nil, or_false] at hc
  obtain rfl | rfl | rfl := hc
  · refine ⟨hdomain, fun signed hsigned => ?_⟩
    cases hsigned
    exact ⟨htarget, fun c hc => by cases hc⟩
  · refine ⟨by decide, fun c hc => ?_⟩
    cases hc
    exact hscope
  · trivial

end
end Sqex.Relay
