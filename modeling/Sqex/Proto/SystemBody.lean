import Mathlib.Tactic.Ring
import Sqex.Proto.Channel

/-! The round trip of a system entry's body: what is encoded is decoded again, where the
event is one this version knows. -/
namespace Sqex

theorem beNat_beBytes (n b : Nat) : beNat (beBytes n b) = b % 256 ^ n := by
  have hfold : ∀ (n acc : Nat), (beBytes n b).foldl (fun n b => n * 256 + b.toNat) acc =
      acc * 256 ^ n + b % 256 ^ n := by
    intro n
    induction n with
    | zero => intro acc; simp [beBytes, Nat.mod_one]
    | succ n ih =>
      intro acc
      have hshift : b >>> (8 * n) = b / 256 ^ n := by
        rw [Nat.shiftRight_eq_div_pow, Nat.pow_mul]
      rw [beBytes, List.foldl_cons, ih, hshift, Nat.mod_pow_succ, Nat.pow_succ]
      have hbyte : (UInt8.ofNat (b / 256 ^ n)).toNat = b / 256 ^ n % 256 := by
        simp
      rw [hbyte]
      ring
  simpa [beNat] using hfold n 0

theorem natAt_append (a x c : Bytes) : natAt (a ++ (x ++ c)) a.length x.length = beNat x := by
  simp [natAt]

theorem natAt_skip {a rest : Bytes} {start n : Nat} (h : a.length ≤ start) :
    natAt (a ++ rest) start n = natAt rest (start - a.length) n := by
  rw [natAt, natAt, List.drop_append, List.drop_of_length_le h, List.nil_append]

theorem natAt_first {x c : Bytes} {n : Nat} (h : x.length = n) : natAt (x ++ c) 0 n = beNat x := by
  subst h
  simp [natAt]

@[simp] theorem Bytes32.length_toBytes (b : Bytes32) : (Bytes32.toBytes b).length = 32 :=
  beBytes_length 32 b.toNat

@[simp] theorem Bytes64.length_toBytes (b : Bytes64) : (Bytes64.toBytes b).length = 64 :=
  beBytes_length 64 b.toNat

/-- A word written out byte by byte and read back. -/
theorem ofNat_beBytes (n : Nat) (b : BitVec (8 * n)) :
    BitVec.ofNat (8 * n) (beNat (beBytes n b.toNat)) = b := by
  have hpow : 256 ^ n = 2 ^ (8 * n) := by rw [Nat.pow_mul]
  rw [beNat_beBytes, hpow, Nat.mod_eq_of_lt b.isLt, BitVec.ofNat_toNat, BitVec.setWidth_eq]

theorem Bytes32.ofNat_toBytes (b : Bytes32) : BitVec.ofNat 256 (beNat (Bytes32.toBytes b)) = b :=
  ofNat_beBytes 32 b

theorem Bytes64.ofNat_toBytes (b : Bytes64) : BitVec.ofNat 512 (beNat (Bytes64.toBytes b)) = b :=
  ofNat_beBytes 64 b

theorem UInt64.ofNat_beBytes (n : UInt64) : UInt64.ofNat (beNat (beBytes 8 n.toNat)) = n := by
  rw [beNat_beBytes]
  apply UInt64.toNat.inj
  have hlt := n.toNat_lt
  have hpow : 256 ^ 8 = 2 ^ (8 * 8) := by rw [Nat.pow_mul]
  rw [hpow, Nat.mod_eq_of_lt hlt]
  simp

theorem UInt32.ofNat_beBytes (n : UInt32) : UInt32.ofNat (beNat (beBytes 4 n.toNat)) = n := by
  have hlt := n.toNat_lt
  have hpow : 256 ^ 4 = 2 ^ 32 := rfl
  rw [beNat_beBytes, hpow, Nat.mod_eq_of_lt hlt]
  simp

theorem System.encode_length (s : System) : s.encode.length = systemLen := by
  simp [System.encode, systemLen, beBytes_length]

theorem System.decode_encode {s : System} (hevent : s.event ≠ 0 ∧ s.event ≤ Event.unmuted) :
    System.decode s.encode = .ok (some s) := by
  have hat : ∀ (a x c : Bytes) (start n : Nat), s.encode = a ++ (x ++ c) → a.length = start →
      x.length = n → natAt s.encode start n = beNat x := by
    intro a x c start n hsplit ha hx
    rw [hsplit, ← ha, ← hx, natAt_append]
  have hknown : ¬ (s.event = 0 ∨ s.event > Event.unmuted) := by
    rintro (h | h)
    · exact hevent.1 h
    · exact absurd hevent.2 (UInt8.not_le.mpr h)
  have hhead : s.encode.headD 0 = s.event := by simp [System.encode]
  have hsubject := hat [s.event] (Bytes32.toBytes s.subject) _ 1 32
    (by simp [System.encode]; rfl) rfl (by simp)
  have hactor := hat (s.event :: Bytes32.toBytes s.subject) (Bytes32.toBytes s.actor) _ 33 32
    (by simp [System.encode]; rfl) (by simp) (by simp)
  have hdevice := hat (s.event :: Bytes32.toBytes s.subject ++ Bytes32.toBytes s.actor)
    (Bytes32.toBytes s.actorDevice) _ 65 32 (by simp [System.encode]; rfl) (by simp) (by simp)
  have hchain := hat (s.event :: Bytes32.toBytes s.subject ++ Bytes32.toBytes s.actor ++
    Bytes32.toBytes s.actorDevice) (beBytes 8 s.chainSeq.toNat) _ 97 8
    (by simp [System.encode]; rfl) (by simp) (beBytes_length _ _)
  have hprev := hat (s.event :: Bytes32.toBytes s.subject ++ Bytes32.toBytes s.actor ++
    Bytes32.toBytes s.actorDevice ++ beBytes 8 s.chainSeq.toNat) (Bytes32.toBytes s.prev) _ 105 32
    (by simp [System.encode]; rfl) (by simp [beBytes_length]) (by simp)
  have hsig := hat (s.event :: Bytes32.toBytes s.subject ++ Bytes32.toBytes s.actor ++
    Bytes32.toBytes s.actorDevice ++ beBytes 8 s.chainSeq.toNat ++ Bytes32.toBytes s.prev)
    (Bytes64.toBytes s.sig) [] 137 64
    (by simp [System.encode]) (by simp [beBytes_length]) (by simp)
  simp only [System.decode, s.encode_length, ne_eq, not_true_eq_false, if_false, hhead, hknown,
    hsubject, hactor, hdevice, hchain, hprev, hsig, Bytes32.ofNat_toBytes, Bytes64.ofNat_toBytes,
    UInt64.ofNat_beBytes]

end Sqex
