import Sqex.Lib.Offsets
import Sqex.Proto.SystemBody

/-! The fields a message is read by, at their offsets, and what stands in the bytes where
one reads as a value. -/
namespace Sqex
open Offsets

section
variable (bs b : Bytes) (o : Nat)

/-- A byte as a message about it shows it. -/
def hex (b : UInt8) : String := "0x" ++ String.ofList (Nat.toDigits 16 b.toNat)

def byteAt : UInt8 := b.getD o 0
def u16At : UInt16 := UInt16.ofNat (natAt b o 2)
def u32At : UInt32 := UInt32.ofNat (natAt b o 4)
def u64At : UInt64 := UInt64.ofNat (natAt b o 8)
def keyAt : Bytes32 := BitVec.ofNat 256 (natAt b o 32)
def sigAt : Bytes64 := BitVec.ofNat 512 (natAt b o 64)

def malformedIf (c : Prop) [Decidable c] (text : String) : Except Error Unit :=
  if c then .error (.malformed text) else .ok ()

@[simp] theorem malformedIf_eq_ok {c : Prop} [Decidable c] {text : String} {u : Unit} :
    malformedIf c text = .ok u ↔ ¬ c := by
  unfold malformedIf
  split <;> simp [*]

def want (b : Bytes) (n : Nat) (what : String) : Except Error Unit :=
  malformedIf (b.length < n) s!"{what} is {b.length} bytes, want at least {n}"

@[simp] theorem want_eq_ok {b : Bytes} {n : Nat} {what : String} {u : Unit} :
    want b n what = .ok u ↔ n ≤ b.length := by
  rw [want, malformedIf_eq_ok, Nat.not_lt]

def notShort (n : Nat) (what : String) : Except Error Unit :=
  malformedIf (b.length < o + n) s!"{what} cut short"

@[simp] theorem notShort_eq_ok {b : Bytes} {o n : Nat} {what : String} {u : Unit} :
    notShort b o n what = .ok u ↔ o + n ≤ b.length := by
  rw [notShort, malformedIf_eq_ok, Nat.not_lt]

def textBytes (s : String) : Bytes := s.toByteArray.data.toList

def textOr (otherwise : String) : Except Error String :=
  match String.fromUTF8? ⟨b.toArray⟩ with
  | some s => .ok s
  | none => .error (.malformed otherwise)

def utf8 (what : String) : Except Error String := textOr b s!"{what} is not UTF-8"

theorem textOr_eq_ok {b : Bytes} {otherwise s : String} :
    textOr b otherwise = .ok s ↔ b = textBytes s := by
  unfold textOr String.fromUTF8?
  constructor
  · intro h
    split at h
    · next heq =>
      split at heq
      · simp only [Option.some.injEq, Except.ok.injEq] at heq h
        subst heq h
        rfl
      · simp at heq
    · simp at h
  · rintro rfl
    have hvalid : ByteArray.IsValidUTF8 ⟨(textBytes s).toArray⟩ := s.isValidUTF8
    rw [dif_pos hvalid]
    rfl

theorem utf8_eq_ok {b : Bytes} {what s : String} : utf8 b what = .ok s ↔ b = textBytes s :=
  textOr_eq_ok

theorem stands_text {b : Bytes} {o : Nat} {s : String} : Stands b o (textBytes s) ↔
    o + (textBytes s).length ≤ b.length ∧ slice b o (textBytes s).length = textBytes s :=
  stands_iff_slice

theorem beNat_concat (x : UInt8) : beNat (bs ++ [x]) = beNat bs * 256 + x.toNat := by
  simp [beNat]

theorem beNat_lt : beNat bs < 256 ^ bs.length := by
  induction bs using List.reverseRecOn with
  | nil => simp [beNat]
  | append_singleton bs x ih =>
    have hx := x.toNat_lt
    rw [beNat_concat, List.length_append, List.length_singleton, Nat.pow_succ]
    omega

theorem beBytes_succ (n v : Nat) : beBytes (n + 1) v = beBytes n (v / 256) ++ [UInt8.ofNat v] := by
  induction n with
  | zero => simp [beBytes]
  | succ n ih =>
    have hshift : v >>> (8 * (n + 1)) = (v / 256) >>> (8 * n) := by
      rw [Nat.mul_succ, Nat.add_comm, Nat.shiftRight_add, Nat.shiftRight_eq_div_pow v 8]
    rw [beBytes, ih, beBytes, hshift, List.cons_append]

theorem beBytes_beNat : beBytes bs.length (beNat bs) = bs := by
  induction bs using List.reverseRecOn with
  | nil => rfl
  | append_singleton bs x ih =>
    have hx := x.toNat_lt
    have hrest : (beNat bs * 256 + x.toNat) / 256 = beNat bs := by omega
    have hlast : UInt8.ofNat (beNat bs * 256 + x.toNat) = x := by
      apply UInt8.toNat.inj
      rw [UInt8.toNat_ofNat']
      omega
    rw [beNat_concat, List.length_append, List.length_singleton, beBytes_succ, hrest, hlast, ih]

end

/-! What stands where a field reads as a value. -/

section
variable {b : Bytes} {o : Nat}

theorem natAt_lt (b : Bytes) (o n : Nat) : natAt b o n < 256 ^ n := by
  refine Nat.lt_of_lt_of_le (beNat_lt _) (Nat.pow_le_pow_right (by decide) ?_)
  rw [List.length_take]
  exact Nat.min_le_left _ _

theorem stands_be {n v : Nat} :
    Stands b o (beBytes n v) ↔ o + n ≤ b.length ∧ natAt b o n = v % 256 ^ n := by
  rw [stands_iff_slice, beBytes_length]
  refine and_congr_right fun hlen => ?_
  have hslice : (slice b o n).length = n := by
    rw [slice, List.length_take, List.length_drop]
    omega
  have hback := beBytes_beNat (slice b o n)
  have hback' := beBytes_beNat (beBytes n v)
  rw [hslice] at hback
  rw [beBytes_length, beNat_beBytes] at hback'
  constructor
  · intro heq
    rw [natAt, ← slice, heq, beNat_beBytes]
  · intro heq
    rw [natAt, ← slice] at heq
    rw [← hback, heq, hback']

theorem stands_byte {x : UInt8} : Stands b o [x] ↔ o + 1 ≤ b.length ∧ byteAt b o = x := by
  rw [stands_iff_slice, List.length_singleton]
  refine and_congr_right fun hlen => ?_
  have ho : o < b.length := hlen
  have hslice : slice b o 1 = [byteAt b o] := by
    have hget : b.getD o 0 = b[o] := by simp [List.getD, ho]
    rw [slice, byteAt, hget, List.drop_eq_getElem_cons ho, List.take_succ_cons, List.take_zero]
  rw [hslice, List.cons.injEq]
  simp

theorem stands_u16 {n : UInt16} :
    Stands b o (beBytes 2 n.toNat) ↔ o + 2 ≤ b.length ∧ u16At b o = n := by
  have hread := natAt_lt b o 2
  have hlt := n.toNat_lt
  have hpow : 256 ^ 2 = 2 ^ 16 := rfl
  rw [stands_be, u16At, ← UInt16.toNat_inj, UInt16.toNat_ofNat', hpow, Nat.mod_eq_of_lt hlt,
    Nat.mod_eq_of_lt (hpow ▸ hread)]

theorem stands_u32 {n : UInt32} :
    Stands b o (beBytes 4 n.toNat) ↔ o + 4 ≤ b.length ∧ u32At b o = n := by
  have hread := natAt_lt b o 4
  have hlt := n.toNat_lt
  have hpow : 256 ^ 4 = 2 ^ 32 := rfl
  rw [stands_be, u32At, ← UInt32.toNat_inj, UInt32.toNat_ofNat', hpow, Nat.mod_eq_of_lt hlt,
    Nat.mod_eq_of_lt (hpow ▸ hread)]

theorem stands_u64 {n : UInt64} :
    Stands b o (beBytes 8 n.toNat) ↔ o + 8 ≤ b.length ∧ u64At b o = n := by
  have hread := natAt_lt b o 8
  have hlt := n.toNat_lt
  have hpow : 256 ^ 8 = 2 ^ 64 := rfl
  rw [stands_be, u64At, ← UInt64.toNat_inj, UInt64.toNat_ofNat', hpow, Nat.mod_eq_of_lt hlt,
    Nat.mod_eq_of_lt (hpow ▸ hread)]

theorem stands_len8 {len : Nat} (h : len < 256) :
    Stands b o [UInt8.ofNat len] ↔ o + 1 ≤ b.length ∧ (byteAt b o).toNat = len := by
  rw [stands_byte, ← UInt8.toNat_inj, UInt8.toNat_ofNat', Nat.mod_eq_of_lt h]

theorem stands_len16 {len : Nat} (h : len < 2 ^ 16) :
    Stands b o (beBytes 2 len) ↔ o + 2 ≤ b.length ∧ (u16At b o).toNat = len := by
  have hlen : (UInt16.ofNat len).toNat = len := by rw [UInt16.toNat_ofNat', Nat.mod_eq_of_lt h]
  have hstands := stands_u16 (b := b) (o := o) (n := UInt16.ofNat len)
  rwa [hlen, ← UInt16.toNat_inj, hlen] at hstands

theorem stands_len32 {len : Nat} (h : len < 2 ^ 32) :
    Stands b o (beBytes 4 len) ↔ o + 4 ≤ b.length ∧ (u32At b o).toNat = len := by
  have hlen : (UInt32.ofNat len).toNat = len := by rw [UInt32.toNat_ofNat', Nat.mod_eq_of_lt h]
  have hstands := stands_u32 (b := b) (o := o) (n := UInt32.ofNat len)
  rwa [hlen, ← UInt32.toNat_inj, hlen] at hstands

theorem stands_word {n : Nat} {k : BitVec (8 * n)} :
    Stands b o (beBytes n k.toNat) ↔ o + n ≤ b.length ∧ BitVec.ofNat (8 * n) (natAt b o n) = k := by
  have hread := natAt_lt b o n
  have hpow : 256 ^ n = 2 ^ (8 * n) := by rw [Nat.pow_mul]
  rw [stands_be, ← BitVec.toNat_inj, BitVec.toNat_ofNat, hpow, Nat.mod_eq_of_lt k.isLt,
    Nat.mod_eq_of_lt (hpow ▸ hread)]

theorem stands_key {k : Bytes32} :
    Stands b o (Bytes32.toBytes k) ↔ o + 32 ≤ b.length ∧ keyAt b o = k := stands_word (n := 32)

theorem stands_sig {s : Bytes64} :
    Stands b o (Bytes64.toBytes s) ↔ o + 64 ≤ b.length ∧ sigAt b o = s := stands_word (n := 64)

variable {w : Bytes}

theorem stands_byte_append {x : UInt8} :
    Stands b o ([x] ++ w) ↔ byteAt b o = x ∧ Stands b (o + 1) w :=
  stands_field rfl stands_byte

theorem stands_byte_cons {x : UInt8} :
    Stands b o (x :: w) ↔ byteAt b o = x ∧ Stands b (o + 1) w := stands_byte_append

theorem stands_u16_append {n : UInt16} :
    Stands b o (beBytes 2 n.toNat ++ w) ↔ u16At b o = n ∧ Stands b (o + 2) w :=
  stands_field (beBytes_length ..) stands_u16

theorem stands_u32_append {n : UInt32} :
    Stands b o (beBytes 4 n.toNat ++ w) ↔ u32At b o = n ∧ Stands b (o + 4) w :=
  stands_field (beBytes_length ..) stands_u32

theorem stands_u64_append {n : UInt64} :
    Stands b o (beBytes 8 n.toNat ++ w) ↔ u64At b o = n ∧ Stands b (o + 8) w :=
  stands_field (beBytes_length ..) stands_u64

theorem stands_len8_append {len : Nat} (h : len < 256) :
    Stands b o ([UInt8.ofNat len] ++ w) ↔ (byteAt b o).toNat = len ∧ Stands b (o + 1) w :=
  stands_field rfl (stands_len8 h)

theorem stands_len16_append {len : Nat} (h : len < 2 ^ 16) :
    Stands b o (beBytes 2 len ++ w) ↔ (u16At b o).toNat = len ∧ Stands b (o + 2) w :=
  stands_field (beBytes_length ..) (stands_len16 h)

theorem stands_len32_append {len : Nat} (h : len < 2 ^ 32) :
    Stands b o (beBytes 4 len ++ w) ↔ (u32At b o).toNat = len ∧ Stands b (o + 4) w :=
  stands_field (beBytes_length ..) (stands_len32 h)

theorem stands_key_append {k : Bytes32} :
    Stands b o (Bytes32.toBytes k ++ w) ↔ keyAt b o = k ∧ Stands b (o + 32) w :=
  stands_field (Bytes32.length_toBytes k) stands_key

theorem stands_sig_append {s : Bytes64} :
    Stands b o (Bytes64.toBytes s ++ w) ↔ sigAt b o = s ∧ Stands b (o + 64) w :=
  stands_field (Bytes64.length_toBytes s) stands_sig

theorem stands_part_append {v : Bytes} : Stands b o (v ++ w) ↔
    slice b o v.length = v ∧ Stands b (o + v.length) w :=
  stands_field rfl stands_iff_slice

end
end Sqex
