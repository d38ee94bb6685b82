import Mathlib.Data.Nat.Digits.Lemmas

/-! Numbers written in the letters of an alphabet, most significant first. Zero is written with no
letter at all. -/
namespace Sqex.Numerals
variable {α : Type*}

def write (alphabet : List α) (zero : α) (n : Nat) : List α :=
  ((Nat.digits alphabet.length n).map fun d => alphabet.getD d zero).reverse

def read [DecidableEq α] (alphabet cs : List α) : Option Nat :=
  if ∀ c ∈ cs, c ∈ alphabet then
    some (Nat.ofDigits alphabet.length (cs.reverse.map fun c => alphabet.idxOf c))
  else none

variable {alphabet : List α} {zero : α} {n d : Nat}

theorem getD_digit (zero : α) (hbase : 1 < alphabet.length) (hd : d ∈ Nat.digits alphabet.length n) :
    ∃ hlt : d < alphabet.length, alphabet.getD d zero = alphabet[d] := by
  have hlt : d < alphabet.length := Nat.digits_lt_base hbase hd
  exact ⟨hlt, by simp [List.getD, hlt]⟩

theorem mem_of_mem_write (hbase : 1 < alphabet.length) {c : α}
    (hc : c ∈ write alphabet zero n) : c ∈ alphabet := by
  rw [write, List.mem_reverse, List.mem_map] at hc
  obtain ⟨d, hd, rfl⟩ := hc
  obtain ⟨hlt, hletter⟩ := getD_digit zero hbase hd
  rw [hletter]
  exact List.getElem_mem hlt

theorem read_write [DecidableEq α] (hnodup : alphabet.Nodup) (hbase : 1 < alphabet.length) :
    read alphabet (write alphabet zero n) = some n := by
  have hdigits : (write alphabet zero n).reverse.map (fun c => alphabet.idxOf c) =
      Nat.digits alphabet.length n := by
    rw [write, List.reverse_reverse, List.map_map]
    refine (List.map_congr_left fun d hd => ?_).trans (List.map_id _)
    obtain ⟨hlt, hletter⟩ := getD_digit zero hbase hd
    rw [Function.comp_apply, hletter, hnodup.idxOf_getElem d hlt]
    rfl
  rw [read, if_pos fun c hc => mem_of_mem_write hbase hc, hdigits, Nat.ofDigits_digits]

theorem head?_write (hnodup : alphabet.Nodup) (hbase : 1 < alphabet.length) :
    (write alphabet zero n).head? ≠ alphabet.head? := by
  have hfirst : alphabet.head? = some alphabet[0] := by
    rw [List.head?_eq_getElem?, List.getElem?_eq_getElem (by omega)]
  rw [write, List.head?_reverse, List.getLast?_map, hfirst]
  by_cases hn : n = 0
  · simp [hn]
  · have hne := Nat.digits_ne_nil_iff_ne_zero (b := alphabet.length).mpr hn
    obtain ⟨hlt, hletter⟩ := getD_digit zero hbase (List.getLast_mem hne)
    rw [List.getLast?_eq_some_getLast hne, Option.map_some, hletter]
    intro hsame
    have hzero := (hnodup.getElem_inj_iff).mp (Option.some.inj hsame)
    exact Nat.getLast_digit_ne_zero _ hn hzero

end Sqex.Numerals
