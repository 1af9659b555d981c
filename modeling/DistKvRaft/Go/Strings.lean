import Mathlib.Data.List.Basic
import Mathlib.Data.Fin.Basic
import Mathlib.Order.Fin.Basic
import Mathlib.Data.List.Lex
import Mathlib.Tactic.Common

/-!
# Go strings as byte sequences

A Go string is an arbitrary sequence of bytes; nothing requires it to be UTF-8.  Strings, file
names and file contents are all modelled by the same type, and the order of `List` is the
byte-wise lexicographic order of Go's string comparison.  `strconv.Itoa` is only applied to
non-negative integers in the modelled code.
-/

namespace DistKvRaft.Go

/-- One byte. -/
abbrev Byte := Fin 256

/-- There are bytes, so that they have numerals. -/
instance byteNeZero : @NeZero ℕ Zero.ofOfNat0 256 := ⟨by decide⟩

/-- The byte that fills a gap in a file. -/
instance byteZero : Zero Byte := ⟨Fin.ofNat 256 0⟩

/-- A Go string: any byte sequence, valid UTF-8 or not. -/
abbrev GoString := List Byte

/-- The byte of an ASCII character. -/
def asciiByte (c : Char) : Byte := Fin.ofNat 256 c.toNat

/-- The bytes of an ASCII string literal. -/
def ascii (s : String) : GoString := s.toList.map asciiByte

/-- `strconv.Itoa` on a non-negative integer: its decimal digits. -/
def itoa (n : ℕ) : GoString := (Nat.toDigits 10 n).map asciiByte

theorem toNat_asciiByte {c : Char} (h : c.toNat < 256) : (asciiByte c).val = c.toNat :=
  Nat.mod_eq_of_lt h

theorem toNat_digit {c : Char} (h : c.isDigit = true) : 48 ≤ c.toNat ∧ c.toNat ≤ 57 := by
  simp only [Char.isDigit, Bool.and_eq_true, decide_eq_true_eq, UInt32.le_iff_toNat_le] at h
  exact h

/-- Every byte of a decimal numeral is a digit. -/
theorem itoa_digit {n : ℕ} {b : Byte} (h : b ∈ itoa n) : 48 ≤ b.val ∧ b.val ≤ 57 := by
  obtain ⟨c, hc, rfl⟩ := List.mem_map.mp h
  have hrange := toNat_digit (Nat.isDigit_of_mem_toDigits (by decide) (by decide) hc)
  rw [toNat_asciiByte (by omega)]
  exact hrange

theorem itoa_ne_nil (n : ℕ) : itoa n ≠ [] := by
  simp [itoa, Nat.toDigits_ne_nil]

theorem map_ofNat_itoa (n : ℕ) :
    (itoa n).map (fun b ↦ Char.ofNat b.val) = Nat.toDigits 10 n := by
  rw [itoa, List.map_map]
  refine (List.map_congr_left fun c hc ↦ ?_).trans (List.map_id _)
  have hrange := toNat_digit (Nat.isDigit_of_mem_toDigits (by decide) (by decide) hc)
  simp only [Function.comp_apply, id_eq]
  rw [toNat_asciiByte (by omega), Char.ofNat_toNat]

/-- Distinct integers have distinct numerals. -/
theorem itoa_injective : Function.Injective itoa := by
  intro m n h
  have hdigits := congrArg (List.map fun b ↦ Char.ofNat b.val) h
  rw [map_ofNat_itoa, map_ofNat_itoa] at hdigits
  have hval := congrArg (fun cs ↦ Nat.ofDigitChars 10 cs 0) hdigits
  simpa only [Nat.ofDigitChars_ten_toDigits] using hval

theorem takeWhile_itoa (n : ℕ) {sep : Byte} (xs : GoString) (hsep : sep.val < 48) :
    (itoa n ++ sep :: xs).takeWhile (fun b ↦ 48 ≤ b.val) = itoa n := by
  rw [List.takeWhile_append_of_pos fun b hb ↦ by simpa using (itoa_digit hb).1]
  simp [Nat.not_le.mpr hsep]

/-- A numeral followed by a separator that is no digit is read back unambiguously. -/
theorem itoa_append_inj {m n : ℕ} {sep : Byte} {xs ys : GoString} (hsep : sep.val < 48)
    (h : itoa m ++ sep :: xs = itoa n ++ sep :: ys) : m = n ∧ xs = ys := by
  have hprefix := congrArg (List.takeWhile fun b ↦ 48 ≤ b.val) h
  rw [takeWhile_itoa m xs hsep, takeWhile_itoa n ys hsep] at hprefix
  obtain rfl := itoa_injective hprefix
  have hrest := List.append_cancel_left h
  exact ⟨rfl, (List.cons.inj hrest).2⟩

end DistKvRaft.Go
