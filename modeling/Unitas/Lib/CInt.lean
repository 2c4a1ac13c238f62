import Mathlib.Data.Int.ModEq
import Mathlib.Tactic.Ring

/-! Fixed-width C integers as integers reduced to their range. Values stay in `ℤ`;
each conversion is one reduction, so a chain of them collapses modulo the width. -/
namespace Unitas.CInt

/-- Conversion to a `bits`-wide two's complement signed integer. -/
def wrap (bits : ℕ) (x : ℤ) : ℤ := x.bmod (2 ^ bits)

/-- Conversion to a `bits`-wide unsigned integer. -/
def uwrap (bits : ℕ) (x : ℤ) : ℤ := x % 2 ^ bits

/-- Conversion to a signed `char`. -/
def char (x : ℤ) : ℤ := wrap 8 x

/-- `x & 0377` on a two's complement value of any width. -/
def mask (x : ℤ) : ℤ := x % 256

@[simp] theorem mask_nonneg (x : ℤ) : 0 ≤ mask x := Int.emod_nonneg _ (by decide)

@[simp] theorem mask_lt (x : ℤ) : mask x < 256 := Int.emod_lt_of_pos _ (by decide)

theorem char_def (x : ℤ) : char x = if x % 256 < 128 then x % 256 else x % 256 - 256 := by
  simp [char, wrap, Int.bmod_def]

@[simp] theorem mask_char (x : ℤ) : mask (char x) = mask x := by
  simp only [char_def, mask]
  split_ifs <;> omega

@[simp] theorem char_mask (x : ℤ) : char (mask x) = char x := by
  simp [char_def, mask]

theorem mask_add_left (x y : ℤ) : mask (mask x + y) = mask (x + y) := by
  simp only [mask]; omega

@[simp] theorem mask_char_add (x y : ℤ) : mask (char x + y) = mask (x + y) := by
  rw [← mask_add_left, mask_char, mask_add_left]

theorem mask_of_lt {x : ℤ} (h0 : 0 ≤ x) (h1 : x < 256) : mask x = x :=
  Int.emod_eq_of_lt h0 h1

theorem char_eq_zero_iff (x : ℤ) : char x = 0 ↔ mask x = 0 := by
  simp only [char_def, mask]
  split_ifs <;> omega

end Unitas.CInt
