import Mathlib.Data.Nat.Bitwise
import Mathlib.Logic.Function.Basic
import Mathlib.Tactic.Ring

/-! A table of 32-bit words as a row of bits, the highest bit of each word first. -/
namespace Unitas.WordBits

def bit (t : ℕ → BitVec 32) (i : ℕ) : Bool := (t (i / 32)).getMsbD (i % 32)

/-- The number that `l` bits from `off` make. -/
def window (t : ℕ → BitVec 32) (off : ℕ) : ℕ → ℕ
  | 0 => 0
  | l + 1 => 2 * window t off l + (bit t (off + l)).toNat

variable {t t' : ℕ → BitVec 32} {off l : ℕ}

theorem window_lt (t : ℕ → BitVec 32) (off l : ℕ) : window t off l < 2 ^ l := by
  induction l with
  | zero => exact Nat.one_pos
  | succ l ih =>
    have := Bool.toNat_le (bit t (off + l))
    rw [window, pow_succ]
    omega

theorem window_add (t : ℕ → BitVec 32) (off a b : ℕ) :
    window t off (a + b) = window t off a * 2 ^ b + window t (off + a) b := by
  induction b with
  | zero => simp [window]
  | succ b ih =>
    rw [← Nat.add_assoc, window, window, ih, Nat.add_assoc off]
    ring

/-- The first bits of a window. -/
theorem window_div (t : ℕ → BitVec 32) (off a b : ℕ) :
    window t off (a + b) / 2 ^ b = window t off a := by
  have hpos : 0 < 2 ^ b := Nat.two_pow_pos b
  rw [window_add, Nat.mul_comm, Nat.mul_add_div hpos, Nat.div_eq_of_lt (window_lt t _ b), Nat.add_zero]

theorem window_congr (h : ∀ i, off ≤ i → i < off + l → bit t i = bit t' i) :
    window t off l = window t' off l := by
  induction l with
  | zero => rfl
  | succ l ih =>
    rw [window, window, ih fun i h1 h2 => h i h1 (by omega), h (off + l) (by omega) (by omega)]

theorem window_eq_zero (h : ∀ i, off ≤ i → i < off + l → bit t i = false) :
    window t off l = 0 := by
  induction l with
  | zero => rfl
  | succ l ih =>
    rw [window, ih fun i h1 h2 => h i h1 (by omega), h (off + l) (by omega) (by omega)]
    rfl

theorem testBit_window (t : ℕ → BitVec 32) (off : ℕ) {l j : ℕ} (hj : j < l) :
    (window t off l).testBit (l - 1 - j) = bit t (off + j) := by
  induction l with
  | zero => omega
  | succ l ih =>
    rw [window]
    by_cases hjl : j = l
    · subst hjl
      rw [show j + 1 - 1 - j = 0 by omega, Nat.testBit_zero]
      cases bit t (off + j) <;> simp
    · rw [← ih (by omega), show l + 1 - 1 - j = (l - 1 - j) + 1 by omega, Nat.testBit_succ]
      congr 1
      have := Bool.toNat_le (bit t (off + l))
      omega

/-- A number with the bits of a window is the window. -/
theorem eq_window {x : ℕ} (hx : x < 2 ^ l)
    (h : ∀ j, j < l → x.testBit (l - 1 - j) = bit t (off + j)) : x = window t off l := by
  refine Nat.eq_of_testBit_eq fun i => ?_
  by_cases hi : i < l
  · have := h (l - 1 - i) (by omega)
    rw [← testBit_window t off (l := l) (j := l - 1 - i) (by omega),
      show l - 1 - (l - 1 - i) = i by omega] at this
    exact this
  · have hpow : 2 ^ l ≤ 2 ^ i := Nat.pow_le_pow_right (by decide) (by omega)
    have hw := window_lt t off l
    rw [Nat.testBit_lt_two_pow (lt_of_lt_of_le hx hpow), Nat.testBit_lt_two_pow (lt_of_lt_of_le hw hpow)]

/-- The bits of `w` are put in where `bp` bits of word `wp` are left, as far as this word goes. -/
theorem bit_or (t : ℕ → BitVec 32) (w : BitVec 32) {wp bp : ℕ} (hbp : bp ≤ 32) (j : ℕ) :
    bit (Function.update t wp (t wp ||| w >>> (32 - bp))) j =
      (bit t j || (decide (32 * wp + (32 - bp) ≤ j ∧ j < 32 * wp + 32) &&
        w.getMsbD (j - (32 * wp + (32 - bp))))) := by
  unfold bit
  by_cases hj : j / 32 = wp
  · rw [hj, Function.update_self, BitVec.getMsbD_or, BitVec.getMsbD_ushiftRight]
    congr 1
    by_cases hle : 32 * wp + (32 - bp) ≤ j
    · have h1 : ¬ j % 32 < 32 - bp := by omega
      have h2 : j % 32 < 32 := by omega
      have h3 : 32 * wp + (32 - bp) ≤ j ∧ j < 32 * wp + 32 := ⟨hle, by omega⟩
      simp only [h1, h2, h3, decide_true, decide_false, Bool.not_false, Bool.true_and]
      congr 1
      omega
    · have h1 : j % 32 < 32 - bp := by omega
      simp [h1, hle]
  · rw [Function.update_of_ne hj]
    have : ¬ (32 * wp + (32 - bp) ≤ j ∧ j < 32 * wp + 32) := by omega
    simp [this]

/-- The word that begins where `bp` bits of word `wp` are left. -/
theorem getMsbD_fetch (t : ℕ → BitVec 32) {wp bp : ℕ} (h1 : 1 ≤ bp) (hbp : bp ≤ 32) {j : ℕ}
    (hj : j < 32) :
    (t wp <<< (32 - bp) ||| (if bp < 32 then t (wp + 1) >>> bp else 0)).getMsbD j =
      bit t (32 * wp + (32 - bp) + j) := by
  unfold bit
  rw [BitVec.getMsbD_or, BitVec.getMsbD_shiftLeft]
  by_cases hlt : j < bp
  · have hdiv : (32 * wp + (32 - bp) + j) / 32 = wp := by omega
    have hmod : (32 * wp + (32 - bp) + j) % 32 = j + (32 - bp) := by omega
    rw [hdiv, hmod]
    split
    · simp [BitVec.getMsbD_ushiftRight, hlt]
    · simp
  · have hdiv : (32 * wp + (32 - bp) + j) / 32 = wp + 1 := by omega
    have hmod : (32 * wp + (32 - bp) + j) % 32 = j - bp := by omega
    rw [hdiv, hmod, if_pos (by omega), BitVec.getMsbD_ushiftRight, BitVec.getMsbD_of_ge _ _ (by omega)]
    simp [hlt, hj]

/-- The first 31 bits of this word are a window. -/
theorem toNat_ushiftRight_one {w : BitVec 32} (h : ∀ j, j < 32 → w.getMsbD j = bit t (off + j)) :
    (w >>> 1).toNat = window t off 31 := by
  refine eq_window ?_ fun j hj => ?_
  · rw [BitVec.toNat_ushiftRight, Nat.shiftRight_eq_div_pow]
    have := w.isLt
    omega
  · rw [← h j (by omega), BitVec.getMsbD, BitVec.testBit_toNat, BitVec.getLsbD_ushiftRight]
    have : j < 32 := by omega
    simp only [this, decide_true, Bool.true_and]
    congr 1
    omega

end Unitas.WordBits
