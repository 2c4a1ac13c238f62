import Mathlib.Data.Nat.Digits.Lemmas

/-! Numbers in decimal ascii, as `printf` writes and `scanf` reads them. -/
namespace Unitas.Decimal

def isDigit (c : UInt8) : Bool := 48 ≤ c && c ≤ 57

/-- The digits of a number, the highest first. -/
def decimal (n : ℕ) : List UInt8 :=
  if n = 0 then [48] else (Nat.digits 10 n).reverse.map fun d => UInt8.ofNat (48 + d)

/-- The value of some digits. -/
def decValue (ds : List UInt8) : ℕ := ds.foldl (fun v c => 10 * v + (c.toNat - 48)) 0

theorem toNat_digit {d : ℕ} (h : d < 10) : (UInt8.ofNat (48 + d)).toNat = 48 + d := by
  rw [UInt8.toNat_ofNat']
  omega

theorem decimal_isDigit (n : ℕ) : ∀ c ∈ decimal n, isDigit c = true := by
  unfold decimal
  split_ifs with hzero
  · intro c hc
    rw [List.mem_singleton.mp hc]
    decide
  · intro c hc
    obtain ⟨d, hd, rfl⟩ := List.mem_map.mp hc
    have hlt := Nat.digits_lt_base (by decide) (List.mem_reverse.mp hd)
    have hval := toNat_digit hlt
    simp only [isDigit, Bool.and_eq_true, decide_eq_true_eq, UInt8.le_iff_toNat_le, hval]
    exact ⟨Nat.le_add_right _ _, by change 48 + d ≤ 57; omega⟩

theorem decimal_ne_nil (n : ℕ) : decimal n ≠ [] := by
  unfold decimal
  split_ifs with hzero
  · exact List.cons_ne_nil _ _
  · rw [Ne, List.map_eq_nil_iff, List.reverse_eq_nil_iff]
    exact Nat.digits_ne_nil_iff_ne_zero.mpr hzero

theorem length_decimal_le {n k : ℕ} (hk : 0 < k) (hn : n < 10 ^ k) : (decimal n).length ≤ k := by
  unfold decimal
  split_ifs
  · exact hk
  · rw [List.length_map, List.length_reverse]
    exact (Nat.digits_length_le_iff (by decide) n).mpr hn

theorem decValue_reverse (ds : List ℕ) (h : ∀ d ∈ ds, d < 10) :
    decValue (ds.reverse.map fun d => UInt8.ofNat (48 + d)) = Nat.ofDigits 10 ds := by
  induction ds with
  | nil => rfl
  | cons d ds ih =>
    have hval := toNat_digit (h d List.mem_cons_self)
    have ih := ih fun e he => h e (List.mem_cons_of_mem d he)
    rw [decValue] at ih ⊢
    rw [List.reverse_cons, List.map_append, List.foldl_append, ih, Nat.ofDigits_cons,
      List.map_singleton, List.foldl_cons, List.foldl_nil, hval]
    omega

@[simp] theorem decValue_decimal (n : ℕ) : decValue (decimal n) = n := by
  unfold decimal
  split_ifs with hzero
  · rw [hzero]
    rfl
  · rw [decValue_reverse _ fun d => Nat.digits_lt_base (by decide), Nat.ofDigits_digits]

/-- Only the number 0 begins with a zero. -/
theorem decimal_eq_cons {n : ℕ} (h : n ≠ 0) :
    ∃ c ds, decimal n = c :: ds ∧ isDigit c = true ∧ c ≠ 48 := by
  have hne : Nat.digits 10 n ≠ [] := Nat.digits_ne_nil_iff_ne_zero.mpr h
  have hlast := Nat.getLast_digit_ne_zero 10 h
  obtain ⟨ds, hds⟩ : ∃ ds, (Nat.digits 10 n).reverse = (Nat.digits 10 n).getLast hne :: ds := by
    refine ⟨(Nat.digits 10 n).dropLast.reverse, ?_⟩
    rw [← List.reverse_concat, List.dropLast_append_getLast]
  refine ⟨_, _, by rw [decimal, if_neg h, hds]; rfl, ?_, ?_⟩
  · exact decimal_isDigit n _ (by rw [decimal, if_neg h, hds]; exact List.mem_cons_self)
  · intro h48
    have hlt := Nat.digits_lt_base (by decide) (List.getLast_mem hne)
    have := congrArg UInt8.toNat h48
    rw [toNat_digit hlt] at this
    exact hlast (by simpa using this)

/-- Digits end at the first other character. -/
theorem takeWhile_decimal (n : ℕ) {c : UInt8} (hc : isDigit c = false) (rest : List UInt8) :
    (decimal n ++ c :: rest).takeWhile isDigit = decimal n := by
  rw [List.takeWhile_append_of_pos (decimal_isDigit n), List.takeWhile_cons_of_neg (by simp [hc]),
    List.append_nil]

theorem dropWhile_decimal (n : ℕ) {c : UInt8} (hc : isDigit c = false) (rest : List UInt8) :
    (decimal n ++ c :: rest).dropWhile isDigit = c :: rest := by
  rw [List.dropWhile_append_of_pos (decimal_isDigit n), List.dropWhile_cons_of_neg (by simp [hc])]

end Unitas.Decimal
