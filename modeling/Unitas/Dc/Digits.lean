import Mathlib.Data.Nat.Digits.Lemmas
import Unitas.Dc.Exact
import Unitas.Dc.Remainder

/-! `Z` counts the decimal digits of a number from its top byte, or from the top two if it is
negative. -/
namespace Unitas.Dc

open CInt Radix

/-- The count that `Z` starts from, set right by the top digits. -/
def countZ (p : Blk) : ℤ :=
  let n : ℤ := 2 * p.length
  if p = [] then n
  else if back p 0 < 0 then
    let n := n - 2
    if p.length = 1 then n + 1
    else if back p 1 = 0 then n + 1
    else if 90 < back p 1 then n - 1
    else n
  else if back p 0 < 10 then n - 1
  else n

/-- The command `Z`. -/
def commandZ (x : Number) : Number :=
  let n := countZ x.digits
  ⟨if 100 ≤ n then [char (n.tmod 100), char (n.tdiv 100)] else [char n], 0⟩

/-- The decimal digits of a number without its sign and its scale. -/
def decimals (p : Blk) : ℕ := (Nat.digits 10 (value 100 p).natAbs).length

/-- `Z` is right for the number and for the number with its sign changed. -/
def CountLaw (x : Number) : Prop :=
  value 100 (commandZ x).digits = decimals x.digits ∧
    value 100 (commandZ ⟨chsign x.digits, x.scale⟩).digits = decimals x.digits

/-- No 9 and no 99 leads the digits in base 100, unless zeros are all that follows. -/
def Clear (a : ℤ) : Prop :=
  ∀ m : ℕ, ¬ (9 * 100 ^ m < a ∧ a < 10 * 100 ^ m) ∧ ¬ (99 * 100 ^ m < a ∧ a < 100 ^ (m + 1))

/-- A number as the commands leave it on the stack. `z`, `Z` and `X` push zero as one digit, and
`mult` makes of it a zero with as many digits as the other factor has. -/
def OnStack (p : Blk) : Prop := Rep p ∨ ∃ n : ℕ, p = List.replicate (n + 1) 0

section Length

theorem length_digits {v k : ℕ} (hlow : 10 ^ k ≤ v) (hhigh : v < 10 ^ (k + 1)) :
    (Nat.digits 10 v).length = k + 1 := by
  have hne : v ≠ 0 := by
    have : 0 < 10 ^ k := by positivity
    omega
  rw [Nat.length_digits 10 v (by decide) hne, (Nat.log_eq_iff (Or.inr ⟨by decide, hne⟩)).mpr]
  exact ⟨hlow, hhigh⟩

theorem decimals_eq {p : Blk} {k : ℕ} (hlow : 10 ^ k ≤ |value 100 p|)
    (hhigh : |value 100 p| < 10 ^ (k + 1)) : decimals p = k + 1 := by
  rw [Int.abs_eq_natAbs] at hlow hhigh
  apply length_digits
  · exact_mod_cast hlow
  · exact_mod_cast hhigh

theorem hundred_pow (k : ℕ) : (100 : ℤ) ^ k = 10 ^ (2 * k) := by
  rw [pow_mul]
  norm_num

/-- An odd number of digits. -/
theorem decimals_odd {p : Blk} {k : ℕ} (hlow : 100 ^ k ≤ |value 100 p|)
    (hhigh : |value 100 p| < 10 * 100 ^ k) : decimals p = 2 * k + 1 := by
  rw [hundred_pow] at hlow hhigh
  apply decimals_eq hlow
  rw [pow_succ]
  omega

/-- An even number of digits. -/
theorem decimals_even {p : Blk} {k : ℕ} (hlow : 10 * 100 ^ k ≤ |value 100 p|)
    (hhigh : |value 100 p| < 100 ^ (k + 1)) : decimals p = 2 * k + 2 := by
  rw [hundred_pow] at hlow hhigh
  apply decimals_eq
  · rw [pow_succ]
    omega
  · exact hhigh

theorem value_commandZ {x : Number} (h0 : 0 ≤ countZ x.digits) (h : countZ x.digits ≤ 10000) :
    value 100 (commandZ x).digits = countZ x.digits := by
  unfold commandZ
  dsimp only
  generalize countZ x.digits = n at h0 h
  split_ifs with h100
  · obtain ⟨hq, hdiv, hr0, hr100⟩ := tdiv_tmod h0 (show (0 : ℤ) < 100 by decide)
    rw [char_eq (by omega) (by omega), char_eq (by omega) (by omega), value_cons, value_cons,
      value_nil]
    omega
  · rw [char_eq (by omega) (by omega)]
    simp

end Length

theorem countZ_nonneg (p : Blk) : 0 ≤ countZ p := by
  unfold countZ
  dsimp only
  split_ifs with hnil
  · simp
  all_goals
    have := List.length_pos_iff.mpr hnil
    omega

/-- The count of a number that is not negative. -/
theorem countZ_pos {p : Blk} (h : Rep p) (h0 : 0 ≤ value 100 p) : countZ p = decimals p := by
  obtain rfl | ⟨ds, d, rfl⟩ := List.eq_nil_or_concat' p
  · rfl
  · have hdig := nonneg_digits h.legal h0
    have hd := hdig d (by simp)
    have hds : Digits 100 ds := Digits.of_append_left hdig
    have hds0 : 0 ≤ value 100 ds := Digits.value_nonneg hds
    have hlt := hds.value_lt
    have habs : |value 100 (ds ++ [d])| = value 100 ds + 100 ^ ds.length * d := by
      rw [abs_of_nonneg h0, value_concat]
    have hd0 : d ≠ 0 := by
      rintro rfl
      exact h.top ds rfl
    have hM : (0 : ℤ) < 100 ^ ds.length := by positivity
    unfold countZ
    dsimp only
    rw [if_neg (by simp), back_concat_zero, if_neg (by omega), List.length_append,
      List.length_singleton]
    split_ifs with h10
    · rw [decimals_odd (k := ds.length)]
      · push_cast
        ring
      · rw [habs]
        have : (100 : ℤ) ^ ds.length * 1 ≤ 100 ^ ds.length * d :=
          mul_le_mul_of_nonneg_left (by omega) hM.le
        linarith
      · rw [habs]
        have : (100 : ℤ) ^ ds.length * d ≤ 100 ^ ds.length * 9 :=
          mul_le_mul_of_nonneg_left (by omega) hM.le
        linarith
    · rw [decimals_even (k := ds.length)]
      · push_cast
        ring
      · rw [habs]
        have : (100 : ℤ) ^ ds.length * 10 ≤ 100 ^ ds.length * d :=
          mul_le_mul_of_nonneg_left (by omega) hM.le
        linarith
      · rw [habs, pow_succ]
        have : (100 : ℤ) ^ ds.length * d ≤ 100 ^ ds.length * 99 :=
          mul_le_mul_of_nonneg_left (by omega) hM.le
        linarith

/-- Whether a number is clear shows in the place of its top digit. -/
theorem clear_iff {a : ℤ} {k : ℕ} (hlow : 100 ^ k ≤ a) (hhigh : a < 100 ^ (k + 1)) :
    Clear a ↔ ¬ (9 * 100 ^ k < a ∧ a < 10 * 100 ^ k) ∧ ¬ 99 * 100 ^ k < a := by
  have hplace : ∀ m : ℕ, a < 100 ^ (m + 1) → 100 ^ m < a → m = k := by
    intro m h1 h2
    have hmk : m < k + 1 := by
      by_contra hge
      have : (100 : ℤ) ^ (k + 1) ≤ 100 ^ m := pow_le_pow_right₀ (by decide) (by omega)
      omega
    have hkm : k < m + 1 := by
      by_contra hge
      have : (100 : ℤ) ^ (m + 1) ≤ 100 ^ k := pow_le_pow_right₀ (by decide) (by omega)
      omega
    omega
  constructor
  · intro h
    obtain ⟨h9, h99⟩ := h k
    exact ⟨h9, fun hgt => h99 ⟨hgt, hhigh⟩⟩
  · rintro ⟨h9, h99⟩ m
    have hM : (0 : ℤ) < 100 ^ m := by positivity
    constructor
    · rintro ⟨h1, h2⟩
      obtain rfl := hplace m (by rw [pow_succ]; omega) (by omega)
      exact h9 ⟨h1, h2⟩
    · rintro ⟨h1, h2⟩
      obtain rfl := hplace m h2 (by omega)
      exact h99 h1

theorem odd_spec {p : Blk} {k : ℕ} (hlow : 100 ^ k ≤ |value 100 p|)
    (hhigh : |value 100 p| < 10 * 100 ^ k) :
    decimals p = 2 * k + 1 ∧ (Clear |value 100 p| ↔ |value 100 p| ≤ 9 * 100 ^ k) := by
  have hM : (0 : ℤ) < 100 ^ k := by positivity
  constructor
  · exact decimals_odd hlow hhigh
  · rw [clear_iff hlow (by rw [pow_succ]; omega)]
    omega

theorem even_spec {p : Blk} {k : ℕ} (hlow : 10 * 100 ^ k ≤ |value 100 p|)
    (hhigh : |value 100 p| < 100 ^ (k + 1)) :
    decimals p = 2 * k + 2 ∧ (Clear |value 100 p| ↔ |value 100 p| ≤ 99 * 100 ^ k) := by
  have hM : (0 : ℤ) < 100 ^ k := by positivity
  constructor
  · exact decimals_even hlow hhigh
  · rw [clear_iff (k := k) (by omega) hhigh]
    omega

/-- The count of a negative number. -/
theorem countZ_neg {p : Blk} (h : Rep p) (hneg : value 100 p < 0) :
    (countZ p = decimals p ↔ Clear |value 100 p|) ∧ countZ p ≤ decimals p + 1 := by
  have hne : p ≠ [] := by
    rintro rfl
    exact lt_irrefl 0 hneg
  obtain ⟨es, hes, rfl⟩ := h.legal.neg_iff.mp (h.legal.neg_value_iff.mpr hneg)
  unfold countZ
  dsimp only
  rw [if_neg hne, back_concat_zero, if_pos (by decide), List.length_append, List.length_singleton]
  obtain rfl | ⟨fs, c, rfl⟩ := List.eq_nil_or_concat' es
  · obtain ⟨hdec, hclear⟩ := odd_spec (p := [] ++ [-1]) (k := 0) (by decide) (by decide)
    rw [hdec, hclear, if_pos (by simp)]
    decide
  · have hc := hes c (by simp)
    have hfs : Digits 100 fs := Digits.of_append_left hes
    have hf0 : 0 ≤ value 100 fs := Digits.value_nonneg hfs
    have hf1 := hfs.value_lt
    have hM : (0 : ℤ) < 100 ^ fs.length := by positivity
    -- the number without its sign, in units of its top digit
    have habs : |value 100 (fs ++ [c] ++ [-1])| =
        (100 - c) * 100 ^ fs.length - value 100 fs := by
      rw [abs_of_neg hneg, value_concat, value_concat, List.length_append, List.length_singleton,
        pow_succ]
      ring
    have hone : c = 99 → 1 ≤ (100 - c) * 100 ^ fs.length - value 100 fs ∧ fs.length = 0 := by
      rintro rfl
      have hnil := h.nines fs (by simp)
      subst hnil
      decide
    have hunits : ∀ a b : ℤ, a ≤ 100 - c → 100 - c ≤ b →
        a * 100 ^ fs.length ≤ (100 - c) * 100 ^ fs.length ∧
          (100 - c) * 100 ^ fs.length ≤ b * 100 ^ fs.length := fun a b ha hb =>
      ⟨mul_le_mul_of_nonneg_right ha hM.le, mul_le_mul_of_nonneg_right hb hM.le⟩
    rw [back_concat_succ, back_concat_zero, List.length_append, List.length_singleton,
      if_neg (by omega)]
    by_cases hc0 : c = 0
    · subst hc0
      rw [if_pos rfl]
      by_cases hf : value 100 fs = 0
      · obtain ⟨hdec, hclear⟩ := odd_spec (p := fs ++ [0] ++ [-1]) (k := fs.length + 1)
          (by rw [habs, pow_succ]; omega) (by rw [habs, pow_succ]; omega)
        rw [hdec, hclear, habs, pow_succ]
        push_cast
        omega
      · obtain ⟨hdec, hclear⟩ := even_spec (p := fs ++ [0] ++ [-1]) (k := fs.length)
          (by rw [habs]; omega) (by rw [habs, pow_succ]; omega)
        rw [hdec, hclear, habs]
        push_cast
        omega
    · rw [if_neg hc0]
      by_cases hc90 : 90 < c
      · have hM9 := hunits 1 9 (by omega) (by omega)
        have hlow : 100 ^ fs.length ≤ (100 - c) * 100 ^ fs.length - value 100 fs := by
          by_cases h99 : c = 99
          · obtain ⟨h1, h2⟩ := hone h99
            rw [h2] at h1 ⊢
            exact h1
          · have := hunits 2 9 (by omega) (by omega)
            omega
        obtain ⟨hdec, hclear⟩ := odd_spec (p := fs ++ [c] ++ [-1]) (k := fs.length)
          (by rw [habs]; exact hlow) (by rw [habs]; omega)
        rw [if_pos hc90, hdec, hclear, habs]
        push_cast
        omega
      · rw [if_neg hc90]
        by_cases h90 : c = 90 ∧ value 100 fs ≠ 0
        · obtain ⟨rfl, hf⟩ := h90
          obtain ⟨hdec, hclear⟩ := odd_spec (p := fs ++ [90] ++ [-1]) (k := fs.length)
            (by rw [habs]; omega) (by rw [habs]; omega)
          rw [hdec, hclear, habs]
          push_cast
          omega
        · have hM99 := hunits 10 99 (by omega) (by omega)
          have hM11 : value 100 fs = 0 ∨ 11 * 100 ^ fs.length ≤ (100 - c) * 100 ^ fs.length := by
            by_cases hf : value 100 fs = 0
            · exact Or.inl hf
            · exact Or.inr (hunits 11 99 (by omega) (by omega)).1
          obtain ⟨hdec, hclear⟩ := even_spec (p := fs ++ [c] ++ [-1]) (k := fs.length)
            (by rw [habs]; omega) (by rw [habs, pow_succ]; omega)
          rw [hdec, hclear, habs]
          push_cast
          omega

/-- A zero with digits. -/
theorem zeros_spec (n : ℕ) : Digits 100 (List.replicate n 0 : Blk) ∧
    value 100 (List.replicate n 0) = 0 := by
  refine ⟨fun d hd => ?_, value_replicate_zero 100 n⟩
  rw [List.eq_of_mem_replicate hd]
  decide

/-- `Z` pushes an odd number for a zero with digits. -/
theorem not_countLaw_zeros {x : Number} {n : ℕ} (hx : x.digits = List.replicate (n + 1) 0) :
    ¬ CountLaw x := by
  rintro ⟨h, -⟩
  have hcount : countZ x.digits = 2 * n + 1 := by
    have hback : back (List.replicate (n + 1) (0 : ℤ)) 0 = 0 := by
      rw [List.replicate_succ', back_concat_zero]
    rw [hx]
    unfold countZ
    dsimp only
    rw [hback, if_neg (by simp), if_neg (by decide), if_pos (by decide), List.length_replicate]
    push_cast
    ring
  have hdec : decimals x.digits = 0 := by
    unfold decimals
    rw [hx, (zeros_spec (n + 1)).2]
    rfl
  rw [hdec] at h
  unfold commandZ at h
  dsimp only at h
  rw [hcount] at h
  obtain ⟨-, hdiv, hr0, hr100⟩ := tdiv_tmod (show (0 : ℤ) ≤ 2 * n + 1 by omega)
    (show (0 : ℤ) < 100 by decide)
  split_ifs at h with h100
  · rw [char_eq (by omega) (by omega), value_cons, value_cons, value_nil] at h
    push_cast at h
    omega
  · rw [char_eq (by omega) (by omega), value_cons, value_nil] at h
    push_cast at h
    omega

/-- The count of a number on the stack is right for both signs exactly when the number is clear,
and no zero that has digits. -/
theorem count_iff (x : Number) (hx : OnStack x.digits) (hlen : decimals x.digits < 10000) :
    CountLaw x ↔ (value 100 x.digits = 0 → x.digits = []) ∧ Clear |value 100 x.digits| := by
  rcases hx with hrep | ⟨n, hzero⟩
  · have hne : value 100 x.digits = 0 → x.digits = [] := hrep.nil_iff.mpr
    obtain ⟨hrep', hval⟩ := chsign_rep hrep
    have hdec : decimals (chsign x.digits) = decimals x.digits := by
      unfold decimals
      rw [hval, Int.natAbs_neg]
    have hright : ∀ y : Number, Rep y.digits → decimals y.digits = decimals x.digits →
        (value 100 (commandZ y).digits = decimals x.digits ↔
          (value 100 y.digits < 0 → Clear |value 100 y.digits|)) := by
      intro y hy hyd
      by_cases hneg : value 100 y.digits < 0
      · obtain ⟨hiff, hle⟩ := countZ_neg hy hneg
        rw [value_commandZ (countZ_nonneg _) (by omega), ← hyd, hiff]
        exact ⟨fun h _ => h, fun h => h hneg⟩
      · have hpos := countZ_pos hy (not_lt.mp hneg)
        rw [value_commandZ (countZ_nonneg _) (by omega), hpos, hyd]
        exact ⟨fun _ h => absurd h hneg, fun _ => rfl⟩
    unfold CountLaw
    rw [hright x hrep rfl, hright ⟨chsign x.digits, x.scale⟩ hrep' hdec]
    dsimp only
    rw [hval, abs_neg]
    constructor
    · rintro ⟨h1, h2⟩
      refine ⟨hne, ?_⟩
      rcases lt_trichotomy (value 100 x.digits) 0 with hlt | heq | hgt
      · exact h1 hlt
      · rw [heq]
        intro m
        have hM : (0 : ℤ) < 100 ^ m := by positivity
        constructor
        · rintro ⟨h9, -⟩
          rw [abs_zero] at h9
          omega
        · rintro ⟨h99, -⟩
          rw [abs_zero] at h99
          omega
      · exact h2 (by omega)
    · rintro ⟨-, h⟩
      exact ⟨fun _ => h, fun _ => h⟩
  · refine iff_of_false (not_countLaw_zeros hzero) fun h => ?_
    have hnil := h.1 (by rw [hzero]; exact (zeros_spec (n + 1)).2)
    rw [hzero] at hnil
    exact List.cons_ne_nil _ _ hnil

theorem rep_pair {c d : ℤ} (hc : 0 ≤ c ∧ c < 100) (hd : 0 < d ∧ d < 100) : Rep [c, d] := by
  apply rep_of_digits
  · intro e he
    simp only [List.mem_cons, List.not_mem_nil, or_false] at he
    omega
  · intro ds he
    have := (List.append_inj' (show [c] ++ [d] = ds ++ [0] from he) rfl).2
    simp only [List.cons.injEq, and_true] at this
    omega

/-- 1234 in two digits. -/
theorem count_iff_two : CountLaw ⟨[34, 12], 0⟩ ↔
    (value 100 [34, 12] = 0 → ([34, 12] : Blk) = []) ∧ Clear |value 100 [34, 12]| :=
  count_iff ⟨[34, 12], 0⟩ (Or.inl (rep_pair (by decide) (by decide))) (by norm_num [decimals])

/-- `Z` says of -9995 that it has five digits. -/
theorem not_count : OnStack (chsign [95, 99]) ∧ ¬ CountLaw ⟨chsign [95, 99], 0⟩ := by
  have hrep : Rep [95, 99] := rep_pair (by decide) (by decide)
  constructor
  · exact Or.inl (chsign_rep hrep).1
  · rintro ⟨h, -⟩
    have hZ : value 100 (commandZ ⟨chsign [95, 99], 0⟩).digits = 5 := by decide
    have hval : value 100 (chsign [95, 99]) = -9995 := by decide
    rw [hZ] at h
    unfold decimals at h
    dsimp only at h
    rw [hval] at h
    norm_num at h

end Unitas.Dc
