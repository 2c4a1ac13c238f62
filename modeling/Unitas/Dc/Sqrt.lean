import Mathlib.Tactic.Positivity
import Unitas.Dc.Digits

/-! The square root of `dc`: a guess from the top digits that is not below the root, and Newton's
steps down from there. -/
namespace Unitas.Dc

open CInt Radix

/-- `while ((c -= nn) >= 0) nn += 2;`, which takes 1 off at least in each turn. -/
def oddSteps : ℕ → ℤ → ℤ → ℤ
  | 0, _, nn => nn
  | turns + 1, c, nn => if 0 ≤ c - nn then oddSteps turns (c - nn) (nn + 2) else nn

/-- The top digit, or the top two of them. -/
def leading (p : Blk) : ℤ :=
  let c := if p = [] then -1 else back p 0
  if p.length % 2 = 1 then c else c * 100 + back p 1

/-- The first guess. -/
def guess (p : Blk) : Blk :=
  let n := (p.length + 1) / 2
  let c := leading p
  let c := (oddSteps (c.toNat + 1) c 1 + 1) / 2
  let r := List.replicate n 0
  if 100 ≤ c then salterc r (n - 1) (c - 100) ++ [1] else salterc r (n - 1) c

/-- The main loop of `sqrt`, with what is in `divxyz` before each division. Without a remainder to
release, after a division by zero, the program comes to its end. -/
def sqrtLoop (divxyz : ℕ → Blk) : ℕ → Blk → Blk → Except Fault Blk
  | 0, _, _ => .error .fuel
  | fuel + 1, p, r =>
    match div (divxyz (2 * fuel + 1)) p r with
    | .error f => .error (.failure f)
    | .ok d =>
      match div (divxyz (2 * fuel)) (add d.q r) sqtemp with
      | .error f => .error (.failure f)
      | .ok h =>
        if 0 ≤ back (add (chsign r) h.q) 0 then .ok r else sqrtLoop divxyz fuel p h.q

def sqrt (divxyz : ℕ → Blk) (fuel : ℕ) (p : Blk) : Except Fault Blk :=
  sqrtLoop divxyz fuel p (guess p)

inductive Root where
  | pushed (x : Number)
  /-- `sqrt of neg number` -/
  | negative
  | stopped (f : Fault)

/-- The command `v`. -/
def commandV (divxyz : ℕ → Blk) (fuel : ℕ) (k : ℤ) (x : Number) : Root :=
  if x.digits = [] then .pushed x
  else if back x.digits 0 < 0 then .negative
  else
    let n := if k < x.scale then x.scale else k * 2 - x.scale
    let savk := if k < x.scale then x.scale else k
    match sqrt divxyz fuel (add0 x.digits n.toNat) with
    | .error f => .stopped f
    | .ok r => .pushed ⟨r, savk⟩

/-- `sqrt` ends with the root. -/
def SqrtLaw (divxyz : ℕ → Blk) (p : Blk) : Prop :=
  ∃ turns, ∀ fuel ≥ turns, ∃ r, sqrt divxyz fuel p = .ok r ∧ 0 ≤ value 100 r ∧
    value 100 r * value 100 r ≤ value 100 p ∧
    value 100 p < (value 100 r + 1) * (value 100 r + 1)

/-- `v` ends with the greatest multiple of the last place of `max s k` whose square is not above
the number. -/
def VLaw (divxyz : ℕ → Blk) (k : ℕ) (x : Number) : Prop :=
  let s := max x.scale k
  ∃ turns, ∀ fuel ≥ turns, ∃ y, commandV divxyz fuel k x = .pushed y ∧
    ∃ Y : ℕ, y.val = Y / 10 ^ s ∧ (Y / 10 ^ s : ℚ) ^ 2 ≤ x.val ∧ x.val < ((Y + 1) / 10 ^ s : ℚ) ^ 2

section Guess

/-- The odd numbers that have been taken off add up to a square. -/
theorem oddSteps_spec (turns : ℕ) {c : ℤ} {s : ℤ} (hs : 0 ≤ s) (hturns : c < turns) :
    ∃ t, s ≤ t ∧ oddSteps turns c (2 * s + 1) = 2 * t + 1 ∧ s * s + c < (t + 1) * (t + 1) := by
  induction turns generalizing c s with
  | zero =>
    refine ⟨s, le_rfl, rfl, ?_⟩
    push_cast at hturns
    nlinarith
  | succ turns ih =>
    rw [oddSteps]
    split_ifs with hc
    · obtain ⟨t, hst, heq, hlt⟩ := ih (c := c - (2 * s + 1)) (s := s + 1) (by omega)
        (by push_cast at hturns; omega)
      refine ⟨t, by omega, ?_, by linarith⟩
      rw [← heq]
      congr 1
      ring
    · exact ⟨s, le_rfl, rfl, by linarith⟩

/-- What is taken off is not more than there is. -/
theorem oddSteps_le (turns : ℕ) {c : ℤ} {s : ℤ} (hs : 0 ≤ s) (hc : 0 ≤ c) :
    ∃ t, s ≤ t ∧ oddSteps turns c (2 * s + 1) = 2 * t + 1 ∧ t * t ≤ s * s + c := by
  induction turns generalizing c s with
  | zero => exact ⟨s, le_rfl, rfl, by omega⟩
  | succ turns ih =>
    rw [oddSteps]
    split_ifs with h
    · obtain ⟨t, hst, heq, hle⟩ := ih (c := c - (2 * s + 1)) (s := s + 1) (by omega) h
      refine ⟨t, by omega, ?_, by linarith⟩
      rw [← heq]
      congr 1
      ring
    · exact ⟨s, le_rfl, rfl, by omega⟩

/-- The top digits, in units of an even power of 100. -/
theorem leading_spec {p : Blk} (h : Digits 100 p) (hne : p ≠ []) :
    0 ≤ leading p ∧ leading p < 10000 ∧
      value 100 p < (leading p + 1) * 100 ^ (2 * ((p.length + 1) / 2 - 1)) := by
  obtain ⟨ds, d, rfl⟩ := (List.eq_nil_or_concat' p).resolve_left hne
  have hd := h d (by simp)
  have hds : Digits 100 ds := Digits.of_append_left h
  have hlt := hds.value_lt
  unfold leading
  simp only [if_neg hne]
  rw [back_concat_zero, back_concat_succ, List.length_append, List.length_singleton]
  split_ifs with hodd
  · refine ⟨hd.1, by omega, ?_⟩
    have hn : 2 * ((ds.length + 1 + 1) / 2 - 1) = ds.length := by omega
    rw [hn, value_concat]
    linarith
  · obtain ⟨es, e, rfl⟩ := (List.eq_nil_or_concat' ds).resolve_left (by
      rintro rfl
      exact hodd rfl)
    have he := hds e (by simp)
    have hes := (Digits.of_append_left hds).value_lt
    rw [back_concat_zero]
    refine ⟨by omega, by omega, ?_⟩
    rw [List.length_append, List.length_singleton] at hodd ⊢
    have hn : 2 * ((es.length + 1 + 1 + 1) / 2 - 1) = es.length := by omega
    rw [hn, value_concat, value_concat, List.length_append, List.length_singleton, pow_succ]
    linarith

theorem digits_zeros (n : ℕ) : Digits 100 (List.replicate n 0) := by
  intro d hd
  rw [List.eq_of_mem_replicate hd]
  decide

theorem rep_of_top {ds : Blk} {d : ℤ} (hds : Digits 100 ds) (h0 : 0 < d) (h : d < 100) :
    Rep (ds ++ [d]) := by
  apply rep_of_digits (hds.append (Digits.singleton h0.le h))
  intro es he
  have := (List.append_inj' he rfl).2
  simp only [List.cons.injEq, and_true] at this
  omega

/-- The first guess is above the root. -/
theorem guess_spec {p : Blk} (h : Digits 100 p) (hne : p ≠ []) :
    Rep (guess p) ∧ 0 < value 100 (guess p) ∧
      value 100 p < value 100 (guess p) * value 100 (guess p) := by
  obtain ⟨hc0, hc1, hval⟩ := leading_spec h hne
  have hlen := List.length_pos_iff.mpr hne
  obtain ⟨m, hm⟩ : ∃ m, (p.length + 1) / 2 = m + 1 := ⟨(p.length + 1) / 2 - 1, by omega⟩
  obtain ⟨t, ht0, heq, hlt⟩ := oddSteps_spec ((leading p).toNat + 1) (c := leading p) (s := 0)
    le_rfl (by omega)
  obtain ⟨t', -, heq', hle⟩ := oddSteps_le ((leading p).toNat + 1) (s := 0) le_rfl hc0
  have ht' : t' = t := by
    rw [heq] at heq'
    omega
  rw [ht'] at hle
  have ht99 : t ≤ 99 := by
    by_contra hgt
    nlinarith
  have hsalter : ∀ c : ℤ, 0 ≤ c → c < 100 →
      salterc (List.replicate (m + 1) 0) m c = List.replicate m 0 ++ [c] := by
    intro c h0 h100
    unfold salterc
    rw [char_eq (by omega) (by omega), List.take_replicate, List.drop_replicate,
      Nat.min_eq_left (by omega), Nat.sub_self, List.replicate_zero]
  have hg : value 100 (guess p) = 100 ^ m * (t + 1) ∧ Rep (guess p) := by
    unfold guess
    dsimp only
    rw [show (1 : ℤ) = 2 * 0 + 1 by decide, heq, hm, show (2 * t + 1 + (2 * 0 + 1)) / 2 = t + 1 by omega,
      Nat.add_sub_cancel]
    split_ifs with h100
    · have ht : t + 1 - 100 = 0 := by omega
      rw [ht, hsalter 0 le_rfl (by decide)]
      constructor
      · rw [value_concat, value_concat, value_replicate_zero, List.length_append,
          List.length_singleton, List.length_replicate, pow_succ]
        have : t = 99 := by omega
        rw [this]
        ring
      · exact rep_of_top ((digits_zeros m).append (Digits.singleton le_rfl (by decide)))
          (by decide) (by decide)
    · rw [hsalter (t + 1) (by omega) (by omega)]
      constructor
      · rw [value_concat, value_replicate_zero, List.length_replicate]
        ring
      · exact rep_of_top (digits_zeros m) (by omega) (by omega)
  refine ⟨hg.2, ?_, ?_⟩
  · rw [hg.1]
    positivity
  · rw [hg.1]
    rw [hm, Nat.add_sub_cancel, pow_mul, pow_two, mul_pow] at hval
    have hpow : (0 : ℤ) < 100 ^ m * 100 ^ m := by positivity
    have hsq : leading p + 1 ≤ (t + 1) * (t + 1) := by omega
    have := mul_le_mul_of_nonneg_right hsq hpow.le
    linarith

end Guess

section Newton
variable (divxyz : ℕ → Blk) {p r : Blk}

/-- One of Newton's steps does not go below the root. -/
theorem newton_ge {P R A B : ℤ} (hA : P < (A + 1) * R) (hB : A + R < 2 * (B + 1))
    (hR : 0 < R) (hA0 : 0 ≤ A) : P < (B + 1) * (B + 1) := by
  have hsq : 0 ≤ (A + 1 - R) * (A + 1 - R) := mul_self_nonneg _
  have hle : (A + 1 + R) * (A + 1 + R) ≤ (2 * (B + 1)) * (2 * (B + 1)) :=
    mul_le_mul (by omega) (by omega) (by omega) (by omega)
  linarith

/-- What a turn of the loop computes. -/
theorem newton_step (d1 d2 : Blk) (hp : Digits 100 p) (hr : Rep r) (hr0 : 0 < value 100 r) :
    ∃ d h, div d1 p r = .ok d ∧ div d2 (add d.q r) sqtemp = .ok h ∧ Rep h.q ∧
      0 ≤ value 100 h.q ∧ value 100 p < (value 100 h.q + 1) * (value 100 h.q + 1) ∧
      (0 ≤ back (add (chsign r) h.q) 0 ↔ value 100 r ≤ value 100 h.q) ∧
      (value 100 r ≤ value 100 h.q → value 100 r * value 100 r ≤ value 100 p) ∧
      2 * value 100 h.q ≤ value 100 p + value 100 r := by
  obtain ⟨d, hdiv, -, -, hq, -, -, hval, hlt, hsign⟩ :=
    div_result d1 (Or.inl hp) hr.normal hr0.ne'
  have hp0 := hp.value_nonneg
  rw [abs_of_pos hr0] at hlt
  have hrem0 : 0 ≤ value 100 d.rem := by
    rcases hsign with hz | hs
    · omega
    · by_contra hneg
      rw [Int.sign_eq_neg_one_of_neg (not_le.mp hneg)] at hs
      have := Int.sign_eq_neg_one_iff_neg.mp hs.symm
      omega
  rw [abs_of_nonneg hrem0] at hlt
  have hq0 : 0 ≤ value 100 d.q := by
    by_contra hneg
    have : value 100 d.q * value 100 r ≤ -1 * value 100 r :=
      mul_le_mul_of_nonneg_right (by omega) hr0.le
    omega
  have hqrep := hq.rep (nonneg_digits hq.1 hq0)
  obtain ⟨hs, hsval⟩ := add_rep hqrep hr
  obtain ⟨h, hdiv2, hhq, hhq0, hparity⟩ := div_sqtemp d2 hs (by omega)
  have hhalf : value 100 d.q + value 100 r = 2 * value 100 h.q ∨
      value 100 d.q + value 100 r = 2 * value 100 h.q + 1 := by omega
  obtain ⟨hneg, hnegval⟩ := chsign_rep hr
  obtain ⟨ht, htval⟩ := add_rep hneg hhq
  have hback : 0 ≤ back (add (chsign r) h.q) 0 ↔ value 100 r ≤ value 100 h.q := by
    have hiff := ht.neg_iff
    rw [htval, hnegval] at hiff
    constructor
    · intro hb
      by_contra hlt
      exact absurd (hiff.mpr (by omega)).2 (not_lt.mpr hb)
    · intro hle
      by_contra hb
      have hne : add (chsign r) h.q ≠ [] := by
        intro hnil
        rw [hnil] at hb
        exact hb (le_refl 0)
      have := hiff.mp ⟨hne, not_le.mp hb⟩
      omega
  have hqr : value 100 d.q ≤ value 100 d.q * value 100 r := by nlinarith
  refine ⟨d, h, hdiv, hdiv2, hhq, hhq0, ?_, hback, ?_, by omega⟩
  · apply newton_ge (A := value 100 d.q) (R := value 100 r)
    · linarith
    · omega
    · exact hr0
    · exact hq0
  · intro hle
    have hrq : value 100 r ≤ value 100 d.q := by omega
    have := mul_le_mul_of_nonneg_right hrq hr0.le
    omega

/-- From above the root the loop comes down to it. -/
theorem sqrtLoop_spec (hp : Digits 100 p) (hpos : 0 < value 100 p) (fuel : ℕ) (hr : Rep r)
    (hr0 : 0 < value 100 r) (hfuel : value 100 r ≤ fuel)
    (hroot : value 100 p < (value 100 r + 1) * (value 100 r + 1)) :
    ∃ r', sqrtLoop divxyz fuel p r = .ok r' ∧ 0 ≤ value 100 r' ∧
      value 100 r' * value 100 r' ≤ value 100 p ∧
      value 100 p < (value 100 r' + 1) * (value 100 r' + 1) := by
  induction fuel generalizing r with
  | zero =>
    push_cast at hfuel
    omega
  | succ fuel ih =>
    obtain ⟨d, h, hdiv, hdiv2, hhq, hhq0, hroot', hback, hdone, -⟩ :=
      newton_step (divxyz (2 * fuel + 1)) (divxyz (2 * fuel)) hp hr hr0
    rw [sqrtLoop, hdiv]
    dsimp only
    rw [hdiv2]
    dsimp only
    split_ifs with hb
    · exact ⟨r, rfl, hr0.le, hdone (hback.mp hb), hroot⟩
    · have hlt : value 100 h.q < value 100 r := by
        by_contra hge
        exact hb (hback.mpr (not_lt.mp hge))
      have hpos' : 0 < value 100 h.q := by
        by_contra hle
        have hz : value 100 h.q = 0 := by omega
        rw [hz] at hroot'
        omega
      push_cast at hfuel
      exact ih hhq hpos' (by omega) hroot'

/-- From zero it comes down to a division by zero. -/
theorem sqrtLoop_zero (hp : Digits 100 p) (hzero : value 100 p = 0) (fuel : ℕ) (hr : Rep r)
    (hr0 : 0 ≤ value 100 r) : ∀ r', sqrtLoop divxyz fuel p r ≠ .ok r' := by
  induction fuel generalizing r with
  | zero =>
    intro r' h
    cases h
  | succ fuel ih =>
    intro r' hok
    rw [sqrtLoop] at hok
    by_cases hnil : r = []
    · rw [hnil] at hok
      cases hok
    · have hne : value 100 r ≠ 0 := fun hz => hnil (hr.nil_iff.mpr hz)
      have hpos : 0 < value 100 r := by omega
      obtain ⟨d, h, hdiv, hdiv2, hhq, hhq0, -, hback, -, hhalf⟩ :=
        newton_step (divxyz (2 * fuel + 1)) (divxyz (2 * fuel)) hp hr hpos
      rw [hdiv] at hok
      dsimp only at hok
      rw [hdiv2] at hok
      dsimp only at hok
      rw [if_neg (fun hb => by have := hback.mp hb; omega)] at hok
      exact ih hhq hhq0 r' hok

end Newton

section Law
variable (divxyz : ℕ → Blk)

theorem sqrt_pos {p : Blk} (hp : Digits 100 p) (hpos : 0 < value 100 p) : SqrtLaw divxyz p := by
  have hne : p ≠ [] := by
    rintro rfl
    exact lt_irrefl 0 hpos
  obtain ⟨hg, hg0, hlt⟩ := guess_spec hp hne
  refine ⟨(value 100 (guess p)).toNat, fun fuel hfuel => ?_⟩
  exact sqrtLoop_spec divxyz hp hpos fuel hg hg0 (by omega) (by nlinarith)

theorem sqrt_zero {p : Blk} (hp : Digits 100 p) (hzero : value 100 p = 0) (fuel : ℕ) :
    ∀ r, sqrt divxyz fuel p ≠ .ok r := by
  by_cases hne : p = []
  · subst hne
    have hg : guess [] = [1] := by decide
    unfold sqrt
    rw [hg]
    exact sqrtLoop_zero divxyz hp hzero fuel one_rep (by decide)
  · obtain ⟨hg, hg0, -⟩ := guess_spec hp hne
    exact sqrtLoop_zero divxyz hp hzero fuel hg hg0.le

theorem sqrt_iff {p : Blk} (hp : Digits 100 p) : SqrtLaw divxyz p ↔ value 100 p ≠ 0 := by
  constructor
  · rintro ⟨turns, h⟩ hzero
    obtain ⟨r, hr, -⟩ := h turns le_rfl
    exact sqrt_zero divxyz hp hzero turns r hr
  · intro hne
    have := hp.value_nonneg
    exact sqrt_pos divxyz hp (by omega)

/-- The root of the shifted digits as a root of the number. -/
theorem root_scaled {X Y : ℤ} {s m n : ℕ} (hn : n + s = 2 * m)
    (hle : Y * Y ≤ 10 ^ n * X) (hlt : 10 ^ n * X < (Y + 1) * (Y + 1)) :
    ((Y : ℚ) / 10 ^ m) ^ 2 ≤ X / 10 ^ s ∧ (X : ℚ) / 10 ^ s < (((Y : ℚ) + 1) / 10 ^ m) ^ 2 := by
  have hpow : (10 : ℚ) ^ n * 10 ^ s = (10 ^ m) ^ 2 := by
    rw [← pow_add, hn, ← pow_mul, Nat.mul_comm]
  have hX : (X : ℚ) / 10 ^ s = 10 ^ n * X / (10 ^ m) ^ 2 := by
    rw [← hpow]
    field_simp
  have hpos : (0 : ℚ) < (10 ^ m) ^ 2 := by positivity
  rw [hX, div_pow, div_pow]
  constructor
  · rw [div_le_div_iff_of_pos_right hpos, pow_two]
    exact_mod_cast hle
  · rw [div_lt_div_iff_of_pos_right hpos, pow_two]
    exact_mod_cast hlt

variable {x : Number} {k : ℕ}

theorem v_pos (hx : Rep x.digits) (hpos : 0 < value 100 x.digits) (hs : 0 ≤ x.scale) :
    VLaw divxyz k x := by
  have hnil : x.digits ≠ [] := by
    intro hnil
    rw [hnil] at hpos
    exact lt_irrefl 0 hpos
  have hback : ¬ back x.digits 0 < 0 := fun hneg => by
    have := hx.neg_iff.mp ⟨hnil, hneg⟩
    omega
  obtain ⟨s, hs'⟩ := Int.eq_ofNat_of_zero_le hs
  obtain ⟨n, m, hn, hm, hnm⟩ : ∃ n m : ℕ,
      (if (k : ℤ) < x.scale then x.scale else k * 2 - x.scale) = n ∧
        (if (k : ℤ) < x.scale then x.scale else k) = m ∧ n + s = 2 * m := by
    rw [hs']
    by_cases hks : (k : ℤ) < s
    · exact ⟨s, s, if_pos hks, if_pos hks, by omega⟩
    · exact ⟨2 * k - s, k, by rw [if_neg hks]; omega, if_neg hks, by omega⟩
  have hmax : max x.scale k = m := by
    rw [← hm]
    split_ifs with hks
    · exact max_eq_left hks.le
    · exact max_eq_right (not_lt.mp hks)
  obtain ⟨hlegal, hval⟩ := add0_spec hx.legal n
  have hval0 : 0 < value 100 (add0 x.digits n) := by
    rw [hval]
    positivity
  obtain ⟨turns, hsqrt⟩ := sqrt_pos divxyz (nonneg_digits hlegal hval0.le) hval0
  refine ⟨turns, fun fuel hfuel => ?_⟩
  obtain ⟨r, hr, hr0, hle, hlt⟩ := hsqrt fuel hfuel
  refine ⟨⟨r, m⟩, ?_, (value 100 r).toNat, ?_⟩
  · unfold commandV
    rw [if_neg hnil, if_neg hback]
    dsimp only
    rw [hn, hm, Int.toNat_natCast, hr]
  · obtain ⟨Y, hY⟩ := Int.eq_ofNat_of_zero_le hr0
    have hcast : value 100 r = Y := hY
    rw [hval, hcast] at hle hlt
    obtain ⟨h1, h2⟩ := root_scaled hnm hle hlt
    rw [hmax, hcast, Int.toNat_natCast]
    unfold Number.val
    dsimp only
    rw [hcast, hs', zpow_natCast, zpow_natCast]
    push_cast at h1 h2 ⊢
    exact ⟨rfl, h1, h2⟩

/-- `v` lets a zero with digits pass to `sqrt`. -/
theorem not_vLaw_zeros {n : ℕ} (hx : x.digits = List.replicate (n + 1) 0) :
    ¬ VLaw divxyz k x := by
  rintro ⟨turns, h⟩
  obtain ⟨y, hy, -⟩ := h turns le_rfl
  obtain ⟨hdig, hzero⟩ := zeros_spec (n + 1)
  have hback : back (List.replicate (n + 1) (0 : ℤ)) 0 = 0 := by
    rw [List.replicate_succ', back_concat_zero]
  unfold commandV at hy
  dsimp only at hy
  rw [hx, hback, if_neg (by simp), if_neg (by decide)] at hy
  obtain ⟨hlegal, hval⟩ := add0_spec (Or.inl hdig)
    (if (k : ℤ) < x.scale then x.scale else k * 2 - x.scale).toNat
  rw [hzero, mul_zero] at hval
  have hnot := sqrt_zero divxyz (nonneg_digits hlegal hval.ge) hval turns
  split at hy
  · cases hy
  · next r hr => exact hnot r hr

/-- On a number that is not negative `sqrt` ends with the root exactly if it is not zero, and `v`
exactly if it is no zero that has digits. -/
theorem root_iff (k : ℕ) (x : Number) (hx : OnStack x.digits) (h0 : 0 ≤ value 100 x.digits)
    (hs : 0 ≤ x.scale) :
    (SqrtLaw divxyz x.digits ↔ value 100 x.digits ≠ 0) ∧
      (VLaw divxyz k x ↔ (value 100 x.digits = 0 → x.digits = [])) := by
  rcases hx with hrep | ⟨n, hzero⟩
  · refine ⟨sqrt_iff divxyz (nonneg_digits hrep.legal h0), iff_of_true ?_ hrep.nil_iff.mpr⟩
    by_cases hnil : x.digits = []
    · refine ⟨0, fun fuel _ => ⟨x, if_pos hnil, 0, ?_⟩⟩
      have hval : x.val = 0 := by
        unfold Number.val
        rw [hnil]
        simp
      rw [hval]
      refine ⟨by simp, by simp, ?_⟩
      have hpow : (0 : ℚ) < 10 ^ max x.scale (k : ℤ) := zpow_pos (by norm_num) _
      rw [Nat.cast_zero, zero_add]
      exact pow_pos (div_pos one_pos hpow) 2
    · have hne0 : value 100 x.digits ≠ 0 := fun hz => hnil (hrep.nil_iff.mpr hz)
      exact v_pos divxyz hrep (by omega) hs
  · obtain ⟨hdig, hval⟩ := zeros_spec (n + 1)
    refine ⟨sqrt_iff divxyz (by rw [hzero]; exact hdig),
      iff_of_false (not_vLaw_zeros divxyz hzero) fun h => ?_⟩
    have hnil := h (by rw [hzero]; exact hval)
    rw [hzero] at hnil
    exact List.cons_ne_nil _ _ hnil

end Law

/-- Two with two more places. -/
theorem root_iff_two : (SqrtLaw (fun _ => []) [2] ↔ value 100 [2] ≠ 0) ∧
    (VLaw (fun _ => []) 2 ⟨[2], 0⟩ ↔ (value 100 [2] = 0 → ([2] : Blk) = [])) :=
  root_iff (fun _ => []) 2 ⟨[2], 0⟩
    (Or.inl (@rep_of_top [] 2 Digits.nil (by decide) (by decide))) (by decide) (by decide)

/-- The zero that `z` pushes. -/
theorem not_root : OnStack [0] ∧ ¬ SqrtLaw (fun _ => []) [0] ∧ ¬ VLaw (fun _ => []) 0 ⟨[0], 0⟩ := by
  have hzero : Digits 100 ([0] : Blk) := Digits.singleton le_rfl (by decide)
  refine ⟨Or.inr ⟨0, rfl⟩, ?_, not_vLaw_zeros (n := 0) (fun _ => []) rfl⟩
  rw [sqrt_iff _ hzero]
  decide

end Unitas.Dc
