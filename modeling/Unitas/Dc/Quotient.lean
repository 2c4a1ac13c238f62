import Unitas.Dc.Turns

/-! The repairs after the main loop, and the law of the long division. -/
namespace Unitas.Dc

open CInt Radix

theorem digits_range {p : Blk} (h : Digits 100 p) : ∀ d ∈ p, -1 ≤ d ∧ d < 100 := fun d hd => by
  have := h d hd
  omega

theorem nonneg_digits {p : Blk} (h : Legal p) (h0 : 0 ≤ value 100 p) : Digits 100 p := by
  rcases h with h | ⟨ds, h, rfl⟩
  · exact h
  · exact absurd h0 (not_le.mpr (value_neg h))

theorem back_neg_iff {p : Blk} (h : Legal p) :
    (p ≠ [] ∧ back p 0 < 0) ↔ value 100 p < 0 := by
  constructor
  · rintro ⟨hne, hneg⟩
    have hm1 : back p 0 = -1 := by
      have := h.mem (back_mem hne)
      omega
    obtain ⟨ds, hds, rfl⟩ := h.neg_iff.mp hm1
    exact value_neg hds
  · intro hneg
    rcases h with h | ⟨ds, h, rfl⟩
    · exact absurd h.value_nonneg (not_le.mpr hneg)
    · exact ⟨by simp, by rw [back_concat_zero]; decide⟩

theorem salterc_zero {d c : ℤ} {hs : Blk} (h0 : -128 ≤ c) (h1 : c < 128) :
    salterc (d :: hs) 0 c = c :: hs := by
  unfold salterc
  rw [char_eq h0 h1]
  rfl

/-- After the repairs: the digits of the quotient, and what is left of the dividend. -/
theorem repair_spec {divr : Blk} {m : ℕ} (hr : Divisor divr m) {t : Turn} {rem : ℤ}
    (hlast : Last (value 100 divr) m t rem) (hs : Blk) :
    let u := undershot divr (t.dig :: hs) t
    let o := overshot divr t u.1 u.2
    ∃ dig rem', o.1 = dig :: hs ∧ 0 ≤ dig ∧ dig ≤ 118 ∧ Digits 100 o.2 ∧
      value 100 o.2 = rem' ∧ 0 ≤ rem' ∧ rem' < value 100 divr ∧
      dig * value 100 divr + rem' = t.dig * value 100 divr + rem := by
  have h0 := hlast.dig_nonneg
  have h117 := hlast.dig_le
  dsimp only
  unfold undershot overshot
  cases hu : t.under with
  | true =>
    obtain ⟨hrem, hrem2⟩ := hlast.under hu
    obtain ⟨hcarry, hdig, hval⟩ := hlast.left hrem
    obtain ⟨hneg, hnegval⟩ := chsign_spec (digits_range hr.digits)
    obtain ⟨hps, hpsval⟩ := add_spec (fun d => hneg.mem) (digits_range hdig)
    rw [hnegval, hval] at hpsval
    simp only [if_true, hcarry, ne_eq, not_true_eq_false, if_false]
    by_cases hback : add (chsign divr) t.divd ≠ [] ∧ back (add (chsign divr) t.divd) 0 < 0
    · rw [if_pos hback]
      have hlt := (back_neg_iff hps.1).mp hback
      exact ⟨t.dig, rem, rfl, h0, by omega, hdig, hval, hrem, by linarith, rfl⟩
    · rw [if_neg hback]
      have hge : 0 ≤ value 100 (add (chsign divr) t.divd) := by
        by_contra hlt
        exact hback ((back_neg_iff hps.1).mpr (by omega))
      refine ⟨t.dig + 1, _, salterc_zero (by omega) (by omega), by omega, by omega,
        nonneg_digits hps.1 hge, rfl, hge, by linarith, ?_⟩
      rw [hpsval]
      ring
  | false =>
    obtain ⟨hlow, hup⟩ := hlast.right hu
    simp only [Bool.false_eq_true, if_false]
    by_cases hrem : rem < 0
    · obtain ⟨hcarry, hone, es, hdivd, hes, hval⟩ := hlast.borrow hrem
      have halter : salterc t.divd (t.divd.length - 1) (-1) = es ++ [-1] := by
        unfold salterc
        rw [hdivd, char_eq (by decide) (by decide)]
        simp
      rw [if_pos (by rw [hcarry]; decide)]
      dsimp only
      rw [halter]
      obtain ⟨hps, hpsval⟩ := add_spec (digits_range hr.digits)
        (fun d => Legal.mem (p := es ++ [-1]) (Or.inr ⟨es, hes, rfl⟩))
      have hge : 0 ≤ value 100 (add divr (es ++ [-1])) := by linarith
      refine ⟨t.dig - 1, _, salterc_zero (by omega) (by omega), by omega, by omega,
        nonneg_digits hps.1 hge, rfl, hge, by linarith, ?_⟩
      rw [hpsval, hval]
      ring
    · obtain ⟨hcarry, hdig, hval⟩ := hlast.left (by omega)
      rw [if_neg (by rw [hcarry]; decide)]
      exact ⟨t.dig, rem, rfl, h0, by omega, hdig, hval, by omega, hup, rfl⟩

theorem carried_spec {p : Blk} (h : ∀ d ∈ p, 0 ≤ d ∧ d ≤ 118) :
    Digits 100 (carried p) ∧ Normal (carried p) ∧ value 100 (carried p) = value 100 p := by
  have hspec := carryMap_spec (b := 100) (σ := 1) (g := fun d => d)
    (C := fun c => c = 0 ∨ c = 1) (D := fun d => 0 ≤ d ∧ d < 100) (l := p)
    (f := fun d divcarry =>
      let d := d + divcarry
      if 100 ≤ d then (char (d - 100), 1) else (char d, 0)) ?_ (c := 0) (Or.inl rfl)
  · obtain ⟨hds, hc, hval⟩ := hspec
    rw [List.map_id'] at hval
    unfold carried
    dsimp only at hds hc hval ⊢
    generalize hr : carryMap _ 0 p = r at *
    have hlen : r.1.length = p.length := by rw [← hr, length_carryMap]
    rw [← hlen] at hval
    have hall : Digits 100 (if r.2 ≠ 0 then r.1 ++ [char r.2] else r.1) := by
      split_ifs with hne
      · have h1 : r.2 = 1 := hc.resolve_left hne
        rw [h1]
        exact Digits.append hds (Digits.singleton (by decide) (by decide))
      · exact hds
    refine ⟨digits_rdropWhile hall _, strip0_spec hall, ?_⟩
    rw [value_rdropWhile]
    split_ifs with hne
    · have h1 : r.2 = 1 := hc.resolve_left hne
      have hchar : char 1 = 1 := by decide
      rw [h1] at hval ⊢
      rw [value_concat, hchar]
      linarith
    · rw [not_not.mp hne] at hval
      linarith
  · intro d hd c hc
    have hrange := h d hd
    dsimp only
    split_ifs with h100
    · rw [char_eq (by omega) (by omega)]
      dsimp only
      omega
    · rw [char_eq (by omega) (by omega)]
      dsimp only
      omega

/-- The numbers without their signs. -/
theorem magnitude {p : Blk} (h : Legal p) :
    let q := if p ≠ [] ∧ back p 0 = -1 then chsign p else p
    Digits 100 q ∧ value 100 q = |value 100 p| := by
  dsimp only
  split_ifs with hneg
  · obtain ⟨ds, hds, rfl⟩ := h.neg_iff.mp hneg.2
    obtain ⟨hlegal, hval⟩ := chsign_spec fun d => h.mem
    have hlt := value_neg hds
    rw [abs_of_neg hlt, ← hval]
    exact ⟨nonneg_digits hlegal (by omega), rfl⟩
  · have hds : Digits 100 p := by
      apply h.digits
      intro hback
      apply hneg
      constructor
      · rintro rfl
        simp [back] at hback
      · exact hback
    rw [abs_of_nonneg hds.value_nonneg]
    exact ⟨hds, rfl⟩

theorem divisor_of_normal {divr : Blk} (h : Normal divr) (hdig : Digits 100 divr)
    (h0 : value 100 divr ≠ 0) : ∃ m, Divisor divr m := by
  obtain ⟨rs, r, rfl⟩ := (List.eq_nil_or_concat' divr).resolve_left (by rintro rfl; simp at h0)
  exact ⟨rs.length, hdig, by simp, h.le_value hdig⟩

theorem left_of_digits {divr divd : Blk} {m : ℕ} (hr : Divisor divr m) (hd : Digits 100 divd)
    (hlen : divr.length ≤ divd.length) :
    Left (value 100 divr) m (divd.length - divr.length) (divd ++ [0]) := by
  have hlen' : divd.length = divd.length - divr.length + (m + 1) := by
    have := hr.length
    omega
  have hval : value 100 (divd ++ [0]) = value 100 divd := by rw [value_concat]; ring
  refine ⟨⟨divd, 0, rfl, hd, hlen'⟩, ?_, ?_⟩
  · rw [hval]
    exact hd.value_nonneg
  · rw [hval]
    have hlt := hd.value_lt
    rw [hlen'] at hlt
    have hpow : (100 : ℤ) ^ (divd.length - divr.length + (m + 1)) =
        100 * (100 ^ m * 100 ^ (divd.length - divr.length)) := by ring
    have hle : 100 ^ m * 100 ^ (divd.length - divr.length) ≤
        value 100 divr * 100 ^ (divd.length - divr.length) :=
      mul_le_mul_of_nonneg_right hr.le (by positivity)
    have hpos : (0 : ℤ) < 100 ^ m * 100 ^ (divd.length - divr.length) := by positivity
    rw [hpow] at hlt
    linarith

/-- Signs for a quotient and a remainder of absolute values. -/
theorem signed {a b q r : ℤ} (rsign dsign : Bool) (hbs : rsign = true ↔ b < 0)
    (has : dsign = true ↔ a < 0) (h : |a| = q * |b| + r) (h0 : 0 ≤ r) (hlt : r < |b|)
    (hq : 0 ≤ q) :
    a = (if rsign ^^ dsign then -q else q) * b + (if dsign then -r else r) ∧
      |if dsign then -r else r| < |b| ∧
      ((if dsign then -r else r) = 0 ∨ (if dsign then -r else r).sign = a.sign) := by
  cases rsign <;> cases dsign <;>
    simp only [Bool.false_eq_true, false_iff, true_iff, not_lt] at hbs has <;>
    simp only [Bool.xor_false, Bool.xor_true, Bool.false_eq_true, Bool.not_true, Bool.not_false,
      if_true, if_false]
  · rw [abs_of_nonneg has, abs_of_nonneg hbs] at h
    refine ⟨h, by rwa [abs_of_nonneg h0], ?_⟩
    rcases h0.eq_or_lt with h0 | hpos
    · exact Or.inl h0.symm
    · right
      have ha : 0 < a := by linarith [mul_nonneg hq hbs]
      rw [Int.sign_eq_one_of_pos hpos, Int.sign_eq_one_of_pos ha]
  · rw [abs_of_neg has, abs_of_nonneg hbs] at h
    refine ⟨by linarith, by rwa [abs_neg, abs_of_nonneg h0], ?_⟩
    rcases h0.eq_or_lt with h0 | hpos
    · left
      omega
    · right
      rw [Int.sign_eq_neg_one_of_neg (by omega), Int.sign_eq_neg_one_of_neg has]
  · rw [abs_of_nonneg has, abs_of_neg hbs] at h
    refine ⟨by linarith, by rwa [abs_of_nonneg h0], ?_⟩
    rcases h0.eq_or_lt with h0 | hpos
    · exact Or.inl h0.symm
    · right
      have ha : 0 < a := by linarith [mul_nonneg hq (show 0 ≤ -b by omega)]
      rw [Int.sign_eq_one_of_pos hpos, Int.sign_eq_one_of_pos ha]
  · rw [abs_of_neg has, abs_of_neg hbs] at h
    refine ⟨by linarith, by rwa [abs_neg, abs_of_nonneg h0], ?_⟩
    rcases h0.eq_or_lt with h0 | hpos
    · left
      omega
    · right
      rw [Int.sign_eq_neg_one_of_neg (by omega), Int.sign_eq_neg_one_of_neg has]

theorem chsign_if {p : Blk} (h : Normal p) (b : Bool) :
    Normal (if b then chsign p else p) ∧
      value 100 (if b then chsign p else p) = if b then -value 100 p else value 100 p := by
  cases b with
  | false => exact ⟨h, rfl⟩
  | true => exact ⟨chsign_normal h, (chsign_spec fun d => h.1.mem).2⟩

theorem Legal.neg_value_iff {p : Blk} (h : Legal p) : back p 0 = -1 ↔ value 100 p < 0 := by
  constructor
  · intro hneg
    obtain ⟨ds, hds, rfl⟩ := h.neg_iff.mp hneg
    exact value_neg hds
  · intro hneg
    rcases h with h | ⟨ds, h, rfl⟩
    · exact absurd h.value_nonneg (not_le.mpr hneg)
    · exact back_concat_zero ds (-1)

theorem div_result (divxyz : Blk) {ddivd ddivr : Blk} (hd : Legal ddivd) (hr : Normal ddivr)
    (h0 : value 100 ddivr ≠ 0) :
    ∃ r, div divxyz ddivd ddivr = .ok r ∧ r.ddivd = ddivd ∧ r.ddivr = ddivr ∧
      Normal r.q ∧ Legal r.rem ∧ (Normal ddivd → Normal r.rem) ∧
      value 100 ddivd = value 100 r.q * value 100 ddivr + value 100 r.rem ∧
      |value 100 r.rem| < |value 100 ddivr| ∧
      (value 100 r.rem = 0 ∨ (value 100 r.rem).sign = (value 100 ddivd).sign) := by
  have hne : ddivr ≠ [] := by
    rintro rfl
    exact h0 rfl
  have hrs : decide (back ddivr 0 = -1) = true ↔ value 100 ddivr < 0 := by
    rw [decide_eq_true_iff, hr.1.neg_value_iff]
  have hds : (decide (ddivd ≠ []) && decide (back ddivd 0 = -1)) = true ↔
      value 100 ddivd < 0 := by
    rw [Bool.and_eq_true, decide_eq_true_iff, decide_eq_true_iff, hd.neg_value_iff]
    constructor
    · exact fun h => h.2
    · intro hneg
      constructor
      · rintro rfl
        simp at hneg
      · exact hneg
  unfold div
  rw [if_neg hne]
  dsimp only
  generalize decide (back ddivr 0 = -1) = rsign at hrs
  generalize (decide (ddivd ≠ []) && decide (back ddivd 0 = -1)) = dsign at hds
  -- the divisor and the dividend without their signs
  obtain ⟨hrnorm, hrval⟩ := chsign_if hr rsign
  have hrabs : value 100 (if rsign then chsign ddivr else ddivr) = |value 100 ddivr| := by
    rw [hrval]
    split_ifs with h
    · rw [abs_of_neg (hrs.mp h)]
    · rw [abs_of_nonneg]
      by_contra hneg
      exact h (hrs.mpr (by omega))
  have hdabs : Digits 100 (if dsign then chsign ddivd else ddivd) ∧
      value 100 (if dsign then chsign ddivd else ddivd) = |value 100 ddivd| := by
    split_ifs with h
    · obtain ⟨hlegal, hval⟩ := chsign_spec fun d => hd.mem
      have hneg := hds.mp h
      rw [abs_of_neg hneg]
      exact ⟨nonneg_digits hlegal (by omega), hval⟩
    · have hnn : 0 ≤ value 100 ddivd := by
        by_contra hneg
        exact h (hds.mpr (by omega))
      rw [abs_of_nonneg hnn]
      exact ⟨nonneg_digits hd hnn, rfl⟩
  have hdnorm : Normal ddivd → Normal (if dsign then chsign ddivd else ddivd) := fun h =>
    (chsign_if h dsign).1
  generalize (if rsign then chsign ddivr else ddivr) = divr at *
  generalize (if dsign then chsign ddivd else ddivd) = divd at *
  have hrdig : Digits 100 divr := nonneg_digits hrnorm.1 (by rw [hrabs]; exact abs_nonneg _)
  obtain ⟨m, hdivisor⟩ := divisor_of_normal hrnorm hrdig (by
    rw [hrabs]
    exact abs_ne_zero.mpr h0)
  obtain ⟨hdig, hdval⟩ := hdabs
  by_cases hlt : divd.length < divr.length
  · rw [if_pos hlt]
    have hsmall : value 100 divd < |value 100 ddivr| := by
      have hle : (100 : ℤ) ^ divd.length ≤ 100 ^ m :=
        pow_le_pow_right₀ (by decide) (by have := hdivisor.length; omega)
      rw [← hrabs]
      linarith [hdig.value_lt, hdivisor.le]
    have hchs := chsign_spec (digits_range hdig)
    have hs := signed (q := 0) (r := value 100 divd) rsign dsign hrs hds (by rw [← hdval]; ring)
      hdig.value_nonneg hsmall le_rfl
    have hrem : value 100 (if dsign then chsign divd else divd) =
        if dsign then -value 100 divd else value 100 divd := by
      cases dsign with
      | false => rfl
      | true => exact hchs.2
    refine ⟨_, rfl, rfl, rfl, ?_, ?_, fun h => (chsign_if (hdnorm h) dsign).1, ?_, ?_, ?_⟩
    · exact normal_of_digits Digits.nil (by simp)
    · dsimp only
      cases dsign with
      | false => exact Or.inl hdig
      | true => exact hchs.1
    · dsimp only
      rw [hrem, value_nil, hs.1]
      simp
    · dsimp only
      rw [hrem]
      exact hs.2.1
    · dsimp only
      rw [hrem]
      exact hs.2.2
  · rw [if_neg hlt]
    have hleft := left_of_digits hdivisor hdig (not_lt.mp hlt)
    obtain ⟨t, hs, rem, hturns, hhs, hlen, hlast, hval⟩ :=
      turns_spec hdivisor (divd.length - divr.length) hleft divxyz []
    obtain ⟨dig, rem', ho1, hdig0, hdig118, ho2, hrem', hrem0, hremlt, hsum⟩ :=
      repair_spec hdivisor hlast hs
    rw [hturns, List.append_nil]
    obtain ⟨hcdig, hcnorm, hcval⟩ := carried_spec (p := dig :: hs)
      (List.forall_mem_cons.mpr ⟨⟨hdig0, hdig118⟩, hhs⟩)
    have hvd : value 100 (divd ++ [0]) = value 100 divd := by rw [value_concat]; ring
    have hq : |value 100 ddivd| = value 100 (carried (dig :: hs)) * |value 100 ddivr| + rem' := by
      rw [← hdval, ← hvd, hval, hcval, ← hrabs, value_cons, value_cons]
      linear_combination -hsum
    have hsig := signed rsign dsign hrs hds hq hrem0 (by rw [← hrabs]; exact hremlt)
      hcdig.value_nonneg
    have hremnorm := strip0_spec ho2
    have hremval := value_rdropWhile 100 (overshot divr t (undershot divr (t.dig :: hs) t).1
      (undershot divr (t.dig :: hs) t).2).2
    rw [hrem'] at hremval
    obtain ⟨hqn, hqv⟩ := chsign_if hcnorm (rsign ^^ dsign)
    obtain ⟨hrn, hrv⟩ := chsign_if hremnorm dsign
    rw [hremval] at hrv
    refine ⟨_, rfl, rfl, rfl, ?_, hrn.1, fun _ => hrn, ?_, ?_, ?_⟩
    · dsimp only
      rw [ho1]
      exact hqn
    · dsimp only
      rw [ho1, hqv, hrv]
      exact hsig.1
    · dsimp only
      rw [hrv]
      exact hsig.2.1
    · dsimp only
      rw [hrv]
      exact hsig.2.2

/-- What `div` is to do. -/
def DivLaw (divxyz ddivd ddivr : Blk) : Prop :=
  ∃ r, div divxyz ddivd ddivr = .ok r ∧
    value 100 ddivd = value 100 r.q * value 100 ddivr + value 100 r.rem ∧
    |value 100 r.rem| < |value 100 ddivr| ∧
    (value 100 r.rem = 0 ∨ (value 100 r.rem).sign = (value 100 ddivd).sign) ∧
    Legal r.q ∧ value 100 r.ddivd = value 100 ddivd ∧ value 100 r.ddivr = value 100 ddivr

theorem le_length_chsign (p : Blk) : p.length - 1 ≤ (chsign p).length := by
  unfold chsign
  dsimp only
  split_ifs <;>
    simp only [List.length_append, List.length_dropLast, List.length_singleton, length_carryMap] <;>
    omega

theorem Normal.length_le {p : Blk} (h : Normal p) (hdig : Digits 100 p) {k : ℕ}
    (hlt : value 100 p < 100 ^ k) : p.length ≤ k := by
  rcases List.eq_nil_or_concat' p with rfl | ⟨ds, d, rfl⟩
  · exact Nat.zero_le k
  · have hpow : (100 : ℤ) ^ ds.length < 100 ^ k := lt_of_le_of_lt (h.le_value hdig) hlt
    rw [List.length_append, List.length_singleton]
    exact (pow_lt_pow_iff_right₀ (by decide)).mp hpow

/-- A divisor with a superfluous digit is longer than its value without it, which `div` then
takes for the smaller of the two. -/
theorem not_divLaw_superfluous (divxyz : Blk) {ddivr : Blk} (hr : Legal ddivr)
    (hn : ¬ Normal ddivr) : ∃ ddivd, Legal ddivd ∧ ¬ DivLaw divxyz ddivd ddivr := by
  obtain ⟨ds, d, hds, hlt⟩ : ∃ ds d, (ddivr = ds ++ [d] ∧ d ≠ -1 ∨ ddivr = ds ++ [d, -1]) ∧
      |value 100 ddivr| < 100 ^ ds.length := by
    by_contra hall
    push Not at hall
    exact hn ⟨hr, hall⟩
  have hne : ddivr ≠ [] := by
    rintro rfl
    rcases hds with ⟨h, -⟩ | h <;> simp at h
  obtain ⟨hdig, hval⟩ := magnitude hr
  -- no digit is lost with the sign
  have hlen : ds.length <
      (if ddivr ≠ [] ∧ back ddivr 0 = -1 then chsign ddivr else ddivr).length := by
    split_ifs with hneg
    · have hle := le_length_chsign ddivr
      rcases hds with ⟨rfl, hd⟩ | rfl
      · exact absurd (back_concat_zero ds d ▸ hneg.2) hd
      · simp only [List.length_append, List.length_cons, List.length_nil] at hle
        omega
    · rcases hds with ⟨rfl, -⟩ | rfl <;> simp
  have hif : (if ddivr ≠ [] ∧ back ddivr 0 = -1 then chsign ddivr else ddivr) =
      if decide (back ddivr 0 = -1) then chsign ddivr else ddivr := by
    simp [hne]
  rw [hif] at hdig hval hlen
  have hstrip := strip0_spec hdig
  have hsval := value_rdropWhile 100 (if decide (back ddivr 0 = -1) then chsign ddivr else ddivr)
  have hsdig := digits_rdropWhile hdig (· = 0)
  rw [hval] at hsval
  generalize (if decide (back ddivr 0 = -1) then chsign ddivr else ddivr).rdropWhile (· = 0) =
    ddivd at *
  refine ⟨ddivd, Or.inl hsdig, ?_⟩
  have hshort : ddivd.length ≤ ds.length := hstrip.length_le hsdig (hsval ▸ hlt)
  have hback : ¬ back ddivd 0 = -1 := by
    rw [Legal.neg_value_iff (Or.inl hsdig)]
    exact not_lt.mpr hsdig.value_nonneg
  rintro ⟨r, hdiv, -, hrem, -⟩
  unfold div at hdiv
  rw [if_neg hne] at hdiv
  dsimp only at hdiv
  rw [decide_eq_false hback, Bool.and_false, if_neg Bool.false_ne_true,
    if_pos (lt_of_le_of_lt hshort hlen), if_neg Bool.false_ne_true] at hdiv
  cases hdiv
  dsimp only at hrem
  rw [hsval, abs_abs] at hrem
  exact lt_irrefl _ hrem

/-- The law of the long division holds for any digits of the dividend exactly when no digit of
the divisor could be left out: `div` looks at the length of the divisor only, `dscale` at its top
digit. -/
theorem div_law_iff (divxyz ddivr : Blk) (hr : Legal ddivr) (h0 : value 100 ddivr ≠ 0) :
    (∀ ddivd, Legal ddivd → DivLaw divxyz ddivd ddivr) ↔ Normal ddivr := by
  constructor
  · intro h
    by_contra hn
    obtain ⟨ddivd, hd, hnot⟩ := not_divLaw_superfluous divxyz hr hn
    exact hnot (h ddivd hd)
  · intro hn ddivd hd
    obtain ⟨r, hdiv, hddivd, hddivr, hq, -, -, hval, hlt, hsign⟩ := div_result divxyz hd hn h0
    exact ⟨r, hdiv, hval, hlt, hsign, hq.1, by rw [hddivd], by rw [hddivr]⟩

theorem div_law_iff_seven :
    (∀ ddivd, Legal ddivd → DivLaw [] ddivd (chsign [7])) ↔ Normal (chsign [7]) :=
  div_law_iff [] (chsign [7]) (Or.inr ⟨[93], by simp [Digits], by decide⟩) (by decide)

/-- 7 by 7 with a zero at the top. -/
theorem not_div_law : ¬ ∀ divxyz ddivd ddivr : Blk, Legal ddivd → Legal ddivr →
    value 100 ddivr ≠ 0 → DivLaw divxyz ddivd ddivr := by
  intro h
  obtain ⟨r, hdiv, -, hrem, -⟩ := h [] [7] [7, 0] (Or.inl (by simp [Digits]))
    (Or.inl (by simp [Digits])) (by decide)
  cases hdiv
  exact absurd hrem (by decide)

end Unitas.Dc
