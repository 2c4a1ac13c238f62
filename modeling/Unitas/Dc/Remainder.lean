import Mathlib.Algebra.Order.Field.Rat
import Mathlib.Algebra.Order.Ring.Abs
import Mathlib.Tactic.FieldSimp
import Unitas.Dc.Mult
import Unitas.Lib.Literals

/-! `/` and `%` with scales: the dividend is shifted before it is divided, and what is cut off it
comes back into the remainder. -/
namespace Unitas.Dc

open CInt Radix

/-- A number on the stack: its digits, and the byte after them. -/
structure Number where
  digits : Blk
  scale : ℤ

/-- Why no division is made. A number that is given is pushed. -/
inductive Stop where
  | divideByZero (dr : Number)
  | zero (dd : Number)
  | failure (f : Failure)

/-- `sgetc`, again and again: `EOF` is as good as a digit. -/
def sgetcs : ℕ → Blk → Blk × Blk
  | 0, p => ([], p)
  | n + 1, [] => (-1 :: (sgetcs n []).1, (sgetcs n []).2)
  | n + 1, d :: p => (d :: (sgetcs n p).1, (sgetcs n p).2)

/-- A positive number without `n` decimal places, and what was cut off. -/
def cut (divxyz p : Blk) (n : ℕ) : Except Failure (Blk × Blk) :=
  let s := sgetcs (n / 2) p
  if n % 2 = 1 then
    match div divxyz s.2 tenptr with
    | .error f => .error f
    | .ok d => .ok (d.q, s.1 ++ d.rem.take 1)
  else .ok (s.2, s.1)

/-- The second is `irem`. -/
def removr (divxyz p : Blk) (n : ℕ) : Except Failure (Blk × Blk) :=
  let neg := decide (back p 0 < 0)
  match cut divxyz (if neg then chsign p else p) n with
  | .error f => .error f
  | .ok (r, q) => .ok (if neg then chsign r else r, if neg then chsign q else q)

structure Scaled where
  arg1 : Blk
  arg2 : Blk
  savk : ℤ
  irem : Option Blk
  skd : ℤ
  skr : ℤ

def dscale (divxyz : Blk) (k : ℤ) (dd dr : Number) : Except Stop Scaled :=
  if dr.digits = [] ∨ back dr.digits 0 = 0 then .error (.divideByZero dr)
  else if dd.digits = [] ∨ back dd.digits 0 = 0 then .error (.zero dd)
  else
    let c := k - dd.scale + dr.scale
    if c < 0 then
      match removr divxyz dd.digits (-c).toNat with
      | .error f => .error (.failure f)
      | .ok (r, irem) => .ok ⟨r, dr.digits, char k, some irem, dd.scale, dr.scale⟩
    else .ok ⟨add0 dd.digits c.toNat, dr.digits, char k, none, dd.scale, dr.scale⟩

/-- What `/` pushes. `divxyz` and `divxyz'` are in that block before the two divisions. -/
def slash (divxyz divxyz' : Blk) (k : ℤ) (dd dr : Number) : Except Stop Number :=
  match dscale divxyz k dd dr with
  | .error e => .error e
  | .ok s =>
    match div divxyz' s.arg1 s.arg2 with
    | .error f => .error (.failure f)
    | .ok d => .ok ⟨d.q, s.savk⟩

/-- What `%` pushes. -/
def percent (divxyz divxyz' : Blk) (k : ℤ) (dd dr : Number) : Except Stop Number :=
  match dscale divxyz k dd dr with
  | .error e => .error e
  | .ok s =>
    match div divxyz' s.arg1 s.arg2 with
    | .error f => .error (.failure f)
    | .ok d =>
      match s.irem with
      | none => .ok ⟨d.rem, char (s.skr + k)⟩
      | some irem => .ok ⟨add (add0 d.rem (s.skd - (s.skr + k)).toNat) irem, char s.skd⟩

/-! ### What is cut off -/

theorem sgetcs_eq (n : ℕ) (p : Blk) :
    sgetcs n p = (p.take n ++ List.replicate (n - p.length) (-1), p.drop n) := by
  induction n generalizing p with
  | zero => simp [sgetcs]
  | succ n ih =>
    cases p with
    | nil =>
      unfold sgetcs
      rw [ih]
      simp [List.replicate_succ]
    | cons d p =>
      unfold sgetcs
      rw [ih]
      simp

/-- The number has a digit for every two of the `n` decimal places. -/
def Enough (p : Blk) (n : ℤ) : Prop := ∀ j : ℕ, 2 * (j + 1) ≤ n → 100 ^ j ≤ |value 100 p|

theorem value_replicate_neg (n : ℕ) : value 100 (List.replicate (n + 1) (-1)) < 0 := by
  have hle (n : ℕ) : value 100 (List.replicate n (-1)) ≤ 0 := by
    induction n with
    | zero => exact le_rfl
    | succ n ih =>
      rw [List.replicate_succ, value_cons]
      omega
  rw [List.replicate_succ, value_cons]
  have := hle n
  omega

/-- The digits of `p` below the cut and above it. -/
theorem sgetcs_spec {p : Blk} (hp : Digits 100 p) (j : ℕ) :
    (∀ d ∈ (sgetcs j p).1, -1 ≤ d ∧ d < 100) ∧ (sgetcs j p).1.length = j ∧
      Digits 100 (sgetcs j p).2 ∧
      (j ≤ p.length → value 100 p = value 100 (sgetcs j p).1 + 100 ^ j * value 100 (sgetcs j p).2 ∧
        0 ≤ value 100 (sgetcs j p).1 ∧ value 100 (sgetcs j p).1 < 100 ^ j) ∧
      (p.length < j → value 100 (sgetcs j p).1 < value 100 p ∧ (sgetcs j p).2 = []) := by
  rw [sgetcs_eq]
  dsimp only
  refine ⟨?_, ?_, fun d hd => hp d (List.mem_of_mem_drop hd), ?_, ?_⟩
  · intro d hd
    rcases List.mem_append.mp hd with hd | hd
    · have := hp d (List.mem_of_mem_take hd)
      omega
    · rw [List.eq_of_mem_replicate hd]
      decide
  · rw [List.length_append, List.length_take, List.length_replicate]
    omega
  · intro hle
    have hzero : j - p.length = 0 := by omega
    have htake : Digits 100 (p.take j) := fun d hd => hp d (List.mem_of_mem_take hd)
    have htlt := htake.value_lt
    rw [List.length_take, min_eq_left hle] at htlt
    rw [hzero, List.replicate_zero, List.append_nil]
    refine ⟨?_, htake.value_nonneg, htlt⟩
    conv_lhs => rw [← List.take_append_drop j p]
    rw [value_append, List.length_take, min_eq_left hle]
  · intro hlt
    obtain ⟨i, hi⟩ := Nat.exists_eq_add_of_lt hlt
    have hrest : j - p.length = i + 1 := by omega
    rw [hrest, List.take_of_length_le hlt.le, value_append]
    have hneg := value_replicate_neg i
    have hpos : (0 : ℤ) < 100 ^ p.length := by positivity
    exact ⟨by linarith [mul_neg_of_pos_of_neg hpos hneg], List.drop_eq_nil_of_le hlt.le⟩

theorem tenptr_normal : Normal tenptr :=
  normal_of_digits (by simp [tenptr, Digits]) (by intro ds he; cases ds <;> simp [tenptr] at he)

theorem value_tenptr : value 100 tenptr = 10 := by decide

theorem div_tenptr (divxyz : Blk) {p : Blk} (hp : Legal p) (h0 : 0 ≤ value 100 p) :
    ∃ d, div divxyz p tenptr = .ok d ∧ Normal d.q ∧ Legal d.rem ∧
      value 100 p = value 100 d.q * 10 + value 100 d.rem ∧ 0 ≤ value 100 d.rem ∧
      value 100 d.rem < 10 := by
  obtain ⟨d, hdiv, -, -, hq, hrem, -, hval, hlt, hsign⟩ := div_result divxyz hp tenptr_normal
    (by rw [value_tenptr]; decide)
  have hten : |(10 : ℤ)| = 10 := rfl
  rw [value_tenptr] at hval hlt
  rw [hten, abs_lt] at hlt
  refine ⟨d, hdiv, hq, hrem, hval, ?_, hlt.2⟩
  rcases hsign with hzero | hsign
  · omega
  · by_contra hneg
    rw [Int.sign_eq_neg_one_of_neg (by omega)] at hsign
    have := Int.sign_nonneg_iff.mpr h0
    omega

/-- The one digit of the remainder by ten. -/
theorem value_take_one {p : Blk} (h : Digits 100 p) (hlt : value 100 p < 10) :
    value 100 (p.take 1) = value 100 p := by
  cases p with
  | nil => rfl
  | cons d p =>
    obtain ⟨hd, hp⟩ := List.forall_mem_cons.mp h
    have h0 : 0 ≤ value 100 p := Digits.value_nonneg hp
    rw [value_cons] at hlt
    have hzero : value 100 p = 0 := by omega
    rw [value_cons, hzero]
    rfl

theorem cut_spec (divxyz : Blk) {p : Blk} (hp : Digits 100 p) (n : ℕ) :
    ∃ r q, cut divxyz p n = .ok (r, q) ∧ Legal r ∧ (∀ d ∈ q, -1 ≤ d ∧ d < 100) ∧
      (n / 2 ≤ p.length → value 100 p = value 100 r * 10 ^ n + value 100 q ∧
        0 ≤ value 100 r ∧ 0 ≤ value 100 q ∧ value 100 q < 10 ^ n) ∧
      (p.length < n / 2 → value 100 q < value 100 p ∧ value 100 r = 0) := by
  obtain ⟨hlow, hlen, hhigh, henough, hshort⟩ := sgetcs_spec hp (n / 2)
  have hn : 2 * (n / 2) + n % 2 = n := Nat.div_add_mod n 2
  have hpow : (10 : ℤ) ^ (2 * (n / 2)) = 100 ^ (n / 2) := by
    rw [pow_mul]
    norm_num
  unfold cut
  dsimp only
  generalize sgetcs (n / 2) p = s at *
  split_ifs with hodd
  · have h0 : 0 ≤ value 100 s.2 := Digits.value_nonneg hhigh
    obtain ⟨d, hdiv, hq, hrem, hval, hrem0, hlt⟩ := div_tenptr divxyz (Or.inl hhigh) h0
    have hone := value_take_one (nonneg_digits hrem hrem0) (by omega)
    have hqval : value 100 (s.1 ++ d.rem.take 1) =
        value 100 s.1 + 100 ^ (n / 2) * value 100 d.rem := by
      rw [value_append, hlen, hone]
    rw [hdiv]
    refine ⟨d.q, s.1 ++ d.rem.take 1, rfl, hq.1, ?_, ?_, ?_⟩
    · intro e he
      rcases List.mem_append.mp he with he | he
      · exact hlow e he
      · exact hrem.mem (List.mem_of_mem_take he)
    · intro hle
      have h10 : (10 : ℤ) ^ n = 100 ^ (n / 2) * 10 := by
        conv_lhs => rw [← hn, hodd, pow_succ, hpow]
      obtain ⟨hsplit, hlow0, hlowlt⟩ := henough hle
      have hpos : (0 : ℤ) < 100 ^ (n / 2) := by positivity
      have hrem9 : 100 ^ (n / 2) * value 100 d.rem ≤ 100 ^ (n / 2) * 9 :=
        mul_le_mul_of_nonneg_left (by omega) hpos.le
      have hremn : 0 ≤ 100 ^ (n / 2) * value 100 d.rem := mul_nonneg hpos.le hrem0
      rw [hqval, h10, hsplit]
      exact ⟨by linear_combination 100 ^ (n / 2) * hval, by omega, by linarith, by linarith⟩
    · intro hlt'
      obtain ⟨hless, hnil⟩ := hshort hlt'
      rw [hnil, value_nil] at hval
      have hr0 : value 100 d.rem = 0 := by omega
      rw [hqval, hr0, mul_zero, add_zero]
      exact ⟨hless, by omega⟩
  · refine ⟨s.2, s.1, rfl, Or.inl hhigh, hlow, ?_, ?_⟩
    · intro hle
      have heven : (10 : ℤ) ^ n = 100 ^ (n / 2) := by
        rw [← hpow]
        congr 1
        omega
      obtain ⟨hsplit, hlow0, hlowlt⟩ := henough hle
      rw [heven]
      exact ⟨by linarith, Digits.value_nonneg hhigh, hlow0, hlowlt⟩
    · intro hlt
      obtain ⟨hless, hnil⟩ := hshort hlt
      exact ⟨hless, by rw [hnil]; rfl⟩

theorem enough_iff {p : Blk} (hp : Digits 100 p) (hn : Normal p) (h0 : value 100 p ≠ 0) (n : ℕ) :
    n / 2 ≤ p.length ↔ Enough p n := by
  obtain ⟨m, hm⟩ := divisor_of_normal hn hp h0
  have hlt := hp.value_lt
  have hle := hm.le
  unfold Enough
  rw [abs_of_nonneg hp.value_nonneg]
  constructor
  · intro hlen j hj
    have hjm : j ≤ m := by
      have := hm.length
      omega
    exact (pow_le_pow_right₀ (by decide) hjm).trans hle
  · intro h
    by_contra hlt'
    exact absurd (h p.length (by omega)) (not_le.mpr hlt)

/-- `removr` on a number that is not zero: with digits enough it divides by a power of ten. -/
theorem removr_spec (divxyz : Blk) {p : Blk} (hp : Normal p) (h0 : value 100 p ≠ 0) (n : ℕ) :
    ∃ r irem, removr divxyz p n = .ok (r, irem) ∧ Legal r ∧ (∀ d ∈ irem, -1 ≤ d ∧ d < 100) ∧
      (Enough p n → value 100 p = value 100 r * 10 ^ n + value 100 irem ∧
        |value 100 irem| < |(10 : ℤ) ^ n| ∧
        (value 100 irem = 0 ∨ (value 100 irem).sign = (value 100 p).sign)) ∧
      (¬ Enough p n → value 100 irem ≠ value 100 p ∧ value 100 r = 0) := by
  have hiff : decide (back p 0 < 0) = true ↔ value 100 p < 0 := by
    rw [decide_eq_true_iff, ← back_neg_iff hp.1]
    constructor
    · intro h
      constructor
      · rintro rfl
        exact h0 rfl
      · exact h
    · exact fun h => h.2
  unfold removr
  dsimp only
  generalize decide (back p 0 < 0) = neg at *
  obtain ⟨hpn, hpv⟩ := chsign_if hp neg
  have habs : value 100 (if neg = true then chsign p else p) = |value 100 p| := by
    rw [hpv]
    split_ifs with h
    · rw [abs_of_neg (hiff.mp h)]
    · rw [abs_of_nonneg]
      by_contra hlt
      exact h (hiff.mpr (by omega))
  have hdig : Digits 100 (if neg = true then chsign p else p) :=
    nonneg_digits hpn.1 (by rw [habs]; exact abs_nonneg _)
  obtain ⟨r, q, hcut, hr, hq, henough, hshort⟩ := cut_spec divxyz hdig n
  have hlen := enough_iff hdig hpn (by rw [habs]; exact abs_ne_zero.mpr h0) n
  unfold Enough at hlen ⊢
  rw [habs, abs_abs] at hlen
  rw [habs] at henough hshort
  rw [hcut]
  have hchr := chsign_spec fun d (hd : d ∈ r) => hr.mem hd
  have hchq := chsign_spec hq
  have hrval : value 100 (if neg = true then chsign r else r) =
      if neg then -value 100 r else value 100 r := by
    cases neg with
    | false => rfl
    | true => exact hchr.2
  have hqval : value 100 (if neg = true then chsign q else q) =
      if neg then -value 100 q else value 100 q := by
    cases neg with
    | false => rfl
    | true => exact hchq.2
  refine ⟨_, _, rfl, ?_, ?_, fun h => ?_, fun h => ?_⟩
  · cases neg with
    | false => exact hr
    | true => exact hchr.1
  · cases neg with
    | false => exact hq
    | true => exact fun d => hchq.1.mem
  · obtain ⟨hval, hr0, hq0, hqlt⟩ := henough (hlen.mpr h)
    have hten : |(10 : ℤ) ^ n| = 10 ^ n := abs_of_nonneg (by positivity)
    have hsig := signed (b := 10 ^ n) false neg (by simp) hiff
      (by rw [hten]; exact hval) hq0 (by rw [hten]; exact hqlt) hr0
    rw [Bool.false_xor] at hsig
    rw [hrval, hqval]
    exact hsig
  · obtain ⟨hlt, hr0⟩ := hshort (not_le.mp fun hle => h (hlen.mp hle))
    rw [hrval, hqval, hr0]
    constructor
    · split_ifs with hneg
      · rw [abs_of_neg (hiff.mp hneg)] at hlt
        omega
      · have := le_abs_self (value 100 p)
        have hnn : 0 ≤ value 100 p := by
          by_contra hlt'
          exact hneg (hiff.mpr (by omega))
        rw [abs_of_nonneg hnn] at hlt
        omega
    · split_ifs <;> rfl

/-! ### The law -/

theorem top_ne_zero {p : Blk} (hp : Normal p) (h0 : value 100 p ≠ 0) :
    ¬ (p = [] ∨ back p 0 = 0) := by
  rintro (rfl | hback)
  · exact h0 rfl
  · obtain ⟨ds, d, rfl⟩ := (List.eq_nil_or_concat' p).resolve_left (by rintro rfl; exact h0 rfl)
    rw [back_concat_zero] at hback
    subst hback
    have hdig : Digits 100 (ds ++ [0]) := hp.1.digits (by rw [back_concat_zero]; decide)
    have hle := hp.le_value hdig
    have hds : Digits 100 ds := Digits.of_append_left hdig
    rw [value_concat, mul_zero, add_zero] at hle
    exact absurd hds.value_lt (not_lt.mpr hle)

/-- Quotient and remainder are determined by the division. -/
theorem quotient_unique {a b q r q' r' : ℤ} (h : a = q * b + r) (hr : |r| < |b|)
    (hs : r = 0 ∨ r.sign = a.sign) (h' : a = q' * b + r') (hr' : |r'| < |b|)
    (hs' : r' = 0 ∨ r'.sign = a.sign) : q = q' := by
  have hdiff : |(q - q') * b| < |b| := by
    have heq : (q - q') * b = r' - r := by linarith
    rw [heq, abs_lt]
    rw [abs_lt] at hr hr'
    have hsame : (0 ≤ r ∧ 0 ≤ r') ∨ (r ≤ 0 ∧ r' ≤ 0) := by
      rcases lt_trichotomy a 0 with ha | ha | ha
      · rw [Int.sign_eq_neg_one_of_neg ha, Int.sign_eq_neg_one_iff_neg] at hs hs'
        omega
      · rw [ha, Int.sign_zero, Int.sign_eq_zero_iff_zero] at hs hs'
        omega
      · rw [Int.sign_eq_one_of_pos ha, Int.sign_eq_one_iff_pos] at hs hs'
        omega
    omega
  rw [abs_mul] at hdiff
  by_contra hne
  have hone : 1 ≤ |q - q'| := Int.one_le_abs (sub_ne_zero.mpr hne)
  have := mul_le_mul_of_nonneg_right hone (abs_nonneg b)
  linarith

/-- What a number on the stack stands for. -/
def Number.val (n : Number) : ℚ := value 100 n.digits / 10 ^ n.scale

/-- A number of `dc` with a scale that it can have. -/
structure Number.Proper (n : Number) : Prop where
  normal : Normal n.digits
  ne_zero : value 100 n.digits ≠ 0
  scale_nonneg : 0 ≤ n.scale
  scale_le : n.scale ≤ 99

theorem shifted {A B Q R : ℤ} {sa sb k c : ℕ} (hc : c + sa = k + sb)
    (h : 10 ^ c * A = Q * B + R) :
    (A : ℚ) / 10 ^ sa = Q / 10 ^ k * (B / 10 ^ sb) + R / 10 ^ (sb + k) := by
  have hq : (10 : ℚ) ^ c * A = Q * B + R := by exact_mod_cast h
  rw [div_mul_div_comm, ← pow_add, add_comm sb k, ← add_div, ← hq, ← hc, pow_add,
    mul_div_mul_left _ _ (by positivity)]

theorem cut_iff {A B Q S : ℤ} {sa sb k n : ℕ} (hn : n + (sb + k) = sa) :
    (A : ℚ) / 10 ^ sa = Q / 10 ^ k * (B / 10 ^ sb) + S / 10 ^ sa ↔
      A = 10 ^ n * (Q * B) + S := by
  have hpos : (0 : ℚ) < 10 ^ sa := by positivity
  have hpow : (10 : ℚ) ^ sa = 10 ^ n * 10 ^ (k + sb) := by rw [← pow_add, add_comm k, hn]
  have hmul : (Q : ℚ) / 10 ^ k * (B / 10 ^ sb) = 10 ^ n * (Q * B) / 10 ^ sa := by
    rw [div_mul_div_comm, ← pow_add, hpow, mul_div_mul_left _ _ (by positivity)]
  rw [hmul, ← add_div, div_left_inj' hpos.ne']
  exact_mod_cast Iff.rfl

/-- What `/` and `%` push for the same numbers. -/
def RemainderLaw (divxyz : Fin 4 → Blk) (k : ℤ) (a b : Number) : Prop :=
  ∃ q r, slash (divxyz 0) (divxyz 1) k a b = .ok q ∧
    percent (divxyz 2) (divxyz 3) k a b = .ok r ∧
    a.val = q.val * b.val + r.val ∧ r.scale = max a.scale (b.scale + k)

/-- The new scale fits a `char`, or there are digits enough to cut. -/
def Fits (k : ℤ) (a b : Number) : Prop :=
  if a.scale ≤ b.scale + k then b.scale + k < 128
  else Enough a.digits (a.scale - (b.scale + k))

theorem dscale_shift {k : ℤ} {a b : Number} (ha : a.Proper) (hb : b.Proper)
    (hle : a.scale ≤ b.scale + k) (divxyz : Blk) :
    dscale divxyz k a b = .ok ⟨add0 a.digits (k - a.scale + b.scale).toNat, b.digits, char k,
      none, a.scale, b.scale⟩ := by
  unfold dscale
  dsimp only
  rw [if_neg (top_ne_zero hb.normal hb.ne_zero), if_neg (top_ne_zero ha.normal ha.ne_zero),
    if_neg (by omega)]

theorem dscale_cut {k : ℤ} {a b : Number} (ha : a.Proper) (hb : b.Proper)
    (hlt : b.scale + k < a.scale) (divxyz : Blk) {r irem : Blk}
    (h : removr divxyz a.digits (a.scale - (b.scale + k)).toNat = .ok (r, irem)) :
    dscale divxyz k a b = .ok ⟨r, b.digits, char k, some irem, a.scale, b.scale⟩ := by
  have hn : -(k - a.scale + b.scale) = a.scale - (b.scale + k) := by omega
  unfold dscale
  dsimp only
  rw [if_neg (top_ne_zero hb.normal hb.ne_zero), if_neg (top_ne_zero ha.normal ha.ne_zero),
    if_pos (by omega), hn, h]

theorem law_shift {k : ℤ} (hk0 : 0 ≤ k) (hk : k ≤ 99) {a b : Number} (ha : a.Proper)
    (hb : b.Proper) (hle : a.scale ≤ b.scale + k) (divxyz : Fin 4 → Blk) :
    RemainderLaw divxyz k a b ↔ b.scale + k < 128 := by
  obtain ⟨harg, hargval⟩ := add0_spec ha.normal.1 (k - a.scale + b.scale).toNat
  obtain ⟨d, hdiv, -, -, -, -, -, hval, hlt, hsign⟩ :=
    div_result (divxyz 1) harg hb.normal hb.ne_zero
  obtain ⟨d', hdiv', -, -, -, -, -, hval', hlt', hsign'⟩ :=
    div_result (divxyz 3) harg hb.normal hb.ne_zero
  have hq := quotient_unique hval hlt hsign hval' hlt' hsign'
  have hslash : slash (divxyz 0) (divxyz 1) k a b = .ok ⟨d.q, char k⟩ := by
    unfold slash
    rw [dscale_shift ha hb hle]
    dsimp only
    rw [hdiv]
  have hpercent : percent (divxyz 2) (divxyz 3) k a b = .ok ⟨d'.rem, char (b.scale + k)⟩ := by
    unfold percent
    rw [dscale_shift ha hb hle]
    dsimp only
    rw [hdiv']
  have hmax : max a.scale (b.scale + k) = b.scale + k := max_eq_right hle
  unfold RemainderLaw
  rw [hslash, hpercent, hmax]
  constructor
  · rintro ⟨q, r, -, hr, -, hscale⟩
    have hr' := Except.ok.inj hr
    rw [← hr'] at hscale
    dsimp only at hscale
    rw [char_def] at hscale
    split_ifs at hscale <;> omega
  · intro hfits
    have hb0 := hb.scale_nonneg
    have hchark : char k = k := char_eq (by omega) (by omega)
    have hchar : char (b.scale + k) = b.scale + k := char_eq (by omega) (by omega)
    refine ⟨_, _, rfl, rfl, ?_, hchar⟩
    unfold Number.val
    dsimp only
    rw [hchar, hchark]
    obtain ⟨sa, hsa⟩ := Int.eq_ofNat_of_zero_le ha.scale_nonneg
    obtain ⟨sb, hsb⟩ := Int.eq_ofNat_of_zero_le hb.scale_nonneg
    obtain ⟨k', hk'⟩ := Int.eq_ofNat_of_zero_le hk0
    rw [hsa, hsb, hk'] at hle hargval ⊢
    rw [← Nat.cast_add, zpow_natCast, zpow_natCast, zpow_natCast, zpow_natCast]
    apply shifted (c := (k' - sa + sb : ℤ).toNat) (by omega)
    rw [← hargval, hq]
    rw [hsa, hsb, hk'] at hval'
    exact hval'

theorem law_cut {k : ℤ} (hk0 : 0 ≤ k) (hk : k ≤ 99) {a b : Number} (ha : a.Proper)
    (hb : b.Proper) (hlt : b.scale + k < a.scale) (divxyz : Fin 4 → Blk) :
    RemainderLaw divxyz k a b ↔ Enough a.digits (a.scale - (b.scale + k)) := by
  have hcast : ((a.scale - (b.scale + k)).toNat : ℤ) = a.scale - (b.scale + k) :=
    Int.toNat_of_nonneg (by omega)
  obtain ⟨r, irem, hr, hlegal, hirem, henough, hshort⟩ :=
    removr_spec (divxyz 0) ha.normal ha.ne_zero (a.scale - (b.scale + k)).toNat
  obtain ⟨r', irem', hr', hlegal', hirem', henough', hshort'⟩ :=
    removr_spec (divxyz 2) ha.normal ha.ne_zero (a.scale - (b.scale + k)).toNat
  rw [hcast] at henough henough' hshort hshort'
  obtain ⟨d, hdiv, -, -, -, -, -, hval, hlt₁, hsign⟩ :=
    div_result (divxyz 1) hlegal hb.normal hb.ne_zero
  obtain ⟨d', hdiv', -, -, -, hrem', -, hval', hlt₂, hsign'⟩ :=
    div_result (divxyz 3) hlegal' hb.normal hb.ne_zero
  have hsame : value 100 r = value 100 r' := by
    by_cases he : Enough a.digits (a.scale - (b.scale + k))
    · obtain ⟨h1, h2, h3⟩ := henough he
      obtain ⟨h1', h2', h3'⟩ := henough' he
      exact quotient_unique h1 h2 h3 h1' h2' h3'
    · rw [(hshort he).2, (hshort' he).2]
  rw [hsame] at hval hsign
  have hq := quotient_unique hval hlt₁ hsign hval' hlt₂ hsign'
  obtain ⟨hadd0, hadd0val⟩ := add0_spec hrem' (a.scale - (b.scale + k)).toNat
  obtain ⟨-, haddval⟩ := add_spec (fun e => hadd0.mem) hirem'
  have hb0 := hb.scale_nonneg
  have hle := ha.scale_le
  have hchark : char k = k := char_eq (by omega) (by omega)
  have hchar : char a.scale = a.scale := char_eq (by omega) (by omega)
  have hslash : slash (divxyz 0) (divxyz 1) k a b = .ok ⟨d.q, k⟩ := by
    unfold slash
    rw [dscale_cut ha hb hlt _ hr]
    dsimp only
    rw [hdiv, hchark]
  have hpercent : percent (divxyz 2) (divxyz 3) k a b =
      .ok ⟨add (add0 d'.rem (a.scale - (b.scale + k)).toNat) irem', a.scale⟩ := by
    unfold percent
    rw [dscale_cut ha hb hlt _ hr']
    dsimp only
    rw [hdiv', hchar]
  have hlaw : RemainderLaw divxyz k a b ↔ a.val = Number.val ⟨d.q, k⟩ * b.val +
      Number.val ⟨add (add0 d'.rem (a.scale - (b.scale + k)).toNat) irem', a.scale⟩ := by
    unfold RemainderLaw
    rw [hslash, hpercent, max_eq_left hlt.le]
    constructor
    · rintro ⟨q, s, hq', hs', h, -⟩
      rw [← Except.ok.inj hq', ← Except.ok.inj hs'] at h
      exact h
    · exact fun h => ⟨_, _, rfl, rfl, h, rfl⟩
  rw [hlaw]
  unfold Number.val
  dsimp only
  obtain ⟨sa, hsa⟩ := Int.eq_ofNat_of_zero_le ha.scale_nonneg
  obtain ⟨sb, hsb⟩ := Int.eq_ofNat_of_zero_le hb.scale_nonneg
  obtain ⟨k', hk'⟩ := Int.eq_ofNat_of_zero_le hk0
  rw [hsa, hsb, hk', zpow_natCast, zpow_natCast, zpow_natCast,
    cut_iff (n := (sa - (sb + k') : ℤ).toNat) (by omega)]
  rw [hsa, hsb, hk'] at haddval hadd0val henough' hshort'
  rw [haddval, hadd0val, hq]
  constructor
  · intro h
    by_contra he
    obtain ⟨hne, hr0⟩ := hshort' he
    rw [hr0] at hval'
    apply hne
    linear_combination -h + 10 ^ (sa - (sb + k') : ℤ).toNat * hval'
  · intro he
    obtain ⟨h1, -, -⟩ := henough' he
    rw [h1, hval']
    ring

/-- For every scale setting and all numbers that are not zero: the law holds exactly when the
scale of the remainder can be stored, or the dividend has digits enough for what is cut off. -/
theorem remainder_iff (divxyz : Fin 4 → Blk) (k : ℤ) (hk0 : 0 ≤ k) (hk : k ≤ 99) (a b : Number)
    (ha : a.Proper) (hb : b.Proper) : RemainderLaw divxyz k a b ↔ Fits k a b := by
  unfold Fits
  split_ifs with hle
  · exact law_shift hk0 hk ha hb hle divxyz
  · exact law_cut hk0 hk ha hb (not_le.mp hle) divxyz

/-- 7 / 2 at scale 3. -/
theorem remainder_iff_seven : RemainderLaw (fun _ => []) 3 ⟨[7], 0⟩ ⟨[2], 0⟩ ↔
    Fits 3 ⟨[7], 0⟩ ⟨[2], 0⟩ :=
  remainder_iff (fun _ => []) 3 (by decide) (by decide) ⟨[7], 0⟩ ⟨[2], 0⟩
    ⟨normal_of_digits (by simp [Digits]) (by intro ds he; cases ds <;> simp at he), by decide,
      by decide, by decide⟩
    ⟨normal_of_digits (by simp [Digits]) (by intro ds he; cases ds <;> simp at he), by decide,
      by decide, by decide⟩

/-- `.00001 1 %` at scale 0 gives `-.00099`. -/
theorem remainder_short : ¬ RemainderLaw (fun _ => []) 0 ⟨[1], 5⟩ ⟨[1], 0⟩ := by
  have hone : Normal [1] :=
    normal_of_digits (by simp [Digits]) (by intro ds he; cases ds <;> simp at he)
  rw [law_cut (by decide) (by decide) ⟨hone, by decide, by decide, by decide⟩
    ⟨hone, by decide, by decide, by decide⟩ (by decide)]
  intro h
  exact absurd (h 1 (by decide)) (by decide)

end Unitas.Dc
