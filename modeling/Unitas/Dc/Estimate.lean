import Unitas.Dc.Blk

/-! The long division of `dc`, as it is computed. -/
namespace Unitas.Dc

open CInt Radix

inductive Failure where
  /-- `divide by 0` -/
  | zero
  /-- a division by zero in C -/
  | signal
  deriving DecidableEq

/-- What a turn of the main loop leaves behind. -/
structure Turn where
  dig : ℤ
  under : Bool
  divd : Blk
  divxyz : Blk
  divcarry : ℤ

/-- `c` and `magic`: the divisor's first digits. -/
def divisor (divr : Blk) : ℤ × Bool :=
  let c := back divr 0
  let c' := c * 100 + back divr 1
  if c < 10 then (((c' * 100 + back divr 2) * 2).tdiv 25, true) else (c', false)

/-- The estimate of a digit, and `under`. -/
def digit (td cc : ℤ) (magic : Bool) : ℤ × Bool :=
  let td := if magic then 8 * td else td
  let dig := td.tdiv cc
  if td.tmod cc < 8 ∧ 0 < dig ∧ magic then (dig - 1, true) else (dig, false)

/-- `divr` times `dig`. -/
def multiple (divr : Blk) (dig : ℤ) : Blk :=
  let r := carryMap (fun d carry =>
    let d := d * dig + carry
    (char (d.tmod 100), d.tdiv 100)) 0 divr
  r.1 ++ [char r.2]

/-- What is below `offset` stays as it is. -/
def subtract (divd divxyz : Blk) (offset : ℕ) : Blk × ℤ :=
  let r := carryMap (fun (d : ℤ × ℤ) carry =>
    let d := d.1 - d.2 - carry
    if d < 0 then (char (d + 100), 1) else (char d, 0)) 0
      (columns (divd.length - offset) (divd.drop offset) divxyz)
  (divd.take offset ++ r.1, r.2)

/-- The body of the main loop, as far as the digit is stored. What `divxyz` had from earlier
turns above the new digits stays there. -/
def turn (divr : Blk) (c : ℤ) (magic : Bool) (divd divxyz : Blk) (offset : ℕ) :
    Except Failure Turn :=
  let td := (back divd 0 * 100 + back divd 1) * 100 + back divd 2
  let td := if offset = 0 then td + 1 else td
  let cc := if offset = 0 then c else c + 1
  if cc = 0 then .error .signal
  else
    let (dig, under) := digit td cc magic
    let prod := multiple divr dig
    let divxyz := prod ++ divxyz.drop prod.length
    let r := subtract divd divxyz offset
    .ok ⟨dig, under, r.1, divxyz, r.2⟩

/-- What the top digit is worth is added to the one below it, and the top digit taken off. -/
def handDown (divd : Blk) : Blk :=
  (if back divd 0 ≠ 0 then salterc divd (divd.length - 2) (back divd 1 + 100) else divd).dropLast

/-- The main loop: the digits of the quotient below those in `p`, and the last turn. -/
def turns (divr : Blk) (c : ℤ) (magic : Bool) : ℕ → Blk → Blk → Blk → Except Failure (Blk × Turn)
  | 0, divd, divxyz, p => do
    let t ← turn divr c magic divd divxyz 0
    .ok (char t.dig :: p, t)
  | offset + 1, divd, divxyz, p => do
    let t ← turn divr c magic divd divxyz (offset + 1)
    turns divr c magic offset (handDown t.divd) t.divxyz (char t.dig :: p)

/-- What is done after the main loop if the last digit was too low: `p`, `divd` and where `rd`
is in each. -/
def undershot (divr : Blk) (p : Blk) (t : Turn) : (Blk × ℕ) × (Blk × ℕ) :=
  if t.under then
    let ps := add (chsign divr) t.divd
    if ps ≠ [] ∧ back ps 0 < 0 then ((p, 0), (t.divd, t.divd.length))
    else ((salterc p 0 (t.dig + 1), 1), (ps, ps.length - 1))
  else ((p, 0), (t.divd, t.divd.length - 1))

/-- What is done then if it was too high. -/
def overshot (divr : Blk) (t : Turn) (p divd : Blk × ℕ) : Blk × Blk :=
  if t.divcarry ≠ 0 then
    (salterc p.1 p.2 (t.dig - 1), add divr (salterc divd.1 divd.2 (-1)))
  else (p.1, divd.1)

/-- The last pass over the quotient, in which digits may have come to 100 or more. -/
def carried (p : Blk) : Blk :=
  let r := carryMap (fun d divcarry =>
    let d := d + divcarry
    if 100 ≤ d then (char (d - 100), 1) else (char d, 0)) 0 p
  (if r.2 ≠ 0 then r.1 ++ [char r.2] else r.1).rdropWhile (· = 0)

structure Division where
  q : Blk
  rem : Blk
  ddivd : Blk
  ddivr : Blk

/-- `divxyz` is what an earlier division has left in that block. A negative number is copied
before its sign is changed. -/
def div (divxyz ddivd ddivr : Blk) : Except Failure Division :=
  if ddivr = [] then .error .zero
  else
    let rsign := decide (back ddivr 0 = -1)
    let dsign := decide (ddivd ≠ []) && decide (back ddivd 0 = -1)
    let divr := if rsign then chsign ddivr else ddivr
    let divd := if dsign then chsign ddivd else ddivd
    if divd.length < divr.length then
      .ok ⟨[], if dsign then chsign divd else divd, ddivd, ddivr⟩
    else do
      let c := divisor divr
      let (p, t) ← turns divr c.1 c.2 (divd.length - divr.length) (divd ++ [0]) divxyz []
      let u := undershot divr p t
      let (p, divd) := overshot divr t u.1 u.2
      let p := carried p
      let divd := divd.rdropWhile (· = 0)
      .ok ⟨if rsign ^^ dsign then chsign p else p, if dsign then chsign divd else divd, ddivd, ddivr⟩

end Unitas.Dc

/-! How far the estimate of a quotient digit is off. `X` is what is left of the dividend and `Y`
the divisor at its place, both times a number that makes `td` and `c` the whole parts of `X / N`
and `Y / N` (of `8 * Y / N` in the magic case, nearly). -/
namespace Unitas.Dc

structure Bounds (N X Y td c : ℤ) (magic : Bool) : Prop where
  pos : 0 < N
  nonneg : 0 ≤ X
  lt : X < 117 * Y
  td_le : td * N ≤ X
  lt_td : X < (td + 1) * N
  plain : magic = false → 1000 ≤ c ∧ c * N ≤ Y ∧ Y < (c + 1) * N
  eightfold : magic = true → 800 ≤ c ∧ c * N ≤ 8 * Y ∧ 200 * Y < (25 * c + 26) * N

variable {N X Y td c : ℤ} {magic : Bool}

theorem Bounds.td_nonneg (h : Bounds N X Y td c magic) : 0 ≤ td := by
  by_contra hneg
  have hle : (td + 1) * N ≤ 0 * N := mul_le_mul_of_nonneg_right (by omega) h.pos.le
  linarith [h.nonneg, h.lt_td]

/-- Division of numbers that are not negative. -/
theorem tdiv_tmod {a b : ℤ} (ha : 0 ≤ a) (hb : 0 < b) :
    0 ≤ a.tdiv b ∧ a = b * a.tdiv b + a.tmod b ∧ 0 ≤ a.tmod b ∧ a.tmod b < b := by
  rw [Int.tdiv_eq_ediv_of_nonneg ha, Int.tmod_eq_emod_of_nonneg ha]
  exact ⟨Int.ediv_nonneg ha hb.le, (Int.mul_ediv_add_emod a b).symm, Int.emod_nonneg a hb.ne',
    Int.emod_lt_of_pos a hb⟩

theorem Bounds.plain_td (h : Bounds N X Y td c false) : td < 117 * (c + 1) := by
  obtain ⟨-, -, hc⟩ := h.plain rfl
  apply lt_of_mul_lt_mul_right _ h.pos.le
  linarith [h.td_le, h.lt]

theorem Bounds.eightfold_td (h : Bounds N X Y td c true) : 200 * td < 117 * (25 * c + 26) := by
  obtain ⟨-, -, hc⟩ := h.eightfold rfl
  apply lt_of_mul_lt_mul_right _ h.pos.le
  linarith [h.td_le, h.lt]

/-- Before the last digit: it is not too high, and so little too low that the next digit stays
below 117. -/
theorem digit_mid (h : Bounds N X Y td c magic) :
    let dig := (digit td (c + 1) magic).1
    0 ≤ dig ∧ dig ≤ 117 ∧ dig * Y ≤ X ∧ 100 * (X - dig * Y) < 117 * Y := by
  have htd := h.td_nonneg
  have hN := h.pos
  have hX := h.nonneg
  have hlt := h.lt
  have htd_le := h.td_le
  have hlt_td := h.lt_td
  unfold digit
  dsimp only
  cases magic with
  | false =>
    obtain ⟨h1000, hc, hc'⟩ := h.plain rfl
    have htd' := h.plain_td
    simp only [Bool.false_eq_true, if_false, and_false]
    obtain ⟨hq, hdiv, hr, hr'⟩ := tdiv_tmod htd (show 0 < c + 1 by omega)
    generalize td.tdiv (c + 1) = q at *
    generalize td.tmod (c + 1) = r at *
    have hq117 : q < 117 := by
      apply lt_of_mul_lt_mul_right (a := c + 1) _ (by omega)
      linarith
    have hup : q * Y ≤ q * ((c + 1) * N) := mul_le_mul_of_nonneg_left hc'.le hq
    have hlow : q * (c * N) ≤ q * Y := mul_le_mul_of_nonneg_left hc hq
    have hrN : 0 ≤ r * N := mul_nonneg hr hN.le
    have hrN' : (r + 1) * N ≤ (c + 1) * N := mul_le_mul_of_nonneg_right (by omega) hN.le
    have htdN : td * N = q * ((c + 1) * N) + r * N := by rw [hdiv]; ring
    have hqN : q * N ≤ 117 * N := mul_le_mul_of_nonneg_right hq117.le hN.le
    have hcN : 1000 * N ≤ c * N := mul_le_mul_of_nonneg_right h1000 hN.le
    refine ⟨hq, hq117.le, by linarith, by linarith⟩
  | true =>
    obtain ⟨h800, hc, hc'⟩ := h.eightfold rfl
    have htd' := h.eightfold_td
    simp only [if_true, and_true]
    obtain ⟨hq, hdiv, hr, hr'⟩ := tdiv_tmod (show 0 ≤ 8 * td by omega) (show 0 < c + 1 by omega)
    generalize (8 * td).tdiv (c + 1) = q at *
    generalize (8 * td).tmod (c + 1) = r at *
    have hq117 : q < 118 := by
      apply lt_of_mul_lt_mul_right (a := 25 * (c + 1)) _ (by omega)
      linarith
    have hrN : 0 ≤ r * N := mul_nonneg hr hN.le
    have hrN' : (r + 1) * N ≤ (c + 1) * N := mul_le_mul_of_nonneg_right (by omega) hN.le
    have htdN : 8 * (td * N) = q * ((c + 1) * N) + r * N := by
      linear_combination N * hdiv
    have hqN : q * N ≤ 117 * N := mul_le_mul_of_nonneg_right (by omega) hN.le
    have hcN : 800 * N ≤ c * N := mul_le_mul_of_nonneg_right h800 hN.le
    have hup : q * (200 * Y) ≤ q * ((25 * c + 26) * N) := mul_le_mul_of_nonneg_left hc'.le hq
    have hlow : q * (c * N) ≤ q * (8 * Y) := mul_le_mul_of_nonneg_left hc hq
    split_ifs with hunder
    · -- the digit was lessened
      have hrN8 : r * N ≤ 8 * N := mul_le_mul_of_nonneg_right hunder.1.le hN.le
      refine ⟨by dsimp only; omega, by dsimp only; omega, ?_, ?_⟩
      · dsimp only
        linarith
      · dsimp only
        linarith
    · refine ⟨hq, by dsimp only; omega, ?_, ?_⟩
      · dsimp only
        rcases lt_or_ge 0 q with hpos | hzero
        · have hr8 : 8 ≤ r := by
            by_contra hlt8
            exact hunder ⟨by omega, hpos⟩
          have hrN8 : 8 * N ≤ r * N := mul_le_mul_of_nonneg_right hr8 hN.le
          linarith
        · have hq0 : q = 0 := le_antisymm hzero hq
          rw [hq0, zero_mul]
          exact hX
      · dsimp only
        linarith

/-- The last digit: when it was lessened it is not too high and by one too low at most, and else
not too low and by one too high at most. -/
theorem digit_last (h : Bounds N X Y td c magic) :
    let d := digit (td + 1) c magic
    0 ≤ d.1 ∧ d.1 ≤ 117 ∧
      (d.2 = true → 0 ≤ X - d.1 * Y ∧ X - d.1 * Y < 2 * Y) ∧
      (d.2 = false → -Y < X - d.1 * Y ∧ X - d.1 * Y < Y) := by
  have htd := h.td_nonneg
  have hN := h.pos
  have htd_le := h.td_le
  have hlt_td := h.lt_td
  unfold digit
  dsimp only
  cases magic with
  | false =>
    obtain ⟨h1000, hc, hc'⟩ := h.plain rfl
    have htd' := h.plain_td
    simp only [Bool.false_eq_true, if_false, and_false]
    obtain ⟨hq, hdiv, hr, hr'⟩ := tdiv_tmod (show 0 ≤ td + 1 by omega) (show 0 < c by omega)
    generalize (td + 1).tdiv c = q at *
    generalize (td + 1).tmod c = r at *
    have hq118 : q < 118 := by
      apply lt_of_mul_lt_mul_right (a := c) _ (by omega)
      linarith
    have hup : q * Y ≤ q * ((c + 1) * N) := mul_le_mul_of_nonneg_left hc'.le hq
    have hlow : q * (c * N) ≤ q * Y := mul_le_mul_of_nonneg_left hc hq
    have hrN : 0 ≤ r * N := mul_nonneg hr hN.le
    have hrN' : (r + 1) * N ≤ c * N := mul_le_mul_of_nonneg_right (by omega) hN.le
    have htdN : (td + 1) * N = q * (c * N) + r * N := by rw [hdiv]; ring
    have hqN : q * N ≤ 117 * N := mul_le_mul_of_nonneg_right (by omega) hN.le
    have hcN : 1000 * N ≤ c * N := mul_le_mul_of_nonneg_right h1000 hN.le
    refine ⟨hq, by omega, fun hfalse => by simp at hfalse, fun _ => ⟨by linarith, by linarith⟩⟩
  | true =>
    obtain ⟨h800, hc, hc'⟩ := h.eightfold rfl
    have htd' := h.eightfold_td
    simp only [if_true, and_true]
    obtain ⟨hq, hdiv, hr, hr'⟩ := tdiv_tmod (show 0 ≤ 8 * (td + 1) by omega)
      (show 0 < c by omega)
    generalize (8 * (td + 1)).tdiv c = q at *
    generalize (8 * (td + 1)).tmod c = r at *
    have hq118 : q < 118 := by
      apply lt_of_mul_lt_mul_right (a := 25 * c) _ (by omega)
      linarith
    have hrN : 0 ≤ r * N := mul_nonneg hr hN.le
    have hrN' : (r + 1) * N ≤ c * N := mul_le_mul_of_nonneg_right (by omega) hN.le
    have htdN : 8 * ((td + 1) * N) = q * (c * N) + r * N := by
      linear_combination N * hdiv
    have hqN : q * N ≤ 117 * N := mul_le_mul_of_nonneg_right (by omega) hN.le
    have hcN : 800 * N ≤ c * N := mul_le_mul_of_nonneg_right h800 hN.le
    have hup : q * (200 * Y) ≤ q * ((25 * c + 26) * N) := mul_le_mul_of_nonneg_left hc'.le hq
    have hlow : q * (c * N) ≤ q * (8 * Y) := mul_le_mul_of_nonneg_left hc hq
    split_ifs with hunder
    · refine ⟨by dsimp only; omega, by dsimp only; omega, fun _ => ?_,
        fun hfalse => by simp at hfalse⟩
      dsimp only
      constructor
      · linarith
      · linarith
    · refine ⟨hq, by dsimp only; omega, fun hfalse => by simp at hfalse, fun _ => ?_⟩
      dsimp only
      constructor
      · linarith
      · linarith

end Unitas.Dc
