import Mathlib.Algebra.Ring.Parity
import Unitas.Dc.Mult

/-! The arithmetic of `dc` is exact, and its results are numbers like the operands: with no digit
that could be left out, so that the top digit shows the sign and no digits are zero. -/
namespace Unitas.Dc

open CInt Radix

def sqtemp : Blk := [2]

inductive Fault where
  | failure (f : Failure)
  | fuel
  deriving DecidableEq

/-- The loop of `exp`, with what is in `divxyz` before each division. -/
def expLoop (divxyz : ℕ → Blk) : ℕ → Blk → Blk → Blk → Except Fault Blk
  | fuel, p, e, r =>
    if e = [] then .ok r
    else
      match fuel with
      | 0 => .error .fuel
      | fuel + 1 =>
        match div (divxyz fuel) e sqtemp with
        | .error f => .error (.failure f)
        | .ok d => expLoop divxyz fuel (mult p p) d.q (if d.rem ≠ [] then mult p r else r)

/-- A negative exponent leaves 1, 0 or -1 only. -/
def exp (divxyz : ℕ → Blk) (fuel : ℕ) (base ex : Blk) : Except Fault Blk :=
  if ex = [] then .ok [1]
  else
    let temp := decide (back ex 0 < 0)
    match expLoop divxyz fuel base (if temp then chsign ex else ex) [1] with
    | .error f => .error f
    | .ok r =>
      if temp then
        if base.length = 0 then .ok r
        else if base.length > 1 then .ok []
        else if base.getD 0 0 ≤ 1 then .ok [base.getD 0 0]
        else .ok []
      else .ok r

/-! ### Representations -/

/-- Digits with a top that is not zero; below a -1 no 99 that could be left out. Both `[-1]` and
`[99, -1]` stand for minus one. -/
structure Rep (p : Blk) : Prop where
  legal : Legal p
  top : ∀ ds, p ≠ ds ++ [0]
  nines : ∀ ds, p = ds ++ [99, -1] → ds = []

theorem rep_of_digits {p : Blk} (h : Digits 100 p) (htop : ∀ ds, p ≠ ds ++ [0]) : Rep p := by
  constructor
  · exact Or.inl h
  · exact htop
  · intro ds he
    have := h (-1) (by simp [he])
    omega

theorem Normal.top {p : Blk} (h : Normal p) : ∀ ds, p ≠ ds ++ [0] := by
  rintro ds rfl
  have hdig : Digits 100 (ds ++ [0]) := h.1.digits (by rw [back_concat_zero]; decide)
  have hle := h.le_value hdig
  rw [value_concat] at hle
  have := (Digits.of_append_left hdig).value_lt
  linarith

theorem Normal.rep {p : Blk} (h : Normal p) (hdig : Digits 100 p) : Rep p :=
  rep_of_digits hdig h.top

theorem Rep.normal {p : Blk} (h : Rep p) : Normal p := by
  rcases h.legal with hp | ⟨ds, hds, rfl⟩
  · exact normal_of_digits hp h.top
  · apply normal_of_value hds
    rintro es e rfl
    have hes := (Digits.of_append_left hds).value_lt
    have he := hds e (by simp)
    rw [value_concat, value_concat, List.length_append, List.length_singleton, pow_succ]
    by_cases h99 : e = 99
    · subst h99
      have hnil := h.nines es (by simp)
      subst hnil
      simp
    · have hpow : (100 : ℤ) ^ es.length * e ≤ 100 ^ es.length * 98 :=
        mul_le_mul_of_nonneg_left (by omega) (by positivity)
      linarith

/-- The test for zero. -/
theorem Rep.nil_iff {p : Blk} (h : Rep p) : p = [] ↔ value 100 p = 0 := by
  constructor
  · rintro rfl
    rfl
  · intro h0
    by_contra hne
    obtain ⟨ds, d, rfl⟩ := (List.eq_nil_or_concat' p).resolve_left hne
    by_cases hd : d = -1
    · subst hd
      obtain ⟨es, hes, he⟩ := (h.legal.neg_iff.mp (back_concat_zero ds (-1)))
      rw [he] at h0
      have := value_neg hes
      omega
    · have hle := h.normal.2 ds d (Or.inl ⟨rfl, hd⟩)
      rw [h0, abs_zero] at hle
      have : (0 : ℤ) < 100 ^ ds.length := by positivity
      omega

/-- The test for the sign. -/
theorem Rep.neg_iff {p : Blk} (h : Rep p) : (p ≠ [] ∧ back p 0 < 0) ↔ value 100 p < 0 :=
  back_neg_iff h.legal

theorem add_nines {a1 a2 ds : Blk} (h : add a1 a2 = ds ++ [99, -1]) : ds = [] := by
  unfold add at h
  dsimp only at h
  generalize List.rdropWhile (fun x : ℤ => decide (x = 0)) _ = p at h
  have hsplit : ds ++ [99, -1] = (ds ++ [99]) ++ [-1] := by simp
  rw [hsplit] at h
  split_ifs at h with hneg hnil
  · have hlen := congrArg List.length (List.append_inj' h rfl).1
    rw [List.length_take, List.length_append, List.length_singleton] at hlen
    exact List.eq_nil_of_length_eq_zero (by omega)
  · have hq := (List.append_inj' h rfl).1
    have hlast := List.rdropWhile_last_not (fun d : ℤ => decide (d = 99)) p.dropLast hnil
    simp [hq] at hlast
  · rw [h, back_concat_zero] at hneg
    exact absurd rfl hneg

theorem add_rep {a1 a2 : Blk} (h1 : Rep a1) (h2 : Rep a2) :
    Rep (add a1 a2) ∧ value 100 (add a1 a2) = value 100 a1 + value 100 a2 := by
  obtain ⟨hnormal, hval⟩ := add_spec (fun d => h1.legal.mem) (fun d => h2.legal.mem)
  exact ⟨⟨hnormal.1, hnormal.top, fun ds => add_nines⟩, hval⟩

theorem chsign_rep {p : Blk} (h : Rep p) :
    Rep (chsign p) ∧ value 100 (chsign p) = -value 100 p := by
  obtain ⟨hlegal, hval⟩ := chsign_spec fun d => h.legal.mem
  have hnormal := chsign_normal h.normal
  refine ⟨⟨hlegal, hnormal.top, ?_⟩, hval⟩
  intro ds he
  have hsplit : ds ++ [99, -1] = (ds ++ [99]) ++ [-1] := by simp
  have hdsdig : Digits 100 (ds ++ [99]) := by
    obtain ⟨es, hes, hee⟩ := hlegal.neg_iff.mp (by rw [he, hsplit, back_concat_zero])
    rw [he, hsplit] at hee
    rwa [(List.append_inj' hee rfl).1]
  -- the number was positive, and at most the power of 100 that stands for the length of `ds`
  have hds0 : 0 ≤ value 100 ds := Digits.value_nonneg (Digits.of_append_left hdsdig)
  have hle : value 100 p ≤ 100 ^ ds.length := by
    rw [he, hsplit, value_concat, value_concat, List.length_append, List.length_singleton,
      pow_succ] at hval
    linarith
  have hpos : 0 < value 100 p := by
    have := value_neg hdsdig
    rw [← hsplit, ← he, hval] at this
    omega
  by_contra hne
  have hlen : 0 < ds.length := List.length_pos_iff.mpr hne
  have hdig := nonneg_digits h.legal hpos.le
  unfold chsign at he
  dsimp only at he
  generalize hr : carryMap _ 0 p = r at he
  have hrlen : r.1.length = p.length := by rw [← hr, length_carryMap]
  obtain ⟨es, e, rfl⟩ := (List.eq_nil_or_concat' p).resolve_left (by
    rintro rfl
    exact absurd hpos (lt_irrefl 0))
  have hlow := h.normal.le_value hdig
  have hlong : es.length ≤ ds.length := by
    by_contra hgt
    have hpow : (100 : ℤ) ^ (ds.length + 1) ≤ 100 ^ es.length :=
      pow_le_pow_right₀ (by decide) (by omega)
    rw [pow_succ] at hpow
    have : (0 : ℤ) < 100 ^ ds.length := by positivity
    omega
  rw [List.length_append, List.length_singleton] at hrlen
  rw [hsplit] at he
  split_ifs at he with hcarry h99 h0
  · have hq := congrArg List.length (List.append_inj' he rfl).1
    rw [List.length_dropLast, List.length_append, List.length_singleton] at hq
    omega
  · rw [(List.append_inj' he rfl).1, back_concat_zero] at h99
    exact h99 rfl
  · have hq := congrArg List.length he
    simp only [List.length_dropLast, List.length_append, List.length_singleton] at hq
    omega
  · have hq := congrArg List.length he
    simp only [List.length_append, List.length_singleton] at hq
    omega

section Mult

theorem mulFrom_concat (mp : Blk) (mq : Blk) (cq : ℤ) (offset : ℕ) (mr : Blk) :
    mulFrom mp offset mr (mq ++ [cq]) =
      mulStep mp (mulFrom mp offset mr mq) (offset + mq.length) cq := by
  induction mq generalizing offset mr with
  | nil => rfl
  | cons c mq ih =>
    rw [List.cons_append, mulFrom, ih, mulFrom, List.length_cons]
    congr 1
    omega

/-- The carry of the last row, if there is one, is on top. -/
theorem mulStep_top {mp mr : Blk} {offset : ℕ} {cq : ℤ} (hp : Digits 100 mp)
    (hcq : 0 ≤ cq ∧ cq < 100) (h : Rows mp mr offset) :
    (∃ ds d, mulStep mp mr offset cq = ds ++ [d] ∧ d ≠ 0) ∨
      (mulStep mp mr offset cq).length = offset + mp.length := by
  have hlow := h.le
  have hhigh := h.length_le
  have hrest : Digits 100 (mr.drop offset) := fun d hd => h.digits d (List.mem_of_mem_drop hd)
  obtain ⟨-, hc0, hc100, -⟩ := mulRow_spec hcq hp hrest (by rw [List.length_drop]; omega)
  unfold mulStep
  dsimp only
  generalize hr : mulRow cq mp (mr.drop offset) = r at *
  have hrlen : r.1.length = mp.length := by
    rw [← hr]
    unfold mulRow
    rw [length_carryMap, length_columns]
  rw [List.drop_eq_nil_of_le hhigh, List.append_nil]
  have hlen : (mr.take offset ++ r.1).length = offset + mp.length := by
    rw [List.length_append, List.length_take, min_eq_left hlow, hrlen]
  split_ifs with hcarry
  · left
    refine ⟨mr.take offset ++ r.1, r.2, ?_, hcarry⟩
    unfold salterc
    rw [List.getD_eq_getElem?_getD, List.getElem?_eq_none hlen.le, Option.getD_none, zero_add,
      char_eq (by omega) (by omega), List.take_of_length_le hlen.le,
      List.drop_eq_nil_of_le (by omega)]
  · exact Or.inr hlen

theorem rows_mulFrom {mp : Blk} (hp : Digits 100 mp) (hne : mp ≠ []) {mq : Blk}
    (hq : Digits 100 mq) {offset : ℕ} {mr : Blk} (h : Rows mp mr offset) :
    Rows mp (mulFrom mp offset mr mq) (offset + mq.length) := by
  induction mq generalizing offset mr with
  | nil => exact h
  | cons cq mq ih =>
    obtain ⟨hcq, hmq⟩ := List.forall_mem_cons.mp hq
    have hrows := ih hmq (mulStep_spec hp hne hcq h).1
    rw [List.length_cons, show offset + (mq.length + 1) = offset + 1 + mq.length by omega]
    exact hrows

/-- The top digit of a product. -/
theorem mulFrom_top {mp mq : Blk} (hp : Rep mp) (hq : Rep mq) (hpdig : Digits 100 mp)
    (hqdig : Digits 100 mq) (hne : mp ≠ []) : ∀ ds, mulFrom mp 0 [] mq ≠ ds ++ [0] := by
  rintro ds he
  obtain rfl | ⟨ms, cq, rfl⟩ := List.eq_nil_or_concat' mq
  · simp [mulFrom] at he
  · have hcq := hqdig cq (by simp)
    have hms : Digits 100 ms := Digits.of_append_left hqdig
    have hstart : Rows mp [] 0 := ⟨Digits.nil, le_rfl, Nat.zero_le _⟩
    have hrows := rows_mulFrom hpdig hne hms hstart
    obtain ⟨hdig, hval⟩ := mulFrom_spec hpdig hne hqdig hstart
    rw [mulFrom_concat, zero_add] at he
    rw [zero_add] at hrows
    rcases mulStep_top hpdig hcq hrows with ⟨es, d, hd, hd0⟩ | hlen
    · rw [he] at hd
      have := (List.append_inj' hd rfl).2
      simp at this
      exact hd0 this.symm
    · -- without a carry the product is too long for a zero on top
      rw [mulFrom_concat, zero_add, he] at hdig hval
      rw [he, List.length_append, List.length_singleton] at hlen
      obtain ⟨ps, d, rfl⟩ := (List.eq_nil_or_concat' mp).resolve_left hne
      have hple := hp.normal.le_value hpdig
      have hqle := hq.normal.le_value hqdig
      have hmul : (100 : ℤ) ^ ms.length * 100 ^ ps.length ≤
          value 100 (ms ++ [cq]) * value 100 (ps ++ [d]) :=
        mul_le_mul hqle hple (by positivity) hqdig.value_nonneg
      rw [← pow_add] at hmul
      rw [value_concat] at hval
      have hlt := (Digits.of_append_left hdig).value_lt
      rw [List.length_append, List.length_singleton] at hlen
      have hds : ms.length + ps.length = ds.length := by omega
      rw [hds] at hmul
      simp at hval
      omega

theorem mult_rep {p q : Blk} (hp : Rep p) (hq : Rep q) :
    Rep (mult p q) ∧ value 100 (mult p q) = value 100 p * value 100 q := by
  obtain ⟨-, hval⟩ := mult_spec hp.legal hq.legal
  refine ⟨?_, hval⟩
  have hunsigned : ∀ {a : Blk}, Rep a →
      let mp := if decide (a ≠ []) && decide (back a 0 < 0) then chsign a else a
      Rep mp ∧ Digits 100 mp := by
    intro a ha
    have hdig := (unsigned_spec ha.legal).1
    dsimp only at hdig ⊢
    split_ifs at hdig ⊢ with hneg
    · exact ⟨(chsign_rep ha).1, hdig⟩
    · exact ⟨ha, hdig⟩
  obtain ⟨hmp, hpdig⟩ := hunsigned hp
  obtain ⟨hmq, hqdig⟩ := hunsigned hq
  unfold mult
  dsimp only
  generalize (decide (p ≠ []) && decide (back p 0 < 0)) = psign at *
  generalize (decide (q ≠ []) && decide (back q 0 < 0)) = qsign at *
  generalize (if psign = true then chsign p else p) = mp at *
  generalize (if qsign = true then chsign q else q) = mq at *
  have hmr : Rep (mulFrom mp 0 [] mq) := by
    by_cases hne : mp = []
    · rw [hne, mulFrom_nil]
      exact rep_of_digits Digits.nil (by simp)
    · have hstart : Rows mp [] 0 := ⟨Digits.nil, le_rfl, Nat.zero_le _⟩
      exact rep_of_digits (mulFrom_spec hpdig hne hqdig hstart).1
        (mulFrom_top hmp hmq hpdig hqdig hne)
  split_ifs
  · exact (chsign_rep hmr).1
  · exact hmr

end Mult

section Exp
variable (divxyz : ℕ → Blk)

theorem sqtemp_normal : Normal sqtemp :=
  normal_of_digits (by simp [sqtemp, Digits]) (by intro ds he; cases ds <;> simp [sqtemp] at he)

/-- A division by two leaves the parity. -/
theorem div_sqtemp (divxyz : Blk) {e : Blk} (he : Rep e) (h0 : 0 ≤ value 100 e) :
    ∃ d, div divxyz e sqtemp = .ok d ∧ Rep d.q ∧ 0 ≤ value 100 d.q ∧
      (d.rem ≠ [] ∧ value 100 e = 2 * value 100 d.q + 1 ∨
        d.rem = [] ∧ value 100 e = 2 * value 100 d.q) := by
  have htwo : value 100 sqtemp = 2 := by decide
  obtain ⟨d, hdiv, -, -, hq, hrem, hremnorm, hval, hlt, hsign⟩ :=
    div_result divxyz he.legal sqtemp_normal (by rw [htwo]; decide)
  rw [htwo] at hval hlt
  have hrem0 : 0 ≤ value 100 d.rem := by
    rcases hsign with hz | hs
    · omega
    · by_contra hneg
      rw [Int.sign_eq_neg_one_of_neg (not_le.mp hneg)] at hs
      have := Int.sign_eq_neg_one_iff_neg.mp hs.symm
      omega
  have hrem2 : value 100 d.rem < 2 := by
    rw [abs_of_nonneg hrem0] at hlt
    exact hlt
  have hq0 : 0 ≤ value 100 d.q := by omega
  refine ⟨d, hdiv, hq.rep (nonneg_digits hq.1 hq0), hq0, ?_⟩
  have hrep := (hremnorm he.normal).rep (nonneg_digits hrem hrem0)
  by_cases hnil : d.rem = []
  · have := hrep.nil_iff.mp hnil
    exact Or.inr ⟨hnil, by omega⟩
  · have : value 100 d.rem ≠ 0 := fun hz => hnil (hrep.nil_iff.mpr hz)
    exact Or.inl ⟨hnil, by omega⟩

/-- What is raised, the rest of the exponent and the result keep the power. -/
theorem expLoop_spec (fuel : ℕ) {p e r : Blk} (hp : Rep p) (he : Rep e) (hr : Rep r)
    (h0 : 0 ≤ value 100 e) (hfuel : value 100 e < 2 ^ fuel) :
    ∃ r', expLoop divxyz fuel p e r = .ok r' ∧ Rep r' ∧
      value 100 r' = value 100 r * value 100 p ^ (value 100 e).toNat := by
  induction fuel generalizing p e r with
  | zero =>
    have hnil : e = [] := he.nil_iff.mpr (by
      rw [pow_zero] at hfuel
      omega)
    subst hnil
    exact ⟨r, by simp [expLoop], hr, by simp⟩
  | succ fuel ih =>
    by_cases hnil : e = []
    · subst hnil
      exact ⟨r, by simp [expLoop], hr, by simp⟩
    · obtain ⟨d, hdiv, hq, hq0, hparity⟩ := div_sqtemp (divxyz fuel) he h0
      obtain ⟨hpp, hppval⟩ := mult_rep hp hp
      have hstep : expLoop divxyz (fuel + 1) p e r =
          expLoop divxyz fuel (mult p p) d.q (if d.rem ≠ [] then mult p r else r) := by
        rw [expLoop, if_neg hnil, hdiv]
      obtain ⟨n, hn⟩ := Int.eq_ofNat_of_zero_le hq0
      rw [hn] at hparity
      rw [pow_succ] at hfuel
      rw [hstep]
      rcases hparity with ⟨hrem, hval⟩ | ⟨hrem, hval⟩
      · obtain ⟨hpr, hprval⟩ := mult_rep hp hr
        obtain ⟨r', hr', hrep, hval'⟩ := ih hpp hq hpr hq0 (by omega)
        rw [if_pos hrem]
        refine ⟨r', hr', hrep, ?_⟩
        have hexp : (value 100 e).toNat = 2 * n + 1 := by omega
        rw [hval', hppval, hprval, hn, hexp, Int.toNat_natCast, pow_succ, pow_mul, pow_two]
        ring
      · obtain ⟨r', hr', hrep, hval'⟩ := ih hpp hq hr hq0 (by omega)
        rw [if_neg (not_not.mpr hrem)]
        refine ⟨r', hr', hrep, ?_⟩
        have hexp : (value 100 e).toNat = 2 * n := by omega
        rw [hval', hppval, hn, hexp, Int.toNat_natCast, pow_mul, pow_two]

theorem one_rep : Rep [1] :=
  rep_of_digits (by simp [Digits]) (by intro ds he; cases ds <;> simp at he)

theorem exp_rep {fuel : ℕ} {a e : Blk} (ha : Rep a) (he : Rep e) (h0 : 0 ≤ value 100 e)
    (hfuel : 7 * e.length ≤ fuel) :
    ∃ r, exp divxyz fuel a e = .ok r ∧ Rep r ∧
      value 100 r = value 100 a ^ (value 100 e).toNat := by
  by_cases hnil : e = []
  · subst hnil
    exact ⟨[1], rfl, one_rep, by simp⟩
  · have hdig := nonneg_digits he.legal h0
    have hlt : value 100 e < 2 ^ fuel := by
      calc value 100 e < 100 ^ e.length := hdig.value_lt
        _ ≤ (2 ^ 7) ^ e.length := pow_le_pow_left₀ (by decide) (by decide) _
        _ = 2 ^ (7 * e.length) := (pow_mul 2 7 e.length).symm
        _ ≤ 2 ^ fuel := pow_le_pow_right₀ (by decide) hfuel
    obtain ⟨r, hr, hrep, hval⟩ := expLoop_spec divxyz fuel ha he one_rep h0 hlt
    have hpos : ¬ back e 0 < 0 := fun hneg => by
      have := he.neg_iff.mp ⟨hnil, hneg⟩
      omega
    refine ⟨r, ?_, hrep, ?_⟩
    · unfold exp
      simp only [hnil, hpos, decide_false, Bool.false_eq_true, if_false, hr]
    · rw [hval]
      simp

end Exp

/-- The arithmetic of `dc`, on its own numbers. Seven rounds for each digit of the exponent are
enough for `exp`, whatever the divisions leave in `divxyz`. -/
theorem arithmetic_exact (a b : Blk) (ha : Rep a) (hb : Rep b) :
    (Rep (add a b) ∧ value 100 (add a b) = value 100 a + value 100 b) ∧
    (Rep (mult a b) ∧ value 100 (mult a b) = value 100 a * value 100 b) ∧
    (Rep (chsign a) ∧ value 100 (chsign a) = -value 100 a) ∧
    (0 ≤ value 100 b → ∀ divxyz fuel, 7 * b.length ≤ fuel →
      ∃ r, exp divxyz fuel a b = .ok r ∧ Rep r ∧
        value 100 r = value 100 a ^ (value 100 b).toNat) ∧
    ∀ p, Rep p → (p = [] ↔ value 100 p = 0) ∧ ((p ≠ [] ∧ back p 0 < 0) ↔ value 100 p < 0) :=
  ⟨add_rep ha hb, mult_rep ha hb, chsign_rep ha,
    fun h0 divxyz _ hfuel => exp_rep divxyz ha hb h0 hfuel,
    fun _ hp => ⟨hp.nil_iff, hp.neg_iff⟩⟩

theorem nines_rep : Rep [99, -1] := by
  constructor
  · exact Or.inr ⟨[99], by simp [Digits], rfl⟩
  · intro ds he
    have := List.append_inj' (show [99] ++ [-1] = ds ++ [0] from he) rfl
    simp at this
  · intro ds he
    have := congrArg List.length he
    simp only [List.length_append, List.length_cons, List.length_nil] at this
    exact List.eq_nil_of_length_eq_zero (by omega)

/-- Minus one and one. -/
theorem arithmetic_exact_nines :
    (Rep (add [99, -1] [1]) ∧ value 100 (add [99, -1] [1]) = value 100 [99, -1] + value 100 [1]) ∧
    ∃ r, exp (fun _ => []) 7 [99, -1] [1] = .ok r ∧ Rep r ∧
      value 100 r = value 100 [99, -1] ^ (value 100 [1]).toNat :=
  ⟨(arithmetic_exact [99, -1] [1] nines_rep one_rep).1,
    (arithmetic_exact [99, -1] [1] nines_rep one_rep).2.2.2.1 (by decide) (fun _ => []) 7
      (by decide)⟩

end Unitas.Dc
