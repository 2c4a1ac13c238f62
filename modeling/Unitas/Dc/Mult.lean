import Unitas.Dc.Quotient

/-! Multiplication in `dc`, and the shifts by powers of ten that use it. -/
namespace Unitas.Dc

open CInt Radix

/-- The digits of `mp` with what is in `mr` from `offset` on, as the inner loop takes them. -/
def mulRow (cq : ℤ) (mp mr : Blk) : Blk × ℤ :=
  carryMap (fun (c : ℤ × ℤ) carry =>
    let mt := c.1 * cq + carry + c.2
    (char (mt.tmod 100), mt.tdiv 100)) 0 (columns mp.length mp mr)

/-- One turn of the outer loop. -/
def mulStep (mp : Blk) (mr : Blk) (offset : ℕ) (cq : ℤ) : Blk :=
  let r := mulRow cq mp (mr.drop offset)
  let mr := mr.take offset ++ r.1 ++ mr.drop (offset + mp.length)
  if r.2 ≠ 0 then salterc mr (offset + mp.length) (mr.getD (offset + mp.length) 0 + r.2) else mr

def mulFrom (mp : Blk) : ℕ → Blk → Blk → Blk
  | _, mr, [] => mr
  | offset, mr, cq :: mq => mulFrom mp (offset + 1) (mulStep mp mr offset cq) mq

def mult (p q : Blk) : Blk :=
  let psign := decide (p ≠ []) && decide (back p 0 < 0)
  let qsign := decide (q ≠ []) && decide (back q 0 < 0)
  let mp := if psign then chsign p else p
  let mq := if qsign then chsign q else q
  let mr := mulFrom mp 0 [] mq
  if psign ^^ qsign then chsign mr else mr

def tenptr : Blk := [10]

/-- `p` with `ct` decimal zeros below. -/
def add0 (p : Blk) (ct : ℕ) : Blk :=
  let q := List.replicate (ct / 2) 0 ++ p
  if ct % 2 = 1 then mult tenptr q else q

/-! ### Values -/

theorem mulRow_spec {cq : ℤ} (hcq : 0 ≤ cq ∧ cq < 100) {mp : Blk} (hp : Digits 100 mp)
    {mr : Blk} (hr : Digits 100 mr) (hlen : mr.length ≤ mp.length) :
    Digits 100 (mulRow cq mp mr).1 ∧ 0 ≤ (mulRow cq mp mr).2 ∧ (mulRow cq mp mr).2 < 100 ∧
      value 100 (mulRow cq mp mr).1 + 100 ^ mp.length * (mulRow cq mp mr).2 =
        cq * value 100 mp + value 100 mr := by
  have hspec := carryMap_spec (b := 100) (σ := 1) (g := fun c : ℤ × ℤ => c.1 * cq + c.2)
    (C := fun c => 0 ≤ c ∧ c < 100) (D := fun d => 0 ≤ d ∧ d < 100)
    (l := columns mp.length mp mr)
    (f := fun (c : ℤ × ℤ) carry =>
      let mt := c.1 * cq + carry + c.2
      (char (mt.tmod 100), mt.tdiv 100)) ?_ (c := 0) ⟨le_rfl, by decide⟩
  · obtain ⟨hds, hc, hval⟩ := hspec
    rw [length_columns, value_columns_mul mp.length mp mr cq le_rfl hlen] at hval
    unfold mulRow
    exact ⟨hds, hc.1, hc.2, by linarith⟩
  · intro c hc carry hcarry
    obtain ⟨h1, h2⟩ := mem_columns hc
    have hr1 : 0 ≤ c.1 ∧ c.1 < 100 := by
      rcases h1 with h0 | hmem
      · omega
      · exact hp _ hmem
    have hr2 : 0 ≤ c.2 ∧ c.2 < 100 := by
      rcases h2 with h0 | hmem
      · omega
      · exact hr _ hmem
    have hm0 : 0 ≤ c.1 * cq := mul_nonneg hr1.1 hcq.1
    have hm1 : c.1 * cq ≤ 99 * 99 := mul_le_mul (by omega) (by omega) hcq.1 (by decide)
    obtain ⟨hq, hdiv, hr0, hr100⟩ := tdiv_tmod (show 0 ≤ c.1 * cq + carry + c.2 by omega)
      (show (0 : ℤ) < 100 by decide)
    dsimp only
    rw [char_eq (by omega) (by omega)]
    exact ⟨⟨hr0, hr100⟩, ⟨hq, by omega⟩, by omega⟩

/-- What `mr` is before the row at `offset`. -/
structure Rows (mp mr : Blk) (offset : ℕ) : Prop where
  digits : Digits 100 mr
  le : offset ≤ mr.length
  length_le : mr.length ≤ offset + mp.length

theorem mulStep_spec {mp mr : Blk} {offset : ℕ} {cq : ℤ} (hp : Digits 100 mp) (hne : mp ≠ [])
    (hcq : 0 ≤ cq ∧ cq < 100) (h : Rows mp mr offset) :
    Rows mp (mulStep mp mr offset cq) (offset + 1) ∧
      value 100 (mulStep mp mr offset cq) =
        value 100 mr + 100 ^ offset * (cq * value 100 mp) := by
  have hlenp : 0 < mp.length := List.length_pos_iff.mpr hne
  have hlow := h.le
  have hhigh := h.length_le
  have hrest : Digits 100 (mr.drop offset) := fun d hd => h.digits d (List.mem_of_mem_drop hd)
  obtain ⟨hds, hc0, hc100, hval⟩ := mulRow_spec hcq hp hrest (by rw [List.length_drop]; omega)
  have hsplit : value 100 mr = value 100 (mr.take offset) + 100 ^ offset * value 100 (mr.drop offset) := by
    conv_lhs => rw [← List.take_append_drop offset mr]
    rw [value_append, List.length_take, min_eq_left hlow]
  unfold mulStep
  dsimp only
  generalize hr : mulRow cq mp (mr.drop offset) = r at *
  have hrlen : r.1.length = mp.length := by
    rw [← hr]
    unfold mulRow
    rw [length_carryMap, length_columns]
  rw [List.drop_eq_nil_of_le hhigh, List.append_nil]
  have hlen : (mr.take offset ++ r.1).length = offset + mp.length := by
    rw [List.length_append, List.length_take, min_eq_left hlow, hrlen]
  have hdig : Digits 100 (mr.take offset ++ r.1) :=
    Digits.append (fun d hd => h.digits d (List.mem_of_mem_take hd)) hds
  have hsum : value 100 (mr.take offset ++ r.1) + 100 ^ (offset + mp.length) * r.2 =
      value 100 mr + 100 ^ offset * (cq * value 100 mp) := by
    rw [value_append, List.length_take, min_eq_left hlow, hsplit, pow_add]
    linear_combination 100 ^ offset * hval
  split_ifs with hcarry
  · have halter : salterc (mr.take offset ++ r.1) (offset + mp.length)
        ((mr.take offset ++ r.1).getD (offset + mp.length) 0 + r.2) =
        (mr.take offset ++ r.1) ++ [r.2] := by
      unfold salterc
      rw [List.getD_eq_getElem?_getD, List.getElem?_eq_none hlen.le, Option.getD_none, zero_add, char_eq (by omega) (by omega),
        List.take_of_length_le hlen.le, List.drop_eq_nil_of_le (by omega)]
    rw [halter]
    constructor
    · refine ⟨hdig.append (Digits.singleton hc0 hc100), ?_, ?_⟩
      · rw [List.length_append, hlen, List.length_singleton]
        omega
      · rw [List.length_append, hlen, List.length_singleton]
        omega
    · rw [value_concat, hlen, hsum]
  · constructor
    · exact ⟨hdig, by omega, by omega⟩
    · rw [not_not.mp hcarry, mul_zero, add_zero] at hsum
      exact hsum

theorem mulFrom_spec {mp : Blk} (hp : Digits 100 mp) (hne : mp ≠ []) {mq : Blk}
    (hq : Digits 100 mq) {offset : ℕ} {mr : Blk} (h : Rows mp mr offset) :
    Digits 100 (mulFrom mp offset mr mq) ∧
      value 100 (mulFrom mp offset mr mq) =
        value 100 mr + 100 ^ offset * (value 100 mq * value 100 mp) := by
  induction mq generalizing offset mr with
  | nil => exact ⟨h.digits, by simp [mulFrom]⟩
  | cons cq mq ih =>
    obtain ⟨hcq, hmq⟩ := List.forall_mem_cons.mp hq
    obtain ⟨hrows, hval⟩ := mulStep_spec hp hne hcq h
    obtain ⟨hdig, hval'⟩ := ih hmq hrows
    unfold mulFrom
    constructor
    · exact hdig
    · rw [hval', hval, value_cons]
      ring

theorem mulFrom_nil (offset : ℕ) (mq : Blk) : mulFrom [] offset [] mq = [] := by
  induction mq generalizing offset with
  | nil => rfl
  | cons cq mq ih =>
    have hstep : mulStep [] [] offset cq = [] := by
      simp [mulStep, mulRow, columns, carryMap]
    unfold mulFrom
    rw [hstep]
    exact ih (offset + 1)

/-- A number without its sign, as `mult` takes it. -/
theorem unsigned_spec {p : Blk} (h : Legal p) :
    let sign := decide (p ≠ []) && decide (back p 0 < 0)
    Digits 100 (if sign then chsign p else p) ∧
      value 100 p = (if sign then -1 else 1) * value 100 (if sign then chsign p else p) := by
  have hiff := back_neg_iff h
  dsimp only
  by_cases hneg : p ≠ [] ∧ back p 0 < 0
  · have htrue : (decide (p ≠ []) && decide (back p 0 < 0)) = true := by
      rw [Bool.and_eq_true, decide_eq_true_iff, decide_eq_true_iff]
      exact hneg
    obtain ⟨hlegal, hval⟩ := chsign_spec fun d => h.mem
    have hlt := hiff.mp hneg
    rw [htrue, if_pos rfl, if_pos rfl, hval]
    exact ⟨nonneg_digits hlegal (by omega), by ring⟩
  · have hfalse : (decide (p ≠ []) && decide (back p 0 < 0)) = false := by
      rw [Bool.eq_false_iff, Ne, Bool.and_eq_true, decide_eq_true_iff, decide_eq_true_iff]
      exact hneg
    rw [hfalse]
    have hge : 0 ≤ value 100 p := by
      by_contra hlt
      exact hneg (hiff.mpr (by omega))
    exact ⟨nonneg_digits h hge, by simp⟩

theorem mult_spec {p q : Blk} (hp : Legal p) (hq : Legal q) :
    Legal (mult p q) ∧ value 100 (mult p q) = value 100 p * value 100 q := by
  obtain ⟨hmp, hpval⟩ := unsigned_spec hp
  obtain ⟨hmq, hqval⟩ := unsigned_spec hq
  rw [hpval, hqval]
  unfold mult
  dsimp only
  generalize (decide (p ≠ []) && decide (back p 0 < 0)) = psign at *
  generalize (decide (q ≠ []) && decide (back q 0 < 0)) = qsign at *
  generalize (if psign = true then chsign p else p) = mp at *
  generalize (if qsign = true then chsign q else q) = mq at *
  have hmr : Digits 100 (mulFrom mp 0 [] mq) ∧
      value 100 (mulFrom mp 0 [] mq) = value 100 mq * value 100 mp := by
    by_cases hne : mp = []
    · rw [hne, mulFrom_nil]
      exact ⟨Digits.nil, by simp⟩
    · have hstart : Rows mp [] 0 := ⟨Digits.nil, le_rfl, Nat.zero_le _⟩
      obtain ⟨hdig, hval⟩ := mulFrom_spec hmp hne hmq hstart
      exact ⟨hdig, by rw [hval]; simp⟩
  obtain ⟨hdig, hval⟩ := hmr
  obtain ⟨hneg, hnegval⟩ := chsign_spec (digits_range hdig)
  cases psign <;> cases qsign
  · exact ⟨Or.inl hdig, by simp [hval, mul_comm]⟩
  · exact ⟨hneg, by simp [hnegval, hval, mul_comm]⟩
  · exact ⟨hneg, by simp [hnegval, hval, mul_comm]⟩
  · exact ⟨Or.inl hdig, by simp [hval, mul_comm]⟩

theorem legal_append {ds p : Blk} (hds : Digits 100 ds) (hp : Legal p) : Legal (ds ++ p) := by
  rcases hp with hp | ⟨es, hes, rfl⟩
  · exact Or.inl (hds.append hp)
  · exact Or.inr ⟨ds ++ es, hds.append hes, by rw [List.append_assoc]⟩

theorem add0_spec {p : Blk} (hp : Legal p) (ct : ℕ) :
    Legal (add0 p ct) ∧ value 100 (add0 p ct) = 10 ^ ct * value 100 p := by
  have hzeros : Digits 100 (List.replicate (ct / 2) 0) := by
    intro d hd
    rw [List.eq_of_mem_replicate hd]
    decide
  have hq := legal_append hzeros hp
  have hval : value 100 (List.replicate (ct / 2) 0 ++ p) = 10 ^ (2 * (ct / 2)) * value 100 p := by
    rw [value_append, value_replicate_zero, List.length_replicate, pow_mul]
    norm_num
  have hct : 2 * (ct / 2) + ct % 2 = ct := Nat.div_add_mod ct 2
  unfold add0
  dsimp only
  split_ifs with hodd
  · obtain ⟨hlegal, hmul⟩ := mult_spec (p := tenptr) (Or.inl (by simp [tenptr, Digits])) hq
    refine ⟨hlegal, ?_⟩
    have hten : value 100 tenptr = 10 := by decide
    rw [hmul, hval, hten]
    conv_rhs => rw [← hct, hodd, pow_succ]
    ring
  · refine ⟨hq, ?_⟩
    have heven : 2 * (ct / 2) = ct := by omega
    rw [hval, heven]

end Unitas.Dc
