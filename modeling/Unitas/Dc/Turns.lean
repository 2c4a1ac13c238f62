import Unitas.Dc.Estimate

/-! The main loop of the long division: every turn takes the digit times the divisor off the
dividend, and leaves so little that the next digit can be stored. -/
namespace Unitas.Dc

open CInt Radix

theorem back_nonneg {p : Blk} (h : Digits 100 p) (i : ℕ) : 0 ≤ back p i := by
  unfold back
  rw [List.getD_eq_getElem?_getD]
  cases hi : p.reverse[i]? with
  | none => simp
  | some e => exact (h e (List.mem_reverse.mp (List.mem_of_getElem? hi))).1

theorem lead2 {ds : Blk} (h : Digits 100 ds) (d : ℤ) :
    let t := back (ds ++ [d]) 0 * 100 + back (ds ++ [d]) 1
    t * 100 ^ ds.length ≤ 100 * value 100 (ds ++ [d]) ∧
      100 * value 100 (ds ++ [d]) < (t + 1) * 100 ^ ds.length := by
  dsimp only
  rw [back_concat_zero, back_concat_succ, value_concat]
  obtain rfl | ⟨es, e, rfl⟩ := List.eq_nil_or_concat' ds
  · simp [back]
    omega
  · have hes : Digits 100 es := Digits.of_append_left h
    rw [back_concat_zero, value_concat, List.length_append, List.length_singleton, pow_succ]
    constructor
    · linarith [hes.value_nonneg]
    · linarith [hes.value_lt]

theorem lead3 {ds : Blk} (h : Digits 100 ds) (d : ℤ) :
    let t := (back (ds ++ [d]) 0 * 100 + back (ds ++ [d]) 1) * 100 + back (ds ++ [d]) 2
    t * 100 ^ ds.length ≤ 10000 * value 100 (ds ++ [d]) ∧
      10000 * value 100 (ds ++ [d]) < (t + 1) * 100 ^ ds.length := by
  dsimp only
  rw [back_concat_zero, back_concat_succ, back_concat_succ, value_concat]
  obtain rfl | ⟨es, e, rfl⟩ := List.eq_nil_or_concat' ds
  · simp [back]
    omega
  · have hes := lead2 (Digits.of_append_left h) e
    dsimp only at hes
    rw [back_concat_zero, back_concat_succ] at hes
    rw [back_concat_zero, back_concat_succ, List.length_append, List.length_singleton, pow_succ]
    constructor
    · linarith
    · linarith

/-- The divisor of the loop. -/
structure Divisor (divr : Blk) (m : ℕ) : Prop where
  digits : Digits 100 divr
  length : divr.length = m + 1
  le : 100 ^ m ≤ value 100 divr

theorem Divisor.lt {divr : Blk} {m : ℕ} (h : Divisor divr m) :
    value 100 divr < 100 ^ m * 100 := by
  have hlt := h.digits.value_lt
  rwa [h.length, pow_succ] at hlt

theorem Divisor.pos {divr : Blk} {m : ℕ} (h : Divisor divr m) : 0 < value 100 divr :=
  lt_of_lt_of_le (by positivity) h.le

/-- What is left of the dividend before the turn for the digit at `k`. -/
structure Left (V : ℤ) (m k : ℕ) (divd : Blk) : Prop where
  shape : ∃ ds d, divd = ds ++ [d] ∧ Digits 100 ds ∧ ds.length = k + (m + 1)
  nonneg : 0 ≤ value 100 divd
  lt : value 100 divd < 117 * (V * 100 ^ k)

theorem bounds {divr divd : Blk} {m k : ℕ} (hr : Divisor divr m)
    (hd : Left (value 100 divr) m k divd) :
    Bounds (100 ^ (k + (m + 1))) (10000 * value 100 divd) (10000 * (value 100 divr * 100 ^ k))
      ((back divd 0 * 100 + back divd 1) * 100 + back divd 2)
      (divisor divr).1 (divisor divr).2 := by
  obtain ⟨ds, d, rfl, hds, hlen⟩ := hd.shape
  obtain ⟨rs, r, rfl⟩ := (List.eq_nil_or_concat' divr).resolve_left
    (by rintro rfl; simpa using hr.length)
  have hrs : Digits 100 rs := Digits.of_append_left hr.digits
  have hlenr : rs.length = m := by simpa using hr.length
  obtain ⟨hr0, hr99⟩ := hr.digits r (by simp)
  have hback1 := back_nonneg hr.digits 1
  have hback2 := back_nonneg hr.digits 2
  have hr1 : 1 ≤ r := by
    have hle := hr.le
    rw [value_concat, hlenr] at hle
    have hlt := hrs.value_lt
    rw [hlenr] at hlt
    by_contra h0
    have hr' : r = 0 := by omega
    rw [hr', mul_zero] at hle
    omega
  have htd := lead3 hds d
  have hc2 := lead2 hrs r
  have hc3 := lead3 hrs r
  dsimp only at htd hc2 hc3
  rw [hlen] at htd
  rw [hlenr] at hc2 hc3
  have hpow : (100 : ℤ) ^ (k + (m + 1)) = 100 ^ m * (100 * 100 ^ k) := by ring
  have hk : (0 : ℤ) < 100 * 100 ^ k := by positivity
  have scale {a b : ℤ} (hab : a ≤ b) : a * (100 * 100 ^ k) ≤ b * (100 * 100 ^ k) :=
    mul_le_mul_of_nonneg_right hab hk.le
  have scale' {a b : ℤ} (hab : a < b) : a * (100 * 100 ^ k) < b * (100 * 100 ^ k) :=
    mul_lt_mul_of_pos_right hab hk
  refine ⟨by positivity, by linarith [hd.nonneg], by linarith [hd.lt], htd.1, htd.2, ?_, ?_⟩
  · intro hplain
    unfold divisor at hplain ⊢
    dsimp only at hplain ⊢
    rw [back_concat_zero] at hplain hc2 ⊢
    by_cases h10 : r < 10
    · simp [h10] at hplain
    · rw [if_neg h10]
      dsimp only
      have h1 := scale hc2.1
      have h2 := scale' hc2.2
      rw [hpow]
      exact ⟨by omega, by linarith, by linarith⟩
  · intro hmagic
    unfold divisor at hmagic ⊢
    dsimp only at hmagic ⊢
    rw [back_concat_zero] at hmagic hc3 ⊢
    by_cases h10 : r < 10
    · rw [if_pos h10]
      dsimp only
      have h1 := scale hc3.1
      have h2 := scale' hc3.2
      have hc3' : 10000 ≤ (r * 100 + back (rs ++ [r]) 1) * 100 + back (rs ++ [r]) 2 := by omega
      generalize (r * 100 + back (rs ++ [r]) 1) * 100 + back (rs ++ [r]) 2 = c3 at *
      obtain ⟨hq, hdiv, hm, hm'⟩ := tdiv_tmod (show 0 ≤ c3 * 2 by omega) (show (0 : ℤ) < 25 by decide)
      generalize (c3 * 2).tdiv 25 = c at *
      generalize (c3 * 2).tmod 25 = e at *
      have hN : (0 : ℤ) < 100 ^ m * (100 * 100 ^ k) := by positivity
      have hlow : 25 * c * (100 ^ m * (100 * 100 ^ k)) ≤ c3 * 2 * (100 ^ m * (100 * 100 ^ k)) :=
        mul_le_mul_of_nonneg_right (by omega) hN.le
      have hup : (c3 * 2 + 2) * (100 ^ m * (100 * 100 ^ k)) ≤
          (25 * c + 26) * (100 ^ m * (100 * 100 ^ k)) :=
        mul_le_mul_of_nonneg_right (by omega) hN.le
      rw [hpow]
      exact ⟨by omega, by linarith, by linarith⟩
    · simp [h10] at hmagic

theorem multiple_spec {divr : Blk} (h : Digits 100 divr) {dig : ℤ} (h0 : 0 ≤ dig)
    (h1 : dig ≤ 117) :
    ∃ xs x, multiple divr dig = xs ++ [x] ∧ xs.length = divr.length ∧ Digits 100 xs ∧
      value 100 (xs ++ [x]) = dig * value 100 divr := by
  have hspec := carryMap_spec (b := 100) (σ := 1) (g := fun d => d * dig)
    (C := fun c => 0 ≤ c ∧ c ≤ dig) (D := fun d => 0 ≤ d ∧ d < 100) (l := divr)
    (f := fun d carry =>
      let d := d * dig + carry
      (char (d.tmod 100), d.tdiv 100)) ?_ (c := 0) ⟨le_rfl, h0⟩
  · obtain ⟨hds, hc, hval⟩ := hspec
    refine ⟨_, _, rfl, length_carryMap _ _ _, hds, ?_⟩
    rw [value_concat, length_carryMap, char_eq (by omega) (by omega)]
    rw [value_map_mul] at hval
    linarith
  · intro d hd c hc
    have hrange := h d hd
    have hd0 : 0 ≤ d * dig := mul_nonneg hrange.1 h0
    have hd1 : d * dig ≤ 99 * dig := mul_le_mul_of_nonneg_right (by omega) h0
    obtain ⟨hq, hdiv, hr, hr'⟩ := tdiv_tmod (show 0 ≤ d * dig + c by omega)
      (show (0 : ℤ) < 100 by decide)
    dsimp only
    rw [char_eq (by omega) (by omega)]
    exact ⟨⟨hr, hr'⟩, ⟨hq, by omega⟩, by omega⟩

/-- `t` is the top digit, without a borrow. -/
theorem subtract_spec {ds xs stale : Blk} {d x : ℤ} {k : ℕ} (hds : Digits 100 ds)
    (hxs : Digits 100 xs) (hk : k ≤ ds.length) (hlen : xs.length = ds.length - k) :
    ∃ es t, Digits 100 es ∧ es.length = ds.length ∧
      value 100 es + 100 ^ ds.length * t =
        value 100 (ds ++ [d]) - 100 ^ k * value 100 (xs ++ [x]) ∧
      subtract (ds ++ [d]) (xs ++ [x] ++ stale) k =
        if t < 0 then (es ++ [char (t + 100)], 1) else (es ++ [char t], 0) := by
  have hspec := carryMap_spec (b := 100) (σ := -1) (g := fun d : ℤ × ℤ => d.1 - d.2)
    (C := fun c => c = 0 ∨ c = 1) (D := fun d => 0 ≤ d ∧ d < 100) (l := (ds.drop k).zip xs)
    (f := fun (d : ℤ × ℤ) carry =>
      let d := d.1 - d.2 - carry
      if d < 0 then (char (d + 100), 1) else (char d, 0)) ?_ (c := 0) (Or.inl rfl)
  · obtain ⟨hlow, hc, hval⟩ := hspec
    have hdrop : (ds.drop k).length = xs.length := by rw [List.length_drop, hlen]
    rw [value_zip_sub 100 _ _ hdrop, List.length_zip, hdrop, min_self] at hval
    have hcols : columns ((ds ++ [d]).length - k) ((ds ++ [d]).drop k) (xs ++ [x] ++ stale) =
        (ds.drop k).zip xs ++ [(d, x)] := by
      have hn : (ds ++ [d]).length - k = xs.length + 1 := by
        rw [List.length_append, List.length_singleton]
        omega
      rw [hn, List.drop_append_of_le_length hk, List.append_assoc,
        columns_add _ _ _ _ _ _ hdrop rfl]
      rfl
    unfold subtract
    dsimp only
    rw [hcols, carryMap_append, List.take_append_of_le_length hk]
    generalize hr : carryMap _ 0 ((ds.drop k).zip xs) = r at *
    have hrlen : r.1.length = xs.length := by
      rw [← hr, length_carryMap, List.length_zip, hdrop, min_self]
    refine ⟨ds.take k ++ r.1, d - x - r.2, ?_, ?_, ?_, ?_⟩
    · exact Digits.append (fun e he => hds e (List.mem_of_mem_take he)) hlow
    · rw [List.length_append, List.length_take, hrlen]
      omega
    · have hsplit : value 100 ds = value 100 (ds.take k) + 100 ^ k * value 100 (ds.drop k) := by
        conv_lhs => rw [← List.take_append_drop k ds]
        rw [value_append, List.length_take, min_eq_left hk]
      have hpow : (100 : ℤ) ^ ds.length = 100 ^ k * 100 ^ xs.length := by
        rw [← pow_add, hlen, Nat.add_sub_cancel' hk]
      rw [value_append, List.length_take, min_eq_left hk, value_concat, value_concat, hsplit, hpow]
      linear_combination 100 ^ k * hval
    · simp only [carryMap]
      split_ifs
      · rw [List.append_assoc]
      · rw [List.append_assoc]
  · intro n hn c hc
    have hmem := List.of_mem_zip hn
    have h1 := hds n.1 (List.mem_of_mem_drop hmem.1)
    have h2 := hxs n.2 hmem.2
    dsimp only
    split_ifs with h0
    · rw [char_eq (by omega) (by omega)]
      dsimp only
      omega
    · rw [char_eq (by omega) (by omega)]
      dsimp only
      omega

/-- One turn, at any offset: the digit times the divisor is taken off. -/
theorem turn_spec {divr divd : Blk} {m k : ℕ} (hr : Divisor divr m)
    (hd : Left (value 100 divr) m k divd) (c : ℤ) (magic : Bool) (divxyz : Blk) {td cc : ℤ}
    (htd : td = (back divd 0 * 100 + back divd 1) * 100 + back divd 2 + if k = 0 then 1 else 0)
    (hcc : cc = c + if k = 0 then 0 else 1) (hpos : 0 < cc)
    (h0 : 0 ≤ (digit td cc magic).1) (h117 : (digit td cc magic).1 ≤ 117) :
    ∃ es t divxyz', Digits 100 es ∧ es.length = k + (m + 1) ∧
      value 100 es + 100 ^ (k + (m + 1)) * t =
        value 100 divd - (digit td cc magic).1 * (value 100 divr * 100 ^ k) ∧
      turn divr c magic divd divxyz k = .ok ⟨(digit td cc magic).1, (digit td cc magic).2,
        es ++ [char (if t < 0 then t + 100 else t)], divxyz', if t < 0 then 1 else 0⟩ := by
  obtain ⟨ds, d, rfl, hds, hlen⟩ := hd.shape
  obtain ⟨xs, x, hprod, hxlen, hxs, hxval⟩ := multiple_spec hr.digits h0 h117
  obtain ⟨es, t, hes, heslen, hval, hsub⟩ := @subtract_spec ds xs
    (divxyz.drop (xs ++ [x]).length) d x k hds hxs (by omega) (by rw [hxlen, hr.length]; omega)
  refine ⟨es, t, xs ++ [x] ++ divxyz.drop (xs ++ [x]).length, hes, heslen.trans hlen, ?_, ?_⟩
  · rw [← hlen, hval, hxval]
    ring
  · have htd' : (if k = 0 then (back (ds ++ [d]) 0 * 100 + back (ds ++ [d]) 1) * 100 +
        back (ds ++ [d]) 2 + 1 else (back (ds ++ [d]) 0 * 100 + back (ds ++ [d]) 1) * 100 +
        back (ds ++ [d]) 2) = td := by
      rw [htd]
      split_ifs <;> omega
    have hcc' : (if k = 0 then c else c + 1) = cc := by
      rw [hcc]
      split_ifs <;> omega
    unfold turn
    dsimp only
    rw [htd', hcc', if_neg hpos.ne', hprod, hsub]
    split_ifs <;> rfl

theorem handDown_spec {es : Blk} {e n : ℤ} {l : ℕ} (hes : Digits 100 es)
    (hlen : es.length = l + 1) (he : e = 0 ∨ e = 1) (hval : value 100 (es ++ [e]) = n)
    (hlt : n < 117 * 100 ^ l) :
    ∃ fs f, handDown (es ++ [e]) = fs ++ [f] ∧ Digits 100 fs ∧ fs.length = l ∧
      value 100 (fs ++ [f]) = n := by
  obtain ⟨fs, f, rfl⟩ := (List.eq_nil_or_concat' es).resolve_left (by rintro rfl; simp at hlen)
  have hfs : Digits 100 fs := Digits.of_append_left hes
  have hflen : fs.length = l := by simpa using hlen
  have hf := hes f (by simp)
  unfold handDown
  rw [back_concat_zero, back_concat_succ, back_concat_zero]
  rcases he with rfl | rfl
  · refine ⟨fs, f, by simp, hfs, hflen, ?_⟩
    rw [← hval, value_concat 100 (fs ++ [f]), mul_zero, add_zero]
  · have hn : value 100 (fs ++ [f + 100]) = n := by
      rw [← hval, value_concat, value_concat, value_concat, List.length_append,
        List.length_singleton, pow_succ]
      ring
    have hf117 : f + 100 < 117 := by
      apply lt_of_mul_lt_mul_right (a := (100 : ℤ) ^ l) _ (by positivity)
      rw [value_concat, hflen] at hn
      linarith [hfs.value_nonneg]
    refine ⟨fs, f + 100, ?_, hfs, hflen, hn⟩
    unfold salterc
    rw [if_pos (by decide), char_eq (by omega) (by omega)]
    simp

/-- A turn before the last. -/
theorem turn_mid {divr divd : Blk} {m k : ℕ} (hr : Divisor divr m)
    (hd : Left (value 100 divr) m (k + 1) divd) (divxyz : Blk) :
    ∃ t, turn divr (divisor divr).1 (divisor divr).2 divd divxyz (k + 1) = .ok t ∧
      0 ≤ t.dig ∧ t.dig ≤ 117 ∧ Left (value 100 divr) m k (handDown t.divd) ∧
      value 100 (handDown t.divd) = value 100 divd - t.dig * (value 100 divr * 100 ^ (k + 1)) := by
  have hbounds := bounds hr hd
  obtain ⟨h0, h117, hle, hlt⟩ := digit_mid hbounds
  have hc : 0 < (divisor divr).1 + 1 := by
    cases hm : (divisor divr).2 with
    | false =>
      have := hbounds.plain hm
      omega
    | true =>
      have := hbounds.eightfold hm
      omega
  obtain ⟨es, t, divxyz', hes, heslen, hval, hturn⟩ := turn_spec hr hd (divisor divr).1
    (divisor divr).2 divxyz (by rw [if_neg (by omega), add_zero]) (by rw [if_neg (by omega)]) hc
    h0 h117
  generalize (digit _ _ _) = dig at *
  have hV := hr.lt
  have hk : (0 : ℤ) < 100 ^ k := by positivity
  have hrem : value 100 divd - dig.1 * (value 100 divr * 100 ^ (k + 1)) <
      117 * (value 100 divr * 100 ^ k) := by
    have hpow : (100 : ℤ) ^ (k + 1) = 100 * 100 ^ k := by ring
    rw [hpow] at hlt ⊢
    linarith
  have hpow : (100 : ℤ) ^ (k + (m + 1)) = 100 ^ k * (100 ^ m * 100) := by ring
  have hVk : 100 ^ k * value 100 divr < 100 ^ k * (100 ^ m * 100) :=
    mul_lt_mul_of_pos_left hV hk
  have hrem' : value 100 divd - dig.1 * (value 100 divr * 100 ^ (k + 1)) <
      117 * 100 ^ (k + (m + 1)) := by
    rw [hpow]
    linarith
  have ht : t = 0 ∨ t = 1 := by
    have hes0 := hes.value_nonneg
    have hes1 := hes.value_lt
    have hpow' : (100 : ℤ) ^ (k + 1 + (m + 1)) = 100 * 100 ^ (k + (m + 1)) := by ring
    rw [heslen] at hes1
    rw [hpow'] at hval hes1
    have hP : (0 : ℤ) < 100 ^ (k + (m + 1)) := by positivity
    have h1 : -1 < t := by
      apply lt_of_mul_lt_mul_right (a := 100 * (100 : ℤ) ^ (k + (m + 1))) _ (by positivity)
      linarith
    have h2 : t < 2 := by
      apply lt_of_mul_lt_mul_right (a := 100 * (100 : ℤ) ^ (k + (m + 1))) _ (by positivity)
      linarith
    omega
  have hnn : ¬ t < 0 := by omega
  rw [if_neg hnn, if_neg hnn, char_eq (by omega) (by omega)] at hturn
  obtain ⟨fs, f, hhand, hfs, hflen, hfval⟩ := handDown_spec hes (by omega) ht
    (by rw [value_concat, heslen]; exact hval) hrem'
  refine ⟨_, hturn, h0, h117, ?_, ?_⟩
  · dsimp only
    refine ⟨⟨fs, f, hhand, hfs, hflen⟩, ?_, ?_⟩
    · rw [hhand, hfval]
      linarith
    · rw [hhand, hfval]
      exact hrem
  · dsimp only
    rw [hhand, hfval]

/-- What is known after the last turn; `rem` is what is left if borrows are counted. -/
structure Last (V : ℤ) (m : ℕ) (t : Turn) (rem : ℤ) : Prop where
  dig_nonneg : 0 ≤ t.dig
  dig_le : t.dig ≤ 117
  under : t.under = true → 0 ≤ rem ∧ rem < 2 * V
  right : t.under = false → -V < rem ∧ rem < V
  left : 0 ≤ rem → t.divcarry = 0 ∧ Digits 100 t.divd ∧ value 100 t.divd = rem
  borrow : rem < 0 → t.divcarry = 1 ∧ 1 ≤ t.dig ∧
    ∃ es, t.divd = es ++ [99] ∧ Digits 100 es ∧ value 100 (es ++ [-1]) = rem

theorem turn_last {divr divd : Blk} {m : ℕ} (hr : Divisor divr m)
    (hd : Left (value 100 divr) m 0 divd) (divxyz : Blk) :
    ∃ t rem, turn divr (divisor divr).1 (divisor divr).2 divd divxyz 0 = .ok t ∧
      Last (value 100 divr) m t rem ∧ value 100 divd = t.dig * value 100 divr + rem := by
  have hbounds := bounds hr hd
  obtain ⟨h0, h117, hunder, hright⟩ := digit_last hbounds
  have hc : 0 < (divisor divr).1 := by
    cases hm : (divisor divr).2 with
    | false =>
      have := hbounds.plain hm
      omega
    | true =>
      have := hbounds.eightfold hm
      omega
  obtain ⟨es, t, divxyz', hes, heslen, hval, hturn⟩ := turn_spec hr hd (divisor divr).1
    (divisor divr).2 divxyz (by rw [if_pos rfl]) (by rw [if_pos rfl, add_zero]) hc h0 h117
  generalize (digit _ _ _) = dig at *
  rw [pow_zero, mul_one] at hunder hright hval
  rw [Nat.zero_add] at heslen hval
  have hes0 := hes.value_nonneg
  have hes1 := hes.value_lt
  have hV := hr.lt
  have hVpos := hr.pos
  rw [heslen] at hes1
  rw [← pow_succ] at hV
  generalize hrem : value 100 divd - dig.1 * value 100 divr = rem at *
  have hrange : -value 100 divr < rem ∧ rem < 2 * value 100 divr := by
    cases hu : dig.2 with
    | false =>
      have := hright hu
      constructor <;> linarith
    | true =>
      have := hunder hu
      constructor <;> linarith
  have hP : (0 : ℤ) < 100 ^ (m + 1) := by positivity
  have ht1 : -2 < t := by
    apply lt_of_mul_lt_mul_right (a := (100 : ℤ) ^ (m + 1)) _ hP.le
    linarith
  have ht2 : t < 2 := by
    apply lt_of_mul_lt_mul_right (a := (100 : ℤ) ^ (m + 1)) _ hP.le
    linarith
  refine ⟨_, rem, hturn, ⟨h0, h117, ?_, ?_, ?_, ?_⟩, ?_⟩
  · intro hu
    have := hunder hu
    constructor <;> linarith
  · intro hu
    have := hright hu
    constructor <;> linarith
  · intro hnn
    have ht : ¬ t < 0 := by
      intro hneg
      have : (100 : ℤ) ^ (m + 1) * t ≤ 100 ^ (m + 1) * (-1) :=
        mul_le_mul_of_nonneg_left (by omega) hP.le
      linarith
    dsimp only
    rw [if_neg ht, if_neg ht, char_eq (by omega) (by omega)]
    refine ⟨rfl, hes.append (Digits.singleton (by omega) (by omega)), ?_⟩
    rw [value_concat, heslen, hval]
  · intro hneg
    have ht : t = -1 := by
      have : t < 0 := by
        by_contra hnn
        have : (0 : ℤ) ≤ 100 ^ (m + 1) * t := mul_nonneg hP.le (by omega)
        linarith
      omega
    have hdig : 1 ≤ dig.1 := by
      by_contra hlt
      have hz : dig.1 = 0 := by omega
      rw [hz, zero_mul, sub_zero] at hrem
      linarith [hd.nonneg]
    rw [ht] at hval ⊢
    exact ⟨rfl, hdig, es, rfl, hes, by rw [value_concat, heslen, hval]⟩
  · dsimp only
    linarith

/-- A run of the main loop from any offset. -/
theorem turns_spec {divr : Blk} {m : ℕ} (hr : Divisor divr m) (k : ℕ) {divd : Blk}
    (hd : Left (value 100 divr) m k divd) (divxyz p : Blk) :
    ∃ t hs rem, turns divr (divisor divr).1 (divisor divr).2 k divd divxyz p =
        .ok (t.dig :: (hs ++ p), t) ∧
      (∀ h ∈ hs, 0 ≤ h ∧ h ≤ 118) ∧ hs.length = k ∧ Last (value 100 divr) m t rem ∧
      value 100 divd = value 100 (t.dig :: hs) * value 100 divr + rem := by
  induction k generalizing divd divxyz p with
  | zero =>
    obtain ⟨t, rem, hturn, hlast, hval⟩ := turn_last hr hd divxyz
    refine ⟨t, [], rem, ?_, by simp, rfl, hlast, by simpa using hval⟩
    have hdig := hlast.dig_nonneg
    have hdig' := hlast.dig_le
    unfold turns
    rw [hturn]
    change Except.ok (char t.dig :: p, t) = _
    rw [char_eq (by omega) (by omega)]
    rfl
  | succ k ih =>
    obtain ⟨t', hturn, h0, h117, hleft, hval⟩ := turn_mid hr hd divxyz
    obtain ⟨t, hs, rem, hturns, hhs, hlen, hlast, hval'⟩ :=
      ih hleft t'.divxyz (char t'.dig :: p)
    refine ⟨t, hs ++ [t'.dig], rem, ?_, ?_, ?_, hlast, ?_⟩
    · unfold turns
      rw [hturn]
      change turns divr _ _ k (handDown t'.divd) t'.divxyz (char t'.dig :: p) = _
      rw [hturns, char_eq (by omega) (by omega), List.append_assoc]
      rfl
    · intro h hmem
      rcases List.mem_append.mp hmem with hmem | hmem
      · exact hhs h hmem
      · rw [List.mem_singleton.mp hmem]
        omega
    · rw [List.length_append, hlen, List.length_singleton]
    · rw [value_cons] at hval' ⊢
      rw [value_concat, hlen]
      have hpow : (100 : ℤ) ^ (k + 1) = 100 * 100 ^ k := by ring
      rw [hpow] at hval
      linear_combination hval' - hval

end Unitas.Dc
