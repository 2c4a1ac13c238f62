import Unitas.Lib.CInt
import Unitas.Lib.Radix

/-! The numbers of `dc`: blocks of `char`s that hold the digits of a number in base 100. -/
namespace Unitas.Dc

open CInt Radix

/-- What is between `beg` and `wt`. -/
abbrev Blk := List ℤ

/-- `sbackc` for the `i`th time after `fsfile`, and 0 where `sfbeg` is true. -/
def back (p : Blk) (i : ℕ) : ℤ := p.reverse.getD i 0

/-- `salterc` with `rd` at `i`. -/
def salterc (p : Blk) (i : ℕ) (c : ℤ) : Blk := p.take i ++ char c :: p.drop (i + 1)

def chsign (p : Blk) : Blk :=
  let r := carryMap (fun c carry =>
    let ct := char (100 - c - carry)
    if 100 ≤ ct then (char (ct - 100), 0) else (ct, 1)) 0 p
  if r.2 ≠ 0 then
    if back r.1 0 = 99 then r.1.dropLast ++ [-1] else r.1 ++ [-1]
  else if back r.1 0 = 0 then r.1.dropLast else r.1

/-- The last step takes the digits 99 off that stand below a final -1, except for the first
digit of all. -/
def add (a1 a2 : Blk) : Blk :=
  let r := carryMap (fun n carry =>
    let n := n.1 + n.2 + carry
    if 100 ≤ n then (char (n - 100), 1)
    else if n < 0 then (char (n + 100), -1)
    else (char n, 0)) 0 (columns (max a1.length a2.length) a1 a2)
  let p := (if r.2 ≠ 0 then r.1 ++ [r.2] else r.1).rdropWhile (· = 0)
  if back p 0 = -1 then
    let q := p.dropLast.rdropWhile (· = 99)
    if q = [] then p.take 1 ++ [-1] else q ++ [-1]
  else p

/-! ### Values -/

/-- The digits of a number: 0 to 99, and after them a -1 if the number is negative. -/
def Legal (p : Blk) : Prop := Digits 100 p ∨ ∃ ds, Digits 100 ds ∧ p = ds ++ [-1]

theorem char_eq {c : ℤ} (h0 : -128 ≤ c) (h1 : c < 128) : char c = c := by
  rw [char_def]
  split_ifs <;> omega

theorem back_concat_zero (ds : Blk) (d : ℤ) : back (ds ++ [d]) 0 = d := by simp [back]

theorem back_concat_succ (ds : Blk) (d : ℤ) (i : ℕ) : back (ds ++ [d]) (i + 1) = back ds i := by
  simp [back]

theorem back_mem {p : Blk} (h : p ≠ []) : back p 0 ∈ p := by
  obtain ⟨ds, d, rfl⟩ := (List.eq_nil_or_concat' p).resolve_left h
  rw [back_concat_zero]
  simp

theorem Legal.mem {p : Blk} (h : Legal p) {d : ℤ} (hd : d ∈ p) : -1 ≤ d ∧ d < 100 := by
  rcases h with h | ⟨ds, h, rfl⟩
  · have := h d hd
    omega
  · rcases List.mem_append.mp hd with hd | hd
    · have := h d hd
      omega
    · rw [List.mem_singleton.mp hd]
      omega

/-- What `back p 0 = -1` says of a number. -/
theorem Legal.neg_iff {p : Blk} (h : Legal p) :
    back p 0 = -1 ↔ ∃ ds, Digits 100 ds ∧ p = ds ++ [-1] := by
  constructor
  · intro hneg
    rcases h with h | h
    · cases hp : p with
      | nil => simp [hp, back] at hneg
      | cons d ds =>
        have := h _ (back_mem (p := p) (by simp [hp]))
        omega
    · exact h
  · rintro ⟨ds, -, rfl⟩
    exact back_concat_zero ds (-1)

theorem Legal.digits {p : Blk} (h : Legal p) (hneg : back p 0 ≠ -1) : Digits 100 p :=
  h.resolve_right fun hp => hneg (h.neg_iff.mpr hp)

theorem value_neg {ds : Blk} (h : Digits 100 ds) : value 100 (ds ++ [-1]) < 0 := by
  rw [value_concat]
  linarith [h.value_lt]

theorem chsign_loop {p : Blk} (h : ∀ d ∈ p, -1 ≤ d ∧ d < 100) :
    let r := carryMap (fun c carry =>
      let ct := char (100 - c - carry)
      if 100 ≤ ct then (char (ct - 100), 0) else (ct, 1)) 0 p
    Digits 100 r.1 ∧ (r.2 = 0 ∨ r.2 = 1) ∧
      value 100 r.1 - 100 ^ p.length * r.2 = -value 100 p := by
  have hspec := carryMap_spec (b := 100) (σ := -1) (g := fun c => -c)
    (C := fun c => c = 0 ∨ c = 1) (D := fun d => 0 ≤ d ∧ d < 100) (l := p)
    (f := fun c carry =>
      let ct := char (100 - c - carry)
      if 100 ≤ ct then (char (ct - 100), 0) else (ct, 1)) ?_ (c := 0) (Or.inl rfl)
  · obtain ⟨hds, hc, hval⟩ := hspec
    rw [value_map_neg] at hval
    exact ⟨hds, hc, by linarith⟩
  · intro d hd c hc
    have hrange := h d hd
    have hct : char (100 - d - c) = 100 - d - c := char_eq (by omega) (by omega)
    dsimp only
    rw [hct]
    split_ifs with h100
    · rw [char_eq (by omega) (by omega)]
      dsimp only
      omega
    · dsimp only
      omega

theorem chsign_spec {p : Blk} (h : ∀ d ∈ p, -1 ≤ d ∧ d < 100) :
    Legal (chsign p) ∧ value 100 (chsign p) = -value 100 p := by
  obtain ⟨hds, hc, hval⟩ := chsign_loop h
  unfold chsign
  dsimp only at hds hc hval ⊢
  generalize hr : carryMap _ 0 p = r at hds hc hval
  have hlen : r.1.length = p.length := by rw [← hr, length_carryMap]
  rcases List.eq_nil_or_concat' r.1 with hnil | ⟨es, e, he⟩
  · have hp : p = [] := List.eq_nil_of_length_eq_zero (by rw [← hlen, hnil]; rfl)
    subst hp
    have hr2 : r = ([], 0) := hr.symm
    rw [hr2]
    exact ⟨Or.inl Digits.nil, rfl⟩
  · rw [he] at hds hval ⊢
    rw [he, List.length_append, List.length_singleton] at hlen
    rw [value_concat, ← hlen] at hval
    rw [back_concat_zero, List.dropLast_concat]
    split_ifs with hcarry h99 h0
    · have h1 : r.2 = 1 := hc.resolve_left hcarry
      rw [h1, h99, pow_succ] at hval
      refine ⟨Or.inr ⟨es, hds.of_append_left, rfl⟩, ?_⟩
      rw [value_concat]
      linarith
    · have h1 : r.2 = 1 := hc.resolve_left hcarry
      rw [h1] at hval
      refine ⟨Or.inr ⟨es ++ [e], hds, rfl⟩, ?_⟩
      rw [value_concat, value_concat, List.length_append, List.length_singleton]
      linarith
    · rw [not_not.mp hcarry, h0] at hval
      refine ⟨Or.inl hds.of_append_left, ?_⟩
      linarith
    · rw [not_not.mp hcarry] at hval
      refine ⟨Or.inl hds, ?_⟩
      rw [value_concat]
      linarith

theorem add_loop {a1 a2 : Blk} (h1 : ∀ d ∈ a1, -1 ≤ d ∧ d < 100)
    (h2 : ∀ d ∈ a2, -1 ≤ d ∧ d < 100) :
    let r := carryMap (fun n carry =>
      let n := n.1 + n.2 + carry
      if 100 ≤ n then (char (n - 100), 1)
      else if n < 0 then (char (n + 100), -1)
      else (char n, 0)) 0 (columns (max a1.length a2.length) a1 a2)
    Digits 100 r.1 ∧ (r.2 = -1 ∨ r.2 = 0 ∨ r.2 = 1) ∧
      value 100 r.1 + 100 ^ (max a1.length a2.length) * r.2 = value 100 a1 + value 100 a2 := by
  have hspec := carryMap_spec (b := 100) (σ := 1) (g := fun n : ℤ × ℤ => n.1 + n.2)
    (C := fun c => c = -1 ∨ c = 0 ∨ c = 1) (D := fun d => 0 ≤ d ∧ d < 100)
    (l := columns (max a1.length a2.length) a1 a2)
    (f := fun n carry =>
      let n := n.1 + n.2 + carry
      if 100 ≤ n then (char (n - 100), 1)
      else if n < 0 then (char (n + 100), -1)
      else (char n, 0)) ?_ (c := 0) (Or.inr (Or.inl rfl))
  · obtain ⟨hds, hc, hval⟩ := hspec
    rw [value_columns 100 _ _ _ (le_max_left _ _) (le_max_right _ _), length_columns] at hval
    exact ⟨hds, hc, by linarith⟩
  · intro n hn c hc
    obtain ⟨hn1, hn2⟩ := mem_columns hn
    have hr1 : -1 ≤ n.1 ∧ n.1 < 100 := by
      rcases hn1 with h0 | hmem
      · omega
      · exact h1 _ hmem
    have hr2 : -1 ≤ n.2 ∧ n.2 < 100 := by
      rcases hn2 with h0 | hmem
      · omega
      · exact h2 _ hmem
    dsimp only
    split_ifs with h100 h0
    · rw [char_eq (by omega) (by omega)]
      dsimp only
      omega
    · rw [char_eq (by omega) (by omega)]
      dsimp only
      omega
    · rw [char_eq (by omega) (by omega)]
      dsimp only
      omega

theorem value_rdropWhile_concat (ds : Blk) :
    value 100 (ds.rdropWhile (· = 99) ++ [-1]) = value 100 (ds ++ [-1]) := by
  induction ds using List.reverseRecOn with
  | nil => rfl
  | append_singleton ds d ih =>
    by_cases hd : d = 99
    · subst hd
      rw [List.rdropWhile_concat_pos _ _ _ (by simp), ih, value_concat, value_concat,
        value_concat, List.length_append, List.length_singleton]
      ring
    · rw [List.rdropWhile_concat_neg _ _ _ (by simpa using hd)]

theorem digits_rdropWhile {b : ℤ} {ds : Blk} (h : Digits b ds) (P : ℤ → Bool) :
    Digits b (ds.rdropWhile P) := fun d hd =>
  h d ((List.rdropWhile_prefix P ds).subset hd)

/-- A number of which no digit could be left out, as `add`, `chsign` and `div` make them. -/
def Normal (p : Blk) : Prop :=
  Legal p ∧ ∀ ds d, (p = ds ++ [d] ∧ d ≠ -1 ∨ p = ds ++ [d, -1]) →
    100 ^ ds.length ≤ |value 100 p|

theorem Normal.le_value {ds : Blk} {d : ℤ} (h : Normal (ds ++ [d]))
    (hds : Digits 100 (ds ++ [d])) : 100 ^ ds.length ≤ value 100 (ds ++ [d]) := by
  have hd := hds d (by simp)
  have hle := h.2 ds d (Or.inl ⟨rfl, by omega⟩)
  rwa [abs_of_nonneg hds.value_nonneg] at hle

/-- Digits without a zero at the top. -/
theorem normal_of_digits {p : Blk} (h : Digits 100 p) (htop : ∀ ds, p ≠ ds ++ [0]) :
    Normal p := by
  constructor
  · exact Or.inl h
  · rintro ds d (⟨rfl, -⟩ | rfl)
    · have hd := h d (by simp)
      have hne : d ≠ 0 := by
        rintro rfl
        exact htop ds rfl
      rw [abs_of_nonneg h.value_nonneg, value_concat]
      have hds : 0 ≤ value 100 ds := Digits.value_nonneg (Digits.of_append_left h)
      have hpow : (100 : ℤ) ^ ds.length * 1 ≤ 100 ^ ds.length * d :=
        mul_le_mul_of_nonneg_left (by omega) (by positivity)
      linarith
    · have := h (-1) (by simp)
      omega

theorem normal_of_value {ds : Blk} (h : Digits 100 ds)
    (hle : ∀ es e, ds = es ++ [e] → value 100 (ds ++ [-1]) ≤ -100 ^ es.length) :
    Normal (ds ++ [-1]) := by
  constructor
  · exact Or.inr ⟨ds, h, rfl⟩
  · rintro es e (⟨heq, hne⟩ | heq)
    · exact absurd (List.append_inj' heq rfl).2 (by simp [Ne.symm hne])
    · have hds : ds = es ++ [e] := by
        have heq' : ds ++ [-1] = (es ++ [e]) ++ [-1] := by simpa using heq
        exact (List.append_inj' heq' rfl).1
      rw [abs_of_neg (value_neg h)]
      linarith [hle es e hds]

/-- The last step of `add` on a negative number. -/
theorem strip99_spec {ds : Blk} (h : Digits 100 ds) (hne : ds ≠ []) :
    let q := ds.rdropWhile (· = 99)
    let p := if q = [] then (ds ++ [-1]).take 1 ++ [-1] else q ++ [-1]
    Normal p ∧ value 100 p = value 100 (ds ++ [-1]) := by
  have hq := value_rdropWhile_concat ds
  dsimp only
  split_ifs with hnil
  · obtain ⟨d, es, rfl⟩ := List.exists_cons_of_ne_nil hne
    have hd : d = 99 := by
      have := List.rdropWhile_eq_nil_iff.mp hnil d (by simp)
      simpa using this
    have htake : (d :: es ++ [-1]).take 1 ++ [-1] = [99, -1] := by simp [hd]
    rw [htake, ← hq, hnil]
    constructor
    · have h99 : Digits 100 [99] := Digits.singleton (by decide) (by decide)
      apply normal_of_value h99
      intro fs f hf
      have hfs : fs = [] := by
        have := congrArg List.length hf
        simpa using this
      subst hfs
      simp
    · simp
  · constructor
    · apply normal_of_value (digits_rdropWhile h _)
      intro es e he
      have hlast := List.rdropWhile_last_not (fun d : ℤ => decide (d = 99)) ds hnil
      have hdig := digits_rdropWhile h (fun d : ℤ => decide (d = 99))
      simp only [he, List.getLast_append_singleton, decide_eq_true_eq] at hlast
      rw [he] at hdig ⊢
      have hee := hdig e (by simp)
      have hes := (Digits.of_append_left hdig).value_lt
      rw [value_concat, value_concat, List.length_append, List.length_singleton, pow_succ]
      have hpow : (100 : ℤ) ^ es.length * e ≤ 100 ^ es.length * 98 :=
        mul_le_mul_of_nonneg_left (by omega) (by positivity)
      linarith
    · exact hq

theorem strip0_spec {ds : Blk} (h : Digits 100 ds) : Normal (ds.rdropWhile (· = 0)) := by
  apply normal_of_digits (digits_rdropWhile h _)
  intro es he
  have hlast := List.rdropWhile_last_not (fun d : ℤ => decide (d = 0)) ds (by simp [he])
  simp [he] at hlast

theorem add_spec {a1 a2 : Blk} (h1 : ∀ d ∈ a1, -1 ≤ d ∧ d < 100)
    (h2 : ∀ d ∈ a2, -1 ≤ d ∧ d < 100) :
    Normal (add a1 a2) ∧ value 100 (add a1 a2) = value 100 a1 + value 100 a2 := by
  obtain ⟨hds, hc, hval⟩ := add_loop h1 h2
  unfold add
  dsimp only at hds hc hval ⊢
  generalize hr : carryMap _ 0 _ = r at hds hc hval
  have hlen : r.1.length = max a1.length a2.length := by
    rw [← hr, length_carryMap, length_columns]
  rw [← hlen] at hval
  by_cases hzero : r.2 = 0
  · rw [if_neg (not_not.mpr hzero), if_neg, value_rdropWhile, ← hval, hzero]
    · exact ⟨strip0_spec hds, by ring⟩
    · intro hneg
      obtain ⟨ds, -, he⟩ := (strip0_spec hds).1.neg_iff.mp hneg
      have := digits_rdropWhile hds (fun d : ℤ => decide (d = 0)) (-1) (by simp [he])
      omega
  · rw [if_pos hzero, List.rdropWhile_concat_neg _ _ _ (by simpa using hzero), back_concat_zero]
    rcases hc with hc | hc | hc
    · have hne : r.1 ≠ [] := by
        intro hnil
        have hlens : a1.length = 0 ∧ a2.length = 0 := by
          rw [hnil, List.length_nil] at hlen
          omega
        rw [List.eq_nil_of_length_eq_zero hlens.1, List.eq_nil_of_length_eq_zero hlens.2] at hr
        rw [← hr] at hzero
        simp [columns, carryMap] at hzero
      rw [hc, if_pos rfl, List.dropLast_concat, ← hval, hc, ← value_concat]
      exact strip99_spec hds hne
    · exact absurd hc hzero
    · rw [hc, if_neg (by decide), value_concat, ← hval, hc]
      constructor
      · apply normal_of_digits (hds.append (Digits.singleton (by decide) (by decide)))
        intro ds he
        have := (List.append_inj' he rfl).2
        simp at this
      · rfl

theorem chsign_top {p ds : Blk} {d : ℤ} (h : chsign p = ds ++ [d]) :
    d = -1 ∧ ds.length ≤ p.length ∨
      ds.length + 1 ≤ p.length ∧ (ds.length + 1 = p.length → d ≠ 0) := by
  unfold chsign at h
  dsimp only at h
  generalize hr : carryMap _ 0 p = r at h
  have hlen : r.1.length = p.length := by rw [← hr, length_carryMap]
  split_ifs at h with hcarry h99 h0
  · obtain ⟨rfl, hd⟩ := List.append_inj' h rfl
    left
    constructor
    · simpa using hd.symm
    · rw [List.length_dropLast]
      omega
  · obtain ⟨rfl, hd⟩ := List.append_inj' h rfl
    left
    constructor
    · simpa using hd.symm
    · exact hlen.le
  · right
    have hdrop := congrArg List.length h
    rw [List.length_dropLast, List.length_append, List.length_singleton] at hdrop
    omega
  · right
    rw [h, back_concat_zero] at h0
    rw [h, List.length_append, List.length_singleton] at hlen
    exact ⟨hlen.le, fun _ => h0⟩

/-- `chsign` keeps what `Normal` says. -/
theorem chsign_normal {p : Blk} (h : Normal p) : Normal (chsign p) := by
  obtain ⟨hlegal, hvalue⟩ := chsign_spec fun d => h.1.mem
  constructor
  · exact hlegal
  · intro ds d hd
    rw [hvalue, abs_neg]
    rcases h.1 with hp | ⟨es, hes, rfl⟩
    · obtain rfl | ⟨es, e, rfl⟩ := List.eq_nil_or_concat' p
      · have hnil : chsign [] = [] := rfl
        rw [hnil] at hd
        simp at hd
      · have hle := h.le_value hp
        rw [abs_of_nonneg hp.value_nonneg]
        have hpos : (0 : ℤ) < 100 ^ es.length := by positivity
        rcases hd with ⟨hq, hne⟩ | hq
        · have hdig : Digits 100 (chsign (es ++ [e])) := by
            apply hlegal.digits
            rwa [hq, back_concat_zero]
          have := hdig.value_nonneg
          omega
        · have hq' : chsign (es ++ [e]) = (ds ++ [d]) ++ [-1] := by rw [hq]; simp
          have hlen := chsign_top hq'
          simp only [List.length_append, List.length_singleton] at hlen
          exact (pow_le_pow_right₀ (by decide) (by omega)).trans hle
    · have hneg := value_neg hes
      rcases hd with ⟨hq, hne⟩ | hq
      · have hlen := chsign_top hq
        rw [List.length_append, List.length_singleton] at hlen
        have hdig : Digits 100 (chsign (es ++ [-1])) := by
          apply hlegal.digits
          rwa [hq, back_concat_zero]
        by_cases heq : ds.length = es.length
        · have hd0 : d ≠ 0 := by omega
          rw [hq] at hvalue hdig
          rw [value_concat] at hvalue
          have hds : 0 ≤ value 100 ds := Digits.value_nonneg (Digits.of_append_left hdig)
          have hd1 := hdig d (by simp)
          have hpow : (100 : ℤ) ^ ds.length * 1 ≤ 100 ^ ds.length * d :=
            mul_le_mul_of_nonneg_left (by omega) (by positivity)
          rw [abs_of_neg hneg, ← hvalue]
          linarith
        · obtain ⟨fs, f, hf⟩ := (List.eq_nil_or_concat' es).resolve_left (by
            rintro rfl
            rw [List.length_nil] at hlen heq
            omega)
          have hle := h.2 fs f (Or.inr (by rw [hf]; simp))
          have hfs : es.length = fs.length + 1 := by rw [hf]; simp
          exact (pow_le_pow_right₀ (by decide) (by omega)).trans hle
      · have hpos := @value_neg (ds ++ [d]) (by
          have hl : ∃ es, Digits 100 es ∧ chsign (_ ++ [-1]) = es ++ [-1] := hlegal.neg_iff.mp (by
            have hq' : chsign (es ++ [-1]) = (ds ++ [d]) ++ [-1] := by rw [hq]; simp
            rw [hq', back_concat_zero])
          obtain ⟨gs, hgs, hg⟩ := hl
          have hq' : gs ++ [-1] = (ds ++ [d]) ++ [-1] := by rw [← hg, hq]; simp
          rwa [← (List.append_inj' hq' rfl).1])
        have hq' : chsign (es ++ [-1]) = (ds ++ [d]) ++ [-1] := by rw [hq]; simp
        rw [← hq', hvalue] at hpos
        omega

end Unitas.Dc
