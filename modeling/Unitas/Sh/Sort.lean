import Unitas.Sh.Fields

/-! What `gsort` of the shell makes of an array, with its variables of type `int`. -/
namespace Unitas.Sh.Sort
open Unitas.CInt Unitas.Sh.Fields

/-! ### Order -/

/-- A string as it is compared. -/
def key (s : Str) : List ℕ := s.map UInt8.toNat

theorem cf_pos_iff {s t : Str} (hs : 0 ∉ s) (ht : 0 ∉ t) : 0 < Names.cf s t ↔ key t < key s := by
  induction s generalizing t with
  | nil => cases t <;> simp [Names.cf, key]
  | cons c s ih =>
    rw [List.mem_cons, not_or] at hs
    cases t with
    | nil =>
      have hc : c.toNat ≠ 0 := fun h => hs.1 (UInt8.toNat_inj.mp h.symm)
      simpa [Names.cf, key] using Nat.pos_of_ne_zero hc
    | cons d t =>
      rw [List.mem_cons, not_or] at ht
      simp only [Names.cf, key, List.map_cons, List.cons_lt_cons_iff]
      by_cases h : c = d
      · rw [if_pos h, ih hs.2 ht.2]
        simp [key, h]
      · have hne : c.toNat ≠ d.toNat := fun h' => h (UInt8.toNat_inj.mp h')
        rw [if_neg h]
        omega

theorem cf_nonpos_iff {s t : Str} (hs : 0 ∉ s) (ht : 0 ∉ t) :
    Names.cf s t ≤ 0 ↔ key s ≤ key t := by
  rw [← not_lt, cf_pos_iff hs ht, not_lt]

theorem getD_swap {l : List Str} {i m : ℕ} (hm : 0 < m) (h : i + m < l.length) (k : ℕ) :
    (swap l i m).getD k [] =
      if k = i + m then l.getD i [] else if k = i then l.getD (i + m) [] else l.getD k [] := by
  have hi : i < l.length := by omega
  simp only [swap, List.getD_eq_getElem?_getD, List.getElem?_set, List.length_set]
  by_cases h1 : k = i + m
  · rw [if_pos h1.symm, if_pos h, if_pos h1, Option.getD_some]
  · rw [if_neg (Ne.symm h1), if_neg h1]
    by_cases h2 : k = i
    · rw [if_pos h2.symm, if_pos hi, if_pos h2, Option.getD_some]
    · rw [if_neg (Ne.symm h2), if_neg h2]

theorem perm_swap {l : List Str} {i m : ℕ} (h : i + m < l.length) : (swap l i m).Perm l := by
  have hi : i < l.length := by omega
  rw [swap, List.getD_eq_getElem _ _ h, List.getD_eq_getElem _ _ hi]
  exact List.set_set_perm hi h

/-! ### What every pass keeps -/

/-- Only the first `n` strings are moved. -/
def Moved (n : ℕ) (l l' : List Str) : Prop := l'.Perm l ∧ ∀ k, n ≤ k → l'.getD k [] = l.getD k []

variable {n : ℕ} {l l' l'' : List Str}

theorem Moved.refl (n : ℕ) (l : List Str) : Moved n l l := ⟨.refl l, fun _ _ => rfl⟩

theorem Moved.trans (h : Moved n l l') (h' : Moved n l' l'') : Moved n l l'' :=
  ⟨h'.1.trans h.1, fun k hk => (h'.2 k hk).trans (h.2 k hk)⟩

theorem moved_swap {i m : ℕ} (hm : 0 < m) (hi : i + m < n) (hn : n ≤ l.length) :
    Moved n l (swap l i m) := by
  refine ⟨perm_swap (by omega), fun k hk => ?_⟩
  rw [getD_swap hm (by omega), if_neg (by omega), if_neg (by omega)]

theorem moved_sift {m : ℕ} (hm : 0 < m) (fuel : ℕ) : ∀ {i : ℕ} {l : List Str}, i + m < n →
    n ≤ l.length → Moved n l (sift m fuel i l) := by
  induction fuel with
  | zero => intro i l _ _; exact .refl n l
  | succ fuel ih =>
    intro i l hi hn
    have hswap := moved_swap hm hi hn
    rw [sift]
    split_ifs
    · exact .refl n l
    · exact hswap
    · exact hswap.trans (ih (by omega) (hswap.1.length_eq ▸ hn))

theorem moved_foldl {m : ℕ} (hm : 0 < m) (js : List ℕ) : ∀ {l : List Str}, (∀ j ∈ js, j + m < n) →
    n ≤ l.length → Moved n l (js.foldl (fun l j => sift m (j + 1) j l) l) := by
  induction js with
  | nil => intro l _ _; exact .refl n l
  | cons j js ih =>
    intro l hjs hn
    have hsift := moved_sift hm (j + 1) (hjs j (by simp)) hn
    exact hsift.trans (ih (fun k hk => hjs k (by simp [hk])) (hsift.1.length_eq ▸ hn))

theorem moved_pass {m : ℤ} (hm : 0 < m) (hn : n ≤ l.length) : Moved n l (pass n m l) := by
  refine moved_foldl (by omega) _ (fun j hj => ?_) hn
  have := List.mem_range.mp hj
  omega

theorem moved_passes (fuel : ℕ) : ∀ {m : ℤ} {l : List Str}, 0 ≤ m → n ≤ l.length →
    passes n fuel m l = some l' → Moved n l l' := by
  induction fuel with
  | zero => intro m l _ _ h; cases h
  | succ fuel ih =>
    intro m l hm hn h
    rw [passes] at h
    split_ifs at h with h0
    · exact Option.some.inj h ▸ .refl n l
    · have hpos : 0 < m.tdiv 2 := by
        have := Int.tdiv_nonneg hm (show (0 : ℤ) ≤ 2 by decide)
        omega
      have hpass := moved_pass (n := n) hpos hn
      exact hpass.trans (ih hpos.le (hpass.1.length_eq ▸ hn) h)

/-! ### The last pass -/

/-- The first `n` strings are in order. -/
def Sorted (n : ℕ) (l : List Str) : Prop :=
  ∀ a b, a < b → b < n → key (l.getD a []) ≤ key (l.getD b [])

/-- The strings up to `j` are in order but for the one at `i`, which is only known not to be greater
than those behind it. -/
def Sifting (i j : ℕ) (l : List Str) : Prop :=
  (∀ a b, a < b → b ≤ j → a ≠ i → b ≠ i → key (l.getD a []) ≤ key (l.getD b [])) ∧
    ∀ b, i < b → b ≤ j → key (l.getD i []) ≤ key (l.getD b [])

theorem Sifting.sorted {i j : ℕ} (h : Sifting i j l)
    (hbelow : ∀ a, a < i → key (l.getD a []) ≤ key (l.getD i [])) : Sorted (j + 1) l := by
  intro a b hab hb
  by_cases ha : a = i
  · exact ha ▸ h.2 b (ha ▸ hab) (by omega)
  · by_cases hbi : b = i
    · exact hbi ▸ hbelow a (hbi ▸ hab)
    · exact h.1 a b hab (by omega) ha hbi

theorem Sifting.swap {i j : ℕ} (h : Sifting (i + 1) j l) (hlen : j < l.length) (hi : i + 1 ≤ j)
    (hle : key (l.getD (i + 1) []) ≤ key (l.getD i [])) : Sifting i j (swap l i 1) := by
  have hget := @getD_swap l i 1 (by decide) (by omega)
  constructor
  · intro a b hab hb ha hbi
    rw [hget, hget, if_neg hbi, if_neg ha]
    by_cases ha1 : a = i + 1
    · rw [if_pos ha1, if_neg (by omega)]
      exact h.1 i b (by omega) hb (by omega) (by omega)
    · rw [if_neg ha1]
      by_cases hb1 : b = i + 1
      · rw [if_pos hb1]
        exact h.1 a i (by omega) (by omega) ha1 (by omega)
      · rw [if_neg hb1]
        exact h.1 a b hab hb ha1 hb1
  · intro b hb hbj
    rw [hget, hget, if_neg (by omega), if_pos rfl]
    by_cases hb1 : b = i + 1
    · rw [if_pos hb1]
      exact hle
    · rw [if_neg hb1, if_neg (by omega)]
      exact h.2 b (by omega) hbj

theorem sorted_sift {j : ℕ} (fuel : ℕ) : ∀ {i : ℕ} {l : List Str}, (∀ s ∈ l, 0 ∉ s) → i < fuel →
    i + 1 ≤ j → j < l.length → Sifting (i + 1) j l → Sorted (j + 1) (sift 1 fuel i l) := by
  induction fuel with
  | zero => intro i l _ h; omega
  | succ fuel ih =>
    intro i l hnul hfuel hi hlen h
    have hget : ∀ k, 0 ∉ l.getD k [] := fun k => by
      rw [List.getD_eq_getElem?_getD]
      cases hk : l[k]? with
      | none => simp
      | some s => exact hnul s (List.mem_of_getElem? hk)
    rw [sift]
    split_ifs with hcf h0
    · refine h.sorted fun a ha => ?_
      have hlt := (cf_pos_iff (hget _) (hget _)).mp hcf
      rcases Nat.lt_succ_iff_lt_or_eq.mp ha with ha' | rfl
      · exact (h.1 a i ha' (by omega) (by omega) (by omega)).trans hlt.le
      · exact hlt.le
    · have hle := (cf_nonpos_iff (hget _) (hget _)).mp (not_lt.mp hcf)
      exact (h.swap hlen hi hle).sorted fun a ha => by omega
    · have hle := (cf_nonpos_iff (hget _) (hget _)).mp (not_lt.mp hcf)
      have hperm := @perm_swap l i 1 (by omega)
      have hnext := h.swap hlen hi hle
      obtain ⟨i, rfl⟩ : ∃ i', i = i' + 1 := ⟨i - 1, by omega⟩
      exact ih (fun s hs => hnul s (hperm.mem_iff.mp hs)) (by omega) (by omega)
        (hperm.length_eq ▸ hlen) hnext

theorem sorted_foldl (k : ℕ) {l : List Str} (hnul : ∀ s ∈ l, 0 ∉ s) (hk : k < l.length) :
    Sorted (k + 1) ((List.range k).foldl (fun l j => sift 1 (j + 1) j l) l) := by
  induction k with
  | zero => intro a b hab hb; omega
  | succ k ih =>
    have hsorted := ih (by omega)
    have hmoved := @moved_foldl (k + 1) 1 (by decide) (List.range k) l
      (fun j hj => by have := List.mem_range.mp hj; omega) (by omega)
    rw [List.range_succ, List.foldl_append]
    generalize (List.range k).foldl (fun l j => sift 1 (j + 1) j l) l = l' at hsorted hmoved
    refine sorted_sift (k + 1) (fun s hs => hnul s (hmoved.1.mem_iff.mp hs)) (by omega) le_rfl
      (hmoved.1.length_eq ▸ hk) ⟨fun a b hab hb ha hbk => ?_, fun b hb hbk => by omega⟩
    exact hsorted a b hab (by omega)

/-- The passes end, the last one of them with `m` being 1. -/
theorem passes_sorted (k : ℕ) : ∀ {fuel : ℕ} {l : List Str}, k < fuel → 1 ≤ k →
    (∀ s ∈ l, 0 ∉ s) → 0 < n → n ≤ l.length →
    ∃ l', passes n (fuel + 1) (2 ^ (k + 1) - 1) l = some l' ∧ Sorted n l' := by
  induction k with
  | zero => intro fuel l _ h; omega
  | succ k ih =>
    intro fuel l hfuel _ hnul hpos hn
    have hm : (1 : ℤ) ≤ 2 ^ k := one_le_pow₀ (by decide)
    have hhalf : ((2 : ℤ) ^ (k + 1 + 1) - 1).tdiv 2 = 2 ^ (k + 1) - 1 := by
      rw [Int.tdiv_eq_ediv_of_nonneg (by omega)]
      omega
    have hmoved := @moved_pass n l (2 ^ (k + 1) - 1) (by omega) hn
    obtain ⟨fuel, rfl⟩ : ∃ f, fuel = f + 1 := ⟨fuel - 1, by omega⟩
    rw [passes, hhalf, if_neg (by omega)]
    rcases Nat.eq_zero_or_pos k with rfl | hk
    · refine ⟨_, by rw [passes, if_pos (by decide)], ?_⟩
      obtain ⟨j, rfl⟩ : ∃ j, n = j + 1 := ⟨n - 1, by omega⟩
      have hlast := sorted_foldl j hnul (by omega)
      have hcount : (((j + 1 : ℕ) : ℤ) - (2 ^ (0 + 1) - 1)).toNat = j := by omega
      unfold Fields.pass
      rwa [hcount]
    · exact ih (by omega) hk (fun s hs => hnul s (hmoved.1.mem_iff.mp hs)) hpos
        (hmoved.1.length_eq ▸ hn)

/-! ### The first `m` -/

theorem double_some {n : ℤ} (hn : n < 2 ^ 30) (d : ℕ) : ∀ {k : ℕ}, k + d = 30 →
    ∃ e ≤ 30, k ≤ e ∧ n < 2 ^ e ∧ double n (d + 2) (2 ^ k) = some (2 ^ e) := by
  induction d with
  | zero =>
    intro k hk
    obtain rfl : k = 30 := hk
    exact ⟨30, le_rfl, le_rfl, hn, by rw [double, if_neg (not_le.mpr hn)]⟩
  | succ d ih =>
    intro k hk
    by_cases hle : (2 : ℤ) ^ k ≤ n
    · obtain ⟨e, he, hke, hlt, hdouble⟩ := ih (k := k + 1) (by omega)
      refine ⟨e, he, by omega, hlt, ?_⟩
      have hlow : (0 : ℤ) < 2 ^ k := by positivity
      have hwrap : wrap 32 (2 * 2 ^ k) = 2 ^ (k + 1) := by
        rw [pow_succ, mul_comm, wrap, Int.bmod_eq_of_le] <;> omega
      rw [double, if_pos hle, hwrap, hdouble]
    · exact ⟨k, by omega, le_rfl, not_le.mp hle, by rw [double, if_neg hle]⟩

/-- From 0 on the loop does not end. -/
theorem double_zero {n : ℤ} (hn : 0 ≤ n) (fuel : ℕ) : double n fuel 0 = none := by
  induction fuel with
  | zero => rfl
  | succ fuel ih => rwa [double, if_pos hn]

theorem double_none {n : ℤ} (hn : 2 ^ 30 ≤ n) (d : ℕ) : ∀ {k : ℕ}, k + d = 30 →
    ∀ fuel, double n fuel (2 ^ k) = none := by
  induction d with
  | zero =>
    intro k hk fuel
    obtain rfl : k = 30 := hk
    have hmin : wrap 32 (2 * 2 ^ 30) = -2 ^ 31 := by decide
    have hzero : wrap 32 (2 * -2 ^ 31) = 0 := by decide
    rcases fuel with _ | _ | fuel
    · rfl
    · rw [double, if_pos hn, double]
    · rw [double, if_pos hn, hmin, double, if_pos (by omega), hzero]
      exact double_zero (by omega) _
  | succ d ih =>
    intro k hk fuel
    cases fuel with
    | zero => rfl
    | succ fuel =>
      have hle : (2 : ℤ) ^ (k + 1) ≤ 2 ^ 30 := pow_le_pow_right₀ (by decide) (by omega)
      have hlow : (0 : ℤ) < 2 ^ k := by positivity
      have hwrap : wrap 32 (2 * 2 ^ k) = 2 ^ (k + 1) := by
        rw [pow_succ, mul_comm, wrap, Int.bmod_eq_of_le] <;> omega
      rw [double, if_pos (by omega), hwrap, ih (by omega)]

/-! ### `gsort` -/

/-- What is to come of an array: a permutation of it in nondecreasing order of `cf`. -/
def Sorts (l : List Str) : Prop :=
  ∃ fuel l', gsort fuel l = some l' ∧ l'.Perm l ∧ l'.Pairwise fun s t => Names.cf s t ≤ 0

/-- Every string from the place `n` on belongs where it is. -/
def Settled (n : ℤ) (l : List Str) : Prop :=
  ∀ i j : ℕ, i < j → n ≤ j → j < l.length → Names.cf (l.getD i []) (l.getD j []) ≤ 0

theorem pairwise_iff {l : List Str} : (l.Pairwise fun s t => Names.cf s t ≤ 0) ↔
    ∀ i j, i < j → j < l.length → Names.cf (l.getD i []) (l.getD j []) ≤ 0 := by
  rw [List.pairwise_iff_getElem]
  constructor
  · intro h i j hij hj
    have hi : i < l.length := hij.trans hj
    rw [List.getD_eq_getElem _ _ hi, List.getD_eq_getElem _ _ hj]
    exact h i j hi hj hij
  · intro h i j hi hj hij
    have := h i j hij hj
    rwa [List.getD_eq_getElem _ _ hi, List.getD_eq_getElem _ _ hj] at this

theorem double_unique {n i j : ℤ} (fuel : ℕ) : ∀ {fuel' : ℕ} {k : ℤ}, double n fuel k = some i →
    double n fuel' k = some j → i = j := by
  induction fuel with
  | zero => intro _ _ h; cases h
  | succ fuel ih =>
    intro fuel' k h h'
    cases fuel' with
    | zero => cases h'
    | succ fuel' =>
      rw [double] at h h'
      split_ifs at h h' with hk
      · exact ih h h'
      · exact (Option.some.inj h).symm.trans (Option.some.inj h')

theorem Moved.symm (h : Moved n l l') : Moved n l' l := ⟨h.1.symm, fun k hk => (h.2 k hk).symm⟩

/-- What is among the first strings was there before. -/
theorem Moved.exists_lt (h : Moved n l l') (hn : n ≤ l.length) {i : ℕ} (hi : i < n) :
    ∃ k < n, l'.getD i [] = l.getD k [] := by
  have hlen := h.1.length_eq
  have hdrop : l'.drop n = l.drop n := by
    refine List.ext_getElem (by simp [hlen]) fun k h1 h2 => ?_
    rw [List.length_drop] at h1 h2
    have := h.2 (n + k) (by omega)
    rw [List.getD_eq_getElem _ _ (by omega), List.getD_eq_getElem _ _ (by omega)] at this
    simpa using this
  have htake : (l'.take n).Perm (l.take n) := by
    have hperm := h.1
    rw [← List.take_append_drop n l, ← List.take_append_drop n l', hdrop] at hperm
    exact (List.perm_append_right_iff _).mp hperm
  have hmem : l'.getD i [] ∈ l'.take n := by
    rw [List.getD_eq_getElem _ _ (by omega)]
    exact List.mem_take_iff_getElem.mpr ⟨i, by omega, rfl⟩
  obtain ⟨k, hk, heq⟩ := List.mem_take_iff_getElem.mp (htake.mem_iff.mp hmem)
  exact ⟨k, by omega, by rw [← heq, List.getD_eq_getElem _ _ (by omega)]⟩

/-- After strings have been moved, those behind are still in their places. -/
theorem Moved.settled (h : Moved n l l') (hn : n ≤ l.length) (hset : Settled n l) :
    Settled n l' := by
  intro i j hij hj hlen
  have hlen' := h.1.length_eq
  rw [h.2 j (by omega)]
  by_cases hi : i < n
  · obtain ⟨k, hk, heq⟩ := h.exists_lt hn hi
    exact heq ▸ hset k j (by omega) hj (by omega)
  · rw [h.2 i (by omega)]
    exact hset i j hij hj (by omega)

theorem wrap_twice {e : ℕ} (he : e ≤ 30) :
    wrap 32 (wrap 32 (2 * 2 ^ e) - 1) = 2 ^ (e + 1) - 1 := by
  have hle : (2 : ℤ) ^ e ≤ 2 ^ 30 := pow_le_pow_right₀ (by decide) he
  have hlow : (0 : ℤ) < 2 ^ e := by positivity
  rw [pow_succ, mul_comm, wrap, wrap, Int.bmod_sub_bmod, Int.bmod_eq_of_le] <;> omega

/-- `j` never gets greater than 2 to the 30. -/
theorem not_sorts {l : List Str} (h : 2 ^ 30 ≤ wrap 32 l.length) : ¬ Sorts l := by
  rintro ⟨fuel, l', hl', -⟩
  have hone : double (wrap 32 l.length) fuel 1 = none := double_none h 30 (k := 0) rfl fuel
  rw [gsort, if_neg (by omega), hone] at hl'
  cases hl'

/-- The array comes out sorted just if its length, as an `int`, is less than 2 to the 30 and what is
behind that many strings is in its place; of an array of less than 2 to the 30 strings this holds. -/
theorem gsort_iff {l : List Str} (hnul : ∀ s ∈ l, 0 ∉ s) :
    Sorts l ↔ wrap 32 l.length < 2 ^ 30 ∧ Settled (wrap 32 l.length) l := by
  obtain ⟨n, hn⟩ : ∃ n, n = wrap 32 l.length := ⟨_, rfl⟩
  rw [← hn]
  have hle : n ≤ l.length := by
    rw [hn, wrap, Int.bmod_def]
    split_ifs <;> omega
  by_cases h1 : n ≤ 1
  · have hresult : ∀ fuel, gsort fuel l = some l := fun fuel => by
      rw [gsort, ← hn]
      exact if_pos h1
    have hsettled : Settled n l ↔ l.Pairwise fun s t => Names.cf s t ≤ 0 := by
      rw [pairwise_iff]
      exact ⟨fun h i j hij hj => h i j hij (by omega) hj, fun h i j hij _ hj => h i j hij hj⟩
    rw [hsettled]
    constructor
    · rintro ⟨fuel, l', hl', -, hsorted⟩
      rw [hresult fuel] at hl'
      exact ⟨by omega, Option.some.inj hl' ▸ hsorted⟩
    · exact fun h => ⟨0, l, hresult 0, .refl l, h.2⟩
  obtain ⟨N, rfl⟩ : ∃ N : ℕ, n = N := ⟨n.toNat, by omega⟩
  have hN : N ≤ l.length := by omega
  have hgsort : ∀ fuel, gsort fuel l = (double N fuel 1).bind fun j =>
      passes N fuel (wrap 32 (wrap 32 (2 * j) - 1)) l := fun fuel => by
    rw [gsort, ← hn]
    exact if_neg h1
  by_cases h30 : (N : ℤ) < 2 ^ 30
  · obtain ⟨e, he, -, hlt, hdouble⟩ := double_some h30 30 (k := 0) rfl
    rw [show 30 + 2 = 32 from rfl, pow_zero] at hdouble
    have hpos : 1 ≤ e := by
      rcases Nat.eq_zero_or_pos e with rfl | hpos
      · omega
      · exact hpos
    constructor
    · rintro ⟨fuel, l', hl', -, hsorted⟩
      rw [hgsort] at hl'
      obtain ⟨j, hj, hl'⟩ := Option.bind_eq_some_iff.mp hl'
      obtain rfl := double_unique fuel hj hdouble
      rw [wrap_twice he] at hl'
      have hlow : (1 : ℤ) ≤ 2 ^ (e + 1) := one_le_pow₀ (by decide)
      have hmoved := moved_passes fuel (by omega) hN hl'
      refine ⟨h30, hmoved.symm.settled (hmoved.1.length_eq ▸ hN) fun i j hij _ hj => ?_⟩
      exact pairwise_iff.mp hsorted i j hij hj
    · rintro ⟨-, hset⟩
      obtain ⟨l', hl', hsorted⟩ := @passes_sorted N e 31 l (by omega) hpos hnul
        (by omega) hN
      have hlow : (1 : ℤ) ≤ 2 ^ (e + 1) := one_le_pow₀ (by decide)
      have hmoved := moved_passes _ (by omega) hN hl'
      refine ⟨32, l', ?_, hmoved.1, pairwise_iff.mpr fun i j hij hj => ?_⟩
      · rw [hgsort, hdouble, Option.bind_some, wrap_twice he, hl']
      · by_cases hj' : j < N
        · have hget : ∀ k, k < N → 0 ∉ l'.getD k [] := fun k hk => by
            have hk' : k < l'.length := hmoved.1.length_eq ▸ hk.trans_le hN
            rw [List.getD_eq_getElem _ _ hk']
            exact hnul _ (hmoved.1.mem_iff.mp (List.getElem_mem hk'))
          exact (cf_nonpos_iff (hget i (by omega)) (hget j hj')).mpr (hsorted i j hij hj')
        · exact hmoved.settled hN hset i j hij (by omega) hj
  · exact iff_of_false (not_sorts (hn ▸ not_lt.mp h30)) fun h => h30 h.1

/-- Every array that `scan` hands over comes out sorted. It asks for `8 * n + 8` bytes for `n` names
and `ENDARGS`, which `getstak` takes as an `int`: of 2 to the 28 less one names, `ENDARGS` is stored
outside of the stack already. -/
theorem gsort_sorts {l : List Str} (hnul : ∀ s ∈ l, 0 ∉ s) (hlen : l.length < 2 ^ 28 - 1) :
    Sorts l := by
  have hwrap : wrap 32 l.length = l.length := by
    rw [wrap, Int.bmod_eq_of_le] <;> omega
  rw [gsort_iff hnul, hwrap]
  refine ⟨by omega, fun i j _ hn hj => ?_⟩
  omega

theorem gsort_sorts_two : Sorts [[98], [97]] := gsort_sorts (by decide) (by decide)

end Unitas.Sh.Sort
