import Mathlib.Data.Finset.Max
import Mathlib.Data.Multiset.Sort
import Mathlib.Algebra.Order.Field.Basic
import Mathlib.Algebra.Order.Field.Rat
import Mathlib.Tactic.Linarith
import Mathlib.Tactic.LinearCombination
import Mathlib.Tactic.Ring
import Unitas.Lib.Huffman

/-! Huffman's construction as the weights alone see it: the two least are replaced by their sum
until one is left. What the sums add up to is a bound for every choice of lengths that Kraft's
inequality allows. -/
namespace Unitas.Huffman

/-- The sums, in the order in which they are made, for weights in order. -/
def joins : ℕ → List ℕ → List ℕ
  | rounds + 1, a :: b :: ws => (a + b) :: joins rounds (ws.orderedInsert (· ≤ ·) (a + b))
  | _, _ => []

theorem length_joins_le (rounds : ℕ) (ws : List ℕ) : (joins rounds ws).length ≤ rounds := by
  induction rounds generalizing ws with
  | zero => simp [joins]
  | succ rounds ih =>
    match ws with
    | [] => simp [joins]
    | [_] => simp [joins]
    | a :: b :: ws =>
      have := ih (ws.orderedInsert (· ≤ ·) (a + b))
      simp only [joins, List.length_cons]
      omega

/-- There is one order for numbers. -/
theorem eq_of_sorted {l l' : List ℕ} (hl : l.Pairwise (· ≤ ·)) (hl' : l'.Pairwise (· ≤ ·))
    (h : l.Perm l') : l = l' :=
  List.Perm.eq_of_pairwise (fun _ _ _ _ hab hba => le_antisymm hab hba) hl hl' h

theorem sort_cons_orderedInsert (x : ℕ) (s : Multiset ℕ) :
    (x ::ₘ s).sort = s.sort.orderedInsert (· ≤ ·) x := by
  apply eq_of_sorted
  · exact Multiset.pairwise_sort _ _
  · exact (Multiset.pairwise_sort s (· ≤ ·)).orderedInsert x _
  · rw [← Multiset.coe_eq_coe, Multiset.sort_eq]
    have hperm := List.perm_orderedInsert (· ≤ ·) x s.sort
    rw [← Multiset.coe_eq_coe, ← Multiset.cons_coe, Multiset.sort_eq] at hperm
    exact hperm.symm

section Weights
variable {first : ℕ} {M : Multiset ℕ} {f f' : Forest} {W W' : ℕ → ℕ}

/-- The weights of the nodes that have been made and the sums that are still to come are `M`. -/
def Greedy (first : ℕ) (M : Multiset ℕ) (f : Forest) (W : ℕ → ℕ) : Prop :=
  (Finset.Ioc first f.last).val.map W +
    (joins (f.live.card - 1) (f.live.map Prod.fst).sort : Multiset ℕ) = M

theorem Built.live_weight {leaves : Finset ℕ} {w parent₀ : ℕ → ℕ} {L D : Finset ℕ}
    (h : Built leaves w parent₀ first f W L D) : ∀ x ∈ f.live, W x.2 = x.1 := by
  intro x hx
  rw [h.live] at hx
  obtain ⟨v, -, rfl⟩ := Multiset.mem_map.mp hx
  rfl

theorem Greedy.start {L : Finset ℕ} (hlive : f.live = L.val.map fun v => (W v, v))
    (hlast : f.last = first) : Greedy first (joins (L.card - 1) (L.val.map W).sort) f W := by
  unfold Greedy
  rw [hlive, hlast, Finset.Ioc_self, Multiset.map_map, Multiset.card_map]
  exact Multiset.zero_add _

/-- When one tree is left, the nodes that have been made have the sums for their weights. -/
theorem Greedy.made {L : Finset ℕ} (h : Greedy first M f W)
    (hlive : f.live = L.val.map fun v => (W v, v)) (hL : L.card = 1) :
    (Finset.Ioc first f.last).val.map W = M := by
  have hcard : f.live.card - 1 = 0 := by
    rw [hlive, Multiset.card_map]
    change L.card - 1 = 0
    omega
  unfold Greedy at h
  rw [hcard] at h
  rw [← h]
  exact (Multiset.add_zero _).symm

theorem joins_merge {a b : ℕ × ℕ} {rest : Multiset (ℕ × ℕ)}
    (ha : ∀ x ∈ b ::ₘ rest, a.1 ≤ x.1) (hb : ∀ x ∈ rest, b.1 ≤ x.1) (n last : ℕ) :
    joins (n + 1) ((a ::ₘ b ::ₘ rest).map Prod.fst).sort = (a.1 + b.1) ::
      joins n (((a.1 + b.1, last) ::ₘ rest).map Prod.fst).sort := by
  have hbsort : (b.1 ::ₘ rest.map Prod.fst).sort = b.1 :: (rest.map Prod.fst).sort := by
    apply Multiset.sort_cons
    intro c hc
    obtain ⟨x, hx, rfl⟩ := Multiset.mem_map.mp hc
    exact hb x hx
  have hasort : (a.1 ::ₘ b.1 ::ₘ rest.map Prod.fst).sort =
      a.1 :: b.1 :: (rest.map Prod.fst).sort := by
    rw [← hbsort]
    apply Multiset.sort_cons
    intro c hc
    rw [← Multiset.map_cons] at hc
    obtain ⟨x, hx, rfl⟩ := Multiset.mem_map.mp hc
    exact ha x hx
  simp only [Multiset.map_cons]
  rw [hasort, sort_cons_orderedInsert]
  rfl

theorem Greedy.merge (h : Greedy first M f W) (hfirst : first ≤ f.last) (hm : Merge f f')
    (hlive : ∀ x ∈ f'.live, W' x.2 = x.1) (hW : ∀ v ≤ f.last, W' v = W v) :
    Greedy first M f' W' := by
  obtain @⟨a, b, rest, last, parent, ha, hb⟩ := hm
  unfold Greedy at h ⊢
  dsimp only at h hfirst hlive hW ⊢
  have hnew : W' (last + 1) = a.1 + b.1 := hlive _ (Multiset.mem_cons_self _ _)
  have hIoc : (Finset.Ioc first (last + 1)).val.map W' =
      (a.1 + b.1) ::ₘ (Finset.Ioc first last).val.map W := by
    have hinsert : Finset.Ioc first (last + 1) = insert (last + 1) (Finset.Ioc first last) := by
      ext v
      simp only [Finset.mem_insert, Finset.mem_Ioc]
      omega
    rw [hinsert, Finset.insert_val_of_notMem (by simp), Multiset.map_cons, hnew]
    congr 1
    apply Multiset.map_congr rfl
    intro v hv
    exact hW v (Finset.mem_Ioc.mp hv).2
  rw [hIoc, ← h]
  simp only [Multiset.card_cons, Nat.add_sub_cancel]
  rw [joins_merge ha hb _ (last + 1), ← Multiset.cons_coe, Multiset.add_cons, Multiset.cons_add]

end Weights

section Lengths

/-- Kraft's sum for weights with the lengths of their codes. -/
def kraft (P : Multiset (ℕ × ℕ)) : ℚ := (P.map fun x => (1 / 2 : ℚ) ^ x.2).sum

def cost (P : Multiset (ℕ × ℕ)) : ℕ := (P.map fun x => x.1 * x.2).sum

@[simp] theorem kraft_cons (x : ℕ × ℕ) (P : Multiset (ℕ × ℕ)) :
    kraft (x ::ₘ P) = (1 / 2) ^ x.2 + kraft P := by simp [kraft]

@[simp] theorem cost_cons (x : ℕ × ℕ) (P : Multiset (ℕ × ℕ)) :
    cost (x ::ₘ P) = x.1 * x.2 + cost P := by simp [cost]

theorem kraft_nonneg (P : Multiset (ℕ × ℕ)) : 0 ≤ kraft P := by
  unfold kraft
  apply Multiset.sum_nonneg
  intro c hc
  obtain ⟨x, -, rfl⟩ := Multiset.mem_map.mp hc
  positivity

/-- Kraft's sum only depends on the lengths. -/
theorem kraft_congr {P Q : Multiset (ℕ × ℕ)} (h : P.map Prod.snd = Q.map Prod.snd) :
    kraft P = kraft Q := by
  have hmap : ∀ R : Multiset (ℕ × ℕ),
      kraft R = ((R.map Prod.snd).map fun l => (1 / 2 : ℚ) ^ l).sum := by
    intro R
    rw [Multiset.map_map]
    rfl
  rw [hmap, hmap, h]

theorem exists_longest {R : Multiset (ℕ × ℕ)} (h : R ≠ 0) : ∃ y ∈ R, ∀ x ∈ R, x.2 ≤ y.2 := by
  obtain ⟨z, hz⟩ := Multiset.exists_mem_of_ne_zero h
  obtain ⟨y, hy, hmax⟩ := R.toFinset.exists_max_image Prod.snd ⟨z, by simpa using hz⟩
  simp only [Multiset.mem_toFinset] at hy hmax
  exact ⟨y, hy, hmax⟩

/-- The least weight may have the greatest length. -/
theorem exchange {a l : ℕ} {R : Multiset (ℕ × ℕ)} (ha : ∀ x ∈ R, a ≤ x.1) :
    ∃ l' R', R'.map Prod.fst = R.map Prod.fst ∧ l' ::ₘ R'.map Prod.snd = l ::ₘ R.map Prod.snd ∧
      (∀ x ∈ R', x.2 ≤ l') ∧ cost ((a, l') ::ₘ R') ≤ cost ((a, l) ::ₘ R) := by
  by_cases hlong : ∀ x ∈ R, x.2 ≤ l
  · exact ⟨l, R, rfl, rfl, hlong, le_rfl⟩
  · push Not at hlong
    obtain ⟨z, hz, hlz⟩ := hlong
    obtain ⟨y, hy, hmax⟩ := exists_longest (R := R) (by rintro rfl; simp at hz)
    have hly : l < y.2 := hlz.trans_le (hmax z hz)
    obtain ⟨S, rfl⟩ := Multiset.exists_cons_of_mem hy
    refine ⟨y.2, (y.1, l) ::ₘ S, by simp, ?_, ?_, ?_⟩
    · simp only [Multiset.map_cons]
      exact Multiset.cons_swap _ _ _
    · intro x hx
      rcases Multiset.mem_cons.mp hx with rfl | hx
      · exact hly.le
      · exact hmax x (Multiset.mem_cons_of_mem hx)
    · have hay := ha y (Multiset.mem_cons_self _ _)
      obtain ⟨c, hc⟩ := Nat.exists_eq_add_of_le hay
      obtain ⟨m, hm⟩ := Nat.exists_eq_add_of_lt hly
      simp only [cost_cons, hc, hm]
      nlinarith [Nat.zero_le (c * m)]

/-- Kraft's sum in units of the least term that may occur. -/
theorem kraft_units {R : Multiset (ℕ × ℕ)} {l : ℕ} (h : ∀ x ∈ R, x.2 ≤ l) :
    ∃ n : ℕ, kraft R = n * (1 / 2) ^ l := by
  induction R using Multiset.induction_on with
  | empty => exact ⟨0, by simp [kraft]⟩
  | cons x R ih =>
    obtain ⟨n, hn⟩ := ih fun y hy => h y (Multiset.mem_cons_of_mem hy)
    obtain ⟨k, hk⟩ := Nat.exists_eq_add_of_le (h x (Multiset.mem_cons_self _ _))
    refine ⟨2 ^ k + n, ?_⟩
    rw [kraft_cons, hn, hk, pow_add]
    push_cast
    have hpow : (2 : ℚ) ^ k * (1 / 2) ^ k = 1 := by
      rw [← mul_pow]
      norm_num
    linear_combination -(1 / 2 : ℚ) ^ x.2 * hpow

/-- Two of the longest codes can be joined to one that is shorter by a bit. -/
theorem contract {a b la lb : ℕ} {R : Multiset (ℕ × ℕ)} (hlab : lb ≤ la)
    (hR : ∀ x ∈ R, x.2 ≤ lb) (hk : kraft ((a, la) ::ₘ (b, lb) ::ₘ R) ≤ 1) :
    ∃ l, kraft ((a + b, l) ::ₘ R) ≤ 1 ∧
      cost ((a + b, l) ::ₘ R) + (a + b) ≤ cost ((a, la) ::ₘ (b, lb) ::ₘ R) := by
  obtain ⟨n, hn⟩ := kraft_units hR
  simp only [kraft_cons] at hk
  have hpos : (0 : ℚ) < (1 / 2) ^ la := by positivity
  have hposb : (0 : ℚ) < (1 / 2) ^ lb := by positivity
  have hnonneg := kraft_nonneg R
  obtain ⟨l, rfl⟩ : ∃ l, lb = l + 1 := by
    cases lb with
    | zero =>
      rw [pow_zero] at hk
      linarith
    | succ l => exact ⟨l, rfl⟩
  refine ⟨l, ?_, ?_⟩
  · -- `n + 1` units are less than the whole, so `n + 2` are not more
    have hunit : (2 : ℚ) ^ (l + 1) * (1 / 2) ^ (l + 1) = 1 := by
      rw [← mul_pow]
      norm_num
    have hlt : n + 1 < 2 ^ (l + 1) := by
      by_contra hge
      have hge' : ((2 ^ (l + 1) : ℕ) : ℚ) ≤ ((n + 1 : ℕ) : ℚ) := by
        exact_mod_cast not_lt.mp hge
      push_cast at hge'
      have := mul_le_mul_of_nonneg_right hge' hposb.le
      rw [hunit] at this
      linarith
    have hle : ((n + 2 : ℕ) : ℚ) ≤ ((2 ^ (l + 1) : ℕ) : ℚ) := by
      exact_mod_cast hlt
    push_cast at hle
    have := mul_le_mul_of_nonneg_right hle hposb.le
    rw [hunit] at this
    rw [kraft_cons, hn]
    have hhalf : (1 / 2 : ℚ) ^ l = 2 * (1 / 2) ^ (l + 1) := by
      rw [pow_succ]
      ring
    dsimp only
    rw [hhalf]
    linarith
  · simp only [cost_cons]
    nlinarith [Nat.mul_le_mul_left a hlab]

/-- A join of the two least weights keeps what the sums of the joins cannot fall below. -/
theorem contract_least {a b : ℕ} {ws : Multiset ℕ} {P : Multiset (ℕ × ℕ)}
    (hP : P.map Prod.fst = a ::ₘ b ::ₘ ws) (ha : ∀ x ∈ b ::ₘ ws, a ≤ x) (hb : ∀ x ∈ ws, b ≤ x)
    (hk : kraft P ≤ 1) :
    ∃ Q : Multiset (ℕ × ℕ), Q.map Prod.fst = (a + b) ::ₘ ws ∧ kraft Q ≤ 1 ∧
      cost Q + (a + b) ≤ cost P := by
  obtain ⟨x, hx, hxa, hrest⟩ := (Multiset.map_eq_cons _ _ _ _).mpr hP
  obtain ⟨R, rfl⟩ := Multiset.exists_cons_of_mem hx
  rw [Multiset.erase_cons_head] at hrest
  obtain ⟨la, R', hfst, hsnd, hlong, hcost⟩ := exchange (a := a) (l := x.2) (R := R) (by
    intro y hy
    apply ha
    rw [← hrest]
    exact Multiset.mem_map_of_mem _ hy)
  have hx' : (a, x.2) = x := by rw [← hxa]
  rw [hx'] at hcost
  rw [hrest] at hfst
  obtain ⟨y, hy, hyb, hrest'⟩ := (Multiset.map_eq_cons _ _ _ _).mpr hfst
  obtain ⟨S, rfl⟩ := Multiset.exists_cons_of_mem hy
  rw [Multiset.erase_cons_head] at hrest'
  obtain ⟨lb, S', hfst', hsnd', hlong', hcost'⟩ := exchange (a := b) (l := y.2) (R := S) (by
    intro z hz
    apply hb
    rw [← hrest']
    exact Multiset.mem_map_of_mem _ hz)
  have hy' : (b, y.2) = y := by rw [← hyb]
  rw [hy'] at hcost'
  have hlab : lb ≤ la := by
    have hmem : lb ∈ y.2 ::ₘ S.map Prod.snd := by
      rw [← hsnd']
      exact Multiset.mem_cons_self _ _
    rw [← Multiset.map_cons] at hmem
    obtain ⟨z, hz, rfl⟩ := Multiset.mem_map.mp hmem
    exact hlong z hz
  have hkraft : kraft ((a, la) ::ₘ (b, lb) ::ₘ S') = kraft (x ::ₘ R) := by
    apply kraft_congr
    simp only [Multiset.map_cons] at hsnd ⊢
    rw [hsnd', hsnd]
  obtain ⟨l, hk', hle⟩ := contract hlab hlong' (by rw [hkraft]; exact hk)
  refine ⟨_, ?_, hk', ?_⟩
  · rw [Multiset.map_cons, hfst', hrest']
  · simp only [cost_cons] at hcost hcost' hle ⊢
    omega

/-- No lengths that Kraft's inequality allows cost less than the sums of the joins. -/
theorem sum_joins_le (rounds : ℕ) {ws : List ℕ} (hws : ws.Pairwise (· ≤ ·))
    {P : Multiset (ℕ × ℕ)} (hP : P.map Prod.fst = ws) (hk : kraft P ≤ 1) :
    (joins rounds ws).sum ≤ cost P := by
  induction rounds generalizing ws P with
  | zero => simp [joins]
  | succ rounds ih =>
    match ws with
    | [] => simp [joins]
    | [_] => simp [joins]
    | a :: b :: ws =>
      obtain ⟨ha, hbws⟩ := List.pairwise_cons.mp hws
      obtain ⟨hb, hws'⟩ := List.pairwise_cons.mp hbws
      obtain ⟨Q, hQ, hkQ, hcost⟩ := @contract_least a b ws P hP ha hb hk
      have hQ' : Q.map Prod.fst = (ws.orderedInsert (· ≤ ·) (a + b) : List ℕ) := by
        rw [hQ, Multiset.cons_coe, Multiset.coe_eq_coe]
        exact (List.perm_orderedInsert _ _ _).symm
      have hle := ih (hws'.orderedInsert (a + b) _) hQ' hkQ
      simp only [joins, List.sum_cons]
      omega

end Lengths

end Unitas.Huffman
