import Mathlib.Data.List.DropRight
import Mathlib.Tactic.Linarith
import Mathlib.Tactic.LinearCombination
import Mathlib.Tactic.Ring

/-! Lists of digits in base `b`, the least significant first, and loops over digits that hand on
a carry. Digits are integers: a negative one may stand at the top. -/
namespace Unitas.Radix

section Value

variable (b : ℤ)

def value (ds : List ℤ) : ℤ := ds.foldr (fun d v => d + b * v) 0

@[simp] theorem value_nil : value b [] = 0 := rfl

@[simp] theorem value_cons (d : ℤ) (ds : List ℤ) : value b (d :: ds) = d + b * value b ds := rfl

theorem value_append (ds es : List ℤ) :
    value b (ds ++ es) = value b ds + b ^ ds.length * value b es := by
  induction ds with
  | nil => simp
  | cons d ds ih =>
    rw [List.cons_append, value_cons, value_cons, ih, List.length_cons]
    ring

theorem value_concat (ds : List ℤ) (d : ℤ) :
    value b (ds ++ [d]) = value b ds + b ^ ds.length * d := by
  simp [value_append]

theorem value_map_neg (ds : List ℤ) : value b (ds.map (- ·)) = -value b ds := by
  induction ds with
  | nil => rfl
  | cons d ds ih =>
    rw [List.map_cons, value_cons, value_cons, ih]
    ring

theorem value_map_mul (k : ℤ) (ds : List ℤ) : value b (ds.map (· * k)) = value b ds * k := by
  induction ds with
  | nil => simp
  | cons d ds ih =>
    rw [List.map_cons, value_cons, value_cons, ih]
    ring

theorem value_replicate_zero (n : ℕ) : value b (List.replicate n 0) = 0 := by
  induction n with
  | zero => rfl
  | succ n ih => rw [List.replicate_succ, value_cons, ih, mul_zero, add_zero]

/-- Zeros at the top do not count. -/
theorem value_rdropWhile (ds : List ℤ) : value b (ds.rdropWhile (· = 0)) = value b ds := by
  induction ds using List.reverseRecOn with
  | nil => rfl
  | append_singleton ds d ih =>
    by_cases hd : d = 0
    · subst hd
      rw [List.rdropWhile_concat_pos _ _ _ (by simp), ih, value_concat, mul_zero, add_zero]
    · rw [List.rdropWhile_concat_neg _ _ _ (by simpa using hd)]

/-- The digits of a number that is not negative. -/
def Digits (ds : List ℤ) : Prop := ∀ d ∈ ds, 0 ≤ d ∧ d < b

variable {b}

theorem Digits.nil : Digits b [] := by simp [Digits]

theorem Digits.append {ds es : List ℤ} (hds : Digits b ds) (hes : Digits b es) :
    Digits b (ds ++ es) := fun d hd => (List.mem_append.mp hd).elim (hds d) (hes d)

theorem Digits.of_append_left {ds es : List ℤ} (h : Digits b (ds ++ es)) : Digits b ds :=
  fun d hd => h d (List.mem_append_left es hd)

theorem Digits.singleton {d : ℤ} (h0 : 0 ≤ d) (hb : d < b) : Digits b [d] := by
  intro e he
  rw [List.mem_singleton.mp he]
  exact ⟨h0, hb⟩

theorem Digits.value_nonneg {ds : List ℤ} (h : Digits b ds) : 0 ≤ value b ds := by
  induction ds with
  | nil => exact le_rfl
  | cons d ds ih =>
    obtain ⟨hd, hds⟩ := List.forall_mem_cons.mp h
    have hb : 0 ≤ b := hd.1.trans hd.2.le
    exact add_nonneg hd.1 (mul_nonneg hb (ih hds))

theorem Digits.value_lt {ds : List ℤ} (h : Digits b ds) : value b ds < b ^ ds.length := by
  induction ds with
  | nil => simp
  | cons d ds ih =>
    obtain ⟨hd, hds⟩ := List.forall_mem_cons.mp h
    have hb : 0 < b := hd.1.trans_lt hd.2
    have hle : b * (value b ds + 1) ≤ b * b ^ ds.length :=
      mul_le_mul_of_nonneg_left (ih hds) hb.le
    rw [value_cons, List.length_cons, pow_succ']
    linarith [hd.2]

end Value

/-! ### Carries -/

section Carry

variable {α : Type*} (f : α → ℤ → ℤ × ℤ)

/-- The loop that makes a digit and the next carry of each item and the carry so far. -/
def carryMap : ℤ → List α → List ℤ × ℤ
  | c, [] => ([], c)
  | c, a :: l => ((f a c).1 :: (carryMap (f a c).2 l).1, (carryMap (f a c).2 l).2)

@[simp] theorem length_carryMap (c : ℤ) (l : List α) : (carryMap f c l).1.length = l.length := by
  induction l generalizing c with
  | nil => rfl
  | cons a l ih => simp [carryMap, ih]

theorem carryMap_append (c : ℤ) (l l' : List α) :
    carryMap f c (l ++ l') = ((carryMap f c l).1 ++ (carryMap f (carryMap f c l).2 l').1,
      (carryMap f (carryMap f c l).2 l').2) := by
  induction l generalizing c with
  | nil => rfl
  | cons a l ih => simp [carryMap, ih]

variable {f} {b σ : ℤ} {g : α → ℤ} {C D : ℤ → Prop} {l : List α}

/-- `C` holds of the carries and `D` of the digits; `σ` is the sign with which a carry counts. -/
theorem carryMap_spec (h : ∀ a ∈ l, ∀ c, C c →
      D (f a c).1 ∧ C (f a c).2 ∧ (f a c).1 + σ * (b * (f a c).2) = g a + σ * c)
    {c : ℤ} (hc : C c) :
    (∀ d ∈ (carryMap f c l).1, D d) ∧ C (carryMap f c l).2 ∧
      value b (carryMap f c l).1 + σ * (b ^ l.length * (carryMap f c l).2) =
        value b (l.map g) + σ * c := by
  induction l generalizing c with
  | nil => simp [carryMap, hc]
  | cons a l ih =>
    obtain ⟨hhead, htail⟩ := List.forall_mem_cons.mp h
    obtain ⟨hd, hc', hstep⟩ := hhead c hc
    obtain ⟨hds, hlast, hval⟩ := ih htail hc'
    unfold carryMap
    dsimp only
    constructor
    · exact List.forall_mem_cons.mpr ⟨hd, hds⟩
    · constructor
      · exact hlast
      · rw [List.map_cons, value_cons, value_cons, List.length_cons]
        linear_combination hstep + b * hval

end Carry

/-- Two numbers digit by digit, with zeros above the shorter. -/
def columns : ℕ → List ℤ → List ℤ → List (ℤ × ℤ)
  | 0, _, _ => []
  | n + 1, xs, ys => (xs.headD 0, ys.headD 0) :: columns n xs.tail ys.tail

@[simp] theorem length_columns (n : ℕ) (xs ys : List ℤ) : (columns n xs ys).length = n := by
  induction n generalizing xs ys with
  | zero => rfl
  | succ n ih => simp [columns, ih]

theorem columns_add (n k : ℕ) (xs ys xs' ys' : List ℤ) (hx : xs.length = n) (hy : ys.length = n) :
    columns (n + k) (xs ++ xs') (ys ++ ys') = xs.zip ys ++ columns k xs' ys' := by
  induction n generalizing xs ys with
  | zero =>
    rw [List.eq_nil_of_length_eq_zero hx, List.eq_nil_of_length_eq_zero hy, Nat.zero_add]
    rfl
  | succ n ih =>
    obtain ⟨x, xs, rfl⟩ := List.exists_cons_of_length_eq_add_one hx
    obtain ⟨y, ys, rfl⟩ := List.exists_cons_of_length_eq_add_one hy
    rw [Nat.succ_add]
    simp [columns, ih xs ys (by simpa using hx) (by simpa using hy)]

theorem value_columns_mul {b : ℤ} (n : ℕ) (xs ys : List ℤ) (k : ℤ) (hx : xs.length ≤ n)
    (hy : ys.length ≤ n) :
    value b ((columns n xs ys).map fun c => c.1 * k + c.2) = k * value b xs + value b ys := by
  have hhead (zs : List ℤ) : value b zs = zs.headD 0 + b * value b zs.tail := by
    cases zs <;> simp
  induction n generalizing xs ys with
  | zero =>
    rw [List.eq_nil_of_length_eq_zero (Nat.le_zero.mp hx),
      List.eq_nil_of_length_eq_zero (Nat.le_zero.mp hy)]
    simp [columns]
  | succ n ih =>
    unfold columns
    rw [List.map_cons, value_cons, ih, hhead xs, hhead ys]
    · ring
    · rw [List.length_tail]
      omega
    · rw [List.length_tail]
      omega

theorem value_columns (b : ℤ) (n : ℕ) (xs ys : List ℤ) (hx : xs.length ≤ n)
    (hy : ys.length ≤ n) :
    value b ((columns n xs ys).map fun c => c.1 + c.2) = value b xs + value b ys := by
  have h := value_columns_mul (b := b) n xs ys 1 hx hy
  simpa only [mul_one, one_mul] using h

theorem mem_columns {n : ℕ} {xs ys : List ℤ} {c : ℤ × ℤ} (h : c ∈ columns n xs ys) :
    (c.1 = 0 ∨ c.1 ∈ xs) ∧ (c.2 = 0 ∨ c.2 ∈ ys) := by
  have hhead (zs : List ℤ) : zs.headD 0 = 0 ∨ zs.headD 0 ∈ zs := by cases zs <;> simp
  induction n generalizing xs ys with
  | zero => simp [columns] at h
  | succ n ih =>
    rcases List.mem_cons.mp h with rfl | h
    · exact ⟨hhead xs, hhead ys⟩
    · obtain ⟨hx, hy⟩ := ih h
      exact ⟨hx.imp_right List.mem_of_mem_tail, hy.imp_right List.mem_of_mem_tail⟩

theorem value_zip_sub (b : ℤ) (xs ys : List ℤ) (h : xs.length = ys.length) :
    value b ((xs.zip ys).map fun c => c.1 - c.2) = value b xs - value b ys := by
  induction xs generalizing ys with
  | nil => simp [List.eq_nil_of_length_eq_zero h.symm]
  | cons x xs ih =>
    cases ys with
    | nil => simp at h
    | cons y ys =>
      rw [List.zip_cons_cons, List.map_cons, value_cons, value_cons, value_cons,
        ih ys (by simpa using h)]
      ring

end Unitas.Radix
