import Mathlib.Data.Multiset.Basic
import Mathlib.Data.Multiset.MapFold
import Mathlib.Algebra.Order.Interval.Finset.SuccPred
import Mathlib.Order.Interval.Finset.Nat
import Mathlib.Logic.Equiv.Basic
import Mathlib.Order.Lattice

/-! Binary heaps in an array indexed from 1: the order that sifting down restores, and the
elements it leaves in place. -/
namespace Unitas.Heap
open Function

variable {α K : Type*} [LinearOrder K]

/-- Every parent from `lo` on comes before its children among the first `n` elements. -/
def Ordered (key : ℕ → K) (lo n : ℕ) : Prop :=
  ∀ j, lo ≤ j / 2 → j ≤ n → key (j / 2) ≤ key j

/-- As `Ordered`, but nothing is known of element `i` except that the parent of `i` comes
before the children of `i`. -/
def OrderedExcept (key : ℕ → K) (lo n i : ℕ) : Prop :=
  ∀ j, lo ≤ j / 2 → j ≤ n →
    (j ≠ i → j / 2 ≠ i → key (j / 2) ≤ key j) ∧
    (j / 2 = i → lo ≤ i / 2 → key (i / 2) ≤ key j)

/-- As `OrderedExcept`, with element `i` not before its parent. -/
structure Hole (key : ℕ → K) (lo n i : ℕ) : Prop where
  except : OrderedExcept key lo n i
  above : lo ≤ i / 2 → key (i / 2) ≤ key i

theorem Ordered.root_le {key : ℕ → K} {n : ℕ} (h : Ordered key 1 n) :
    ∀ i, 1 ≤ i → i ≤ n → key 1 ≤ key i := by
  intro i
  induction i using Nat.strongRecOn with
  | _ i ih =>
    intro h1 hn
    by_cases hi : i = 1
    · rw [hi]
    · have hp : key 1 ≤ key (i / 2) := ih (i / 2) (by omega) (by omega) (by omega)
      exact le_trans hp (h i (by omega) hn)

theorem Ordered.of_lt {key : ℕ → K} {lo n : ℕ} (h : n < 2 * lo) : Ordered key lo n := by
  intro j hj hn
  omega

theorem Ordered.congr {key key' : ℕ → K} {lo n : ℕ} (h : Ordered key lo n)
    (heq : ∀ j, lo ≤ j → j ≤ n → key' j = key j) : Ordered key' lo n := by
  intro j hj hn
  rw [heq (j / 2) hj (by omega), heq j (by omega) hn]
  exact h j hj hn

/-- Element `i` may be anything if only the order below it is asked for. -/
theorem Hole.of_ordered {key : ℕ → K} {i n : ℕ} (hi : 1 ≤ i) (h : Ordered key (i + 1) n) :
    Hole key i n i := by
  constructor
  · intro j hj hn
    constructor
    · intro _ hne
      exact h j (by omega) hn
    · intro _ hlo
      omega
  · intro hlo
    omega

theorem Hole.ordered {key : ℕ → K} {lo n i : ℕ} (h : Hole key lo n i)
    (hstop : ∀ j, j / 2 = i → j ≤ n → key i ≤ key j) : Ordered key lo n := by
  intro j hj hn
  by_cases hji : j = i
  · rw [hji]
    exact h.above (by omega)
  · by_cases hp : j / 2 = i
    · rw [hp]
      exact hstop j hp hn
    · exact (h.except j hj hn).1 hji hp

/-- Exchanging element `i` with the first of its children moves the hole down. -/
theorem Hole.swap {key : ℕ → K} {lo n i k : ℕ} (h : Hole key lo n i) (hlo : lo ≤ i)
    (hi : 1 ≤ i) (hk : k / 2 = i) (hkn : k ≤ n) (hki : key k ≤ key i)
    (hmin : ∀ j, j / 2 = i → j ≤ n → key k ≤ key j) :
    Hole (key ∘ Equiv.swap i k) lo n k := by
  have hne : i ≠ k := by omega
  have hsi : (key ∘ Equiv.swap i k) i = key k := by simp
  have hsk : (key ∘ Equiv.swap i k) k = key i := by simp
  have hso : ∀ j, j ≠ i → j ≠ k → (key ∘ Equiv.swap i k) j = key j := by
    intro j h1 h2
    simp [Equiv.swap_apply_of_ne_of_ne h1 h2]
  constructor
  · intro j hj hn
    constructor
    · intro hjk hp
      by_cases hji : j = i
      · subst hji
        rw [hsi, hso (j / 2) (by omega) (by omega)]
        exact (h.except k (by omega) hkn).2 hk hj
      · rw [hso j hji hjk]
        by_cases hpi : j / 2 = i
        · rw [hpi, hsi]
          exact hmin j hpi hn
        · rw [hso (j / 2) hpi hp]
          exact (h.except j hj hn).1 hji hpi
    · intro hp _
      rw [hk, hsi, hso j (by omega) (by omega)]
      have := (h.except j hj hn).1 (by omega) (by omega)
      rwa [hp] at this
  · intro _
    rw [hk, hsi, hsk]
    exact hki

/-- The first `n` elements, in no order. -/
def contents (h : ℕ → α) (n : ℕ) : Multiset α := (Finset.Icc 1 n).val.map h

@[simp] theorem contents_zero (h : ℕ → α) : contents h 0 = 0 := by simp [contents]

theorem contents_succ (h : ℕ → α) (n : ℕ) : contents h (n + 1) = h (n + 1) ::ₘ contents h n := by
  have hIcc : Finset.Icc 1 (n + 1) = Finset.cons (n + 1) (Finset.Icc 1 n) (by simp) := by
    ext i
    simp only [Finset.mem_Icc, Finset.mem_cons]
    omega
  simp [contents, hIcc]

theorem contents_congr {h h' : ℕ → α} {n : ℕ} (heq : ∀ i, 1 ≤ i → i ≤ n → h' i = h i) :
    contents h' n = contents h n := by
  apply Multiset.map_congr rfl
  intro i hi
  have hi' : i ∈ Finset.Icc 1 n := hi
  rw [Finset.mem_Icc] at hi'
  exact heq i hi'.1 hi'.2

theorem mem_contents {h : ℕ → α} {n i : ℕ} (h1 : 1 ≤ i) (hn : i ≤ n) : h i ∈ contents h n := by
  apply Multiset.mem_map_of_mem
  exact Finset.mem_Icc.mpr ⟨h1, hn⟩

theorem exists_of_mem_contents {h : ℕ → α} {n : ℕ} {x : α} (hx : x ∈ contents h n) :
    ∃ i, 1 ≤ i ∧ i ≤ n ∧ h i = x := by
  obtain ⟨i, hi, rfl⟩ := Multiset.mem_map.mp hx
  have hi' : i ∈ Finset.Icc 1 n := hi
  rw [Finset.mem_Icc] at hi'
  exact ⟨i, hi'.1, hi'.2, rfl⟩

theorem contents_swap (h : ℕ → α) {n i k : ℕ} (hi : 1 ≤ i) (hin : i ≤ n) (hk : 1 ≤ k)
    (hkn : k ≤ n) : contents (h ∘ Equiv.swap i k) n = contents h n := by
  have hmap : (Finset.Icc 1 n).map (Equiv.swap i k).toEmbedding = Finset.Icc 1 n := by
    ext j
    rw [Finset.mem_map_equiv, Equiv.symm_swap]
    by_cases hji : j = i
    · simp [hji, hi, hin, hk, hkn]
    · by_cases hjk : j = k
      · simp [hjk, hi, hin, hk, hkn]
      · rw [Equiv.swap_apply_of_ne_of_ne hji hjk]
  calc contents (h ∘ Equiv.swap i k) n
      = ((Finset.Icc 1 n).map (Equiv.swap i k).toEmbedding).val.map h := by
        simp [contents, Finset.map_val]
    _ = contents h n := by rw [hmap, contents]

/-- An element in the hole, as an exchange of the hole with the child that moved up. -/
theorem update_update_swap (h : ℕ → α) (i k : ℕ) (x : α) (hne : i ≠ k) :
    update (update h i (h k)) k x = update h i x ∘ Equiv.swap i k := by
  funext j
  by_cases hji : j = i
  · subst hji
    simp [hne, Ne.symm hne]
  · by_cases hjk : j = k
    · subst hjk
      simp
    · simp [hji, hjk, Equiv.swap_apply_of_ne_of_ne hji hjk]

/-- Replacing the root by the last element and shrinking the array takes the root out. -/
theorem contents_pop (h : ℕ → α) (n : ℕ) :
    h 1 ::ₘ contents (update h 1 (h (n + 1))) n = contents h (n + 1) := by
  cases n with
  | zero => simp [contents_succ]
  | succ n =>
    have hswap := contents_swap h (n := n + 2) (i := 1) (k := n + 2) (by omega) (by omega)
      (by omega) (by omega)
    rw [← hswap, contents_succ (h ∘ Equiv.swap 1 (n + 2)) (n + 1)]
    congr 1
    · simp
    · apply contents_congr
      intro i h1 hn
      by_cases hi : i = 1
      · simp [hi]
      · simp [hi, Equiv.swap_apply_of_ne_of_ne hi (show i ≠ n + 2 by omega)]

/-- Replacing the root exchanges one element. -/
theorem contents_replace_root (h : ℕ → α) (n : ℕ) (x : α) :
    h 1 ::ₘ contents (update h 1 x) (n + 1) = x ::ₘ contents h (n + 1) := by
  induction n with
  | zero =>
    simp only [contents_succ, contents_zero, Nat.zero_add, update_self]
    exact Multiset.cons_swap _ _ _
  | succ n ih =>
    rw [contents_succ h, contents_succ (update h 1 x), update_of_ne (by omega),
      Multiset.cons_swap, ih, Multiset.cons_swap]

end Unitas.Heap
