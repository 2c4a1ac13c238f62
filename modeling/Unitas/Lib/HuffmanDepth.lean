import Mathlib.Algebra.Ring.Parity
import Mathlib.Data.Nat.Fib.Basic
import Unitas.Lib.HuffmanCode

/-! The depth of the one leaf of odd weight in a Huffman tree: it is the number of joins with an
odd sum, and the weights on the way up grow like Fibonacci's numbers. -/
namespace Unitas.Huffman

variable {leaves inner : Finset ℕ} {root : ℕ} {parent W d : ℕ → ℕ}

theorem Tree.weight_root (h : Tree leaves inner root parent W) : W root = ∑ v ∈ leaves, W v := by
  have hsum := h.sum_children (F := W) (G := W) (by
    intro p _ a _ b _ _ _ _ _ hW
    exact hW.symm)
  have hroot := h.sum_erase_root W
  omega

/-- The weights of all leaves but `e` are even. -/
structure OddLeaf (leaves : Finset ℕ) (W : ℕ → ℕ) (e : ℕ) : Prop where
  mem : e ∈ leaves
  odd : Odd (W e)
  even : ∀ v ∈ leaves, v ≠ e → Even (W v)

section OddLeaf
variable {e : ℕ}

theorem Tree.up_mem (h : Tree leaves inner root parent W)
    (hd : Depth (leaves ∪ inner) root parent d) (he : e ∈ leaves) :
    ∀ i ≤ d e, parent^[i] e ∈ leaves ∪ inner ∧ d (parent^[i] e) + i = d e := by
  intro i
  induction i with
  | zero => exact fun _ => ⟨Finset.mem_union_left _ he, rfl⟩
  | succ i ih =>
    intro hi
    obtain ⟨hmem, hdep⟩ := ih (by omega)
    have hr : parent^[i] e ≠ root := by
      intro hr
      rw [hr, hd.zero] at hdep
      omega
    rw [Function.iterate_succ_apply']
    have := hd.succ _ hmem hr
    exact ⟨Finset.mem_union_right _ (h.parent_mem _ hmem hr), by omega⟩

/-- A node of odd weight is on the way from `e` to the root. -/
theorem Tree.up_of_odd (h : Tree leaves inner root parent W)
    (hd : Depth (leaves ∪ inner) root parent d) (he : OddLeaf leaves W e) :
    ∀ v ∈ leaves ∪ inner, Odd (W v) → ∃ i ≤ d e, parent^[i] e = v := by
  intro v
  induction v using Nat.strongRecOn with
  | _ v ih =>
    intro hv hodd
    by_cases hve : v = e
    · exact ⟨0, Nat.zero_le _, hve.symm⟩
    · have hi : v ∈ inner := by
        rcases Finset.mem_union.mp hv with hl | hi
        · exact absurd hodd (Nat.not_odd_iff_even.mpr (he.even v hl hve))
        · exact hi
      obtain ⟨a, b, _, hW, hch⟩ := h.children v hi
      obtain ⟨c, hc, hcodd⟩ : ∃ c, (c = a ∨ c = b) ∧ Odd (W c) := by
        rw [hW, Nat.odd_add] at hodd
        by_cases ha : Odd (W a)
        · exact ⟨a, .inl rfl, ha⟩
        · exact ⟨b, .inr rfl, by
            rw [← Nat.not_even_iff_odd]
            exact fun hb => ha (hodd.mpr hb)⟩
      obtain ⟨hcmem, hcr, hcp⟩ := (hch c).mpr hc
      have hlt : c < v := hcp ▸ h.parent_gt c hcmem hcr
      obtain ⟨i, hi', hic⟩ := ih c hlt hcmem hcodd
      have hup := (h.up_mem hd he.mem i hi').2
      have hdc := hd.succ c hcmem hcr
      rw [hic] at hup
      refine ⟨i + 1, by omega, ?_⟩
      rw [Function.iterate_succ_apply', hic, hcp]

/-- Two nodes of odd weight on one level are the same. -/
theorem Tree.eq_of_odd (h : Tree leaves inner root parent W)
    (hd : Depth (leaves ∪ inner) root parent d) (he : OddLeaf leaves W e) {u v : ℕ}
    (hu : u ∈ leaves ∪ inner) (hv : v ∈ leaves ∪ inner) (huo : Odd (W u)) (hvo : Odd (W v))
    (huv : d u = d v) : u = v := by
  obtain ⟨i, hi, rfl⟩ := h.up_of_odd hd he u hu huo
  obtain ⟨j, hj, rfl⟩ := h.up_of_odd hd he v hv hvo
  have h1 := (h.up_mem hd he.mem i hi).2
  have h2 := (h.up_mem hd he.mem j hj).2
  rw [show i = j by omega]

/-- A step on the way up: what is added is even. -/
theorem Tree.up_step (h : Tree leaves inner root parent W)
    (hd : Depth (leaves ∪ inner) root parent d) (he : OddLeaf leaves W e) {i : ℕ} (hi : i < d e)
    (hodd : Odd (W (parent^[i] e))) :
    ∃ u ∈ leaves ∪ inner, u ≠ root ∧ parent u = parent^[i + 1] e ∧ Even (W u) ∧
      W (parent^[i + 1] e) = W (parent^[i] e) + W u := by
  obtain ⟨hmem, hdep⟩ := h.up_mem hd he.mem i hi.le
  have hr : parent^[i] e ≠ root := by
    intro hr
    rw [hr, hd.zero] at hdep
    omega
  obtain ⟨u, hu, hur, huv, hup, hW⟩ := h.sibling hmem hr
  rw [Function.iterate_succ_apply']
  refine ⟨u, hu, hur, hup, ?_, hW⟩
  by_contra hne
  apply huv
  apply h.eq_of_odd hd he hu hmem (Nat.not_even_iff_odd.mp hne) hodd
  rw [hd.succ u hu hur, hd.succ _ hmem hr, hup]

theorem Tree.odd_up (h : Tree leaves inner root parent W)
    (hd : Depth (leaves ∪ inner) root parent d) (he : OddLeaf leaves W e) :
    ∀ i ≤ d e, Odd (W (parent^[i] e)) := by
  intro i
  induction i with
  | zero => exact fun _ => he.odd
  | succ i ih =>
    intro hi
    obtain ⟨u, _, _, _, heven, hW⟩ := h.up_step hd he hi (ih (by omega))
    rw [hW]
    exact (ih (by omega)).add_even heven

/-- The depth of `e` as the number of inner nodes of odd weight. -/
theorem Tree.depth_eq_odd (h : Tree leaves inner root parent W)
    (hd : Depth (leaves ∪ inner) root parent d) (he : OddLeaf leaves W e) :
    d e = {p ∈ inner | Odd (W p)}.card := by
  rw [← Finset.card_range (d e)]
  apply Finset.card_bij fun i _ => parent^[i + 1] e
  · intro i hi
    rw [Finset.mem_range] at hi
    rw [Finset.mem_filter]
    constructor
    · obtain ⟨u, hu, hur, hup, -⟩ := h.up_step hd he hi (h.odd_up hd he i hi.le)
      rw [← hup]
      exact h.parent_mem u hu hur
    · exact h.odd_up hd he (i + 1) hi
  · intro i hi j hj hij
    rw [Finset.mem_range] at hi hj
    have h1 := (h.up_mem hd he.mem (i + 1) hi).2
    have h2 := (h.up_mem hd he.mem (j + 1) hj).2
    rw [hij] at h1
    omega
  · intro p hp
    rw [Finset.mem_filter] at hp
    obtain ⟨i, hi, hip⟩ := h.up_of_odd hd he p (Finset.mem_union_right _ hp.1) hp.2
    cases i with
    | zero =>
      rw [Function.iterate_zero, id_eq] at hip
      exact absurd (hip ▸ hp.1) (Finset.disjoint_left.mp h.disjoint he.mem)
    | succ i => exact ⟨i, Finset.mem_range.mpr hi, hip⟩

/-- On the way up from a leaf of weight 1 the weights grow like Fibonacci's numbers. -/
theorem Tree.fib_le (h : Tree leaves inner root parent W)
    (hd : Depth (leaves ∪ inner) root parent d) (he : OddLeaf leaves W e) :
    ∀ i ≤ d e, 2 * Nat.fib (i + 2) ≤ W (parent^[i] e) + 1 := by
  intro i
  induction i using Nat.twoStepInduction with
  | zero =>
    intro _
    have hpos := h.weight_pos e (Finset.mem_union_left _ he.mem)
    have hfib : Nat.fib (0 + 2) = 1 := rfl
    rw [hfib, Function.iterate_zero, id_eq]
    omega
  | one =>
    intro hi
    obtain ⟨u, hu, _, _, heven, hW⟩ := h.up_step hd he hi (h.odd_up hd he 0 (by omega))
    have hpos := h.weight_pos e (Finset.mem_union_left _ he.mem)
    have hupos := h.weight_pos u hu
    obtain ⟨k, hk⟩ := heven
    have hfib : Nat.fib (1 + 2) = 2 := rfl
    rw [Function.iterate_zero, id_eq] at hW
    rw [hfib, hW]
    omega
  | more i ih ih1 =>
    intro hi
    have hodd := h.odd_up hd he i (by omega)
    obtain ⟨u, hu, hur, hup, heven, hW⟩ := h.up_step hd he hi (h.odd_up hd he (i + 1) (by omega))
    -- the sibling is made later than the children of the node, so it is no lighter than they are
    have hle : W (parent^[i] e) ≤ W u := by
      obtain ⟨hmem, hdep⟩ := h.up_mem hd he.mem i (by omega)
      obtain ⟨hmem1, hdep1⟩ := h.up_mem hd he.mem (i + 1) (by omega)
      have hr : parent^[i] e ≠ root := by
        intro hr
        rw [hr, hd.zero] at hdep
        omega
      have hr1 : parent^[i + 1] e ≠ root := by
        intro hr1
        rw [hr1, hd.zero] at hdep1
        omega
      have hgt := h.parent_gt _ hmem1 hr1
      rw [← Function.iterate_succ_apply' parent (i + 1)] at hgt
      apply h.sorted _ hmem _ hu hr hur
      rw [hup, ← Function.iterate_succ_apply' parent i]
      exact hgt
    obtain ⟨a, ha⟩ := hodd
    obtain ⟨b, hb⟩ := heven
    have h0 := ih (by omega)
    have h1 := ih1 (by omega)
    have hfib : Nat.fib (i + 2 + 2) = Nat.fib (i + 2) + Nat.fib (i + 1 + 2) := Nat.fib_add_two
    have hWW : W (parent^[i + 2] e) = W (parent^[i + 1] e) + W u := hW
    rw [hWW, hfib]
    omega

theorem Tree.fib_le_root (h : Tree leaves inner root parent W)
    (hd : Depth (leaves ∪ inner) root parent d) (he : OddLeaf leaves W e) {n : ℕ} (hn : n ≤ d e) :
    2 * Nat.fib (n + 2) ≤ ∑ v ∈ leaves, W v + 1 := by
  have hle := h.weight_le_root hd _ (h.up_mem hd he.mem n hn).1
  rw [h.weight_root] at hle
  exact (h.fib_le hd he n hn).trans (by omega)

end OddLeaf

end Unitas.Huffman
