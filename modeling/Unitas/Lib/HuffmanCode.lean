import Mathlib.InformationTheory.Coding.KraftMcMillan
import Mathlib.Data.List.Infix
import Unitas.Lib.Greedy

/-! Codes in which no word begins another one. -/
namespace Unitas.PrefixCode
open InformationTheory

variable {α : Type} {symbols : Finset α} {code : α → List Bool}

def PrefixFree (symbols : Finset α) (code : α → List Bool) : Prop :=
  ∀ x ∈ symbols, ∀ y ∈ symbols, code x <+: code y → x = y

theorem PrefixFree.ne_nil (h : PrefixFree symbols code) (h2 : 2 ≤ symbols.card) :
    ∀ x ∈ symbols, code x ≠ [] := by
  intro x hx hnil
  obtain ⟨y, hy, hne⟩ := Finset.exists_mem_ne (show 1 < symbols.card by omega) x
  apply hne
  refine (h x hx y hy ?_).symm
  rw [hnil]
  exact List.nil_prefix

/-- A text is read in one way only. -/
theorem PrefixFree.uniquelyDecodable (h : PrefixFree symbols code)
    (hne : ∀ x ∈ symbols, code x ≠ []) : UniquelyDecodable (code '' (symbols : Set α)) := by
  have hnil : ∀ w, w ∈ code '' (symbols : Set α) → w ≠ [] := by
    rintro w ⟨x, hx, rfl⟩
    exact hne x hx
  have hsame : ∀ v w, v ∈ code '' (symbols : Set α) → w ∈ code '' (symbols : Set α) →
      v <+: w → v = w := by
    rintro v w ⟨x, hx, rfl⟩ ⟨y, hy, rfl⟩ hvw
    rw [h x hx y hy hvw]
  intro vs
  induction vs with
  | nil =>
    intro ws _ hws hflat
    cases ws with
    | nil => rfl
    | cons w ws =>
      have hw := hnil w (hws w List.mem_cons_self)
      simp [hw] at hflat
  | cons v vs ih =>
    intro ws hvs hws hflat
    have hv := hvs v List.mem_cons_self
    cases ws with
    | nil => simp [hnil v hv] at hflat
    | cons w ws =>
      have hw := hws w List.mem_cons_self
      rw [List.flatten_cons, List.flatten_cons] at hflat
      have hvw : v = w := by
        have hpv : v <+: w ++ ws.flatten := by
          rw [← hflat]
          exact List.prefix_append _ _
        rcases List.prefix_or_prefix_of_prefix hpv (List.prefix_append w ws.flatten) with hp | hp
        · exact hsame v w hv hw hp
        · exact (hsame w v hw hv hp).symm
      subst hvw
      rw [List.append_cancel_left_eq] at hflat
      rw [ih ws (fun u hu => hvs u (List.mem_cons_of_mem _ hu))
        (fun u hu => hws u (List.mem_cons_of_mem _ hu)) hflat]

/-- Kraft's inequality. -/
theorem PrefixFree.kraft_le_one (h : PrefixFree symbols code) (h2 : 2 ≤ symbols.card) :
    ∑ x ∈ symbols, (1 / 2 : ℚ) ^ (code x).length ≤ 1 := by
  classical
  have hunique := h.uniquelyDecodable (h.ne_nil h2)
  rw [← Finset.coe_image] at hunique
  have hkraft := kraft_mcmillan_inequality hunique
  rw [Finset.sum_image] at hkraft
  · rw [Fintype.card_bool] at hkraft
    have hcast : ((∑ x ∈ symbols, (1 / 2 : ℚ) ^ (code x).length : ℚ) : ℝ) ≤ ((1 : ℚ) : ℝ) := by
      push_cast
      exact_mod_cast hkraft
    exact_mod_cast hcast
  · intro x hx y hy hxy
    exact h x hx y hy (by rw [hxy])

end Unitas.PrefixCode

/-! The code that a Huffman tree stands for: its words are the ways down from the root. -/
namespace Unitas.Huffman
open PrefixCode

variable {leaves inner : Finset ℕ} {root : ℕ} {parent W d : ℕ → ℕ}

/-- A sum over all nodes but the root, taken two by two. -/
theorem Tree.sum_children {β : Type} [AddCommMonoid β] (h : Tree leaves inner root parent W)
    {F G : ℕ → β} (hFG : ∀ p ∈ inner, ∀ a ∈ leaves ∪ inner, ∀ b ∈ leaves ∪ inner,
      a ≠ root → b ≠ root → parent a = p → parent b = p → W p = W a + W b → F a + F b = G p) :
    ∑ v ∈ (leaves ∪ inner).erase root, F v = ∑ p ∈ inner, G p := by
  have hmaps : ∀ v ∈ (leaves ∪ inner).erase root, parent v ∈ inner := by
    intro v hv
    rw [Finset.mem_erase] at hv
    exact h.parent_mem v hv.2 hv.1
  rw [← Finset.sum_fiberwise_of_maps_to hmaps]
  apply Finset.sum_congr rfl
  intro p hp
  obtain ⟨a, b, hab, hW, hch⟩ := h.children p hp
  have ha := (hch a).mpr (.inl rfl)
  have hb := (hch b).mpr (.inr rfl)
  have hset : {v ∈ (leaves ∪ inner).erase root | parent v = p} = {a, b} := by
    ext v
    rw [Finset.mem_filter, Finset.mem_erase, Finset.mem_insert, Finset.mem_singleton, ← hch v]
    constructor
    · intro hv
      exact ⟨hv.1.2, hv.1.1, hv.2⟩
    · intro hv
      exact ⟨⟨hv.2.1, hv.1⟩, hv.2.2⟩
  rw [hset, Finset.sum_pair hab]
  exact hFG p hp a ha.1 b hb.1 ha.2.1 hb.2.1 ha.2.2 hb.2.2 hW

theorem Tree.sum_erase_root {β : Type} [AddCommMonoid β] (h : Tree leaves inner root parent W)
    (F : ℕ → β) :
    ∑ v ∈ (leaves ∪ inner).erase root, F v + F root = ∑ v ∈ leaves, F v + ∑ p ∈ inner, F p := by
  rw [Finset.sum_erase_add _ _ (Finset.mem_union_right _ h.root_mem),
    Finset.sum_union h.disjoint]

/-- What a code costs is the sum of the weights of the inner nodes. -/
theorem Tree.cost_eq (h : Tree leaves inner root parent W)
    (hd : Depth (leaves ∪ inner) root parent d) :
    ∑ v ∈ leaves, W v * d v = ∑ p ∈ inner, W p := by
  have hsum := h.sum_children (F := fun v => W v * d v) (G := fun p => W p * d p + W p) (by
    intro p _ a ha b hb har hbr hpa hpb hW
    rw [hd.succ a ha har, hd.succ b hb hbr, hpa, hpb, hW]
    ring)
  have hroot := h.sum_erase_root fun v => W v * d v
  rw [hsum, hd.zero, Finset.sum_add_distrib] at hroot
  omega

/-- The code is complete. -/
theorem Tree.kraft_eq (h : Tree leaves inner root parent W)
    (hd : Depth (leaves ∪ inner) root parent d) :
    ∑ v ∈ leaves, (1 / 2 : ℚ) ^ d v = 1 := by
  have hsum := h.sum_children (F := fun v => (1 / 2 : ℚ) ^ d v) (G := fun p => (1 / 2 : ℚ) ^ d p) (by
    intro p _ a ha b hb har hbr hpa hpb _
    rw [hd.succ a ha har, hd.succ b hb hbr, hpa, hpb, pow_succ]
    ring)
  have hroot := h.sum_erase_root fun v => (1 / 2 : ℚ) ^ d v
  rw [hsum, hd.zero, pow_zero] at hroot
  linarith

section Words

open Classical in
/-- Which child of its parent a node is. -/
noncomputable def side (nodes : Finset ℕ) (root : ℕ) (parent : ℕ → ℕ) (v : ℕ) : Bool :=
  decide (∃ u ∈ nodes, u ≠ root ∧ parent u = parent v ∧ v < u)

/-- The last `n` steps of the way down to a node. -/
noncomputable def way (nodes : Finset ℕ) (root : ℕ) (parent : ℕ → ℕ) : ℕ → ℕ → List Bool
  | 0, _ => []
  | n + 1, v => way nodes root parent n (parent v) ++ [side nodes root parent v]

theorem length_way (nodes : Finset ℕ) (n v : ℕ) : (way nodes root parent n v).length = n := by
  induction n generalizing v with
  | zero => rfl
  | succ n ih => simp [way, ih]

/-- Two children of one parent are on different sides. -/
theorem Tree.eq_of_side (h : Tree leaves inner root parent W) {u v : ℕ}
    (hu : u ∈ leaves ∪ inner) (hv : v ∈ leaves ∪ inner) (hur : u ≠ root) (hvr : v ≠ root)
    (hp : parent u = parent v)
    (hside : side (leaves ∪ inner) root parent u = side (leaves ∪ inner) root parent v) :
    u = v := by
  have hlt : ∀ x ∈ leaves ∪ inner, ∀ y ∈ leaves ∪ inner, x ≠ root → y ≠ root →
      parent x = parent y → x < y → side (leaves ∪ inner) root parent x = true ∧
        side (leaves ∪ inner) root parent y = false := by
    intro x hx y hy hxr hyr hxy hlt
    unfold side
    rw [decide_eq_true_iff, decide_eq_false_iff_not]
    constructor
    · exact ⟨y, hy, hyr, hxy.symm, hlt⟩
    · rintro ⟨z, hz, hzr, hzy, hyz⟩
      obtain ⟨a, b, _, _, hch⟩ := h.children (parent y) (h.parent_mem y hy hyr)
      have hx' := (hch x).mp ⟨hx, hxr, hxy⟩
      have hy' := (hch y).mp ⟨hy, hyr, rfl⟩
      have hz' := (hch z).mp ⟨hz, hzr, hzy⟩
      omega
  rcases lt_trichotomy u v with huv | huv | huv
  · have := hlt u hu v hv hur hvr hp huv
    rw [this.1, this.2] at hside
    cases hside
  · exact huv
  · have := hlt v hv u hu hvr hur hp.symm huv
    rw [this.1, this.2] at hside
    cases hside

/-- The word of a node. -/
noncomputable def word (nodes : Finset ℕ) (root : ℕ) (parent d : ℕ → ℕ) (v : ℕ) : List Bool :=
  way nodes root parent (d v) v

theorem length_word (nodes : Finset ℕ) (v : ℕ) : (word nodes root parent d v).length = d v :=
  length_way nodes (d v) v

theorem Tree.word_eq (hd : Depth (leaves ∪ inner) root parent d) {v : ℕ}
    (hv : v ∈ leaves ∪ inner) (hr : v ≠ root) :
    word (leaves ∪ inner) root parent d v =
      word (leaves ∪ inner) root parent d (parent v) ++ [side (leaves ∪ inner) root parent v] := by
  unfold word
  rw [hd.succ v hv hr]
  rfl

theorem Tree.eq_of_word (h : Tree leaves inner root parent W)
    (hd : Depth (leaves ∪ inner) root parent d) :
    ∀ v ∈ leaves ∪ inner, ∀ u ∈ leaves ∪ inner,
      word (leaves ∪ inner) root parent d u = word (leaves ∪ inner) root parent d v → u = v := by
  have hroot : ∀ u ∈ leaves ∪ inner, d u = 0 → u = root := by
    intro u hu hdu
    by_contra hur
    have := hd.succ u hu hur
    omega
  refine h.up hd ?_ ?_
  · intro u hu hword
    have hlen := congrArg List.length hword
    rw [length_word, length_word, hd.zero] at hlen
    exact hroot u hu hlen
  · intro v hv hvr ih u hu hword
    have hur : u ≠ root := by
      rintro rfl
      have hlen := congrArg List.length hword
      rw [length_word, length_word, hd.zero, hd.succ v hv hvr] at hlen
      omega
    rw [Tree.word_eq hd hu hur, Tree.word_eq hd hv hvr] at hword
    obtain ⟨hparent, hside⟩ := List.append_inj' hword rfl
    have hp := ih (parent u) (Finset.mem_union_right _ (h.parent_mem u hu hur)) hparent
    exact h.eq_of_side hu hv hur hvr hp (by simpa using hside)

/-- A word only begins the words of nodes below its own. -/
theorem Tree.inner_of_word (h : Tree leaves inner root parent W)
    (hd : Depth (leaves ∪ inner) root parent d) :
    ∀ v ∈ leaves ∪ inner, ∀ u ∈ leaves ∪ inner,
      word (leaves ∪ inner) root parent d u <+: word (leaves ∪ inner) root parent d v →
      u = v ∨ u ∈ inner := by
  refine h.up hd ?_ ?_
  · intro u hu hword
    left
    have hlen := hword.length_le
    rw [length_word, length_word, hd.zero] at hlen
    by_contra hur
    have := hd.succ u hu hur
    omega
  · intro v hv hvr ih u hu hword
    rw [Tree.word_eq hd hv hvr, List.prefix_concat_iff] at hword
    rcases hword with heq | hpre
    · left
      rw [← Tree.word_eq hd hv hvr] at heq
      exact h.eq_of_word hd v hv u hu heq
    · right
      rcases ih u hu hpre with rfl | hin
      · exact h.parent_mem v hv hvr
      · exact hin

theorem Tree.prefixFree (h : Tree leaves inner root parent W)
    (hd : Depth (leaves ∪ inner) root parent d) :
    PrefixFree leaves (word (leaves ∪ inner) root parent d) := by
  intro x hx y hy hword
  rcases h.inner_of_word hd y (Finset.mem_union_left _ hy) x (Finset.mem_union_left _ hx) hword
    with heq | hin
  · exact heq
  · exact absurd hin (Finset.disjoint_left.mp h.disjoint hx)

end Words

/-- The code costs no more than any other one without words that begin others. -/
theorem Tree.optimal (h : Tree leaves inner root parent W)
    (hd : Depth (leaves ∪ inner) root parent d) {rounds : ℕ}
    (hjoins : inner.val.map W = (joins rounds (leaves.val.map W).sort : Multiset ℕ))
    (h2 : 2 ≤ leaves.card) {code : ℕ → List Bool} (hcode : PrefixFree leaves code) :
    ∑ v ∈ leaves, W v * d v ≤ ∑ v ∈ leaves, W v * (code v).length := by
  rw [h.cost_eq hd]
  have hkraft : kraft (leaves.val.map fun v => (W v, (code v).length)) ≤ 1 := by
    unfold kraft
    rw [Multiset.map_map]
    exact hcode.kraft_le_one h2
  have hle := sum_joins_le rounds (Multiset.pairwise_sort (leaves.val.map W) (· ≤ ·))
    (P := leaves.val.map fun v => (W v, (code v).length))
    (by rw [Multiset.map_map, Multiset.sort_eq]; rfl) hkraft
  have hsum : ∑ p ∈ inner, W p = (joins rounds (leaves.val.map W).sort).sum := by
    rw [← Multiset.sum_coe, ← hjoins]
    rfl
  rw [hsum]
  apply hle.trans
  unfold cost
  rw [Multiset.map_map]
  rfl

end Unitas.Huffman
