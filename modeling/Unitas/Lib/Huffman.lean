import Mathlib.Data.Finset.Card
import Mathlib.Order.Interval.Finset.Nat
import Mathlib.Data.Multiset.MapFold
import Mathlib.Logic.Function.Basic
import Mathlib.Algebra.Order.BigOperators.Group.Finset
import Mathlib.Algebra.BigOperators.Group.Finset.Basic

/-! Huffman's construction on a forest kept as parent pointers: two lightest trees are
joined under a new node until one tree is left. -/
namespace Unitas.Huffman
open Function

/-- The roots of the forest with their weights, and the node that was made last. -/
structure Forest where
  live : Multiset (ℕ × ℕ)
  last : ℕ
  parent : ℕ → ℕ

/-- `a` and `b`, in this order, are the lightest roots. -/
inductive Merge : Forest → Forest → Prop
  | join {a b : ℕ × ℕ} {rest : Multiset (ℕ × ℕ)} {last : ℕ} {parent : ℕ → ℕ}
      (ha : ∀ x ∈ b ::ₘ rest, a.1 ≤ x.1) (hb : ∀ x ∈ rest, b.1 ≤ x.1) :
      Merge ⟨a ::ₘ b ::ₘ rest, last, parent⟩
        ⟨(a.1 + b.1, last + 1) ::ₘ rest, last + 1,
          update (update parent a.2 (last + 1)) b.2 (last + 1)⟩

/-- A forest over `leaves` with roots `L` and other nodes `D`. Nodes above `first` have been
made by joining, and `W` is the weight of every node. -/
structure Built (leaves : Finset ℕ) (w parent₀ : ℕ → ℕ) (first : ℕ) (f : Forest)
    (W : ℕ → ℕ) (L D : Finset ℕ) : Prop where
  live : f.live = L.val.map fun v => (W v, v)
  nodes : ∀ v, (v ∈ L ∨ v ∈ D) ↔ (v ∈ leaves ∨ (first < v ∧ v ≤ f.last))
  disjoint : ∀ v ∈ L, v ∉ D
  first_le : first ≤ f.last
  weight_leaf : ∀ v ∈ leaves, W v = w v
  weight_pos : ∀ v, (v ∈ L ∨ v ∈ D) → 0 < W v
  parent_gt : ∀ v ∈ D, v < f.parent v
  parent_inner : ∀ v ∈ D, first < f.parent v ∧ f.parent v ≤ f.last
  parent_other : ∀ v, v ∉ D → f.parent v = parent₀ v
  children : ∀ p, first < p → p ≤ f.last →
    ∃ a b, a ≠ b ∧ W p = W a + W b ∧ ∀ v, (v ∈ D ∧ f.parent v = p) ↔ (v = a ∨ v = b)
  dead_le : ∀ d ∈ D, ∀ v ∈ L, W d ≤ W v
  sorted : ∀ u ∈ D, ∀ v ∈ D, f.parent u < f.parent v → W u ≤ W v

section Build
variable {leaves : Finset ℕ} {w parent₀ : ℕ → ℕ} {first : ℕ}

theorem Built.start (hpos : ∀ v ∈ leaves, 0 < w v) :
    Built leaves w parent₀ first ⟨leaves.val.map fun v => (w v, v), first, parent₀⟩ w leaves ∅ where
  live := rfl
  nodes := by
    intro v
    have : ¬ (first < v ∧ v ≤ first) := by omega
    simp [this]
  disjoint := by simp
  first_le := le_rfl
  weight_leaf := fun _ _ => rfl
  weight_pos := by
    intro v hv
    simp only [Finset.notMem_empty, or_false] at hv
    exact hpos v hv
  parent_gt := by simp
  parent_inner := by simp
  parent_other := fun _ _ => rfl
  children := by
    intro p h1 h2
    have h2' : p ≤ first := h2
    omega
  dead_le := by simp
  sorted := by simp

variable {f f' : Forest} {W : ℕ → ℕ} {L D : Finset ℕ}

theorem Built.live_le (h : Built leaves w parent₀ first f W L D) (hle : ∀ v ∈ leaves, v ≤ first) :
    ∀ v, (v ∈ L ∨ v ∈ D) → v ≤ f.last := by
  intro v hv
  have hf := h.first_le
  rcases (h.nodes v).mp hv with hl | ⟨_, hl⟩
  · exact le_trans (hle v hl) hf
  · exact hl

/-- The two roots that a join takes, as nodes. -/
theorem Built.split (h : Built leaves w parent₀ first f W L D) {a b : ℕ × ℕ}
    {rest : Multiset (ℕ × ℕ)} (hf : f.live = a ::ₘ b ::ₘ rest) :
    ∃ x y, x ∈ L ∧ y ∈ L ∧ x ≠ y ∧ a = (W x, x) ∧ b = (W y, y) ∧
      rest = ((L.erase x).erase y).val.map fun v => (W v, v) := by
  have hL := h.live.symm.trans hf
  obtain ⟨x, hx, hax, hrest⟩ := (Multiset.map_eq_cons _ _ _ _).mpr hL
  obtain ⟨y, hy, hby, hrest'⟩ := (Multiset.map_eq_cons _ _ _ _).mpr hrest
  rw [← Finset.erase_val] at hy
  have hy' := Finset.mem_erase.mp hy
  refine ⟨x, y, hx, hy'.2, hy'.1.symm, hax.symm, hby.symm, ?_⟩
  rw [← hrest', Finset.erase_val, Finset.erase_val]

theorem Built.merge (h : Built leaves w parent₀ first f W L D)
    (hle : ∀ v ∈ leaves, v ≤ first) (hm : Merge f f') :
    ∃ W' L' D', Built leaves w parent₀ first f' W' L' D' ∧ L'.card + 1 = L.card ∧
      ∀ v ≤ f.last, W' v = W v := by
  obtain @⟨a, b, rest, last, parent, ha, hb⟩ := hm
  obtain ⟨x, y, hx, hy, hxy, rfl, rfl, hrest⟩ := h.split rfl
  have hlast : ∀ v, (v ∈ L ∨ v ∈ D) → v ≤ last := h.live_le hle
  have hxl := hlast x (.inl hx)
  have hyl := hlast y (.inl hy)
  have hfl : first ≤ last := h.first_le
  have hxD := h.disjoint x hx
  have hyD := h.disjoint y hy
  have hxy_le : W x ≤ W y := ha (W y, y) (Multiset.mem_cons_self _ _)
  have hy_le : ∀ v ∈ L, v ≠ x → v ≠ y → W y ≤ W v := by
    intro v hv hvx hvy
    apply hb (W v, v)
    rw [hrest]
    have hmem : v ∈ (L.erase x).erase y := by simp [hv, hvx, hvy]
    exact Multiset.mem_map_of_mem _ hmem
  set W' := update W (last + 1) (W x + W y) with hW'
  set par := update (update parent x (last + 1)) y (last + 1) with hpar
  have hWne : ∀ v, v ≤ last → W' v = W v := by
    intro v hv
    rw [hW', update_of_ne (by omega)]
  have hWnew : W' (last + 1) = W x + W y := by rw [hW', update_self]
  have hparx : par x = last + 1 := by simp [hpar, hxy]
  have hpary : par y = last + 1 := by simp [hpar]
  have hpar_other : ∀ v, v ≠ x → v ≠ y → par v = parent v := by
    intro v h1 h2
    simp [hpar, h1, h2]
  have hparD : ∀ v ∈ D, par v = parent v := by
    intro v hv
    exact hpar_other v (by rintro rfl; exact hxD hv) (by rintro rfl; exact hyD hv)
  have hparD_le : ∀ v ∈ D, par v ≤ last := by
    intro v hv
    rw [hparD v hv]
    exact (h.parent_inner v hv).2
  have hnewD : last + 1 ∉ D := fun hn => absurd (hlast _ (.inr hn)) (by omega)
  refine ⟨W', insert (last + 1) ((L.erase x).erase y), insert x (insert y D), ?_, ?_, hWne⟩
  · constructor
    · have hnot : last + 1 ∉ (L.erase x).erase y := by
        intro hn
        have := hlast (last + 1) (.inl (Finset.mem_of_mem_erase (Finset.mem_of_mem_erase hn)))
        omega
      show (W x + W y, last + 1) ::ₘ rest = _
      rw [Finset.insert_val_of_notMem hnot, Multiset.map_cons, hWnew, hrest]
      congr 1
      apply Multiset.map_congr rfl
      intro v hv
      have hv' : v ∈ L := Finset.mem_of_mem_erase (Finset.mem_of_mem_erase hv)
      rw [hWne v (hlast v (.inl hv'))]
    · intro v
      have := h.nodes v
      simp only [Finset.mem_insert, Finset.mem_erase]
      by_cases hvn : v = last + 1
      · subst hvn
        simp only [true_or, true_iff]
        exact .inr ⟨by omega, le_rfl⟩
      · have hlt : v ≤ last + 1 ↔ v ≤ last := by omega
        rw [hlt, ← this]
        by_cases hvx : v = x
        · subst hvx; simp [hx]
        · by_cases hvy : v = y
          · subst hvy; simp [hy]
          · simp [hvn, hvx, hvy]
    · intro v hv
      simp only [Finset.mem_insert, Finset.mem_erase] at hv ⊢
      rcases hv with rfl | ⟨hvy, hvx, hvL⟩
      · push Not
        exact ⟨by omega, by omega, hnewD⟩
      · simp [hvx, hvy, h.disjoint v hvL]
    · show first ≤ last + 1
      omega
    · intro v hv
      have hvn : v ≤ last := le_trans (hle v hv) hfl
      rw [hWne v hvn, h.weight_leaf v hv]
    · intro v hv
      by_cases hvn : v = last + 1
      · have hpos := h.weight_pos x (.inl hx)
        rw [hvn, hWnew]
        omega
      · have hv' : v ∈ L ∨ v ∈ D := by
          simp only [Finset.mem_insert, Finset.mem_erase, hvn, false_or] at hv
          rcases hv with ⟨_, _, hv⟩ | rfl | rfl | hv
          · exact .inl hv
          · exact .inl hx
          · exact .inl hy
          · exact .inr hv
        rw [hWne v (hlast v hv')]
        exact h.weight_pos v hv'
    · intro v hv
      show v < par v
      rcases Finset.mem_insert.mp hv with rfl | hv
      · omega
      · rcases Finset.mem_insert.mp hv with rfl | hv
        · omega
        · rw [hparD v hv]
          exact h.parent_gt v hv
    · intro v hv
      show first < par v ∧ par v ≤ last + 1
      rcases Finset.mem_insert.mp hv with rfl | hv
      · omega
      · rcases Finset.mem_insert.mp hv with rfl | hv
        · omega
        · have : first < parent v := (h.parent_inner v hv).1
          rw [← hparD v hv] at this
          exact ⟨this, by have := hparD_le v hv; omega⟩
    · intro v hv
      simp only [Finset.mem_insert, not_or] at hv
      show par v = parent₀ v
      rw [hpar_other v hv.1 hv.2.1]
      exact h.parent_other v hv.2.2
    · intro p hp1 hp2
      have hp2 : p ≤ last + 1 := hp2
      show ∃ a b, a ≠ b ∧ W' p = W' a + W' b ∧
        ∀ v, (v ∈ insert x (insert y D) ∧ par v = p) ↔ (v = a ∨ v = b)
      by_cases hpn : p = last + 1
      · subst hpn
        refine ⟨x, y, hxy, by rw [hWnew, hWne x hxl, hWne y hyl], fun v => ?_⟩
        simp only [Finset.mem_insert]
        constructor
        · rintro ⟨rfl | rfl | hv, hp⟩
          · exact .inl rfl
          · exact .inr rfl
          · have := hparD_le v hv
            omega
        · rintro (rfl | rfl)
          · exact ⟨.inl rfl, hparx⟩
          · exact ⟨.inr (.inl rfl), hpary⟩
      · obtain ⟨c, d, hcd, hWp, hch⟩ := h.children p hp1 (show p ≤ last by omega)
        have hc : c ∈ D := ((hch c).mpr (.inl rfl)).1
        have hd : d ∈ D := ((hch d).mpr (.inr rfl)).1
        refine ⟨c, d, hcd, ?_, fun v => ?_⟩
        · rw [hWne p (by omega), hWne c (hlast c (.inr hc)), hWne d (hlast d (.inr hd)), hWp]
        · rw [← hch v]
          simp only [Finset.mem_insert]
          constructor
          · rintro ⟨rfl | rfl | hv, hp⟩
            · omega
            · omega
            · exact ⟨hv, by rw [← hp, hparD v hv]⟩
          · rintro ⟨hv, hp⟩
            exact ⟨.inr (.inr hv), by rw [hparD v hv]; exact hp⟩
    · intro d hd v hv
      have hdW : W' d ≤ W x ∨ W' d ≤ W y := by
        rcases Finset.mem_insert.mp hd with rfl | hd
        · exact .inl (le_of_eq (hWne d hxl))
        · rcases Finset.mem_insert.mp hd with rfl | hd
          · exact .inr (le_of_eq (hWne d hyl))
          · rw [hWne d (hlast d (.inr hd))]
            exact .inl (h.dead_le d hd x hx)
      rcases Finset.mem_insert.mp hv with rfl | hv
      · rw [hWnew]
        omega
      · simp only [Finset.mem_erase] at hv
        have := hy_le v hv.2.2 hv.2.1 hv.1
        rw [hWne v (hlast v (.inl hv.2.2))]
        omega
    · intro u hu v hv hlt
      have hlt : par u < par v := hlt
      have huD : u ∈ D := by
        rcases Finset.mem_insert.mp hu with rfl | hu
        · rcases Finset.mem_insert.mp hv with rfl | hv
          · omega
          · rcases Finset.mem_insert.mp hv with rfl | hv
            · omega
            · have := hparD_le v hv
              omega
        · rcases Finset.mem_insert.mp hu with rfl | hu
          · rcases Finset.mem_insert.mp hv with rfl | hv
            · omega
            · rcases Finset.mem_insert.mp hv with rfl | hv
              · omega
              · have := hparD_le v hv
                omega
          · exact hu
      rw [hWne u (hlast u (.inr huD))]
      rcases Finset.mem_insert.mp hv with rfl | hv
      · rw [hWne v hxl]
        exact h.dead_le u huD v hx
      · rcases Finset.mem_insert.mp hv with rfl | hv
        · rw [hWne v hyl]
          exact h.dead_le u huD v hy
        · rw [hWne v (hlast v (.inr hv))]
          apply h.sorted u huD v hv
          rwa [hparD u huD, hparD v hv] at hlt
  · have hyx : y ∈ L.erase x := Finset.mem_erase.mpr ⟨hxy.symm, hy⟩
    have hnot : last + 1 ∉ (L.erase x).erase y := by
      intro hn
      have := hlast (last + 1) (.inl (Finset.mem_of_mem_erase (Finset.mem_of_mem_erase hn)))
      omega
    have hcx := Finset.card_erase_add_one hx
    have hcy := Finset.card_erase_add_one hyx
    rw [Finset.card_insert_of_notMem hnot]
    omega

end Build

/-- The tree that is left: `parent` leads from every node but `root` to an inner node, and the
children of an inner node are exactly two. -/
structure Tree (leaves inner : Finset ℕ) (root : ℕ) (parent W : ℕ → ℕ) : Prop where
  root_mem : root ∈ inner
  disjoint : Disjoint leaves inner
  parent_mem : ∀ v ∈ leaves ∪ inner, v ≠ root → parent v ∈ inner
  parent_gt : ∀ v ∈ leaves ∪ inner, v ≠ root → v < parent v
  children : ∀ p ∈ inner, ∃ a b, a ≠ b ∧ W p = W a + W b ∧
    ∀ v, (v ∈ leaves ∪ inner ∧ v ≠ root ∧ parent v = p) ↔ (v = a ∨ v = b)
  weight_pos : ∀ v ∈ leaves ∪ inner, 0 < W v
  sorted : ∀ u ∈ leaves ∪ inner, ∀ v ∈ leaves ∪ inner, u ≠ root → v ≠ root →
    parent u < parent v → W u ≤ W v

/-- Distance from the root. -/
structure Depth (nodes : Finset ℕ) (root : ℕ) (parent d : ℕ → ℕ) : Prop where
  zero : d root = 0
  succ : ∀ v ∈ nodes, v ≠ root → d v = d (parent v) + 1

theorem Built.tree {leaves : Finset ℕ} {w parent₀ : ℕ → ℕ} {first : ℕ} {f : Forest}
    {W : ℕ → ℕ} {L D : Finset ℕ} (h : Built leaves w parent₀ first f W L D)
    (hle : ∀ v ∈ leaves, v ≤ first) (hL : L.card = 1) (hlt : first < f.last) :
    Tree leaves (Finset.Ioc first f.last) f.last f.parent W := by
  obtain ⟨r, rfl⟩ := Finset.card_eq_one.mp hL
  have hlast : f.last ∉ D := by
    intro hD
    have h1 := h.parent_gt _ hD
    have h2 := (h.parent_inner _ hD).2
    omega
  have hr : r = f.last := by
    have := (h.nodes f.last).mpr (.inr ⟨hlt, le_rfl⟩)
    simp only [Finset.mem_singleton, hlast, or_false] at this
    exact this.symm
  subst hr
  have hmem : ∀ v, v ∈ leaves ∪ Finset.Ioc first f.last ↔ (v ∈ ({f.last} : Finset ℕ) ∨ v ∈ D) := by
    intro v
    rw [Finset.mem_union, Finset.mem_Ioc]
    exact (h.nodes v).symm
  have hdead : ∀ v, (v ∈ leaves ∪ Finset.Ioc first f.last ∧ v ≠ f.last) ↔ v ∈ D := by
    intro v
    rw [hmem, Finset.mem_singleton]
    constructor
    · rintro ⟨hv, hne⟩
      exact hv.resolve_left hne
    · intro hv
      exact ⟨.inr hv, by rintro rfl; exact hlast hv⟩
  constructor
  · exact Finset.mem_Ioc.mpr ⟨hlt, le_rfl⟩
  · rw [Finset.disjoint_left]
    intro v hv hi
    have := hle v hv
    rw [Finset.mem_Ioc] at hi
    omega
  · intro v hv hne
    exact Finset.mem_Ioc.mpr (h.parent_inner v ((hdead v).mp ⟨hv, hne⟩))
  · intro v hv hne
    exact h.parent_gt v ((hdead v).mp ⟨hv, hne⟩)
  · intro p hp
    rw [Finset.mem_Ioc] at hp
    obtain ⟨a, b, hab, hW, hch⟩ := h.children p hp.1 hp.2
    refine ⟨a, b, hab, hW, fun v => ?_⟩
    rw [← hch v, ← hdead v, and_assoc]
  · intro v hv
    exact h.weight_pos v ((hmem v).mp hv)
  · intro u hu v hv hur hvr
    exact h.sorted u ((hdead u).mp ⟨hu, hur⟩) v ((hdead v).mp ⟨hv, hvr⟩)

section Tree
variable {leaves inner : Finset ℕ} {root : ℕ} {parent W d : ℕ → ℕ}

/-- Nothing is asked of the parent of the root. -/
theorem Tree.congr {parent' : ℕ → ℕ} (h : Tree leaves inner root parent W)
    (heq : ∀ v, v ≠ root → parent' v = parent v) : Tree leaves inner root parent' W where
  root_mem := h.root_mem
  disjoint := h.disjoint
  parent_mem := by
    intro v hv hne
    rw [heq v hne]
    exact h.parent_mem v hv hne
  parent_gt := by
    intro v hv hne
    rw [heq v hne]
    exact h.parent_gt v hv hne
  children := by
    intro p hp
    obtain ⟨a, b, hab, hW, hch⟩ := h.children p hp
    refine ⟨a, b, hab, hW, fun v => ?_⟩
    rw [← hch v]
    apply and_congr_right
    intro _
    apply and_congr_right
    intro hne
    rw [heq v hne]
  weight_pos := h.weight_pos
  sorted := by
    intro u hu v hv hur hvr hlt
    rw [heq u hur, heq v hvr] at hlt
    exact h.sorted u hu v hv hur hvr hlt

/-- The weight of an inner node is that of one child and of its sibling. -/
theorem Tree.sibling (h : Tree leaves inner root parent W) {v : ℕ} (hv : v ∈ leaves ∪ inner)
    (hr : v ≠ root) : ∃ u ∈ leaves ∪ inner, u ≠ root ∧ u ≠ v ∧ parent u = parent v ∧
      W (parent v) = W v + W u := by
  obtain ⟨a, b, hab, hW, hch⟩ := h.children (parent v) (h.parent_mem v hv hr)
  have ha := (hch a).mpr (.inl rfl)
  have hb := (hch b).mpr (.inr rfl)
  rcases (hch v).mp ⟨hv, hr, rfl⟩ with rfl | rfl
  · exact ⟨b, hb.1, hb.2.1, hab.symm, hb.2.2, hW⟩
  · exact ⟨a, ha.1, ha.2.1, hab, ha.2.2, by omega⟩

theorem Tree.weight_lt_parent (h : Tree leaves inner root parent W) {v : ℕ}
    (hv : v ∈ leaves ∪ inner) (hr : v ≠ root) : W v < W (parent v) := by
  obtain ⟨u, hu, _, _, _, hW⟩ := h.sibling hv hr
  have := h.weight_pos u hu
  omega

/-- Every node has a way up to the root. -/
theorem Tree.up (h : Tree leaves inner root parent W) (hd : Depth (leaves ∪ inner) root parent d)
    {P : ℕ → Prop} (hroot : P root)
    (hstep : ∀ v ∈ leaves ∪ inner, v ≠ root → P (parent v) → P v) :
    ∀ v ∈ leaves ∪ inner, P v := by
  suffices hn : ∀ n, ∀ v ∈ leaves ∪ inner, d v = n → P v from fun v hv => hn _ v hv rfl
  intro n
  induction n with
  | zero =>
    intro v hv hdv
    by_cases hr : v = root
    · rwa [hr]
    · have := hd.succ v hv hr
      omega
  | succ n ih =>
    intro v hv hdv
    by_cases hr : v = root
    · rwa [hr]
    · have := hd.succ v hv hr
      exact hstep v hv hr (ih (parent v)
        (Finset.mem_union_right _ (h.parent_mem v hv hr)) (by omega))

theorem Tree.weight_le_root (h : Tree leaves inner root parent W)
    (hd : Depth (leaves ∪ inner) root parent d) : ∀ v ∈ leaves ∪ inner, W v ≤ W root := by
  refine h.up hd (P := fun v => W v ≤ W root) le_rfl ?_
  intro v hv hr hp
  exact le_trans (h.weight_lt_parent hv hr).le hp

/-- A lighter node is at least as deep. -/
theorem Tree.depth_le_of_lt (h : Tree leaves inner root parent W)
    (hd : Depth (leaves ∪ inner) root parent d) :
    ∀ u ∈ leaves ∪ inner, ∀ v ∈ leaves ∪ inner, W u < W v → d v ≤ d u := by
  refine h.up hd (P := fun u => ∀ v ∈ leaves ∪ inner, W u < W v → d v ≤ d u) ?_ ?_
  · intro v hv hlt
    have := h.weight_le_root hd v hv
    omega
  · intro u hu hur ih v hv hlt
    by_cases hvr : v = root
    · rw [hvr, hd.zero]
      omega
    · rw [hd.succ u hu hur, hd.succ v hv hvr]
      have hpu := Finset.mem_union_right leaves (h.parent_mem u hu hur)
      have hpv := Finset.mem_union_right leaves (h.parent_mem v hv hvr)
      rcases lt_trichotomy (parent u) (parent v) with hp | hp | hp
      · obtain ⟨u', hu', hur', _, hpu', hWu⟩ := h.sibling hu hur
        obtain ⟨v', hv', hvr', _, hpv', hWv⟩ := h.sibling hv hvr
        have hsib : W u' ≤ W v' := h.sorted u' hu' v' hv' hur' hvr' (by omega)
        have := ih (parent v) hpv (by omega)
        omega
      · rw [hp]
      · have := h.sorted v hv u hu hvr hur hp
        omega

/-- The nodes one level down are twice the inner nodes. -/
theorem Tree.card_level_succ (h : Tree leaves inner root parent W)
    (hd : Depth (leaves ∪ inner) root parent d) (l : ℕ) :
    {v ∈ leaves ∪ inner | d v = l + 1}.card = 2 * {p ∈ inner | d p = l}.card := by
  have hmaps : ∀ v ∈ {v ∈ leaves ∪ inner | d v = l + 1}, parent v ∈ {p ∈ inner | d p = l} := by
    intro v hv
    rw [Finset.mem_filter] at hv ⊢
    have hr : v ≠ root := by
      rintro rfl
      rw [hd.zero] at hv
      omega
    have := hd.succ v hv.1 hr
    exact ⟨h.parent_mem v hv.1 hr, by omega⟩
  rw [Finset.card_eq_sum_card_fiberwise hmaps, Finset.sum_const_nat, mul_comm]
  intro p hp
  rw [Finset.mem_filter] at hp
  obtain ⟨a, b, hab, _, hch⟩ := h.children p hp.1
  rw [Finset.card_eq_two]
  refine ⟨a, b, hab, ?_⟩
  ext v
  rw [Finset.mem_filter, Finset.mem_filter, Finset.mem_insert, Finset.mem_singleton, ← hch v]
  constructor
  · rintro ⟨⟨hv, hdv⟩, hpv⟩
    refine ⟨hv, ?_, hpv⟩
    rintro rfl
    rw [hd.zero] at hdv
    omega
  · rintro ⟨hv, hr, hpv⟩
    refine ⟨⟨hv, ?_⟩, hpv⟩
    rw [hd.succ v hv hr, hpv, hp.2]

theorem Tree.card_level (h : Tree leaves inner root parent W) (l : ℕ) :
    {v ∈ leaves ∪ inner | d v = l}.card =
      {v ∈ leaves | d v = l}.card + {v ∈ inner | d v = l}.card := by
  rw [Finset.filter_union, Finset.card_union_of_disjoint]
  exact Finset.disjoint_filter_filter h.disjoint

theorem Tree.card_inner_zero (h : Tree leaves inner root parent W)
    (hd : Depth (leaves ∪ inner) root parent d) : {p ∈ inner | d p = 0}.card = 1 := by
  rw [Finset.card_eq_one]
  refine ⟨root, ?_⟩
  ext v
  rw [Finset.mem_filter, Finset.mem_singleton]
  constructor
  · rintro ⟨hv, hdv⟩
    by_contra hr
    have := hd.succ v (Finset.mem_union_right _ hv) hr
    omega
  · rintro rfl
    exact ⟨h.root_mem, hd.zero⟩

/-- The one lightest leaf is as deep as any node. -/
theorem Tree.depth_le_lightest (h : Tree leaves inner root parent W)
    (hd : Depth (leaves ∪ inner) root parent d) {e : ℕ} (he : e ∈ leaves)
    (hlight : ∀ v ∈ leaves, v ≠ e → W e < W v) : ∀ v ∈ leaves ∪ inner, d v ≤ d e := by
  have he' : e ∈ leaves ∪ inner := Finset.mem_union_left _ he
  have hmin : ∀ v ∈ leaves ∪ inner, v ≠ e → W e < W v := by
    intro v
    induction v using Nat.strongRecOn with
    | _ v ih =>
      intro hv hve
      rcases Finset.mem_union.mp hv with hl | hi
      · exact hlight v hl hve
      · obtain ⟨a, b, _, hW, hch⟩ := h.children v hi
        have ha := (hch a).mpr (.inl rfl)
        have hb := (hch b).mpr (.inr rfl)
        have hav : a < v := ha.2.2 ▸ h.parent_gt a ha.1 ha.2.1
        have hbpos := h.weight_pos b hb.1
        by_cases hae : a = e
        · rw [hae] at hW
          omega
        · have := ih a hav ha.1 hae
          omega
  intro v hv
  by_cases hve : v = e
  · rw [hve]
  · exact h.depth_le_of_lt hd e he' v hv (hmin v hv hve)

end Tree

end Unitas.Huffman
