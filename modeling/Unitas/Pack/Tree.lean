import Unitas.Pack.Globals
import Unitas.Lib.Heap
import Unitas.Lib.Greedy

/-! `heapify` restores the order of the heap, and the rounds of `packfile` build a Huffman
tree on the occurring characters. -/
namespace Unitas.Pack
open Function Unitas.Heap Unitas.Huffman

/-- The counts by which the heap is ordered. -/
def counts (heap : ℕ → Entry) (i : ℕ) : ℕ := (heap i).count

/-- `g` with the elements of the heap in an order, from element `lo` down. -/
def Heaped (lo : ℕ) (g g' : Globals) : Prop :=
  ∃ heap, g' = { g with heap } ∧ Ordered (counts heap) lo g.n ∧
    contents heap g.n = contents g.heap g.n

/-- The loop moves the saved entry down from a hole. -/
theorem sift_spec (heapsubi : Entry) (lo : ℕ) :
    ∀ fuel i g, 1 ≤ i → lo ≤ i → i ≤ g.n → g.n < i + fuel →
      Hole (counts (update g.heap i heapsubi)) lo g.n i →
      Heaped lo { g with heap := update g.heap i heapsubi } (sift heapsubi fuel i g) := by
  intro fuel
  induction fuel with
  | zero =>
    intro i g _ _ hin hfuel
    omega
  | succ fuel ih =>
    intro i g h1 hlo hin hfuel hhole
    rw [sift]
    by_cases hleaf : i ≤ g.n / 2
    · rw [if_pos hleaf]
      dsimp only
      generalize hk : (if (g.heap (2 * i)).count > (g.heap (2 * i + 1)).count ∧ 2 * i < g.n
        then 2 * i + 1 else 2 * i) = k
      have hkc : k / 2 = i ∧ i < k ∧ k ≤ g.n := by
        rw [← hk]
        split_ifs <;> omega
      have hci : ∀ j, j ≠ i → counts (update g.heap i heapsubi) j = (g.heap j).count := by
        intro j hj
        simp [counts, hj]
      have hself : counts (update g.heap i heapsubi) i = heapsubi.count := by simp [counts]
      have hmin : ∀ j, j / 2 = i → j ≤ g.n →
          counts (update g.heap i heapsubi) k ≤ counts (update g.heap i heapsubi) j := by
        intro j hj hjn
        rw [hci k (by omega), hci j (by omega)]
        have hj' : j = 2 * i ∨ j = 2 * i + 1 := by omega
        rcases hj' with rfl | rfl <;> rw [← hk] <;> split_ifs <;> omega
      split_ifs with hbreak
      · refine ⟨_, rfl, hhole.ordered fun j hj hjn => ?_, rfl⟩
        have := hmin j hj hjn
        rw [hci k (by omega)] at this
        rw [hself]
        omega
      · have hswap := update_update_swap g.heap i k heapsubi (show i ≠ k by omega)
        have hhole' : Hole (counts (update (update g.heap i (g.heap k)) k heapsubi)) lo g.n k := by
          rw [hswap]
          apply hhole.swap hlo h1 hkc.1 hkc.2.2
          · rw [hself, hci k (by omega)]
            omega
          · exact hmin
        obtain ⟨heap, heq, hord, hcont⟩ := ih k { g with heap := update g.heap i (g.heap k) }
          (by omega) (by omega) hkc.2.2 (show g.n < k + fuel by omega) hhole'
        refine ⟨heap, heq, hord, hcont.trans ?_⟩
        simp only [hswap]
        exact contents_swap _ h1 hin (by omega) hkc.2.2
    · rw [if_neg hleaf]
      refine ⟨_, rfl, hhole.ordered fun j hj hjn => ?_, rfl⟩
      omega

theorem heapify_spec {i : ℕ} {g : Globals} (h1 : 1 ≤ i) (hin : i ≤ g.n)
    (h : Ordered (counts g.heap) (i + 1) g.n) : Heaped i g (heapify i g) := by
  have hself : update g.heap i (g.heap i) = g.heap := update_eq_self _ _
  have := sift_spec (g.heap i) i g.n i g h1 le_rfl hin (by omega)
    (by rw [hself]; exact Hole.of_ordered h1 h)
  rwa [hself] at this

theorem heapifyFrom_spec :
    ∀ i g, i ≤ g.n / 2 → Ordered (counts g.heap) (i + 1) g.n → Heaped 1 g (heapifyFrom i g) := by
  intro i
  induction i with
  | zero => exact fun g _ h => ⟨g.heap, rfl, h, rfl⟩
  | succ i ih =>
    intro g hin h
    obtain ⟨heap, heq, hord, hcont⟩ := heapify_spec (by omega) (by omega) h
    rw [heapifyFrom, heq]
    obtain ⟨heap', heq', hord', hcont'⟩ := ih { g with heap } (show i ≤ g.n / 2 by omega) hord
    exact ⟨heap', heq', hord', hcont'.trans hcont⟩

/-- The heap as the roots of a forest. -/
def item (e : Entry) : ℕ × ℕ := (e.count, e.node)

def forest (g : Globals) : Forest :=
  ⟨(contents g.heap g.n).map item, g.lastnode, g.parent⟩

/-- The root of an ordered heap is the lightest entry, also after it has been replaced. -/
theorem root_min {heap : ℕ → Entry} {n : ℕ} (h : Ordered (counts heap) 1 n) :
    ∀ x ∈ contents heap n, (heap 1).count ≤ x.count := by
  intro x hx
  obtain ⟨i, h1, hn, rfl⟩ := exists_of_mem_contents hx
  exact h.root_le i h1 hn

theorem ordered_update_root {heap : ℕ → Entry} {n : ℕ} (x : Entry)
    (h : Ordered (counts heap) 1 n) : Ordered (counts (update heap 1 x)) 2 n := by
  intro j hj hn
  have := h j (by omega) hn
  simpa [counts, show j / 2 ≠ 1 by omega, show j ≠ 1 by omega] using this

/-- A round of the loop joins the two lightest roots. -/
theorem join_spec {g : Globals} (hn : 2 ≤ g.n) (h : Ordered (counts g.heap) 1 g.n) :
    ∃ lastnode parent n heap, join g = { g with lastnode, parent, n, heap } ∧
      Merge (forest g) (forest (join g)) ∧ Ordered (counts heap) 1 n ∧ n + 1 = g.n ∧
      lastnode = g.lastnode + 1 := by
  obtain ⟨m, hm⟩ : ∃ m, g.n = m + 2 := ⟨g.n - 2, by omega⟩
  rw [hm] at h
  have hpop := contents_pop g.heap (m + 1)
  have hord1 : Ordered (counts (update g.heap 1 (g.heap (m + 2)))) 2 (m + 1) :=
    ordered_update_root _ fun j hj hjn => h j hj (by omega)
  obtain ⟨heap1, heq1, ho1, hc1⟩ := heapify_spec (i := 1) (g := { g with
    lastnode := g.lastnode + 1
    parent := update g.parent (g.heap 1).node (g.lastnode + 1)
    heap := update g.heap 1 (g.heap (m + 2))
    n := m + 1 }) le_rfl (by simp) hord1
  dsimp only at heq1 ho1 hc1
  set top : Entry := ⟨(heap1 1).count + (g.heap 1).count, g.lastnode + 1⟩ with htop
  obtain ⟨heap2, heq2, ho2, hc2⟩ := heapify_spec (i := 1) (g := { g with
    lastnode := g.lastnode + 1
    parent := update (update g.parent (g.heap 1).node (g.lastnode + 1)) (heap1 1).node
      (g.lastnode + 1)
    heap := update heap1 1 top
    n := m + 1 }) le_rfl (by simp) (ordered_update_root top ho1)
  dsimp only at heq2 ho2 hc2
  have hjoin : join g = { g with
      lastnode := g.lastnode + 1
      parent := update (update g.parent (g.heap 1).node (g.lastnode + 1)) (heap1 1).node
        (g.lastnode + 1)
      n := m + 1
      heap := heap2 } := by
    simp only [join, hm, Nat.add_succ_sub_one, heq1]
    exact heq2
  obtain ⟨rest, hrest⟩ : ∃ rest, contents heap1 (m + 1) = heap1 1 ::ₘ rest :=
    Multiset.exists_cons_of_mem (mem_contents le_rfl (by omega))
  have hrepl := contents_replace_root heap1 m top
  rw [hrest, Multiset.cons_swap, Multiset.cons_inj_right] at hrepl
  have hlive : contents g.heap (m + 2) = g.heap 1 ::ₘ heap1 1 ::ₘ rest := by
    rw [← hpop, ← hrest, ← hc1]
  refine ⟨_, _, _, _, hjoin, ?_, ho2, hm.symm, rfl⟩
  have hforest : forest g = ⟨item (g.heap 1) ::ₘ item (heap1 1) ::ₘ rest.map item,
      g.lastnode, g.parent⟩ := by
    simp only [forest, hm, hlive, Multiset.map_cons]
  have hforest' : forest (join g) = ⟨((item (g.heap 1)).1 + (item (heap1 1)).1,
      g.lastnode + 1) ::ₘ rest.map item, g.lastnode + 1,
      update (update g.parent (item (g.heap 1)).2 (g.lastnode + 1)) (item (heap1 1)).2
        (g.lastnode + 1)⟩ := by
    have htop' : item top = ((item (g.heap 1)).1 + (item (heap1 1)).1, g.lastnode + 1) := by
      simp only [item, htop, Nat.add_comm]
    rw [hjoin, ← htop', ← Multiset.map_cons, ← hrepl, ← hc2]
    rfl
  rw [hforest, hforest']
  constructor
  · intro x hx
    rw [← Multiset.map_cons, ← hrest] at hx
    obtain ⟨e, he, rfl⟩ := Multiset.mem_map.mp hx
    apply root_min h
    rw [← hpop, ← hc1]
    exact Multiset.mem_cons_of_mem he
  · intro x hx
    obtain ⟨e, he, rfl⟩ := Multiset.mem_map.mp hx
    apply root_min ho1
    rw [hrest]
    exact Multiset.mem_cons_of_mem he

/-- The rounds join the forest into one tree, and touch nothing else. -/
theorem joinAll_spec {leaves : Finset ℕ} {w parent₀ : ℕ → ℕ} {M : Multiset ℕ}
    (hle : ∀ v ∈ leaves, v ≤ END) :
    ∀ rounds g W L D, 1 ≤ g.n → g.n ≤ rounds + 1 → Ordered (counts g.heap) 1 g.n →
      Built leaves w parent₀ END (forest g) W L D → L.card = g.n → Greedy END M (forest g) W →
      ∃ lastnode parent n heap W L D,
        joinAll rounds g = { g with lastnode, parent, n, heap } ∧
        Built leaves w parent₀ END (forest (joinAll rounds g)) W L D ∧ L.card = 1 ∧
        lastnode + 1 = g.lastnode + g.n ∧ Greedy END M (forest (joinAll rounds g)) W := by
  intro rounds
  induction rounds with
  | zero =>
    intro g W L D h1 hn _ hb hL hM
    exact ⟨_, _, _, _, W, L, D, rfl, hb, by omega, by omega, hM⟩
  | succ rounds ih =>
    intro g W L D h1 hn ho hb hL hM
    rw [joinAll]
    by_cases hmore : 1 < g.n
    · rw [if_pos hmore]
      obtain ⟨lastnode, parent, n, heap, hjoin, hm, ho', hn', hnode⟩ := join_spec (by omega) ho
      obtain ⟨W', L', D', hb', hL', hW'⟩ := hb.merge hle hm
      have hM' := hM.merge hb.first_le hm hb'.live_weight hW'
      rw [hjoin] at hb' hM' ⊢
      obtain ⟨lastnode', parent', n', heap', W'', L'', D'', heq, hb'', hL'', hlast, hM''⟩ :=
        ih { g with lastnode, parent, n, heap } W' L' D' (show 1 ≤ n by omega)
          (show n ≤ rounds + 1 by omega) ho' hb' (show L'.card = n by omega) hM'
      exact ⟨lastnode', parent', n', heap', W'', L'', D'', heq, hb'', hL'',
        hlast.trans (show lastnode + n = g.lastnode + g.n by omega), hM''⟩
    · rw [if_neg hmore]
      exact ⟨_, _, _, _, W, L, D, rfl, hb, by omega, by omega, hM⟩

/-- The characters with a count. -/
def leaves (count : ℕ → ℕ) : Finset ℕ := {i ∈ Finset.range (END + 1) | 0 < count i}

theorem mem_leaves {count : ℕ → ℕ} {i : ℕ} : i ∈ leaves count ↔ i ≤ END ∧ 0 < count i := by
  rw [leaves, Finset.mem_filter, Finset.mem_range, Nat.lt_succ_iff]

/-- The heap holds every character with a count once, and none has a parent yet. -/
structure Entered (g : Globals) : Prop where
  live : (contents g.heap g.n).map item = (leaves g.count).val.map fun i => (g.count i, i)
  n : g.n = (leaves g.count).card
  parent : ∀ i ≤ END, g.parent i = 0

theorem enter_pos {g : Globals} {c : ℕ} (hc : 0 < g.count c) : enter g c = { g with
    parent := update g.parent c 0
    diffbytes := g.diffbytes + 1
    insize := g.insize + g.count c
    n := g.n + 1
    heap := update g.heap (g.n + 1) ⟨g.count c, c⟩ } := by
  simp [enter, hc]

theorem enter_zero {g : Globals} {c : ℕ} (hc : ¬ 0 < g.count c) :
    enter g c = { g with parent := update g.parent c 0 } := by
  simp [enter, hc]

/-- What the characters of `l` have added to an empty heap. -/
structure Entering (g₀ : Globals) (l : List ℕ) (g : Globals) : Prop where
  count : g.count = g₀.count
  n : g.n = (l.filter (0 < g₀.count ·)).length
  live : (contents g.heap g.n).map item =
    (l.filter (0 < g₀.count ·) : Multiset ℕ).map fun i => (g₀.count i, i)
  insize : g.insize = (l.map g₀.count).sum
  parent : ∀ i ∈ l, g.parent i = 0

theorem Entering.enter {g₀ g : Globals} {l : List ℕ} (h : Entering g₀ l g) (c : ℕ) :
    Entering g₀ (l ++ [c]) (enter g c) := by
  have hparent : ∀ i ∈ l ++ [c], update g.parent c 0 i = 0 := by
    intro i hi
    by_cases hic : i = c
    · simp [hic]
    · rw [update_of_ne hic]
      exact h.parent i (by simpa [hic] using hi)
  by_cases hc : 0 < g.count c
  · rw [enter_pos hc]
    have hc₀ : 0 < g₀.count c := by rwa [h.count] at hc
    have hfilter : (l ++ [c]).filter (0 < g₀.count ·) = l.filter (0 < g₀.count ·) ++ [c] := by
      simp [hc₀]
    have hheap : contents (update g.heap (g.n + 1) ⟨g.count c, c⟩) (g.n + 1) =
        ⟨g.count c, c⟩ ::ₘ contents g.heap g.n := by
      rw [contents_succ, update_self]
      congr 1
      apply contents_congr
      intro i _ hi
      rw [update_of_ne (by omega)]
    constructor
    · exact h.count
    · simp [hfilter, h.n]
    · simp only
      rw [hheap, Multiset.map_cons, h.live, hfilter, ← Multiset.coe_add, Multiset.map_add,
        Multiset.add_comm, h.count]
      rfl
    · simp [h.insize, h.count]
    · exact hparent
  · rw [enter_zero hc]
    have hc₀ : g₀.count c = 0 := by
      rw [h.count] at hc
      omega
    have hfilter : (l ++ [c]).filter (0 < g₀.count ·) = l.filter (0 < g₀.count ·) := by
      simp [hc₀]
    constructor
    · exact h.count
    · rw [hfilter]
      exact h.n
    · rw [hfilter]
      exact h.live
    · simp [h.insize, hc₀]
    · exact hparent

theorem Entering.foldl {g : Globals} (hn : g.n = 0) (hsize : g.insize = 0) (l : List ℕ) :
    Entering g l (l.foldl Pack.enter g) := by
  induction l using List.reverseRecOn with
  | nil =>
    constructor
    · rfl
    · exact hn
    · simp [hn]
    · simp [hsize]
    · simp
  | append_singleton l c ih =>
    rw [List.foldl_append]
    exact ih.enter c

theorem enterAll_entering (g : Globals) :
    Entering { g with diffbytes := -1, count := update g.count END 1, insize := 0, n := 0 }
      (List.range (END + 1)).reverse (enterAll g) := Entering.foldl rfl rfl _

theorem enterAll_entered (g : Globals) : Entered (enterAll g) := by
  have h := enterAll_entering g
  have hval : (((List.range (END + 1)).reverse.filter (0 < update g.count END 1 ·) : List ℕ) :
      Multiset ℕ) = (leaves (update g.count END 1)).val := by
    rw [leaves, Finset.filter_val, Finset.range_val, Multiset.range, Multiset.filter_coe,
      List.filter_reverse, Multiset.coe_reverse]
  constructor
  · rw [h.live, h.count, hval]
  · rw [h.n, h.count, ← Multiset.coe_card, hval]
    rfl
  · intro i hi
    apply h.parent
    simp only [List.mem_reverse, List.mem_range]
    omega

theorem buildTree_spec {g : Globals} (h : Entered g) (h2 : 2 ≤ g.n) :
    ∃ lastnode parent n heap W, buildTree g = { g with lastnode, parent, n, heap } ∧
      Tree (leaves g.count) (Finset.Ioc END lastnode) lastnode parent W ∧
      (∀ v ∈ leaves g.count, W v = g.count v) ∧
      parent lastnode = 0 ∧ (∀ v ≤ END, v ∉ leaves g.count → parent v = 0) ∧
      lastnode + 1 = END + g.n ∧
      (Finset.Ioc END lastnode).val.map W =
        (joins (g.n - 1) ((leaves g.count).val.map g.count).sort : Multiset ℕ) := by
  have hle : ∀ v ∈ leaves g.count, v ≤ END := fun v hv => (mem_leaves.mp hv).1
  have hpos : ∀ v ∈ leaves g.count, 0 < g.count v := fun v hv => (mem_leaves.mp hv).2
  obtain ⟨heap₀, heq₀, hord, hcont⟩ :=
    heapifyFrom_spec (g.n / 2) g le_rfl (Ordered.of_lt (by omega))
  have hstart : Built (leaves g.count) g.count g.parent END
      (forest { g with heap := heap₀, lastnode := END }) g.count (leaves g.count) ∅ := by
    have hf : forest { g with heap := heap₀, lastnode := END } =
        ⟨(leaves g.count).val.map fun v => (g.count v, v), END, g.parent⟩ := by
      rw [← h.live, ← hcont]
      rfl
    rw [hf]
    exact Built.start hpos
  have hgreedy := Greedy.start hstart.live rfl
  obtain ⟨lastnode, parent, n, heap, W, L, D, heq, hb, hL, hlast, hM⟩ := joinAll_spec hle g.n
    { g with heap := heap₀, lastnode := END } _ _ _ (show 1 ≤ g.n by omega)
    (show g.n ≤ g.n + 1 by omega) hord hstart h.n.symm hgreedy
  have hbuild : buildTree g = { g with
      lastnode, parent := update parent lastnode 0, n, heap } := by
    simp only [buildTree, heq₀, heq]
  rw [heq] at hb hM
  have hlast' : lastnode + 1 = END + g.n := hlast
  have hfirst : END < lastnode := by omega
  have hmade := hM.made hb.live hL
  rw [← h.n] at hmade
  refine ⟨_, _, _, _, W, hbuild, (hb.tree hle hL hfirst).congr ?_, hb.weight_leaf,
    update_self .., ?_, hlast', hmade⟩
  · intro v hv
    exact update_of_ne hv ..
  · intro v hv hnot
    have hvD : v ∉ D := by
      intro hD
      rcases (hb.nodes v).mp (.inr hD) with hl | hl
      · exact hnot hl
      · omega
    rw [update_of_ne (by omega)]
    exact (hb.parent_other v hvD).trans (h.parent v hv)

end Unitas.Pack
