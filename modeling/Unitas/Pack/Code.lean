import Unitas.Pack.Packfile
import Unitas.Pack.Tree
import Unitas.Lib.LevelCode
import Mathlib.Data.Nat.Bitwise
import Mathlib.Algebra.Order.BigOperators.Group.List

/-! What `packfile` hands to `output`: lengths that are the depths of a Huffman tree with `END`
on its lowest level, and bit patterns that number the leaves of each level after its inner
nodes. -/
namespace Unitas.Pack
open Function Unitas.Huffman Unitas.LevelCode

/-- The characters with codes of length `l`, in the order of their codes. -/
def onLevel (length : ℕ → ℕ) (l : ℕ) : List ℕ := (List.range (END + 1)).filter (length · = l)

/-- Number of smaller characters with codes of the same length. -/
def rank (length : ℕ → ℕ) (c : ℕ) : ℕ := ((List.range c).filter (length · = length c)).length

/-- Leaves on each level of the tree of the code. -/
def leafCount (length : ℕ → ℕ) (l : ℕ) : ℕ := if l = 0 then 0 else (onLevel length l).length

/-- The globals when `output` is called, for a tree with `inner l` inner nodes on level `l`. -/
structure Coded (file : List UInt8) (g : Globals) (inner : ℕ → ℕ) : Prop where
  insize : g.insize = file.length
  occurs : ∀ c ∈ file, 1 ≤ g.length c.toNat
  levels : Levels inner (leafCount g.length) g.maxlev
  length_end : g.length END = g.maxlev
  length_le : ∀ c ≤ END, g.length c ≤ g.maxlev
  maxlev_pos : 1 ≤ g.maxlev
  maxlev_le : g.maxlev ≤ 24
  levcount : ∀ l, 1 ≤ l → l ≤ g.maxlev → g.levcount l = leafCount g.length l
  bits : ∀ c ≤ END, 1 ≤ g.length c →
    g.bits c = (inner (g.length c) + rank g.length c) * 2 ^ (24 - g.length c)

section Input

/-- What counting has done to the characters of a file. -/
theorem input_spec (file : List UInt8) (g : Globals) :
    ∃ count, input file g = { g with count } ∧ (∀ c < END, Even (count c)) ∧
      (∀ c ∈ file, 0 < count c.toNat) ∧
      ((List.range END).map count).sum = 2 * file.length := by
  induction file using List.reverseRecOn with
  | nil =>
    refine ⟨_, rfl, ?_, by simp, ?_⟩
    · intro c hc
      simp [hc]
    · rw [List.length_nil]
      apply List.sum_eq_zero
      intro x hx
      obtain ⟨c, hc, rfl⟩ := List.mem_map.mp hx
      simp [List.mem_range.mp hc]
  | append_singleton file c ih =>
    obtain ⟨count, heq, heven, hpos, hsum⟩ := ih
    have hstep : input (file ++ [c]) g =
        { g with count := update count c.toNat (count c.toNat + 2) } := by
      rw [input, List.foldl_append]
      change countByte (input file g) c = _
      rw [heq]
      rfl
    refine ⟨_, hstep, ?_, ?_, ?_⟩
    · intro d hd
      by_cases hdc : d = c.toNat
      · subst hdc
        rw [update_self]
        exact (heven _ hd).add even_two
      · rw [update_of_ne hdc]
        exact heven d hd
    · intro d hd
      by_cases hdc : d.toNat = c.toNat
      · rw [hdc, update_self]
        omega
      · rw [update_of_ne hdc]
        rcases List.mem_append.mp hd with hd | hd
        · exact hpos d hd
        · rw [List.mem_singleton] at hd
          exact absurd (congrArg UInt8.toNat hd) hdc
    · have hc : c.toNat ∈ List.range END := List.mem_range.mpr c.toNat_lt
      have hmap := List.sum_map_erase (update count c.toNat (count c.toNat + 2)) hc
      have hmap' := List.sum_map_erase count hc
      have hsame : ((List.range END).erase c.toNat).map
          (update count c.toNat (count c.toNat + 2)) =
          ((List.range END).erase c.toNat).map count := by
        apply List.map_congr_left
        intro d hd
        rw [update_of_ne]
        rintro rfl
        exact (List.Nodup.not_mem_erase List.nodup_range) hd
      rw [update_self, hsame] at hmap
      rw [List.length_append, List.length_singleton]
      omega

end Input

section Depth
variable {leaves inner : Finset ℕ} {root : ℕ} {parent W : ℕ → ℕ}

/-- More fuel than the distance to the root makes no difference. -/
theorem depth_fuel (ht : Tree leaves inner root parent W) (hroot : parent root = 0)
    (hle : ∀ v ∈ leaves ∪ inner, v ≤ root) :
    ∀ fuel, ∀ v ∈ leaves ∪ inner, root - v ≤ fuel →
      depth parent (fuel + 1) v = depth parent fuel v := by
  intro fuel
  induction fuel with
  | zero =>
    intro v hv hfuel
    have hvr : v = root := by
      have := hle v hv
      omega
    rw [hvr]
    simp [depth, hroot]
  | succ fuel ih =>
    intro v hv hfuel
    by_cases hvr : v = root
    · rw [hvr]
      simp [depth, hroot]
    · have hgt := ht.parent_gt v hv hvr
      have hpar := Finset.mem_union_right leaves (ht.parent_mem v hv hvr)
      have hstep : ∀ k, depth parent (k + 1) v = depth parent k (parent v) + 1 :=
        fun k => if_neg (by omega)
      rw [hstep, hstep, ih (parent v) hpar (by omega)]

theorem depth_spec (ht : Tree leaves inner root parent W) (hroot : parent root = 0)
    (hle : ∀ v ∈ leaves ∪ inner, v ≤ root) (hmax : root ≤ 2 * END) :
    Depth (leaves ∪ inner) root parent (depth parent (2 * END)) := by
  obtain ⟨k, hk⟩ : ∃ k, 2 * END = k + 1 := ⟨2 * END - 1, rfl⟩
  rw [hk] at hmax ⊢
  constructor
  · rw [depth, if_pos hroot]
  · intro v hv hvr
    have hgt := ht.parent_gt v hv hvr
    have hpar := Finset.mem_union_right leaves (ht.parent_mem v hv hvr)
    have hne : parent v ≠ 0 := by omega
    rw [depth_fuel ht hroot hle k (parent v) hpar (by omega)]
    rw [depth, if_neg hne]

end Depth

section Lengths

/-- The lengths of the characters of `l` have been assigned, and counted by levels. -/
structure Assigning (g₀ : Globals) (d : ℕ → ℕ) (l : List ℕ) (g : Globals) : Prop where
  frame : ∃ levcount length maxlev, g = { g₀ with levcount, length, maxlev }
  length : ∀ i ∈ l, g.length i = d i
  levcount : ∀ c, 1 ≤ c → c ≤ 24 → g.levcount c = (l.filter (d · = c)).length
  le_maxlev : ∀ i ∈ l, d i ≤ g.maxlev
  maxlev_le : ∀ b, (∀ i ∈ l, d i ≤ b) → g.maxlev ≤ b

theorem Assigning.assign {g₀ : Globals} {l : List ℕ} {s : Globals × ℕ} {i : ℕ}
    (h : Assigning g₀ (depth g₀.parent (2 * END)) l s.1) :
    Assigning g₀ (depth g₀.parent (2 * END)) (l ++ [i]) (assignLength s i).1 := by
  obtain ⟨levcount, length, maxlev, heq⟩ := h.frame
  have hd : depth s.1.parent (2 * END) i = depth g₀.parent (2 * END) i := by rw [heq]
  rw [assignLength, hd]
  generalize depth g₀.parent (2 * END) = d at h
  constructor
  · rw [heq]
    exact ⟨_, _, _, rfl⟩
  · intro j hj
    by_cases hji : j = i
    · simp [hji]
    · have hj' : j ∈ l := by simpa [hji] using hj
      simp only [update_of_ne hji]
      exact h.length j hj'
  · intro c h1 h24
    by_cases hc : d i = c
    · subst hc
      simp [h.levcount _ h1 h24]
    · simp [update_of_ne (Ne.symm hc), h.levcount _ h1 h24, hc]
  · intro j hj
    have hj' : j ∈ l ∨ j = i := by simpa using hj
    dsimp only
    rcases hj' with hj' | rfl
    · have := h.le_maxlev j hj'
      split_ifs <;> omega
    · split_ifs <;> omega
  · intro b hb
    have hi := hb i (by simp)
    have hl := h.maxlev_le b fun j hj => hb j (by simp [hj])
    dsimp only
    split_ifs <;> omega

theorem assignLengths_spec (g : Globals) :
    ∃ levcount length maxlev, (assignLengths g).1 = { g with levcount, length, maxlev } ∧
      (∀ i ≤ END, length i = depth g.parent (2 * END) i) ∧
      (∀ l, 1 ≤ l → l ≤ 24 → levcount l = (onLevel length l).length) ∧
      (∀ i ≤ END, length i ≤ maxlev) ∧
      ∀ b, (∀ i ≤ END, length i ≤ b) → maxlev ≤ b := by
  have h : ∀ l : List ℕ, Assigning g (depth g.parent (2 * END)) l (l.foldl assignLength
      ({ g with maxlev := 0, levcount := fun i => if 1 ≤ i ∧ i ≤ 24 then 0 else g.levcount i },
        0)).1 := by
    intro l
    induction l using List.reverseRecOn with
    | nil =>
      constructor
      · exact ⟨_, _, _, rfl⟩
      · simp
      · intro c h1 h24
        simp [h1, h24]
      · simp
      · simp
    | append_singleton l i ih =>
      rw [List.foldl_append]
      exact ih.assign
  have hr := h (List.range (END + 1))
  obtain ⟨levcount, length, maxlev, heq⟩ := hr.frame
  have hmem : ∀ i, i ∈ List.range (END + 1) ↔ i ≤ END := by
    intro i
    rw [List.mem_range, Nat.lt_succ_iff]
  rw [heq] at hr
  have hlen : ∀ i ≤ END, length i = depth g.parent (2 * END) i :=
    fun i hi => hr.length i ((hmem i).mpr hi)
  refine ⟨levcount, length, maxlev, heq, hlen, ?_, ?_, ?_⟩
  · intro l h1 h24
    apply (hr.levcount l h1 h24).trans
    rw [onLevel]
    congr 1
    apply List.filter_congr
    intro i hi
    rw [hlen i ((hmem i).mp hi)]
  · intro i hi
    rw [hlen i hi]
    exact hr.le_maxlev i ((hmem i).mpr hi)
  · intro b hb
    apply hr.maxlev_le
    intro i hi
    rw [← hlen i ((hmem i).mp hi)]
    exact hb i ((hmem i).mp hi)

end Lengths

section Bits

/-- One level: the characters below `k` have got consecutive numbers from `start` on. -/
theorem assignLevel_spec (i inc start : ℕ) (g : Globals) (k : ℕ) :
    ∃ bits, (List.range k).foldl (assignBit i inc) (start * inc, g) =
        ((start + ((List.range k).filter (g.length · = i)).length) * inc, { g with bits }) ∧
      ∀ c, bits c = if c < k ∧ g.length c = i then (start + rank g.length c) * inc
        else g.bits c := by
  induction k with
  | zero => exact ⟨g.bits, by simp, by simp⟩
  | succ k ih =>
    obtain ⟨bits, heq, hbits⟩ := ih
    rw [List.range_succ, List.foldl_append, heq, List.foldl_cons, List.foldl_nil, assignBit]
    by_cases hk : g.length k = i
    · have hrank : rank g.length k = ((List.range k).filter (g.length · = i)).length := by
        rw [rank, hk]
      refine ⟨update bits k ((start + rank g.length k) * inc), ?_, ?_⟩
      · simp only [hk, if_true, hrank]
        congr 1
        simp only [List.filter_append, List.filter_cons, hk, decide_true, if_true,
          List.filter_nil, List.length_append, List.length_cons, List.length_nil]
        ring
      · intro c
        by_cases hck : c = k
        · subst hck
          simp [hk]
        · have hlt : c < k + 1 ↔ c < k := by omega
          simp only [update_of_ne hck, hbits, hlt]
    · refine ⟨bits, ?_, ?_⟩
      · simp [hk]
      · intro c
        rw [hbits]
        by_cases hck : c = k
        · subst hck
          simp [hk]
        · have hlt : c < k + 1 ↔ c < k := by omega
          simp only [hlt]

/-- Clearing a bit that is not set. -/
theorem ldiff_two_pow (a e : ℕ) : (a * 2 ^ (e + 1)).ldiff (2 ^ e) = a * 2 ^ (e + 1) := by
  apply Nat.eq_of_testBit_eq
  intro j
  rw [Nat.testBit_ldiff, Nat.testBit_two_pow]
  by_cases hj : e = j
  · subst hj
    simp [Nat.testBit_mul_two_pow]
  · simp [hj]

theorem assignBits_spec {inner : ℕ → ℕ} {maxlev : ℕ} (length : ℕ → ℕ)
    (hlev : Levels inner (leafCount length) maxlev) :
    ∀ i ≤ 24, ∀ g, g.length = length →
      ∃ bits, assignBits i (2 ^ (24 - i)) (inner i * 2 ^ (24 - i)) g = { g with bits } ∧
        ∀ c ≤ END, 1 ≤ length c → bits c =
          if length c ≤ i then (inner (length c) + rank length c) * 2 ^ (24 - length c)
          else g.bits c := by
  intro i
  induction i with
  | zero =>
    intro _ g _
    refine ⟨g.bits, rfl, fun c _ h1 => ?_⟩
    rw [if_neg (by omega)]
  | succ i ih =>
    intro hi g hg
    obtain ⟨bits, heq, hbits⟩ := assignLevel_spec (i + 1) (2 ^ (24 - (i + 1))) (inner (i + 1)) g
      (END + 1)
    subst hg
    have hcount : inner (i + 1) + ((List.range (END + 1)).filter (g.length · = i + 1)).length =
        2 * inner i := hlev.children i
    have hpow : 24 - i = 24 - (i + 1) + 1 := by omega
    have hmask : 2 * inner i * 2 ^ (24 - (i + 1)) = inner i * 2 ^ (24 - i) := by
      rw [hpow, Nat.pow_succ]
      ring
    have hclear : (inner i * 2 ^ (24 - i)).ldiff (2 ^ (24 - (i + 1))) = inner i * 2 ^ (24 - i) := by
      rw [hpow]
      exact ldiff_two_pow _ _
    have hinc : 2 * 2 ^ (24 - (i + 1)) = 2 ^ (24 - i) := by
      rw [hpow, Nat.pow_succ]
      ring
    rw [hcount, hmask] at heq
    obtain ⟨bits', heq', hbits'⟩ := ih (by omega) { g with bits } rfl
    refine ⟨bits', ?_, ?_⟩
    · rw [assignBits, heq]
      dsimp only
      rw [hclear, hinc]
      exact heq'
    · intro c hc h1
      rw [hbits' c hc h1]
      by_cases hle : g.length c ≤ i
      · rw [if_pos hle, if_pos (by omega)]
      · rw [if_neg hle]
        simp only [hbits]
        by_cases hlc : g.length c = i + 1
        · rw [if_pos ⟨by omega, hlc⟩, if_pos (by omega), hlc]
        · rw [if_neg (by rintro ⟨_, h⟩; exact hlc h), if_neg (by omega)]

end Bits

section Prepare

/-- The leaves of the tree on a level, as the characters with codes of this length. -/
theorem onLevel_eq {count length d : ℕ → ℕ} {l : ℕ} (hl : 1 ≤ l)
    (hlen : ∀ i ≤ END, length i = d i) (habsent : ∀ i ≤ END, i ∉ leaves count → d i = 0) :
    {v ∈ leaves count | d v = l}.card = leafCount length l := by
  have hset : {v ∈ leaves count | d v = l} = {v ∈ Finset.range (END + 1) | length v = l} := by
    ext v
    rw [Finset.mem_filter, Finset.mem_filter, Finset.mem_range, Nat.lt_succ_iff]
    constructor
    · rintro ⟨hv, hd⟩
      have hle := (mem_leaves.mp hv).1
      exact ⟨hle, by rw [hlen v hle, hd]⟩
    · rintro ⟨hle, hlv⟩
      rw [hlen v hle] at hlv
      refine ⟨?_, hlv⟩
      by_contra hnot
      have := habsent v hle hnot
      omega
  rw [hset, leafCount, if_neg (by omega), onLevel]
  rfl

/-- The tree of which the lengths are the depths of the leaves. -/
structure LengthTree (g : Globals) (length : ℕ → ℕ) (root : ℕ) (parent W d : ℕ → ℕ) : Prop where
  tree : Tree (leaves g.count) (Finset.Ioc END root) root parent W
  depth : Depth (leaves g.count ∪ Finset.Ioc END root) root parent d
  weight : ∀ v ∈ leaves g.count, W v = g.count v
  length : ∀ i ≤ END, length i = d i
  absent : ∀ i ≤ END, i ∉ leaves g.count → d i = 0
  made : (Finset.Ioc END root).val.map W =
    (joins (g.n - 1) ((leaves g.count).val.map g.count).sort : Multiset ℕ)

theorem lengths_tree {g : Globals} (h : Entered g) (h2 : 2 ≤ g.n) :
    ∃ lastnode parent n heap levcount length maxlev W d,
      (buildTree g).parent = parent ∧
      (assignLengths (buildTree g)).1 =
        { g with lastnode, parent, n, heap, levcount, length, maxlev } ∧
      LengthTree g length lastnode parent W d ∧
      (∀ l, 1 ≤ l → l ≤ 24 → levcount l = (onLevel length l).length) ∧
      (∀ i ≤ END, length i ≤ maxlev) ∧ ∀ b, (∀ i ≤ END, length i ≤ b) → maxlev ≤ b := by
  obtain ⟨lastnode, parent, n, heap, W, hbuild, ht, hW, hroot, habsent, hlast, hmade⟩ :=
    buildTree_spec h h2
  obtain ⟨levcount, length, maxlev, heq, hlen, hlev, hle, hleast⟩ := assignLengths_spec (buildTree g)
  rw [hbuild] at heq hlen
  have hcard : g.n ≤ END + 1 := by
    have := Finset.card_filter_le (Finset.range (END + 1)) (0 < g.count ·)
    rw [Finset.card_range] at this
    exact h.n.trans_le this
  have hnodes : ∀ v ∈ leaves g.count ∪ Finset.Ioc END lastnode, v ≤ lastnode := by
    intro v hv
    rcases Finset.mem_union.mp hv with hv | hv
    · have := (mem_leaves.mp hv).1
      omega
    · exact (Finset.mem_Ioc.mp hv).2
  refine ⟨lastnode, parent, n, heap, levcount, length, maxlev, W, depth parent (2 * END),
    by rw [hbuild], by rw [hbuild]; exact heq, ?_, hlev, hle, hleast⟩
  constructor
  · exact ht
  · exact depth_spec ht hroot hnodes (by omega)
  · exact hW
  · exact hlen
  · intro i hi hnot
    rw [show 2 * END = 511 + 1 from rfl, depth, if_pos (habsent i hi hnot)]
  · exact hmade

section LengthTree
variable {g : Globals} {length : ℕ → ℕ} {root : ℕ} {parent W d : ℕ → ℕ}

/-- With the one odd count, `END` is as deep as any other node. -/
theorem LengthTree.deepest (h : LengthTree g length root parent W d) (hend : g.count END = 1)
    (hlight : ∀ c < END, g.count c ≠ 1) :
    ∀ v ∈ leaves g.count ∪ Finset.Ioc END root, d v ≤ d END := by
  have hmemEnd : END ∈ leaves g.count := mem_leaves.mpr ⟨le_rfl, by omega⟩
  apply h.tree.depth_le_lightest h.depth hmemEnd
  intro v hv hne
  have hv' := mem_leaves.mp hv
  have := hlight v (by omega)
  rw [h.weight v hv, h.weight END hmemEnd, hend]
  omega

theorem LengthTree.length_le_end (h : LengthTree g length root parent W d)
    (hend : g.count END = 1) (hlight : ∀ c < END, g.count c ≠ 1) :
    ∀ i ≤ END, length i ≤ length END := by
  intro i hi
  rw [h.length i hi, h.length END le_rfl]
  by_cases hmem : i ∈ leaves g.count
  · exact h.deepest hend hlight i (Finset.mem_union_left _ hmem)
  · have := h.absent i hi hmem
    omega

end LengthTree

/-- The lengths come from a Huffman tree. -/
theorem lengths_spec {g : Globals} (h : Entered g) (h2 : 2 ≤ g.n) (hend : g.count END = 1)
    (hlight : ∀ c < END, g.count c ≠ 1) :
    ∃ lastnode parent n heap levcount length maxlev inner,
      (assignLengths (buildTree g)).1 =
        { g with lastnode, parent, n, heap, levcount, length, maxlev } ∧
      (∀ c ≤ END, 0 < g.count c → 1 ≤ length c) ∧
      Levels inner (leafCount length) maxlev ∧ length END = maxlev ∧
      (∀ c ≤ END, length c ≤ maxlev) ∧
      ∀ l, 1 ≤ l → l ≤ 24 → levcount l = leafCount length l := by
  obtain ⟨lastnode, parent, n, heap, levcount, length, maxlev, W, d, -, heq, ht, hlev, hle,
    hleast⟩ := lengths_tree h h2
  have hmax : length END = maxlev :=
    le_antisymm (hle END le_rfl) (hleast _ (ht.length_le_end hend hlight))
  refine ⟨lastnode, parent, n, heap, levcount, length, maxlev,
    fun l => {p ∈ Finset.Ioc END lastnode | d p = l}.card, heq, ?_, ?_, hmax, hle, ?_⟩
  · intro c hc hpos
    have hmem : c ∈ leaves g.count := mem_leaves.mpr ⟨hc, hpos⟩
    have hroot := Finset.mem_Ioc.mp ht.tree.root_mem
    have hne : c ≠ lastnode := by omega
    rw [ht.length c hc, ht.depth.succ c (Finset.mem_union_left _ hmem) hne]
    omega
  · constructor
    · exact ht.tree.card_inner_zero ht.depth
    · intro l
      rw [← ht.tree.card_level_succ ht.depth l, ht.tree.card_level,
        onLevel_eq (by omega) ht.length ht.absent, Nat.add_comm]
    · have hbelow := ht.tree.card_level_succ ht.depth maxlev
      rw [Finset.card_eq_zero.mpr] at hbelow
      · omega
      · rw [Finset.filter_eq_empty_iff]
        intro v hv
        have := ht.deepest hend hlight v hv
        rw [← ht.length END le_rfl, hmax] at this
        omega
  · intro l h1 h24
    rw [hlev l h1 h24, leafCount, if_neg (by omega)]

theorem prepare_none {BUFSIZ : ℕ} {force : Bool} {f : File} {g₀ g g₁ : Globals}
    (h : prepare BUFSIZ force f g₀ = (none, g)) (h₁ : enterAll (input f.bytes g₀) = g₁) :
    let g₂ := (assignLengths (buildTree { g₁ with insize := g₁.insize / 2 })).1
    g₂.maxlev ≤ 24 ∧ assignBits g₂.maxlev (2 ^ 24 >>> g₂.maxlev) 0 g₂ = g := by
  unfold prepare at h
  dsimp only at h ⊢
  rw [h₁] at h
  split_ifs at h with _ _ hlev _
  · cases h
  · cases h
  · cases h
  · cases h
  · exact ⟨by omega, (Prod.mk.inj h).2⟩

/-- Whatever was in the globals before, `output` is reached with a code for the file. -/
theorem prepare_coded {BUFSIZ : ℕ} {force : Bool} {f : File} {g₀ g : Globals}
    (hne : f.bytes ≠ []) (h : prepare BUFSIZ force f g₀ = (none, g)) :
    ∃ inner, Coded f.bytes g inner := by
  obtain ⟨count, hinput, heven, hpos, hsum⟩ := input_spec f.bytes g₀
  have hent := enterAll_entered (input f.bytes g₀)
  have henter := enterAll_entering (input f.bytes g₀)
  obtain ⟨hmax, hg⟩ := prepare_none h rfl
  set g₁ := enterAll (input f.bytes g₀)
  clear_value g₁
  have hcount : g₁.count = update count END 1 := by
    rw [henter.count, hinput]
  have hinsize : g₁.insize = 2 * f.bytes.length + 1 := by
    rw [henter.insize, List.map_reverse, List.sum_reverse, List.range_succ, List.map_append,
      List.sum_append, hinput]
    have hmap : (List.range END).map (update count END 1) = (List.range END).map count := by
      apply List.map_congr_left
      intro c hc
      rw [update_of_ne]
      exact (List.mem_range.mp hc).ne
    simp only [hmap, hsum, List.map_cons, List.map_nil, List.sum_cons, List.sum_nil, update_self]
    omega
  have hn : 2 ≤ g₁.n := by
    obtain ⟨c, hc⟩ := List.exists_mem_of_ne_nil _ hne
    rw [hent.n, hcount]
    have hsub : {c.toNat, END} ⊆ leaves (update count END 1) := by
      intro i hi
      rw [Finset.mem_insert, Finset.mem_singleton] at hi
      rw [mem_leaves]
      have hlt : c.toNat < END := c.toNat_lt
      rcases hi with rfl | rfl
      · rw [update_of_ne hlt.ne]
        exact ⟨hlt.le, hpos c hc⟩
      · simp
    have hlt : c.toNat < END := c.toNat_lt
    have := Finset.card_le_card hsub
    rwa [Finset.card_pair hlt.ne] at this
  have hent' : Entered { g₁ with insize := g₁.insize / 2 } := ⟨hent.live, hent.n, hent.parent⟩
  obtain ⟨lastnode, parent, n, heap, levcount, length, maxlev, inner, heq, hocc, hlevels, hend,
    hle, hlev⟩ := lengths_spec hent' hn (by simp [hcount]) (by
      intro c hc
      rw [hcount, update_of_ne hc.ne]
      obtain ⟨k, hk⟩ := heven c hc
      omega)
  rw [heq] at hmax hg
  dsimp only at hmax hg
  obtain ⟨bits, hbits, hval⟩ := assignBits_spec length hlevels maxlev (by omega)
    { g₁ with
      insize := g₁.insize / 2, lastnode, parent, n, heap, levcount, length, maxlev } rfl
  rw [hlevels.bottom, Nat.zero_mul] at hbits
  have hshift : 2 ^ 24 >>> maxlev = 2 ^ (24 - maxlev) := by
    rw [Nat.shiftRight_eq_div_pow, Nat.pow_div (by omega) (by omega)]
  rw [hshift, hbits] at hg
  have hpos_end : 1 ≤ length END := hocc END le_rfl (by simp [hcount])
  refine ⟨inner, ?_⟩
  rw [← hg]
  constructor
  · show g₁.insize / 2 = f.bytes.length
    omega
  · intro c hc
    have hlt : c.toNat < END := c.toNat_lt
    apply hocc c.toNat hlt.le
    rw [hcount, update_of_ne hlt.ne]
    exact hpos c hc
  · exact hlevels
  · exact hend
  · exact hle
  · show 1 ≤ maxlev
    omega
  · show maxlev ≤ 24
    omega
  · intro l h1 hl
    exact hlev l h1 (le_trans hl (by omega))
  · intro c hc h1
    exact (hval c hc h1).trans (if_pos (hle c hc))

end Prepare

end Unitas.Pack
