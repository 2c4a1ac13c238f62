import Unitas.Lib.HuffmanCode
import Unitas.Pack.Code
import Unitas.Lib.HuffmanDepth

/-! No code for the counts of a file is shorter than the one that `packfile` makes, as long as
`levcount` has room for its levels. -/
namespace Unitas.Pack
open Function Unitas.Huffman Unitas.PrefixCode

/-- `packfile` from the counts of the bytes to the lengths of their codes. -/
def codeLengths (g : Globals) : Globals :=
  let g := enterAll g
  (assignLengths (buildTree { g with insize := g.insize / 2 })).1

/-- Two characters at least: `END`, and one that occurs. -/
theorem two_le_card_leaves {count : ℕ → ℕ} {c : ℕ} (hc : c < END) (hpos : 0 < count c)
    (hend : 0 < count END) : 2 ≤ (leaves count).card := by
  have hsub : {c, END} ⊆ leaves count := by
    intro i hi
    rw [Finset.mem_insert, Finset.mem_singleton] at hi
    rw [mem_leaves]
    rcases hi with rfl | rfl
    · exact ⟨hc.le, hpos⟩
    · exact ⟨le_rfl, hend⟩
  have := Finset.card_le_card hsub
  rwa [Finset.card_pair hc.ne] at this

/-- The tree for any counts, with what `packfile` makes of it. -/
theorem codeLengths_tree (g : Globals) (hsome : ∃ c < END, g.count c ≠ 0) :
    let g₁ := { enterAll g with insize := (enterAll g).insize / 2 }
    ∃ root parent W d, g₁.count = update g.count END 1 ∧
      (codeLengths g).count = update g.count END 1 ∧ g₁.n = (leaves (codeLengths g).count).card ∧
      (buildTree g₁).parent = parent ∧ LengthTree g₁ (codeLengths g).length root parent W d ∧
      (∀ i ≤ END, (codeLengths g).length i ≤ (codeLengths g).maxlev) ∧
      ∀ b, (∀ i ≤ END, (codeLengths g).length i ≤ b) → (codeLengths g).maxlev ≤ b := by
  have hent := enterAll_entered g
  have hcount : (enterAll g).count = update g.count END 1 := (enterAll_entering g).count
  unfold codeLengths
  dsimp only
  set g₁ := enterAll g
  clear_value g₁
  obtain ⟨c, hc, hne⟩ := hsome
  have h2 : 2 ≤ g₁.n := by
    rw [hent.n, hcount]
    apply two_le_card_leaves hc
    · rw [update_of_ne hc.ne]
      omega
    · simp
  have hent' : Entered { g₁ with insize := g₁.insize / 2 } := ⟨hent.live, hent.n, hent.parent⟩
  obtain ⟨lastnode, parent, n, heap, levcount, length, maxlev, W, d, hparent, heq, ht, -, hle,
    hleast⟩ := lengths_tree hent' h2
  rw [heq]
  exact ⟨lastnode, parent, W, d, hcount, hcount, hent.n, hparent, ht, hle, hleast⟩

/-! ### Levels

How deep the tree of a file gets. `levcount` has room for 24 levels, and a file has to be
much smaller than the comment at `too many levels` says for them to be enough. -/

/-- The globals when `packfile` starts to walk along `parent`, if it does not return before. -/
def walked (f : File) (g : Globals) : Option Globals :=
  let g := input f.bytes g
  if f.inputErr then none
  else
    let g := enterAll g
    if g.diffbytes = 1 then none
    else some (buildTree { g with insize := g.insize / 2 })

/-- Every `c` of `levcount[c]++` is in `levcount`, and `too many levels` is not said. -/
def Fits (BUFSIZ : ℕ) (force : Bool) (f : File) (g : Globals) : Prop :=
  (∀ t, walked f g = some t → ∀ i ≤ END, depth t.parent (2 * END) i ≤ 24) ∧
    (prepare BUFSIZ force f g).1 ≠ some .tooManyLevels

/-- The counts of a table, as the heap gets them. -/
def countWeights (count : ℕ → ℕ) : List ℕ := ((List.range END).map count).filter (0 < ·) ++ [1]

/-- How often the one odd weight is joined when the two least are replaced by their sum until one
is left. -/
def oddJoins (ws : List ℕ) : ℕ :=
  ((joins (ws.length - 1) (ws.insertionSort (· ≤ ·))).filter (· % 2 = 1)).length

def weights (file : List UInt8) : List ℕ :=
  countWeights fun c => 2 * file.count (UInt8.ofNat c)

def endJoins (file : List UInt8) : ℕ := oddJoins (weights file)

section Counts

theorem input_count (file : List UInt8) (g : Globals) (i : ℕ) :
    (input file g).count i =
      if i < END then 2 * file.count (UInt8.ofNat i) else g.count i := by
  induction file using List.reverseRecOn with
  | nil => simp [input]
  | append_singleton file c ih =>
    have hstep : (input (file ++ [c]) g).count =
        update (input file g).count c.toNat ((input file g).count c.toNat + 2) := by
      unfold input
      rw [List.foldl_append]
      rfl
    have hc : c.toNat < END := c.toNat_lt
    rw [hstep]
    by_cases hic : i = c.toNat
    · subst hic
      rw [update_self, ih]
      simp [hc, UInt8.ofNat_toNat, Nat.mul_add]
    · rw [update_of_ne hic, ih]
      split_ifs with hi
      · have hne : ¬ c = UInt8.ofNat i := by
          rintro rfl
          apply hic
          rw [UInt8.toNat_ofNat']
          exact (Nat.mod_eq_of_lt hi).symm
        simp [hne]
      · rfl

theorem enterAll_diffbytes (g : Globals) : (enterAll g).diffbytes = (enterAll g).n - 1 := by
  have hstep : ∀ (l : List ℕ) (g : Globals), g.diffbytes = g.n - 1 →
      (l.foldl enter g).diffbytes = (l.foldl enter g).n - 1 := by
    intro l
    induction l with
    | nil => exact fun g h => h
    | cons c l ih =>
      intro g h
      rw [List.foldl_cons]
      apply ih
      by_cases hc : 0 < g.count c
      · rw [enter_pos hc]
        dsimp only
        push_cast
        omega
      · rw [enter_zero hc]
        exact h
  exact hstep _ _ rfl

/-- The weights of the leaves are the counts of the table. -/
theorem leaves_countWeights (count : ℕ → ℕ) :
    (leaves (update count END 1)).val.map (update count END 1) =
      (countWeights count : Multiset ℕ) := by
  have hval : (leaves (update count END 1)).val =
      ((List.range (END + 1)).filter (0 < update count END 1 ·) : Multiset ℕ) := by
    rw [leaves, Finset.filter_val, Finset.range_val, Multiset.range, Multiset.filter_coe]
  rw [hval, Multiset.map_coe]
  apply congrArg (fun l : List ℕ => (l : Multiset ℕ))
  unfold countWeights
  rw [List.range_succ, List.filter_append, List.map_append, List.filter_map]
  apply congrArg₂ (· ++ ·)
  · have hsame : ∀ c ∈ List.range END, update count END 1 c = count c := by
      intro c hc
      rw [List.mem_range] at hc
      rw [update_of_ne hc.ne]
    rw [List.filter_congr fun c hc => by rw [hsame c hc]]
    apply List.map_congr_left
    intro c hc
    exact hsame c (List.mem_of_mem_filter hc)
  · simp

theorem card_countWeights (count : ℕ → ℕ) :
    (leaves (update count END 1)).card = (countWeights count).length := by
  rw [← Multiset.coe_card, ← leaves_countWeights, Multiset.card_map]
  rfl

theorem sort_weights (ws : List ℕ) : (ws : Multiset ℕ).sort = ws.insertionSort (· ≤ ·) := by
  apply eq_of_sorted
  · exact Multiset.pairwise_sort _ _
  · exact List.pairwise_insertionSort _ _
  · rw [← Multiset.coe_eq_coe, Multiset.sort_eq, Multiset.coe_eq_coe]
    exact (List.perm_insertionSort _ _).symm

/-- The nodes above `END` are the joins of the odd weight. -/
theorem card_odd {ws : List ℕ} {root : ℕ} {W : ℕ → ℕ}
    (hmade : (Finset.Ioc END root).val.map W =
      (joins (ws.length - 1) (ws : Multiset ℕ).sort : Multiset ℕ)) :
    {p ∈ Finset.Ioc END root | Odd (W p)}.card = oddJoins ws := by
  rw [sort_weights] at hmade
  have hodd : {p ∈ Finset.Ioc END root | Odd (W p)}.card =
      (((Finset.Ioc END root).val.map W).filter (· % 2 = 1)).card := by
    rw [Multiset.filter_map, Multiset.card_map, Finset.card_def, Finset.filter_val]
    apply congrArg
    apply Multiset.filter_congr
    intro p _
    exact Nat.odd_iff
  rw [hodd, hmade, Multiset.filter_coe, Multiset.coe_card]
  rfl

variable (f : File) (g : Globals)

theorem countWeights_input : countWeights (input f.bytes g).count = weights f.bytes := by
  have hsame : ∀ c ∈ List.range END,
      (input f.bytes g).count c = 2 * f.bytes.count (UInt8.ofNat c) := by
    intro c hc
    rw [input_count, if_pos (List.mem_range.mp hc)]
  unfold weights countWeights
  rw [List.map_congr_left hsame]

theorem leaves_weights :
    (leaves (enterAll (input f.bytes g)).count).val.map (enterAll (input f.bytes g)).count =
      (weights f.bytes : Multiset ℕ) := by
  rw [(enterAll_entering (input f.bytes g)).count, ← countWeights_input f g]
  exact leaves_countWeights _

theorem length_weights : (enterAll (input f.bytes g)).n = (weights f.bytes).length := by
  rw [(enterAll_entered _).n, ← Multiset.coe_card, ← leaves_weights f g, Multiset.card_map]
  rfl

theorem sum_weights (file : List UInt8) : (weights file).sum = 2 * file.length + 1 := by
  obtain ⟨count, heq, -, -, hsum⟩ := input_spec file Globals.loaded
  have hcount : ∀ c ∈ List.range END, count c = 2 * file.count (UInt8.ofNat c) := by
    intro c hc
    have := input_count file Globals.loaded c
    rw [heq, if_pos (List.mem_range.mp hc)] at this
    exact this
  rw [List.map_congr_left hcount] at hsum
  unfold weights countWeights
  rw [List.sum_append, ← hsum, List.sum_singleton]
  apply congrArg (· + 1)
  generalize (List.range END).map _ = ws
  induction ws with
  | nil => rfl
  | cons w ws ih =>
    by_cases hw : 0 < w
    · rw [List.filter_cons_of_pos (by simpa using hw), List.sum_cons, List.sum_cons, ih]
    · rw [List.filter_cons_of_neg (by simpa using hw), List.sum_cons, ih]
      omega

end Counts

section Depth

theorem assignLengths_length (g : Globals) :
    ∀ i ≤ END, (assignLengths g).1.length i = depth g.parent (2 * END) i := by
  obtain ⟨levcount, length, maxlev, heq, hlen, -⟩ := assignLengths_spec g
  rw [heq]
  exact hlen

theorem assignLengths_maxlev (g : Globals) (b : ℕ) :
    (assignLengths g).1.maxlev ≤ b ↔ ∀ i ≤ END, depth g.parent (2 * END) i ≤ b := by
  obtain ⟨levcount, length, maxlev, heq, hlen, -, hle, hleast⟩ := assignLengths_spec g
  rw [heq]
  constructor
  · intro hb i hi
    rw [← hlen i hi]
    exact (hle i hi).trans hb
  · intro hb
    apply hleast
    intro i hi
    rw [hlen i hi]
    exact hb i hi

variable {BUFSIZ : ℕ} {force : Bool} {f : File} {g : Globals}

theorem fits_of_none (h : walked f g = none) : Fits BUFSIZ force f g := by
  constructor
  · intro t ht
    rw [h] at ht
    cases ht
  · unfold walked at h
    unfold prepare
    dsimp only at h ⊢
    split_ifs at h ⊢ <;> simp

theorem fits_of_some {t : Globals} (h : walked f g = some t) :
    Fits BUFSIZ force f g ↔ ∀ i ≤ END, depth t.parent (2 * END) i ≤ 24 := by
  constructor
  · intro hfits
    exact hfits.1 t h
  · intro hdepth
    constructor
    · intro t' ht'
      rw [h] at ht'
      cases ht'
      exact hdepth
    · have hmax := (assignLengths_maxlev t 24).mpr hdepth
      unfold walked at h
      unfold prepare
      dsimp only at h ⊢
      split_ifs at h with hread htrivial
      rw [Option.some.injEq] at h
      rw [if_neg hread, if_neg htrivial, h, if_neg (not_lt.mpr hmax)]
      split_ifs <;> simp

/-- The empty file, which `main` does not let through, has a tree without levels. -/
theorem depth_of_one {t : Globals} (h : walked f g = some t) (hnil : f.bytes = []) :
    ∀ i ≤ END, depth t.parent (2 * END) i = 0 := by
  unfold walked at h
  dsimp only at h
  split_ifs at h with hread htrivial
  rw [Option.some.injEq] at h
  have hent := enterAll_entered (input f.bytes g)
  have hn : (enterAll (input f.bytes g)).n = 1 := by
    rw [length_weights, hnil]
    rfl
  intro i hi
  have hparent : t.parent i = 0 := by
    rw [← h]
    unfold buildTree
    dsimp only
    rw [hn, show 1 / 2 = 0 from rfl]
    unfold heapifyFrom
    dsimp only
    rw [joinAll, if_neg (lt_irrefl 1)]
    dsimp only
    by_cases hiE : i = END
    · rw [hiE, update_self]
    · rw [update_of_ne hiE]
      exact hent.parent i hi
  rw [show 2 * END = 511 + 1 from rfl, depth, if_pos hparent]

/-- The tree of a file that is not empty. -/
theorem walked_tree {t : Globals} (h : walked f g = some t) (hne : f.bytes ≠ []) :
    ∃ root W d,
      (∀ i ≤ END, depth t.parent (2 * END) i ≤ d END) ∧ depth t.parent (2 * END) END = d END ∧
      Tree (leaves (enterAll (input f.bytes g)).count) (Finset.Ioc END root) root t.parent W ∧
      Depth (leaves (enterAll (input f.bytes g)).count ∪ Finset.Ioc END root) root t.parent d ∧
      OddLeaf (leaves (enterAll (input f.bytes g)).count) W END ∧
      (∑ v ∈ leaves (enterAll (input f.bytes g)).count, W v) = 2 * f.bytes.length + 1 ∧
      {p ∈ Finset.Ioc END root | Odd (W p)}.card = endJoins f.bytes := by
  have hcount := (enterAll_entering (input f.bytes g)).count
  dsimp only at hcount
  have heven : ∀ c < END, Even ((input f.bytes g).count c) := by
    intro c hc
    rw [input_count, if_pos hc]
    exact even_two_mul _
  have hsome : ∃ c < END, (input f.bytes g).count c ≠ 0 := by
    obtain ⟨c, hc⟩ := List.exists_mem_of_ne_nil _ hne
    have hlt : c.toNat < END := c.toNat_lt
    refine ⟨c.toNat, hlt, ?_⟩
    rw [input_count, if_pos hlt, UInt8.ofNat_toNat]
    have := List.count_pos_iff.mpr hc
    omega
  obtain ⟨root, parent, W, d, hcount', -, hn, hparent, ht, -, -⟩ := codeLengths_tree _ hsome
  unfold walked at h
  dsimp only at h hcount' hn hparent
  split_ifs at h with hread htrivial
  rw [Option.some.injEq] at h
  rw [h] at hparent
  subst hparent
  have hend : (enterAll (input f.bytes g)).count END = 1 := by
    rw [hcount']
    simp
  have hlight : ∀ c < END, Even ((enterAll (input f.bytes g)).count c) := by
    intro c hc
    rw [hcount', update_of_ne hc.ne]
    exact heven c hc
  have hdeep := ht.length_le_end (by dsimp only; exact hend) (by
    intro c hc hone
    obtain ⟨k, hk⟩ := hlight c hc
    dsimp only at hone
    omega)
  have hlen : ∀ i ≤ END, (codeLengths (input f.bytes g)).length i =
      depth t.parent (2 * END) i := by
    unfold codeLengths
    dsimp only
    rw [h]
    exact assignLengths_length t
  have hweight := ht.weight
  dsimp only at hweight
  have hmap : (leaves (enterAll (input f.bytes g)).count).val.map W =
      (weights f.bytes : Multiset ℕ) := by
    rw [← leaves_weights f g]
    apply Multiset.map_congr rfl
    intro v hv
    exact hweight v hv
  have hmemEnd : END ∈ leaves (enterAll (input f.bytes g)).count := by
    apply mem_leaves.mpr
    constructor
    · exact le_refl END
    · rw [hend]
      exact Nat.one_pos
  have htree := ht.tree
  have hdepth := ht.depth
  dsimp only at htree hdepth
  refine ⟨root, W, d, ?_, ?_, htree, hdepth, ⟨hmemEnd, ?_, ?_⟩, ?_, ?_⟩
  · intro i hi
    rw [← hlen i hi, ← ht.length END le_rfl]
    exact hdeep i hi
  · rw [← hlen END le_rfl]
    exact ht.length END le_rfl
  · rw [hweight END hmemEnd, hend]
    exact odd_one
  · intro v hv hve
    rw [hweight v hv]
    have := (mem_leaves.mp hv).1
    exact hlight v (by omega)
  · change ((leaves (enterAll (input f.bytes g)).count).val.map W).sum = _
    rw [hmap, Multiset.sum_coe, sum_weights]
  · have hmade := ht.made
    dsimp only at hmade
    rw [leaves_weights, length_weights] at hmade
    exact card_odd hmade

/-- A file has at most 24 levels exactly when `END` is joined at most 24 times. -/
theorem fits_iff (BUFSIZ : ℕ) (force : Bool) (f : File) (g : Globals) :
    Fits BUFSIZ force f g ↔ f.inputErr = true ∨ endJoins f.bytes ≤ 24 := by
  cases hw : walked f g with
  | none =>
    refine ⟨fun _ => ?_, fun _ => fits_of_none hw⟩
    unfold walked at hw
    dsimp only at hw
    split_ifs at hw with hread htrivial
    · exact Or.inl hread
    · right
      rw [enterAll_diffbytes, length_weights] at htrivial
      have hle := length_joins_le ((weights f.bytes).length - 1)
        ((weights f.bytes).insertionSort (· ≤ ·))
      have hfilter := List.length_filter_le (fun x : ℕ => decide (x % 2 = 1))
        (joins ((weights f.bytes).length - 1) ((weights f.bytes).insertionSort (· ≤ ·)))
      unfold endJoins oddJoins
      omega
  | some t =>
    have hread : f.inputErr ≠ true := by
      intro hread
      simp [walked, hread] at hw
    rw [fits_of_some hw]
    by_cases hnil : f.bytes = []
    · constructor
      · intro _
        rw [hnil]
        exact Or.inr (by decide)
      · intro _ i hi
        rw [depth_of_one hw hnil i hi]
        exact Nat.zero_le _
    · obtain ⟨root, W, d, hle, heq, htree, hdepth, hodd, -, hjoins⟩ := walked_tree hw hnil
      rw [← hjoins, ← htree.depth_eq_odd hdepth hodd]
      constructor
      · intro h
        rw [← heq]
        exact Or.inr (h END le_rfl)
      · intro h i hi
        exact (hle i hi).trans (h.resolve_left hread)

theorem fits_of_length (BUFSIZ : ℕ) (force : Bool) {f : File} (g : Globals)
    (hlen : f.bytes.length < 196417) : Fits BUFSIZ force f g := by
  cases hw : walked f g with
  | none => exact fits_of_none hw
  | some t =>
    rw [fits_of_some hw]
    intro i hi
    by_cases hnil : f.bytes = []
    · rw [depth_of_one hw hnil i hi]
      exact Nat.zero_le _
    · obtain ⟨root, W, d, hle, -, htree, hdepth, hodd, hsum, -⟩ := walked_tree hw hnil
      by_contra hdeep
      have hd : 25 ≤ d END := by
        have := hle i hi
        omega
      have hfib := htree.fib_le_root hdepth hodd hd
      have h27 : Nat.fib (25 + 2) = 196418 := by decide
      rw [hsum, h27] at hfib
      omega

end Depth

/-- The levels are enough for a file exactly when `END` is joined at most 24 times, if the file
can be read at all; and they are enough for every file of less than 196417 bytes. -/
theorem levels_iff (BUFSIZ : ℕ) (force : Bool) (f : File) (g : Globals) :
    (Fits BUFSIZ force f g ↔ f.inputErr = true ∨ endJoins f.bytes ≤ 24) ∧
      (f.bytes.length < 196417 → Fits BUFSIZ force f g) :=
  ⟨fits_iff BUFSIZ force f g, fits_of_length BUFSIZ force g⟩

theorem levels_iff_short : (Fits 8192 false ⟨[97, 98, 97], false, false, false⟩ Globals.loaded ↔
    false = true ∨ endJoins [97, 98, 97] ≤ 24) ∧
      Fits 8192 false ⟨[97, 98, 97], false, false, false⟩ Globals.loaded :=
  ⟨(levels_iff 8192 false ⟨[97, 98, 97], false, false, false⟩ Globals.loaded).1,
    (levels_iff 8192 false ⟨[97, 98, 97], false, false, false⟩ Globals.loaded).2 (by decide)⟩

/-- Byte `i` as often as the Fibonacci number `i + 1` says, for 25 bytes. -/
def fibonacciFile : List UInt8 :=
  (List.range 25).flatMap fun i => List.replicate (Nat.fib (i + 1)) (UInt8.ofNat i)

theorem length_fibonacciFile : fibonacciFile.length = 196417 := by
  unfold fibonacciFile
  rw [List.length_flatMap]
  simp only [List.length_replicate]
  decide

theorem weights_fibonacciFile :
    weights fibonacciFile = (List.range 25).map (fun i => 2 * Nat.fib (i + 1)) ++ [1] := by
  unfold weights countWeights fibonacciFile
  simp only [List.count_flatMap, List.count_replicate, Function.comp_def]
  decide +kernel

/-- A file of 196417 bytes has 25 levels. -/
theorem not_levels_fibonacci : fibonacciFile.length < 2 ^ 24 ∧
    ¬ Fits 8192 false ⟨fibonacciFile, false, false, false⟩ Globals.loaded := by
  constructor
  · rw [length_fibonacciFile]
    decide
  · rw [fits_iff]
    unfold endJoins oddJoins
    rw [weights_fibonacciFile]
    decide +kernel

/-! ### The code -/

/-- The lengths are those of a complete code without words that begin others, no such code needs
fewer bits for the counts, and none of them is past the end of `levcount`. -/
structure OptimalLengths (g r : Globals) : Prop where
  count : r.count = update g.count END 1
  levels : ∀ c ≤ END, r.length c ≤ 24
  prefixFree : ∃ code : ℕ → List Bool, PrefixFree (leaves r.count) code ∧
    ∀ c ∈ leaves r.count, (code c).length = r.length c
  complete : ∑ c ∈ leaves r.count, (1 / 2 : ℚ) ^ r.length c = 1
  least : ∀ code : ℕ → List Bool, PrefixFree (leaves r.count) code →
    ∑ c ∈ leaves r.count, r.count c * r.length c ≤
      ∑ c ∈ leaves r.count, r.count c * (code c).length
  maxlev : r.length END = r.maxlev
  le_maxlev : ∀ c ≤ END, r.length c ≤ r.maxlev

/-- `END` has the longest code, with as many bits as joins. -/
theorem codeLengths_end (g : Globals) (heven : ∀ c < END, Even (g.count c))
    (hsome : ∃ c < END, g.count c ≠ 0) :
    (∀ c ≤ END, (codeLengths g).length c ≤ (codeLengths g).length END) ∧
      (codeLengths g).length END = oddJoins (countWeights g.count) := by
  obtain ⟨root, parent, W, d, hcount, hcount', hn, -, ht, -, -⟩ := codeLengths_tree g hsome
  have htree := ht.tree
  have hdepth := ht.depth
  have hweight := ht.weight
  have hmade := ht.made
  have hlight : ∀ c < END, update g.count END 1 c ≠ 1 := by
    intro c hc
    rw [update_of_ne hc.ne]
    obtain ⟨k, hk⟩ := heven c hc
    omega
  have hend := ht.length_le_end (by rw [hcount]; simp) (by rw [hcount]; exact hlight)
  rw [hcount] at htree hdepth hweight hmade
  rw [hcount'] at hn
  have hmemEnd : END ∈ leaves (update g.count END 1) := mem_leaves.mpr ⟨le_rfl, by simp⟩
  have hodd : OddLeaf (leaves (update g.count END 1)) W END := by
    refine ⟨hmemEnd, ?_, fun v hv hne => ?_⟩
    · rw [hweight END hmemEnd, update_self]
      exact odd_one
    · have hv' := (mem_leaves.mp hv).1
      rw [hweight v hv, update_of_ne hne]
      exact heven v (by omega)
  refine ⟨hend, ?_⟩
  rw [ht.length END le_rfl, htree.depth_eq_odd hdepth hodd]
  apply card_odd
  rw [hmade, leaves_countWeights, hn, card_countWeights]

/-- `packfile`'s code is optimal exactly when `END` is joined at most 24 times: from 25 on a
length is counted behind the end of `levcount`. -/
theorem codeLengths_optimal_iff (g : Globals) (heven : ∀ c < END, Even (g.count c))
    (hsome : ∃ c < END, g.count c ≠ 0) :
    OptimalLengths g (codeLengths g) ↔ oddJoins (countWeights g.count) ≤ 24 := by
  obtain ⟨hend, hjoins⟩ := codeLengths_end g heven hsome
  obtain ⟨root, parent, W, d, hcount, hcount', hn, -, ht, hle, hleast⟩ := codeLengths_tree g hsome
  have htree := ht.tree
  have hdepth := ht.depth
  have hweight := ht.weight
  have hmade := ht.made
  rw [hcount] at htree hdepth hweight hmade
  have hlength : ∀ c ∈ leaves (update g.count END 1), (codeLengths g).length c = d c :=
    fun c hc => ht.length c (mem_leaves.mp hc).1
  have h2 : 2 ≤ (leaves (update g.count END 1)).card := by
    obtain ⟨c, hc, hne⟩ := hsome
    apply two_le_card_leaves hc
    · rw [update_of_ne hc.ne]
      omega
    · simp
  constructor
  · intro h
    rw [← hjoins]
    exact h.levels END le_rfl
  · intro h24
    refine ⟨hcount', fun c hc => (hend c hc).trans (hjoins ▸ h24), ?_, ?_, ?_, ?_, hle⟩
    · rw [hcount']
      refine ⟨_, htree.prefixFree hdepth, fun c hc => ?_⟩
      rw [length_word, hlength c hc]
    · rw [hcount']
      apply (Finset.sum_congr rfl ?_).trans (htree.kraft_eq hdepth)
      intro c hc
      rw [hlength c hc]
    · rw [hcount']
      intro code hcode
      have hval : (leaves (update g.count END 1)).val.map (update g.count END 1) =
          (leaves (update g.count END 1)).val.map W := by
        apply Multiset.map_congr rfl
        intro c hc
        exact (hweight c hc).symm
      rw [hval] at hmade
      have hopt := htree.optimal hdepth hmade h2 hcode
      have hcost : ∀ l : ℕ → ℕ, ∑ c ∈ leaves (update g.count END 1), W c * l c =
          ∑ c ∈ leaves (update g.count END 1), update g.count END 1 c * l c := by
        intro l
        apply Finset.sum_congr rfl
        intro c hc
        rw [hweight c hc]
      rw [hcost, hcost] at hopt
      rw [Finset.sum_congr rfl fun c hc => by rw [hlength c hc]]
      exact hopt
    · exact le_antisymm (hle END le_rfl) (hleast _ hend)

/-- A file with one kind of byte. -/
theorem codeLengths_optimal_iff_one :
    let g : Globals := { Globals.loaded with count := fun c => if c = 97 then 2 else 0 }
    (∀ c < END, Even (g.count c)) ∧ (∃ c < END, g.count c ≠ 0) ∧
      (OptimalLengths g (codeLengths g) ↔ oddJoins (countWeights g.count) ≤ 24) := by
  intro g
  have heven : ∀ c < END, Even (g.count c) := by
    intro c _
    by_cases hc : c = 97 <;> simp [g, hc]
  have hsome : ∃ c < END, g.count c ≠ 0 := ⟨97, by decide, by decide⟩
  exact ⟨heven, hsome, codeLengths_optimal_iff g heven hsome⟩

/-- The counts of `fibonacciFile`. -/
def fibonacciTable : Globals :=
  { Globals.loaded with count := fun c => if c < 25 then 2 * Nat.fib (c + 1) else 0 }

theorem not_codeLengths_optimal : (∀ c < END, Even (fibonacciTable.count c)) ∧
    (∃ c < END, fibonacciTable.count c ≠ 0) ∧
      ¬ OptimalLengths fibonacciTable (codeLengths fibonacciTable) := by
  have heven : ∀ c < END, Even (fibonacciTable.count c) := by
    intro c _
    unfold fibonacciTable
    dsimp only
    split_ifs
    · exact even_two_mul _
    · exact Even.zero
  have hsome : ∃ c < END, fibonacciTable.count c ≠ 0 := ⟨0, by decide, by decide⟩
  refine ⟨heven, hsome, fun h => ?_⟩
  have hle := h.levels END le_rfl
  rw [(codeLengths_end _ heven hsome).2] at hle
  revert hle
  unfold oddJoins countWeights fibonacciTable
  decide +kernel

end Unitas.Pack
