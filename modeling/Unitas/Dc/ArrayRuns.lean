import Unitas.Dc.Arrays
import Unitas.Dc.Exact

/-! The array commands of `dc` do what they do to a map. -/
namespace Unitas.Dc.Arrays

open Function CInt Radix

/-! ### Indices -/

theorem value_drop_digits {p : Blk} (hp : Digits 100 p) (j : ℕ) :
    value 100 (p.drop j) = value 100 p / 100 ^ j := by
  by_cases hle : j ≤ p.length
  · have htake : Digits 100 (p.take j) := fun d hd => hp d (List.mem_of_mem_take hd)
    have htlt := htake.value_lt
    have ht0 := htake.value_nonneg
    rw [List.length_take, min_eq_left hle] at htlt
    have hval : value 100 p = value 100 (p.take j) + 100 ^ j * value 100 (p.drop j) := by
      conv_lhs => rw [← List.take_append_drop j p]
      rw [value_append, List.length_take, min_eq_left hle]
    rw [hval, Int.add_mul_ediv_left _ _ (by positivity), Int.ediv_eq_zero_of_lt ht0 htlt, zero_add]
  · rw [List.drop_eq_nil_of_le (by omega), value_nil]
    refine (Int.ediv_eq_zero_of_lt hp.value_nonneg (hp.value_lt.trans_le ?_)).symm
    exact pow_le_pow_right₀ (by norm_num) (by omega)

theorem normal_drop {p : Blk} (hp : Digits 100 p) (hn : Normal p) (j : ℕ) :
    Normal (p.drop j) := by
  refine normal_of_digits (fun d hd => hp d (List.mem_of_mem_drop hd)) fun ds heq => ?_
  refine hn.top (p.take j ++ ds) ?_
  conv_lhs => rw [← List.take_append_drop j p, heq]
  rw [List.append_assoc]

/-- There are no more than two digits. -/
theorem indexOf_eq {q : Blk} (hq : Normal q) (h0 : 0 ≤ value 100 q) (hlt : value 100 q < 2048) :
    indexOf q = some (value 100 q).toNat := by
  have hdig := nonneg_digits hq.1 h0
  rcases List.eq_nil_or_concat' q with rfl | ⟨ds, d, rfl⟩
  · rfl
  · have hle := hq.le_value hdig
    have hd := hdig d (by simp)
    have hlen : ds.length ≤ 1 := by
      by_contra hlong
      have hpow : (100 : ℤ) ^ 2 ≤ 100 ^ ds.length :=
        pow_le_pow_right₀ (by norm_num) (by omega)
      omega
    have hdim : BC_DIM_MAX = 2048 := rfl
    rcases ds with _ | ⟨e, _ | ⟨f, ds⟩⟩
    · have hval : value 100 ([] ++ [d]) = d := by simp
      rw [hval]
      show (if d < 0 then none else if BC_DIM_MAX ≤ d then none else some d.toNat) = _
      rw [if_neg (by omega), if_neg (by omega)]
    · have he := hdig e (by simp)
      have hval : value 100 ([e] ++ [d]) = d * (1 * 100) + e := by
        rw [value_concat]
        simp
        ring
      rw [hval] at hlt ⊢
      have hindex : indexFrom [e] d 1 = d * (1 * 100) + e := if_pos (by omega)
      show (if d < 0 then none else if BC_DIM_MAX ≤ indexFrom [e] d 1 then none
        else some (indexFrom [e] d 1).toNat) = _
      rw [hindex, if_neg (by omega), if_neg (by omega)]
    · simp at hlen

theorem indexFrom_zeros (n : ℕ) : ∀ scalev, indexFrom (List.replicate n 0) 0 scalev = 0 := by
  induction n with
  | zero => exact fun _ => rfl
  | succ n ih =>
    intro scalev
    rw [List.replicate_succ, indexFrom, if_pos (by decide), zero_mul, zero_add]
    exact ih _

theorem indexOf_zeros (n : ℕ) : indexOf (List.replicate n 0) = some 0 := by
  unfold indexOf
  rw [List.reverse_replicate]
  cases n with
  | zero => rfl
  | succ n =>
    rw [List.replicate_succ]
    dsimp only
    rw [if_neg (by decide), indexFrom_zeros, if_neg (by decide)]
    rfl

theorem digits_zeros (n : ℕ) : Digits 100 (List.replicate n 0) := by
  intro d hd
  rw [List.eq_of_mem_replicate hd]
  decide

/-- The digits that are left of the index. -/
theorem drop_index {digits : Blk} (hnorm : Normal digits ∨ ∃ n : ℕ, digits = List.replicate n 0)
    (h0 : 0 ≤ value 100 digits) (j : ℕ) :
    (Normal (digits.drop j) ∨ ∃ n : ℕ, digits.drop j = List.replicate n 0) ∧
      value 100 (digits.drop j) = value 100 digits / 100 ^ j := by
  rcases hnorm with hnorm | ⟨n, rfl⟩
  · have hdig := nonneg_digits hnorm.1 h0
    exact ⟨Or.inl (normal_drop hdig hnorm j), value_drop_digits hdig j⟩
  · exact ⟨Or.inr ⟨n - j, List.drop_replicate⟩, value_drop_digits (digits_zeros n) j⟩

theorem scalint_index (divxyz : Blk) {b : Blk} {i : ℕ} (h : IsIndex b i) :
    ∃ q, scalint divxyz b = .ok q ∧ indexOf q = some i := by
  obtain ⟨digits, sc, rfl, hnorm, h0, hval, hlt⟩ := h
  obtain ⟨hdrop, hdropval⟩ := drop_index hnorm h0 (sc / 2)
  have hsc : 2 * (sc / 2) + sc % 2 = sc := Nat.div_add_mod sc 2
  have hpow : (10 : ℤ) ^ (2 * (sc / 2)) = 100 ^ (sc / 2) := by
    rw [pow_mul]
    norm_num
  have hdrop0 : 0 ≤ value 100 (digits.drop (sc / 2)) := by
    rw [hdropval]
    positivity
  unfold scalint removc
  rw [List.dropLast_concat, List.getLastD_concat, Int.toNat_natCast]
  split_ifs with hodd
  · have hlegal : Legal (digits.drop (sc / 2)) := by
      rcases hdrop with hn | ⟨n, hn⟩
      · exact hn.1
      · rw [hn]
        exact Or.inl (digits_zeros n)
    obtain ⟨r, hdiv, hq, -, hdivval, hrem0, hlt'⟩ := div_tenptr divxyz hlegal hdrop0
    have hpow' : (10 : ℤ) ^ sc = 100 ^ (sc / 2) * 10 := by
      conv_lhs => rw [← hsc, hodd, pow_succ, hpow]
    have hqval : value 100 r.q = i := by
      rw [hpow', ← Int.ediv_ediv_of_nonneg (by positivity), ← hdropval] at hval
      omega
    rw [hdiv]
    refine ⟨r.q, rfl, ?_⟩
    rw [indexOf_eq hq (by omega) (by omega), hqval, Int.toNat_natCast]
  · have heven : (10 : ℤ) ^ sc = 100 ^ (sc / 2) := by
      rw [← hpow]
      congr 1
      omega
    refine ⟨_, rfl, ?_⟩
    rw [heven, ← hdropval] at hval
    rcases hdrop with hn | ⟨n, hn⟩
    · rw [indexOf_eq hn hdrop0 (by omega), hval, Int.toNat_natCast]
    · have hzero : value 100 (List.replicate n 0) = 0 := value_replicate_zero 100 n
      rw [hn, hzero] at hval
      rw [hn, indexOf_zeros, Nat.cast_eq_zero.mp hval.symm]

structure Refines (s : State) (a : Abs) : Prop where
  free : Free s
  view : View s.heap s.stack s.val a
  room : a.stack.length ≤ 99

theorem popIndex_spec (divxyz : Blk) {s : State} {b : Blk} {bs : List Blk}
    {map : ℕ → Option Blk} {i : ℕ} (hs : Refines s ⟨b :: bs, map⟩) (hi : IsIndex b i) :
    ∃ s', popIndex divxyz s = some (some i, s') ∧ Refines s' ⟨bs, map⟩ := by
  obtain ⟨hf, hv, hroom⟩ := hs
  obtain ⟨h, stack, hb, hrest, hstack⟩ := List.forall₂_cons_right_iff.mp hv.blocks
  have hpopped : Free { s with stack := stack } := ⟨hf.nodup, hf.hfree, hf.made⟩
  obtain ⟨q, hq, hindex⟩ := scalint_index divxyz hi
  obtain ⟨hnone, hheap, hst, hval, hf1⟩ := alloc_spec hpopped (.bytes q)
  cases hr : alloc { s with stack := stack } (.bytes q) with
  | mk h' s1 =>
    rw [hr] at hnone hheap hst hval hf1
    dsimp only at hnone hheap hst hval hf1
    have hne : h ≠ h' := by
      rintro rfl
      rw [hnone] at hb
      exact absurd hb (by simp)
    obtain ⟨s2, hrel, hheap2, hst2, hval2, hf2⟩ := release_spec hf1 (h := h) (b := .bytes b)
      (by rw [hheap, update_of_ne hne]; exact hb)
    obtain ⟨s3, hrel', hheap3, hst3, hval3, hf3⟩ := release_spec hf2 (h := h') (b := .bytes q)
      (by rw [hheap2, update_of_ne hne.symm, hheap, update_self])
    refine ⟨s3, ?_, hf3, ?_, Nat.le_of_succ_le hroom⟩
    · unfold popIndex
      rw [hstack]
      dsimp only
      rw [hb]
      dsimp only
      rw [hq]
      dsimp only
      rw [hr]
      dsimp only
      rw [hrel, Option.bind_some]
      rw [hindex]
      dsimp only
      rw [hrel']
      rfl
    · have hfinal : s3.heap = update s.heap h none := by
        rw [hheap3, hheap2, hheap]
        funext k
        by_cases hk' : k = h'
        · rw [hk', update_self, update_of_ne hne.symm]
          exact hnone.symm
        · by_cases hk : k = h
          · rw [hk, update_of_ne hne, update_self, update_self]
          · rw [update_of_ne hk', update_of_ne hk, update_of_ne hk', update_of_ne hk]
      rw [hfinal, hst3, hst2, hst, hval3, hval2, hval]
      rw [hstack] at hv
      exact hv.pop

/-! ### Elements -/

/-- The block has room for element `c`, and holes up to it. -/
structure Made (c : ℕ) (a : Abs) (p : ℕ) (w : WBlk) (s : State) : Prop where
  free : Free s
  blocks : List.Forall₂ (fun h b => s.heap h = some (.bytes b)) s.stack a.stack
  nodup : s.stack.Nodup
  array : s.heap p = some (.array w)
  words : Words s.heap s.stack w a.map
  le : w.wtw ≤ 2048
  lt : c < w.lastw
  hole : ∀ i, w.wtw ≤ i → i < c → w.words i = none

/-- There is no wrap, for the array has a word. -/
theorem uwrap_length {n : ℕ} (h1 : 1 ≤ n) (hn : n ≤ 2048) :
    uwrap 64 ((PTRSZ : ℤ) * n - PTRSZ) = PTRSZ * n - PTRSZ := by
  unfold uwrap PTRSZ
  norm_num
  omega

theorem ne_of_heap {heap : ℕ → Option Block} {h p : ℕ} {b : Blk} (hh : heap h = some (.bytes b))
    (hp : heap p ≠ some (.bytes b)) : h ≠ p := by
  rintro rfl
  exact hp hh

theorem room_spec (junk : Junk) {s : State} {a : Abs} (c : ℕ) (hs : Refines s a) :
    ∃ p w s', room junk c s = some (p, w, s') ∧ Made c a p w s' := by
  obtain ⟨hf, ⟨hblocks, hnodup, helements⟩, -⟩ := hs
  unfold room
  cases hval : s.val with
  | none =>
    rw [hval] at helements
    obtain ⟨hnone, hheap, hst, -, hf'⟩ :=
      alloc_spec hf (.array (WBlk.zeroed junk (c + PTRSZ)))
    refine ⟨(alloc s (.array (WBlk.zeroed junk (c + PTRSZ)))).1, WBlk.zeroed junk (c + PTRSZ),
      (alloc s (.array (WBlk.zeroed junk (c + PTRSZ)))).2, rfl, hf', ?_, ?_, ?_, ?_, Nat.zero_le _,
      ?_, ?_⟩
    · rw [hheap, hst]
      refine forall₂_frame hblocks fun x hx => ?_
      obtain ⟨b, hb⟩ := mem_blocks hblocks hx
      exact update_of_ne (ne_of_heap hb (by simp [hnone])) _ _
    · rw [hst]
      exact hnodup
    · rw [hheap, update_self]
    · refine ⟨Nat.zero_le _, fun i hi => absurd hi (Nat.not_lt_zero i),
        fun i hi => absurd hi (Nat.not_lt_zero i), fun i _ => helements i,
        fun i j e hi => absurd hi (Nat.not_lt_zero i)⟩
    · show c < c + PTRSZ
      unfold PTRSZ
      omega
    · intro i _ hi
      have hi' : i < c + PTRSZ := by omega
      exact if_pos hi'
  | some p =>
    rw [hval] at helements
    obtain ⟨w, hw, h1, hle, hwords⟩ := helements
    dsimp only
    rw [hw]
    dsimp only
    rw [uwrap_length h1 hle]
    unfold PTRSZ
    split_ifs with hlt
    · obtain ⟨hnone, hheap, hst, -, hf'⟩ := alloc_spec hf (.array (w.copy junk (c + 8)))
      have hne : p ≠ (alloc s (.array (w.copy junk (c + 8)))).1 := by
        intro heq
        rw [← heq, hw] at hnone
        exact absurd hnone (by simp)
      obtain ⟨s2, hrel, hheap2, hst2, -, hf2⟩ := release_spec hf' (h := p) (b := .array w)
        (by rw [hheap, update_of_ne hne, hw])
      rw [hrel]
      have hkeep : ∀ x b, s.heap x = some (.bytes b) → s2.heap x = some (.bytes b) := by
        intro x b hb
        rw [hheap2, update_of_ne (ne_of_heap hb (by simp [hw])), hheap,
          update_of_ne (ne_of_heap hb (by simp [hnone])), hb]
      have hwtw : w.wtw ≤ c := by omega
      have hsame : ∀ i, i < w.wtw → (w.copy junk (c + 8)).words i = w.words i := by
        intro i hi
        have hi' : i < c + 8 := by omega
        exact (if_pos hi').trans (if_pos hi)
      refine ⟨_, _, _, rfl, hf2, ?_, ?_, ?_, ?_, hle, ?_, ?_⟩
      · rw [hst2, hst]
        refine forall₂_frame hblocks fun x hx => ?_
        obtain ⟨b, hb⟩ := mem_blocks hblocks hx
        rw [hkeep x b hb, hb]
      · rw [hst2, hst]
        exact hnodup
      · rw [hheap2, update_of_ne hne.symm, hheap, update_self]
      · rw [hst2, hst]
        refine ⟨Nat.le_trans hwtw (Nat.le_add_right c 8), fun i hi e he => ?_, fun i hi he => ?_,
          hwords.past, fun i j e hi hj hie hje => ?_⟩
        · rw [hsame i hi] at he
          obtain ⟨hnot, b, hb, hmap⟩ := hwords.elem i hi e he
          exact ⟨hnot, b, hkeep e b hb, hmap⟩
        · rw [hsame i hi] at he
          exact hwords.hole i hi he
        · rw [hsame i hi] at hie
          rw [hsame j hj] at hje
          exact hwords.inj i j e hi hj hie hje
      · show c < c + 8
        omega
      · intro i hi hic
        have hi' : i < c + 8 := by omega
        have hnot : ¬ i < w.wtw := Nat.not_lt.mpr hi
        exact (if_pos hi').trans (if_neg hnot)
    · have hlt' : c < w.wtw := by omega
      exact ⟨p, w, s, rfl, hf, hblocks, hnodup, hw, hwords, hle, hlt'.trans_le hwords.le,
        fun i hi hic => absurd hlt' (by omega)⟩

theorem seekc_eq (junk : Junk) {w : WBlk} {c : ℕ} (h : c ≤ w.lastw) :
    w.seekc junk c = ⟨w.words, c, max w.wtw c, w.lastw⟩ := if_neg (Nat.not_lt.mpr h)

theorem lookwd_seekc (junk : Junk) {w : WBlk} {c : ℕ} (h : c ≤ w.lastw) :
    (w.seekc junk c).lookwd = if w.wtw ≤ c then none else w.words c := by
  rw [seekc_eq junk h]
  unfold WBlk.lookwd
  dsimp only
  split_ifs with h1 h2 h2
  · rfl
  · omega
  · omega
  · rfl

/-- There is a word to write to. -/
theorem salterwd_seekc (junk : Junk) {w : WBlk} {c : ℕ} (h : c < w.lastw) (v : ℕ) :
    (w.seekc junk c).salterwd junk v =
      ⟨update w.words c (some v), c + 1, max w.wtw (c + 1), w.lastw⟩ := by
  rw [seekc_eq junk h.le]
  unfold WBlk.salterwd
  dsimp only
  rw [if_neg h.ne]
  dsimp only
  rw [show max (max w.wtw c) (c + 1) = max w.wtw (c + 1) by omega]

/-- The block on top of the stack becomes an element. -/
theorem Words.store {heap : ℕ → Option Block} {v : ℕ} {stack : List ℕ} {w : WBlk}
    {map : ℕ → Option Blk} {c : ℕ} {b : Blk} (hw : Words heap (v :: stack) w map)
    (hlt : c < w.lastw) (hhole : ∀ i, w.wtw ≤ i → i < c → w.words i = none)
    (hb : heap v = some (.bytes b)) (hnot : v ∉ stack) :
    Words heap stack ⟨update w.words c (some v), c + 1, max w.wtw (c + 1), w.lastw⟩
      (update map c (some b)) := by
  -- what the other words hold
  have hother : ∀ i, i ≠ c → i < max w.wtw (c + 1) → ∀ e, w.words i = some e → i < w.wtw := by
    intro i hne hi e he
    by_contra hge
    rw [hhole i (by omega) (by omega)] at he
    exact absurd he (by simp)
  refine ⟨?_, fun i hi e he => ?_, fun i hi he => ?_, fun i hi => ?_, fun i j e hi hj hie hje => ?_⟩
  · have := hw.le
    show max w.wtw (c + 1) ≤ w.lastw
    omega
  · by_cases hic : i = c
    · subst hic
      have hev : v = e := by
        have he' : update w.words i (some v) i = some e := he
        rw [update_self] at he'
        exact Option.some.inj he'
      subst hev
      exact ⟨hnot, b, hb, update_self _ _ _⟩
    · have he' : w.words i = some e := (update_of_ne hic _ _).symm.trans he
      obtain ⟨hnot', d, hd, hmap⟩ := hw.elem i (hother i hic hi e he') e he'
      exact ⟨(List.ne_and_not_mem_of_not_mem_cons hnot').2, d, hd,
        (update_of_ne hic _ _).trans hmap⟩
  · by_cases hic : i = c
    · subst hic
      have he' : update w.words i (some v) i = none := he
      rw [update_self] at he'
      exact absurd he' (by simp)
    · have he' : w.words i = none := (update_of_ne hic _ _).symm.trans he
      refine (update_of_ne hic _ _).trans ?_
      by_cases hlt' : i < w.wtw
      · exact hw.hole i hlt' he'
      · exact hw.past i (Nat.not_lt.mp hlt')
  · have hi' : max w.wtw (c + 1) ≤ i := hi
    exact (update_of_ne (by omega) _ _).trans (hw.past i (by omega))
  · have hold : ∀ k, k ≠ c → k < max w.wtw (c + 1) → update w.words c (some v) k = some e →
        k < w.wtw ∧ w.words k = some e ∧ e ≠ v := by
      intro k hk hlt' he
      rw [update_of_ne hk] at he
      have hkw := hother k hk hlt' e he
      exact ⟨hkw, he, (List.ne_and_not_mem_of_not_mem_cons (hw.elem k hkw e he).1).1⟩
    have hnew : update w.words c (some v) c = some e → e = v := by
      intro he
      rw [update_self] at he
      exact (Option.some.inj he).symm
    by_cases hic : i = c
    · by_cases hjc : j = c
      · rw [hic, hjc]
      · subst hic
        exact absurd (hnew hie) (hold j hjc hj hje).2.2
    · obtain ⟨hiw, hie, hne⟩ := hold i hic hi hie
      by_cases hjc : j = c
      · subst hjc
        exact absurd (hnew hje) hne
      · obtain ⟨hjw, hje, -⟩ := hold j hjc hj hje
        exact hw.inj i j e hiw hjw hie hje

/-- The element that was there is released, and nothing else. -/
theorem Made.releaseWord (junk : Junk) {c : ℕ} {a : Abs} {p : ℕ} {w : WBlk} {s : State}
    (hm : Made c a p w s) :
    ∃ s', releaseWord s (w.seekc junk c).lookwd = some s' ∧ Free s' ∧ s'.stack = s.stack ∧
      (∀ y b, y ∈ s.stack → s.heap y = some (.bytes b) → s'.heap y = some (.bytes b)) ∧
      s'.heap p = some (.array w) ∧
      ∀ k e b, k < w.wtw → k ≠ c → w.words k = some e → s.heap e = some (.bytes b) →
        s'.heap e = some (.bytes b) := by
  rw [lookwd_seekc junk hm.lt.le]
  cases hlook : if w.wtw ≤ c then none else w.words c with
  | none => exact ⟨s, rfl, hm.free, rfl, fun _ _ _ hb => hb, hm.array, fun _ _ _ _ _ _ hb => hb⟩
  | some e =>
    have hlive : c < w.wtw ∧ w.words c = some e := by
      split_ifs at hlook with hge
      exact ⟨Nat.not_le.mp hge, hlook⟩
    obtain ⟨hout, d, hd, -⟩ := hm.words.elem c hlive.1 e hlive.2
    obtain ⟨s', hrel, hheap, hst, -, hf⟩ := release_spec hm.free hd
    refine ⟨s', hrel, hf, hst, fun y b hy hb => ?_, ?_, fun k f b hk hkc hf' hb => ?_⟩
    · rw [hheap, update_of_ne (by rintro rfl; exact hout hy), hb]
    · rw [hheap, update_of_ne (ne_of_heap hd (by simp [hm.array])).symm, hm.array]
    · rw [hheap, update_of_ne, hb]
      rintro rfl
      exact hkc (hm.words.inj k c f hk hlive.1 hf' hlive.2)

theorem store_spec (divxyz : Blk) (junk : Junk) {s : State} {b v : Blk} {bs : List Blk}
    {map : ℕ → Option Blk} {i : ℕ} (hs : Refines s ⟨b :: v :: bs, map⟩) (hi : IsIndex b i) :
    ∃ s', store divxyz junk s = some s' ∧ Refines s' ⟨bs, update map i (some v)⟩ := by
  have hlt : i < 2048 := by
    obtain ⟨_, _, _, _, _, _, hlt⟩ := hi
    exact hlt
  obtain ⟨s1, hpop, hs1⟩ := popIndex_spec divxyz hs hi
  obtain ⟨p, w, s2, hroom, hm⟩ := room_spec junk i hs1
  obtain ⟨x, stack, hx, hrest, hstack⟩ := List.forall₂_cons_right_iff.mp hm.blocks
  have hwords := hm.words
  have hnodup := hm.nodup
  rw [hstack] at hwords hnodup
  obtain ⟨hnot, hnodup⟩ := List.nodup_cons.mp hnodup
  obtain ⟨s3, hrel, hf3, hst3, hkeep, harray, helem⟩ := hm.releaseWord junk
  have hnew := hwords.store hm.lt hm.hole hx hnot
  refine ⟨{ s3 with
    heap := update s3.heap p (some (.array ((w.seekc junk i).salterwd junk x))), stack,
    val := some p }, ?_, ?_, ?_, ?_⟩
  · unfold Arrays.store
    rw [hpop, Option.bind_some]
    dsimp only
    rw [hroom, Option.bind_some]
    dsimp only
    rw [hrel, Option.bind_some, hst3, hstack]
  · exact hf3.put harray _ _ _
  · refine ⟨?_, hnodup, _, update_self _ _ _, ?_, ?_, ?_⟩
    · refine @forall₂_frame s2.heap _ _ _ hrest fun y hy => ?_
      obtain ⟨c, hc⟩ := mem_blocks hrest hy
      have hc3 := hkeep y c (hstack ▸ List.mem_cons_of_mem _ hy) hc
      exact ((update_of_ne (ne_of_heap hc3 (by simp [harray])) _ _).trans hc3).trans hc.symm
    · rw [salterwd_seekc junk hm.lt]
      show 1 ≤ max w.wtw (i + 1)
      omega
    · rw [salterwd_seekc junk hm.lt]
      have := hm.le
      show max w.wtw (i + 1) ≤ 2048
      omega
    · rw [salterwd_seekc junk hm.lt]
      refine hnew.frame fun k e c hk he hout hc => ⟨?_, hout⟩
      have hc3 : s3.heap e = some (.bytes c) := by
        by_cases hki : k = i
        · subst hki
          have he' : update w.words k (some x) k = some e := he
          rw [update_self] at he'
          obtain rfl := Option.some.inj he'
          exact hkeep x c (hstack ▸ List.mem_cons_self) hc
        · have he' : w.words k = some e := (update_of_ne hki _ _).symm.trans he
          have hk' : k < max w.wtw (i + 1) := hk
          refine helem k e c ?_ hki he' hc
          by_contra hge
          rw [hm.hole k (by omega) (by omega)] at he'
          exact absurd he' (by simp)
      exact (update_of_ne (ne_of_heap hc3 (by simp [harray])) _ _).trans hc3
  · exact (Nat.le_succ _).trans hs1.room

theorem push_spec {s : State} {a : Abs} (hs : Refines s a) (hroom : a.stack.length < 99) (b : Blk) :
    Refines (pushp (alloc s (.bytes b)).2 (alloc s (.bytes b)).1) ⟨b :: a.stack, a.map⟩ := by
  obtain ⟨hf, hv, -⟩ := hs
  obtain ⟨hnone, hheap, hst, hval, hf'⟩ := alloc_spec hf (.bytes b)
  have hlen := hv.blocks.length_eq
  have hpush : pushp (alloc s (.bytes b)).2 (alloc s (.bytes b)).1 =
      { (alloc s (.bytes b)).2 with stack := (alloc s (.bytes b)).1 :: s.stack } := by
    unfold pushp
    rw [hst, if_neg (by omega)]
  rw [hpush]
  refine ⟨⟨hf'.nodup, hf'.hfree, hf'.made⟩, ?_, hroom⟩
  show View (alloc s (.bytes b)).2.heap _ (alloc s (.bytes b)).2.val _
  rw [hheap, hval]
  exact hv.push hnone b

theorem drop_spec {s : State} {b : Blk} {bs : List Blk} {map : ℕ → Option Blk}
    (hs : Refines s ⟨b :: bs, map⟩) (divxyz : Blk) (junk : Junk) :
    ∃ s', step divxyz junk s .drop = some s' ∧ Refines s' ⟨bs, map⟩ := by
  obtain ⟨hf, hv, hroom⟩ := hs
  obtain ⟨h, stack, hb, hrest, hstack⟩ := List.forall₂_cons_right_iff.mp hv.blocks
  have hpopped : Free { s with stack := stack } := ⟨hf.nodup, hf.hfree, hf.made⟩
  obtain ⟨s', hrel, hheap, hst, hval, hf'⟩ := release_spec hpopped hb
  refine ⟨s', ?_, hf', ?_, Nat.le_of_succ_le hroom⟩
  · unfold step
    rw [hstack]
    exact hrel
  · rw [hheap, hst, hval]
    rw [hstack] at hv
    exact hv.pop

theorem load_spec (divxyz : Blk) (junk : Junk) {s : State} {b : Blk} {bs : List Blk}
    {map : ℕ → Option Blk} {i : ℕ} (hs : Refines s ⟨b :: bs, map⟩) (hi : IsIndex b i) :
    ∃ s', load divxyz junk s = some s' ∧ Refines s' ⟨(map i).getD [0] :: bs, map⟩ := by
  obtain ⟨s1, hpop, hs1⟩ := popIndex_spec divxyz hs hi
  have hroom : bs.length < 99 := hs.room
  have hzero {t : State} (ht : Refines t ⟨bs, map⟩) (hmap : map i = none) :
      ∃ s', some (pushZero t) = some s' ∧ Refines s' ⟨(map i).getD [0] :: bs, map⟩ := by
    rw [hmap]
    exact ⟨_, rfl, push_spec ht hroom [0]⟩
  have helements := hs1.view.elements
  unfold Arrays.load
  rw [hpop, Option.bind_some]
  dsimp only
  cases hval : s1.val with
  | none =>
    rw [hval] at helements
    exact hzero hs1 (helements i)
  | some p =>
    rw [hval] at helements
    obtain ⟨w, hw, h1, hle, hwords⟩ := helements
    dsimp only
    rw [hw]
    dsimp only
    rw [uwrap_length h1 hle]
    by_cases hlt : i < w.wtw
    · have hlt' : i ≤ w.lastw := hlt.le.trans hwords.le
      rw [if_pos (by unfold PTRSZ; omega), seekc_eq junk hlt', max_eq_left hlt.le]
      have hgetwd : (WBlk.mk w.words i w.wtw w.lastw).getwd =
          (w.words i, ⟨w.words, i + 1, w.wtw, w.lastw⟩) := if_neg hlt.ne
      rw [hgetwd]
      dsimp only
      -- only the place to read from has changed
      have hread : Refines
          { s1 with
            heap := update s1.heap p (some (.array ⟨w.words, i + 1, w.wtw, w.lastw⟩)), val := some p }
          ⟨bs, map⟩ := by
        have hkeep : ∀ y c, s1.heap y = some (.bytes c) → update s1.heap p
            (some (.array ⟨w.words, i + 1, w.wtw, w.lastw⟩)) y = some (.bytes c) := fun y c hc =>
          (update_of_ne (ne_of_heap hc (by simp [hw])) _ _).trans hc
        refine ⟨hs1.free.put hw _ s1.stack (some p), ⟨?_, hs1.view.nodup, ?_⟩, hs1.room⟩
        · refine forall₂_frame hs1.view.blocks fun y hy => ?_
          obtain ⟨c, hc⟩ := mem_blocks hs1.view.blocks hy
          exact (hkeep y c hc).trans hc.symm
        · have hsame : Words s1.heap s1.stack ⟨w.words, i + 1, w.wtw, w.lastw⟩ map :=
            ⟨hwords.le, hwords.elem, hwords.hole, hwords.past, hwords.inj⟩
          refine ⟨_, update_self _ _ _, h1, hle, hsame.frame fun k e c _ _ hout hc => ?_⟩
          exact ⟨hkeep e c hc, hout⟩
      cases hword : w.words i with
      | none => exact hzero hread (hwords.hole i hlt hword)
      | some e =>
        obtain ⟨-, c, hc, hmap⟩ := hwords.elem i hlt e hword
        have hmap : map i = some c := hmap
        dsimp only
        rw [update_of_ne (ne_of_heap hc (by simp [hw])), hc, hmap]
        exact ⟨_, rfl, push_spec hread hroom c⟩
    · rw [if_neg (by unfold PTRSZ; omega)]
      exact hzero hs1 (hwords.past i (Nat.not_lt.mp hlt))

/-! ### Runs -/

/-- The commands one after the other, each with what it finds in `divxyz` and in new memory. -/
def run : State → List (Cmd × Blk × Junk) → Option State
  | s, [] => some s
  | s, (c, divxyz, junk) :: cs => (step divxyz junk s c).bind fun s => run s cs

inductive Abs.Run : Abs → List Cmd → Abs → Prop
  | nil {a} : Run a [] a
  | cons {a b a' c cs} (h : Step a c b) (hrest : Run b cs a') : Run a (c :: cs) a'

theorem free_init : Free init :=
  ⟨List.nodup_nil, fun _ h => absurd h List.not_mem_nil, fun _ _ => rfl⟩

/-- Before the array is made, whatever blocks are in use elsewhere. -/
theorem refines_empty {s : State} (hf : Free s) (hstack : s.stack = []) (hval : s.val = none) :
    Refines s ⟨[], fun _ => none⟩ := by
  refine ⟨hf, ?_, Nat.zero_le _⟩
  rw [hstack, hval]
  exact ⟨.nil, List.nodup_nil, fun _ => rfl⟩

theorem step_refines (divxyz : Blk) (junk : Junk) {s : State} {a a' : Abs} {c : Cmd}
    (hs : Refines s a) (h : Abs.Step a c a') :
    ∃ s', step divxyz junk s c = some s' ∧ Refines s' a' := by
  cases h with
  | push hroom => exact ⟨_, rfl, push_spec hs hroom _⟩
  | drop => exact drop_spec hs divxyz junk
  | store hi => exact store_spec divxyz junk hs hi
  | load hi => exact load_spec divxyz junk hs hi

theorem run_refines {cs : List (Cmd × Blk × Junk)} : ∀ {s : State} {a a' : Abs}, Refines s a →
    Abs.Run a (cs.map (·.1)) a' → ∃ s', run s cs = some s' ∧ Refines s' a' := by
  induction cs with
  | nil =>
    intro s a a' hs h
    cases h
    exact ⟨s, rfl, hs⟩
  | cons c cs ih =>
    intro s a a' hs h
    obtain ⟨c, divxyz, junk⟩ := c
    cases h with
    | cons hstep hrest =>
      obtain ⟨s1, hs1, hrefines⟩ := step_refines divxyz junk hs hstep
      obtain ⟨s', hs', hrefines'⟩ := ih hrefines hrest
      refine ⟨s', ?_, hrefines'⟩
      rw [run, hs1, Option.bind_some, hs']

/-- An array is a map: a load gives what has last been stored at its index, or 0. -/
theorem run_map {s : State} {cs : List (Cmd × Blk × Junk)} {a : Abs} (hf : Free s)
    (hstack : s.stack = []) (hval : s.val = none)
    (h : Abs.Run ⟨[], fun _ => none⟩ (cs.map (·.1)) a) :
    ∃ s', run s cs = some s' ∧ s'.stack.map s'.heap = a.stack.map (some ∘ Block.bytes) := by
  obtain ⟨s', hrun, hs'⟩ := run_refines (refines_empty hf hstack hval) h
  exact ⟨s', hrun, map_blocks hs'.view.blocks⟩

theorem isIndex_digit {i : ℕ} (h1 : 1 ≤ i) (h : i < 100) : IsIndex [(i : ℤ), 0] i := by
  have hnorm : Normal [(i : ℤ)] := by
    refine normal_of_digits (fun d hd => ?_) fun ds heq => ?_
    · rw [List.mem_singleton.mp hd]
      omega
    · obtain ⟨-, hi⟩ := List.append_inj' (show [] ++ [(i : ℤ)] = ds ++ [0] from heq) rfl
      have hi' : (i : ℤ) = 0 := (List.cons.inj hi).1
      omega
  have hval : value 100 [(i : ℤ)] = i := by simp
  refine ⟨[(i : ℤ)], 0, rfl, Or.inl hnorm, ?_, ?_, by omega⟩
  · rw [hval]
    omega
  · rw [hval, pow_zero, Int.ediv_one]

/-- 7 at 3, 5 at 4, and then what is at 3. -/
theorem run_map_three : ∃ s, run init (([.push [7, 0], .push [3, 0], .store, .push [5, 0],
      .push [4, 0], .store, .push [3, 0], .load] : List Cmd).map fun c =>
        (c, [], fun _ => some 9)) = some s ∧
      s.stack.map s.heap = ([[7, 0]] : List Blk).map (some ∘ Block.bytes) := by
  refine run_map (a := ⟨[[7, 0]],
    update (update (fun _ => none) 3 (some [7, 0])) 4 (some [5, 0])⟩) free_init rfl rfl ?_
  have h3 : IsIndex [3, 0] 3 := isIndex_digit (by decide) (by decide)
  have h4 : IsIndex [4, 0] 4 := isIndex_digit (by decide) (by decide)
  exact .cons (.push (by decide)) <| .cons (.push (by decide)) <| .cons (.store h3) <|
    .cons (.push (by decide)) <| .cons (.push (by decide)) <| .cons (.store h4) <|
    .cons (.push (by decide)) <| .cons (.load h3) .nil

end Unitas.Dc.Arrays
