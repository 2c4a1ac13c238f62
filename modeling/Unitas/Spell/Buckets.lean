import Unitas.Spell.Spellin

/-! What `spellin` has stored: a bucket of differences for each upper part of the hash values. -/
namespace Unitas.Spell
open Unitas.WordBits

/-- The hash values of a bucket. -/
def inBucket (hs : List ℕ) (i : ℕ) : List ℕ := hs.filter fun h => h >>> (HASHWIDTH - INDEXWIDTH) = i

/-- The least hash value of a bucket. -/
def base (i : ℕ) : ℕ := i <<< (HASHWIDTH - INDEXWIDTH)

variable {hc : Huff}

/-- What `spellin` keeps while it takes the hash values. -/
structure Inv (hc : Huff) (s : State) (hs : List ℕ) : Prop where
  bp : 1 ≤ s.bp ∧ s.bp ≤ 32
  zero : ∀ j, s.off ≤ j → bit s.table j = false
  cur : Codes hc s.table (32 * s.hindex s.u) (diffs (base s.u) (inBucket hs s.u)) s.off
  done : ∀ i < s.u,
    Stored hc s.table (s.hindex i) (s.hindex (i + 1)) (diffs (base i) (inBucket hs i))
  hindex : ∀ i ≤ s.u, 32 * s.hindex i ≤ s.off
  le : ∀ h ∈ hs, h >>> (HASHWIDTH - INDEXWIDTH) ≤ s.u
  k : s.k = (inBucket hs s.u).getLastD (base s.u)
  word : s.word ≤ ND - 1

theorem inv_init : Inv hc State.init [] where
  bp := by decide
  zero j _ := by
    show (0 : BitVec 32).getMsbD _ = false
    simp
  cur := rfl
  done i hi := absurd hi (Nat.not_lt_zero i)
  hindex _ _ := Nat.zero_le _
  le h hh := absurd hh (by simp)
  k := rfl
  word := by decide

theorem inBucket_of_lt {hs : List ℕ} {u i : ℕ}
    (hle : ∀ h ∈ hs, h >>> (HASHWIDTH - INDEXWIDTH) ≤ u) (hi : u < i) : inBucket hs i = [] := by
  refine List.filter_eq_nil_iff.mpr fun h hh => ?_
  have := hle h hh
  simp only [decide_eq_true_eq]
  omega

theorem off_le_word {s : State} (hbp : 1 ≤ s.bp ∧ s.bp ≤ 32) : s.off ≤ 32 * s.word := by
  unfold State.off State.word B
  split <;> omega

theorem Inv.bucket {s : State} {hs : List ℕ} (h : Inv hc s hs) {t : ℕ} (ht : s.u ≤ t) :
    Inv hc (s.bucket t) hs ∧ (s.bucket t).u = t := by
  unfold State.bucket
  split
  next heq => exact ⟨h, heq.symm⟩
  next hne =>
    have hlt : s.u < t := by omega
    have hmax : max s.u t = t := by omega
    have hword := off_le_word h.bp
    have hempty (i : ℕ) (hi : s.u < i) : inBucket hs i = [] := inBucket_of_lt h.le hi
    have hoff : 32 * s.word + (32 - B) = 32 * s.word := rfl
    refine ⟨⟨by simp [B], fun j hj => h.zero j (le_trans hword (hoff ▸ hj)), ?_, fun i hi => ?_,
      fun i hi => ?_, fun x hx => ?_, ?_, h.word⟩, hmax⟩
    · simp only [hmax, hlt, le_refl, and_self, if_true, hempty t hlt]
      exact hoff.symm
    · simp only [hmax] at hi
      rcases Nat.lt_trichotomy i s.u with hiu | rfl | hiu
      · have h1 : ¬ (s.u < i ∧ i ≤ t) := by omega
        have h2 : ¬ (s.u < i + 1 ∧ i + 1 ≤ t) := by omega
        simp only [h1, h2, if_false]
        exact h.done i hiu
      · have h1 : ¬ (s.u < s.u ∧ s.u ≤ t) := by omega
        have h2 : s.u < s.u + 1 ∧ s.u + 1 ≤ t := by omega
        simp only [h1, h2, and_self, if_true, if_false]
        refine ⟨s.off, h.cur, hword, fun hnil => ?_, fun j hj _ => h.zero j hj⟩
        have hcur := h.cur
        rw [hnil] at hcur
        have hcur : 32 * s.hindex s.u = s.off := hcur
        have := h.bp
        unfold State.off at hcur
        unfold State.word B
        split <;> omega
      · have h1 : s.u < i ∧ i ≤ t := by omega
        have h2 : s.u < i + 1 ∧ i + 1 ≤ t := by omega
        simp only [h1, h2, and_self, if_true, hempty i hiu]
        exact ⟨32 * s.word, rfl, le_refl _, fun _ => rfl, fun j h1 h2 => by omega⟩
    · simp only [hmax] at hi ⊢
      split
      · exact Nat.le_add_right _ _
      · exact le_trans (h.hindex i (by omega)) (le_trans hword (Nat.le_add_right _ _))
    · simp only [hmax]
      exact le_trans (h.le x hx) ht
    · simp only [hmax, hempty t hlt]
      rfl

theorem Inv.item (hg : hc.Good) {s : State} {hs : List ℕ} (h : Inv hc s hs) {x : ℕ}
    (hx : s.u ≤ x >>> (HASHWIDTH - INDEXWIDTH)) (hign : (s.item hc x).ignore = s.ignore)
    (hext : (s.item hc x).extra = s.extra) :
    Inv hc (s.item hc x) (hs ++ [x]) ∧ (s.item hc x).u = x >>> (HASHWIDTH - INDEXWIDTH) := by
  obtain ⟨hb, hu⟩ := h.bucket hx
  have hsame : (s.bucket (x >>> (HASHWIDTH - INDEXWIDTH))).ignore = s.ignore ∧
      (s.bucket (x >>> (HASHWIDTH - INDEXWIDTH))).extra = s.extra := by
    unfold State.bucket
    split <;> exact ⟨rfl, rfl⟩
  simp only [State.item] at hign hext ⊢
  set b := s.bucket (x >>> (HASHWIDTH - INDEXWIDTH)) with hbdef
  obtain ⟨hpos, heq⟩ := entry_eq hg (s := { b with k := x }) (hext.trans hsame.2.symm)
  rw [heq] at hign ⊢
  cases hcode : hc.encode (x - b.k) with
  | mk l code =>
    rw [hcode] at hign hpos
    dsimp only at hign hpos ⊢
    have hl : l ≠ 0 := Nat.pos_iff_ne_zero.mp hpos
    obtain ⟨w1, hadd, hw, hat, hword⟩ := put_spec hg (s := { b with k := x }) hb.bp hb.zero hcode hl
      (hign.trans hsame.1.symm)
    set s' := State.put { b with k := x } l code with hs'
    have hboff : State.off { b with k := x } = b.off := rfl
    rw [hboff] at hat
    have hoff : s'.off = b.off + l := hadd.off
    have hkeep (j : ℕ) (hj : j < b.off) : bit b.table j = bit s'.table j := by
      rw [hadd.bit j, hboff]
      simp [not_le.mpr hj]
    have hindex : s'.hindex = b.hindex := by rw [hadd.eq]
    have hk : s'.k = x := by rw [hadd.eq]
    have hu' : s'.u = b.u := by rw [hadd.eq]
    have hin (i : ℕ) : inBucket (hs ++ [x]) i = inBucket hs i ++ if i = b.u then [x] else [] := by
      rw [inBucket, List.filter_append, hu]
      simp only [List.filter_cons, List.filter_nil, decide_eq_true_eq, eq_comm (a := i)]
      rfl
    refine ⟨⟨hadd.bp, fun j hj => ?_, ?_, fun i hi => ?_, fun i hi => ?_, fun y hy => ?_, ?_, hword⟩,
      hu'.trans hu⟩
    · rw [hadd.bit j, hboff, hb.zero j (by omega), hw _ (by omega), Bool.and_false, Bool.or_false]
    · rw [hu', hindex, hin, if_pos rfl, diffs_append, ← hb.k, codes_append]
      exact ⟨b.off, hb.cur.congr fun j _ hj => hkeep j hj, l, hat, hoff.symm⟩
    · rw [hu'] at hi
      rw [hindex, hin, if_neg (Nat.ne_of_lt hi), List.append_nil]
      exact (hb.done i hi).congr fun j hj => hkeep j (lt_of_lt_of_le hj (hb.hindex _ hi))
    · rw [hindex]
      rw [hu'] at hi
      exact le_trans (hb.hindex i hi) (by omega)
    · rw [hu']
      rcases List.mem_append.mp hy with hy | hy
      · exact hb.le y hy
      · rw [List.mem_singleton.mp hy, hu]
    · rw [hk, hu', hin, if_pos rfl]
      simp

theorem item_le (s : State) (x : ℕ) :
    s.ignore ≤ (s.item hc x).ignore ∧ s.extra ≤ (s.item hc x).extra := by
  have hsame : (s.bucket (x >>> (HASHWIDTH - INDEXWIDTH))).ignore = s.ignore ∧
      (s.bucket (x >>> (HASHWIDTH - INDEXWIDTH))).extra = s.extra := by
    unfold State.bucket
    split <;> exact ⟨rfl, rfl⟩
  obtain ⟨h1, h2⟩ := @entry_le hc
    (x - (s.bucket (x >>> (HASHWIDTH - INDEXWIDTH))).k + 1)
    (x - (s.bucket (x >>> (HASHWIDTH - INDEXWIDTH))).k)
    { s.bucket (x >>> (HASHWIDTH - INDEXWIDTH)) with k := x }
  exact ⟨le_trans hsame.1.ge h1, le_trans hsame.2.ge h2⟩

theorem foldl_le (l : List ℕ) (s : State) :
    s.ignore ≤ (l.foldl (State.item hc) s).ignore ∧ s.extra ≤ (l.foldl (State.item hc) s).extra := by
  induction l generalizing s with
  | nil => exact ⟨le_refl _, le_refl _⟩
  | cons x l ih =>
    obtain ⟨h1, h2⟩ := @item_le hc s x
    obtain ⟨h3, h4⟩ := ih (s.item hc x)
    exact ⟨le_trans h1 h3, le_trans h2 h4⟩

theorem Inv.foldl (hg : hc.Good) {l : List ℕ} {s : State} {hs : List ℕ} (h : Inv hc s hs)
    (hsorted : l.Pairwise (· ≤ ·)) (hl : ∀ x ∈ l, s.u ≤ x >>> (HASHWIDTH - INDEXWIDTH))
    (hign : (l.foldl (State.item hc) s).ignore = s.ignore)
    (hext : (l.foldl (State.item hc) s).extra = s.extra) :
    Inv hc (l.foldl (State.item hc) s) (hs ++ l) ∧ ((l.foldl (State.item hc) s).u = s.u ∨
      ∃ x ∈ l, (l.foldl (State.item hc) s).u = x >>> (HASHWIDTH - INDEXWIDTH)) := by
  induction l generalizing s hs with
  | nil => exact ⟨by simpa using h, .inl rfl⟩
  | cons x l ih =>
    obtain ⟨h1, h2⟩ := @item_le hc s x
    obtain ⟨h3, h4⟩ := @foldl_le hc l (s.item hc x)
    rw [List.foldl_cons] at hign hext ⊢
    obtain ⟨hx, hsorted⟩ := List.pairwise_cons.mp hsorted
    obtain ⟨hinv, hu⟩ := Inv.item hg h (hl x List.mem_cons_self) (by omega) (by omega)
    have hl' (y) (hy : y ∈ l) : (s.item hc x).u ≤ y >>> (HASHWIDTH - INDEXWIDTH) := by
      rw [hu, Nat.shiftRight_eq_div_pow, Nat.shiftRight_eq_div_pow]
      exact Nat.div_le_div_right (hx y hy)
    obtain ⟨hinv', hu'⟩ := ih hinv hsorted hl' (by omega) (by omega)
    refine ⟨by rwa [List.append_assoc] at hinv', .inr ?_⟩
    rcases hu' with hu' | ⟨y, hy, hu'⟩
    · exact ⟨x, List.mem_cons_self, hu'.trans hu⟩
    · exact ⟨y, List.mem_cons_of_mem x hy, hu'⟩

theorem upper_lt {h : ℕ} (hlt : h < 2 ^ HASHWIDTH) : h >>> (HASHWIDTH - INDEXWIDTH) < INDEXSIZE := by
  rw [Nat.shiftRight_eq_div_pow]
  unfold HASHWIDTH at hlt ⊢
  unfold INDEXSIZE INDEXWIDTH
  omega

/-- Each bucket is stored, and behind the last word there are zeros. -/
theorem spellin_stored (hg : hc.Good) {hs : List ℕ} (hsorted : hs.Pairwise (· < ·))
    (hlt : ∀ h ∈ hs, h < 2 ^ HASHWIDTH) (hign : (spellin hc hs).ignore = 0)
    (hext : (spellin hc hs).extra = 0) :
    (∀ i < INDEXSIZE, Stored hc (spellin hc hs).table ((spellin hc hs).hindex i)
      ((spellin hc hs).hindex (i + 1)) (diffs (base i) (inBucket hs i))) ∧
    (∀ i ≤ INDEXSIZE, (spellin hc hs).hindex i ≤ (spellin hc hs).wp) ∧
    (spellin hc hs).hindex INDEXSIZE = (spellin hc hs).wp ∧ (spellin hc hs).wp < ND ∧
    ∀ j, 32 * (spellin hc hs).wp ≤ j → bit (spellin hc hs).table j = false := by
  obtain ⟨hinv, hu⟩ :=
    Inv.foldl hg inv_init (hsorted.imp Nat.le_of_lt) (fun _ _ => Nat.zero_le _) hign hext
  rw [List.nil_append] at hinv
  set s := hs.foldl (State.item hc) State.init with hs'
  have hlast : s.u < INDEXSIZE := by
    rcases hu with hu | ⟨x, hx, hu⟩
    · rw [hu]
      decide
    · rw [hu]
      exact upper_lt (hlt x hx)
  -- The last index entries are filled in as if there were one bucket more.
  obtain ⟨hb, hbu⟩ := hinv.bucket (Nat.le_of_lt hlast)
  have hne : INDEXSIZE ≠ s.u := by omega
  have htable : (spellin hc hs).table = (s.bucket INDEXSIZE).table := by
    simp only [State.bucket, hne, if_false]
    rfl
  have hindex : (spellin hc hs).hindex = (s.bucket INDEXSIZE).hindex := by
    simp only [State.bucket, hne, if_false, ← Nat.lt_succ_iff]
    rfl
  have hwp : (spellin hc hs).wp = s.word := rfl
  have hoff : (s.bucket INDEXSIZE).off = 32 * s.word := by
    simp [State.bucket, hne, State.off, B]
  rw [hindex, htable, hwp]
  refine ⟨fun i hi => hb.done i (by omega), fun i hi => ?_, ?_,
    lt_of_le_of_lt hinv.word (by decide), fun j hj => hb.zero j ?_⟩
  · have := hb.hindex i (by omega)
    rw [hoff] at this
    omega
  · simp [State.bucket, hne, hlast]
  · rw [hoff]
    exact hj

end Unitas.Spell
