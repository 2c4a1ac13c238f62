import Unitas.Spell.Lookup

/-! The compressed spelling list: what `spellin` writes is what `hashlook` and `hashcheck` find. -/
namespace Unitas.Spell
open Unitas.WordBits

def ple32 (a b c d : UInt8) : BitVec 32 :=
  a.toBitVec.setWidth 32 + (b.toBitVec.setWidth 32 <<< 8) + (c.toBitVec.setWidth 32 <<< 16) +
    (d.toBitVec.setWidth 32 <<< 24)

def readWords : List UInt8 → List (BitVec 32)
  | a :: b :: c :: d :: cp => ple32 a b c d :: readWords cp
  | _ => []

/-- `rhuff` -/
def Huff.ofWords : List (BitVec 32) → Option Huff
  | [n, w, c, cq, cs, qcs, v0] =>
    some ⟨n.toNat, w.toNat, c.toNat, cq.toNat, cs.toNat, qcs.toNat, v0.toInt⟩
  | _ => none

/-- The parts of a file, if all are there. -/
def parts (file : List UInt8) : Option (Huff × List ℕ × List (BitVec 32)) :=
  let words := readWords file
  (Huff.ofWords (words.take 7)).bind fun hc =>
    let hindex := ((words.drop 7).take NI).map BitVec.toNat
    let table := (words.drop (7 + NI)).take (hindex.getD (NI - 1) 0)
    if hindex.length = NI ∧ table.length = hindex.getD (NI - 1) 0 then some (hc, hindex, table)
    else none

/-- `prime`, with a zero word after the table -/
def prime (file : List UInt8) : Option Speller :=
  (parts file).map fun (hc, hindex, table) => ⟨hc, (hindex.getD · 0), (table.getD · 0)⟩

/-- What `hashcheck` reads. After the table comes what is beyond its memory. -/
def checkPrime (beyond : ℕ → BitVec 32) (file : List UInt8) : Option Speller :=
  (parts file).map fun (hc, hindex, table) =>
    ⟨hc, (hindex.getD · 0), fun i => table.getD i (beyond i)⟩

theorem ple32_le32p (t : BitVec 32) (cp : List UInt8) :
    readWords (le32p t ++ cp) = t :: readWords cp := by
  simp only [le32p, List.cons_append, List.nil_append, readWords, List.cons.injEq, and_true]
  refine BitVec.eq_of_toNat_eq ?_
  have := t.isLt
  simp only [ple32, BitVec.toNat_add, BitVec.toNat_shiftLeft, BitVec.toNat_setWidth,
    BitVec.toNat_ushiftRight, Nat.shiftLeft_eq, Nat.shiftRight_eq_div_pow]
  omega

theorem readWords_le32p (ts : List (BitVec 32)) : readWords (ts.flatMap le32p) = ts := by
  induction ts with
  | nil => rfl
  | cons t ts ih => rw [List.flatMap_cons, ple32_le32p, ih]

/-- The parameters fit into words. -/
theorem ofWords_words {hc : Huff} (hg : hc.Good) : Huff.ofWords hc.words = some hc := by
  have hw := hg.w
  have hw21 := hg.w_le
  have hpow := hg.two_pow_w
  have hn := hg.n
  have hsum := hg.n_add_c
  have h20 : 2 ^ (hc.w - 1) ≤ 2 ^ 20 := Nat.pow_le_pow_right (by decide) (by omega)
  have hcq := hg.cq
  have hcs : hc.cs < 2 ^ 32 := by
    have : hc.cq * 2 ^ (31 - hc.w) ≤ 2 ^ hc.w * 2 ^ (31 - hc.w) := Nat.mul_le_mul_right _ (by omega)
    rw [← pow_add, show hc.w + (31 - hc.w) = 31 by omega] at this
    rw [hg.cs]
    omega
  have hqcs : hc.qcs < 2 ^ 32 := by
    have : (2 ^ hc.w + hc.cq) * 2 ^ (30 - hc.w) ≤ (2 ^ hc.w * 2) * 2 ^ (30 - hc.w) :=
      Nat.mul_le_mul_right _ (by omega)
    rw [← pow_succ, ← pow_add, show hc.w + 1 + (30 - hc.w) = 31 by omega] at this
    rw [hg.qcs]
    omega
  have hv0 : (BitVec.ofInt 32 hc.v0).toInt = hc.v0 := by
    have := hg.v0
    rw [BitVec.toInt_ofInt, Int.bmod_def]
    norm_num
    omega
  simp only [Huff.words, Huff.ofWords, hv0, BitVec.toNat_ofNat]
  rw [Nat.mod_eq_of_lt (by omega), Nat.mod_eq_of_lt (by omega), Nat.mod_eq_of_lt (by omega),
    Nat.mod_eq_of_lt (by omega), Nat.mod_eq_of_lt hcs, Nat.mod_eq_of_lt hqcs]

/-- The parts are read as they are written. -/
theorem parts_file {hc : Huff} (hg : hc.Good) {s : State} (hlt : s.wp < ND)
    (hle : ∀ i ≤ INDEXSIZE, s.hindex i ≤ s.wp) (hlast : s.hindex INDEXSIZE = s.wp) :
    parts (s.file hc) =
      some (hc, (List.range NI).map s.hindex, (List.range s.wp).map s.table) := by
  have h7 : hc.words.length = 7 := rfl
  have hNI : ((List.range NI).map fun i => BitVec.ofNat 32 (s.hindex i)).length = NI := by simp
  have hwords : readWords (s.file hc) = s.words hc := readWords_le32p _
  have htake : (s.words hc).take 7 = hc.words := by
    rw [State.words, List.append_assoc, ← h7, List.take_left]
  have hdrop : (s.words hc).drop 7 = ((List.range NI).map fun i => BitVec.ofNat 32 (s.hindex i)) ++
      (List.range s.wp).map s.table := by
    rw [State.words, List.append_assoc, ← h7, List.drop_left]
  have hindex : (((s.words hc).drop 7).take NI).map BitVec.toNat = (List.range NI).map s.hindex := by
    rw [hdrop, List.take_left' hNI, List.map_map]
    refine List.map_congr_left fun i hi => ?_
    rw [List.mem_range] at hi
    have := hle i (Nat.lt_succ_iff.mp hi)
    have hND : ND < 2 ^ 32 := by decide
    simp only [Function.comp_apply, BitVec.toNat_ofNat]
    rw [Nat.mod_eq_of_lt (by omega)]
  have htable : (s.words hc).drop (7 + NI) = (List.range s.wp).map s.table := by
    rw [← List.drop_drop, hdrop, List.drop_left' hNI]
  have hsize : ((List.range NI).map s.hindex).getD (NI - 1) 0 = s.wp := by
    rw [← hlast]
    simp [List.getD_eq_getElem?_getD, NI]
  simp only [parts, hwords, htake, ofWords_words hg, Option.bind_some, hindex, htable, hsize]
  rw [List.take_of_length_le (by simp)]
  simp

/-- Each bucket as a reader has it. -/
theorem bucket_values {hs : List ℕ} (hsorted : hs.Pairwise (· < ·)) (i : ℕ) :
    sums (base i) (diffs (base i) (inBucket hs i)) = inBucket hs i := by
  refine sums_diffs (hsorted.sublist List.filter_sublist) fun h hh => ?_
  have := (List.mem_filter.mp hh).2
  rw [decide_eq_true_eq, Nat.shiftRight_eq_div_pow] at this
  rw [base, Nat.shiftLeft_eq, ← this]
  exact Nat.div_mul_le_self _ _

theorem filter_succ {hs : List ℕ} (hsorted : hs.Pairwise (· < ·)) (m : ℕ) :
    (hs.filter fun h => h >>> (HASHWIDTH - INDEXWIDTH) < m) ++ inBucket hs m =
      hs.filter fun h => h >>> (HASHWIDTH - INDEXWIDTH) < m + 1 := by
  induction hs with
  | nil => rfl
  | cons x hs ih =>
    obtain ⟨hlt, hsorted⟩ := List.pairwise_cons.mp hsorted
    have ih := ih hsorted
    unfold inBucket at ih ⊢
    by_cases hx : x >>> (HASHWIDTH - INDEXWIDTH) < m
    · have h1 : x >>> (HASHWIDTH - INDEXWIDTH) < m + 1 := by omega
      have h2 : ¬ x >>> (HASHWIDTH - INDEXWIDTH) = m := by omega
      rw [List.filter_cons_of_pos (by simpa using hx), List.filter_cons_of_neg (by simpa using h2),
        List.filter_cons_of_pos (by simpa using h1), List.cons_append, ih]
    · -- No later value is in an earlier bucket.
      have hnil : (hs.filter fun h => h >>> (HASHWIDTH - INDEXWIDTH) < m) = [] := by
        refine List.filter_eq_nil_iff.mpr fun y hy => ?_
        have := hlt y hy
        simp only [decide_eq_true_eq]
        rw [Nat.shiftRight_eq_div_pow] at hx ⊢
        have := Nat.div_le_div_right (c := 2 ^ (HASHWIDTH - INDEXWIDTH)) (Nat.le_of_lt this)
        omega
      rw [hnil, List.nil_append] at ih
      rw [List.filter_cons_of_neg (by simpa using hx), hnil, List.nil_append]
      by_cases hm : x >>> (HASHWIDTH - INDEXWIDTH) = m
      · have h1 : x >>> (HASHWIDTH - INDEXWIDTH) < m + 1 := by omega
        rw [List.filter_cons_of_pos (by simpa using hm), List.filter_cons_of_pos (by simpa using h1), ih]
      · have h1 : ¬ x >>> (HASHWIDTH - INDEXWIDTH) < m + 1 := by omega
        rw [List.filter_cons_of_neg (by simpa using hm), List.filter_cons_of_neg (by simpa using h1), ih]

/-- Sorted values are those of the buckets, one after the other. -/
theorem flatMap_inBucket {hs : List ℕ} (hsorted : hs.Pairwise (· < ·)) (m : ℕ) :
    (List.range m).flatMap (inBucket hs) = hs.filter fun h => h >>> (HASHWIDTH - INDEXWIDTH) < m := by
  induction m with
  | zero => simp
  | succ m ih => rw [List.range_succ, List.flatMap_append, ih, List.flatMap_singleton, filter_succ hsorted]

theorem diffs_pos {k : ℕ} {hs : List ℕ} (hsorted : hs.Pairwise (· < ·)) :
    ∀ d ∈ (diffs k hs).tail, 0 < d := by
  have hpos {k : ℕ} {hs : List ℕ} (hsorted : (k :: hs).Pairwise (· < ·)) : ∀ d ∈ diffs k hs, 0 < d := by
    induction hs generalizing k with
    | nil => simp [diffs]
    | cons h hs ih =>
      obtain ⟨hlt, hsorted⟩ := List.pairwise_cons.mp hsorted
      intro d hd
      rcases List.mem_cons.mp hd with rfl | hd
      · have := hlt h List.mem_cons_self
        omega
      · exact ih hsorted d hd
  cases hs with
  | nil => simp [diffs]
  | cons h hs => exact hpos hsorted

theorem mapM_some {α β : Type} {l : List α} {f : α → Option β} {g : α → β}
    (h : ∀ a ∈ l, f a = some (g a)) : l.mapM f = some (l.map g) := by
  induction l with
  | nil => rfl
  | cons a l ih =>
    rw [List.mapM_cons, h a List.mem_cons_self, ih fun b hb => h b (List.mem_cons_of_mem a hb)]
    rfl

section Law
variable {hs : List ℕ} {x : Speller} {wp : ℕ}

/-- A reader whose table has the buckets finds the values of the list. -/
theorem hashlook_eq (hg : x.hc.Good) (hsorted : hs.Pairwise (· < ·))
    (hstored : ∀ i < INDEXSIZE, Stored x.hc x.table (x.hindex i) (x.hindex (i + 1))
      (diffs (base i) (inBucket hs i)))
    (hle : ∀ i ≤ INDEXSIZE, x.hindex i ≤ wp) {h turns : ℕ} (hh : h < 2 ^ HASHWIDTH)
    (hturns : 32 * wp < turns) : x.hashlook turns h = some (decide (h ∈ hs)) := by
  have ht := upper_lt hh
  obtain ⟨off, hcodes, hoff, hnil, hzero⟩ := hstored _ ht
  have hwp := hle (h >>> (HASHWIDTH - INDEXWIDTH) + 1) ht
  have h0 : 32 * x.hindex (h >>> (HASHWIDTH - INDEXWIDTH)) + (32 - B) =
      32 * x.hindex (h >>> (HASHWIDTH - INDEXWIDTH)) := rfl
  rw [Speller.hashlook, lookLoop_codes hg (by decide) (le_refl B) (h0 ▸ hcodes) hoff hzero ?_ (by omega),
    bucket_values hsorted]
  · congr 1
    rw [decide_eq_decide, inBucket, List.mem_filter]
    simp
  · by_cases hds : diffs (base (h >>> (HASHWIDTH - INDEXWIDTH)))
        (inBucket hs (h >>> (HASHWIDTH - INDEXWIDTH))) = []
    · exact .inr (.inr (by rw [h0, hnil hds]))
    · exact .inl hds

/-- It prints the list. -/
theorem hashcheck_eq (hg : x.hc.Good) (hsorted : hs.Pairwise (· < ·))
    (hlt : ∀ h ∈ hs, h < 2 ^ HASHWIDTH)
    (hstored : ∀ i < INDEXSIZE, Stored x.hc x.table (x.hindex i) (x.hindex (i + 1))
      (diffs (base i) (inBucket hs i)))
    (hle : ∀ i ≤ INDEXSIZE, x.hindex i ≤ wp) {turns : ℕ} (hturns : 32 * wp < turns) :
    x.hashcheck turns = some (hs.flatMap line) := by
  have hbucket (i : ℕ) (hi : i < INDEXSIZE) :
      x.checkLoop i turns (x.hindex i) B (base i) = some (inBucket hs i) := by
    obtain ⟨off, hcodes, hoff, hnil, hzero⟩ := hstored i hi
    have hwp := hle (i + 1) hi
    have h0 : 32 * x.hindex i + (32 - B) = 32 * x.hindex i := rfl
    rw [checkLoop_codes hg (by decide) (le_refl B) (h0 ▸ hcodes) hoff hzero
      (fun h => .inr (.inr (hnil h))) (le_refl _) (diffs_pos (hsorted.sublist List.filter_sublist))
      (.inl ⟨rfl, rfl⟩) (by omega), bucket_values hsorted]
  have hself : (hs.filter fun h => h >>> (HASHWIDTH - INDEXWIDTH) < INDEXSIZE) = hs :=
    List.filter_eq_self.mpr fun h hh => decide_eq_true (upper_lt (hlt h hh))
  have hNI : NI - 1 = INDEXSIZE := Nat.add_sub_cancel INDEXSIZE 1
  have hall : (List.range INDEXSIZE).mapM (fun i => x.checkLoop i turns (x.hindex i) B (base i)) =
      some ((List.range INDEXSIZE).map (inBucket hs)) :=
    mapM_some fun i hi => hbucket i (List.mem_range.mp hi)
  rw [Speller.hashcheck, hNI, hall, Option.map_some, ← List.flatMap_def, flatMap_inBucket hsorted,
    hself]

end Law

/-- What `spellin` has encoded without ignored or extra entries, `hashlook` finds, and nothing
else, and `hashcheck` prints. -/
theorem spell_list {d : ℕ} (h1 : 1 ≤ d) (h2 : d ≤ 2 ^ 20) {hs : List ℕ}
    (hsorted : hs.Pairwise (· < ·)) (hlt : ∀ h ∈ hs, h < 2 ^ HASHWIDTH)
    (hign : (spellin (huff d) hs).ignore = 0) (hext : (spellin (huff d) hs).extra = 0)
    (beyond : ℕ → BitVec 32) {turns : ℕ} (hturns : 32 * ND < turns) :
    (∀ h < 2 ^ HASHWIDTH, ((prime ((spellin (huff d) hs).file (huff d))).bind
      (·.hashlook turns h)) = some (decide (h ∈ hs))) ∧
    ((checkPrime beyond ((spellin (huff d) hs).file (huff d))).bind (·.hashcheck turns)) =
      some (hs.flatMap line) := by
  have hg := huff_good h1 h2
  obtain ⟨hstored, hle, hlast, hND, hzero⟩ := spellin_stored hg hsorted hlt hign hext
  set s := spellin (huff d) hs with hs'
  obtain ⟨index, table, hparts, hindex, htable⟩ : ∃ index table,
      parts (s.file (huff d)) = some (huff d, index, table) ∧
      (∀ i ≤ INDEXSIZE, index.getD i 0 = s.hindex i) ∧
      ∀ (f : ℕ → BitVec 32) (i), i < s.wp → table.getD i (f i) = s.table i := by
    refine ⟨_, _, parts_file hg hND hle hlast, fun i hi => ?_, fun f i hi => ?_⟩
    · have : i < NI := Nat.lt_succ_iff.mpr hi
      simp [List.getD_eq_getElem?_getD, this]
    · simp [List.getD_eq_getElem?_getD, hi]
  -- The readers see the buckets, whatever comes after the table.
  have hreader (f : ℕ → BitVec 32) (i : ℕ) (hi : i < INDEXSIZE) :
      Stored (huff d) (fun i => table.getD i (f i)) (index.getD i 0) (index.getD (i + 1) 0)
        (diffs (base i) (inBucket hs i)) := by
    rw [hindex i (Nat.le_of_lt hi), hindex (i + 1) hi]
    refine (hstored i hi).congr fun j hj => ?_
    have := hle (i + 1) hi
    unfold bit
    exact congrArg (·.getMsbD (j % 32)) (htable f (j / 32) (by omega)).symm
  have hle' (i : ℕ) (hi : i ≤ INDEXSIZE) : index.getD i 0 ≤ s.wp := by
    rw [hindex i hi]
    exact hle i hi
  have hbits : 32 * s.wp < turns := lt_of_le_of_lt (Nat.mul_le_mul_left 32 hND.le) hturns
  rw [prime, checkPrime, hparts, Option.map_some, Option.map_some]
  simp only [Option.bind_some]
  exact ⟨fun h hh => hashlook_eq hg hsorted (hreader fun _ => 0) hle' hh hbits,
    hashcheck_eq hg hsorted hlt (hreader beyond) hle' hbits⟩

/-- Two values in one bucket and one in another, with the code of the example in the source. -/
theorem spell_list_three :
    (∀ h < 2 ^ HASHWIDTH, ((prime ((spellin (huff 5) [0, 3, 262151]).file (huff 5))).bind
      (·.hashlook (32 * ND + 1) h)) = some (decide (h ∈ [0, 3, 262151]))) ∧
    ((checkPrime (fun _ => 0) ((spellin (huff 5) [0, 3, 262151]).file (huff 5))).bind
      (·.hashcheck (32 * ND + 1))) = some ([0, 3, 262151].flatMap line) :=
  spell_list (by decide) (by decide) (by decide) (by decide) (by decide +kernel) (by decide +kernel)
    (fun _ => 0) (Nat.lt_succ_self _)

end Unitas.Spell
