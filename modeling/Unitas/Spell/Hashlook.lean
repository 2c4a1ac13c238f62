import Mathlib.Data.Nat.Digits.Defs
import Unitas.Spell.Buckets

/-! `hashlook` and `hashcheck`, the readers of the table. -/
namespace Unitas.Spell
open Unitas.WordBits

/-- What a reader has read in. -/
structure Speller where
  hc : Huff
  hindex : ℕ → ℕ
  table : ℕ → BitVec 32

/-- `bp -= l` and then `while (bp <= 0) { bp += B; wp++; }`, which makes at most `l` turns. -/
def advance : ℕ → ℕ → ℕ → ℕ → ℕ × ℕ
  | 0, wp, bp, _ => (wp, bp)
  | turns + 1, wp, bp, l => if l < bp then (wp, bp - l) else advance turns (wp + 1) B (l - bp)

/-! `hashlook` decodes by itself. -/

/-- After 31 turns `y` is 0. -/
def Huff.lookLoop (hc : Huff) : ℕ → ℕ → ℕ → ℤ → ℕ × ℤ
  | 0, l, y, v => (l, v + (y >>> (L - hc.w) : ℕ))
  | turns + 1, l, y, v =>
    if y < hc.qcs then (l, v + (y >>> (L - hc.w) : ℕ))
    else hc.lookLoop turns (l + 1) ((y <<< 1) % 2 ^ L) (v + hc.n)

def Huff.look (hc : Huff) (y : ℕ) : ℕ × ℤ :=
  if y < hc.cs then (hc.w - 1, (y >>> (L + 1 - hc.w) : ℕ)) else hc.lookLoop L hc.w y hc.v0

def fetch (t : ℕ → BitVec 32) (wp bp : ℕ) : BitVec 32 :=
  t wp <<< (B - bp) ||| if bp < B then t (wp + 1) >>> bp else 0

/-- The loop of `hashlook`; the answer is missing while it goes on. -/
def Speller.lookLoop (x : Speller) (tp h : ℕ) : ℕ → ℕ → ℕ → ℕ → Option Bool
  | 0, _, _, _ => none
  | turns + 1, wp, bp, sum =>
    let (l, t) := x.hc.look (fetch x.table wp bp >>> 1).toNat
    let (wp, bp) := advance (l + 1) wp bp l
    if tp ≤ wp ∧ (tp < wp ∨ bp < B) then some false
    else
      let sum := sum + t.toNat
      if sum < h then x.lookLoop tp h turns wp bp sum else some (sum = h)

/-- `hashlook` of a word with the hash value `h`. -/
def Speller.hashlook (x : Speller) (turns h : ℕ) : Option Bool :=
  let t := h >>> (HASHWIDTH - INDEXWIDTH)
  x.lookLoop (x.hindex (t + 1)) h turns (x.hindex t) B (base t)

/-! `hashcheck`. -/

/-- The loop of `fetch` in `hashcheck`. -/
def fillLoop (t : ℕ → BitVec 32) : ℕ → ℕ → ℕ → ℕ → BitVec 32 → BitVec 32
  | 0, _, _, _, y => y
  | turns + 1, empty, i, tp, y =>
    if i ≤ empty then fillLoop t turns (empty - i) B (tp + 1) (y ||| t tp <<< (empty - i))
    else if 0 < empty then y ||| t tp >>> (i - empty)
    else y

/-- The values of bucket `i` from a place on. -/
def Speller.checkLoop (x : Speller) (i : ℕ) : ℕ → ℕ → ℕ → ℕ → Option (List ℕ)
  | 0, _, _, _ => none
  | turns + 1, wp, bp, v =>
    if x.hindex (i + 1) ≤ wp then some []
    else
      let (l, a) := x.hc.decode (fillLoop x.table (B + 1) B bp wp 0 >>> 1).toNat
      let (wp', bp') := advance (l + 1) wp bp l
      if ¬ (wp = x.hindex i ∧ bp = B) ∧ a = 0 then some []
      else if x.hindex (i + 1) < wp' ∨ (wp' = x.hindex (i + 1) ∧ bp' < B) then some []
      else (x.checkLoop i turns wp' bp' (v + a.toNat)).map ((v + a.toNat) :: ·)

/-- `printf("%.9lo\n", v)` -/
def line (v : ℕ) : List UInt8 :=
  let ds := (Nat.digits 8 v).reverse.map fun d => UInt8.ofNat (48 + d)
  List.replicate (9 - ds.length) 48 ++ ds ++ [10]

def Speller.hashcheck (x : Speller) (turns : ℕ) : Option (List UInt8) :=
  ((List.range (NI - 1)).mapM fun i => x.checkLoop i turns (x.hindex i) B (base i)).map
    fun vs => vs.flatten.flatMap line

/-! Places. -/

theorem advance_spec {turns wp bp l : ℕ} (h1 : 1 ≤ bp) (h32 : bp ≤ 32) (hl : l < turns) :
    1 ≤ (advance turns wp bp l).2 ∧ (advance turns wp bp l).2 ≤ 32 ∧
      32 * (advance turns wp bp l).1 + (32 - (advance turns wp bp l).2) =
        32 * wp + (32 - bp) + l := by
  induction turns generalizing wp bp l with
  | zero => omega
  | succ turns ih =>
    rw [advance]
    split
    · exact ⟨by dsimp only; omega, by dsimp only; omega, by dsimp only; omega⟩
    · obtain ⟨ha, hb, hc⟩ := @ih (wp + 1) B (l - bp) (by decide) (by decide) (by omega)
      refine ⟨ha, hb, hc.trans ?_⟩
      unfold B
      omega

theorem fetch_toNat (t : ℕ → BitVec 32) {wp bp : ℕ} (h1 : 1 ≤ bp) (h32 : bp ≤ 32) :
    (fetch t wp bp >>> 1).toNat = window t (32 * wp + (32 - bp)) L :=
  toNat_ushiftRight_one fun _ hj => getMsbD_fetch t h1 h32 hj

theorem fillLoop_eq (t : ℕ → BitVec 32) {wp bp : ℕ} (h1 : 1 ≤ bp) (h32 : bp ≤ 32) :
    fillLoop t (B + 1) B bp wp 0 = fetch t wp bp := by
  have h : ¬ B ≤ B - bp := by
    unfold B
    omega
  have hB : bp ≤ B := h32
  have hsub : B - (B - bp) = bp := Nat.sub_sub_self hB
  have hzero : (0 : BitVec 32) ||| t wp <<< (B - bp) = t wp <<< (B - bp) := BitVec.zero_or
  rw [fillLoop, if_pos hB, hzero]
  change (if B ≤ B - bp then _ else if 0 < B - bp then
    t wp <<< (B - bp) ||| t (wp + 1) >>> (B - (B - bp)) else t wp <<< (B - bp)) = _
  rw [if_neg h, hsub, fetch]
  by_cases hlt : bp < B
  · rw [if_pos (Nat.sub_pos_of_lt hlt), if_pos hlt]
  · rw [if_neg (by omega), if_neg hlt]
    exact BitVec.or_zero.symm

variable {hc : Huff} {t : ℕ → BitVec 32}

theorem decode_codeAt (hg : hc.Good) {off k l : ℕ} (h : CodeAt hc t off k l) :
    hc.decode (window t off L) = (l, (k : ℤ)) := by
  obtain ⟨hl, he⟩ := h
  obtain ⟨hlL, -⟩ := hg.encode_length he hl
  refine hg.decode_encode he hl (window_lt t off L) ?_
  have := window_div t off l (L - l)
  rwa [Nat.add_sub_cancel' hlL] at this

theorem decodeLoop_le (room y : ℕ) (v : ℤ) : (hc.decodeLoop room y v).1 ≤ L := by
  induction room generalizing y v with
  | zero =>
    rw [Huff.decodeLoop]
    split
    · exact le_refl L
    · exact Nat.zero_le L
  | succ room ih =>
    rw [Huff.decodeLoop]
    split
    · exact Nat.sub_le _ _
    · exact ih _ _

theorem decode_le (hg : hc.Good) (y : ℕ) : (hc.decode y).1 ≤ L := by
  rw [Huff.decode]
  split
  · have := hg.w_le
    simp only [L]
    omega
  · exact decodeLoop_le _ _ _

theorem lookLoop_eq {room turns y l : ℕ} {v a : ℤ} (hturns : room ≤ turns) (hroom : room ≤ L)
    (h : hc.decodeLoop room y v = (l, a)) (hl : l ≠ 0) :
    hc.lookLoop turns (L - room) y v = (l, a) := by
  induction room generalizing turns y v with
  | zero =>
    rw [Huff.decodeLoop] at h
    split at h
    next hy => cases turns <;> simpa [Huff.lookLoop, hy] using h
    next => exact absurd (Prod.mk.inj h).1.symm hl
  | succ room ih =>
    obtain ⟨turns, rfl⟩ : ∃ k, turns = k + 1 := ⟨turns - 1, by omega⟩
    rw [Huff.decodeLoop] at h
    rw [Huff.lookLoop]
    split at h
    next hy => rwa [if_pos hy]
    next hy =>
      rw [if_neg hy, show L - (room + 1) + 1 = L - room by omega]
      exact ih (by omega) (by omega) h

/-- What is in range is decoded by `hashlook` in the same way. -/
theorem look_eq_decode (hg : hc.Good) {y : ℕ} (h : (hc.decode y).1 ≠ 0) :
    hc.look y = hc.decode y := by
  have hw := hg.w_le
  rw [Huff.look, Huff.decode] at *
  split
  · rfl
  next hy =>
    rw [if_neg hy] at h
    have := @lookLoop_eq hc (L - hc.w) L _ _ _ _ (Nat.sub_le _ _) (Nat.sub_le _ _) rfl h
    rwa [show L - (L - hc.w) = hc.w by simp only [L]; omega] at this

theorem le_lookLoop (turns l y : ℕ) (v : ℤ) : l ≤ (hc.lookLoop turns l y v).1 := by
  induction turns generalizing l y v with
  | zero => exact le_refl l
  | succ turns ih =>
    rw [Huff.lookLoop]
    split
    · exact le_refl l
    · exact le_trans (Nat.le_succ l) (ih _ _ _)

theorem one_le_look (hg : hc.Good) (y : ℕ) : 1 ≤ (hc.look y).1 := by
  rw [Huff.look]
  split
  next hy =>
    have hc0 : 0 < hc.c := by
      by_contra h0
      rw [hg.cs, hg.cq, show hc.c = 0 by omega] at hy
      omega
    have := hg.two_le_w hc0
    dsimp only
    omega
  · exact le_trans hg.w (le_lookLoop _ _ _ _)

/-- At a zero bit. -/
theorem decode_padding (hg : hc.Good) {off p : ℕ} (hp : 0 < p)
    (hzero : ∀ i, off ≤ i → i < off + p → bit t i = false) :
    1 ≤ (hc.decode (window t off L)).1 ∧
      ((hc.decode (window t off L)).1 ≤ p → (hc.decode (window t off L)).2 = 0) := by
  have hle : min p L ≤ L := Nat.min_le_right _ _
  have hpos : 0 < min p L := Nat.lt_min.mpr ⟨hp, by decide⟩
  have hy : window t off L < 2 ^ (L - min p L) := by
    have hmin : min p L ≤ p := Nat.min_le_left _ _
    have h0 : window t off (min p L) = 0 := window_eq_zero fun i h1 h2 => hzero i h1 (by omega)
    have hdiv := window_div t off (min p L) (L - min p L)
    rw [Nat.add_sub_cancel' hle, h0] at hdiv
    exact (Nat.div_eq_zero_iff_lt (Nat.two_pow_pos _)).mp hdiv
  obtain ⟨h1, h2⟩ := hg.decode_zeros hpos hle hy
  exact ⟨h1, fun h => h2 (Nat.le_min.mpr ⟨h, decode_le hg _⟩)⟩

/-- Past the end of a bucket. -/
theorem past_iff {wp bp tp : ℕ} (h1 : 1 ≤ bp) (h32 : bp ≤ 32) :
    (tp ≤ wp ∧ (tp < wp ∨ bp < B)) ↔ 32 * tp < 32 * wp + (32 - bp) := by
  unfold B
  omega

end Unitas.Spell
