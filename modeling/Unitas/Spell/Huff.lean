import Mathlib.Algebra.Order.Ring.Nat
import Mathlib.Tactic.Ring
import Mathlib.Tactic.Linarith

/-! The infinite Huffman code of the spelling list. -/
namespace Unitas.Spell

/-- The width of a digit in bits. -/
def QW : ℕ := 1

def q : ℕ := 2 ^ QW

/-- The bits of a word without its sign. -/
def L : ℕ := 31

structure Huff where
  n : ℕ
  w : ℕ
  c : ℕ
  cq : ℕ
  cs : ℕ
  qcs : ℕ
  v0 : ℤ
  deriving DecidableEq, Repr

/-- `for (w = QW, j = 1; j < d; w += QW, j *= q)`, which makes less than `d` turns. -/
def widthLoop (d : ℕ) : ℕ → ℕ → ℕ → ℕ × ℕ
  | 0, w, j => (w, j)
  | turns + 1, w, j => if j < d then widthLoop d turns (w + QW) (j * q) else (w, j)

/-- `huff` from `d` on, which is the number of codes in each width over `q - 1`. -/
def huff (d : ℕ) : Huff :=
  let (w, j) := widthLoop d d QW 1
  let c := j - d
  let cq := c * q
  { n := d * (q - 1)
    w
    c
    cq
    cs := cq <<< (L - w)
    qcs := (((q - 1) <<< w) + cq) <<< (L - QW - w)
    v0 := c - cq }

/-- The loop of `encode`. `room` is how much longer the code may get. -/
def Huff.encodeLoop (hc : Huff) : ℕ → ℕ → ℕ → ℕ × ℕ
  | 0, k, y => if k < hc.n then (L, ((y - 1) <<< hc.w) + hc.cq + k) else (0, 0)
  | room + 1, k, y =>
    if k < hc.n then (L - (room + 1), ((y - 1) <<< hc.w) + hc.cq + k)
    else hc.encodeLoop room (k - hc.n) (y <<< QW)

/-- The length of the code of `k`, 0 if it is too long, and the code, right justified. -/
def Huff.encode (hc : Huff) (k : ℕ) : ℕ × ℕ :=
  if k < hc.c then (hc.w - QW, k) else hc.encodeLoop (L - hc.w) (k - hc.c) 1

def Huff.decodeLoop (hc : Huff) : ℕ → ℕ → ℤ → ℕ × ℤ
  | 0, y, v => if y < hc.qcs then (L, v + (y >>> (L - hc.w) : ℕ)) else (0, 0)
  | room + 1, y, v =>
    if y < hc.qcs then (L - (room + 1), v + (y >>> (L - hc.w) : ℕ))
    else hc.decodeLoop room ((y <<< QW) % 2 ^ L) (v + hc.n)

/-- The length of the code that `y` starts with, 0 if it is out of range, and its message. -/
def Huff.decode (hc : Huff) (y : ℕ) : ℕ × ℤ :=
  if y < hc.cs then (hc.w - QW, (y >>> (L + QW - hc.w) : ℕ))
  else hc.decodeLoop (L - hc.w) y hc.v0

/-- What the parameters are to each other. -/
structure Huff.Good (hc : Huff) : Prop where
  n : 0 < hc.n
  w : 1 ≤ hc.w
  w_le : hc.w ≤ 21
  n_add_c : hc.n + hc.c = 2 ^ (hc.w - 1)
  cq : hc.cq = 2 * hc.c
  cs : hc.cs = hc.cq * 2 ^ (31 - hc.w)
  qcs : hc.qcs = (2 ^ hc.w + hc.cq) * 2 ^ (30 - hc.w)
  v0 : hc.v0 = hc.c - hc.cq

theorem widthLoop_spec {d turns w j : ℕ} (hw : 1 ≤ w) (hj : j = 2 ^ (w - 1)) (hd : d ≤ j * 2 ^ turns)
    (hmin : ∀ i, i + 1 < w → 2 ^ i < d) :
    (widthLoop d turns w j).2 = 2 ^ ((widthLoop d turns w j).1 - 1) ∧
      1 ≤ (widthLoop d turns w j).1 ∧ d ≤ (widthLoop d turns w j).2 ∧
      ∀ i, i + 1 < (widthLoop d turns w j).1 → 2 ^ i < d := by
  induction turns generalizing w j with
  | zero => exact ⟨hj, hw, by simpa [widthLoop] using hd, hmin⟩
  | succ turns ih =>
    rw [widthLoop]
    split
    next hlt =>
      refine ih (w := w + QW) (j := j * q) (by omega) ?_ ?_ fun i hi => ?_
      · rw [hj, q, QW, pow_one, ← pow_succ]
        congr 1
        omega
      · rw [pow_succ] at hd
        rw [q, QW, pow_one]
        linarith
      · rw [QW] at hi
        by_cases h : i + 1 < w
        · exact hmin i h
        · rw [show i = w - 1 by omega, ← hj]
          exact hlt
    next hlt => exact ⟨hj, hw, by omega, hmin⟩

theorem huff_good {d : ℕ} (h1 : 1 ≤ d) (h2 : d ≤ 2 ^ 20) : (huff d).Good := by
  have hspec := @widthLoop_spec d d QW 1 (le_refl 1) rfl
    (by rw [Nat.one_mul]; exact d.lt_two_pow_self.le) (by rw [QW]; omega)
  unfold huff
  cases hl : widthLoop d d QW 1 with
  | mk w j =>
    rw [hl] at hspec
    obtain ⟨hj, hw, hd, hmin⟩ := hspec
    have hle : w ≤ 21 := by
      by_contra h
      have := hmin 20 (by simp only; omega)
      omega
    simp only at hj hw hd
    dsimp only
    refine ⟨?_, hw, hle, ?_, ?_, ?_, ?_, rfl⟩
    · simp only [q, QW, pow_one, Nat.add_one_sub_one, Nat.mul_one]
      omega
    · simp only [q, QW, pow_one, Nat.add_one_sub_one, Nat.mul_one]
      rw [← hj]
      omega
    · simp only [q, QW, pow_one, Nat.mul_comm]
    · rw [Nat.shiftLeft_eq, L]
    · simp only [Nat.shiftLeft_eq, q, QW, L, pow_one, Nat.reduceSub, Nat.one_mul]

namespace Huff.Good
variable {hc : Huff} (hg : hc.Good)
include hg

theorem two_pow_w : 2 ^ hc.w = 2 * hc.n + hc.cq := by
  have := hg.n_add_c
  rw [hg.cq, show hc.w = hc.w - 1 + 1 by have := hg.w; omega, pow_succ]
  omega

/-- The codes shorter than `w` need a width of at least two. -/
theorem two_le_w (hc0 : 0 < hc.c) : 2 ≤ hc.w := by
  by_contra h
  have h1 : hc.w = 1 := by have := hg.w; omega
  have hn := hg.n
  have := hg.n_add_c
  rw [h1] at this
  omega

omit hg in
theorem encodeLoop_spec {room k y l code : ℕ} (h : hc.encodeLoop room k y = (l, code)) (hl : l ≠ 0)
    (hy : 0 < y) (hroom : room ≤ L) : ∃ m r, r < hc.n ∧ k = m * hc.n + r ∧ m ≤ room ∧
      l = L - room + m ∧ code = (y * 2 ^ m - 1) * 2 ^ hc.w + hc.cq + r := by
  induction room generalizing k y with
  | zero =>
    rw [encodeLoop] at h
    split at h <;> obtain ⟨rfl, rfl⟩ := Prod.mk.inj h
    · exact ⟨0, k, ‹_›, by omega, le_refl 0, rfl, by rw [Nat.shiftLeft_eq, pow_zero, Nat.mul_one]⟩
    · exact absurd rfl hl
  | succ room ih =>
    rw [encodeLoop] at h
    split at h
    · obtain ⟨rfl, rfl⟩ := Prod.mk.inj h
      exact ⟨0, k, ‹_›, by omega, Nat.zero_le _, rfl, by rw [Nat.shiftLeft_eq, pow_zero, Nat.mul_one]⟩
    next hk =>
      obtain ⟨m, r, hr, hkm, hm, hlm, hcode⟩ := ih h (by rw [Nat.shiftLeft_eq]; positivity) (by omega)
      refine ⟨m + 1, r, hr, ?_, by omega, by omega, ?_⟩
      · rw [Nat.add_mul]
        omega
      · rw [hcode, Nat.shiftLeft_eq, QW, pow_one, pow_succ, Nat.mul_assoc, Nat.mul_comm 2]

omit hg in
theorem decodeLoop_of_lt {room y : ℕ} {v : ℤ} (hy : y < hc.qcs) :
    hc.decodeLoop room y v = (L - room, v + (y >>> (L - hc.w) : ℕ)) := by
  cases room <;> rw [decodeLoop, if_pos hy]
  rfl

omit hg in
/-- Without the first one of `m + 1`. -/
theorem shift_ones {m y a : ℕ} (hm : hc.w + m + 1 ≤ L) (hy : y < 2 ^ L)
    (ha : a < 2 ^ hc.w) (hcode : y / 2 ^ (L - (hc.w + (m + 1))) = (2 ^ (m + 1) - 1) * 2 ^ hc.w + a) :
    ((y <<< QW) % 2 ^ L) / 2 ^ (L - (hc.w + m)) = (2 ^ m - 1) * 2 ^ hc.w + a ∧
      y = 2 ^ 30 + ((y <<< QW) % 2 ^ L) / 2 := by
  obtain ⟨p, hp, hL, h2p, h30⟩ : ∃ p, 2 ^ (L - (hc.w + (m + 1))) = p ∧
      2 ^ L = 2 * (2 ^ m * 2 ^ hc.w * p) ∧ 2 ^ (L - (hc.w + m)) = 2 * p ∧
      2 ^ 30 = 2 ^ m * 2 ^ hc.w * p := by
    refine ⟨_, rfl, ?_, ?_, ?_⟩
    · rw [← pow_add, ← pow_add, ← pow_succ']
      congr 1
      omega
    · rw [← pow_succ']
      congr 1
      omega
    · rw [← pow_add, ← pow_add]
      congr 1
      rw [L] at hm ⊢
      omega
  have hppos : 0 < p := hp ▸ Nat.two_pow_pos _
  obtain ⟨x, hx⟩ : ∃ x, 2 ^ m = x + 1 := ⟨2 ^ m - 1, by have := Nat.two_pow_pos m; omega⟩
  have hsum : (2 ^ (m + 1) - 1) * 2 ^ hc.w + a = 2 ^ m * 2 ^ hc.w + ((2 ^ m - 1) * 2 ^ hc.w + a) := by
    rw [pow_succ, hx, Nat.add_sub_cancel, show (x + 1) * 2 - 1 = 2 * x + 1 by omega]
    ring
  have hrest : (2 ^ m - 1) * 2 ^ hc.w + a < 2 ^ m * 2 ^ hc.w := by
    rw [hx, Nat.add_sub_cancel]
    linarith
  rw [hp, hsum] at hcode
  set b := (2 ^ m - 1) * 2 ^ hc.w + a
  have hdiv := Nat.div_add_mod y p
  have hmod := Nat.mod_lt y hppos
  rw [hcode, Nat.mul_add] at hdiv
  have hbp : p * b + p ≤ p * (2 ^ m * 2 ^ hc.w) := by
    rw [← Nat.mul_succ]
    exact Nat.mul_le_mul_left p hrest
  have hcomm : p * (2 ^ m * 2 ^ hc.w) = 2 ^ m * 2 ^ hc.w * p := Nat.mul_comm _ _
  have hnext : (y <<< QW) % 2 ^ L = 2 * (p * b + y % p) := by
    rw [Nat.shiftLeft_eq, QW, pow_one,
      show y * 2 = 2 * (p * b + y % p) + 2 ^ L by rw [hL, ← hcomm]; omega, Nat.add_mod_right,
      Nat.mod_eq_of_lt (by rw [hL, ← hcomm]; omega)]
  rw [hnext]
  refine ⟨?_, ?_⟩
  · rw [h2p, Nat.mul_div_mul_left _ _ (by decide), Nat.mul_add_div hppos, Nat.div_eq_of_lt hmod,
      Nat.add_zero]
  · rw [Nat.mul_div_cancel_left _ (by decide), h30, ← hcomm]
    omega

/-- A code that does not fit below `w` bits starts at `cq` or above. -/
theorem cq_le {m r y : ℕ} (hm : hc.w + m ≤ L)
    (hcode : y / 2 ^ (L - (hc.w + m)) = (2 ^ m - 1) * 2 ^ hc.w + (hc.cq + r)) :
    hc.cq * 2 ^ (L - hc.w) ≤ y := by
  calc hc.cq * 2 ^ (L - hc.w) = 2 ^ m * hc.cq * 2 ^ (L - (hc.w + m)) := by
        rw [show L - hc.w = m + (L - (hc.w + m)) by omega, pow_add]
        ring
    _ ≤ ((2 ^ m - 1) * 2 ^ hc.w + (hc.cq + r)) * 2 ^ (L - (hc.w + m)) := by
        refine Nat.mul_le_mul_right _ ?_
        have hw := hg.two_pow_w
        have := Nat.two_pow_pos m
        have hle := Nat.mul_le_mul_left (2 ^ m - 1) (show hc.cq ≤ 2 ^ hc.w by omega)
        rw [show 2 ^ m * hc.cq = (2 ^ m - 1) * hc.cq + hc.cq by
          rw [← Nat.succ_mul]; congr 1; omega]
        omega
    _ ≤ y := by
        rw [← hcode]
        exact Nat.div_mul_le_self _ _

/-- `m` ones and then `w` bits that are no further one. -/
theorem decodeLoop_spec {m room y r : ℕ} (v : ℤ) (hr : r < hc.n) (hm : m ≤ room)
    (hroom : room + hc.w ≤ L) (hy : y < 2 ^ L)
    (hcode : y / 2 ^ (L - (hc.w + m)) = (2 ^ m - 1) * 2 ^ hc.w + hc.cq + r) :
    hc.decodeLoop room y v = (L - room + m, v + m * hc.n + (hc.cq + r)) := by
  have hw := hg.two_pow_w
  induction m generalizing room y v with
  | zero =>
    have hcode : y / 2 ^ (L - hc.w) = hc.cq + r := by simpa using hcode
    have hlt : y < hc.qcs := by
      have h30 : L - hc.w = 30 - hc.w + 1 := by
        have := hg.w_le
        rw [L]
        omega
      rw [hg.qcs]
      calc y < (hc.cq + hc.n) * 2 ^ (L - hc.w) :=
            (Nat.div_lt_iff_lt_mul (Nat.two_pow_pos _)).mp (by omega)
        _ = (2 ^ hc.w + hc.cq) * 2 ^ (30 - hc.w) := by rw [h30, hw]; ring
    rw [decodeLoop_of_lt hlt, Nat.shiftRight_eq_div_pow, hcode]
    simp
  | succ m ih =>
    obtain ⟨room, rfl⟩ : ∃ k, room = k + 1 := ⟨room - 1, by omega⟩
    have ha : hc.cq + r < 2 ^ hc.w := by omega
    rw [Nat.add_assoc] at hcode
    obtain ⟨hnext, hval⟩ := shift_ones (by omega) hy ha hcode
    have hge : ¬ y < hc.qcs := by
      set z := (y <<< QW) % 2 ^ L
      have h1 : hc.cq * 2 ^ (L - hc.w) ≤ z := hg.cq_le (by omega) hnext
      have h2 : 2 ^ (L - hc.w) = 2 * 2 ^ (30 - hc.w) := by
        rw [← pow_succ']
        congr 1
        rw [L] at hroom ⊢
        omega
      have h3 : 2 ^ hc.w * 2 ^ (30 - hc.w) = 2 ^ 30 := by
        rw [← pow_add]
        congr 1
        rw [L] at hroom
        omega
      rw [hg.qcs, Nat.add_mul, h3]
      rw [h2, Nat.mul_left_comm] at h1
      omega
    rw [decodeLoop, if_neg hge, ih _ (by omega) (by omega) (Nat.mod_lt _ (Nat.two_pow_pos _))
      (by rw [hnext, Nat.add_assoc])]
    rw [Prod.mk.injEq]
    refine ⟨by omega, ?_⟩
    push_cast
    ring

/-- What `encode` has made of `k`, in front of any further bits, is decoded to `k`. -/
theorem decode_encode {k l code y : ℕ} (h : hc.encode k = (l, code)) (hl : l ≠ 0)
    (hy : y < 2 ^ L) (hcode : y / 2 ^ (L - l) = code) : hc.decode y = (l, (k : ℤ)) := by
  have hw := hg.w
  have hw21 := hg.w_le
  rw [encode] at h
  rw [decode]
  split at h
  next hk =>
    obtain ⟨rfl, rfl⟩ := Prod.mk.inj h
    have h32 : L - (hc.w - QW) = L + QW - hc.w := by
      rw [L, QW]
      omega
    have hlt : y < hc.cs := by
      rw [hg.cs, hg.cq]
      calc y < hc.c * 2 ^ (L - (hc.w - QW)) := (Nat.div_lt_iff_lt_mul (Nat.two_pow_pos _)).mp (hcode ▸ hk)
        _ = 2 * hc.c * 2 ^ (31 - hc.w) := by
            rw [h32, L, QW, show 31 + 1 - hc.w = 31 - hc.w + 1 by omega, pow_succ]
            ring
    rw [if_pos hlt, Nat.shiftRight_eq_div_pow, ← h32, hcode]
  next hk =>
    obtain ⟨m, r, hr, hkm, hm, hlm, hval⟩ := encodeLoop_spec h hl Nat.one_pos (Nat.sub_le _ _)
    have hlw : l = hc.w + m := by
      rw [L] at hlm
      omega
    rw [Nat.one_mul] at hval
    rw [hlw, hval] at hcode
    have hge : ¬ y < hc.cs := by
      rw [not_lt, hg.cs]
      exact hg.cq_le (m := m) (r := r) (by rw [L] at hm ⊢; omega) (by rw [hcode, Nat.add_assoc])
    rw [if_neg hge, hg.decodeLoop_spec hc.v0 hr hm (by rw [L]; omega) hy hcode, hg.v0]
    rw [Prod.mk.injEq]
    refine ⟨by omega, ?_⟩
    have hk' : (k : ℤ) = hc.c + m * hc.n + r := by
      have : k = hc.c + (m * hc.n + r) := by omega
      rw [this]
      push_cast
      ring
    rw [hk']
    ring

theorem encode_length {k l code : ℕ} (h : hc.encode k = (l, code)) (hl : l ≠ 0) :
    l ≤ L ∧ code < 2 ^ l := by
  have hw := hg.w
  have hw21 := hg.w_le
  rw [encode] at h
  split at h
  next hk =>
    obtain ⟨rfl, rfl⟩ := Prod.mk.inj h
    have := hg.n_add_c
    rw [L, QW]
    exact ⟨by omega, by omega⟩
  next hk =>
    obtain ⟨m, r, hr, hkm, hm, hlm, hval⟩ := encodeLoop_spec h hl Nat.one_pos (Nat.sub_le _ _)
    have hlw : l = hc.w + m := by
      rw [L] at hlm
      omega
    have := hg.two_pow_w
    have hone := Nat.two_pow_pos m
    refine ⟨by rw [L] at hm ⊢; omega, ?_⟩
    calc code = (2 ^ m - 1) * 2 ^ hc.w + (hc.cq + r) := by rw [hval, Nat.one_mul, Nat.add_assoc]
      _ < (2 ^ m - 1) * 2 ^ hc.w + 2 ^ hc.w := by omega
      _ = 2 ^ l := by
          rw [← Nat.succ_mul, hlw, Nat.add_comm hc.w, pow_add]
          congr 1
          omega

/-- Behind a zero bit there is a code, and it is that of 0 if it goes no further than the zeros. -/
theorem decode_zeros {y p : ℕ} (hp : 0 < p) (hpL : p ≤ L) (hy : y < 2 ^ (L - p)) :
    1 ≤ (hc.decode y).1 ∧ ((hc.decode y).1 ≤ p → (hc.decode y).2 = 0) := by
  have hw := hg.w
  have hw21 := hg.w_le
  rw [decode]
  split
  next hlt =>
    have hc0 : 0 < hc.c := by
      by_contra h0
      rw [hg.cs, hg.cq, show hc.c = 0 by omega] at hlt
      omega
    have h2 := hg.two_le_w hc0
    rw [QW]
    refine ⟨by omega, fun hle => ?_⟩
    have : 2 ^ (L - p) ≤ 2 ^ (L + 1 - hc.w) := Nat.pow_le_pow_right (by decide) (by omega)
    rw [Nat.shiftRight_eq_div_pow, Nat.div_eq_of_lt (by omega)]
    rfl
  next hge =>
    have hqcs : y < hc.qcs := by
      have h30 : 2 ^ (L - p) ≤ 2 ^ 30 := Nat.pow_le_pow_right (by decide) (by rw [L]; omega)
      have : 2 ^ hc.w * 2 ^ (30 - hc.w) = 2 ^ 30 := by
        rw [← pow_add]
        congr 1
        omega
      rw [hg.qcs, Nat.add_mul, this]
      omega
    have hlen : L - (L - hc.w) = hc.w := by
      rw [L]
      omega
    rw [decodeLoop_of_lt hqcs, hlen]
    refine ⟨hw, fun hle => ?_⟩
    have hpow : 2 ^ (L - p) ≤ 2 ^ (L - hc.w) := Nat.pow_le_pow_right (by decide) (by simp only at hle; omega)
    have hcq : hc.cq = 0 := by
      by_contra hne
      have := Nat.mul_le_mul_right (2 ^ (31 - hc.w)) (show 1 ≤ hc.cq by omega)
      rw [hg.cs] at hge
      rw [L] at hpow hy
      omega
    have hc0 : hc.c = 0 := by
      have := hg.cq
      omega
    rw [hg.v0, hcq, hc0, Nat.shiftRight_eq_div_pow, Nat.div_eq_of_lt (by omega)]
    rfl

end Huff.Good

end Unitas.Spell
