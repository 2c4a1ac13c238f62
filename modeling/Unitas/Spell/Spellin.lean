import Unitas.Lib.WordBits
import Unitas.Spell.Huff

/-! `spellin`: the hash values as differences in code, in a bucket for each of their upper parts. -/
namespace Unitas.Spell
open Unitas.WordBits

def HASHWIDTH : ℕ := 27

def INDEXWIDTH : ℕ := 9

def INDEXSIZE : ℕ := 2 ^ INDEXWIDTH

def NI : ℕ := INDEXSIZE + 1

/-- The words of the table. -/
def ND : ℕ := 25750 / 2 * 4

/-- The bits of a word. -/
def B : ℕ := 32

structure State where
  table : ℕ → BitVec 32
  hindex : ℕ → ℕ
  wp : ℕ
  bp : ℕ
  ignore : ℕ
  extra : ℕ
  k : ℕ
  u : ℕ

def State.init : State := ⟨fun _ => 0, fun _ => 0, 0, B, 0, 0, 0, 0⟩

/-- `while (wp < ND - 1)`; the first argument is the room that is left. -/
def State.appendLoop : ℕ → State → BitVec 32 → ℕ → State × Bool
  | 0, s, _, _ => (s, false)
  | room + 1, s, w1, i =>
    let s := { s with table := Function.update s.table s.wp (s.table s.wp ||| w1 >>> (B - s.bp)) }
    if i < s.bp then ({ s with bp := s.bp - i }, true)
    else appendLoop room { s with bp := B, wp := s.wp + 1 } (w1 <<< s.bp) (i - s.bp)

def State.append (s : State) (w1 : BitVec 32) (i : ℕ) : State × Bool :=
  s.appendLoop (ND - 1 - s.wp) w1 i

/-- A code into the table. -/
def State.put (s : State) (i w1 : ℕ) : State :=
  let (s, ok) :=
    if B < i then
      let (s, ok) := s.append (BitVec.ofNat 32 (w1 >>> (i - B))) B
      if ok then s.append (BitVec.ofNat 32 w1 <<< (B + B - i)) (i - B) else (s, false)
    else s.append (BitVec.ofNat 32 w1 <<< (B - i)) i
  if ok then s else { s with ignore := s.ignore + 1 }

/-- `for (x = d; ; x /= 2)` until there is a code; a difference has less than 32 bits. -/
def Huff.fit (hc : Huff) : ℕ → ℕ → ℕ
  | 0, x => x
  | turns + 1, x => if 0 < (hc.encode x).1 then x else hc.fit turns (x / 2)

/-- A difference, in more than one entry if it is too large. -/
def State.entry (hc : Huff) : ℕ → ℕ → State → State
  | 0, _, s => s
  | turns + 1, d, s =>
    let x := hc.fit 32 d
    let s := s.put (hc.encode x).1 (hc.encode x).2
    if 0 < d - x then entry hc turns (d - x) { s with extra := s.extra + 1 } else s

/-- The word after the last one in use. -/
def State.word (s : State) : ℕ := if s.bp ≠ B then s.wp + 1 else s.wp

/-- To the bucket `t`, with `hindex[++u] = wp` while `u < t`. -/
def State.bucket (s : State) (t : ℕ) : State :=
  if t = s.u then s
  else { s with
    wp := s.word
    bp := B
    hindex := fun i => if s.u < i ∧ i ≤ t then s.word else s.hindex i
    u := max s.u t
    k := t <<< (HASHWIDTH - INDEXWIDTH) }

/-- A hash value; they come sorted. -/
def State.item (hc : Huff) (s : State) (h : ℕ) : State :=
  let s := s.bucket (h >>> (HASHWIDTH - INDEXWIDTH))
  entry hc (h - s.k + 1) (h - s.k) { s with k := h }

def spellin (hc : Huff) (hs : List ℕ) : State :=
  let s := hs.foldl (State.item hc) State.init
  { s with wp := s.word, hindex := fun i => if s.u < i ∧ i < NI then s.word else s.hindex i }

/-! What is written. -/

def le32p (t : BitVec 32) : List UInt8 :=
  [UInt8.ofBitVec (t.setWidth 8), UInt8.ofBitVec ((t >>> 8).setWidth 8),
    UInt8.ofBitVec ((t >>> 16).setWidth 8), UInt8.ofBitVec ((t >>> 24).setWidth 8)]

def Huff.words (hc : Huff) : List (BitVec 32) :=
  [BitVec.ofNat 32 hc.n, BitVec.ofNat 32 hc.w, BitVec.ofNat 32 hc.c, BitVec.ofNat 32 hc.cq,
    BitVec.ofNat 32 hc.cs, BitVec.ofNat 32 hc.qcs, BitVec.ofInt 32 hc.v0]

def State.words (hc : Huff) (s : State) : List (BitVec 32) :=
  hc.words ++ (List.range NI).map (fun i => BitVec.ofNat 32 (s.hindex i)) ++
    (List.range s.wp).map s.table

def State.file (hc : Huff) (s : State) : List UInt8 := (s.words hc).flatMap le32p

/-! What is stored. -/

/-- The first free bit. -/
def State.off (s : State) : ℕ := 32 * s.wp + (32 - s.bp)

/-- A code stands at a place. -/
def CodeAt (hc : Huff) (t : ℕ → BitVec 32) (off k l : ℕ) : Prop :=
  l ≠ 0 ∧ hc.encode k = (l, window t off l)

/-- The codes of some differences, one after the other. -/
def Codes (hc : Huff) (t : ℕ → BitVec 32) : ℕ → List ℕ → ℕ → Prop
  | off, [], off' => off = off'
  | off, d :: ds, off' => ∃ l, CodeAt hc t off d l ∧ Codes hc t (off + l) ds off'

def diffs : ℕ → List ℕ → List ℕ
  | _, [] => []
  | k, h :: hs => (h - k) :: diffs h hs

/-- The differences stand in the words from `a` to `b`, and then there are zeros. -/
def Stored (hc : Huff) (t : ℕ → BitVec 32) (a b : ℕ) (ds : List ℕ) : Prop :=
  ∃ off, Codes hc t (32 * a) ds off ∧ off ≤ 32 * b ∧ (ds = [] → a = b) ∧
    ∀ i, off ≤ i → i < 32 * b → bit t i = false

variable {hc : Huff} {t t' : ℕ → BitVec 32}

theorem codes_append {off off' : ℕ} {ds ds' : List ℕ} :
    Codes hc t off (ds ++ ds') off' ↔ ∃ m, Codes hc t off ds m ∧ Codes hc t m ds' off' := by
  induction ds generalizing off with
  | nil => simp [Codes]
  | cons d ds ih =>
    simp only [List.cons_append, Codes, ih]
    constructor
    · rintro ⟨l, hl, m, h1, h2⟩
      exact ⟨m, ⟨l, hl, h1⟩, h2⟩
    · rintro ⟨m, ⟨l, hl, h1⟩, h2⟩
      exact ⟨l, hl, m, h1, h2⟩

theorem Codes.le {off off' : ℕ} {ds : List ℕ} (h : Codes hc t off ds off') : off ≤ off' := by
  induction ds generalizing off with
  | nil => exact Nat.le_of_eq h
  | cons d ds ih =>
    obtain ⟨l, -, h⟩ := h
    exact le_trans (Nat.le_add_right _ _) (ih h)

theorem Codes.congr {off off' : ℕ} {ds : List ℕ} (h : Codes hc t off ds off')
    (heq : ∀ i, off ≤ i → i < off' → bit t i = bit t' i) : Codes hc t' off ds off' := by
  induction ds generalizing off with
  | nil => exact h
  | cons d ds ih =>
    obtain ⟨l, ⟨hl, he⟩, h⟩ := h
    have hle := h.le
    refine ⟨l, ⟨hl, ?_⟩, ih h fun i h1 h2 => heq i (by omega) h2⟩
    rw [he, window_congr fun i h1 h2 => heq i h1 (by omega)]

theorem Stored.congr {a b : ℕ} {ds : List ℕ} (h : Stored hc t a b ds)
    (heq : ∀ i, i < 32 * b → bit t i = bit t' i) : Stored hc t' a b ds := by
  obtain ⟨off, hcodes, hle, hnil, hzero⟩ := h
  exact ⟨off, hcodes.congr fun i _ h2 => heq i (by omega), hle, hnil,
    fun i h1 h2 => (heq i h2).symm.trans (hzero i h1 h2)⟩

theorem diffs_append (k : ℕ) (hs : List ℕ) (h : ℕ) :
    diffs k (hs ++ [h]) = diffs k hs ++ [h - hs.getLastD k] := by
  induction hs generalizing k with
  | nil => rfl
  | cons h' hs ih =>
    rw [List.cons_append, diffs, ih, diffs, List.cons_append, List.getLastD_cons]

/-! One code more. -/

/-- Some bits have been added to a state. -/
structure Added (s s' : State) (w1 : BitVec 32) (i : ℕ) : Prop where
  eq : s' = { s with table := s'.table, wp := s'.wp, bp := s'.bp }
  off : s'.off = s.off + i
  bp : 1 ≤ s'.bp ∧ s'.bp ≤ 32
  bit : ∀ j, bit s'.table j = (bit s.table j || (decide (s.off ≤ j) && w1.getMsbD (j - s.off)))

theorem appendLoop_spec {room i : ℕ} {s s' : State} {w1 : BitVec 32}
    (h : s.appendLoop room w1 i = (s', true)) (hbp : 1 ≤ s.bp ∧ s.bp ≤ 32)
    (hw : ∀ m, i ≤ m → w1.getMsbD m = false) : Added s s' w1 i := by
  induction room generalizing s w1 i with
  | zero => simp [State.appendLoop] at h
  | succ room ih =>
    have hbit := @bit_or s.table w1 s.wp s.bp hbp.2
    simp only [State.appendLoop] at h
    split at h
    next hi =>
      obtain rfl := (Prod.mk.inj h).1
      refine ⟨rfl, ?_, by dsimp only; omega, fun j => ?_⟩
      · simp only [State.off]
        omega
      · refine (hbit j).trans ?_
        simp only [State.off]
        by_cases hj : 32 * s.wp + (32 - s.bp) ≤ j
        · by_cases hj' : j < 32 * s.wp + 32
          · simp [hj, hj']
          · simp [hj, hj', hw (j - (32 * s.wp + (32 - s.bp))) (by omega)]
        · simp [hj]
    next hi =>
      have hadd := ih h (by simp [B]) fun m hm => by
        rw [BitVec.getMsbD_shiftLeft]
        exact hw _ (by omega)
      refine ⟨hadd.eq, ?_, hadd.bp, fun j => ?_⟩
      · rw [hadd.off]
        simp only [State.off, B]
        omega
      · refine (hadd.bit j).trans ?_
        refine (congrArg (· || _) (hbit j)).trans ?_
        simp only [State.off, B, BitVec.getMsbD_shiftLeft]
        by_cases hj : 32 * s.wp + (32 - s.bp) ≤ j
        · by_cases hj' : j < 32 * s.wp + 32
          · have : ¬ 32 * (s.wp + 1) ≤ j := by omega
            simp [hj, hj', this]
          · have h1 : 32 * (s.wp + 1) ≤ j := by omega
            have h2 : j - 32 * (s.wp + 1) + s.bp = j - (32 * s.wp + (32 - s.bp)) := by omega
            simp [hj, hj', h1, h2]
        · have : ¬ 32 * (s.wp + 1) ≤ j := by omega
          simp [hj, this]

theorem appendLoop_word {room i : ℕ} {s s' : State} {w1 : BitVec 32}
    (h : s.appendLoop room w1 i = (s', true)) : s'.word ≤ s.wp + room := by
  induction room generalizing s w1 i with
  | zero => simp [State.appendLoop] at h
  | succ room ih =>
    simp only [State.appendLoop] at h
    split at h
    · obtain rfl := (Prod.mk.inj h).1
      unfold State.word
      split <;> dsimp only <;> omega
    · exact le_trans (ih h) (by dsimp only; omega)

theorem getMsbD_code {l code m : ℕ} (hl : l ≤ 32) :
    (BitVec.ofNat 32 code <<< (32 - l)).getMsbD m = (decide (m < l) && code.testBit (l - 1 - m)) := by
  rw [BitVec.getMsbD_shiftLeft, BitVec.getMsbD]
  by_cases hm : m < l
  · have h1 : m + (32 - l) < 32 := by omega
    have h2 : 32 - 1 - (m + (32 - l)) = l - 1 - m := by omega
    have h3 : l - 1 - m < 32 := by omega
    simp only [hm, h1, h2, h3, decide_true, Bool.true_and, BitVec.getLsbD_ofNat]
  · have h1 : ¬ m + (32 - l) < 32 := by omega
    simp [hm, h1]

theorem appendLoop_ignore (room : ℕ) (s : State) (w1 : BitVec 32) (i : ℕ) :
    (s.appendLoop room w1 i).1.ignore = s.ignore ∧ (s.appendLoop room w1 i).1.extra = s.extra := by
  induction room generalizing s w1 i with
  | zero => exact ⟨rfl, rfl⟩
  | succ room ih =>
    simp only [State.appendLoop]
    split
    · exact ⟨rfl, rfl⟩
    · exact ih _ _ _

theorem put_ignore (s : State) (i w1 : ℕ) :
    s.ignore ≤ (s.put i w1).ignore ∧ (s.put i w1).extra = s.extra := by
  have happ (s : State) (w : BitVec 32) (i : ℕ) := appendLoop_ignore (ND - 1 - s.wp) s w i
  have hfin (r : State × Bool) (hr : r.1.ignore = s.ignore ∧ r.1.extra = s.extra) :
      s.ignore ≤ (if r.2 = true then r.1 else { r.1 with ignore := r.1.ignore + 1 }).ignore ∧
        (if r.2 = true then r.1 else { r.1 with ignore := r.1.ignore + 1 }).extra = s.extra := by
    split
    · exact ⟨hr.1.ge, hr.2⟩
    · exact ⟨hr.1 ▸ Nat.le_succ _, hr.2⟩
  simp only [State.put]
  by_cases hB : B < i
  · have h1 := happ s (BitVec.ofNat 32 (w1 >>> (i - B))) B
    simp only [hB, if_true]
    by_cases hok : (s.append (BitVec.ofNat 32 (w1 >>> (i - B))) B).2 = true
    · obtain ⟨h2, h3⟩ := happ (s.append (BitVec.ofNat 32 (w1 >>> (i - B))) B).1
        (BitVec.ofNat 32 w1 <<< (B + B - i)) (i - B)
      simp only [hok, if_true]
      exact hfin _ ⟨h2.trans h1.1, h3.trans h1.2⟩
    · simp only [hok, Bool.false_eq_true, if_false]
      exact hfin (_, false) h1
  · simp only [hB, if_false]
    exact hfin _ (happ s _ i)

/-- A code that is not ignored stands where the free bits began. -/
theorem put_spec (hg : hc.Good) {s : State} {k l code : ℕ} (hbp : 1 ≤ s.bp ∧ s.bp ≤ 32)
    (hzero : ∀ j, s.off ≤ j → bit s.table j = false) (h : hc.encode k = (l, code)) (hl : l ≠ 0)
    (hign : (s.put l code).ignore = s.ignore) :
    ∃ w1, Added s (s.put l code) w1 l ∧ (∀ m, l ≤ m → w1.getMsbD m = false) ∧
      CodeAt hc (s.put l code).table s.off k l ∧ (s.put l code).word ≤ ND - 1 := by
  obtain ⟨hlL, hcode⟩ := hg.encode_length h hl
  have hl32 : l ≤ 32 := le_trans hlL (by decide)
  have hnot : ¬ B < l := not_lt.mpr hl32
  have hmsb (m : ℕ) := @getMsbD_code l code m hl32
  have hw (m : ℕ) (hm : l ≤ m) : (BitVec.ofNat 32 code <<< (B - l)).getMsbD m = false := by
    rw [B, hmsb m]
    simp [not_lt.mpr hm]
  simp only [State.put, hnot, if_false] at hign ⊢
  cases happ : s.append (BitVec.ofNat 32 code <<< (B - l)) l with
  | mk s' ok =>
    have hsame := (appendLoop_ignore (ND - 1 - s.wp) s (BitVec.ofNat 32 code <<< (B - l)) l).1
    rw [State.append] at happ
    rw [happ] at hsame
    rw [State.append, happ] at hign
    cases ok with
    | false =>
      simp only [Bool.false_eq_true, if_false] at hign hsame
      omega
    | true =>
      have hadd := appendLoop_spec happ hbp hw
      simp only [if_true]
      refine ⟨_, hadd, hw, ⟨hl, ?_⟩, ?_⟩
      · rw [h]
        congr 1
        refine eq_window hcode fun j hj => ?_
        rw [hadd.bit, hzero _ (Nat.le_add_right _ _), B, Nat.add_sub_cancel_left, hmsb]
        simp [hj]
      · have hword := appendLoop_word happ
        have hroom : ND - 1 - s.wp ≠ 0 := by
          intro h0
          rw [h0] at happ
          simp [State.appendLoop] at happ
        omega

theorem fit_le (turns x : ℕ) : hc.fit turns x ≤ x := by
  induction turns generalizing x with
  | zero => exact le_refl x
  | succ turns ih =>
    rw [Huff.fit]
    split
    · exact le_refl x
    · exact le_trans (ih _) (Nat.div_le_self x 2)

theorem encode_zero (hg : hc.Good) : 0 < (hc.encode 0).1 := by
  have hw := hg.w
  have hw21 := hg.w_le
  rw [Huff.encode]
  split
  next h0 =>
    have := hg.two_le_w h0
    simp only [QW]
    omega
  next h0 =>
    obtain ⟨room, hroom⟩ : ∃ room, L - hc.w = room + 1 := ⟨30 - hc.w, by rw [L]; omega⟩
    rw [hroom, Huff.encodeLoop, if_pos (by have := hg.n; omega)]
    simp only [L] at hroom ⊢
    omega

theorem encode_of_fit (hg : hc.Good) {turns d : ℕ} (h : hc.fit (turns + 1) d = d) :
    0 < (hc.encode d).1 := by
  by_contra hd
  rw [Huff.fit, if_neg hd] at h
  have hle : hc.fit turns (d / 2) ≤ d / 2 := fit_le turns (d / 2)
  have h0 : d = 0 := by omega
  exact hd (h0 ▸ encode_zero hg)

theorem entry_le (turns d : ℕ) (s : State) :
    s.ignore ≤ (State.entry hc turns d s).ignore ∧ s.extra ≤ (State.entry hc turns d s).extra := by
  induction turns generalizing d s with
  | zero => exact ⟨le_refl _, le_refl _⟩
  | succ turns ih =>
    have hput := put_ignore s (hc.encode (hc.fit 32 d)).1 (hc.encode (hc.fit 32 d)).2
    rw [State.entry]
    split
    · obtain ⟨h1, h2⟩ := ih (d - hc.fit 32 d)
        { s.put (hc.encode (hc.fit 32 d)).1 (hc.encode (hc.fit 32 d)).2 with
          extra := (s.put (hc.encode (hc.fit 32 d)).1 (hc.encode (hc.fit 32 d)).2).extra + 1 }
      exact ⟨le_trans hput.1 h1, le_trans (hput.2 ▸ Nat.le_succ _) h2⟩
    · omega

/-- Without extra entries a difference is encoded as it is. -/
theorem entry_eq (hg : hc.Good) {turns d : ℕ} {s : State}
    (hext : (State.entry hc (turns + 1) d s).extra = s.extra) :
    0 < (hc.encode d).1 ∧
      State.entry hc (turns + 1) d s = s.put (hc.encode d).1 (hc.encode d).2 := by
  have hput := put_ignore s (hc.encode (hc.fit 32 d)).1 (hc.encode (hc.fit 32 d)).2
  have hle : hc.fit 32 d ≤ d := fit_le 32 d
  rw [State.entry] at hext ⊢
  split at hext
  next hlt =>
    have : _ ≤ (State.entry hc turns _ _).extra := (entry_le turns (d - hc.fit 32 d)
      { s.put (hc.encode (hc.fit 32 d)).1 (hc.encode (hc.fit 32 d)).2 with
        extra := (s.put (hc.encode (hc.fit 32 d)).1 (hc.encode (hc.fit 32 d)).2).extra + 1 }).2
    rw [hext, hput.2] at this
    exact absurd this (Nat.not_succ_le_self _)
  next hlt =>
    have hfit : hc.fit 32 d = d := by omega
    rw [if_neg hlt, hfit]
    exact ⟨encode_of_fit hg hfit, rfl⟩

end Unitas.Spell
