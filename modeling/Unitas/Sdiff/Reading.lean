import Unitas.Sdiff.Model
import Mathlib.Tactic.Ring

/-! What `fgetline` and `getlen` make of a line, and what `put1` and `put2` write. -/
namespace Unitas.Sdiff
open Unitas.Decimal

/-! ### Lines of any length -/

theorem fgets_short {n : ℕ} {l : Line} (h : 10 ∉ l) (hlen : l.length + 1 ≤ n) (rest : Line) :
    fgets n (l ++ [10] ++ rest) = (l ++ [10], rest) := by
  induction l generalizing n with
  | nil =>
    obtain ⟨n, rfl⟩ := Nat.exists_eq_add_of_le' hlen
    simp [fgets]
  | cons c l ih =>
    obtain ⟨n, rfl⟩ : ∃ k, n = k + 1 := ⟨n - 1, by simp at hlen; omega⟩
    have hc : c ≠ 10 := fun e => h (by simp [e])
    rw [List.cons_append, List.cons_append, fgets, if_neg hc,
      ih (fun e => h (List.mem_cons_of_mem _ e)) (by simpa using hlen)]

theorem fgets_long {n : ℕ} {l : Line} (h : 10 ∉ l) (hlen : n ≤ l.length) (rest : Line) :
    fgets n (l ++ rest) = (l.take n, l.drop n ++ rest) := by
  induction l generalizing n with
  | nil =>
    obtain rfl : n = 0 := by simpa using hlen
    simp [fgets]
  | cons c l ih =>
    cases n with
    | zero => simp [fgets]
    | succ n =>
      have hc : c ≠ 10 := fun e => h (by simp [e])
      rw [List.cons_append, fgets, if_neg hc,
        ih (fun e => h (List.mem_cons_of_mem _ e)) (by simpa using hlen), List.take_succ_cons,
        List.drop_succ_cons]

theorem grow_ended (fuel blen : ℕ) (bp file : Line) (h : bp.getLast? = some 10) :
    grow fuel blen bp file = (bp, blen, file) := by
  cases fuel with
  | zero => rfl
  | succ fuel =>
    unfold grow
    rw [if_neg (by simp [h])]

theorem getLast_ne {l : Line} (h : 10 ∉ l) : l.getLast? ≠ some 10 :=
  fun e => h (List.mem_of_getLast? e)

/-- A line, with its newline, for which a buffer of `2 ^ 30` bytes is enough. -/
def Short (l : Line) : Prop := l.length + 1 < 2 ^ 30
deriving Decidable

/-- The size of the buffer, a power of 2, when lines have been read. -/
structure Grown (blen blen' : ℕ) (ls : List Line) : Prop where
  pow : (∃ k, blen = 2 ^ k) → ∃ k, blen' = 2 ^ k
  fits : (∃ k, blen = 2 ^ k) → (blen' < 2 ^ 31 ↔ blen < 2 ^ 31 ∧ ∀ l ∈ ls, Short l)

theorem Grown.refl (blen : ℕ) : Grown blen blen [] :=
  ⟨id, fun _ => (and_iff_left fun _ h => absurd h List.not_mem_nil).symm⟩

theorem Grown.trans {b b' b'' : ℕ} {ls ls' : List Line} (h : Grown b b' ls)
    (h' : Grown b' b'' ls') : Grown b b'' (ls ++ ls') :=
  ⟨fun hb => h'.pow (h.pow hb), fun hb => by
    rw [h'.fits (h.pow hb), h.fits hb, List.forall_mem_append, and_assoc]⟩

theorem Grown.of_mem {b b' : ℕ} {ls ls' : List Line} (h : Grown b b' ls)
    (hmem : ∀ l, l ∈ ls ↔ l ∈ ls') : Grown b b' ls' :=
  ⟨h.pow, fun hb => by simp only [h.fits hb, hmem]⟩

/-- The buffer is the first one that has room for the line. -/
theorem Grown.of_bounds {b b' j : ℕ} {l : Line} (hpow : b' = b * 2 ^ j) (hroom : l.length + 2 ≤ b')
    (hleast : b' = b ∨ b' < 2 * (l.length + 2)) : Grown b b' [l] := by
  have hpow' : (∃ k, b = 2 ^ k) → ∃ k, b' = 2 ^ k := by
    rintro ⟨k, rfl⟩
    exact ⟨k + j, by rw [hpow, pow_add]⟩
  have hle : b ≤ b' := by
    rw [hpow]
    exact Nat.le_mul_of_pos_right b (by positivity)
  refine ⟨hpow', fun hb => ?_⟩
  rw [List.forall_mem_singleton]
  unfold Short
  obtain ⟨k, hk⟩ := hpow' hb
  constructor
  · intro hfits
    have hexp : k < 31 := (Nat.pow_lt_pow_iff_right (by decide)).mp (hk ▸ hfits)
    have hhalf : b' ≤ 2 ^ 30 := by
      rw [hk]
      exact Nat.pow_le_pow_right (by decide) (by omega)
    omega
  · rintro ⟨hfits, hshort⟩
    omega

/-- The buffer is doubled until the line has room. -/
theorem grow_line {fuel blen : ℕ} {p q : Line} (hp : 10 ∉ p) (hq : 10 ∉ q)
    (hlen : p.length = blen - 1) (hblen : 2 ≤ blen) (hfuel : q.length < fuel) (rest : Line) :
    ∃ blen', 2 ≤ blen' ∧ (∃ j, blen' = blen * 2 ^ j) ∧ p.length + q.length + 2 ≤ blen' ∧
      blen' < 2 * (p.length + q.length + 2) ∧
      grow fuel blen p (q ++ [10] ++ rest) = (p ++ q ++ [10], blen', rest) := by
  induction fuel generalizing blen p q with
  | zero => omega
  | succ fuel ih =>
    unfold grow
    rw [if_pos ⟨hlen, getLast_ne hp⟩, hlen, show blen * 2 - (blen - 1) - 1 = blen by omega]
    dsimp only
    by_cases hfit : q.length + 1 ≤ blen
    · refine ⟨blen * 2, by omega, ⟨1, rfl⟩, by omega, by omega, ?_⟩
      rw [fgets_short hq hfit, grow_ended _ _ _ _ (by simp), List.append_assoc]
    · rw [List.append_assoc, fgets_long hq (by omega)]
      have hp' : 10 ∉ p ++ q.take blen := by
        intro e
        rcases List.mem_append.mp e with e | e
        · exact hp e
        · exact hq (List.mem_of_mem_take e)
      have hsum : (p ++ q.take blen).length + (q.drop blen).length = p.length + q.length := by
        rw [List.length_append, List.length_take, List.length_drop]
        omega
      obtain ⟨b, hb, ⟨j, hj⟩, hroom, hleast, heq⟩ := @ih (blen * 2) (p ++ q.take blen)
        (q.drop blen) hp' (fun e => hq (List.mem_of_mem_drop e))
        (by rw [List.length_append, List.length_take]; omega) (by omega)
        (by rw [List.length_drop]; omega)
      rw [hsum] at hroom hleast
      refine ⟨b, hb, ⟨j + 1, by rw [hj, pow_succ]; ring⟩, by omega, by omega, ?_⟩
      rw [List.append_assoc (q.drop blen)] at heq
      rw [heq, List.append_assoc p, List.take_append_drop]

/-- A line is read whole. -/
theorem fgetline_line {blen : ℕ} (hblen : 2 ≤ blen) {l : Line} (h : 10 ∉ l) (rest : Line) :
    ∃ blen', 2 ≤ blen' ∧ Grown blen blen' [l] ∧
      fgetline blen (l ++ [10] ++ rest) = some (l ++ [10], blen', rest) := by
  have hne : l ++ [10] ++ rest ≠ [] := by simp
  have hsome : fgetline blen (l ++ [10] ++ rest) = (
      let bp := fgets (blen - 1) (l ++ [10] ++ rest)
      if bp.2 = [] ∧ bp.1.length < blen - 1 ∧ bp.1.getLast? ≠ some 10 then some (bp.1, blen, [])
      else some (grow ((l ++ [10] ++ rest).length + 1) blen bp.1 bp.2)) := by
    unfold fgetline
    split
    · rename_i hnil
      exact absurd hnil hne
    · rfl
  rw [hsome]
  dsimp only
  by_cases hfit : l.length + 1 ≤ blen - 1
  · have hsame : blen = blen * 2 ^ 0 := (Nat.mul_one blen).symm
    refine ⟨blen, hblen, .of_bounds hsame (by omega) (.inl rfl), ?_⟩
    rw [fgets_short h hfit, if_neg (by simp), grow_ended _ _ _ _ (by simp)]
  · have hlong : fgets (blen - 1) (l ++ [10] ++ rest) =
        (l.take (blen - 1), l.drop (blen - 1) ++ [10] ++ rest) := by
      rw [List.append_assoc, fgets_long h (by omega), List.append_assoc]
    have hsum : (l.take (blen - 1)).length + (l.drop (blen - 1)).length = l.length := by
      rw [← List.length_append, List.take_append_drop]
    obtain ⟨b, hb, ⟨j, hj⟩, hroom, hleast, heq⟩ := @grow_line ((l ++ [10] ++ rest).length + 1) blen
      (l.take (blen - 1)) (l.drop (blen - 1)) (fun e => h (List.mem_of_mem_take e))
      (fun e => h (List.mem_of_mem_drop e)) (by rw [List.length_take]; omega) hblen
      (by simp; omega) rest
    rw [hsum] at hroom hleast
    refine ⟨b, hb, .of_bounds hj hroom (.inr hleast), ?_⟩
    rw [hlong, if_neg (by simp), heq, List.take_append_drop]

/-! ### Columns -/

/-- Printable characters, blanks and tabs. -/
def Plain (l : Line) : Prop := ∀ c ∈ l, c = 9 ∨ 32 ≤ c ∧ c ≤ 126
deriving Decidable

theorem Plain.no_newline {l : Line} (h : Plain l) : 10 ∉ l := by
  intro e
  rcases h 10 e with h | h
  · exact absurd h (by decide)
  · exact absurd h (by decide)

/-- The column after a character. -/
def advance (col : ℕ) (c : UInt8) : ℕ := if c = 9 then col + (8 - col % 8) else col + 1

def column (col : ℕ) (l : Line) : ℕ := l.foldl advance col

def blank (l : Line) : Bool := l.all fun c => c = 32 ∨ c = 9

section Output

variable (hlen : ℕ)

/-- What ends before column `hlen` of a text that starts at `col`. -/
def visible : ℕ → Line → Line
  | _, [] => []
  | col, c :: l => if hlen ≤ advance col c then [] else c :: visible (advance col c) l

theorem prefix_visible (col : ℕ) (l : Line) : visible hlen col l <+: l := by
  induction l generalizing col with
  | nil => exact List.prefix_rfl
  | cons c l ih =>
    unfold visible
    split_ifs
    · exact List.nil_prefix
    · exact List.cons_prefix_cons.mpr ⟨rfl, ih _⟩

theorem column_visible_le (col : ℕ) (l : Line) (h : col ≤ hlen) :
    column col (visible hlen col l) ≤ hlen := by
  induction l generalizing col with
  | nil => exact h
  | cons c l ih =>
    unfold visible
    split_ifs with hc
    · exact h
    · exact ih _ (by omega)

theorem le_column (col : ℕ) (l : Line) : col + l.length ≤ column col l := by
  induction l generalizing col with
  | nil => exact le_rfl
  | cons c l ih =>
    have h := ih (advance col c)
    have hc : col + 1 ≤ advance col c := by
      unfold advance
      split_ifs
      · omega
      · exact le_rfl
    have hcons : column col (c :: l) = column (advance col c) l := rfl
    rw [hcons, List.length_cons]
    omega

/-- `getlen` counts what is visible. -/
theorem getlenFrom_eq {l : Line} (h : Plain l) (tlen nchars : ℕ) (notspace : Bool) :
    getlenFrom hlen (l ++ [10]) tlen nchars notspace =
      (if notspace || !blank (visible hlen tlen l) then column tlen (visible hlen tlen l) else 0,
        nchars + (visible hlen tlen l).length) := by
  induction l generalizing tlen nchars notspace with
  | nil => simp [getlenFrom, visible, blank, column]
  | cons c l ih =>
    obtain ⟨hc, hl⟩ := List.forall_mem_cons.mp h
    have hstop : ¬ (c = 10 ∨ c = 0) := by
      rintro (rfl | rfl)
      · exact absurd hc (by decide)
      · exact absurd hc (by decide)
    rw [List.cons_append]
    unfold getlenFrom visible
    rw [if_neg hstop]
    have hcol (v : Line) : column tlen (c :: v) = column (advance tlen c) v := rfl
    have hnum (v : Line) : nchars + 1 + v.length = nchars + (c :: v).length := by
      rw [List.length_cons]
      ring
    by_cases htab : c = 9
    · have hadv : advance tlen c = tlen + (8 - tlen % 8) := by
        unfold advance
        rw [if_pos htab]
      have hblank (v : Line) : blank (c :: v) = blank v := by simp [blank, htab]
      rw [if_pos htab, ← hadv]
      by_cases hfull : hlen ≤ advance tlen c
      · rw [if_pos hfull, if_pos hfull]
        simp [blank, column]
      · rw [if_neg hfull, if_neg hfull, ih hl, hblank, hcol, hnum]
    · have hadv : advance tlen c = tlen + 1 := by
        unfold advance
        rw [if_neg htab]
      obtain ⟨h32, h126⟩ := hc.resolve_left htab
      have hlow : 32 ≤ c.toNat := UInt8.le_iff_toNat_le.mp h32
      have hhigh : c.toNat ≤ 126 := UInt8.le_iff_toNat_le.mp h126
      have hascii : c < 128 := by
        apply UInt8.lt_iff_toNat_lt.mpr
        change c.toNat < 128
        omega
      have hspace : isspace c = decide (c = 32) := by
        have h13 : ¬ c ≤ 13 := by
          rw [UInt8.le_iff_toNat_le]
          change ¬ c.toNat ≤ 13
          omega
        simp [isspace, h13]
      have hblank (v : Line) : (notspace || !blank (c :: v)) =
          ((notspace || !isspace c) || !blank v) := by
        rw [hspace]
        simp [blank, htab, Bool.or_assoc]
      rw [if_neg htab, if_pos hascii, ← hadv]
      by_cases hfull : hlen ≤ advance tlen c
      · rw [if_pos hfull, if_pos hfull]
        simp [blank, column]
      · rw [if_neg hfull, if_neg hfull, ih hl, hblank, hcol, hnum]

end Output

end Unitas.Sdiff
