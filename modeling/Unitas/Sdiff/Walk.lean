import Unitas.Sdiff.Rows

/-! The walk along the commands of a diff. -/
namespace Unitas.Sdiff
open Unitas.Decimal

/-- A change and the lines before it that are in both files. -/
structure Hunk where
  common : List (Line × Line)
  old : List Line
  new : List Line

def Hunk.lines1 (h : Hunk) : List Line := h.common.map Prod.fst ++ h.old

def Hunk.lines2 (h : Hunk) : List Line := h.common.map Prod.snd ++ h.new

def Hunk.com (h : Hunk) : UInt8 := if h.old = [] then 97 else if h.new = [] then 100 else 99

/-- The numbers of `n` lines after the first `a`. -/
def rangeText (a n : ℕ) : Line :=
  if n = 0 then decimal a
  else if n = 1 then decimal (a + 1)
  else decimal (a + 1) ++ 44 :: decimal (a + n)

/-- The command for a hunk; `a1` and `a2` are the numbers of lines before the change. -/
def Hunk.header (h : Hunk) (a1 a2 : ℕ) : Line :=
  rangeText a1 h.old.length ++ h.com :: rangeText a2 h.new.length

def Hunk.body (h : Hunk) : List Line :=
  h.old.map (60 :: 32 :: ·) ++ (if h.com = 99 then [[45, 45, 45]] else []) ++
    h.new.map (62 :: 32 :: ·)

/-- The lines that `diff` writes for hunks after `k1` and `k2` lines. -/
def diffLines : ℕ → ℕ → List Hunk → List Line
  | _, _, [] => []
  | k1, k2, h :: hs =>
    h.header (k1 + h.common.length) (k2 + h.common.length) :: h.body ++
      diffLines (k1 + h.lines1.length) (k2 + h.lines2.length) hs

/-! ### Commands -/

def lo (a n : ℕ) : ℕ := if n = 0 then a else a + 1

theorem range_rangeText (a n : ℕ) {c : UInt8} (hc : isDigit c = false) (h44 : c ≠ 44) (rest : Line) :
    range (rangeText a n ++ c :: rest) = (lo a n, a + n, c :: rest) := by
  have hone (m : ℕ) : range (decimal m ++ c :: rest) = (m, m, c :: rest) := by
    unfold range
    rw [takeWhile_decimal m hc, dropWhile_decimal m hc, decValue_decimal]
    split
    · rename_i heq
      exact absurd (List.cons.inj heq).1 h44
    · rfl
  unfold rangeText lo
  split_ifs with h0 h1
  · rw [hone, h0, Nat.add_zero]
  · rw [hone, h1]
  · rw [List.append_assoc, List.cons_append]
    unfold range
    rw [takeWhile_decimal _ (by decide), dropWhile_decimal _ (by decide), decValue_decimal]
    simp only [takeWhile_decimal _ hc, dropWhile_decimal _ hc, decValue_decimal]

theorem rangeText_head (a n : ℕ) : ∃ c rest, rangeText a n = c :: rest ∧ isDigit c = true := by
  have hdec (m : ℕ) : ∃ c rest, decimal m = c :: rest ∧ isDigit c = true := by
    obtain ⟨c, rest, h⟩ := List.exists_cons_of_ne_nil (decimal_ne_nil m)
    exact ⟨c, rest, h, decimal_isDigit m c (by rw [h]; simp)⟩
  unfold rangeText
  split_ifs
  · exact hdec a
  · exact hdec (a + 1)
  · obtain ⟨c, rest, h, hd⟩ := hdec (a + 1)
    exact ⟨c, rest ++ 44 :: decimal (a + n), by rw [h]; rfl, hd⟩

theorem Hunk.com_cases (h : Hunk) : h.com = 97 ∨ h.com = 100 ∨ h.com = 99 := by
  unfold Hunk.com
  split_ifs
  · exact Or.inl rfl
  · exact Or.inr (Or.inl rfl)
  · exact Or.inr (Or.inr rfl)

theorem cmd_header (h : Hunk) (a1 a2 : ℕ) :
    cmd (h.header a1 a2 ++ [10]) = some ⟨h.com, lo a1 h.old.length, a1 + h.old.length,
      lo a2 h.new.length, a2 + h.new.length⟩ := by
  have hcom : isDigit h.com = false ∧ h.com ≠ 44 ∧ h.com ≠ 0 := by
    rcases h.com_cases with e | e | e <;> rw [e] <;> decide
  have h1 := range_rangeText a1 h.old.length hcom.1 hcom.2.1 (rangeText a2 h.new.length ++ [10])
  have h2 := range_rangeText a2 h.new.length (c := 10) (by decide) (by decide) []
  obtain ⟨c, rest, hc, hd⟩ := rangeText_head a1 h.old.length
  unfold Hunk.header cmd
  rw [List.append_assoc, List.cons_append, h1, if_neg]
  · dsimp only [List.tail_cons]
    rw [h2]
    exact if_neg hcom.2.2
  · rw [hc]
    simp only [List.cons_append, List.head?_cons, List.mem_cons, Option.some.injEq,
      List.not_mem_nil, or_false]
    rintro (rfl | rfl | rfl | rfl) <;> exact absurd hd (by decide)

theorem cmd_body {h : Hunk} {l : Line} (hl : l ∈ h.body) : cmd (l ++ [10]) = none := by
  unfold Hunk.body at hl
  have hhead : l.head? ∈ [some (62 : UInt8), some 60, some 45, some 46] := by
    rcases List.mem_append.mp hl with hl | hl
    · rcases List.mem_append.mp hl with hl | hl
      · obtain ⟨m, -, rfl⟩ := List.mem_map.mp hl
        simp
      · split_ifs at hl
        · rw [List.mem_singleton.mp hl]
          simp
        · simp at hl
    · obtain ⟨m, -, rfl⟩ := List.mem_map.mp hl
      simp
  unfold cmd
  rw [if_pos]
  cases l with
  | nil => simp at hhead
  | cons c l => simpa using hhead

/-! ### Loops -/

section Walk

variable (hlen : ℕ)

theorem both_eq (ps : List (Line × Line)) {s : State} {ls1 ls2 : List Line}
    (h : At s (ps.map Prod.fst ++ ls1) (ps.map Prod.snd ++ ls2)) :
    let s' := both hlen ps.length s
    At s' ls1 ls2 ∧ Wrote hlen [] s s' (ps.map fun p => ⟨some p.1, some p.2, s.change⟩) ∧
      s'.change = s.change ∧ (s.len1 = 0 ∨ ps ≠ [] → s'.len1 = 0) := by
  induction ps generalizing s with
  | nil => exact ⟨h, .refl s, rfl, fun e => e.resolve_right (fun hne => hne rfl)⟩
  | cons p ps ih =>
    obtain ⟨hat, hw, hc, hlen1, -⟩ := row_both hlen h
    obtain ⟨hat', hw', hc', hlen1'⟩ := ih hat
    rw [hc] at hw' hc'
    exact ⟨hat', hw.trans hw', hc', fun _ => hlen1' (Or.inl hlen1)⟩

theorem lefts_eq (ls : List Line) {s : State} {ls1 ls2 : List Line} (h : At s (ls ++ ls1) ls2)
    (hc : s.change ≠ 32) :
    ∃ s', lefts hlen ls.length s = some s' ∧ At s' ls1 ls2 ∧
      Wrote hlen [] s s' (ls.map fun l => ⟨some l, none, s.change⟩) ∧
      (ls = [] → s'.len1 = s.len1) := by
  induction ls generalizing s with
  | nil => exact ⟨s, rfl, h, .refl s, fun _ => rfl⟩
  | cons l ls ih =>
    obtain ⟨t, hput, hat, hw, hc'⟩ := row_left hlen h hc
    obtain ⟨s', hs', hat', hw', -⟩ := ih hat (by rwa [hc'])
    rw [hc'] at hw'
    refine ⟨s', ?_, hat', hw.trans hw', by simp⟩
    rw [List.length_cons, lefts, hput]
    exact hs'

theorem rights_eq (rs : List Line) {s : State} {ls1 ls2 : List Line} (h : At s ls1 (rs ++ ls2))
    (hc : s.change ≠ 32) (hlen1 : s.len1 = 0 ∨ rs = []) :
    ∃ s', rights hlen rs.length s = some s' ∧ At s' ls1 ls2 ∧
      Wrote hlen [] s s' (rs.map fun r => ⟨none, some r, s.change⟩) := by
  induction rs generalizing s with
  | nil => exact ⟨s, rfl, h, .refl s⟩
  | cons r rs ih =>
    obtain ⟨t, hput, hat, hw, hc', hl'⟩ := row_right hlen h hc
      (hlen1.resolve_right (List.cons_ne_nil _ _))
    obtain ⟨s', hs', hat', hw'⟩ := ih hat (by rwa [hc']) (Or.inl hl')
    rw [hc'] at hw'
    refine ⟨s', ?_, hat', hw.trans hw'⟩
    rw [List.length_cons, rights, hput]
    exact hs'

end Walk

end Unitas.Sdiff
