import Unitas.Sdiff.Law

/-! When every row shows what it is to show. -/
namespace Unitas.Sdiff
open Unitas.Lines

section Shown

variable (hlen : ℕ)

/-- A row shows its lines with the gutter at column `hlen`; it is empty if its lines are in both
files and nothing but blanks is visible of them. -/
def Row.Shows (row : Row) (t : Line) : Prop :=
  let l := visible hlen 0 (row.left.getD [])
  let r := rightSide hlen (row.right.getD [])
  (row.mark = 32 ∧ blank l ∧ blank r ∧ t = [10]) ∨
    ∃ left, (left = l ∨ blank l ∧ left = []) ∧ ∃ n, column 0 (left ++ List.replicate n 32) = hlen ∧
      t = left ++ List.replicate n 32 ++ [32, 32, row.mark, 32, 32] ++ r ++ [10]

/-- What is to hold of a run: every line of both files is read once, in order and under its mark,
and the lines of the output are the rows. -/
def Diff.Law (d : Diff) : Prop :=
  ∃ s, main hlen (Sdiff.text d.lines1) (Sdiff.text d.lines2) d.text = some s ∧ s.fdes1 = [] ∧
    s.fdes2 = [] ∧ s.log1.map Prod.fst = d.lines1.map (· ++ [10]) ∧
    s.log2.map Prod.fst = d.lines2.map (· ++ [10]) ∧ s.log1 = (Sdiff.lines1 d.rows).map ended ∧
    s.log2 = (Sdiff.lines2 d.rows).map ended ∧
    List.Forall₂ (Row.Shows hlen) d.rows (fileLines s.stdout)

theorem column_spaces (col : ℕ) (l : Line) (n : ℕ) :
    column col (l ++ List.replicate n 32) = column col l + n := by
  unfold column
  rw [List.foldl_append]
  generalize l.foldl advance col = k
  induction n generalizing k with
  | zero => rfl
  | succ n ih =>
    have hadv : advance k 32 = k + 1 := rfl
    rw [List.replicate_succ, List.foldl_cons, hadv, ih]
    omega

theorem leftSide_eq_nil {l : Line} : leftSide hlen l = [] ↔ blank (visible hlen 0 l) = true := by
  unfold leftSide
  constructor
  · intro h
    by_contra hb
    rw [if_neg hb] at h
    exact hb (by rw [h]; rfl)
  · exact fun h => if_pos h

theorem column_leftSide_le (l : Line) : column 0 (leftSide hlen l) ≤ hlen := by
  unfold leftSide
  split_ifs
  · exact Nat.zero_le _
  · exact column_visible_le hlen 0 l (Nat.zero_le _)

variable {hlen}

/-- A row is as it is to be unless nothing is visible on its left, something is on its right, and
it has no mark. -/
theorem Row.shows_text (row : Row) : row.Shows hlen (row.text hlen) ↔
    (row.mark = 32 → blank (visible hlen 0 (row.left.getD [])) = true →
      blank (rightSide hlen (row.right.getD [])) = true) := by
  have hcol := column_leftSide_le hlen (row.left.getD [])
  by_cases h : row.mark = 32 ∧ leftSide hlen (row.left.getD []) = []
  · obtain ⟨hm, hleft⟩ := h
    have hblank := (leftSide_eq_nil hlen).mp hleft
    have htext : row.text hlen = [10] := by
      unfold Row.text
      dsimp only
      rw [if_pos ⟨hm, hleft⟩, hleft]
      rfl
    rw [htext]
    constructor
    · rintro (⟨-, -, hr, -⟩ | ⟨left, -, n, -, ht⟩)
      · exact fun _ _ => hr
      · have hlen := congrArg List.length ht
        simp at hlen
        omega
    · intro hr
      exact Or.inl ⟨hm, hblank, hr hm hblank, rfl⟩
  · constructor
    · intro _ hm hblank
      exact absurd ⟨hm, (leftSide_eq_nil hlen).mpr hblank⟩ h
    · intro _
      refine Or.inr ⟨leftSide hlen (row.left.getD []), ?_, hlen -
        column 0 (leftSide hlen (row.left.getD [])), ?_, ?_⟩
      · unfold leftSide
        split_ifs with hb
        · exact Or.inr ⟨hb, rfl⟩
        · exact Or.inl rfl
      · rw [column_spaces]
        omega
      · unfold Row.text gutter
        dsimp only
        rw [if_neg h]
        simp only [List.append_assoc]

/-! ### The lines of the output -/

/-- The rows of files of printable lines. -/
structure Row.Ok (row : Row) : Prop where
  left : ∀ l ∈ row.left, Plain l
  right : ∀ r ∈ row.right, Plain r
  mark : row.mark ≠ 10

theorem Row.Ok.ended {row : Row} (h : row.Ok) : Ended (row.text hlen) := by
  have hvis (col : ℕ) {l : Line} (hl : 10 ∉ l) : 10 ∉ visible hlen col l :=
    fun e => hl ((prefix_visible hlen col l).subset e)
  have hl : 10 ∉ row.left.getD [] := by
    cases hrow : row.left with
    | none => simp
    | some l => exact (h.left l hrow).no_newline
  have hr : 10 ∉ row.right.getD [] := by
    cases hrow : row.right with
    | none => simp
    | some r => exact (h.right r hrow).no_newline
  have hside : 10 ∉ leftSide hlen (row.left.getD []) := by
    unfold leftSide
    split_ifs
    · simp
    · exact hvis 0 hl
  have hright : 10 ∉ rightSide hlen (row.right.getD []) := hvis _ hr
  have hmark : ¬ 10 = row.mark := fun e => h.mark e.symm
  refine ⟨_, ?_, rfl⟩
  split_ifs
  · simpa using hside
  · unfold gutter
    simp [hside, hright, hmark, List.mem_replicate]

theorem fileLines_rows {rows : List Row} (h : ∀ row ∈ rows, row.Ok) :
    fileLines (rows.flatMap (Row.text hlen)) = rows.map (Row.text hlen) := by
  have hlines := @fileLines_append (rows.map (Row.text hlen)) (by
    intro l hl
    obtain ⟨row, hrow, rfl⟩ := List.mem_map.mp hl
    exact (h row hrow).ended) []
  rw [List.append_nil] at hlines
  rw [List.flatMap_def, hlines]
  exact List.append_nil _

theorem mem_changeRows {old new : List Line} {row : Row} (h : row ∈ changeRows old new) :
    row.mark ≠ 32 ∧ row.mark ≠ 10 := by
  unfold changeRows at h
  rcases List.mem_append.mp h with h | h
  · rcases List.mem_append.mp h with h | h
    · obtain ⟨p, -, rfl⟩ := List.mem_map.mp h
      change (124 : UInt8) ≠ 32 ∧ (124 : UInt8) ≠ 10
      decide
    · obtain ⟨l, -, rfl⟩ := List.mem_map.mp h
      change (60 : UInt8) ≠ 32 ∧ (60 : UInt8) ≠ 10
      decide
  · obtain ⟨l, -, rfl⟩ := List.mem_map.mp h
    change (62 : UInt8) ≠ 32 ∧ (62 : UInt8) ≠ 10
    decide

/-- A row is for two lines that are in both files, or has a mark. -/
theorem Diff.mem_rows {d : Diff} {row : Row} : row ∈ d.rows ↔
    (∃ p ∈ d.pairs, row = ⟨some p.1, some p.2, 32⟩) ∨
      ∃ h ∈ d.hunks, row ∈ changeRows h.old h.new := by
  unfold Diff.rows Diff.pairs Hunk.rows commonRows
  simp only [List.mem_append, List.mem_flatMap, List.mem_map]
  constructor
  · rintro (⟨h, hh, ⟨p, hp, rfl⟩ | hrow⟩ | ⟨p, hp, rfl⟩)
    · exact Or.inl ⟨p, Or.inl ⟨h, hh, hp⟩, rfl⟩
    · exact Or.inr ⟨h, hh, hrow⟩
    · exact Or.inl ⟨p, Or.inr hp, rfl⟩
  · rintro (⟨p, ⟨h, hh, hp⟩ | hp, rfl⟩ | ⟨h, hh, hrow⟩)
    · exact Or.inl ⟨h, hh, Or.inl ⟨p, hp, rfl⟩⟩
    · exact Or.inr ⟨p, hp, rfl⟩
    · exact Or.inl ⟨h, hh, Or.inr hrow⟩

theorem Diff.Valid.rows_ok {d : Diff} (h : d.Valid) : ∀ row ∈ d.rows, row.Ok := by
  intro row hrow
  constructor
  · intro l hl
    apply h.plain1
    rw [← d.lines1_rows]
    exact List.mem_map.mpr ⟨(l, row.mark), List.mem_filterMap.mpr ⟨row, hrow, by
      rw [Option.mem_def.mp hl]
      rfl⟩, rfl⟩
  · intro r hr
    apply h.plain2
    rw [← d.lines2_rows]
    exact List.mem_map.mpr ⟨(r, row.mark), List.mem_filterMap.mpr ⟨row, hrow, by
      rw [Option.mem_def.mp hr]
      rfl⟩, rfl⟩
  · rcases Diff.mem_rows.mp hrow with ⟨p, -, rfl⟩ | ⟨g, -, hg⟩
    · change (32 : UInt8) ≠ 10
      decide
    · exact (mem_changeRows hg).2

theorem Diff.Valid.law {d : Diff} (h : d.Valid) :
    d.Law hlen ↔ d.Fits ∧ ∀ row ∈ d.rows, row.Shows hlen (row.text hlen) := by
  obtain ⟨s, hfits, hnot, h1, h2, hlog1, hlog2, hout⟩ := Diff.main_eq hlen h
  have hshown : List.Forall₂ (Row.Shows hlen) d.rows (fileLines s.stdout) ↔
      ∀ row ∈ d.rows, row.Shows hlen (row.text hlen) := by
    rw [hout, fileLines_rows h.rows_ok, List.forall₂_map_right_iff, List.forall₂_same]
  have hmap (rows : List (Line × UInt8)) :
      (rows.map ended).map Prod.fst = (rows.map Prod.fst).map (· ++ [10]) := by
    simp [Function.comp_def, ended]
  rw [← hshown]
  constructor
  · rintro ⟨t, ht, -, -, -, -, -, -, hrows⟩
    have hyes : d.Fits := by
      by_contra hno
      exact absurd (ht.symm.trans (hnot hno)) (by simp)
    obtain rfl : t = s := Option.some.inj (ht.symm.trans (hfits hyes))
    exact ⟨hyes, hrows⟩
  · rintro ⟨hyes, hrows⟩
    refine ⟨s, hfits hyes, h1, h2, ?_, ?_, hlog1, hlog2, hrows⟩
    · rw [hlog1, hmap, d.lines1_rows]
    · rw [hlog2, hmap, d.lines2_rows]

/-- The law holds for a diff unless it takes two lines for the same of which something is visible
on the right only, or a counter is too small for it. -/
theorem law_iff {d : Diff} (h : d.Valid) : d.Law hlen ↔ d.Fits ∧ ∀ p ∈ d.pairs,
    blank (visible hlen 0 p.1) = true → blank (rightSide hlen p.2) = true := by
  rw [h.law]
  refine and_congr_right fun _ => ?_
  constructor
  · intro hall p hp
    exact (Row.shows_text _).mp (hall _ (Diff.mem_rows.mpr (Or.inl ⟨p, hp, rfl⟩))) rfl
  · intro hall row hrow
    apply (Row.shows_text row).mpr
    rcases Diff.mem_rows.mp hrow with ⟨p, hp, rfl⟩ | ⟨g, -, hg⟩
    · exact fun _ => hall p hp
    · exact fun hm => absurd hm (mem_changeRows hg).1

end Shown

/-- `a b e` and `a c d e`. -/
def oneChange : Diff := ⟨[⟨[([97], [97])], [[98]], [[99], [100]]⟩], [([101], [101])]⟩

theorem law_oneChange : oneChange.Law 62 := by
  have hvalid : oneChange.Valid :=
    ⟨by decide, by decide, by decide +kernel, by decide +kernel⟩
  have hfits : oneChange.Fits :=
    ⟨by decide, by decide, by decide +kernel, by decide, by decide⟩
  exact (law_iff hvalid).mpr ⟨hfits, by decide⟩

/-- A line with many blanks before a letter, and with one; they are the same for `diff -b`. -/
def farRight : Diff := ⟨[], [(List.replicate 70 32 ++ [120], [32, 120])]⟩

/-- The right line of this pair is not shown. -/
theorem not_law_farRight : farRight.Valid ∧ ¬ farRight.Law 62 := by
  have hvalid : farRight.Valid :=
    ⟨by decide, by decide, by decide +kernel, by decide +kernel⟩
  constructor
  · exact hvalid
  · intro hlaw
    have hshows := (hvalid.law.mp hlaw).2
      ⟨some (List.replicate 70 32 ++ [120]), some [32, 120], 32⟩ List.mem_cons_self
    exact absurd ((Row.shows_text _).mp hshows rfl (by decide +kernel)) (by decide +kernel)

end Unitas.Sdiff
