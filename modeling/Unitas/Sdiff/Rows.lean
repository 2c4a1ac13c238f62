import Unitas.Sdiff.Reading

/-! The rows that `put1` and `put2` write, and the loops of the main program. -/
namespace Unitas.Sdiff
open Unitas.Decimal

/-- A row of the output: a line of the first file, a line of the second, and the mark. -/
structure Row where
  left : Option Line
  right : Option Line
  mark : UInt8

def text (ls : List Line) : Line := ls.flatMap (· ++ [10])

theorem text_cons (l : Line) (ls : List Line) : text (l :: ls) = l ++ [10] ++ text ls := rfl

section Rows

variable (hlen : ℕ)

/-- What is visible of a line on the left, if it is not blank. -/
def leftSide (l : Line) : Line := if blank (visible hlen 0 l) then [] else visible hlen 0 l

def rightSide (r : Line) : Line := visible hlen ((hlen + WGUTTER) % 8) r

def gutter (left : Line) (mark : UInt8) : Line :=
  List.replicate (hlen - column 0 left) 32 ++ [32, 32, mark, 32, 32]

def Row.text (row : Row) : Line :=
  let left := leftSide hlen (row.left.getD [])
  left ++ (if row.mark = 32 ∧ left = [] then []
    else gutter hlen left row.mark ++ rightSide hlen (row.right.getD [])) ++ [10]

theorem take_visible (col : ℕ) (l : Line) :
    (l ++ [10]).take (visible hlen col l).length = visible hlen col l :=
  (List.prefix_iff_eq_take.mp ((prefix_visible hlen col l).trans (List.prefix_append _ _))).symm

theorem column_eq_zero {l : Line} : column 0 l = 0 ↔ l = [] := by
  constructor
  · intro h
    have hle := le_column 0 l
    rw [h] at hle
    exact List.length_eq_zero_iff.mp (by omega)
  · rintro rfl
    rfl

theorem getlen_left {l : Line} (h : Plain l) :
    getlen hlen 0 (l ++ [10]) = (column 0 (leftSide hlen l), (visible hlen 0 l).length) := by
  unfold getlen leftSide
  rw [getlenFrom_eq hlen h, Nat.zero_add]
  cases blank (visible hlen 0 l) <;> rfl

theorem put1_eq {s : State} {l rest : Line} (h : Plain l) (hs : s.fdes1 = l ++ [10] ++ rest)
    (hblen : 2 ≤ s.blen) :
    ∃ blen, 2 ≤ blen ∧ Grown s.blen blen [l] ∧ put1 hlen s = ({ s with
      fdes1 := rest
      blen := blen
      len1 := column 0 (leftSide hlen l)
      stdout := s.stdout ++ (leftSide hlen l ++
        if s.change = 32 then [] else gutter hlen (leftSide hlen l) s.change)
      midflg := if s.change = 32 then s.midflg else true
      num1 := s.num1 + 1
      log1 := s.log1 ++ [(l ++ [10], s.change)] }, true) := by
  obtain ⟨blen, hb, hgrown, hget⟩ := fgetline_line hblen h.no_newline rest
  refine ⟨blen, hb, hgrown, ?_⟩
  unfold put1
  rw [hs, hget]
  dsimp only
  rw [getlen_left hlen h, take_visible]
  dsimp only
  have hprint (t : State) : (if column 0 (leftSide hlen l) ≠ 0 then t.print (visible hlen 0 l)
      else t) = t.print (leftSide hlen l) := by
    by_cases hblank : blank (visible hlen 0 l) = true
    · have hleft : leftSide hlen l = [] := if_pos hblank
      rw [hleft, if_neg (by simp [column])]
      simp [State.print]
    · have hleft : leftSide hlen l = visible hlen 0 l := if_neg hblank
      have hne : visible hlen 0 l ≠ [] := fun e => hblank (by rw [e]; rfl)
      rw [hleft, if_pos (by simpa [column_eq_zero] using hne)]
  rw [hprint]
  by_cases hc : s.change = 32
  · simp [hc, State.print]
  · simp [hc, State.print, putmid, gutter]

theorem put2_eq {s : State} {r rest : Line} (h : Plain r) (hs : s.fdes2 = r ++ [10] ++ rest)
    (hblen : 2 ≤ s.blen) :
    ∃ blen, 2 ≤ blen ∧ Grown s.blen blen [r] ∧ put2 hlen s = ({ s with
      fdes2 := rest
      blen := blen
      len1 := 0
      stdout := s.stdout ++ (if s.change = 32 ∧ s.len1 = 0 then []
        else (if s.midflg then []
          else List.replicate (hlen - s.len1) 32 ++ [32, 32, s.change, 32, 32]) ++ rightSide hlen r)
      midflg := if s.change = 32 ∧ s.len1 = 0 then s.midflg else true
      num2 := s.num2 + 1
      log2 := s.log2 ++ [(r ++ [10], s.change)] }, true) := by
  obtain ⟨blen, hb, hgrown, hget⟩ := fgetline_line hblen h.no_newline rest
  refine ⟨blen, hb, hgrown, ?_⟩
  have hlen2 : (getlen hlen ((hlen + WGUTTER) % 8) (r ++ [10])).2 = (rightSide hlen r).length := by
    unfold getlen rightSide
    rw [getlenFrom_eq hlen h, Nat.zero_add]
  have htake : (r ++ [10]).take (rightSide hlen r).length = rightSide hlen r :=
    take_visible hlen _ r
  unfold put2
  rw [hs, hget]
  dsimp only
  rw [hlen2, htake]
  by_cases hc : s.change = 32 ∧ s.len1 = 0
  · rw [if_neg (by simp [hc.1, hc.2])]
    simp [hc.1, hc.2]
  · rw [if_pos (by tauto), if_neg hc]
    cases hm : s.midflg with
    | true => simp [State.print, hc]
    | false => simp [State.print, putmid, hc]

/-! ### Rows -/

/-- Where the walker is between two rows. -/
structure At (s : State) (ls1 ls2 : List Line) : Prop where
  fdes1 : s.fdes1 = Sdiff.text ls1
  fdes2 : s.fdes2 = Sdiff.text ls2
  blen : 2 ≤ s.blen
  midflg : s.midflg = false
  plain1 : ∀ l ∈ ls1, Plain l
  plain2 : ∀ l ∈ ls2, Plain l

def lines1 (rows : List Row) : List (Line × UInt8) :=
  rows.filterMap fun row => row.left.map fun l => (l, row.mark)

def lines2 (rows : List Row) : List (Line × UInt8) :=
  rows.filterMap fun row => row.right.map fun l => (l, row.mark)

def ended (p : Line × UInt8) : Line × UInt8 := (p.1 ++ [10], p.2)

def rowLines (rows : List Row) : List Line :=
  rows.flatMap fun row => row.left.toList ++ row.right.toList

/-- What is different after some rows, and after other lines that have been read. -/
structure Wrote (more : List Line) (s s' : State) (rows : List Row) : Prop where
  diffdes : s'.diffdes = s.diffdes
  stdout : s'.stdout = s.stdout ++ rows.flatMap (Row.text hlen)
  log1 : s'.log1 = s.log1 ++ (lines1 rows).map ended
  log2 : s'.log2 = s.log2 ++ (lines2 rows).map ended
  num1 : s'.num1 = s.num1 + (lines1 rows).length
  num2 : s'.num2 = s.num2 + (lines2 rows).length
  grown : Grown s.blen s'.blen (rowLines rows ++ more)

variable {hlen}

theorem Wrote.refl (s : State) : Wrote hlen [] s s [] := by
  constructor
  case grown => exact .refl s.blen
  all_goals simp [lines1, lines2]

theorem Wrote.trans {s s' s'' : State} {more more' : List Line} {rows rows' : List Row}
    (h : Wrote hlen more s s' rows) (h' : Wrote hlen more' s' s'' rows') :
    Wrote hlen (more ++ more') s s'' (rows ++ rows') := by
  have h1 : lines1 (rows ++ rows') = lines1 rows ++ lines1 rows' := List.filterMap_append
  have h2 : lines2 (rows ++ rows') = lines2 rows ++ lines2 rows' := List.filterMap_append
  constructor
  · rw [h'.diffdes, h.diffdes]
  · rw [h'.stdout, h.stdout, List.flatMap_append, List.append_assoc]
  · rw [h'.log1, h.log1, h1, List.map_append, List.append_assoc]
  · rw [h'.log2, h.log2, h2, List.map_append, List.append_assoc]
  · rw [h'.num1, h.num1, h1, List.length_append, Nat.add_assoc]
  · rw [h'.num2, h.num2, h2, List.length_append, Nat.add_assoc]
  · have happ : rowLines (rows ++ rows') = rowLines rows ++ rowLines rows' := List.flatMap_append
    refine (h.grown.trans h'.grown).of_mem fun l => ?_
    rw [happ]
    simp only [List.mem_append]
    tauto

theorem row_both (hlen : ℕ) {s : State} {l r : Line} {ls1 ls2 : List Line}
    (h : At s (l :: ls1) (r :: ls2)) :
    let s' := newline (put2 hlen (put1 hlen s).1).1
    At s' ls1 ls2 ∧ Wrote hlen [] s s' [⟨some l, some r, s.change⟩] ∧ s'.change = s.change ∧
      s'.len1 = 0 ∧ (put1 hlen s).2 = true := by
  obtain ⟨hl, hls1⟩ := List.forall_mem_cons.mp h.plain1
  obtain ⟨hr, hls2⟩ := List.forall_mem_cons.mp h.plain2
  obtain ⟨b1, hb1, hg1, h1⟩ := put1_eq hlen hl (h.fdes1.trans (text_cons l ls1)) h.blen
  rw [h1]
  dsimp only
  have hs2 := h.fdes2.trans (text_cons r ls2)
  generalize hmid : ({ s with
      fdes1 := Sdiff.text ls1
      blen := b1
      len1 := column 0 (leftSide hlen l)
      stdout := s.stdout ++ (leftSide hlen l ++
        if s.change = 32 then [] else gutter hlen (leftSide hlen l) s.change)
      midflg := if s.change = 32 then s.midflg else true
      num1 := s.num1 + 1
      log1 := s.log1 ++ [(l ++ [10], s.change)] } : State) = t
  obtain ⟨b2, hb2, hg2, h2⟩ := put2_eq hlen (s := t) hr (by rw [← hmid]; exact hs2)
    (by rw [← hmid]; exact hb1)
  rw [h2, ← hmid]
  have htext : (leftSide hlen l ++
      if s.change = 32 then [] else gutter hlen (leftSide hlen l) s.change) ++
      (if s.change = 32 ∧ column 0 (leftSide hlen l) = 0 then []
        else (if (if s.change = 32 then s.midflg else true) then []
          else List.replicate (hlen - column 0 (leftSide hlen l)) 32 ++
            [32, 32, s.change, 32, 32]) ++ rightSide hlen r) ++ [10] =
      Row.text hlen ⟨some l, some r, s.change⟩ := by
    unfold Row.text
    dsimp only [Option.getD_some]
    simp only [column_eq_zero, h.midflg]
    by_cases hc : s.change = 32
    · by_cases hleft : leftSide hlen l = []
      · simp [hc, hleft]
      · simp [hc, hleft, gutter]
    · simp [hc]
  constructor
  · exact ⟨rfl, rfl, hb2, rfl, hls1, hls2⟩
  constructor
  · constructor
    · rfl
    · unfold newline State.print
      rw [List.flatMap_singleton, ← htext]
      simp only [List.append_assoc]
    · rfl
    · rfl
    · rfl
    · rfl
    · rw [← hmid] at hg2
      exact hg1.trans hg2
  · exact ⟨rfl, rfl, rfl⟩

theorem row_left (hlen : ℕ) {s : State} {l : Line} {ls1 ls2 : List Line} (h : At s (l :: ls1) ls2)
    (hc : s.change ≠ 32) :
    ∃ s', put1 hlen s = (s', true) ∧ At (newline s') ls1 ls2 ∧
      Wrote hlen [] s (newline s') [⟨some l, none, s.change⟩] ∧ (newline s').change = s.change := by
  obtain ⟨hl, hls1⟩ := List.forall_mem_cons.mp h.plain1
  obtain ⟨b1, hb1, hg1, h1⟩ := put1_eq hlen hl (h.fdes1.trans (text_cons l ls1)) h.blen
  refine ⟨_, h1, ⟨rfl, h.fdes2, hb1, rfl, hls1, h.plain2⟩, ?_, rfl⟩
  constructor
  · rfl
  · unfold newline State.print Row.text
    simp [hc, rightSide, visible]
  · rfl
  · simp [newline, State.print, lines2]
  · rfl
  · simp [newline, State.print, lines2]
  · exact hg1

/-- For a line of the second file only, nothing may be left of the row before. -/
theorem row_right (hlen : ℕ) {s : State} {r : Line} {ls1 ls2 : List Line} (h : At s ls1 (r :: ls2))
    (hc : s.change ≠ 32) (hlen1 : s.len1 = 0) :
    ∃ s', put2 hlen s = (s', true) ∧ At (newline s') ls1 ls2 ∧
      Wrote hlen [] s (newline s') [⟨none, some r, s.change⟩] ∧ (newline s').change = s.change ∧
      (newline s').len1 = 0 := by
  obtain ⟨hr, hls2⟩ := List.forall_mem_cons.mp h.plain2
  obtain ⟨b2, hb2, hg2, h2⟩ := put2_eq hlen hr (h.fdes2.trans (text_cons r ls2)) h.blen
  refine ⟨_, h2, ⟨h.fdes1, rfl, hb2, rfl, h.plain1, hls2⟩, ?_, rfl, rfl⟩
  constructor
  · rfl
  · unfold newline State.print Row.text
    simp [hc, h.midflg, hlen1, leftSide, visible, gutter, column, blank]
  · simp [newline, State.print, lines1]
  · rfl
  · simp [newline, State.print, lines1]
  · rfl
  · exact hg2

end Rows

end Unitas.Sdiff
