import Mathlib.Data.List.Basic
import Mathlib.Data.List.TakeWhile

/-! The lines of a file, with and without a newline after the last one. -/
namespace Unitas.Lines

/-- The lines of an input, of which the last one need not end. -/
def lines (input : List UInt8) : List (List UInt8) :=
  let ls := input.splitOn 10
  if ls.getLast? = some [] then ls.dropLast else ls

theorem lines_cons {input rest : List UInt8} {l : List UInt8} {ls : List (List UInt8)}
    (h : input.splitOn 10 = l :: ls) (hnil : ls = [] → rest = [])
    (hrest : ls ≠ [] → rest.splitOn 10 = ls) (hne : ¬ (ls = [] ∧ l = [])) :
    lines input = l :: lines rest := by
  rw [lines, h]
  cases ls with
  | nil =>
    rw [hnil rfl]
    exact if_neg (by simpa using hne)
  | cons g gs =>
    rw [lines, hrest (List.cons_ne_nil _ _), List.getLast?_cons_cons]
    split_ifs
    · rfl
    · rfl

theorem splitOn_newline (input : List UInt8) :
    input.splitOn 10 = input.takeWhile (· ≠ 10) ::
      if 10 ∈ input then ((input.dropWhile (· ≠ 10)).drop 1).splitOn 10 else [] := by
  induction input with
  | nil => rfl
  | cons c input ih =>
    rw [List.splitOn_cons_eq_if_modifyHead]
    by_cases hc : c = 10
    · simp [hc]
    · rw [if_neg (by simpa using hc), ih, List.modifyHead_cons]
      simp [hc, Ne.symm hc]

/-- The first line is what comes before the first newline. -/
theorem lines_eq_cons {input : List UInt8} (hne : input ≠ []) :
    lines input = input.takeWhile (· ≠ 10) :: lines ((input.dropWhile (· ≠ 10)).drop 1) := by
  have hall (h10 : 10 ∉ input) (c : UInt8) (hc : c ∈ input) : decide (c ≠ 10) = true := by
    simpa using fun h : c = 10 => h10 (h ▸ hc)
  have hsplit := splitOn_newline input
  refine lines_cons hsplit ?_ ?_ ?_
  · intro h
    by_cases h10 : 10 ∈ input
    · rw [if_pos h10] at h
      exact absurd h (List.splitOn_ne_nil _ _)
    · rw [List.dropWhile_eq_nil_iff.mpr (hall h10)]
      rfl
  · intro h
    by_cases h10 : 10 ∈ input
    · rw [if_pos h10]
    · simp [h10] at h
  · rintro ⟨h, h'⟩
    by_cases h10 : 10 ∈ input
    · rw [if_pos h10] at h
      exact List.splitOn_ne_nil _ _ h
    · rw [List.takeWhile_eq_self_iff.mpr (hall h10)] at h'
      exact hne h'

theorem head_mem_lines {input l : List UInt8} {ls : List (List UInt8)}
    (h : input.splitOn 10 = l :: ls) (hne : ¬ (ls = [] ∧ l = [])) : l ∈ lines input := by
  rw [lines, h]
  cases ls with
  | nil =>
    have hlast : ¬ [l].getLast? = some [] := by simpa using hne
    exact (if_neg hlast).symm ▸ List.mem_cons_self
  | cons g gs =>
    split_ifs
    · rw [List.dropLast_cons_of_ne_nil (List.cons_ne_nil _ _)]
      exact List.mem_cons_self
    · exact List.mem_cons_self

theorem mem_splitOn {input : List UInt8} : ∀ {line : List UInt8}, line ∈ input.splitOn 10 →
    ∀ c ∈ line, c ∈ input := by
  induction input with
  | nil =>
    intro line hline c hc
    have hnil : ([] : List UInt8).splitOn 10 = [[]] := rfl
    rw [hnil, List.mem_singleton] at hline
    exact hline ▸ hc
  | cons d input ih =>
    intro line hline c hc
    obtain ⟨g, gs, hg⟩ := List.exists_cons_of_ne_nil (List.splitOn_ne_nil 10 input)
    rw [List.splitOn_cons_eq_if_modifyHead, hg] at hline
    rw [hg] at ih
    split_ifs at hline
    · rcases List.mem_cons.mp hline with rfl | hline
      · exact absurd hc List.not_mem_nil
      · exact List.mem_cons_of_mem _ (ih hline c hc)
    · rcases List.mem_cons.mp hline with rfl | hline
      · rcases List.mem_cons.mp hc with rfl | hc
        · exact List.mem_cons_self
        · exact List.mem_cons_of_mem _ (ih List.mem_cons_self c hc)
      · exact List.mem_cons_of_mem _ (ih (List.mem_cons_of_mem _ hline) c hc)

theorem not_mem_of_mem_splitOn {input : List UInt8} : ∀ {line : List UInt8},
    line ∈ input.splitOn 10 → 10 ∉ line := by
  induction input with
  | nil =>
    intro line hline
    have hnil : ([] : List UInt8).splitOn 10 = [[]] := rfl
    rw [hnil, List.mem_singleton] at hline
    exact hline ▸ List.not_mem_nil
  | cons d input ih =>
    intro line hline
    obtain ⟨g, gs, hg⟩ := List.exists_cons_of_ne_nil (List.splitOn_ne_nil 10 input)
    rw [List.splitOn_cons_eq_if_modifyHead, hg] at hline
    rw [hg] at ih
    split_ifs at hline with hd
    · rcases List.mem_cons.mp hline with rfl | hline
      · exact List.not_mem_nil
      · exact ih hline
    · rcases List.mem_cons.mp hline with rfl | hline
      · rw [List.mem_cons, not_or]
        exact ⟨fun h => hd (beq_iff_eq.mpr h.symm), ih List.mem_cons_self⟩
      · exact ih (List.mem_cons_of_mem _ hline)

theorem not_mem_line {input : List UInt8} (h : 0 ∉ input) : ∀ line ∈ lines input, 0 ∉ line := by
  intro line hline hmem
  refine h (@mem_splitOn input line ?_ 0 hmem)
  rw [lines] at hline
  split_ifs at hline
  · exact List.dropLast_subset _ hline
  · exact hline

/-- Nothing follows the last newline. -/
def Terminated (input : List UInt8) : Prop := ∀ c ∈ input.getLast?, c = 10

theorem terminated_iff (input : List UInt8) :
    Terminated input ↔ (input.splitOn 10).getLast? = some [] := by
  induction input with
  | nil => exact iff_of_true (fun _ h => absurd h (by simp)) rfl
  | cons c input ih =>
    obtain ⟨g, gs, hg⟩ := List.exists_cons_of_ne_nil (List.splitOn_ne_nil 10 input)
    rw [List.splitOn_cons_eq_if_modifyHead, hg]
    cases input with
    | nil =>
      obtain ⟨rfl, rfl⟩ := List.cons.inj hg
      by_cases hc : c = 10
      · subst hc
        exact iff_of_true (fun _ h => (Option.some.inj h).symm) rfl
      · rw [if_neg (by simpa using hc)]
        exact iff_of_false (fun h => hc (h c rfl)) (by simp)
    | cons d rest =>
      have hlast : Terminated (c :: d :: rest) ↔ Terminated (d :: rest) := by
        rw [Terminated, Terminated, List.getLast?_cons_cons]
      rw [hlast, ih, hg]
      split_ifs
      · rw [List.getLast?_cons_cons]
      · cases gs with
        | nil =>
          have hjoin : [10].intercalate ((d :: rest).splitOn 10) = d :: rest :=
            List.intercalate_splitOn 10
          rw [hg] at hjoin
          refine iff_of_false ?_ (by simp)
          rw [List.getLast?_singleton, Option.some.injEq]
          rintro rfl
          simp at hjoin
        | cons g' gs => rw [List.modifyHead_cons, List.getLast?_cons_cons, List.getLast?_cons_cons]

/-- The lines of an input with their newlines. -/
def fileLines : List UInt8 → List (List UInt8)
  | [] => []
  | c :: input =>
    if c = 10 then [c] :: fileLines input
    else match fileLines input with
      | [] => [[c]]
      | l :: ls => (c :: l) :: ls

/-- A text and its newline. -/
def Ended (line : List UInt8) : Prop := ∃ text, 10 ∉ text ∧ line = text ++ [10]

/-- The last line of a file need not be ended. -/
def IsFile : List (List UInt8) → Prop
  | [] => True
  | l :: ls => (Ended l ∨ ls = [] ∧ l ≠ [] ∧ 10 ∉ l) ∧ IsFile ls

theorem flatten_fileLines (input : List UInt8) : (fileLines input).flatten = input := by
  induction input with
  | nil => rfl
  | cons c input ih =>
    rw [fileLines]
    split_ifs
    · rw [List.flatten_cons, ih]
      rfl
    · cases h : fileLines input with
      | nil =>
        rw [← ih, h]
        rfl
      | cons l ls =>
        rw [← ih, h]
        rfl

theorem fileLines_text {text : List UInt8} (h : 10 ∉ text) (hne : text ≠ []) :
    fileLines text = [text] := by
  induction text with
  | nil => exact absurd rfl hne
  | cons c text ih =>
    have hc : c ≠ 10 := fun hc => h (hc ▸ List.mem_cons_self)
    rw [fileLines, if_neg hc]
    cases text with
    | nil => rfl
    | cons d text => rw [ih (fun hd => h (List.mem_cons_of_mem c hd)) (List.cons_ne_nil d text)]

theorem fileLines_ended {text : List UInt8} (h : 10 ∉ text) (input : List UInt8) :
    fileLines (text ++ 10 :: input) = (text ++ [10]) :: fileLines input := by
  induction text with
  | nil => exact if_pos rfl
  | cons c text ih =>
    have hc : c ≠ 10 := fun hc => h (hc ▸ List.mem_cons_self)
    rw [List.cons_append, fileLines, if_neg hc, ih fun hd => h (List.mem_cons_of_mem c hd)]
    rfl

theorem fileLines_flatten (ls : List (List UInt8)) (h : IsFile ls) : fileLines ls.flatten = ls := by
  induction ls with
  | nil => rfl
  | cons l ls ih =>
    obtain ⟨hl, hls⟩ := h
    rw [List.flatten_cons]
    rcases hl with ⟨text, htext, rfl⟩ | ⟨rfl, hne, htext⟩
    · rw [List.append_assoc, List.singleton_append, fileLines_ended htext, ih hls]
    · rw [List.flatten_nil, List.append_nil, fileLines_text htext hne]

theorem isFile_fileLines (input : List UInt8) : IsFile (fileLines input) := by
  induction input with
  | nil => trivial
  | cons c input ih =>
    rw [fileLines]
    split_ifs with hc
    · exact ⟨Or.inl ⟨[], List.not_mem_nil, by rw [hc]; rfl⟩, ih⟩
    · have hcons : ∀ {l : List UInt8}, 10 ∉ l → 10 ∉ c :: l := fun h hmem =>
        (List.mem_cons.mp hmem).elim (fun h' => hc h'.symm) h
      cases h : fileLines input with
      | nil => exact ⟨Or.inr ⟨rfl, List.cons_ne_nil _ _, hcons List.not_mem_nil⟩, trivial⟩
      | cons l ls =>
        rw [h] at ih
        refine ⟨ih.1.imp ?_ ?_, ih.2⟩
        · rintro ⟨text, htext, rfl⟩
          exact ⟨c :: text, hcons htext, rfl⟩
        · rintro ⟨hls, -, hl⟩
          exact ⟨hls, List.cons_ne_nil _ _, hcons hl⟩

theorem IsFile.append {ls' : List (List UInt8)} (h' : IsFile ls') {ls : List (List UInt8)}
    (h : ∀ l ∈ ls, Ended l) : IsFile (ls ++ ls') := by
  induction ls with
  | nil => exact h'
  | cons l ls ih =>
    obtain ⟨hl, hls⟩ := List.forall_mem_cons.mp h
    exact ⟨Or.inl hl, ih hls⟩

theorem IsFile.sublist {ls ls' : List (List UInt8)} (h : IsFile ls) (hs : ls'.Sublist ls) :
    IsFile ls' := by
  induction hs with
  | slnil => exact h
  | cons l _ ih => exact ih h.2
  | cons_cons l hs ih =>
    refine ⟨h.1.imp_right fun hl => ⟨?_, hl.2⟩, ih h.2⟩
    exact List.sublist_nil.mp (hl.1 ▸ hs)

theorem IsFile.ended {ls ls' : List (List UInt8)} (h : IsFile (ls ++ ls')) (hne : ls' ≠ []) :
    ∀ l ∈ ls, Ended l := by
  induction ls with
  | nil => exact fun _ hl => absurd hl List.not_mem_nil
  | cons l ls ih =>
    refine List.forall_mem_cons.mpr ⟨h.1.resolve_right fun hl => hne ?_, ih h.2⟩
    exact (List.append_eq_nil_iff.mp hl.1).2

theorem IsFile.take {ls : List (List UInt8)} : IsFile ls → ∀ n, IsFile (ls.take n) := by
  induction ls with
  | nil => exact fun _ n => by rw [List.take_nil]; trivial
  | cons l ls ih =>
    intro h n
    cases n with
    | zero => trivial
    | succ n =>
      refine ⟨h.1.imp_right ?_, ih h.2 n⟩
      rintro ⟨rfl, hl⟩
      exact ⟨List.take_nil, hl⟩

theorem IsFile.drop {ls : List (List UInt8)} : IsFile ls → ∀ n, IsFile (ls.drop n) := by
  induction ls with
  | nil => exact fun _ n => by rw [List.drop_nil]; trivial
  | cons l ls ih =>
    intro h n
    cases n with
    | zero => exact h
    | succ n => exact ih h.2 n

/-- Something is put before every line. -/
theorem IsFile.mark {mark : List UInt8} (hmark : 10 ∉ mark) {ls : List (List UInt8)}
    (h : IsFile ls) : IsFile (ls.map (mark ++ ·)) := by
  induction ls with
  | nil => trivial
  | cons l ls ih =>
    have hnot : ∀ {text : List UInt8}, 10 ∉ text → 10 ∉ mark ++ text := fun h hmem =>
      (List.mem_append.mp hmem).elim hmark h
    refine ⟨h.1.imp ?_ ?_, ih h.2⟩
    · rintro ⟨text, htext, rfl⟩
      exact ⟨mark ++ text, hnot htext, (List.append_assoc ..).symm⟩
    · rintro ⟨rfl, hne, hl⟩
      exact ⟨rfl, List.append_ne_nil_of_right_ne_nil _ hne, hnot hl⟩

/-- After ended lines a file begins anew. -/
theorem fileLines_append {ls : List (List UInt8)} (h : ∀ l ∈ ls, Ended l) (input : List UInt8) :
    fileLines (ls.flatten ++ input) = ls ++ fileLines input := by
  have hfile := (isFile_fileLines input).append h
  rw [← fileLines_flatten _ hfile, List.flatten_append, flatten_fileLines]

theorem length_fileLines_cons (c : UInt8) (input : List UInt8) :
    (fileLines (c :: input)).length =
      if c = 10 then (fileLines input).length + 1 else max 1 (fileLines input).length := by
  rw [fileLines]
  split_ifs
  · rfl
  · cases fileLines input with
    | nil => rfl
    | cons l ls => simp

theorem length_fileLines_newline (text : List UInt8) :
    (fileLines (text ++ [10])).length = text.countP (· = 10) + 1 := by
  induction text with
  | nil => rfl
  | cons c text ih =>
    rw [List.cons_append, length_fileLines_cons, ih]
    by_cases hc : c = 10
    · simp [hc]
    · simp [hc]

theorem countP_lt_length_fileLines (pre : List UInt8) (c : UInt8) (rest : List UInt8) :
    pre.countP (· = 10) < (fileLines (pre ++ c :: rest)).length := by
  induction pre with
  | nil =>
    rw [List.nil_append, length_fileLines_cons, List.countP_nil]
    split_ifs <;> omega
  | cons d pre ih =>
    rw [List.cons_append, length_fileLines_cons]
    by_cases hd : d = 10
    · simpa [hd] using ih
    · simp only [hd, if_false, decide_false, Bool.false_eq_true, not_false_iff,
        List.countP_cons_of_neg]
      omega

end Unitas.Lines
