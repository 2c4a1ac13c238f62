import Unitas.Bdiff.Segments

/-! When `bdiff` prints a correct edit script, and a `diff` for it that changes whole files. -/
namespace Unitas.Bdiff
open Unitas.Decimal Unitas.EditScript Unitas.Lines

/-- The line after a line without a newline: `\ No newline at end of file`. -/
def noNewline : List UInt8 :=
  [92, 32, 78, 111, 32, 110, 101, 119, 108, 105, 110, 101, 32, 97, 116, 32, 101, 110, 100, 32, 111,
    102, 32, 102, 105, 108, 101, 10]

/-- Lines of the old file or of the new one in the output of `diff`. -/
def markLines (type : UInt8) : File → File
  | [] => []
  | line :: fp =>
    (if line.getLast? = some 10 then [type :: 32 :: line]
      else [type :: 32 :: (line ++ [10]), noNewline]) ++ markLines type fp

def range (n : ℕ) : List UInt8 := if n = 1 then decimal 1 else decimal 1 ++ 44 :: decimal n

/-- One hunk that changes all lines. -/
def changeLines (old new : File) : File :=
  (range old.length ++ 99 :: (range new.length ++ [10])) ::
    (markLines 60 old ++ [45, 45, 45, 10] :: markLines 62 new)

/-- A `diff` that does not look for common lines. -/
def change (old new : List UInt8) : List UInt8 :=
  if old = new then [] else (changeLines (fileLines old) (fileLines new)).flatten

theorem reads_range (n : ℕ) : Reads (range n) 1 n := by
  rw [range]
  split_ifs with h
  · exact h ▸ reads_decimal 1
  · exact reads_comma 1 n

theorem getLast_of_ended {line : List UInt8} (h : Ended line) : line.getLast? = some 10 := by
  obtain ⟨text, -, rfl⟩ := h
  exact List.getLast?_concat

/-- The lines of a file, with a newline or without. -/
theorem ended_or_text {fp : File} (h : IsFile fp) : ∀ line ∈ fp, Ended line ∨
    10 ∉ line ∧ line.getLast? ≠ some 10 := by
  induction fp with
  | nil => exact fun _ h => absurd h List.not_mem_nil
  | cons line fp ih =>
    refine List.forall_mem_cons.mpr ⟨h.1.imp_right ?_, ih h.2⟩
    rintro ⟨-, -, hline⟩
    exact ⟨hline, fun hlast => hline (List.mem_of_getLast? hlast)⟩

/-- Whatever holds of marked lines and of the line after them. -/
theorem markLines_mem {type : UInt8} {P : List UInt8 → Prop} (hno : P noNewline) {fp : File}
    (hended : ∀ line ∈ fp, line.getLast? = some 10 → P (type :: 32 :: line))
    (htext : ∀ line ∈ fp, line.getLast? ≠ some 10 → P (type :: 32 :: (line ++ [10]))) :
    ∀ l ∈ markLines type fp, P l := by
  induction fp with
  | nil => exact fun _ h => absurd h List.not_mem_nil
  | cons line fp ih =>
    obtain ⟨hended1, hended⟩ := List.forall_mem_cons.mp hended
    obtain ⟨htext1, htext⟩ := List.forall_mem_cons.mp htext
    intro l hl
    rw [markLines] at hl
    rcases List.mem_append.mp hl with hl | hl
    · split_ifs at hl with hlast
      · rw [List.mem_singleton.mp hl]
        exact hended1 hlast
      · rcases List.mem_cons.mp hl with rfl | hl
        · exact htext1 hlast
        · rw [List.mem_singleton.mp hl]
          exact hno
    · exact ih hended htext l hl

theorem markLines_ended {type : UInt8} (htype : type ≠ 10) {fp : File} (hfile : IsFile fp) :
    ∀ l ∈ markLines type fp, Ended l := by
  have hnot : ∀ {text : List UInt8}, 10 ∉ text → 10 ∉ type :: 32 :: text := by
    intro text h hmem
    rcases List.mem_cons.mp hmem with hmem | hmem
    · exact htype hmem.symm
    · exact h (List.mem_of_ne_of_mem (by decide) hmem)
  refine markLines_mem ⟨noNewline.dropLast, by decide, by decide⟩ (fun line hline hlast => ?_)
    fun line hline hlast => ?_
  · rcases ended_or_text hfile line hline with ⟨text, htext, rfl⟩ | ⟨-, hne⟩
    · exact ⟨type :: 32 :: text, hnot htext, rfl⟩
    · exact absurd hlast hne
  · rcases ended_or_text hfile line hline with hended | ⟨htext, -⟩
    · exact absurd (getLast_of_ended hended) hlast
    · exact ⟨type :: 32 :: line, hnot htext, rfl⟩

theorem changeLines_ended {old new : File} (ho : IsFile old) (hn : IsFile new) :
    ∀ l ∈ changeLines old new, Ended l := by
  refine List.forall_mem_cons.mpr ⟨?_, List.forall_mem_append.mpr ⟨markLines_ended (by decide) ho,
    List.forall_mem_cons.mpr ⟨⟨[45, 45, 45], by decide, rfl⟩, markLines_ended (by decide) hn⟩⟩⟩
  exact (header_text (reads_range old.length) (reads_range new.length)
    (Or.inr ⟨Or.inl rfl, Nat.le_refl 1, rfl, rfl⟩)).1

theorem fileLines_changeLines {old new : File} (ho : IsFile old) (hn : IsFile new) :
    fileLines (changeLines old new).flatten = changeLines old new := by
  have happend := fileLines_append (changeLines_ended ho hn) []
  rwa [List.append_nil, fileLines, List.append_nil] at happend

theorem added_skip {ls : File} (h : ∀ l ∈ ls, l.head? ≠ some 62) (rest : File) :
    added (ls ++ rest) = added rest := by
  induction ls with
  | nil => rfl
  | cons line ls ih =>
    obtain ⟨hline, hls⟩ := List.forall_mem_cons.mp h
    rw [List.cons_append, added, ih hls]
    rintro text rfl
    exact hline rfl

theorem added_markLines {fp : File} (hfile : IsFile fp) : added (markLines 62 fp) = fp := by
  induction fp with
  | nil => rfl
  | cons line fp ih =>
    rw [markLines]
    split_ifs with hlast
    · have hnext : (markLines 62 fp).head?.bind List.head? ≠ some 92 := by
        cases fp with
        | nil => exact Option.some_ne_none 92 |>.symm
        | cons line' fp =>
          rw [markLines]
          split_ifs
          · exact fun h => absurd (Option.some.inj h) (by decide)
          · exact fun h => absurd (Option.some.inj h) (by decide)
      rw [List.singleton_append, added, if_neg hnext, ih hfile.2]
    · have hskip : added (noNewline :: markLines 62 fp) = fp :=
        (@added_skip [noNewline] (by decide) (markLines 62 fp)).trans (ih hfile.2)
      have hnext : (noNewline :: markLines 62 fp).head?.bind List.head? = some 92 := rfl
      rw [List.cons_append, List.singleton_append, added, hskip, if_pos hnext,
        List.dropLast_concat]

/-- The hunk stands for all lines. -/
theorem parse_changeLines {old new : File} (hn : IsFile new) :
    parse (changeLines old new) = some ([], [⟨0, old.length, new⟩]) := by
  obtain ⟨-, hhead, haddr⟩ := @header_text _ _ _ _ _ _ 0 old.length 99 (reads_range old.length)
    (reads_range new.length) (Or.inr ⟨Or.inl rfl, Nat.le_refl 1, rfl, rfl⟩)
  have hold : ∀ l ∈ markLines 60 old ++ [[45, 45, 45, 10]], l.head? ≠ some 62 ∧
      isHeader l = false := by
    refine List.forall_mem_append.mpr ⟨markLines_mem (by decide) (fun _ _ _ => ?_) fun _ _ _ => ?_,
      by decide⟩
    · exact ⟨by simp, rfl⟩
    · exact ⟨by simp, rfl⟩
  have hnew : ∀ l ∈ markLines 62 new, isHeader l = false :=
    @markLines_mem 62 (isHeader · = false) rfl new (fun _ _ _ => rfl) fun _ _ _ => rfl
  have hbody := @parse_body (markLines 60 old ++ [[45, 45, 45, 10]] ++ markLines 62 new)
    (List.forall_mem_append.mpr ⟨fun l hl => (hold l hl).2, hnew⟩)
  have hadded := added_skip (fun l hl => (hold l hl).1) (markLines 62 new)
  rw [added_markLines hn] at hadded
  rw [List.append_assoc, List.singleton_append] at hbody hadded
  rw [changeLines, parse_header hhead haddr hbody, hadded]

theorem range_text (n : ℕ) : 0 ∉ range n := by
  have hdec : ∀ k, 0 ∉ decimal k := fun k h => absurd (decimal_isDigit k 0 h) (by decide)
  rw [range]
  split_ifs
  · exact hdec 1
  · intro h
    rcases List.mem_append.mp h with h | h
    · exact hdec 1 h
    · exact hdec n (List.mem_of_ne_of_mem (by decide) h)

/-- There is no null byte where the files have none. -/
theorem changeLines_text {old new : File} (ho : ∀ l ∈ old, 0 ∉ l) (hn : ∀ l ∈ new, 0 ∉ l) :
    ∀ l ∈ changeLines old new, 0 ∉ l := by
  have hmark : ∀ {type : UInt8} {fp : File}, type ≠ 0 → (∀ l ∈ fp, 0 ∉ l) →
      ∀ l ∈ markLines type fp, 0 ∉ l := by
    intro type fp htype h
    have hnot : ∀ {text : List UInt8}, 0 ∉ text → 0 ∉ type :: 32 :: text := by
      intro text h hmem
      rcases List.mem_cons.mp hmem with hmem | hmem
      · exact htype hmem.symm
      · exact h (List.mem_of_ne_of_mem (by decide) hmem)
    refine @markLines_mem type (0 ∉ ·) (by decide) fp (fun line hline _ => hnot (h line hline))
      fun line hline _ => hnot fun hmem => ?_
    exact (List.mem_append.mp hmem).elim (h line hline) (by decide)
  refine List.forall_mem_cons.mpr ⟨fun h => ?_, List.forall_mem_append.mpr
    ⟨hmark (by decide) ho, List.forall_mem_cons.mpr ⟨by decide, hmark (by decide) hn⟩⟩⟩
  rcases List.mem_append.mp h with h | h
  · exact range_text old.length h
  · rcases List.mem_append.mp (List.mem_of_ne_of_mem (by decide) h) with h | h
    · exact range_text new.length h
    · exact absurd h (by decide)

theorem isDiff_change : IsDiff change := by
  refine ⟨fun old new _ _ _ _ => ?_, fun old new _ _ => ?_, fun old new ho hn hmem => ?_⟩
  · have hfo := isFile_fileLines old
    have hfn := isFile_fileLines new
    rw [change]
    split_ifs with heq
    · exact ⟨[], rfl, Nat.zero_le _, by rw [apply, List.drop_zero, flatten_fileLines, heq]⟩
    · refine ⟨[⟨0, (fileLines old).length, fileLines new⟩], script_some.mpr ?_,
        ⟨Nat.le_refl 0, Nat.zero_le _, Nat.le_refl _⟩, ?_⟩
      · rw [fileLines_changeLines hfo hfn, parse_changeLines hfn]
      · simp [apply, flatten_fileLines]
  · rw [change]
    split_ifs with heq
    · exact fun _ h => absurd h List.not_mem_nil
    · rw [fileLines_changeLines (isFile_fileLines old) (isFile_fileLines new)]
      exact changeLines_ended (isFile_fileLines old) (isFile_fileLines new)
  · rw [change] at hmem
    split_ifs at hmem with heq
    · exact absurd hmem List.not_mem_nil
    · obtain ⟨l, hl, hzero⟩ := List.mem_flatten.mp hmem
      exact changeLines_text (not_mem_fileLines ho) (not_mem_fileLines hn) l hl hzero

/-- `bdiff` prints a correct edit script exactly if the files end on a level. -/
theorem bdiff_correct {diff : List UInt8 → List UInt8 → List UInt8} (hdiff : IsDiff diff)
    {seglim : ℕ} (hseg : 0 < seglim) {oldfile newfile : List UInt8} (ho : 0 ∉ oldfile)
    (hn : 0 ∉ newfile) :
    (∃ out, main diff seglim oldfile newfile = some out ∧ Correct out oldfile newfile) ↔
      FilesLevel seglim oldfile newfile := by
  obtain ⟨out, hout, hiff⟩ := main_spec hdiff hseg ho hn
  rw [← hiff]
  constructor
  · rintro ⟨out', hout', hcorrect⟩
    rw [hout, Option.some.injEq] at hout'
    exact hout' ▸ hcorrect
  · exact fun h => ⟨out, hout, h⟩

/-- The lines `x`, `a` and `b`, which become `x`, `c` and `b`, with segments of one line. -/
theorem bdiff_correct_one : ∃ out,
    main change 1 [120, 10, 97, 10, 98, 10] [120, 10, 99, 10, 98, 10] = some out ∧
      Correct out [120, 10, 97, 10, 98, 10] [120, 10, 99, 10, 98, 10] :=
  (bdiff_correct isDiff_change (by decide) (by decide) (by decide)).mpr (Or.inl (by decide))

/-- With segments of two lines one line cannot become three. -/
theorem not_bdiff_correct : ¬ ∀ diff, IsDiff diff → ∀ seglim, 0 < seglim →
    ∀ oldfile newfile, 0 ∉ oldfile → 0 ∉ newfile →
      ∃ out, main diff seglim oldfile newfile = some out ∧ Correct out oldfile newfile := by
  intro h
  have hlevel : ¬ FilesLevel 2 [97, 10] [98, 10, 99, 10, 100, 10] := by
    rintro (h | h)
    · exact absurd h (by decide)
    · exact absurd h (by decide)
  obtain ⟨out, hout, hcorrect⟩ := h change isDiff_change 2 (by decide) [97, 10]
    [98, 10, 99, 10, 100, 10] (by decide) (by decide)
  obtain ⟨out', hout', hiff⟩ := @main_spec _ isDiff_change 2 (by decide) [97, 10]
    [98, 10, 99, 10, 100, 10] (by decide) (by decide)
  rw [hout, Option.some.injEq] at hout'
  exact hlevel (hiff.mp (hout' ▸ hcorrect))

end Unitas.Bdiff
