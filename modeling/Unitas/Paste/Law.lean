import Unitas.Paste.Joined

/-! `paste` prints the joined lines, and where it does not. -/
namespace Unitas.Paste
open Unitas.Lines

/-- The text of a file as the loop of serial pasting comes to it: the `i`-th delimiter goes in
front of the first character after a newline. -/
def glueText (D : ℕ → List ℕ) : ℕ → Bool → List UInt8 → List ℕ
  | _, _, [] => []
  | i, glue, c :: file =>
    (if glue then D i else []) ++ (if c = 10 then [] else [c.toNat]) ++
      glueText D (if glue then i + 1 else i) (c = 10) file

theorem glueText_true (D : ℕ → List ℕ) (i : ℕ) {file : List UInt8} (hne : file ≠ []) :
    glueText D i true file = D i ++ glueText D (i + 1) false file := by
  cases file with
  | nil => exact absurd rfl hne
  | cons c file => simp [glueText]

theorem glueText_false (D : ℕ → List ℕ) (i : ℕ) (file : List UInt8) :
    glueText D i false file =
      head file ++ if rest file = [] then [] else D i ++ glueText D (i + 1) false (rest file) := by
  induction file with
  | nil => rfl
  | cons c file ih =>
    by_cases hc : c = 10
    · have hhead : head (c :: file) = [] := by simp [head, hc]
      have hrest : rest (c :: file) = file := by simp [rest, hc]
      rw [hhead, hrest, List.nil_append]
      by_cases hne : file = []
      · simp [glueText, hc, hne]
      · rw [if_neg hne, ← glueText_true D i hne]
        simp [glueText, hc]
    · have hhead : head (c :: file) = c.toNat :: head file := by simp [head, hc]
      have hrest : rest (c :: file) = rest file := by simp [rest, hc]
      rw [hhead, hrest, List.cons_append, ← ih]
      simp [glueText, hc]

theorem column_eq_cons {file : List UInt8} (hne : file ≠ []) :
    column file = head file :: column (rest file) := by
  rw [column, lines_eq_cons hne]
  rfl

theorem glueText_eq_joined (D : ℕ → List ℕ) (i : ℕ) (file : List UInt8) :
    glueText D i false file = joined D i (column file) := by
  induction hn : file.length using Nat.strong_induction_on generalizing i file with
  | _ n ih =>
    by_cases hne : file = []
    · rw [hne]
      rfl
    · rw [glueText_false, column_eq_cons hne]
      by_cases hrest : rest file = []
      · simp [hrest, joined, column, show lines [] = [] from rfl]
      · rw [if_neg hrest, ih _ (hn ▸ length_rest_lt hne) (i + 1) (rest file) rfl,
          column_eq_cons hrest, joined]
        simp

section Serial
variable {del : List ℕ}

/-- The variables that follow from the buffer. -/
def Serial.Consistent (s : Serial) : Prop := s.j = s.buf.length ∧ s.t = s.buf.getLastD 0

theorem getLastD_append_singleton (xs : List ℕ) (c d : ℕ) : (xs ++ [c]).getLastD d = c := by
  simp

theorem delimiter_eq (s : Serial) (i : ℕ) (hk : s.k = i % del.length) (hs : s.Consistent)
    (hroom : s.buf.length < maxline) :
    ∃ s', s.delimiter del = .ok s' ∧ s'.out = s.out ∧ s'.glue = false ∧
      s'.buf = s.buf ++ (if s.glue then code del i else []) ∧
      s'.k = (if s.glue then i + 1 else i) % del.length ∧ s'.Consistent := by
  have hput : s.buf.length < LINE_MAX := Nat.lt_trans hroom (by decide)
  cases hg : s.glue with
  | false => exact ⟨s, by simp [Serial.delimiter, hg], rfl, hg, by simp, by simpa using hk, hs⟩
  | true =>
    have hk' : (s.k + 1) % del.length = (i + 1) % del.length := by rw [hk, Nat.mod_add_mod]
    by_cases hd : del.getD (i % del.length) 0 = RUB
    · refine ⟨{ s with glue := false, k := (s.k + 1) % del.length }, ?_, rfl, rfl, ?_, by simpa using hk', hs⟩
      · simp only [Serial.delimiter, hg, if_true, hk, hd, ne_eq, not_true_eq_false, if_false, bind,
          Except.bind]
      · simp only [code, if_true, hd, ne_eq, not_true_eq_false, if_false, List.append_nil]
    · refine ⟨{ s with glue := false, k := (s.k + 1) % del.length,
                       buf := s.buf ++ [del.getD (i % del.length) 0],
                       t := del.getD (i % del.length) 0, j := s.j + 1 }, ?_, rfl, rfl, ?_,
        by simpa using hk', ?_, ?_⟩
      · simp only [Serial.delimiter, hg, if_true, hk, hd, ne_eq, not_false_eq_true, put, hput]
        rfl
      · simp only [code, if_true, hd, ne_eq, not_false_eq_true]
      · simp [hs.1]
      · exact (getLastD_append_singleton _ _ _).symm

theorem char_eq (s : Serial) (c : UInt8) (hg : s.glue = false) (hs : s.Consistent)
    (hroom : s.buf.length < maxline + 1) :
    ∃ s', s.char c = .ok s' ∧ s'.out = s.out ∧ s'.glue = decide (c = 10) ∧ s'.k = s.k ∧
      s'.buf = s.buf ++ (if c = 10 then [] else [c.toNat]) ∧ s'.Consistent := by
  have hput : s.buf.length < LINE_MAX := Nat.lt_trans hroom (by decide)
  by_cases hc : c = 10
  · exact ⟨{ s with glue := true }, by simp [Serial.char, hc], rfl, by simp [hc], rfl,
      by simp [hc], hs⟩
  · refine ⟨{ s with buf := s.buf ++ [c.toNat], t := c.toNat, j := s.j + 1 }, ?_, rfl,
      by simp [hc, hg], rfl, by simp [hc], by simp [hs.1], (getLastD_append_singleton _ _ _).symm⟩
    simp only [Serial.char, hc, ne_eq, not_false_eq_true, if_true, put, hput]
    rfl

theorem serialLoop_eq (file : List UInt8) (s : Serial) (i : ℕ) (hk : s.k = i % del.length)
    (hs : s.Consistent)
    (hroom : s.buf.length + (glueText (code del) i s.glue file).length < maxline) :
    ∃ s', serialLoop del s file = .ok s' ∧ s'.out = s.out ∧
      s'.buf = s.buf ++ glueText (code del) i s.glue file ∧ s'.Consistent := by
  induction file generalizing s i with
  | nil => exact ⟨s, rfl, rfl, by simp [glueText], hs⟩
  | cons c file ih =>
    simp only [glueText, List.length_append] at hroom
    have hflush : s.flush = .ok s := by
      have : ¬ s.j ≥ maxline := by
        rw [hs.1]
        omega
      simp [Serial.flush, this]
    obtain ⟨s₁, h₁, hout₁, hg₁, hbuf₁, hk₁, hs₁⟩ := delimiter_eq s i hk hs (by omega)
    obtain ⟨s₂, h₂, hout₂, hg₂, hk₂, hbuf₂, hs₂⟩ := char_eq s₁ c hg₁ hs₁ (by
      rw [hbuf₁, List.length_append]
      omega)
    have hlen₂ : s₂.buf.length = s.buf.length + (if s.glue then code del i else []).length +
        (if c = 10 then [] else [c.toNat]).length := by
      rw [hbuf₂, hbuf₁, List.length_append, List.length_append]
    obtain ⟨s', h', hout', hbuf', hs'⟩ := ih s₂ (if s.glue then i + 1 else i)
      (by rw [hk₂, hk₁]) hs₂ (by rw [hlen₂, hg₂]; omega)
    refine ⟨s', ?_, by rw [hout', hout₂, hout₁], ?_, hs'⟩
    · simp only [serialLoop, hflush, h₁, h₂, bind, Except.bind]
      exact h'
    · rw [hbuf', hbuf₂, hbuf₁, hg₂]
      simp [glueText]

/-- The text of a file, ended unless it ends in a newline of the delimiter list. -/
def ended (text : List ℕ) : List ℕ := if text.getLast? = some 10 then text else text ++ [10]

theorem serialFile_eq (file : List UInt8)
    (hshort : (joined (code del) 0 (column file)).length < maxline) :
    serialFile del file = .ok ((ended (joined (code del) 0 (column file))).takeWhile (· ≠ 0)) := by
  rw [← glueText_eq_joined] at hshort ⊢
  obtain ⟨s, hs, hout, hbuf, hj, ht⟩ := @serialLoop_eq del file ⟨[], [], false, 0, 0, 0⟩ 0
    (by simp) ⟨rfl, rfl⟩ (by simpa using hshort)
  rw [List.nil_append] at hbuf
  rw [← hbuf] at hshort ⊢
  have hput : s.buf.length < LINE_MAX := Nat.lt_trans hshort (by decide)
  have hput' : s.buf.length + 1 < LINE_MAX := Nat.lt_trans (Nat.add_lt_add_right hshort 1) (by decide)
  by_cases h10 : s.buf.getLast? = some 10
  · have ht10 : s.t = 10 := by rw [ht, List.getLastD_eq_getLast?, h10]; rfl
    have hj0 : s.j > 0 := by
      rw [hj]
      exact List.length_pos_iff.mpr (by rintro h; simp [h] at h10)
    rw [ended, if_pos h10]
    simp [serialFile, hs, bind, Except.bind, ht10, hj0, print, hput, hout]
  · have ht10 : s.t ≠ 10 := by
      rw [ht, List.getLastD_eq_getLast?]
      intro h
      cases hl : s.buf.getLast? with
      | none => simp [hl] at h
      | some c =>
        rw [hl] at h h10
        exact h10 (by rw [show c = 10 from h])
    rw [ended, if_neg h10]
    simp [serialFile, hs, bind, Except.bind, ht10, put, hput, print, hput', hout]

theorem serial_eq (files : List (List UInt8))
    (hshort : ∀ file ∈ files, (joined (code del) 0 (column file)).length < maxline) :
    serial del files = .ok (files.flatMap fun file =>
      (ended (joined (code del) 0 (column file))).takeWhile (· ≠ 0)) := by
  induction files with
  | nil => rfl
  | cons file files ih =>
    obtain ⟨h, hs⟩ := List.forall_mem_cons.mp hshort
    simp [serial, serialFile_eq file h, ih hs, bind, Except.bind]

end Serial

section Law
variable {ds : List (Option ℕ)}

/-- A file that serial pasting prints as it should. -/
def SerialOk (ds : List (Option ℕ)) (file : List UInt8) : Prop :=
  NoRub ds ((lines file).length - 1) ∧ 0 ∉ file ∧
    (joined (cyclic ds) 0 (column file)).getLast? ≠ some 10

theorem mem_column_iff {file : List UInt8} : (∃ x ∈ column file, 0 ∈ x) ↔ 0 ∈ file := by
  constructor
  · rintro ⟨x, hx, h0⟩
    obtain ⟨line, hline, rfl⟩ := List.mem_map.mp hx
    obtain ⟨c, hc, hc0⟩ := List.mem_map.mp h0
    obtain rfl : c = 0 := UInt8.toNat_inj.mp hc0
    by_contra h
    exact not_mem_line h line hline hc
  · intro h
    obtain ⟨line, hline, hc⟩ := mem_lines h (by decide)
    exact ⟨_, List.mem_map_of_mem hline, List.mem_map.mpr ⟨0, hc, rfl⟩⟩

theorem length_ended_le (text : List ℕ) :
    (ended text).length ≤ text.length + 1 ∧
      ((ended text).length = text.length + 1 → text.getLast? ≠ some 10 ∧ ended text = text ++ [10]) := by
  unfold ended
  split_ifs with h <;> simp [h]

/-- What is printed for a file is no longer than it should be, and right if as long. -/
theorem length_serial_le (h0 : some 0 ∉ ds) (file : List UInt8) :
    let text := (ended (joined (dropRub (cyclic ds)) 0 (column file))).takeWhile (· ≠ 0)
    text.length ≤ (joined (cyclic ds) 0 (column file)).length + 1 ∧
      (text.length = (joined (cyclic ds) 0 (column file)).length + 1 ↔ SerialOk ds file) ∧
      (SerialOk ds file → text = joined (cyclic ds) 0 (column file) ++ [10]) := by
  intro text
  have hdrop := length_joined_dropRub (D := cyclic ds) 0 (column file)
  have hended := length_ended_le (joined (dropRub (cyclic ds)) 0 (column file))
  have htake : text.length ≤ (ended (joined (dropRub (cyclic ds)) 0 (column file))).length :=
    (List.takeWhile_prefix _).length_le
  have hok : SerialOk ds file → text = joined (cyclic ds) 0 (column file) ++ [10] := by
    rintro ⟨hrub, hz, hlast⟩
    have hj := joined_dropRub _ (column file) hrub (by simp [column])
    have he : ended (joined (dropRub (cyclic ds)) 0 (column file)) =
        joined (cyclic ds) 0 (column file) ++ [10] := by
      rw [hj, ended, if_neg hlast]
    rw [← he]
    refine List.takeWhile_eq_self_iff.mpr fun c hc => ?_
    rw [decide_eq_true_iff]
    rintro rfl
    rw [he] at hc
    rcases List.mem_append.mp hc with hc | hc
    · rcases mem_of_mem_joined 0 _ hc with hx | ⟨i, hc⟩
      · exact hz (mem_column_iff.mp hx)
      · exact zero_notMem_cyclic h0 i hc
    · simp at hc
  refine ⟨by omega, ⟨fun h => ?_, fun h => by rw [hok h]; simp⟩, hok⟩
  have hlen : (joined (dropRub (cyclic ds)) 0 (column file)).length =
      (joined (cyclic ds) 0 (column file)).length := by omega
  have hrub : NoRub ds ((lines file).length - 1) := by
    intro i hi
    have := hdrop.2 hlen i (by simp [column]; omega)
    rw [Nat.zero_add] at this
    exact (dropRub_cyclic_eq_iff i).mp this
  have hj := joined_dropRub _ (column file) hrub (by simp [column])
  obtain ⟨hlast, he⟩ := hended.2 (by omega)
  refine ⟨hrub, fun hz => ?_, by rwa [hj] at hlast⟩
  obtain ⟨x, hx, hx0⟩ := mem_column_iff.mpr hz
  have hall := @length_takeWhile_eq _ (· ≠ 0) (ended (joined (dropRub (cyclic ds)) 0 (column file)))
    (show text.length = _ by omega)
  have := hall 0 (by rw [he]; exact List.mem_append_left _ (mem_joined 0 _ x hx hx0))
  simp at this

theorem length_eq_of_flatMap_eq {α : Type*} {a b : α → List ℕ} {xs : List α}
    (hab : ∀ x ∈ xs, (a x).length ≤ (b x).length) (h : xs.flatMap a = xs.flatMap b) :
    ∀ x ∈ xs, (a x).length = (b x).length := by
  have hsum (ys : List α) (hys : ∀ x ∈ ys, (a x).length ≤ (b x).length) :
      (ys.flatMap a).length ≤ (ys.flatMap b).length := by
    rw [List.length_flatMap, List.length_flatMap]
    exact List.sum_le_sum hys
  have hlen := congrArg List.length h
  clear h
  induction xs with
  | nil => simp
  | cons x xs ih =>
    obtain ⟨hx, hxs⟩ := List.forall_mem_cons.mp hab
    have := hsum xs hxs
    simp only [List.flatMap_cons, List.length_append] at hlen
    exact List.forall_mem_cons.mpr ⟨by omega, ih hxs (by omega)⟩

theorem serial_eq_iff (h0 : some 0 ∉ ds) (files : List (List UInt8)) :
    (files.flatMap fun file =>
        (ended (joined (dropRub (cyclic ds)) 0 (column file))).takeWhile (· ≠ 0)) =
        pastedSerial (cyclic ds) files ↔ ∀ file ∈ files, SerialOk ds file := by
  constructor
  · intro h file hfile
    have := length_eq_of_flatMap_eq
      (fun file _ => by simpa using (length_serial_le h0 file).1) h file hfile
    exact (length_serial_le h0 file).2.1.mp (by simpa using this)
  · exact fun h => List.flatMap_congr fun file hfile => (length_serial_le h0 file).2.2 (h file hfile)

/-- Files that parallel merging prints as it should. -/
def ParallelOk (ds : List (Option ℕ)) (files : List (List UInt8)) : Prop :=
  newlines files = height files ∧ (0 < height files → NoRub ds (files.length - 1)) ∧
    (∀ file ∈ files, 0 ∉ file) ∧ ∀ k < height files, (rowText (cyclic ds) files k).length < LINE_MAX

theorem lineAt_eq_nil {files : List (List UInt8)} {k : ℕ} (hk : height files ≤ k) :
    ∀ x ∈ rowAt files k, x = [] := by
  intro x hx
  obtain ⟨file, hfile, rfl⟩ := List.mem_map.mp hx
  have := length_lines_le_height hfile
  rw [lineAt, List.getD_eq_getElem?_getD, List.getElem?_eq_none (by omega)]
  rfl

theorem sum_length_rowAt {files : List (List UInt8)} {k : ℕ} (hk : height files ≤ k) :
    ((rowAt files k).map List.length).sum = 0 := by
  refine List.sum_eq_zero fun n hn => ?_
  obtain ⟨x, hx, rfl⟩ := List.mem_map.mp hn
  rw [lineAt_eq_nil hk x hx]
  rfl

theorem parallel_iff (h0 : some 0 ∉ ds) (hds : ds ≠ []) (fuel l : ℕ) (files : List (List UInt8))
    (hne : files ≠ []) (hmax : files.length ≤ MAXOPNF)
    (hshort : ∀ k < height files, ((rowAt files k).map List.length).sum < maxline)
    (hfuel : newlines files < fuel) :
    parallel (ds.map (·.getD RUB)) fuel l files = .ok (pasted (cyclic ds) files (height files)) ↔
      ParallelOk ds files := by
  have hcode : code (ds.map (·.getD RUB)) = dropRub (cyclic ds) :=
    funext fun i => code_map ds i hds
  have hshort' (k : ℕ) : ((rowAt files k).map List.length).sum ≤ maxline := by
    by_cases hk : k < height files
    · exact le_of_lt (hshort k hk)
    · rw [sum_length_rowAt (by omega)]
      exact Nat.zero_le _
  rw [parallel_eq _ fuel l files hne hshort' hfuel, hcode]
  have hfit (hn : newlines files = height files) (hrub : 0 < height files → NoRub ds (files.length - 1)) :
      (∀ k ≤ newlines files, (joined (dropRub (cyclic ds)) 0 (rowAt files k)).length + 1 < LINE_MAX) ↔
        ∀ k < height files, (rowText (cyclic ds) files k).length < LINE_MAX := by
    have heq (k : ℕ) (hk : k < height files) :
        (joined (dropRub (cyclic ds)) 0 (rowAt files k)).length + 1 =
          (rowText (cyclic ds) files k).length := by
      rw [joined_dropRub _ _ (hrub (by omega)) (by simp [rowAt]), rowText, List.length_append]
      rfl
    constructor
    · intro h k hk
      rw [← heq k hk]
      exact h k (by omega)
    · intro h k hk
      by_cases hlt : k < height files
      · rw [heq k hlt]
        exact h k hlt
      · have hle := length_joined_le (D := dropRub (cyclic ds))
          (fun i => (List.length_filter_le _ _).trans (length_cyclic_le ds i)) 0 (rowAt files k)
        rw [sum_length_rowAt (by omega)] at hle
        have : (rowAt files k).length = files.length := by simp [rowAt]
        have hbig : MAXOPNF < LINE_MAX := by decide
        have hpos := List.length_pos_iff.mpr hne
        omega
  constructor
  · intro h
    split_ifs at h with hf
    obtain ⟨hn, hrub, hz⟩ := (printed_eq_iff h0 files).mp (Except.ok.inj h)
    exact ⟨hn, hrub, hz, (hfit hn hrub).mp hf⟩
  · rintro ⟨hn, hrub, hz, hf⟩
    rw [if_pos ((hfit hn hrub).mpr hf), (printed_eq_iff h0 files).mpr ⟨hn, hrub, hz⟩]

end Law

theorem newlines_lt (files : List (List UInt8)) :
    newlines files < (files.map List.length).sum + 1 := by
  induction files with
  | nil => decide
  | cons file files ih =>
    have := List.countP_le_length (p := (· = 10)) (l := file)
    simp only [newlines, List.map_cons, List.foldr_cons, List.sum_cons] at ih ⊢
    omega

/-- The delimiters of `-d`, or a tab. -/
def Opts.delims (o : Opts) : Option (List (Option ℕ)) :=
  match o.d with
  | none => some [some 9]
  | some arg => Paste.delims arg

/-- What should be printed. -/
def Opts.pasted (o : Opts) (ds : List (Option ℕ)) (files : List (List UInt8)) : List ℕ :=
  if o.onefile then pastedSerial (cyclic ds) files
  else Paste.pasted (cyclic ds) files (height files)

/-- The lines that go together are short: with `-s` all of a file with their delimiters,
otherwise all those of one number. -/
def Opts.Short (o : Opts) (ds : List (Option ℕ)) (files : List (List UInt8)) : Prop :=
  if o.onefile then ∀ file ∈ files, (joined (cyclic ds) 0 (column file)).length < maxline
  else ∀ k < height files, ((rowAt files k).map List.length).sum < maxline

theorem getDel_eq (o : Opts) (ds : List (Option ℕ)) (hd : o.delims = some ds) (hne : ds ≠ []) :
    getDel o.d =
      if ds.length ≤ LINE_MAX then .ok (ds.map (·.getD RUB)) else .error .overrun := by
  have hpos := List.length_pos_iff.mpr hne
  unfold Opts.delims at hd
  split at hd
  next h =>
    obtain rfl := Option.some.inj hd
    rw [h]
    rfl
  next arg h =>
    rw [h, getDel, move_eq, hd]
    simp only [Option.map_some, List.length_map]
    split_ifs <;> first | rfl | omega

/-- The lines come out joined unless a delimiter list is longer than its array, a character of
it is the one that stands for the empty delimiter, a file has null characters, an output line
goes over the end of its array, all files end without a newline in the last output line, or the
text of a file ends in a newline of the delimiter list. -/
theorem paste_iff (o : Opts) (files : List (List UInt8)) (ds : List (Option ℕ))
    (hd : o.delims = some ds) (hne : ds ≠ []) (h0 : ∀ arg ∈ o.d, 0 ∉ arg) (hfiles : files ≠ [])
    (hmax : files.length ≤ MAXOPNF) (hshort : o.Short ds files) :
    main o files = .ok (o.pasted ds files) ↔
      ds.length ≤ LINE_MAX ∧
        if o.onefile then ∀ file ∈ files, SerialOk ds file else ParallelOk ds files := by
  have hz : some 0 ∉ ds := by
    unfold Opts.delims at hd
    split at hd
    next =>
      obtain rfl := Option.some.inj hd
      decide
    next arg h => exact delims_ne_zero (h0 arg h) hd
  rw [main, getDel_eq o ds hd hne]
  by_cases hlen : ds.length ≤ LINE_MAX
  · simp only [hlen, if_true, bind, Except.bind, true_and]
    by_cases hs : o.onefile
    · simp only [hs, if_true, Opts.pasted]
      simp only [Opts.Short, hs, if_true] at hshort
      have hcode : code (ds.map (·.getD RUB)) = dropRub (cyclic ds) :=
        funext fun i => code_map ds i hne
      rw [serial_eq files fun file hfile => ?_, hcode]
      · exact ⟨fun h => (serial_eq_iff hz files).mp (Except.ok.inj h),
          fun h => by rw [(serial_eq_iff hz files).mpr h]⟩
      · rw [hcode]
        exact lt_of_le_of_lt (length_joined_dropRub 0 _).1 (hshort file hfile)
    · simp only [hs, Bool.false_eq_true, if_false, Opts.pasted]
      simp only [Opts.Short, hs, Bool.false_eq_true, if_false] at hshort
      rw [if_neg (by omega)]
      exact parallel_iff hz hne _ _ files hfiles hmax hshort (newlines_lt files)
  · simp [hlen, bind, Except.bind]

/-- Two files side by side, and one with `-s`. -/
theorem paste_iff_two :
    (main ⟨none, false, 0⟩ [[97, 10, 98, 10], [99]] = .ok [97, 9, 99, 10, 98, 9, 10]) ∧
      (main ⟨none, false, 0⟩ [[97, 10, 98, 10], [99]] =
          .ok (Opts.pasted ⟨none, false, 0⟩ [some 9] [[97, 10, 98, 10], [99]]) ↔
        [some 9].length ≤ LINE_MAX ∧
          if false then ∀ file ∈ [[97, 10, 98, 10], [99]], SerialOk [some 9] file
          else ParallelOk [some 9] [[97, 10, 98, 10], [99]]) :=
  ⟨by decide, paste_iff ⟨none, false, 0⟩ [[97, 10, 98, 10], [99]] [some 9] rfl (by decide)
    (by simp) (by decide) (by decide) (by unfold Opts.Short; decide)⟩

/-- A file of one line without a newline is not printed. -/
theorem paste_fails :
    main ⟨none, false, 0⟩ [[97]] = .ok [] ∧ Opts.pasted ⟨none, false, 0⟩ [some 9] [[97]] = [97, 10] := by
  decide

end Unitas.Paste
