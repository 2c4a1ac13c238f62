import Mathlib.Algebra.Order.BigOperators.Group.Finset
import Mathlib.Order.Lattice
import Unitas.Lib.Lines
import Unitas.Paste.Model

/-! What `paste` should print: lines joined by the delimiters in turn. -/
namespace Unitas.Paste
open Unitas.Lines

/-- The delimiters of a list. The empty one is `none`. -/
def delims : List ℕ → Option (List (Option ℕ))
  | [] => some []
  | [c] => if c = 92 then none else some [some c]
  | c :: d :: s =>
    if c ≠ 92 then (delims (d :: s)).map (some c :: ·)
    else (delims s).map
      ((if d = 48 then none else some (if d = 116 then 9 else if d = 110 then 10 else d)) :: ·)

/-- The list in cyclic order. -/
def cyclic (ds : List (Option ℕ)) (i : ℕ) : List ℕ := (ds.getD (i % ds.length) none).toList

/-- The texts with the `k`-th and the following delimiters between them. -/
def joined (D : ℕ → List ℕ) : ℕ → List (List ℕ) → List ℕ
  | _, [] => []
  | _, [x] => x
  | k, x :: y :: xs => x ++ D k ++ joined D (k + 1) (y :: xs)

/-- The texts, each with a delimiter after it. -/
def glued (D : ℕ → List ℕ) : ℕ → List (List ℕ) → List ℕ
  | _, [] => []
  | k, x :: xs => x ++ D k ++ glued D (k + 1) xs

/-- The delimiters as the code has them. -/
def code (del : List ℕ) (i : ℕ) : List ℕ :=
  if del.getD (i % del.length) 0 ≠ RUB then [del.getD (i % del.length) 0] else []

/-- The first line of a file. -/
def head (file : List UInt8) : List ℕ := (file.takeWhile (· ≠ 10)).map UInt8.toNat

/-- The file after its first line. -/
def rest (file : List UInt8) : List UInt8 := (file.dropWhile (· ≠ 10)).drop 1

theorem glued_eq_joined (D : ℕ → List ℕ) (k : ℕ) (x : List ℕ) (xs : List (List ℕ)) :
    glued D k (x :: xs) = joined D k (x :: xs) ++ D (k + xs.length) := by
  induction xs generalizing k x with
  | nil => simp [glued, joined]
  | cons y xs ih =>
    rw [glued, ih (k + 1) y, joined, List.length_cons, Nat.add_right_comm k 1 xs.length]
    simp [Nat.add_assoc]

section Row
variable {del : List ℕ}

theorem fill_eq (file : List UInt8) (j : ℕ) (buf : List ℕ) (hj : j + (head file).length ≤ maxline)
    (hbuf : buf.length ≤ LINE_MAX) :
    fill j buf file =
      if buf.length + (head file).length ≤ LINE_MAX then
        .ok (j + (head file).length, buf ++ head file, decide (10 ∉ file), rest file)
      else .error .overrun := by
  induction file generalizing j buf with
  | nil => simp [fill, head, rest, hbuf]
  | cons c file ih =>
    rw [fill]
    by_cases hc : c = 10
    · simp [hc, head, rest, hbuf]
    · have hhead : head (c :: file) = c.toNat :: head file := by simp [head, hc]
      have hrest : rest (c :: file) = rest file := by simp [rest, hc]
      have hmem : decide (10 ∉ c :: file) = decide (10 ∉ file) := by simp [Ne.symm hc]
      rw [hhead, List.length_cons] at hj ⊢
      rw [if_neg hc, if_pos (by omega), hrest, put]
      by_cases hlt : buf.length < LINE_MAX
      · rw [if_pos hlt]
        show fill (j + 1) (buf ++ [c.toNat]) file = _
        rw [ih (j + 1) _ (by omega) (by simp; omega), hmem]
        simp [Nat.add_assoc, Nat.add_comm 1]
      · rw [if_neg hlt, if_neg (by omega)]
        rfl

/-- The delimiter after a file. -/
theorem putDel_eq (i : ℕ) (buf : List ℕ) (hbuf : buf.length ≤ LINE_MAX) :
    putDel buf (del.getD (i % del.length) 0) =
      if buf.length + (code del i).length ≤ LINE_MAX then .ok (buf ++ code del i)
      else .error .overrun := by
  unfold putDel code
  split_ifs <;> simp_all [put]

theorem rowLoop_eq (files : List (List UInt8)) (j i : ℕ) (r : Row)
    (hj : j + ((files.map head).map List.length).sum ≤ maxline) (hbuf : r.buf.length ≤ LINE_MAX) :
    rowLoop del j (i % del.length) r files =
      if r.buf.length + (glued (code del) i (files.map head)).length ≤ LINE_MAX then
        .ok ⟨if files = [] then r.l else del.getD ((i + (files.length - 1)) % del.length) 0,
          r.eofcount + files.countP (10 ∉ ·), r.buf ++ glued (code del) i (files.map head),
          r.files ++ files.map rest⟩
      else .error .overrun := by
  induction files generalizing j i r with
  | nil => simp [rowLoop, glued, hbuf]
  | cons file files ih =>
    simp only [List.map_cons, List.sum_cons] at hj
    rw [rowLoop, fill_eq file j r.buf (by omega) hbuf]
    simp only [List.map_cons, glued, List.length_append]
    by_cases h1 : r.buf.length + (head file).length ≤ LINE_MAX
    · rw [if_pos h1]
      simp only [bind, Except.bind]
      have hput := @putDel_eq del i (r.buf ++ head file) (by simpa using h1)
      rw [List.length_append] at hput
      rw [hput]
      by_cases h2 : r.buf.length + (head file).length + (code del i).length ≤ LINE_MAX
      · have hlen : ((r.buf ++ head file) ++ code del i).length ≤ LINE_MAX := by
          simpa [Nat.add_assoc] using h2
        simp only [h2, if_true]
        rw [Nat.mod_add_mod, ih _ (i + 1) _ (by omega) hlen]
        have hl : (if files = [] then del.getD (i % del.length) 0
            else del.getD ((i + 1 + (files.length - 1)) % del.length) 0) =
            del.getD ((i + files.length) % del.length) 0 := by
          cases files with
          | nil => simp
          | cons f fs => simp [Nat.add_assoc, Nat.add_comm 1]
        have heof : (if decide (10 ∉ file) = true then r.eofcount + 1 else r.eofcount) +
            files.countP (10 ∉ ·) = r.eofcount + (file :: files).countP (10 ∉ ·) := by
          rw [List.countP_cons]
          split_ifs <;> omega
        simp only [hl, heof]
        simp only [List.length_append, Nat.add_assoc, List.append_assoc]
        simp
      · simp only [h2, if_false]
        rw [if_neg (by omega)]
    · rw [if_neg h1, if_neg (by omega)]
      rfl

/-- One output line, which is stored with a null character after it. -/
theorem row_eq (l : ℕ) (file : List UInt8) (files : List (List UInt8))
    (hj : (((file :: files).map head).map List.length).sum ≤ maxline) :
    ∃ r : Row, r.eofcount = (file :: files).countP (10 ∉ ·) ∧ r.files = (file :: files).map rest ∧
      row del l (file :: files) =
        if (joined (code del) 0 ((file :: files).map head)).length + 1 < LINE_MAX then
          .ok (r, (joined (code del) 0 ((file :: files).map head) ++ [10]).takeWhile (· ≠ 0))
        else .error .overrun := by
  have hrow := @rowLoop_eq del (file :: files) 0 0 ⟨l, 0, [], []⟩ (by simpa using hj) (by simp)
  rw [Nat.zero_mod] at hrow
  rw [row, hrow]
  simp only [List.map_cons, glued_eq_joined, List.length_map, Nat.zero_add, List.length_append,
    List.length_nil, List.nil_append, reduceCtorEq, if_false, List.length_cons,
    Nat.add_sub_cancel]
  set text := joined (code del) 0 (head file :: files.map head)
  set d := del.getD (files.length % del.length) 0
  have hcode : code del files.length = if d ≠ RUB then [d] else [] := rfl
  refine ⟨⟨d, (file :: files).countP (10 ∉ ·), text ++ code del files.length,
    rest file :: files.map rest⟩, rfl, rfl, ?_⟩
  by_cases hd : d = RUB
  · have hnil : code del files.length = [] := by simp [hcode, hd]
    rw [hnil]
    by_cases hlen : text.length + 1 < LINE_MAX
    · have h1 : text.length ≤ LINE_MAX := by omega
      have h2 : text.length < LINE_MAX := by omega
      simp [h1, h2, hlen, bind, Except.bind, Row.newline, hd, put, print]
    · by_cases h1 : text.length ≤ LINE_MAX
      · by_cases h2 : text.length < LINE_MAX
        · simp [h1, h2, hlen, bind, Except.bind, Row.newline, hd, put, print]
        · simp [h1, h2, hlen, bind, Except.bind, Row.newline, hd, put]
      · simp [h1, hlen, bind, Except.bind]
  · have hone : code del files.length = [d] := by simp [hcode, hd]
    rw [hone]
    by_cases hlen : text.length + 1 < LINE_MAX
    · have h1 : text.length + 1 ≤ LINE_MAX := by omega
      simp [h1, hlen, bind, Except.bind, Row.newline, hd, print]
    · by_cases h1 : text.length + 1 ≤ LINE_MAX
      · simp [h1, hlen, bind, Except.bind, Row.newline, hd, print]
      · simp [h1, hlen, bind, Except.bind]

end Row

/-! The law. -/

/-- The `k`-th line of a file, empty where it has fewer. -/
def lineAt (k : ℕ) (file : List UInt8) : List ℕ := ((lines file).getD k []).map UInt8.toNat

/-- The largest number of lines. -/
def height (files : List (List UInt8)) : ℕ := (files.map fun file => (lines file).length).foldr max 0

/-- The `k`-th lines of the files. -/
def rowAt (files : List (List UInt8)) (k : ℕ) : List (List ℕ) := files.map (lineAt k)

/-- The largest number of newlines. -/
def newlines (files : List (List UInt8)) : ℕ :=
  (files.map fun file => file.countP (· = 10)).foldr max 0

/-- The lines of one file. -/
def column (file : List UInt8) : List (List ℕ) := (lines file).map (·.map UInt8.toNat)

/-- The `k`-th output line. -/
def rowText (D : ℕ → List ℕ) (files : List (List UInt8)) (k : ℕ) : List ℕ :=
  joined D 0 (rowAt files k) ++ [10]

/-- The first `n` output lines. -/
def pasted (D : ℕ → List ℕ) (files : List (List UInt8)) (n : ℕ) : List ℕ :=
  (List.range n).flatMap fun k => rowText D files k

def pastedSerial (D : ℕ → List ℕ) (files : List (List UInt8)) : List ℕ :=
  files.flatMap fun file => joined D 0 (column file) ++ [10]

theorem lineAt_zero (file : List UInt8) : lineAt 0 file = head file := by
  cases file with
  | nil => rfl
  | cons c file => simp [lineAt, lines_eq_cons, head]

theorem lineAt_rest (k : ℕ) (file : List UInt8) : lineAt k (rest file) = lineAt (k + 1) file := by
  cases file with
  | nil => rfl
  | cons c file => simp [lineAt, lines_eq_cons, rest]

theorem countP_rest (file : List UInt8) :
    (rest file).countP (· = 10) = file.countP (· = 10) - 1 := by
  induction file with
  | nil => rfl
  | cons c file ih =>
    by_cases hc : c = 10
    · simp [rest, hc]
    · have hrest : rest (c :: file) = rest file := by simp [rest, hc]
      simp [hrest, ih, hc]

theorem newlines_rest (files : List (List UInt8)) :
    newlines (files.map rest) = newlines files - 1 := by
  induction files with
  | nil => rfl
  | cons file files ih =>
    simp only [newlines, List.map_cons, List.foldr_cons, countP_rest] at ih ⊢
    rw [ih]
    omega

theorem newlines_pos {files : List (List UInt8)} :
    0 < newlines files ↔ files.countP (10 ∉ ·) < files.length := by
  induction files with
  | nil => simp [newlines]
  | cons file files ih =>
    have hle := List.countP_le_length (p := (10 ∉ ·)) (l := files)
    have hcount : 0 < file.countP (· = 10) ↔ 10 ∈ file := by simp [List.countP_pos_iff]
    simp only [newlines, List.map_cons, List.foldr_cons] at ih ⊢
    rw [lt_max_iff, hcount, ih, List.length_cons]
    by_cases h : 10 ∈ file
    · have hcons : (file :: files).countP (10 ∉ ·) = files.countP (10 ∉ ·) :=
        List.countP_cons_of_neg (by simpa using h)
      rw [hcons]
      exact ⟨fun _ => by omega, fun _ => .inl h⟩
    · have hcons : (file :: files).countP (10 ∉ ·) = files.countP (10 ∉ ·) + 1 :=
        List.countP_cons_of_pos (by simpa using h)
      rw [hcons]
      exact ⟨fun h' => by rcases h' with h' | h' <;> [exact absurd h' h; omega],
        fun h' => .inr (by omega)⟩

theorem rowAt_rest (files : List (List UInt8)) (k : ℕ) :
    rowAt (files.map rest) k = rowAt files (k + 1) := by
  simp [rowAt, lineAt_rest]

theorem length_joined_le {D : ℕ → List ℕ} (hD : ∀ i, (D i).length ≤ 1) (k : ℕ)
    (xs : List (List ℕ)) :
    (joined D k xs).length ≤ (xs.map List.length).sum + (xs.length - 1) := by
  fun_induction joined D k xs with
  | case1 => simp
  | case2 => simp
  | case3 k x y xs ih =>
    have := hD k
    simp only [List.length_append, List.map_cons, List.sum_cons, List.length_cons] at ih ⊢
    omega

/-- The output lines as they are printed. -/
def printed (D : ℕ → List ℕ) (files : List (List UInt8)) (n : ℕ) : List ℕ :=
  (List.range n).flatMap fun k => (rowText D files k).takeWhile (· ≠ 0)

theorem printed_succ (D : ℕ → List ℕ) (files : List (List UInt8)) (n : ℕ) :
    printed D files (n + 1) =
      (rowText D files 0).takeWhile (· ≠ 0) ++ printed D (files.map rest) n := by
  simp [printed, rowText, List.range_succ_eq_map, List.flatMap_map, rowAt_rest]

/-- An output line is printed for every newline of the file with the most of them. -/
theorem parallel_eq (del : List ℕ) (fuel l : ℕ) (files : List (List UInt8)) (hne : files ≠ [])
    (hshort : ∀ k, ((rowAt files k).map List.length).sum ≤ maxline) (hfuel : newlines files < fuel) :
    parallel del fuel l files =
      if ∀ k ≤ newlines files, (joined (code del) 0 (rowAt files k)).length + 1 < LINE_MAX then
        .ok (printed (code del) files (newlines files))
      else .error .overrun := by
  induction fuel generalizing l files with
  | zero => omega
  | succ fuel ih =>
    obtain ⟨file, files', rfl⟩ := List.exists_cons_of_ne_nil hne
    set files := file :: files' with hfiles
    have hrow0 : rowAt files 0 = files.map head := by simp [rowAt, funext lineAt_zero]
    obtain ⟨r, heof, hrest, hrow⟩ := @row_eq del l file files' (by rw [← hfiles, ← hrow0]; exact hshort 0)
    rw [← hfiles] at heof hrest hrow
    rw [parallel, hrow, ← hrow0]
    by_cases h0 : (joined (code del) 0 (rowAt files 0)).length + 1 < LINE_MAX
    · rw [if_pos h0]
      simp only [bind, Except.bind, heof, hrest]
      by_cases hn : 0 < newlines files
      · rw [if_pos (newlines_pos.mp hn), ih r.l (files.map rest) (by simp [hfiles])
          (fun k => by rw [rowAt_rest]; exact hshort (k + 1)) (by rw [newlines_rest]; omega)]
        obtain ⟨m, hm⟩ : ∃ m, newlines files = m + 1 := ⟨newlines files - 1, by omega⟩
        simp only [newlines_rest, rowAt_rest, hm, Nat.add_sub_cancel, printed_succ]
        have hiff : (∀ k ≤ m + 1, (joined (code del) 0 (rowAt files k)).length + 1 < LINE_MAX) ↔
            ∀ k ≤ m, (joined (code del) 0 (rowAt files (k + 1))).length + 1 < LINE_MAX := by
          constructor
          · exact fun h k hk => h (k + 1) (by omega)
          · intro h k hk
            cases k with
            | zero => exact h0
            | succ k => exact h k (by omega)
        by_cases hall : ∀ k ≤ m, (joined (code del) 0 (rowAt files (k + 1))).length + 1 < LINE_MAX
        · rw [if_pos hall, if_pos (hiff.mpr hall)]
          rfl
        · rw [if_neg hall, if_neg (fun h => hall (hiff.mp h))]
      · rw [if_neg (fun h => hn (newlines_pos.mpr h))]
        have hn0 : newlines files = 0 := by omega
        rw [hn0, if_pos fun k hk => by rw [Nat.le_zero.mp hk]; exact h0]
        rfl
    · rw [if_neg h0, if_neg fun h => h0 (h 0 (Nat.zero_le _))]
      rfl

/-! The delimiters of the code and those of the list. -/

/-- The delimiters without the character that stands for the empty one. -/
def dropRub (D : ℕ → List ℕ) (i : ℕ) : List ℕ := (D i).filter (· ≠ RUB)

theorem move_eq (arg : List ℕ) : move arg = (delims arg).map (·.map (·.getD RUB)) := by
  fun_induction delims arg with
  | case1 => rfl
  | case2 => rfl
  | case3 c h => simp [move, h]
  | case4 c d s h ih =>
    rw [move, if_pos h, ih]
    simp [Function.comp_def]
  | case5 c d s h ih =>
    rw [move, if_neg h, ih]
    simp only [Option.map_map, Function.comp_def, List.map_cons]
    congr 2
    funext x
    split_ifs <;> rfl

theorem delims_ne_zero {arg : List ℕ} (h0 : 0 ∉ arg) {ds : List (Option ℕ)}
    (h : delims arg = some ds) : some 0 ∉ ds := by
  fun_induction delims arg generalizing ds <;> grind [Option.map_eq_some_iff]

theorem length_cyclic_le (ds : List (Option ℕ)) (i : ℕ) : (cyclic ds i).length ≤ 1 := by
  unfold cyclic
  cases ds.getD (i % ds.length) none <;> simp

theorem code_map (ds : List (Option ℕ)) (i : ℕ) (hne : ds ≠ []) :
    code (ds.map (·.getD RUB)) i = dropRub (cyclic ds) i := by
  have hi : i % ds.length < ds.length := Nat.mod_lt _ (List.length_pos_iff.mpr hne)
  simp only [code, dropRub, cyclic, List.length_map, List.getD_eq_getElem?_getD, List.getElem?_map,
    List.getElem?_eq_getElem hi, Option.map_some, Option.getD_some]
  cases ds[i % ds.length] with
  | none => simp
  | some d => by_cases hd : d = RUB <;> simp [hd]

theorem joined_congr {D D' : ℕ → List ℕ} (k : ℕ) (xs : List (List ℕ))
    (h : ∀ i, i + 1 < xs.length → D (k + i) = D' (k + i)) : joined D k xs = joined D' k xs := by
  fun_induction joined D k xs with
  | case1 => rfl
  | case2 => rfl
  | case3 k x y xs ih =>
    have h0 : D k = D' k := h 0 (by simp)
    rw [joined, ← h0, ih fun i hi => ?_]
    · have := h (i + 1) (by simpa using hi)
      rwa [← Nat.add_assoc, Nat.add_right_comm] at this

/-- Dropping delimiters makes a text shorter, unless none is dropped. -/
theorem length_joined_dropRub {D : ℕ → List ℕ} (k : ℕ) (xs : List (List ℕ)) :
    (joined (dropRub D) k xs).length ≤ (joined D k xs).length ∧
      ((joined (dropRub D) k xs).length = (joined D k xs).length →
        ∀ i, i + 1 < xs.length → dropRub D (k + i) = D (k + i)) := by
  induction xs generalizing k with
  | nil => simp [joined]
  | cons x xs ih =>
    cases xs with
    | nil => simp [joined]
    | cons y xs =>
      obtain ⟨hle, heq⟩ := ih (k + 1)
      have hfilter : (dropRub D k).length ≤ (D k).length := List.length_filter_le _ _
      simp only [joined, List.length_append]
      refine ⟨by omega, fun h i hi => ?_⟩
      cases i with
      | zero =>
        have hlen : (dropRub D k).length = (D k).length := by omega
        exact List.filter_sublist.eq_of_length hlen
      | succ i =>
        have := heq (by omega) i (by simpa using hi)
        rwa [Nat.add_right_comm, Nat.add_assoc] at this

theorem mem_joined {D : ℕ → List ℕ} {c : ℕ} (k : ℕ) (xs : List (List ℕ)) (x : List ℕ) (hx : x ∈ xs)
    (hc : c ∈ x) : c ∈ joined D k xs := by
  fun_induction joined D k xs <;> grind

theorem mem_of_mem_joined {D : ℕ → List ℕ} {c : ℕ} (k : ℕ) (xs : List (List ℕ))
    (hc : c ∈ joined D k xs) : (∃ x ∈ xs, c ∈ x) ∨ ∃ i, c ∈ D i := by
  fun_induction joined D k xs <;> grind

theorem length_takeWhile_eq {α : Type*} {p : α → Bool} {xs : List α}
    (h : (xs.takeWhile p).length = xs.length) : ∀ x ∈ xs, p x = true :=
  List.takeWhile_eq_self_iff.mp ((List.takeWhile_prefix p).eq_of_length h)

theorem mem_takeWhile_or_rest {file : List UInt8} {c : UInt8} (hc : c ∈ file) (h10 : c ≠ 10) :
    c ∈ file.takeWhile (· ≠ 10) ∨ c ∈ rest file := by
  induction file with
  | nil => simp at hc
  | cons d file ih =>
    by_cases hd : d = 10
    · have hcf : c ∈ file := by
        rcases List.mem_cons.mp hc with rfl | hc
        · exact absurd hd h10
        · exact hc
      exact .inr (by simpa [rest, hd] using hcf)
    · have hrest : rest (d :: file) = rest file := by simp [rest, hd]
      rw [hrest, List.takeWhile_cons_of_pos (by simpa using hd), List.mem_cons]
      rcases List.mem_cons.mp hc with rfl | hc
      · exact .inl (.inl rfl)
      · exact (ih hc).imp .inr id

theorem length_rest_lt {file : List UInt8} (hne : file ≠ []) : (rest file).length < file.length := by
  have hle := (List.dropWhile_suffix (l := file) (· ≠ 10)).length_le
  have hpos := List.length_pos_iff.mpr hne
  rw [rest, List.length_drop]
  omega

theorem mem_lines {file : List UInt8} {c : UInt8} (hc : c ∈ file) (h10 : c ≠ 10) :
    ∃ line ∈ lines file, c ∈ line := by
  induction hn : file.length using Nat.strong_induction_on generalizing file with
  | _ n ih =>
    have hne : file ≠ [] := List.ne_nil_of_mem hc
    rw [lines_eq_cons hne]
    rcases mem_takeWhile_or_rest hc h10 with hc | hc
    · exact ⟨_, List.mem_cons_self, hc⟩
    · obtain ⟨line, hline, hcl⟩ := ih _ (hn ▸ length_rest_lt hne) hc rfl
      exact ⟨line, List.mem_cons_of_mem _ hline, hcl⟩

theorem countP_le_length_lines (file : List UInt8) :
    file.countP (· = 10) ≤ (lines file).length := by
  induction hn : file.length using Nat.strong_induction_on generalizing file with
  | _ n ih =>
    by_cases hne : file = []
    · simp [hne]
    · have := ih _ (hn ▸ length_rest_lt hne) (rest file) rfl
      rw [countP_rest] at this
      rw [lines_eq_cons hne, List.length_cons]
      simp only [rest] at this
      omega

theorem newlines_le_height (files : List (List UInt8)) : newlines files ≤ height files := by
  induction files with
  | nil => exact le_refl _
  | cons file files ih => exact max_le_max (countP_le_length_lines file) ih

theorem length_lines_le_height {files : List (List UInt8)} {file : List UInt8} (h : file ∈ files) :
    (lines file).length ≤ height files := by
  induction files with
  | nil => simp at h
  | cons g files ih =>
    rcases List.mem_cons.mp h with rfl | h
    · exact le_max_left _ _
    · exact le_trans (ih h) (le_max_right _ _)

theorem length_flatMap_range (a : ℕ → List ℕ) (n : ℕ) :
    ((List.range n).flatMap a).length = ∑ k ∈ Finset.range n, (a k).length := by
  rw [List.length_flatMap]
  rfl

/-- Shorter texts, and no more of them, come to the same only when they are as many and as
long. -/
theorem eq_of_flatMap_range_eq {a b : ℕ → List ℕ} (hab : ∀ k, (a k).length ≤ (b k).length)
    (hb : ∀ k, b k ≠ []) {n m : ℕ} (hnm : n ≤ m)
    (h : (List.range n).flatMap a = (List.range m).flatMap b) :
    n = m ∧ ∀ k < m, (a k).length = (b k).length := by
  have hlen := congrArg List.length h
  rw [length_flatMap_range, length_flatMap_range] at hlen
  have hsub : ∑ k ∈ Finset.range n, (b k).length ≤ ∑ k ∈ Finset.range m, (b k).length :=
    Finset.sum_le_sum_of_subset (Finset.range_mono hnm)
  have hle : ∑ k ∈ Finset.range n, (a k).length ≤ ∑ k ∈ Finset.range n, (b k).length :=
    Finset.sum_le_sum fun k _ => hab k
  have hn : n = m := by
    by_contra hne
    have hlt : ∑ k ∈ Finset.range n, (b k).length < ∑ k ∈ Finset.range m, (b k).length :=
      Finset.sum_lt_sum_of_subset (Finset.range_mono hnm) (Finset.mem_range.mpr (show n < m by omega))
        Finset.notMem_range_self (List.length_pos_iff.mpr (hb n)) fun _ _ _ => Nat.zero_le _
    omega
  subst hn
  refine ⟨rfl, fun k hk => ?_⟩
  exact (Finset.sum_eq_sum_iff_of_le fun k _ => hab k).mp hlen k (Finset.mem_range.mpr hk)

variable {ds : List (Option ℕ)}

/-- None of the first `n` delimiters is the character that stands for the empty one. -/
def NoRub (ds : List (Option ℕ)) (n : ℕ) : Prop := ∀ i < n, ds.getD (i % ds.length) none ≠ some RUB

theorem dropRub_cyclic_eq_iff (i : ℕ) :
    dropRub (cyclic ds) i = cyclic ds i ↔ ds.getD (i % ds.length) none ≠ some RUB := by
  unfold dropRub cyclic
  cases ds.getD (i % ds.length) none <;> simp

theorem zero_notMem_cyclic (h0 : some 0 ∉ ds) (i : ℕ) : 0 ∉ cyclic ds i := by
  unfold cyclic
  rw [List.getD_eq_getElem?_getD]
  cases h : ds[i % ds.length]? with
  | none => simp
  | some d =>
    have := List.mem_of_getElem? h
    cases d with
    | none => simp
    | some c =>
      rintro hc
      obtain rfl : c = 0 := by simpa [eq_comm] using hc
      exact h0 this

theorem zero_notMem_lineAt {file : List UInt8} (h0 : 0 ∉ file) (k : ℕ) : 0 ∉ lineAt k file := by
  rw [lineAt, List.getD_eq_getElem?_getD]
  cases h : (lines file)[k]? with
  | none => simp
  | some line =>
    have := not_mem_line h0 line (List.mem_of_getElem? h)
    simp only [Option.getD_some, List.mem_map, not_exists, not_and]
    intro c hc hc0
    obtain rfl : c = 0 := UInt8.toNat_inj.mp hc0
    exact this hc

theorem joined_dropRub (n : ℕ) (xs : List (List ℕ)) (hrub : NoRub ds n) (hn : xs.length - 1 ≤ n) :
    joined (dropRub (cyclic ds)) 0 xs = joined (cyclic ds) 0 xs := by
  refine joined_congr 0 xs fun i hi => ?_
  rw [Nat.zero_add]
  exact (dropRub_cyclic_eq_iff i).mpr (hrub i (by omega))

/-- The output lines are as they should be, unless some are missing, or end early. -/
theorem printed_eq_iff (h0 : some 0 ∉ ds) (files : List (List UInt8)) :
    printed (dropRub (cyclic ds)) files (newlines files) =
        pasted (cyclic ds) files (height files) ↔
      newlines files = height files ∧ (0 < height files → NoRub ds (files.length - 1)) ∧
        ∀ file ∈ files, 0 ∉ file := by
  constructor
  · intro h
    have hdrop (k : ℕ) := length_joined_dropRub (D := cyclic ds) 0 (rowAt files k)
    have htake (k : ℕ) : ((rowText (dropRub (cyclic ds)) files k).takeWhile (· ≠ 0)).length ≤
        (rowText (dropRub (cyclic ds)) files k).length := (List.takeWhile_prefix _).length_le
    have hrow (k : ℕ) : (rowText (dropRub (cyclic ds)) files k).length ≤
        (rowText (cyclic ds) files k).length := by
      simpa [rowText] using (hdrop k).1
    obtain ⟨hn, hlen⟩ := eq_of_flatMap_range_eq (fun k => (htake k).trans (hrow k))
      (by simp [rowText]) (newlines_le_height files) h
    have heq (k : ℕ) (hk : k < height files) :
        (joined (dropRub (cyclic ds)) 0 (rowAt files k)).length =
          (joined (cyclic ds) 0 (rowAt files k)).length ∧
        ∀ c ∈ rowText (dropRub (cyclic ds)) files k, decide (c ≠ 0) = true := by
      have h1 := htake k
      have h2 := hrow k
      have h3 := hlen k hk
      refine ⟨?_, length_takeWhile_eq (by omega)⟩
      have h4 : (rowText (dropRub (cyclic ds)) files k).length =
          (rowText (cyclic ds) files k).length := by omega
      simpa [rowText] using h4
    refine ⟨hn, fun hpos i hi => ?_, fun file hfile hz => ?_⟩
    · have := (hdrop 0).2 (heq 0 hpos).1 i (by simp [rowAt]; omega)
      rw [Nat.zero_add] at this
      exact (dropRub_cyclic_eq_iff i).mp this
    · obtain ⟨line, hline, hz⟩ := mem_lines hz (by decide)
      obtain ⟨k, hk, hget⟩ := List.getElem_of_mem hline
      have hmem : 0 ∈ lineAt k file := by
        rw [lineAt, List.getD_eq_getElem?_getD, List.getElem?_eq_getElem hk, hget]
        exact List.mem_map.mpr ⟨0, hz, rfl⟩
      have hj := mem_joined (D := dropRub (cyclic ds)) 0 (rowAt files k) _
        (List.mem_map_of_mem hfile) hmem
      have := (heq k (lt_of_lt_of_le hk (length_lines_le_height hfile))).2 0
        (List.mem_append_left _ hj)
      simp at this
  · rintro ⟨hn, hrub, hz⟩
    rw [hn, printed, pasted]
    refine List.flatMap_congr fun k hk => ?_
    have hk := List.mem_range.mp hk
    rw [rowText, joined_dropRub _ _ (hrub (by omega)) (by simp [rowAt]), ← rowText]
    refine List.takeWhile_eq_self_iff.mpr fun c hc => ?_
    rw [decide_eq_true_iff]
    rintro rfl
    rcases List.mem_append.mp hc with hc | hc
    · rcases mem_of_mem_joined 0 _ hc with ⟨x, hx, hc⟩ | ⟨i, hc⟩
      · obtain ⟨file, hfile, rfl⟩ := List.mem_map.mp hx
        exact zero_notMem_lineAt (hz file hfile) k hc
      · exact zero_notMem_cyclic h0 i hc
    · simp at hc

end Unitas.Paste
