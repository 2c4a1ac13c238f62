import Unitas.Cut.Chars
import Unitas.Lib.Lines

/-! `cut -f`, and `main`. -/
namespace Unitas.Cut
open Unitas.Lines

def wdel : UInt8 := 9

/-- `read_line` with `linebuf` allocated for `bufsiz + 1` bytes: the line, if there is one, the new
size, and what is left of the input. -/
def read_line (BUFSIZ : ℕ) : List UInt8 → ℕ → List UInt8 →
    Option (Option (List UInt8) × ℕ × List UInt8)
  | line, bufsiz, [] => some (if line = [] then none else some line, bufsiz, [])
  | line, bufsiz, c :: cs =>
    if c = 10 then some (some line, bufsiz, cs)
    else if INT_MAX ≤ line.length then none
    else if line.length + 1 = bufsiz then
      if INT_MAX ≤ bufsiz + BUFSIZ then none
      else read_line BUFSIZ (line ++ [c]) (bufsiz + BUFSIZ) cs
    else if bufsiz ≤ line.length then none
    else read_line BUFSIZ (line ++ [c]) bufsiz cs

/-- The loop over the fields of a line, of which `s.pos` are behind it. What `printf` does for
`%ws`, with which the last field is printed, is undefined. -/
def fieldLoop (t : Table) : Cursor → Bool → List (List UInt8) → Option (List UInt8)
  | _, _, [] => some []
  | s, need_del, field :: fields =>
    if t.nranges ≤ s.rndx then some []
    else if INT_MAX ≤ s.pos + 1 then none
    else
      (t.get s.rndx).bind fun r =>
        if (s.next r).1 then
          if fields = [] then none
          else (fieldLoop t (s.next r).2 true fields).map
            ((if need_del then [wdel] else []) ++ field ++ ·)
        else fieldLoop t (s.next r).2 need_del fields

/-- What `ffunc` prints for a line. Lines without a delimiter are printed with `%ws`, too. -/
def printFields (t : Table) (supflag : Bool) (linep : List UInt8) : Option (List UInt8) :=
  let linep := linep.takeWhile (· ≠ 0)
  if wdel ∉ linep then if supflag then some [] else none
  else (fieldLoop t .start false (linep.splitOn wdel)).map (· ++ [10])

/-- `ffunc`, and the size of `linebuf` after it. -/
def ffunc (BUFSIZ : ℕ) (t : Table) (supflag : Bool) : ℕ → ℕ → List UInt8 →
    Option (List UInt8 × ℕ)
  | 0, _, _ => none
  | fuel + 1, bufsiz, input =>
    (read_line BUFSIZ [] bufsiz input).bind fun
      | (none, bufsiz, _) => some ([], bufsiz)
      | (some linep, bufsiz, input) => do
        let printed ← printFields t supflag linep
        let (rest, bufsiz) ← ffunc BUFSIZ t supflag fuel bufsiz input
        return (printed ++ rest, bufsiz)

/-- What `getopt` returns, with `optarg`. -/
inductive Opt
  | b (list : List UInt8)
  | c (list : List UInt8)
  | d (delim : List UInt8)
  | f (list : List UInt8)
  | n
  | s
  | unknown

structure Flags where
  bflag : Bool
  cflag : Bool
  dflag : Bool
  fflag : Bool
  nflag : Bool
  supflag : Bool
  list : List UInt8

/-- How `main` ends. -/
inductive Outcome
  | returns (status : ℕ) (out : List UInt8)
  | exits (status : ℕ)
  | undefined
  deriving DecidableEq, Repr

/-- The loop over the options; `none` for `usage` and for `diag`, which exit alike. -/
def getopts (flags : Flags) : List Opt → Option Flags
  | [] => some flags
  | .b list :: opts =>
    if flags.fflag || flags.cflag then none else getopts { flags with bflag := true, list } opts
  | .c list :: opts =>
    if flags.fflag || flags.bflag then none else getopts { flags with cflag := true, list } opts
  | .d _ :: _ => none
  | .f list :: opts =>
    if flags.bflag || flags.cflag then none else getopts { flags with fflag := true, list } opts
  | .n :: opts => getopts { flags with nflag := true } opts
  | .s :: opts => getopts { flags with supflag := true } opts
  | .unknown :: _ => none

/-- One file: what `funcp` prints, and the size of `linebuf` after it. -/
def funcp (BUFSIZ : ℕ) (wctomb : UInt8 → Option ℕ) (flags : Flags) (t : Table) (bufsiz : ℕ)
    (input : List UInt8) : Option (List UInt8 × ℕ) :=
  if flags.cflag then (cfunc t input).map (·, bufsiz)
  else if flags.bflag then
    if flags.nflag then (bnfunc wctomb t .start input).map (·, bufsiz)
    else (bfunc t input).map (·, bufsiz)
  else ffunc BUFSIZ t flags.supflag (input.length + 1) bufsiz input

/-- The loop over the files; `none` for one that cannot be opened. -/
def fileLoop (BUFSIZ : ℕ) (wctomb : UInt8 → Option ℕ) (flags : Flags) (t : Table) :
    ℕ → List (Option (List UInt8)) → Option (ℕ × List UInt8)
  | _, [] => some (0, [])
  | bufsiz, none :: files => do
    let (_, out) ← fileLoop BUFSIZ wctomb flags t bufsiz files
    return (1, out)
  | bufsiz, some input :: files => do
    let (printed, bufsiz) ← funcp BUFSIZ wctomb flags t bufsiz input
    let (status, out) ← fileLoop BUFSIZ wctomb flags t bufsiz files
    return (status, printed ++ out)

/-- `main` after `getopt`. The files are those that the operands name, or the standard input. -/
def main (MAX_RANGES BUFSIZ : ℕ) (wctomb : UInt8 → Option ℕ) (opts : List Opt)
    (files : List (Option (List UInt8))) : Outcome :=
  match getopts ⟨false, false, false, false, false, false, []⟩ opts with
  | none => .exits 2
  | some flags =>
    if !(flags.cflag || flags.fflag || flags.bflag) then .exits 2
    else if flags.nflag && (flags.cflag || flags.fflag) then .exits 2
    else if (flags.dflag || flags.supflag) && (flags.bflag || flags.cflag) then .exits 2
    else
      match process_list MAX_RANGES flags.list with
      | none => .exits 2
      | some t =>
        if t.nranges = 0 then .exits 2
        else
          match fileLoop BUFSIZ wctomb flags t (BUFSIZ - 1) files with
          | none => .undefined
          | some (status, out) => .returns status out

/-- The fields whose numbers are selected, when the first one is number `pos + 1`. -/
def selectFields (sel : ℕ → Bool) (pos : ℕ) (fields : List (List UInt8)) : List (List UInt8) :=
  (fields.zipIdx (pos + 1)).filterMap fun (field, i) => if sel i then some field else none

/-- What `cut -f` is to print for a line. -/
def cutFields (sel : ℕ → Bool) (delim : UInt8) (supflag : Bool) (line : List UInt8) :
    List UInt8 :=
  if delim ∈ line then [delim].intercalate (selectFields sel 0 (line.splitOn delim)) ++ [10]
  else if supflag then [] else line ++ [10]

/-- `cut -f` with `-s` and `-d` as often as one likes. -/
def FieldOpts (opts : List Opt) : Prop :=
  (∃ list, Opt.f list ∈ opts) ∧
    ∀ opt ∈ opts, opt = .s ∨ (∃ list, opt = .f list) ∨ ∃ delim, opt = .d [delim]

/-- The list of the last `-f`. -/
def fieldList (opts : List Opt) : List UInt8 :=
  opts.foldl (fun list opt => match opt with | .f list => list | _ => list) []

/-- The delimiter of the last `-d`. -/
def fieldDelim (opts : List Opt) : UInt8 :=
  opts.foldl (fun delim opt => match opt with | .d [delim] => delim | _ => delim) wdel

def suppress (opts : List Opt) : Bool := opts.any fun opt => match opt with | .s => true | _ => false

/-- The line fits the buffer, whose size is an `int`. -/
def Buffered (BUFSIZ : ℕ) (line : List UInt8) : Prop :=
  ((line.length + 1) / BUFSIZ + 1) * BUFSIZ ≤ INT_MAX

/-- Nothing of the line is printed with `%ws`. -/
def Avoids (sel : ℕ → Bool) (supflag : Bool) (line : List UInt8) : Prop :=
  if wdel ∈ line then sel (line.splitOn wdel).length = false else supflag = true

theorem selectFields_cons (sel : ℕ → Bool) (pos : ℕ) (field : List UInt8)
    (fields : List (List UInt8)) :
    selectFields sel pos (field :: fields) =
      (if sel (pos + 1) then [field] else []) ++ selectFields sel (pos + 1) fields := by
  rw [selectFields, List.zipIdx_cons, List.filterMap_cons, selectFields]
  cases h : sel (pos + 1)
  · simp [h]
  · simp [h]

/-- The fields with delimiters between them, and one before them if there is something else. -/
def joined (need_del : Bool) (fields : List (List UInt8)) : List UInt8 :=
  if need_del then fields.flatMap ([wdel] ++ ·) else [wdel].intercalate fields

theorem joined_cons (need_del : Bool) (field : List UInt8) (fields : List (List UInt8)) :
    (if need_del then [wdel] else []) ++ field ++ joined true fields =
      joined need_del (field :: fields) := by
  have hflat : ∀ field (fields : List (List UInt8)), [wdel].intercalate (field :: fields) =
      field ++ fields.flatMap ([wdel] ++ ·) := by
    intro field fields
    induction fields generalizing field with
    | nil => simp
    | cons g gs ih =>
      rw [List.intercalate_cons_cons, ih, List.flatMap_cons, List.append_assoc, List.append_assoc]
  cases need_del with
  | true => rfl
  | false => exact (hflat field fields).symm

/-- What is printed for the fields from `s.pos + 1` on, unless the last one is selected. -/
theorem fieldLoop_eq {t : Table} (ht : t.Ok) {sel : ℕ → Bool}
    (hsel : ∀ pos, 1 ≤ pos → pos ≤ INT_MAX → (sel pos = true ↔ Covers t.live pos))
    (fields : List (List UInt8)) : ∀ s need_del done todo, At t s done todo → fields ≠ [] →
      s.pos + fields.length < INT_MAX →
      fieldLoop t s need_del fields =
        if sel (s.pos + fields.length) then none
        else some (joined need_del (selectFields sel s.pos fields)) := by
  induction fields with
  | nil => exact fun _ _ _ _ _ h => absurd rfl h
  | cons field fields ih =>
    intro s need_del done todo hs _ hlen
    rw [List.length_cons] at hlen ⊢
    rw [fieldLoop]
    cases todo with
    | nil =>
      have hnone : ∀ pos, s.pos < pos → pos ≤ INT_MAX → sel pos = false := by
        intro pos hlt hle
        by_contra h
        exact hs.not_covers hlt ((hsel pos (by omega) hle).mp (by simpa using h))
      have hrndx : t.nranges ≤ s.rndx := by
        rw [hs.rndx, Table.nranges, hs.live, List.append_nil]
      have hempty : selectFields sel s.pos (field :: fields) = [] := by
        rw [selectFields, List.filterMap_eq_nil_iff]
        rintro ⟨g, i⟩ hmem
        have hi := List.snd_lt_of_mem_zipIdx hmem
        have hi' := List.le_snd_of_mem_zipIdx hmem
        rw [List.length_cons] at hi
        simp only [hnone i (by omega) (by omega), Bool.false_eq_true, if_false]
      rw [if_pos hrndx, hnone _ (by omega) (by omega), hempty]
      cases need_del <;> rfl
    | cons r rs =>
      have hrndx : ¬ t.nranges ≤ s.rndx := by
        rw [hs.rndx, Table.nranges, hs.live, List.length_append, List.length_cons]
        omega
      obtain ⟨hcov, hpos', done', todo', hs'⟩ := next_spec ht hs
      have hselpos : (s.next r).1 = sel (s.pos + 1) :=
        Bool.eq_iff_iff.mpr (hcov.trans (hsel _ (by omega) (by omega)).symm)
      rw [if_neg hrndx, if_neg (by omega), hs.get, Option.bind_some, hselpos, selectFields_cons]
      cases fields with
      | nil =>
        rw [if_pos rfl, fieldLoop, List.length_nil, Nat.zero_add]
        cases sel (s.pos + 1) with
        | true => rfl
        | false => cases need_del <;> rfl
      | cons g gs =>
        have hrest := fun need => ih (s.next r).2 need done' todo' hs' (List.cons_ne_nil _ _)
          (by rw [hpos']; omega)
        rw [hpos', show s.pos + 1 + (g :: gs).length = s.pos + ((g :: gs).length + 1) by omega]
          at hrest
        rw [if_neg (List.cons_ne_nil _ _), hrest, hrest]
        by_cases hlast : sel (s.pos + ((g :: gs).length + 1)) = true
        · rw [if_pos hlast, if_pos hlast, if_pos hlast, Option.map_none, ite_self]
        · rw [if_neg hlast, if_neg hlast, if_neg hlast, Option.map_some, joined_cons]
          cases sel (s.pos + 1) <;> rfl

theorem splitOn_length_le (delim : UInt8) (line : List UInt8) :
    (line.splitOn delim).length ≤ line.length + 1 := by
  induction line with
  | nil => exact le_rfl
  | cons c line ih =>
    rw [List.splitOn_cons_eq_if_modifyHead, List.length_cons]
    split_ifs
    · rw [List.length_cons]
      omega
    · rw [List.length_modifyHead]
      omega

theorem length_lt_of_buffered {BUFSIZ : ℕ} (hB : 2 ≤ BUFSIZ) {line : List UInt8}
    (h : Buffered BUFSIZ line) : line.length + 1 < INT_MAX := by
  have hdiv := Nat.lt_div_mul_add (a := line.length + 1) (by omega : 0 < BUFSIZ)
  rw [Buffered, Nat.add_mul, Nat.one_mul] at h
  omega

/-- A line is printed as it should be, unless `%ws` is used. -/
theorem printFields_eq {t : Table} (ht : t.Ok) {sel : ℕ → Bool}
    (hsel : ∀ pos, 1 ≤ pos → pos ≤ INT_MAX → (sel pos = true ↔ Covers t.live pos))
    {supflag : Bool} {line : List UInt8} (hnul : 0 ∉ line) (hlen : line.length + 1 < INT_MAX) :
    (Avoids sel supflag line → printFields t supflag line = some (cutFields sel wdel supflag line)) ∧
      (¬ Avoids sel supflag line → printFields t supflag line = none) := by
  have htake : line.takeWhile (· ≠ 0) = line := by
    rw [List.takeWhile_eq_self_iff]
    intro c hc
    have : c ≠ 0 := fun h => hnul (h ▸ hc)
    simpa using this
  rw [printFields, htake, Avoids, cutFields]
  by_cases hdel : wdel ∈ line
  · have hcount := splitOn_length_le wdel line
    have hloop := fieldLoop_eq ht hsel (line.splitOn wdel) .start false [] t.live (at_start ht)
      (List.splitOn_ne_nil _ _) (by
        simp only [Cursor.start]
        omega)
    rw [show Cursor.start.pos = 0 from rfl, Nat.zero_add] at hloop
    rw [if_neg (not_not.mpr hdel), if_pos hdel, if_pos hdel, hloop]
    constructor
    · intro hlast
      rw [hlast]
      rfl
    · intro hlast
      rw [if_pos (by simpa using hlast)]
      rfl
  · rw [if_pos hdel, if_neg hdel, if_neg hdel]
    cases supflag with
    | true => exact ⟨fun _ => rfl, fun h => absurd rfl h⟩
    | false => exact ⟨fun h => absurd h Bool.false_ne_true, fun _ => rfl⟩

/-- The size of `linebuf`: a multiple of `BUFSIZ`, as an `int`. -/
def BufOk (BUFSIZ bufsiz : ℕ) : Prop := ∃ k, 0 < k ∧ bufsiz + 1 = k * BUFSIZ ∧ bufsiz < INT_MAX

theorem buffered_of_lt {BUFSIZ bufsiz : ℕ} (hbuf : BufOk BUFSIZ bufsiz) {line : List UInt8}
    (hlt : line.length < bufsiz) : Buffered BUFSIZ line := by
  obtain ⟨k, hk, hsize, hmax⟩ := hbuf
  have hdiv : (line.length + 1) / BUFSIZ < k := Nat.div_lt_of_lt_mul (by
    rw [Nat.mul_comm]
    omega)
  calc ((line.length + 1) / BUFSIZ + 1) * BUFSIZ ≤ k * BUFSIZ := Nat.mul_le_mul_right _ hdiv
    _ ≤ INT_MAX := by omega

theorem not_buffered_of_full {BUFSIZ bufsiz : ℕ} (hB : 2 ≤ BUFSIZ) (hbuf : BufOk BUFSIZ bufsiz)
    {line : List UInt8} (hge : bufsiz ≤ line.length) (hfull : INT_MAX ≤ bufsiz + BUFSIZ) :
    ¬ Buffered BUFSIZ line := by
  obtain ⟨k, hk, hsize, hmax⟩ := hbuf
  intro h
  have hdiv : k ≤ (line.length + 1) / BUFSIZ := by
    rw [Nat.le_div_iff_mul_le (by omega)]
    omega
  have hmul : (k + 1) * BUFSIZ ≤ ((line.length + 1) / BUFSIZ + 1) * BUFSIZ :=
    Nat.mul_le_mul_right _ (Nat.succ_le_succ hdiv)
  rw [Buffered] at h
  rw [Nat.add_mul, Nat.one_mul] at hmul
  omega

/-- A line is read whole when it fits. -/
theorem read_line_eq {BUFSIZ : ℕ} (hB : 2 ≤ BUFSIZ) (cs : List UInt8) : ∀ line bufsiz l ls,
    BufOk BUFSIZ bufsiz → line.length < bufsiz → cs.splitOn 10 = l :: ls →
      (Buffered BUFSIZ (line ++ l) → ∃ bufsiz' rest, BufOk BUFSIZ bufsiz' ∧
        read_line BUFSIZ line bufsiz cs = some
          (if ls = [] ∧ line ++ l = [] then none else some (line ++ l), bufsiz', rest) ∧
        (ls = [] → rest = []) ∧ (ls ≠ [] → rest.splitOn 10 = ls) ∧
        rest.length ≤ cs.length - 1) ∧
      (¬ Buffered BUFSIZ (line ++ l) → read_line BUFSIZ line bufsiz cs = none) := by
  induction cs with
  | nil =>
    intro line bufsiz l ls hbuf hlt hsplit
    have hnil : ([] : List UInt8).splitOn 10 = [[]] := rfl
    rw [hnil] at hsplit
    obtain ⟨rfl, rfl⟩ := List.cons.inj hsplit
    rw [List.append_nil]
    refine ⟨fun _ => ⟨bufsiz, [], hbuf, ?_, fun _ => rfl, fun h => absurd rfl h, le_rfl⟩,
      fun h => absurd (buffered_of_lt hbuf hlt) h⟩
    rw [read_line]
    simp only [true_and]
  | cons c cs ih =>
    intro line bufsiz l ls hbuf hlt hsplit
    obtain ⟨g, gs, hg⟩ := List.exists_cons_of_ne_nil (List.splitOn_ne_nil 10 cs)
    rw [List.splitOn_cons_eq_if_modifyHead, hg] at hsplit
    rw [read_line]
    by_cases hc : c = 10
    · subst hc
      obtain ⟨rfl, rfl⟩ := List.cons.inj hsplit
      rw [List.append_nil, if_pos rfl]
      refine ⟨fun _ => ⟨bufsiz, cs, hbuf, ?_, fun h => absurd h (List.cons_ne_nil _ _),
        fun _ => hg, le_rfl⟩, fun h => absurd (buffered_of_lt hbuf hlt) h⟩
      rw [if_neg (fun h => absurd h.1 (List.cons_ne_nil _ _))]
    · rw [if_neg (by simpa using hc)] at hsplit
      obtain ⟨rfl, rfl⟩ := List.cons.inj hsplit
      have hmax : bufsiz < INT_MAX := hbuf.choose_spec.2.2
      have happ : line ++ c :: g = line ++ [c] ++ g := List.append_cons line c g
      have hlen : (line ++ [c]).length = line.length + 1 := List.length_append
      have hrest : cs.length - 1 ≤ (c :: cs).length - 1 := by
        rw [List.length_cons]
        omega
      rw [if_neg hc, if_neg (by omega), happ]
      by_cases hfull : line.length + 1 = bufsiz
      · rw [if_pos hfull]
        by_cases hover : INT_MAX ≤ bufsiz + BUFSIZ
        · rw [if_pos hover]
          refine ⟨fun h => absurd h (not_buffered_of_full hB hbuf ?_ hover), fun _ => rfl⟩
          rw [List.length_append]
          omega
        · rw [if_neg hover]
          have hbuf' : BufOk BUFSIZ (bufsiz + BUFSIZ) := by
            obtain ⟨k, hk, hsize, -⟩ := hbuf
            refine ⟨k + 1, Nat.succ_pos k, ?_, by omega⟩
            rw [Nat.add_mul, Nat.one_mul]
            omega
          obtain ⟨hok, hnot⟩ := ih (line ++ [c]) (bufsiz + BUFSIZ) g gs hbuf' (by omega) hg
          refine ⟨fun h => ?_, hnot⟩
          obtain ⟨b', rest, h1, h2, h3, h4, h5⟩ := hok h
          exact ⟨b', rest, h1, h2, h3, h4, h5.trans hrest⟩
      · rw [if_neg hfull, if_neg (by omega)]
        obtain ⟨hok, hnot⟩ := ih (line ++ [c]) bufsiz g gs hbuf (by omega) hg
        refine ⟨fun h => ?_, hnot⟩
        obtain ⟨b', rest, h1, h2, h3, h4, h5⟩ := hok h
        exact ⟨b', rest, h1, h2, h3, h4, h5.trans hrest⟩

/-- `ffunc` prints every line as it should be, unless a line is too long or `%ws` is used. -/
theorem ffunc_eq {BUFSIZ : ℕ} (hB : 2 ≤ BUFSIZ) {t : Table} (ht : t.Ok) {sel : ℕ → Bool}
    (hsel : ∀ pos, 1 ≤ pos → pos ≤ INT_MAX → (sel pos = true ↔ Covers t.live pos))
    {supflag : Bool} (fuel : ℕ) : ∀ bufsiz input, input.length < fuel → BufOk BUFSIZ bufsiz →
      (∀ line ∈ lines input, 0 ∉ line) →
      ((∀ line ∈ lines input, Buffered BUFSIZ line ∧ Avoids sel supflag line) →
        ∃ bufsiz', BufOk BUFSIZ bufsiz' ∧ ffunc BUFSIZ t supflag fuel bufsiz input =
          some ((lines input).flatMap (cutFields sel wdel supflag), bufsiz')) ∧
      ((∃ line ∈ lines input, ¬ (Buffered BUFSIZ line ∧ Avoids sel supflag line)) →
        ffunc BUFSIZ t supflag fuel bufsiz input = none) := by
  induction fuel with
  | zero => exact fun _ _ h => absurd h (Nat.not_lt_zero _)
  | succ fuel ih =>
    intro bufsiz input hfuel hbuf hnul
    have hpos : ([] : List UInt8).length < bufsiz := by
      obtain ⟨k, hk, hsize, -⟩ := hbuf
      have := Nat.le_mul_of_pos_left BUFSIZ hk
      rw [List.length_nil]
      omega
    obtain ⟨l, ls, hsplit⟩ := List.exists_cons_of_ne_nil (List.splitOn_ne_nil 10 input)
    obtain ⟨hok, hnot⟩ := read_line_eq hB input [] bufsiz l ls hbuf hpos hsplit
    rw [List.nil_append] at hok hnot
    rw [ffunc]
    by_cases hfits : Buffered BUFSIZ l
    · obtain ⟨bufsiz', rest, hbuf', hread, hnil, hcons, hlen⟩ := hok hfits
      rw [hread, Option.bind_some]
      by_cases hend : ls = [] ∧ l = []
      · have hlines : lines input = [] := by
          rw [lines, hsplit, hend.1, hend.2]
          rfl
        rw [if_pos hend, hlines]
        refine ⟨fun _ => ⟨bufsiz', hbuf', rfl⟩, ?_⟩
        rintro ⟨_, h, -⟩
        exact absurd h List.not_mem_nil
      · have hlines := lines_cons hsplit hnil hcons hend
        have hinput : 0 < input.length := by
          rw [List.length_pos_iff]
          rintro rfl
          obtain ⟨h1, h2⟩ := List.cons.inj hsplit
          exact hend ⟨h2.symm, h1.symm⟩
        rw [if_neg hend, hlines]
        rw [hlines] at hnul
        obtain ⟨hnull, hnulrest⟩ := List.forall_mem_cons.mp hnul
        obtain ⟨hprint, hbad⟩ := @printFields_eq t ht sel hsel supflag l hnull
          (length_lt_of_buffered hB hfits)
        obtain ⟨hall, hsome⟩ := ih bufsiz' rest (by omega) hbuf' hnulrest
        dsimp only
        by_cases havoid : Avoids sel supflag l
        · rw [hprint havoid]
          constructor
          · intro h
            obtain ⟨bufsiz'', hbuf'', hrest⟩ := hall (List.forall_mem_cons.mp h).2
            refine ⟨bufsiz'', hbuf'', ?_⟩
            rw [hrest]
            rfl
          · rintro ⟨line, hmem, hline⟩
            rcases List.mem_cons.mp hmem with rfl | hmem
            · exact absurd ⟨hfits, havoid⟩ hline
            · rw [hsome ⟨line, hmem, hline⟩]
              rfl
        · rw [hbad havoid]
          exact ⟨fun h => absurd (List.forall_mem_cons.mp h).1.2 havoid, fun _ => rfl⟩
    · have hend : ¬ (ls = [] ∧ l = []) := by
        rintro ⟨-, rfl⟩
        exact hfits (buffered_of_lt hbuf hpos)
      have hmem := head_mem_lines hsplit hend
      rw [hnot hfits]
      exact ⟨fun h => absurd (h l hmem).1 hfits, fun _ => rfl⟩

/-- The loop over the files, of which each starts with the buffer of the one before it. -/
theorem fileLoop_eq {BUFSIZ : ℕ} (hB : 2 ≤ BUFSIZ) (wctomb : UInt8 → Option ℕ) {flags : Flags}
    (hc : flags.cflag = false) (hb : flags.bflag = false) {t : Table} (ht : t.Ok) {sel : ℕ → Bool}
    (hsel : ∀ pos, 1 ≤ pos → pos ≤ INT_MAX → (sel pos = true ↔ Covers t.live pos))
    (files : List (Option (List UInt8))) : ∀ bufsiz, BufOk BUFSIZ bufsiz →
      (∀ input ∈ files.filterMap id, ∀ line ∈ lines input, 0 ∉ line) →
      ((∀ input ∈ files.filterMap id, ∀ line ∈ lines input,
          Buffered BUFSIZ line ∧ Avoids sel flags.supflag line) →
        ∃ status, fileLoop BUFSIZ wctomb flags t bufsiz files =
          some (status, (files.filterMap id).flatMap fun input =>
            (lines input).flatMap (cutFields sel wdel flags.supflag))) ∧
      ((∃ input ∈ files.filterMap id, ∃ line ∈ lines input,
          ¬ (Buffered BUFSIZ line ∧ Avoids sel flags.supflag line)) →
        fileLoop BUFSIZ wctomb flags t bufsiz files = none) := by
  induction files with
  | nil =>
    intro bufsiz _ _
    exact ⟨fun _ => ⟨0, rfl⟩, fun ⟨_, h, _⟩ => absurd h List.not_mem_nil⟩
  | cons file files ih =>
    intro bufsiz hbuf hnul
    cases file with
    | none =>
      obtain ⟨hall, hsome⟩ := ih bufsiz hbuf hnul
      rw [fileLoop]
      refine ⟨fun h => ?_, fun h => ?_⟩
      · obtain ⟨status, hrest⟩ := hall h
        refine ⟨1, ?_⟩
        rw [hrest]
        rfl
      · rw [hsome h]
        rfl
    | some input =>
      have hfilter : (some input :: files).filterMap id = input :: files.filterMap id := rfl
      rw [hfilter] at hnul ⊢
      obtain ⟨hnulin, hnulrest⟩ := List.forall_mem_cons.mp hnul
      obtain ⟨hone, hbad⟩ := @ffunc_eq BUFSIZ hB t ht sel hsel flags.supflag (input.length + 1)
        bufsiz input (Nat.lt_succ_self _) hbuf hnulin
      have hfuncp : funcp BUFSIZ wctomb flags t bufsiz input =
          ffunc BUFSIZ t flags.supflag (input.length + 1) bufsiz input := by
        rw [funcp, hc, hb]
        rfl
      rw [fileLoop, hfuncp]
      by_cases hin : ∀ line ∈ lines input, Buffered BUFSIZ line ∧ Avoids sel flags.supflag line
      · obtain ⟨bufsiz', hbuf', hprinted⟩ := hone hin
        obtain ⟨hall, hsome⟩ := ih bufsiz' hbuf' hnulrest
        rw [hprinted]
        refine ⟨fun h => ?_, fun ⟨input', hmem, h⟩ => ?_⟩
        · obtain ⟨status, hrest⟩ := hall (List.forall_mem_cons.mp h).2
          refine ⟨status, ?_⟩
          simp only [Option.bind_eq_bind, Option.bind_some, hrest, List.flatMap_cons]
          rfl
        · rcases List.mem_cons.mp hmem with rfl | hmem
          · obtain ⟨line, hline, hnot⟩ := h
            exact absurd (hin line hline) hnot
          · simp only [Option.bind_eq_bind, Option.bind_some, hsome ⟨input', hmem, h⟩,
              Option.bind_none]
      · refine ⟨fun h => absurd (List.forall_mem_cons.mp h).1 hin, fun _ => ?_⟩
        push Not at hin
        obtain ⟨line, hline, hnot⟩ := hin
        rw [hbad ⟨line, hline, fun h => hnot h.1 h.2⟩]
        rfl

def isField : Opt → Bool
  | .f _ => true
  | _ => false

/-- The options of `cut -f` are taken, unless there is a `-d` among them. -/
theorem getopts_eq (opts : List Opt) : ∀ flags : Flags, flags.bflag = false → flags.cflag = false →
    (∀ opt ∈ opts, opt = .s ∨ (∃ list, opt = .f list) ∨ ∃ delim, opt = .d [delim]) →
    ((∀ opt ∈ opts, ∀ delim, opt ≠ .d delim) → getopts flags opts =
      some { flags with
        fflag := flags.fflag || opts.any isField
        supflag := flags.supflag || suppress opts
        list := opts.foldl (fun list opt => match opt with | .f list => list | _ => list)
          flags.list }) ∧
      ((∃ opt ∈ opts, ∃ delim, opt = .d delim) → getopts flags opts = none) := by
  induction opts with
  | nil =>
    intro flags _ _ _
    refine ⟨fun _ => ?_, fun ⟨_, h, _⟩ => absurd h List.not_mem_nil⟩
    rw [getopts, suppress]
    simp only [List.any_nil, Bool.or_false, List.foldl_nil]
  | cons opt opts ih =>
    rintro ⟨bflag, cflag, dflag, fflag, nflag, supflag, flist⟩ hb hc hopts
    obtain rfl : bflag = false := hb
    obtain rfl : cflag = false := hc
    obtain ⟨hopt, hrest⟩ := List.forall_mem_cons.mp hopts
    have hcons : ∀ {opt : Opt}, (∀ delim, opt ≠ .d delim) →
        (∃ opt' ∈ opt :: opts, ∃ delim, opt' = .d delim) →
        ∃ opt' ∈ opts, ∃ delim, opt' = .d delim := by
      rintro opt hnot ⟨opt', hmem, delim, rfl⟩
      rcases List.mem_cons.mp hmem with h | hmem
      · exact absurd h.symm (hnot delim)
      · exact ⟨_, hmem, delim, rfl⟩
    rcases hopt with rfl | ⟨list, rfl⟩ | ⟨delim, rfl⟩
    · obtain ⟨hall, hsome⟩ := ih ⟨false, false, dflag, fflag, nflag, true, flist⟩ rfl rfl hrest
      rw [getopts]
      refine ⟨fun h => ?_, fun h => hsome (hcons (by simp) h)⟩
      rw [hall fun opt hopt => h opt (List.mem_cons_of_mem _ hopt)]
      simp only [suppress, List.any_cons, isField, Bool.false_or, Bool.true_or, Bool.or_true,
        List.foldl_cons]
    · obtain ⟨hall, hsome⟩ := ih ⟨false, false, dflag, true, nflag, supflag, list⟩ rfl rfl hrest
      rw [getopts, Bool.or_self, if_neg Bool.false_ne_true]
      refine ⟨fun h => ?_, fun h => hsome (hcons (by simp) h)⟩
      rw [hall fun opt hopt => h opt (List.mem_cons_of_mem _ hopt)]
      simp only [suppress, List.any_cons, isField, Bool.false_or, Bool.true_or, Bool.or_true,
        List.foldl_cons]
    · refine ⟨fun h => absurd rfl (h _ List.mem_cons_self [delim]), fun _ => ?_⟩
      rw [getopts]

theorem fieldDelim_eq (opts : List Opt) (h : ∀ opt ∈ opts, ∀ delim, opt ≠ .d delim) :
    fieldDelim opts = wdel := by
  rw [fieldDelim]
  induction opts with
  | nil => rfl
  | cons opt opts ih =>
    obtain ⟨hopt, hrest⟩ := List.forall_mem_cons.mp h
    rw [List.foldl_cons]
    cases opt with
    | d delim => exact absurd rfl (hopt delim)
    | _ => exact ih hrest

/-- What the files of a `cut -f` are to give. -/
def fieldOutput (opts : List Opt) (files : List (Option (List UInt8))) : List UInt8 :=
  (files.filterMap id).flatMap fun input => (lines input).flatMap
    (cutFields (selected (fieldList opts)) (fieldDelim opts) (suppress opts))

/-- `cut -f` prints the selected fields of every line if and only if there is no `-d`, every line
fits the buffer, lines without a delimiter are suppressed and no last field is selected. -/
theorem cut_fields {MAX_RANGES BUFSIZ : ℕ} (hB : 2 ≤ BUFSIZ) (hmax : BUFSIZ ≤ INT_MAX)
    (wctomb : UInt8 → Option ℕ) {opts : List Opt} (hopts : FieldOpts opts) {t : Table}
    (hlist : process_list MAX_RANGES (fieldList opts) = some t) (hne : t.nranges ≠ 0)
    {files : List (Option (List UInt8))} (hnul : ∀ input ∈ files.filterMap id, 0 ∉ input) :
    (∃ status, main MAX_RANGES BUFSIZ wctomb opts files =
      .returns status (fieldOutput opts files)) ↔
      (∀ opt ∈ opts, ∀ delim, opt ≠ .d delim) ∧ ∀ input ∈ files.filterMap id,
        ∀ line ∈ lines input, Buffered BUFSIZ line ∧
          Avoids (selected (fieldList opts)) (suppress opts) line := by
  obtain ⟨⟨list, hf⟩, hall⟩ := hopts
  obtain ⟨hok, hbad⟩ := getopts_eq opts ⟨false, false, false, false, false, false, []⟩ rfl rfl hall
  by_cases hd : ∃ opt ∈ opts, ∃ delim, opt = .d delim
  · have hmain : main MAX_RANGES BUFSIZ wctomb opts files = .exits 2 := by
      rw [main, hbad hd]
    rw [hmain]
    obtain ⟨opt, hopt, delim, heq⟩ := hd
    exact ⟨fun ⟨_, h⟩ => absurd h (by simp), fun h => absurd heq (h.1 opt hopt delim)⟩
  · have hnod : ∀ opt ∈ opts, ∀ delim, opt ≠ .d delim := fun opt hopt delim heq =>
      hd ⟨opt, hopt, delim, heq⟩
    have hfield : opts.any isField = true := List.any_eq_true.mpr ⟨.f list, hf, rfl⟩
    obtain ⟨ht, -, hsel⟩ := process_list_ok hlist
    have hflags : getopts ⟨false, false, false, false, false, false, []⟩ opts =
        some ⟨false, false, false, true, false, suppress opts, fieldList opts⟩ := by
      rw [hok hnod, hfield]
      rfl
    obtain ⟨hgood, hnone⟩ := @fileLoop_eq BUFSIZ hB wctomb ⟨false, false, false, true, false,
      suppress opts, fieldList opts⟩ rfl rfl t ht _ hsel files (BUFSIZ - 1)
      ⟨1, Nat.one_pos, by omega, by omega⟩ fun input hinput => not_mem_line (hnul input hinput)
    have hmain : main MAX_RANGES BUFSIZ wctomb opts files =
        match fileLoop BUFSIZ wctomb ⟨false, false, false, true, false, suppress opts,
          fieldList opts⟩ t (BUFSIZ - 1) files with
        | none => .undefined
        | some (status, out) => .returns status out := by
      rw [main, hflags]
      dsimp only
      rw [hlist]
      simp only [Bool.or_true, Bool.or_false, Bool.not_true, Bool.false_eq_true, if_false,
        Bool.false_and, Bool.and_false, if_neg hne]
    rw [hmain]
    constructor
    · rintro ⟨status, hreturns⟩
      refine ⟨hnod, ?_⟩
      by_contra hnot
      push Not at hnot
      obtain ⟨input, hinput, line, hline, hbadline⟩ := hnot
      rw [hnone ⟨input, hinput, line, hline, fun h => hbadline h.1 h.2⟩] at hreturns
      exact absurd hreturns (by simp)
    · rintro ⟨-, hlines⟩
      obtain ⟨status, hout⟩ := hgood hlines
      refine ⟨status, ?_⟩
      rw [hout, fieldOutput, fieldDelim_eq opts hnod]

/-- `cut -s -f 1` of a line with two fields. -/
theorem cut_fields_two : (∃ status, main 255 1024 (fun _ => some 1) [.s, .f [49]]
      [some [97, 9, 98, 10]] = .returns status (fieldOutput [.s, .f [49]] [some [97, 9, 98, 10]])) ↔
    (∀ opt ∈ [Opt.s, .f [49]], ∀ delim, opt ≠ .d delim) ∧
      ∀ input ∈ [some [97, 9, 98, 10]].filterMap id, ∀ line ∈ lines input, Buffered 1024 line ∧
        Avoids (selected (fieldList [.s, .f [49]])) (suppress [.s, .f [49]]) line := by
  refine @cut_fields 255 1024 (by decide) (by decide) _ [.s, .f [49]] ⟨⟨[49], by simp⟩, ?_⟩
    ⟨[⟨1, 1⟩], List.replicate 254 zeroed⟩ (by decide +kernel) (by decide) _ (by decide)
  simp

/-- Any `-d`: `diag` is called for every argument that it has. -/
theorem not_cut_fields : ¬ ∀ (MAX_RANGES BUFSIZ : ℕ) (wctomb : UInt8 → Option ℕ) (opts : List Opt)
    (t : Table) (files : List (Option (List UInt8))), 2 ≤ BUFSIZ → BUFSIZ ≤ INT_MAX →
    FieldOpts opts → process_list MAX_RANGES (fieldList opts) = some t → t.nranges ≠ 0 →
    (∀ input ∈ files.filterMap id, 0 ∉ input) →
    ∃ status, main MAX_RANGES BUFSIZ wctomb opts files =
      .returns status (fieldOutput opts files) := by
  intro h
  obtain ⟨status, hreturns⟩ := h 2 1024 (fun _ => some 1) [.d [58], .f [49]]
    ⟨[⟨1, 1⟩], [zeroed]⟩ [some [97, 58, 98, 10]] (by decide) (by decide)
    ⟨⟨[49], by simp⟩, by simp⟩ (by decide) (by decide) (by decide)
  exact absurd hreturns (by simp [main, getopts])

end Unitas.Cut
