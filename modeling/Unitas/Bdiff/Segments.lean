import Unitas.Bdiff.Script
import Mathlib.Data.List.TakeWhile

/-! `bdiff`: two files are cut into segments, and `diff` works on each pair of them. -/
namespace Unitas.Bdiff
open Unitas.Decimal Unitas.EditScript Unitas.Lines

/-- The lines of a file that `readline` has still to give. Its buffer grows to the longest one. -/
abbrev File := List (List UInt8)

/-- The temporary file, and `linenum` after it. -/
def saverest : ℕ → File → List UInt8 × ℕ
  | linenum, [] => ([], linenum)
  | linenum, line :: fp =>
    let rest := saverest (linenum + 1) fp
    (cstr line ++ rest.1, rest.2)

def putsave (tempfile : List UInt8) (type : UInt8) : List UInt8 :=
  (fileLines tempfile).flatMap fun line => type :: 32 :: cstr line

def addgen (linenum : ℕ) (fp : File) : List UInt8 :=
  let oldline := linenum + 1
  let rest := saverest linenum fp
  decimal linenum ++ 97 :: decimal (linenum + 1) ++
    (if oldline < rest.2 then 44 :: decimal rest.2 ++ [10] else [10]) ++ putsave rest.1 62

def delgen (linenum : ℕ) (fp : File) : List UInt8 :=
  let savenum := linenum
  let rest := saverest linenum fp
  decimal (linenum + 1) ++
    (if savenum + 1 ≠ rest.2 then 44 :: decimal rest.2 ++ 100 :: decimal savenum ++ [10]
      else 100 :: decimal savenum ++ [10]) ++ putsave rest.1 60

/-- What is read from the pipe. -/
def printdiff (linenum : ℕ) : File → Option (List UInt8)
  | [] => some []
  | dp :: pipeinp => do
    let out ← if isHeader dp then fixnum linenum dp else some (cstr dp)
    let rest ← printdiff linenum pipeinp
    some (out ++ rest)

/-- A segment in its temporary file. -/
def maket (segment : File) : List UInt8 := segment.flatMap cstr

/-- The second loop of `main`. -/
def segments (diff : List UInt8 → List UInt8 → List UInt8) (seglim : ℕ) :
    ℕ → ℕ → File → File → Option (List UInt8)
  | 0, _, _, _ => none
  | _ + 1, _, [], [] => some []
  | _ + 1, linenum, [], nlp :: pnewfile => some (addgen linenum (nlp :: pnewfile))
  | _ + 1, linenum, olp :: poldfile, [] => some (delgen linenum (olp :: poldfile))
  | fuel + 1, linenum, olp :: poldfile, nlp :: pnewfile => do
    let otmp := maket ((olp :: poldfile).take seglim)
    let ntmp := maket ((nlp :: pnewfile).take seglim)
    let out ← printdiff linenum (fileLines (diff otmp ntmp))
    let rest ← segments diff seglim fuel (linenum + seglim)
      ((olp :: poldfile).drop seglim) ((nlp :: pnewfile).drop seglim)
    some (out ++ rest)

/-- The first loop of `main`, which passes over the lines that the files begin with. -/
def skip (next : ℕ → File → File → Option (List UInt8)) :
    ℕ → File → File → Option (List UInt8)
  | _, [], [] => some []
  | linenum, [], nlp :: pnewfile => some (addgen linenum (nlp :: pnewfile))
  | linenum, olp :: poldfile, [] => some (delgen linenum (olp :: poldfile))
  | linenum, olp :: poldfile, nlp :: pnewfile =>
    if cstr olp = cstr nlp then skip next (linenum + 1) poldfile pnewfile
    else next linenum (olp :: poldfile) (nlp :: pnewfile)

def main (diff : List UInt8 → List UInt8 → List UInt8) (seglim : ℕ) (oldfile newfile : List UInt8) :
    Option (List UInt8) :=
  let poldfile := fileLines oldfile
  let pnewfile := fileLines newfile
  skip (segments diff seglim (poldfile.length + pnewfile.length + 1)) 0 poldfile pnewfile

/-- The lines that two files begin with. -/
def common : File → File → ℕ
  | l :: ls, m :: ms => if l = m then common ls ms + 1 else 0
  | _, _ => 0

/-- A `diff` of texts: its lines are ended texts, and they are a correct edit script. -/
structure IsDiff (diff : List UInt8 → List UInt8 → List UInt8) : Prop where
  correct : ∀ old new, old ≠ [] → new ≠ [] → 0 ∉ old → 0 ∉ new → Correct (diff old new) old new
  ended : ∀ old new, 0 ∉ old → 0 ∉ new → ∀ line ∈ fileLines (diff old new), Ended line
  text : ∀ old new, 0 ∉ old → 0 ∉ new → 0 ∉ diff old new

/-- The old lines end with a segment, or the new ones end no later than their last segment. -/
def Level (seglim old new : ℕ) : Prop :=
  seglim ∣ old ∨ new ≤ (old + seglim - 1) / seglim * seglim

/-- Output that edits what is left of the old file into what is left of the new one. -/
def Edits (out : List UInt8) (linenum : ℕ) (old new : File) : Prop :=
  ∃ hs, parse (fileLines out) = some ([], hs.map (Hunk.shift linenum)) ∧ Fits old.length 0 hs ∧
    (apply old 0 hs).flatten = new.flatten

/-- Output with a hunk that ends beyond a file. -/
def Astray (out : List UInt8) (len : ℕ) : Prop :=
  ∃ hs, parse (fileLines out) = some ([], hs) ∧ ∃ h ∈ hs, len < h.stop

theorem cstr_eq {line : List UInt8} (h : 0 ∉ line) : cstr line = line := by
  refine List.takeWhile_eq_self_iff.mpr fun c hc => ?_
  have : c ≠ 0 := fun heq => h (heq ▸ hc)
  simpa using this

theorem flatMap_cstr {fp : File} (h : ∀ line ∈ fp, 0 ∉ line) : fp.flatMap cstr = fp.flatten := by
  induction fp with
  | nil => rfl
  | cons line fp ih =>
    obtain ⟨hline, hfp⟩ := List.forall_mem_cons.mp h
    rw [List.flatMap_cons, List.flatten_cons, cstr_eq hline, ih hfp]

theorem saverest_eq (fp : File) : ∀ linenum,
    saverest linenum fp = (fp.flatMap cstr, linenum + fp.length) := by
  induction fp with
  | nil => exact fun _ => rfl
  | cons line fp ih =>
    intro linenum
    rw [saverest, ih (linenum + 1), List.length_cons, Nat.add_right_comm]
    rfl

theorem putsave_eq {fp : File} (hfile : IsFile fp) (h : ∀ line ∈ fp, 0 ∉ line) (type : UInt8) :
    putsave (fp.flatMap cstr) type = (fp.map ([type, 32] ++ ·)).flatten := by
  rw [putsave, flatMap_cstr h, fileLines_flatten fp hfile, ← List.flatMap_def]
  exact List.flatMap_congr fun line hline => by rw [cstr_eq (h line hline)]; rfl

theorem parse_some {line : List UInt8} {ls body : List (List UInt8)}
    {hs : List (Hunk (List UInt8))} (h : parse ls = some (body, hs)) :
    parse (line :: ls) =
      if isHeader line then
        (header line).map fun p => ([], Hunk.mk p.1 p.2 (added body) :: hs)
      else some (line :: body, hs) := by
  rw [parse, h]
  simp only [Option.bind_eq_bind, Option.bind_some]
  cases header line <;> rfl

theorem parse_header {line : List UInt8} (hline : isHeader line = true) {start stop : ℕ}
    (haddr : header line = some (start, stop)) {ls body : List (List UInt8)}
    {hs : List (Hunk (List UInt8))} (h : parse ls = some (body, hs)) :
    parse (line :: ls) = some ([], ⟨start, stop, added body⟩ :: hs) := by
  rw [parse_some h, if_pos hline, haddr]
  rfl

theorem parse_text {line : List UInt8} (hline : isHeader line = false)
    {ls body : List (List UInt8)} {hs : List (Hunk (List UInt8))} (h : parse ls = some (body, hs)) :
    parse (line :: ls) = some (line :: body, hs) := by
  rw [parse_some h, if_neg (by simp [hline])]

/-- What there is of a line and what follows it, if the output is one of `diff`. -/
theorem parse_cons {line : List UInt8} {ls body : List (List UInt8)}
    {hs : List (Hunk (List UInt8))} (h : parse (line :: ls) = some (body, hs)) :
    ∃ body' hs', parse ls = some (body', hs') ∧
      (isHeader line = false ∧ body = line :: body' ∧ hs = hs' ∨
        isHeader line = true ∧ body = [] ∧ ∃ start stop, header line = some (start, stop) ∧
          hs = ⟨start, stop, added body'⟩ :: hs') := by
  cases hls : parse ls with
  | none =>
    rw [parse, hls] at h
    exact absurd h (by simp)
  | some p =>
    obtain ⟨body', hs'⟩ := p
    refine ⟨body', hs', rfl, ?_⟩
    cases hline : isHeader line with
    | false =>
      rw [parse_text hline hls] at h
      obtain ⟨rfl, rfl⟩ := Prod.mk.inj (Option.some.inj h)
      exact Or.inl ⟨rfl, rfl, rfl⟩
    | true =>
      cases haddr : header line with
      | none =>
        rw [parse_some hls, if_pos hline, haddr] at h
        exact absurd h (by simp)
      | some q =>
        rw [parse_header hline haddr hls] at h
        obtain ⟨rfl, rfl⟩ := Prod.mk.inj (Option.some.inj h)
        exact Or.inr ⟨rfl, rfl, q.1, q.2, rfl, rfl⟩

theorem parse_append {ls' : List (List UInt8)} {hs' : List (Hunk (List UInt8))}
    (h' : parse ls' = some ([], hs')) {ls : List (List UInt8)} :
    ∀ {body hs}, parse ls = some (body, hs) → parse (ls ++ ls') = some (body, hs ++ hs') := by
  induction ls with
  | nil =>
    intro body hs h
    obtain ⟨rfl, rfl⟩ := Prod.mk.inj (Option.some.inj h)
    exact h'
  | cons line ls ih =>
    intro body hs h
    obtain ⟨body', hs₀, hls, hcase⟩ := parse_cons h
    rcases hcase with ⟨hline, rfl, rfl⟩ | ⟨hline, rfl, start, stop, haddr, rfl⟩
    · exact parse_text hline (ih hls)
    · exact parse_header hline haddr (ih hls)

/-- The output of `diff` with its line numbers moved. -/
theorem printdiff_eq (linenum : ℕ) {ls : File} (hended : ∀ l ∈ ls, Ended l)
    (hnul : ∀ l ∈ ls, 0 ∉ l) : ∀ {body hs}, parse ls = some (body, hs) →
      ∃ ls', printdiff linenum ls = some ls'.flatten ∧ (∀ l ∈ ls', Ended l) ∧
        parse ls' = some (body, hs.map (Hunk.shift linenum)) := by
  induction ls with
  | nil =>
    intro body hs h
    obtain ⟨rfl, rfl⟩ := Prod.mk.inj (Option.some.inj h)
    exact ⟨[], rfl, fun _ h => absurd h List.not_mem_nil, rfl⟩
  | cons line ls ih =>
    intro body hs h
    obtain ⟨hended1, hended⟩ := List.forall_mem_cons.mp hended
    obtain ⟨hnul1, hnul⟩ := List.forall_mem_cons.mp hnul
    obtain ⟨body', hs', hls, hcase⟩ := parse_cons h
    obtain ⟨ls', hprint, hended', hparse⟩ := ih hended hnul hls
    rcases hcase with ⟨hline, rfl, rfl⟩ | ⟨hline, rfl, start, stop, haddr, rfl⟩
    · refine ⟨line :: ls', ?_, List.forall_mem_cons.mpr ⟨hended1, hended'⟩, parse_text hline hparse⟩
      rw [printdiff, hprint, if_neg (by simp [hline]), cstr_eq hnul1]
      rfl
    · obtain ⟨line', hfix, hended2, hline', haddr'⟩ := fixnum_header linenum haddr
      refine ⟨line' :: ls', ?_, List.forall_mem_cons.mpr ⟨hended2, hended'⟩,
        parse_header hline' haddr' hparse⟩
      rw [printdiff, hprint, if_pos hline, hfix]
      rfl

theorem parse_body {ls : List (List UInt8)} (h : ∀ l ∈ ls, isHeader l = false) :
    parse ls = some (ls, []) := by
  induction ls with
  | nil => rfl
  | cons line ls ih =>
    obtain ⟨hline, hls⟩ := List.forall_mem_cons.mp h
    exact parse_text hline (ih hls)

theorem added_new (fp : File) : added (fp.map ([62, 32] ++ ·)) = fp := by
  induction fp with
  | nil => rfl
  | cons line fp ih =>
    rw [List.map_cons]
    change (if _ then line.dropLast else line) :: added (fp.map ([62, 32] ++ ·)) = _
    rw [ih, if_neg]
    cases fp with
    | nil => simp
    | cons line' fp => simp

theorem added_old (fp : File) : added (fp.map ([60, 32] ++ ·)) = [] := by
  induction fp with
  | nil => rfl
  | cons line fp ih => exact ih

/-- A hunk of its own: a header and marked lines. -/
theorem parse_hunk {type : UInt8} (htype : isDigit type = false ∧ type ≠ 10) {head : List UInt8}
    {start stop : ℕ} (hended : Ended head) (hhead : isHeader head = true)
    (haddr : header head = some (start, stop)) {fp : File} (hfile : IsFile fp) :
    parse (fileLines (head ++ (fp.map ([type, 32] ++ ·)).flatten)) =
      some ([], [⟨start, stop, added (fp.map ([type, 32] ++ ·))⟩]) := by
  have hmark : (10 : UInt8) ∉ [type, 32] := by
    intro h
    rcases List.mem_cons.mp h with h | h
    · exact htype.2 h.symm
    · exact absurd h (by decide)
  have hlines := fileLines_append (List.forall_mem_singleton.mpr hended)
    (fp.map ([type, 32] ++ ·)).flatten
  rw [List.flatten_singleton, fileLines_flatten _ (hfile.mark hmark)] at hlines
  rw [hlines]
  refine parse_header hhead haddr (parse_body fun l hl => ?_)
  obtain ⟨line, -, rfl⟩ := List.mem_map.mp hl
  exact htype.1

/-- `addgen` adds the rest of the new file after line `linenum`. -/
theorem addgen_eq (linenum : ℕ) {fp : File} (hfile : IsFile fp) (hnul : ∀ line ∈ fp, 0 ∉ line) :
    parse (fileLines (addgen linenum fp)) = some ([], [⟨linenum, linenum, fp⟩]) := by
  have hhead : ∀ {text : List UInt8} {n m : ℕ}, Reads text n m →
      parse (fileLines (decimal linenum ++ 97 :: (text ++ [10]) ++ putsave (fp.flatMap cstr) 62)) =
        some ([], [⟨linenum, linenum, fp⟩]) := by
    intro text n m htext
    obtain ⟨hended, hhead, haddr⟩ := @header_text _ _ _ _ _ _ linenum linenum 97
      (reads_decimal linenum) htext (Or.inl ⟨rfl, rfl, rfl, rfl⟩)
    rw [putsave_eq hfile hnul, parse_hunk (by decide) hended hhead haddr hfile, added_new]
  rw [addgen, saverest_eq]
  dsimp only
  split_ifs
  · rw [← hhead (reads_comma (linenum + 1) (linenum + fp.length))]
    simp only [List.append_assoc, List.cons_append]
  · rw [← hhead (reads_decimal (linenum + 1))]
    simp only [List.append_assoc, List.cons_append]

/-- `delgen` takes the rest of the old file away. -/
theorem delgen_eq (linenum : ℕ) {fp : File} (hfile : IsFile fp) (hnul : ∀ line ∈ fp, 0 ∉ line) :
    parse (fileLines (delgen linenum fp)) = some ([], [⟨linenum, linenum + fp.length, []⟩]) := by
  have hhead : ∀ {text : List UInt8}, Reads text (linenum + 1) (linenum + fp.length) →
      parse (fileLines (text ++ 100 :: (decimal linenum ++ [10]) ++
        putsave (fp.flatMap cstr) 60)) = some ([], [⟨linenum, linenum + fp.length, []⟩]) := by
    intro text htext
    obtain ⟨hended, hhead, haddr⟩ := @header_text _ _ _ _ _ _ linenum (linenum + fp.length) 100
      htext (reads_decimal linenum) (Or.inr ⟨Or.inr rfl, Nat.le_add_left .., rfl, rfl⟩)
    rw [putsave_eq hfile hnul, parse_hunk (by decide) hended hhead haddr hfile, added_old]
  rw [delgen, saverest_eq]
  dsimp only
  split_ifs with hlen
  · rw [← hhead (reads_comma (linenum + 1) (linenum + fp.length))]
    simp only [List.append_assoc, List.cons_append]
  · have hone := reads_decimal (linenum + 1)
    rw [not_not] at hlen
    rw [← @hhead (decimal (linenum + 1)) (hlen ▸ hone)]
    simp only [List.append_assoc, List.cons_append]

theorem script_some {out : List UInt8} {hs : List (Hunk (List UInt8))} :
    script out = some hs ↔ parse (fileLines out) = some ([], hs) := by
  rw [script]
  split
  · rename_i hs' h
    rw [h, Option.some.injEq, Option.some.injEq, Prod.mk.injEq, and_iff_right rfl]
  · rename_i hne
    refine iff_of_false (by simp) fun h => hne hs h

theorem level_step {seglim : ℕ} (hseg : 0 < seglim) {old : ℕ} (new : ℕ) (h : seglim ≤ old) :
    Level seglim (old - seglim) (new - seglim) ↔ Level seglim old new := by
  obtain ⟨k, rfl⟩ := Nat.exists_eq_add_of_le h
  have hdiv : (seglim + k + seglim - 1) / seglim = (k + seglim - 1) / seglim + 1 := by
    rw [← Nat.add_div_right _ hseg]
    exact congrArg (· / seglim) (by omega)
  rw [Level, Level, Nat.add_sub_cancel_left, hdiv, Nat.add_mul, Nat.one_mul,
    Nat.dvd_add_right (dvd_refl seglim), Nat.sub_le_iff_le_add]

theorem level_last {seglim old : ℕ} (new : ℕ) (hpos : 0 < old) (h : old < seglim) :
    Level seglim old new ↔ new ≤ seglim := by
  have hdiv : (old + seglim - 1) / seglim = 1 :=
    Nat.div_eq_of_lt_le (by omega) (by omega)
  rw [Level, hdiv, Nat.one_mul, or_iff_right (Nat.not_dvd_of_pos_of_lt hpos h)]

theorem take_ne_nil {seglim : ℕ} (hseg : 0 < seglim) (line : List UInt8) (fp : File) :
    (line :: fp).take seglim ≠ [] := by
  rw [Ne, List.take_eq_nil_iff, not_or]
  exact ⟨Nat.pos_iff_ne_zero.mp hseg, List.cons_ne_nil line fp⟩

/-- Output for the first lines goes before output for the rest. -/
theorem Edits.append {linenum : ℕ} {old new : File} {rest : List UInt8} {old' new' : File}
    (h : Edits rest (linenum + old.length) old' new') {ls : List (List UInt8)}
    (hended : ∀ l ∈ ls, Ended l) {hs : List (Hunk (List UInt8))}
    (hparse : parse ls = some ([], hs.map (Hunk.shift linenum))) (hfits : Fits old.length 0 hs)
    (happly : (apply old 0 hs).flatten = new.flatten) :
    Edits (ls.flatten ++ rest) linenum (old ++ old') (new ++ new') := by
  obtain ⟨hs', hparse', hfits', happly'⟩ := h
  refine ⟨hs ++ hs'.map (Hunk.shift old.length), ?_, ?_, ?_⟩
  · have hshift : Hunk.shift linenum ∘ Hunk.shift old.length =
        Hunk.shift (α := List UInt8) (linenum + old.length) := by
      funext a
      simp only [Function.comp_apply, Hunk.shift, Nat.add_assoc]
    rw [fileLines_append hended, parse_append hparse' hparse, List.map_append, List.map_map, hshift]
  · rw [List.length_append]
    exact fits_append ((fits_shift hs' 0).mpr hfits') hfits
  · rw [apply_append hfits, List.flatten_append, happly, happly', List.flatten_append]

theorem Astray.append {rest : List UInt8} {len : ℕ} (h : Astray rest len)
    {ls : List (List UInt8)} (hended : ∀ l ∈ ls, Ended l) {hs : List (Hunk (List UInt8))}
    (hparse : parse ls = some ([], hs)) : Astray (ls.flatten ++ rest) len := by
  obtain ⟨hs', hparse', a, ha, hlen⟩ := h
  refine ⟨hs ++ hs', ?_, a, List.mem_append_right _ ha, hlen⟩
  rw [fileLines_append hended, parse_append hparse' hparse]

section
variable {diff : List UInt8 → List UInt8 → List UInt8} (hdiff : IsDiff diff)

include hdiff in
/-- One pair of segments. -/
theorem segment_eq (linenum : ℕ) {old new : File} (hold : old ≠ []) (hnew : new ≠ [])
    (hfo : IsFile old) (hfn : IsFile new) (hno : ∀ l ∈ old, 0 ∉ l) (hnn : ∀ l ∈ new, 0 ∉ l) :
    ∃ ls hs, printdiff linenum (fileLines (diff (maket old) (maket new))) = some ls.flatten ∧
      (∀ l ∈ ls, Ended l) ∧ parse ls = some ([], hs.map (Hunk.shift linenum)) ∧
      Fits old.length 0 hs ∧ (apply old 0 hs).flatten = new.flatten := by
  have htext : ∀ {fp : File}, (∀ l ∈ fp, 0 ∉ l) → 0 ∉ fp.flatten := by
    intro fp h hmem
    obtain ⟨l, hl, hzero⟩ := List.mem_flatten.mp hmem
    exact h l hl hzero
  have hne : ∀ {fp : File}, IsFile fp → fp ≠ [] → fp.flatten ≠ [] := by
    intro fp hfile hfp h
    have hlines := fileLines_flatten fp hfile
    rw [h] at hlines
    exact hfp hlines.symm
  rw [maket, maket, flatMap_cstr hno, flatMap_cstr hnn]
  obtain ⟨hs, hscript, hfits, happly⟩ := hdiff.correct old.flatten new.flatten (hne hfo hold)
    (hne hfn hnew) (htext hno) (htext hnn)
  rw [fileLines_flatten old hfo] at hfits happly
  have hended := hdiff.ended old.flatten new.flatten (htext hno) (htext hnn)
  have hnul : ∀ l ∈ fileLines (diff old.flatten new.flatten), 0 ∉ l := by
    intro l hl hzero
    refine hdiff.text old.flatten new.flatten (htext hno) (htext hnn) ?_
    rw [← flatten_fileLines (diff old.flatten new.flatten)]
    exact List.mem_flatten.mpr ⟨l, hl, hzero⟩
  obtain ⟨ls, hprint, hls, hparse⟩ := printdiff_eq linenum hended hnul (script_some.mp hscript)
  exact ⟨ls, hs, hprint, hls, hparse, hfits, happly⟩

include hdiff in
/-- What is left is edited if the files end on a level, and else a hunk is beyond the old file. -/
theorem segments_spec {seglim : ℕ} (hseg : 0 < seglim) (fuel : ℕ) : ∀ linenum (old new : File),
    old.length + new.length < fuel → IsFile old → IsFile new → (∀ l ∈ old, 0 ∉ l) →
    (∀ l ∈ new, 0 ∉ l) → ∃ out, segments diff seglim fuel linenum old new = some out ∧
      (Level seglim old.length new.length → Edits out linenum old new) ∧
      (¬ Level seglim old.length new.length → Astray out (linenum + old.length)) := by
  induction fuel with
  | zero => exact fun _ _ _ h => absurd h (Nat.not_lt_zero _)
  | succ fuel ih =>
    intro linenum old new hfuel hfo hfn hno hnn
    cases old with
    | nil =>
      have hlevel : Level seglim 0 new.length := Or.inl (dvd_zero seglim)
      cases new with
      | nil => exact ⟨[], rfl, fun _ => ⟨[], rfl, Nat.le_refl 0, rfl⟩, fun h => absurd hlevel h⟩
      | cons n new =>
        refine ⟨_, rfl, fun _ => ⟨[⟨0, 0, n :: new⟩], ?_, ?_, ?_⟩, fun h => absurd hlevel h⟩
        · exact addgen_eq linenum hfn hnn
        · exact ⟨Nat.le_refl 0, Nat.le_refl 0, Nat.le_refl 0⟩
        · simp [apply]
    | cons o old =>
      cases new with
      | nil =>
        refine ⟨_, rfl, fun _ => ⟨[⟨0, (o :: old).length, []⟩], ?_, ?_, ?_⟩, fun h => absurd ?_ h⟩
        · exact delgen_eq linenum hfo hno
        · exact ⟨Nat.le_refl 0, Nat.zero_le _, Nat.le_refl _⟩
        · simp [apply]
        · exact Or.inr (Nat.zero_le _)
      | cons n new =>
        obtain ⟨ls, hs, hprint, hended, hparse, hfits, happly⟩ := segment_eq hdiff linenum
          (take_ne_nil hseg o old) (take_ne_nil hseg n new) (hfo.take seglim) (hfn.take seglim)
          (fun l hl => hno l (List.mem_of_mem_take hl)) fun l hl => hnn l (List.mem_of_mem_take hl)
        have hout : ∀ {rest}, segments diff seglim fuel (linenum + seglim)
            ((o :: old).drop seglim) ((n :: new).drop seglim) = some rest →
            segments diff seglim (fuel + 1) linenum (o :: old) (n :: new) =
              some (ls.flatten ++ rest) := by
          intro rest hrest
          rw [segments, hprint, hrest]
          rfl
        have hlen : (o :: old).length + (n :: new).length < fuel + 1 := hfuel
        have hpos : 0 < (o :: old).length := Nat.succ_pos _
        have hnpos : 0 < (n :: new).length := Nat.succ_pos _
        generalize o :: old = old at *
        generalize n :: new = new at *
        by_cases hfull : seglim ≤ old.length
        · -- a whole segment of the old file
          have htake : (old.take seglim).length = seglim := List.length_take_of_le hfull
          obtain ⟨rest, hrest, hedits, hastray⟩ := ih (linenum + seglim) (old.drop seglim)
            (new.drop seglim) (by rw [List.length_drop, List.length_drop]; omega)
            (hfo.drop seglim) (hfn.drop seglim) (fun l hl => hno l (List.mem_of_mem_drop hl))
            fun l hl => hnn l (List.mem_of_mem_drop hl)
          rw [List.length_drop, List.length_drop, level_step hseg _ hfull] at hedits hastray
          refine ⟨_, hout hrest, fun h => ?_, fun h => ?_⟩
          · have hedits : Edits rest (linenum + (old.take seglim).length) (old.drop seglim)
                (new.drop seglim) := by
              rw [htake]
              exact hedits h
            have happend := hedits.append hended hparse hfits happly
            rwa [List.take_append_drop, List.take_append_drop] at happend
          · have hastray := hastray h
            rw [show linenum + seglim + (old.length - seglim) = linenum + old.length by omega]
              at hastray
            exact hastray.append hended hparse
        · have hdrop : old.drop seglim = [] := List.drop_of_length_le (by omega)
          have htake : old.take seglim = old := List.take_of_length_le (by omega)
          have hlevel := level_last new.length hpos (Nat.lt_of_not_le hfull)
          rw [hdrop] at hout
          rw [htake] at hfits happly
          obtain ⟨fuel, rfl⟩ : ∃ k, fuel = k + 1 := ⟨fuel - 1, by omega⟩
          by_cases hnew : new.length ≤ seglim
          · rw [List.drop_of_length_le hnew] at hout
            rw [List.take_of_length_le hnew] at happly
            refine ⟨_, hout rfl, fun _ => ⟨hs, ?_, hfits, happly⟩, fun h => absurd (hlevel.mpr hnew) h⟩
            rw [fileLines_append hended, fileLines, List.append_nil, hparse]
          · -- more of the new file after the last lines of the old one
            obtain ⟨n, rest, hrest⟩ := List.exists_cons_of_ne_nil fun h =>
              hnew (List.drop_eq_nil_iff.mp h)
            have hparse' := addgen_eq (linenum + seglim) (hfn.drop seglim)
              fun l hl => hnn l (List.mem_of_mem_drop hl)
            rw [hrest] at hout hparse'
            refine ⟨_, hout rfl, fun h => absurd (hlevel.mp h) hnew, fun _ => ?_⟩
            refine Astray.append ⟨_, hparse', _, List.mem_cons_self, ?_⟩ hended hparse
            exact Nat.add_lt_add_left (Nat.lt_of_not_le hfull) linenum
end

/-- The first loop comes to the second one after the common lines. -/
theorem skip_eq (diff : List UInt8 → List UInt8 → List UInt8) (seglim fuel : ℕ) (old : File) :
    ∀ linenum (new : File), (∀ l ∈ old, 0 ∉ l) → (∀ l ∈ new, 0 ∉ l) →
      skip (segments diff seglim (fuel + 1)) linenum old new =
        segments diff seglim (fuel + 1) (linenum + common old new) (old.drop (common old new))
          (new.drop (common old new)) := by
  induction old with
  | nil =>
    intro linenum new _ _
    cases new with
    | nil => rfl
    | cons n new => rfl
  | cons o old ih =>
    intro linenum new hno hnn
    cases new with
    | nil => rfl
    | cons n new =>
      obtain ⟨ho, hno⟩ := List.forall_mem_cons.mp hno
      obtain ⟨hn, hnn⟩ := List.forall_mem_cons.mp hnn
      rw [skip, common, cstr_eq ho, cstr_eq hn]
      split_ifs with heq
      · rw [ih (linenum + 1) new hno hnn, Nat.add_assoc, Nat.add_comm 1, List.drop_succ_cons,
          List.drop_succ_cons]
      · rfl

theorem common_spec (old : File) : ∀ new : File, old.take (common old new) = new.take (common old new) ∧
    common old new ≤ old.length := by
  induction old with
  | nil =>
    intro new
    cases new with
    | nil => exact ⟨rfl, Nat.zero_le _⟩
    | cons n new => exact ⟨rfl, Nat.zero_le _⟩
  | cons o old ih =>
    intro new
    cases new with
    | nil => exact ⟨rfl, Nat.zero_le _⟩
    | cons n new =>
      rw [common]
      split_ifs with heq
      · rw [List.take_succ_cons, List.take_succ_cons, (ih new).1, heq]
        exact ⟨rfl, Nat.succ_le_succ (ih new).2⟩
      · exact ⟨rfl, Nat.zero_le _⟩

/-- Do the files end on a level after their common lines? -/
def FilesLevel (seglim : ℕ) (oldfile newfile : List UInt8) : Prop :=
  let k := common (fileLines oldfile) (fileLines newfile)
  Level seglim ((fileLines oldfile).length - k) ((fileLines newfile).length - k)

theorem not_mem_fileLines {input : List UInt8} (h : 0 ∉ input) : ∀ l ∈ fileLines input, 0 ∉ l := by
  intro l hl hmem
  rw [← flatten_fileLines input] at h
  exact h (List.mem_flatten.mpr ⟨l, hl, hmem⟩)

/-- Common lines stay as they are. -/
theorem correct_of_edits {out oldfile newfile : List UInt8} {k : ℕ}
    (hk : k ≤ (fileLines oldfile).length)
    (hcommon : (fileLines oldfile).take k = (fileLines newfile).take k)
    (h : Edits out k ((fileLines oldfile).drop k) ((fileLines newfile).drop k)) :
    Correct out oldfile newfile := by
  obtain ⟨hs, hparse, hfits, happly⟩ := h
  have htake : ((fileLines oldfile).take k).length = k := List.length_take_of_le hk
  refine ⟨_, script_some.mpr hparse, ?_, ?_⟩
  · have hshift := (fits_shift (k := k) hs 0).mpr hfits
    rw [List.length_drop, Nat.add_sub_cancel' hk] at hshift
    exact hshift.mono (Nat.zero_le _)
  · have happend := @apply_append _ ((fileLines oldfile).take k) ((fileLines oldfile).drop k) hs []
      0 (Nat.zero_le _)
    rw [List.take_append_drop, htake] at happend
    rw [List.nil_append] at happend
    rw [happend, List.flatten_append, happly, apply, List.drop_zero, hcommon,
      ← List.flatten_append, List.take_append_drop, flatten_fileLines]

/-- There is always output, and it is a correct edit script exactly if the files end on a level. -/
theorem main_spec {diff : List UInt8 → List UInt8 → List UInt8} (hdiff : IsDiff diff)
    {seglim : ℕ} (hseg : 0 < seglim) {oldfile newfile : List UInt8} (ho : 0 ∉ oldfile)
    (hn : 0 ∉ newfile) :
    ∃ out, main diff seglim oldfile newfile = some out ∧
      (Correct out oldfile newfile ↔ FilesLevel seglim oldfile newfile) := by
  have hno := not_mem_fileLines ho
  have hnn := not_mem_fileLines hn
  obtain ⟨htake, hk⟩ := common_spec (fileLines oldfile) (fileLines newfile)
  have hskip := skip_eq diff seglim ((fileLines oldfile).length + (fileLines newfile).length)
    (fileLines oldfile) 0 (fileLines newfile) hno hnn
  rw [Nat.zero_add] at hskip
  obtain ⟨out, hout, hedits, hastray⟩ := segments_spec hdiff hseg
    ((fileLines oldfile).length + (fileLines newfile).length + 1)
    (common (fileLines oldfile) (fileLines newfile)) _ _
    (by rw [List.length_drop, List.length_drop]; omega)
    ((isFile_fileLines oldfile).drop (common (fileLines oldfile) (fileLines newfile)))
    ((isFile_fileLines newfile).drop (common (fileLines oldfile) (fileLines newfile)))
    (fun l hl => hno l (List.mem_of_mem_drop hl)) fun l hl => hnn l (List.mem_of_mem_drop hl)
  rw [List.length_drop, List.length_drop] at hedits hastray
  rw [Nat.add_sub_cancel' hk] at hastray
  refine ⟨out, hskip.trans hout, fun h => ?_, fun h => correct_of_edits hk htake (hedits h)⟩
  by_contra hlevel
  obtain ⟨hs, hscript, hfits, -⟩ := h
  obtain ⟨hs', hparse, a, ha, hlen⟩ := hastray hlevel
  rw [script_some, hparse, Option.some.injEq, Prod.mk.injEq] at hscript
  obtain ⟨-, rfl⟩ := hscript
  exact absurd (hfits.stop_le a ha) (Nat.not_le_of_lt hlen)

end Unitas.Bdiff
