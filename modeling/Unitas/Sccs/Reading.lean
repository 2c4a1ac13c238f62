import Unitas.Lib.Hoare
import Unitas.Lib.Lines
import Unitas.Sccs.Packet
import Mathlib.Data.List.TakeWhile

/-! The lines that `getline` takes from a file, and what it does with the line before. -/
namespace Unitas.Sccs
open Unitas.Decimal Unitas.Hoare Unitas.Lines

theorem charSum_append (a b : Line) : charSum (a ++ b) = charSum a + charSum b := by
  rw [charSum, List.map_append, List.sum_append]
  rfl

theorem ucharSum_append (a b : Line) : ucharSum (a ++ b) = ucharSum a + ucharSum b := by
  rw [ucharSum, List.map_append, List.sum_append]
  rfl

theorem not_mem_cstr (p : Line) : 0 ∉ cstr p := fun h => by
  simpa using List.mem_takeWhile_imp h

theorem cstr_eq_self {p : Line} (h : 0 ∉ p) : cstr p = p := by
  rw [cstr, List.takeWhile_eq_self_iff]
  intro c hc
  have hne : c ≠ 0 := fun h0 => h (h0 ▸ hc)
  simpa using hne

theorem fgets_append (n : ℕ) (file : Line) : (fgets n file).1 ++ (fgets n file).2 = file := by
  induction n generalizing file with
  | zero => rfl
  | succ n ih =>
    cases file with
    | nil => rfl
    | cons c file =>
      unfold fgets
      split_ifs
      · rfl
      · exact congrArg (c :: ·) (ih file)

theorem fgets_ne_nil (n : ℕ) {file : Line} (h : file ≠ []) : (fgets (n + 1) file).1 ≠ [] := by
  cases file with
  | nil => exact absurd rfl h
  | cons c file =>
    unfold fgets
    split_ifs
    · exact List.cons_ne_nil _ _
    · exact List.cons_ne_nil _ _

theorem length_fgets_lt (n : ℕ) {file : Line} (h : file ≠ []) :
    (fgets (n + 1) file).2.length < file.length := by
  have hlen := congrArg List.length (fgets_append (n + 1) file)
  have hpos := List.length_pos_of_ne_nil (fgets_ne_nil n h)
  rw [List.length_append] at hlen
  omega

/-- A newline is only at the end of what `fgets` takes. -/
theorem fgets_ended (n : ℕ) (file : Line) :
    Ended (cstr (fgets n file).1) ∨ 10 ∉ cstr (fgets n file).1 := by
  induction n generalizing file with
  | zero => exact Or.inr List.not_mem_nil
  | succ n ih =>
    cases file with
    | nil => exact Or.inr List.not_mem_nil
    | cons c file =>
      unfold fgets
      split_ifs with hc
      · exact Or.inl ⟨[], List.not_mem_nil, by rw [hc]; rfl⟩
      · by_cases h0 : c = 0
        · exact Or.inr (by simp [cstr, h0])
        · have hcons : cstr (c :: (fgets n file).1) = c :: cstr (fgets n file).1 := by
            rw [cstr, List.takeWhile_cons_of_pos (by simpa using h0), cstr]
          have hnot : ∀ {text : Line}, 10 ∉ text → 10 ∉ c :: text := fun h hmem =>
            (List.mem_cons.mp hmem).elim (fun h' => hc h'.symm) h
          refine hcons ▸ (ih file).imp ?_ hnot
          rintro ⟨text, htext, h⟩
          exact ⟨c :: text, hnot htext, by rw [h]; rfl⟩

/-- Each line is the end of the file or ends where a newline is. -/
theorem readLine_ended {fuel : ℕ} {p file : Line} (hp : 10 ∉ p) (hfuel : file.length ≤ fuel) :
    Ended (readLine fuel p file).1 ∨
      (readLine fuel p file).2 = [] ∧ 10 ∉ (readLine fuel p file).1 := by
  induction fuel generalizing p file with
  | zero => exact Or.inr ⟨List.length_eq_zero_iff.mp (Nat.le_zero.mp hfuel), hp⟩
  | succ fuel ih =>
    unfold readLine
    by_cases hfile : file = []
    · rw [if_pos hfile]
      exact Or.inr ⟨rfl, hp⟩
    · rw [if_neg hfile]
      have hlt : (fgets (DEF_LINE_SIZE - 1) file).2.length < file.length := length_fgets_lt 126 hfile
      rcases fgets_ended (DEF_LINE_SIZE - 1) file with ⟨text, htext, h⟩ | h
      · dsimp only
        rw [h, if_pos (by rw [← List.append_assoc, List.getLast?_concat])]
        exact Or.inl ⟨p ++ text, fun hmem => (List.mem_append.mp hmem).elim hp htext,
          (List.append_assoc ..).symm⟩
      · have hnot : 10 ∉ p ++ cstr (fgets (DEF_LINE_SIZE - 1) file).1 := fun hmem =>
          (List.mem_append.mp hmem).elim hp h
        dsimp only
        rw [if_neg fun hlast => hnot (List.mem_of_getLast? hlast)]
        exact ih hnot (by omega)

/-- Nothing is lost of a file without null bytes. -/
theorem readLine_append {fuel : ℕ} {p file : Line} (h : 0 ∉ file) :
    (readLine fuel p file).1 ++ (readLine fuel p file).2 = p ++ file ∧
      0 ∉ (readLine fuel p file).2 := by
  induction fuel generalizing p file with
  | zero => exact ⟨rfl, h⟩
  | succ fuel ih =>
    unfold readLine
    by_cases hfile : file = []
    · rw [if_pos hfile, hfile]
      exact ⟨rfl, List.not_mem_nil⟩
    · rw [if_neg hfile]
      have happ := fgets_append (DEF_LINE_SIZE - 1) file
      generalize fgets (DEF_LINE_SIZE - 1) file = r at happ ⊢
      obtain ⟨buf, rest⟩ := r
      subst happ
      rw [List.mem_append, not_or] at h
      dsimp only
      rw [cstr_eq_self h.1, ← List.append_assoc]
      split_ifs
      · exact ⟨rfl, h.2⟩
      · exact ih h.2

theorem length_readLine_lt {fuel : ℕ} {p file : Line} (h : file ≠ []) (hfuel : fuel ≠ 0) :
    (readLine fuel p file).2.length < file.length := by
  induction fuel generalizing p file with
  | zero => exact absurd rfl hfuel
  | succ fuel ih =>
    unfold readLine
    rw [if_neg h]
    have hlt : (fgets (DEF_LINE_SIZE - 1) file).2.length < file.length := length_fgets_lt 126 h
    dsimp only
    split_ifs
    · exact hlt
    · cases fuel with
      | zero => exact hlt
      | succ fuel =>
        by_cases hrest : (fgets (DEF_LINE_SIZE - 1) file).2 = []
        · rw [hrest, readLine, if_pos rfl]
          exact List.length_pos_of_ne_nil h
        · exact (ih hrest (Nat.succ_ne_zero fuel)).trans hlt

theorem not_mem_readLine {fuel : ℕ} {p file : Line} (hp : 0 ∉ p) :
    0 ∉ (readLine fuel p file).1 := by
  induction fuel generalizing p file with
  | zero => exact hp
  | succ fuel ih =>
    unfold readLine
    have hbuf : 0 ∉ p ++ cstr (fgets (DEF_LINE_SIZE - 1) file).1 := fun hmem =>
      (List.mem_append.mp hmem).elim hp (not_mem_cstr _)
    dsimp only
    split_ifs
    · exact hp
    · exact hbuf
    · exact ih hbuf

theorem not_mem_readLinesFrom {fuel : ℕ} {file : Line} : ∀ l ∈ readLinesFrom fuel file, 0 ∉ l := by
  induction fuel generalizing file with
  | zero => exact fun _ h => absurd h List.not_mem_nil
  | succ fuel ih =>
    unfold readLinesFrom
    dsimp only
    split_ifs
    · exact fun _ h => absurd h List.not_mem_nil
    · exact List.forall_mem_cons.mpr ⟨not_mem_readLine List.not_mem_nil, ih⟩

/-- No line of a file has a null byte. -/
theorem not_mem_readLines {file l : Line} (h : l ∈ readLines file) : 0 ∉ l :=
  not_mem_readLinesFrom l h

theorem readLinesFrom_nil (fuel : ℕ) : readLinesFrom fuel [] = [] := by
  cases fuel with
  | zero => rfl
  | succ fuel => rfl

theorem isFile_readLinesFrom {fuel : ℕ} {file : Line} (hfuel : file.length ≤ fuel) :
    IsFile (readLinesFrom fuel file) := by
  induction fuel generalizing file with
  | zero => trivial
  | succ fuel ih =>
    unfold readLinesFrom
    by_cases hfile : file = []
    · subst hfile
      trivial
    · have hended := readLine_ended (p := []) List.not_mem_nil (Nat.le_refl file.length)
      have hlt := length_readLine_lt (p := []) hfile (mt List.length_eq_zero_iff.mp hfile)
      dsimp only
      split_ifs with hnil
      · trivial
      · refine ⟨hended.imp_right fun h => ⟨?_, hnil, h.2⟩, ih (by omega)⟩
        rw [h.1, readLinesFrom_nil]

theorem isFile_readLines (file : Line) : IsFile (readLines file) :=
  isFile_readLinesFrom (Nat.le_refl _)

theorem flatten_readLinesFrom {fuel : ℕ} {file : Line} (h : 0 ∉ file)
    (hfuel : file.length ≤ fuel) : (readLinesFrom fuel file).flatten = file := by
  induction fuel generalizing file with
  | zero => exact (List.length_eq_zero_iff.mp (Nat.le_zero.mp hfuel)).symm
  | succ fuel ih =>
    by_cases hfile : file = []
    · rw [hfile, readLinesFrom_nil]
      rfl
    · unfold readLinesFrom
      obtain ⟨happ, hrest⟩ := @readLine_append file.length [] file h
      have hlt := length_readLine_lt (p := []) hfile (mt List.length_eq_zero_iff.mp hfile)
      dsimp only
      split_ifs with hnil
      · rw [hnil, List.nil_append, List.nil_append] at happ
        rw [happ] at hlt
        exact absurd hlt (Nat.lt_irrefl _)
      · rw [List.flatten_cons, ih hrest (by omega), happ]
        rfl

/-- The lines of a file without null bytes are the ones between its newlines. -/
theorem readLines_eq {file : Line} (h : 0 ∉ file) : readLines file = fileLines file := by
  rw [← fileLines_flatten _ (isFile_readLines file), readLines,
    flatten_readLinesFrom h (Nat.le_refl _)]

theorem length_readLinesFrom (fuel : ℕ) (file : Line) :
    (readLinesFrom fuel file).length ≤ fuel := by
  induction fuel generalizing file with
  | zero => exact Nat.le_refl 0
  | succ fuel ih =>
    unfold readLinesFrom
    dsimp only
    split_ifs
    · exact Nat.zero_le _
    · exact Nat.succ_le_succ (ih _)

/-- The line before is written, if it has not been. -/
def flushed (pkt : Packet) : Packet :=
  if pkt.p_upd = true ∧ pkt.p_wrttn = false then put { pkt with p_wrttn := true } pkt.p_line else pkt

theorem flushed_of_upd {pkt : Packet} (h : pkt.p_upd = false) : flushed pkt = pkt :=
  if_neg fun hu => by simp [h] at hu

/-- A line is taken from the file. -/
def nextLine (pkt : Packet) (line : Line) (p_iop : List Line) : Packet :=
  { pkt with
    p_iop := some p_iop, p_line := line, p_wrttn := false
    p_chash := pkt.p_chash + charSum line, p_uchash := pkt.p_uchash + ucharSum line }

/-- The sum of the lines is neither of the two that the first line may have. -/
def Corrupted (pkt : Packet) : Prop :=
  pkt.do_chksum = true ∧ (pkt.p_chash - pkt.p_ihash) % 65536 ≠ 0 ∧
    (pkt.p_uchash - pkt.p_ihash) % 65536 ≠ 0

instance (pkt : Packet) : Decidable (Corrupted pkt) := by
  unfold Corrupted
  exact inferInstance

theorem getlineEof_eq {pkt : Packet} (hreopen : pkt.p_reopen = false) : getlineEof pkt =
    if pkt.p_chkeof = false ∨ Corrupted pkt then none
    else some ((), { pkt with p_iop := none }) := by
  change Option.bind ((fatalIf (pkt.p_chkeof = false) : M Unit) pkt) _ = _
  unfold fatalIf doIf
  by_cases hchk : pkt.p_chkeof = false
  · rw [if_pos hchk, if_pos (Or.inl hchk)]
    rfl
  · rw [if_neg hchk]
    change Option.bind ((fatalIf (Corrupted pkt) : M Unit) pkt) _ = _
    unfold fatalIf doIf
    by_cases hbad : Corrupted pkt
    · rw [if_pos hbad, if_pos (Or.inr hbad)]
      rfl
    · rw [if_neg hbad, if_neg fun h => h.elim hchk hbad]
      change some ((), _) = _
      simp only [hreopen]
      rfl

theorem getline_eq (pkt : Packet) : getline pkt =
    match pkt.p_iop with
    | none => none
    | some [] => (getlineEof (flushed pkt)).map fun r => (none, r.2)
    | some (line :: p_iop) => some (some line, nextLine (flushed pkt) line p_iop) := by
  have hdoIf : (doIf (pkt.p_wrttn = false) (putline none) : M Unit) pkt = some ((), flushed pkt) := by
    unfold doIf flushed
    by_cases hw : pkt.p_wrttn = false
    · rw [if_pos hw]
      by_cases hu : pkt.p_upd = true
      · rw [if_pos ⟨hu, hw⟩]
        change some ((), _) = _
        simp only [hu, hw]
        rfl
      · rw [if_neg fun h => hu h.1]
        change some ((), _) = _
        simp only [hu]
        rfl
    · rw [if_neg hw, if_neg fun h => hw h.2]
      rfl
  have hiop : (flushed pkt).p_iop = pkt.p_iop := by
    unfold flushed
    split_ifs
    · rfl
    · rfl
  change Option.bind ((doIf (pkt.p_wrttn = false) (putline none) : M Unit) pkt) _ = _
  rw [hdoIf, Option.bind_some]
  change (match (flushed pkt).p_iop with
    | none => fatal
    | some [] => do
      getlineEof
      return none
    | some (line :: p_iop) => do
      modify fun pkt => nextLine pkt line p_iop
      return some line : M (Option Line)) (flushed pkt) = _
  rw [hiop]
  cases pkt.p_iop with
  | none => rfl
  | some ls =>
    cases ls with
    | nil =>
      change Option.bind (getlineEof (flushed pkt)) _ = _
      cases getlineEof (flushed pkt) with
      | none => rfl
      | some r => rfl
    | cons line ls => rfl

/-- The packet after the first line. -/
def opened (l : Line) (ls : List Line) : Packet :=
  { nextLine (zero (l :: ls)) l ls with
    p_ihash := (satoi l.tail.tail).1, p_chash := 0, p_uchash := 0 }

/-- A first line with a number. -/
def IsHead (l : Line) : Prop :=
  chr l = CTLCHAR ∧ chr l.tail = HEAD ∧ chr (satoi l.tail.tail).2 = 10

theorem fatalIf_some {c : Prop} [Decidable c] {pkt pkt' : Packet} :
    fatalIf c pkt = some ((), pkt') ↔ ¬ c ∧ pkt' = pkt := by
  unfold fatalIf doIf
  by_cases hc : c
  · rw [if_pos hc]
    simp [fatal, lift_none_some, hc]
  · rw [if_neg hc, pure_some]
    simp [hc]

theorem sinit_some {file : Line} {pkt pkt' : Packet} : sinit file pkt = some ((), pkt') ↔
    ∃ l ls, readLines file = l :: ls ∧ IsHead l ∧ pkt' = opened l ls := by
  have hget := getline_eq (zero (readLines file))
  unfold sinit
  rw [bind_some]
  constructor
  · rintro ⟨_, t, ht, hrun⟩
    rw [set_some.mp ht, bind_some] at hrun
    obtain ⟨p, t, hp, hrun⟩ := hrun
    rw [hget] at hp
    cases hfile : readLines file with
    | nil =>
      rw [hfile] at hp
      obtain ⟨r, -, heq⟩ := Option.map_eq_some_iff.mp hp
      obtain ⟨rfl, -⟩ := Prod.mk.inj heq
      exact (lift_none_some.mp hrun).elim
    | cons l ls =>
      rw [hfile] at hp
      obtain ⟨rfl, rfl⟩ := Prod.mk.inj (Option.some.inj hp)
      obtain ⟨_, t, ht, hrun⟩ := bind_some.mp hrun
      obtain ⟨hhead, rfl⟩ := fatalIf_some.mp ht
      obtain ⟨_, t, ht, hrun⟩ := bind_some.mp hrun
      obtain ⟨hend, rfl⟩ := fatalIf_some.mp ht
      rw [not_or, not_not, not_not] at hhead
      exact ⟨l, ls, rfl, ⟨hhead.1, hhead.2, not_not.mp hend⟩, modify_some.mp hrun⟩
  · rintro ⟨l, ls, hfile, ⟨h1, h2, h3⟩, rfl⟩
    rw [hfile] at hget ⊢
    refine ⟨_, _, set_some.mpr rfl, bind_some.mpr ⟨_, _, hget, bind_some.mpr
      ⟨_, _, fatalIf_some.mpr ⟨?_, rfl⟩, bind_some.mpr ⟨_, _, fatalIf_some.mpr ⟨?_, rfl⟩, rfl⟩⟩⟩⟩
    · exact fun h => h.elim (fun h => h h1) fun h => h h2
    · exact fun h => h h3

theorem length_fiveDigits {n : ℕ} (h : n < 100000) : (fiveDigits n).length = 5 := by
  have hle := length_decimal_le (by decide : 0 < 5) h
  rw [fiveDigits, List.length_append, List.length_replicate]
  omega

theorem fiveDigits_isDigit (n : ℕ) : ∀ c ∈ fiveDigits n, isDigit c = true := by
  intro c hc
  rcases List.mem_append.mp hc with hc | hc
  · rw [List.eq_of_mem_replicate hc]
    rfl
  · exact decimal_isDigit n c hc

theorem decValue_fiveDigits (n : ℕ) : decValue (fiveDigits n) = n := by
  have hzeros : ∀ k, decValue (List.replicate k 48 ++ decimal n) = decValue (decimal n) := by
    intro k
    induction k with
    | zero => rfl
    | succ k ih => exact ih
  rw [fiveDigits, hzeros, decValue_decimal]

theorem satoi_fiveDigits (n : ℕ) : satoi (fiveDigits n ++ [10]) = (n, [10]) := by
  rw [satoi, List.takeWhile_append_of_pos (fiveDigits_isDigit n),
    List.dropWhile_append_of_pos (fiveDigits_isDigit n)]
  simp [isDigit, decValue_fiveDigits]

/-- A line of digits has no null byte and no newline. -/
theorem not_mem_fiveDigits {c : UInt8} (hc : isDigit c = false) (n : ℕ) : c ∉ fiveDigits n :=
  fun h => by simp [fiveDigits_isDigit n c h] at hc

theorem length_headLine {n : ℕ} (h : n < 65536) : (headLine n).length = 8 := by
  rw [headLine, List.length_append, List.length_append, length_fiveDigits (by omega)]
  rfl

theorem isHead_headLine (n : ℕ) : IsHead (headLine n) := by
  refine ⟨rfl, rfl, ?_⟩
  change chr (satoi (fiveDigits n ++ [10])).2 = 10
  rw [satoi_fiveDigits]
  rfl

end Unitas.Sccs
