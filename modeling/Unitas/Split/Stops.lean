import Unitas.Lib.CInt
import Unitas.Lib.Decimal
import Unitas.Split.Pieces
import Unitas.Lib.Literals

/-! When `split` comes to an end. The counts are signed here, and opening, reading and writing may
fail. -/
namespace Unitas.Split
open Unitas.Decimal Unitas.CInt

def ONE_K : ℤ := 1024
def ONE_M : ℤ := ONE_K * ONE_K

/-- `--` -/
def dashes : List UInt8 := [45, 45]

/-- `strtol(s, 0, 10)` -/
def strtol (s : List UInt8) : ℤ :=
  let s := s.dropWhile fun c => c = 32 || 9 ≤ c && c ≤ 13
  let digits (s : List UInt8) : ℤ := decValue (s.takeWhile isDigit)
  let n := if s.head? = some 45 then -digits s.tail
    else if s.head? = some 43 then digits s.tail else digits s
  max (-2 ^ 63) (min n (2 ^ 63 - 1))

/-! The arguments. -/

/-- What `getopt` returns, with `optarg`. -/
inductive Opt
  | a (optarg : List UInt8)
  | b (optarg : List UInt8)
  | l (optarg : List UInt8)
  | unknown

def option (c : UInt8) (optarg : List UInt8) : Opt :=
  if c = 97 then .a optarg else if c = 98 then .b optarg
  else if c = 108 then .l optarg else .unknown

/-- The options and the operands behind them, for `a:b:l:`. -/
def getopt : List (List UInt8) → List Opt × List (List UInt8)
  | [] => ([], [])
  | (45 :: c :: d :: rest) :: args =>
    (option c (d :: rest) :: (getopt args).1, (getopt args).2)
  | [45, c] :: args =>
    if c = 45 then ([], args)
    else match args with
      | [] => ([.unknown], [])
      | optarg :: args => (option c optarg :: (getopt args).1, (getopt args).2)
  | arg :: args => ([], arg :: args)

structure Parsed where
  isStdin : Bool
  line_count : ℤ
  byte_count : ℤ
  suffix_length : ℤ
  operands : List (List UInt8)

/-- The explicit `-`, which is taken out. No `--` may follow. -/
def takeStdin (argv : List (List UInt8)) : Option (Bool × List (List UInt8)) :=
  match argv.dropWhile (· ≠ [45]) with
  | [] => some (false, argv)
  | _ :: after =>
    if dashes ∈ after then none else some (true, argv.takeWhile (· ≠ [45]) ++ after)

/-- The non-standard `-line-count`, which is taken out. -/
def takeCount : List (List UInt8) → Option (Option ℤ × List (List UInt8))
  | [] => some (none, [])
  | arg :: args =>
    if arg = dashes then some (none, arg :: args)
    else if arg.head? = some 45 ∧ arg.tail.head?.any isDigit then
      if arg.tail.all isDigit then some (some (strtol arg.tail), args) else none
    else (takeCount args).map fun r => (r.1, arg :: r.2)

/-- The number of bytes that the text after `-b` stands for. -/
def size (optarg : List UInt8) : ℤ :=
  let n := strtol optarg
  let c := (optarg.dropWhile isDigit).head?
  if c = some 107 then wrap 64 (n * ONE_K)
  else if c = some 109 then wrap 64 (n * ONE_M)
  else n

/-- The cases of the loop over the options. -/
def Parsed.option (isSet : Bool) (p : Parsed) : Opt → Option Parsed
  | .a optarg =>
    let suffix_length := wrap 32 (strtol optarg)
    if optarg = dashes ∨ suffix_length ≤ 0 then none else some { p with suffix_length }
  | .b optarg => if optarg = dashes then none else some { p with byte_count := size optarg }
  | .l optarg =>
    if optarg = dashes ∨ isSet then none else some { p with line_count := strtol optarg }
  | .unknown => none

/-- The arguments up to the operands. Nothing comes of them where `Usage` is called. -/
def parse (argv : List (List UInt8)) : Option Parsed := do
  let (isStdin, argv) ← takeStdin argv
  let (count, argv) ← takeCount argv
  let (opts, operands) := getopt argv
  opts.foldlM (Parsed.option count.isSome) ⟨isStdin, count.getD 0, 0, 2, operands⟩

/-! The files. -/

structure Env where
  /-- What the input file holds, and whether reading fails behind it. -/
  text : List UInt8
  readError : Bool
  opens : List UInt8 → Bool
  /-- `f_namemax` of the directory, if there is one -/
  statvfs : Option ℕ
  malloc : Bool
  creates : List UInt8 → Bool
  /-- Whether a character can be written to the last of the files. -/
  writes : List (List UInt8 × List UInt8) → Bool

/-- The operands behind the input file. -/
def inputFile (env : Env) (p : Parsed) : Option (List (List UInt8)) :=
  match p.isStdin, p.operands with
  | false, fname :: operands => if env.opens fname then some operands else none
  | _, operands => some operands

def outputFileName (env : Env) (suffix_length : ℕ) : List (List UInt8) → Option (List UInt8)
  | [] => some [120]
  | name :: _ => env.statvfs.bind fun f_namemax =>
    if (tail name).length ≤ (f_namemax + 2 ^ 64 - suffix_length) % 2 ^ 64 then some name else none

/-- The name of the output files, unless `main` returns before its loop. -/
def setup (env : Env) (p : Parsed) : Option (List UInt8) := do
  let suffix_length := p.suffix_length.toNat
  let operands ← inputFile env p
  let name ← outputFileName env suffix_length operands
  if wrap 32 (name.length + suffix_length) ≤ FILENAME_MAX ∧
    ¬ (p.line_count ≠ 0 ∧ p.byte_count ≠ 0) ∧ env.malloc then some name else none

/-- The two inner loops inside the outer one, for so many turns. -/
def run (env : Env) (count : ℤ) (suffix_length : ℕ) (counted : UInt8 → Bool) :
    ℕ → State → List UInt8 → Option (ℕ × State)
  | 0, _, _ => none
  | fuel + 1, s, input =>
    if s.out < count then
      match input with
      | [] => some (if env.readError then 1 else 0, s)
      | c :: input =>
        match s.openFile suffix_length with
        | none => some (1, s)
        | some t =>
          if s.output_file_open ∨ env.creates t.fname then
            if env.writes t.files then
              let t := t.putc c
              run env count suffix_length counted fuel
                (if counted c then { t with out := t.out + 1 } else t) input
            else some (1, t)
          else some (1, s)
    else
      run env count suffix_length counted fuel { s with out := 0, output_file_open := false } input

/-- The exit status and the files, if `main` has ended by then. -/
def mainFor (env : Env) (fuel : ℕ) (argv : List (List UInt8)) :
    Option (ℕ × List (List UInt8 × List UInt8)) :=
  match (parse argv).bind fun p => (setup env p).map (p, ·) with
  | none => some (1, [])
  | some (p, name) =>
    let suffix_length := p.suffix_length.toNat
    let s := start ⟨suffix_length, 0, 0, some name, 0⟩
    let line_count := if p.line_count = 0 then (DEFAULT_LINES : ℤ) else p.line_count
    let r :=
      if p.byte_count ≠ 0 then run env p.byte_count suffix_length (fun _ => true) fuel s env.text
      else run env line_count suffix_length (· = 10) fuel s env.text
    r.map fun r => (r.1, r.2.files.reverse)

def Halts (env : Env) (argv : List (List UInt8)) : Prop := ∃ fuel, (mainFor env fuel argv).isSome

section
variable {env : Env} {count : ℤ} {a : ℕ} {counted : UInt8 → Bool}

/-- Every turn reads a character or begins a file, and a file is not begun twice in turn. -/
theorem run_isSome (hcount : 0 < count) (fuel : ℕ) : ∀ {s : State} {input : List UInt8},
    2 * input.length + (if s.out < count then 0 else 1) < fuel →
    (run env count a counted fuel s input).isSome := by
  induction fuel with
  | zero => exact fun h => absurd h (Nat.not_lt_zero _)
  | succ fuel ih =>
    intro s input hfuel
    rw [run.eq_def]
    dsimp only
    by_cases hout : s.out < count
    · rw [if_pos hout]
      cases input with
      | nil => rfl
      | cons c input =>
        dsimp only
        cases s.openFile a with
        | none => rfl
        | some t =>
          dsimp only
          by_cases hcreates : s.output_file_open ∨ env.creates t.fname
          · by_cases hwrites : env.writes t.files
            · rw [if_pos hcreates, if_pos hwrites]
              refine ih (lt_of_le_of_lt (Nat.add_le_add_left (?_ : _ ≤ 1) _) ?_)
              · split_ifs <;> decide
              · rw [List.length_cons] at hfuel
                omega
            · rw [if_pos hcreates, if_neg hwrites]
              rfl
          · rw [if_neg hcreates]
            rfl
    · rw [if_neg hout]
      refine ih ?_
      have hzero : ((0 : ℕ) : ℤ) < count := hcount
      rw [if_neg hout] at hfuel
      rw [if_pos hzero]
      omega

/-- Without a character that may be counted the outer loop turns for ever. -/
theorem run_none (hcount : count ≤ 0) (fuel : ℕ) : ∀ (s : State) (input : List UInt8),
    run env count a counted fuel s input = none := by
  induction fuel with
  | zero => exact fun _ _ => rfl
  | succ fuel ih =>
    intro s input
    rw [run.eq_def]
    dsimp only
    rw [if_neg (by omega)]
    exact ih _ _

theorem loop_turn {n : ℕ} (hn : 0 < n) (s : State) (input : List UInt8) :
    (loop n a counted (s.turn n) input).1 = (loop n a counted s input).1 ∧
      (loop n a counted (s.turn n) input).2.files = (loop n a counted s input).2.files := by
  have hturn : (s.turn n).turn n = s.turn n := by
    unfold State.turn
    split_ifs with hout <;> simp_all
  cases input with
  | nil =>
    refine ⟨rfl, ?_⟩
    unfold State.turn
    split_ifs
    · rfl
    · rfl
  | cons c input =>
    rw [loop, loop, hturn]
    exact ⟨rfl, rfl⟩

/-- Where nothing fails, it is the loop over the input. -/
theorem run_eq_loop {n : ℕ} (hn : 0 < n) (hread : env.readError = false)
    (hcreates : ∀ fname, env.creates fname) (hwrites : ∀ files, env.writes files) (fuel : ℕ) :
    ∀ {s : State} {input : List UInt8}, 2 * input.length + (if s.out < n then 0 else 1) < fuel →
    ∃ t, run env n a counted fuel s input = some ((loop n a counted s input).1, t) ∧
      t.files = (loop n a counted s input).2.files := by
  induction fuel with
  | zero => exact fun h => absurd h (Nat.not_lt_zero _)
  | succ fuel ih =>
    intro s input hfuel
    rw [run.eq_def]
    dsimp only
    by_cases hout : s.out < n
    · rw [if_pos (Int.ofNat_lt.mpr hout)]
      cases input with
      | nil =>
        refine ⟨s, ?_, rfl⟩
        simp [hread, loop]
      | cons c input =>
        have hturn : s.turn n = s := if_pos hout
        rw [loop, hturn]
        dsimp only
        cases s.openFile a with
        | none => exact ⟨s, rfl, rfl⟩
        | some t =>
          dsimp only
          rw [if_pos (.inr (hcreates _)), if_pos (hwrites _)]
          refine ih (lt_of_le_of_lt (Nat.add_le_add_left (?_ : _ ≤ 1) _) ?_)
          · split_ifs <;> decide
          · rw [List.length_cons] at hfuel
            omega
    · rw [if_neg fun h => hout (Int.ofNat_lt.mp h)]
      have hturn : s.turn n = { s with out := 0, output_file_open := false } := if_neg hout
      obtain ⟨hstatus, hfiles⟩ := @loop_turn a counted n hn s input
      rw [← hturn, ← hstatus, ← hfiles]
      refine ih ?_
      rw [if_neg hout] at hfuel
      rw [hturn, if_pos hn]
      omega

theorem exists_run_iff (s : State) (input : List UInt8) :
    (∃ fuel, (run env count a counted fuel s input).isSome) ↔ 0 < count := by
  constructor
  · rintro ⟨fuel, h⟩
    by_contra hle
    rw [run_none (not_lt.mp hle)] at h
    exact absurd h (by decide)
  · exact fun h => ⟨_, run_isSome h _ (Nat.lt_succ_self _)⟩

end

theorem setup_counts {env : Env} {p : Parsed} {name : List UInt8} (h : setup env p = some name) :
    p.line_count = 0 ∨ p.byte_count = 0 := by
  simp only [setup, Option.bind_eq_bind, Option.bind_eq_some_iff] at h
  obtain ⟨operands, -, name', -, h⟩ := h
  split_ifs at h with hchecks
  by_contra hne
  exact hchecks.2.1 (not_or.mp hne)

/-- Once `main` has come to its loop, it ends exactly when no count is negative. -/
theorem halts_loop_iff {env : Env} {argv : List (List UInt8)} {p : Parsed} {name : List UInt8}
    (hparse : parse argv = some p) (hsetup : setup env p = some name) :
    Halts env argv ↔ 0 ≤ p.line_count ∧ 0 ≤ p.byte_count := by
  have hcounts := setup_counts hsetup
  unfold Halts mainFor
  rw [hparse, Option.bind_some, hsetup]
  simp only [Option.map_some, Option.isSome_map]
  by_cases hbyte : p.byte_count = 0
  · simp only [hbyte, ne_eq, not_true_eq_false, if_false, exists_run_iff]
    have hdefault : (0 : ℤ) < (DEFAULT_LINES : ℤ) := by decide
    split_ifs with hline
    · omega
    · omega
  · simp only [ne_eq, hbyte, not_false_eq_true, if_true, exists_run_iff]
    have hline := hcounts.resolve_right hbyte
    omega

theorem split_halts_iff (env : Env) (argv : List (List UInt8)) :
    Halts env argv ↔ ∀ p name, parse argv = some p → setup env p = some name →
      0 ≤ p.line_count ∧ 0 ≤ p.byte_count := by
  cases hparse : parse argv with
  | none => exact iff_of_true ⟨0, by rw [mainFor, hparse]; rfl⟩ (fun _ _ h => nomatch h)
  | some p =>
    cases hsetup : setup env p with
    | none =>
      refine iff_of_true ⟨0, ?_⟩ fun q name hq h => ?_
      · rw [mainFor, hparse, Option.bind_some, hsetup]
        rfl
      · obtain rfl := Option.some.inj hq
        exact absurd (hsetup.symm.trans h) (by simp)
    | some name =>
      rw [halts_loop_iff hparse hsetup]
      exact ⟨fun h q _ hq _ => Option.some.inj hq ▸ h, fun h => h p name rfl hsetup⟩

/-- `-l-1` -/
theorem not_halts : ¬ ∀ env argv, (∃ p, parse argv = some p) → Halts env argv := by
  intro h
  have hrun := (halts_loop_iff rfl rfl).mp (h ⟨[97, 10], false, fun _ => true, none, true,
    fun _ => true, fun _ => true⟩ [[45, 108, 45, 49]] ⟨_, rfl⟩)
  exact absurd hrun.1 (by decide)

end Unitas.Split
