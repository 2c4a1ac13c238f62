import Mathlib.Algebra.Order.BigOperators.Group.List
import Mathlib.Algebra.Order.Ring.Nat
import Mathlib.Data.Bool.Basic

/-! `wc` in byte mode: what it prints for its files, and as their total. -/
namespace Unitas.Wc

abbrev Name := List UInt8

/-- The bits of `mode` that select what is printed. -/
structure Mode where
  l : Bool
  w : Bool
  c : Bool

def Mode.select (mode : Mode) (l w c : ℕ) : List ℕ :=
  (if mode.l then [l] else []) ++ (if mode.w then [w] else []) ++ (if mode.c then [c] else [])

/-- In the C locale. -/
def isspace (c : UInt8) : Bool := c = 32 ∨ 9 ≤ c ∧ c ≤ 13

structure Counts where
  l : ℕ
  w : ℕ
  c : ℕ
  inword : Bool

/-- `n++`; nothing is known of an overflow. -/
def incr (LONG_MAX n : ℕ) : Option ℕ := if n < LONG_MAX then some (n + 1) else none

/-- The loop's body after `fgetc`. -/
def Counts.step (LONG_MAX : ℕ) (s : Counts) (cs : UInt8) : Option Counts := do
  let c ← incr LONG_MAX s.c
  let l ← if cs = 10 then incr LONG_MAX s.l else some s.l
  if isspace cs then
    if s.inword then
      let w ← incr LONG_MAX s.w
      some ⟨l, w, c, false⟩
    else some ⟨l, s.w, c, true⟩
  else some ⟨l, s.w, c, s.inword⟩

structure Row where
  counts : List ℕ
  name : Option Name
  deriving DecidableEq

/-- The row for a file, without its name if there are no arguments. -/
def do_wc (LONG_MAX : ℕ) (mode : Mode) (name : Option Name) (file : List UInt8) : Option Row := do
  let s ← file.foldlM (Counts.step LONG_MAX) ⟨0, 0, 0, false⟩
  some ⟨mode.select s.l s.w s.c, name⟩

structure Output where
  rows : List Row
  total : Option (List ℕ)
  status : ℤ
  deriving DecidableEq

/-- The loop over the arguments: the rows of the files that can be read, and `r`. -/
def mainFrom (LONG_MAX : ℕ) (mode : Mode) (fs : Name → Option (List UInt8)) :
    List Name → ℤ → Option (List Row × ℤ)
  | [], r => some ([], r)
  | name :: names, r =>
    match fs name with
    | none => mainFrom LONG_MAX mode fs names (if r = 0 then -1 else r)
    | some file => do
      let row ← do_wc LONG_MAX mode (some name) file
      let (rows, r) ← mainFrom LONG_MAX mode fs names r
      some (row :: rows, r)

/-- `fs` has the standard input under the name `-`. The total is printed from `L`, `W` and `C`,
which nothing changes after they are set to zero. -/
def main (LONG_MAX : ℕ) (mode : Mode) (fs : Name → Option (List UInt8)) (args : List Name) :
    Option Output :=
  if args = [] then do
    let row ← do_wc LONG_MAX mode none ((fs [45]).getD [])
    some ⟨[row], none, 0⟩
  else do
    let (rows, r) ← mainFrom LONG_MAX mode fs args 0
    some ⟨rows, if 1 < args.length then some (mode.select 0 0 0) else none, r⟩

/-! ### Counts -/

def newlines (file : List UInt8) : ℕ := file.count 10

/-- The maximal runs of bytes that are not white space. -/
def words (file : List UInt8) : ℕ := (file.splitOnP isspace).countP (· ≠ [])

theorem step_eq (LONG_MAX : ℕ) {s : Counts} (hl : s.l ≤ s.c) (hw : s.w ≤ s.c) (cs : UInt8) :
    s.step LONG_MAX cs = if s.c < LONG_MAX then
      some ⟨s.l + if cs = 10 then 1 else 0, s.w + if isspace cs && s.inword then 1 else 0,
        s.c + 1, isspace cs ^^ s.inword⟩ else none := by
  unfold Counts.step incr
  by_cases hc : s.c < LONG_MAX
  · have hl' : s.l < LONG_MAX := hl.trans_lt hc
    have hw' : s.w < LONG_MAX := hw.trans_lt hc
    cases isspace cs <;> cases hin : s.inword <;> by_cases h10 : cs = 10 <;>
      simp [hc, hl', hw', h10]
  · simp [hc]

/-- What is printed of the counters. -/
def Counts.shown (s : Counts) : ℕ × ℕ × ℕ := (s.l, s.w, s.c)

/-- A word is counted at every second byte of white space. -/
theorem foldlM_eq (LONG_MAX : ℕ) (file : List UInt8) {s : Counts} (hl : s.l ≤ s.c)
    (hw : s.w ≤ s.c) (hc : s.c ≤ LONG_MAX) :
    (file.foldlM (Counts.step LONG_MAX) s).map Counts.shown =
      if s.c + file.length ≤ LONG_MAX then
        some (s.l + newlines file, s.w + (s.inword.toNat + file.countP isspace) / 2,
          s.c + file.length)
      else none := by
  induction file generalizing s with
  | nil =>
    have hin : s.inword.toNat / 2 = 0 := by cases s.inword <;> rfl
    simp [newlines, Counts.shown, hc, hin]
  | cons cs file ih =>
    rw [List.foldlM_cons, step_eq LONG_MAX hl hw]
    by_cases hlt : s.c < LONG_MAX
    · rw [if_pos hlt]
      change (List.foldlM (Counts.step LONG_MAX) _ file).map _ = _
      rw [ih]
      · have hlen : s.c + 1 + file.length = s.c + (cs :: file).length := by
          rw [List.length_cons]
          omega
        have hlines : s.l + (if cs = 10 then 1 else 0) + newlines file =
            s.l + newlines (cs :: file) := by
          unfold newlines
          rw [List.count_cons]
          by_cases h10 : cs = 10
          · simp [h10]
            omega
          · simp [h10]
        have hwords : s.w + (if isspace cs && s.inword then 1 else 0) +
            ((isspace cs ^^ s.inword).toNat + file.countP isspace) / 2 =
            s.w + (s.inword.toNat + (cs :: file).countP isspace) / 2 := by
          rw [List.countP_cons]
          cases isspace cs <;> cases s.inword <;> simp <;> omega
        dsimp only
        rw [hlen, hlines, hwords]
      · dsimp only
        split_ifs <;> omega
      · dsimp only
        split_ifs <;> omega
      · exact hlt
    · rw [if_neg hlt, if_neg]
      · rfl
      · rw [List.length_cons]
        omega

theorem do_wc_eq (LONG_MAX : ℕ) (mode : Mode) (name : Option Name) (file : List UInt8) :
    do_wc LONG_MAX mode name file = if file.length ≤ LONG_MAX then
      some ⟨mode.select (newlines file) (file.countP isspace / 2) file.length, name⟩
    else none := by
  have hfold := foldlM_eq LONG_MAX file (s := ⟨0, 0, 0, false⟩) le_rfl le_rfl (Nat.zero_le _)
  unfold do_wc
  simp only [Bool.toNat_false, Nat.zero_add] at hfold
  split_ifs at hfold ⊢ with hlen
  · obtain ⟨t, ht, hshown⟩ := Option.map_eq_some_iff.mp hfold
    simp only [Counts.shown, Prod.mk.injEq] at hshown
    obtain ⟨hl, hw, hc⟩ := hshown
    rw [ht, ← hl, ← hw, ← hc]
    rfl
  · rw [Option.map_eq_none_iff.mp hfold]
    rfl

/-! ### The law -/

/-- What is to be printed for a file. -/
def row (mode : Mode) (name : Option Name) (file : List UInt8) : Row :=
  ⟨mode.select (newlines file) (words file) file.length, name⟩

/-- The output for files that can be read, `text` being what is in them. -/
def law (mode : Mode) (text : Name → List UInt8) (args : List Name) : Output :=
  if args = [] then ⟨[row mode none (text [45])], none, 0⟩
  else
    ⟨args.map fun name => row mode (some name) (text name),
      if 1 < args.length then
        some (mode.select (args.map fun name => newlines (text name)).sum
          (args.map fun name => words (text name)).sum
          (args.map fun name => (text name).length).sum)
      else none, 0⟩

/-- A file that is not too long, and in which the words are half as many as the bytes of white
space. -/
def Fits (LONG_MAX : ℕ) (mode : Mode) (file : List UInt8) : Prop :=
  file.length ≤ LONG_MAX ∧ (mode.w = true → file.countP isspace / 2 = words file)

/-- Files of which nothing that is printed is counted. -/
def Bare (mode : Mode) (file : List UInt8) : Prop :=
  (mode.l = true → newlines file = 0) ∧ (mode.w = true → words file = 0) ∧
    (mode.c = true → file.length = 0)

theorem select_eq_iff (mode : Mode) (l w c l' w' c' : ℕ) :
    mode.select l w c = mode.select l' w' c' ↔
      (mode.l = true → l = l') ∧ (mode.w = true → w = w') ∧ (mode.c = true → c = c') := by
  unfold Mode.select
  cases mode.l <;> cases mode.w <;> cases mode.c <;> simp

theorem do_wc_iff (LONG_MAX : ℕ) (mode : Mode) (name : Option Name) (file : List UInt8) :
    do_wc LONG_MAX mode name file = some (row mode name file) ↔ Fits LONG_MAX mode file := by
  rw [do_wc_eq]
  unfold Fits row
  split_ifs with hlen
  · rw [Option.some_inj, Row.mk.injEq, select_eq_iff]
    simp [hlen]
  · simp [hlen]

theorem mainFrom_eq (LONG_MAX : ℕ) (mode : Mode) {fs : Name → Option (List UInt8)}
    {text : Name → List UInt8} {names : List Name} (h : ∀ name ∈ names, fs name = some (text name))
    (r : ℤ) : mainFrom LONG_MAX mode fs names r =
      (names.mapM fun name => do_wc LONG_MAX mode (some name) (text name)).map (·, r) := by
  induction names with
  | nil => rfl
  | cons name names ih =>
    obtain ⟨hname, hnames⟩ := List.forall_mem_cons.mp h
    unfold mainFrom
    rw [hname, List.mapM_cons]
    dsimp only
    rw [ih hnames]
    cases do_wc LONG_MAX mode (some name) (text name) with
    | none => rfl
    | some row =>
      cases names.mapM fun name => do_wc LONG_MAX mode (some name) (text name) with
      | none => rfl
      | some rows => rfl

theorem mapM_eq_map_iff {α β : Type} (f : α → Option β) (g : α → β) (l : List α) :
    l.mapM f = some (l.map g) ↔ ∀ x ∈ l, f x = some (g x) := by
  induction l with
  | nil => simp
  | cons x l ih =>
    rw [List.mapM_cons, List.map_cons, List.forall_mem_cons, ← ih]
    cases f x <;> cases l.mapM f <;> simp

theorem total_iff (mode : Mode) (text : Name → List UInt8) (args : List Name) :
    mode.select 0 0 0 = mode.select (args.map fun name => newlines (text name)).sum
        (args.map fun name => words (text name)).sum
        (args.map fun name => (text name).length).sum ↔
      ∀ name ∈ args, Bare mode (text name) := by
  have hzero (f : Name → ℕ) : 0 = (args.map f).sum ↔ ∀ name ∈ args, f name = 0 := by
    rw [eq_comm, List.sum_eq_zero_iff, List.forall_mem_map]
  rw [select_eq_iff, hzero, hzero, hzero]
  unfold Bare
  constructor
  · intro h name hname
    exact ⟨fun hl => h.1 hl name hname, fun hw => h.2.1 hw name hname,
      fun hc => h.2.2 hc name hname⟩
  · intro h
    exact ⟨fun hl name hname => (h name hname).1 hl, fun hw name hname => (h name hname).2.1 hw,
      fun hc name hname => (h name hname).2.2 hc⟩

/-- For files that can be read: the counts are right, and the totals their sums, exactly when
the files are as `Fits` says, and there is nothing to be added up. -/
theorem main_iff (LONG_MAX : ℕ) (mode : Mode) (fs : Name → Option (List UInt8))
    (text : Name → List UInt8) (args : List Name) (hstdin : fs [45] = some (text [45]))
    (hargs : ∀ name ∈ args, fs name = some (text name)) :
    main LONG_MAX mode fs args = some (law mode text args) ↔
      (args = [] → Fits LONG_MAX mode (text [45])) ∧
      (∀ name ∈ args, Fits LONG_MAX mode (text name)) ∧
      (1 < args.length → ∀ name ∈ args, Bare mode (text name)) := by
  unfold main law
  by_cases hnil : args = []
  · subst hnil
    rw [if_pos rfl, if_pos rfl, hstdin, ← do_wc_iff LONG_MAX mode none, Option.getD_some]
    cases do_wc LONG_MAX mode none (text [45]) <;> simp
  · rw [if_neg hnil, if_neg hnil, mainFrom_eq LONG_MAX mode hargs]
    have hrows := mapM_eq_map_iff (fun name => do_wc LONG_MAX mode (some name) (text name))
      (fun name => row mode (some name) (text name)) args
    simp only [do_wc_iff] at hrows
    rw [← hrows, ← total_iff]
    cases args.mapM fun name => do_wc LONG_MAX mode (some name) (text name) with
    | none => simp
    | some rows =>
      by_cases hlen : 1 < args.length
      · simp [hnil, hlen]
      · simp [hnil, hlen]

def wcFiles (name : Name) : Option (List UInt8) :=
  if name = [97] then some [97, 32, 32, 98, 10, 10]
  else if name = [45] then some []
  else none

def wcText (name : Name) : List UInt8 := (wcFiles name).getD []

/-- One file with every word followed by two bytes of white space. -/
theorem main_iff_twice : main 9 ⟨true, true, true⟩ wcFiles [[97]] =
    some ⟨[⟨[2, 2, 6], some [97]⟩], none, 0⟩ :=
  (main_iff 9 ⟨true, true, true⟩ wcFiles wcText [[97]] rfl (by decide)).mpr
    ⟨by simp, by unfold Fits; decide, by simp⟩

/-- A line of one word has no word. -/
theorem main_line : main 9 ⟨false, true, false⟩ (fun _ => some [97, 10]) [[97]] ≠
    some (law ⟨false, true, false⟩ (fun _ => [97, 10]) [[97]]) := by
  decide

end Unitas.Wc
