import Mathlib
import Unitas.Lib.CInt
import Unitas.Sh.Names

/-! From the text that `macro` leaves on the stack to arguments: `split`, `trims`, `scan` and `trim`, in
a single-byte locale and without file name generation. A text is given with what follows it in
memory, and there is no result once something behind that is read. -/
namespace Unitas.Sh.Fields
open Unitas.CInt

abbrev Str := List UInt8

/-- `trim`, in place: what is written never comes before what is read. The result is the string
without its null character. -/
def trim : Str → Option Str
  | [] => none
  | 0 :: _ => some []
  | [92] => none
  | 92 :: 0 :: s => trim s
  | 92 :: c :: s => (trim s).map (c :: ·)
  | c :: s => (trim s).map (c :: ·)

/-- `trims`, which keeps the backslashes but those before slashes and null characters. -/
def trims : Str → Option Str
  | [] => none
  | 0 :: _ => some []
  | [92] => none
  | 92 :: 0 :: s => trims s
  | 92 :: c :: s => (trims s).map (if c = 47 then (c :: ·) else (92 :: c :: ·))
  | c :: s => (trims s).map (c :: ·)

/-- `anys`, for a character that is not null. -/
def anys (c : UInt8) (ifs : Str) : Bool := c ∈ ifs

/-- `while (c = *s)` in `split`: what has been copied, `c` and what `s` points to. -/
def copyRun (ifs : Str) : Str → Option (Str × UInt8 × Str)
  | [] => none
  | 0 :: s => some ([], 0, 0 :: s)
  | [92] => none
  | 92 :: d :: s => (copyRun ifs s).map fun r => (92 :: d :: r.1, r.2)
  | c :: s =>
    if anys c ifs then some ([], c, s) else (copyRun ifs s).map fun r => (c :: r.1, r.2)

/-- The arguments from the last on; the flag is `ARGMK` in the pointer to each. -/
abbrev Chain := List (Bool × Str)

/-- `split`, which gives the chain and the number of new arguments. -/
def split (ifs : Str) : ℕ → Str → Chain → ℕ → Option (Chain × ℕ)
  | 0, _, _, _ => none
  | fuel + 1, s, gchain, count => do
    let (run, c, s) ← copyRun ifs s
    if run = [] then
      if c ≠ 0 then split ifs fuel s gchain count else some (gchain, count)
    else
      let argval ← trims (run ++ [0])
      split ifs fuel s ((true, argval) :: gchain) (count + 1)

/-! ### Sorting -/

def swap (l : List Str) (i m : ℕ) : List Str := (l.set i (l.getD (i + m) [])).set (i + m) (l.getD i [])

/-- The loop over `i` of `gsort`. -/
def sift (m : ℕ) : ℕ → ℕ → List Str → List Str
  | 0, _, l => l
  | fuel + 1, i, l =>
    if Names.cf (l.getD (i + m) []) (l.getD i []) > 0 then l
    else if i < m then swap l i m
    else sift m fuel (i - m) (swap l i m)

/-- `for (j = 1; j <= n; j *= 2)`, which has not come to its end where there is no result. -/
def double (n : ℤ) : ℕ → ℤ → Option ℤ
  | 0, _ => none
  | fuel + 1, j => if j ≤ n then double n fuel (wrap 32 (2 * j)) else some j

/-- The loops over `j` and `i` for one `m`. -/
def pass (n m : ℤ) (l : List Str) : List Str :=
  (List.range (n - m).toNat).foldl (fun l j => sift m.toNat (j + 1) j l) l

/-- `for (m = 2 * j - 1; m /= 2; )` -/
def passes (n : ℤ) : ℕ → ℤ → List Str → Option (List Str)
  | 0, _, _ => none
  | fuel + 1, m, l =>
    if m.tdiv 2 = 0 then some l else passes n fuel (m.tdiv 2) (pass n (m.tdiv 2) l)

/-- `gsort(from, to)`, with what is between the two pointers. Its variables are of type `int`, which
wraps around at 32 bits. -/
def gsort (fuel : ℕ) (l : List Str) : Option (List Str) :=
  let n := wrap 32 l.length
  if n ≤ 1 then some l
  else do
    let j ← double n fuel 1
    passes n fuel (wrap 32 (wrap 32 (2 * j) - 1)) l

/-- `scan`: `group` are the arguments that have been filled in since the last mark, `done` those
before. -/
def scanLoop : Chain → List Str → List Str → Option (List Str)
  | [], group, done => some (group ++ done)
  | (_, argval) :: rest, group, done => do
    let argval ← trim (argval ++ [0])
    if rest = [] ∨ rest.head?.map Prod.fst = some true then
      let sorted ← gsort 32 (argval :: group)
      scanLoop rest [] (sorted ++ done)
    else scanLoop rest (argval :: group) done

def scan (gchain : Chain) : Option (List Str) := scanLoop gchain [] []

/-- `getarg` for one argument, whose text is in memory, and `scan`. -/
def arguments (ifs mem : Str) : Option (List Str) := do
  let (gchain, _) ← split ifs (mem.length + 1) mem [] 0
  scan gchain

/-! ### Fields -/

/-- What `macro` leaves: a character, or one with a backslash before it. -/
inductive Item
  | plain (c : UInt8)
  | quoted (c : UInt8)
  deriving DecidableEq

def Item.bytes : Item → Str
  | .plain c => [c]
  | .quoted c => [92, c]

/-- A plain character is neither null nor a backslash. -/
def Item.Ok : Item → Prop
  | .plain c => c ≠ 0 ∧ c ≠ 92
  | .quoted _ => True

/-- What is left of it when quotes are removed. -/
def Item.text : Item → Str
  | .plain c => [c]
  | .quoted c => if c = 0 then [] else [c]

def bytes (items : List Item) : Str := items.flatMap Item.bytes

def text (items : List Item) : Str := items.flatMap Item.text

/-- An unquoted character of IFS. -/
def Item.separates (ifs : Str) : Item → Bool
  | .plain c => c ∈ ifs
  | .quoted _ => false

/-- The runs between separators that are not empty, without their quotes. -/
def fields (ifs : Str) (items : List Item) : List Str :=
  ((items.splitOnP (Item.separates ifs)).filter (· ≠ [])).map text

@[simp] theorem bytes_nil : bytes [] = [] := rfl

@[simp] theorem bytes_cons (i : Item) (is : List Item) : bytes (i :: is) = i.bytes ++ bytes is := rfl

theorem bytes_ne_nil {items : List Item} (h : items ≠ []) : bytes items ≠ [] := by
  obtain ⟨i, is, rfl⟩ := List.exists_cons_of_ne_nil h
  cases i <;> simp [Item.bytes]

section
variable {c : UInt8} {s : Str}

theorem trim_plain (h : c ≠ 0 ∧ c ≠ 92) : trim (c :: s) = (trim s).map (c :: ·) := by
  rw [trim]
  · exact h.1
  · exact fun h' => absurd h' h.2
  · exact fun _ h' => absurd h' h.2
  · exact fun _ _ h' => absurd h' h.2

theorem trim_quoted : trim (92 :: c :: s) = (trim s).map ((Item.quoted c).text ++ ·) := by
  unfold Item.text
  by_cases hc : c = 0
  · subst hc
    rw [trim]
    simp
  · rw [trim]
    · simp [hc]
    · exact hc

theorem trims_plain (h : c ≠ 0 ∧ c ≠ 92) : trims (c :: s) = (trims s).map (c :: ·) := by
  rw [trims]
  · exact h.1
  · exact fun h' => absurd h' h.2
  · exact fun _ h' => absurd h' h.2
  · exact fun _ _ h' => absurd h' h.2

/-- What `trims` makes of a quoted character. -/
def trimsQuoted (c : UInt8) : List Item :=
  if c = 0 then [] else if c = 47 then [.plain c] else [.quoted c]

theorem trims_quoted : trims (92 :: c :: s) = (trims s).map (bytes (trimsQuoted c) ++ ·) := by
  unfold trimsQuoted
  by_cases hc : c = 0
  · subst hc
    rw [trims]
    simp
  · rw [trims]
    · split_ifs <;> rfl
    · exact hc

variable {ifs : Str}

theorem copyRun_plain (h : c ≠ 0 ∧ c ≠ 92) : copyRun ifs (c :: s) =
    if c ∈ ifs then some ([], c, s) else (copyRun ifs s).map fun r => (c :: r.1, r.2) := by
  rw [copyRun]
  · simp [anys]
  · exact h.1
  · exact fun h' => absurd h' h.2
  · exact fun _ _ h' => absurd h' h.2

end

/-- `trims` leaves items of the same text. -/
theorem trims_bytes {items : List Item} (hok : ∀ i ∈ items, i.Ok) (t : Str) :
    ∃ items', (∀ i ∈ items', i.Ok) ∧ text items' = text items ∧
      trims (bytes items ++ 0 :: t) = some (bytes items') := by
  induction items with
  | nil => exact ⟨[], by simp, rfl, rfl⟩
  | cons i is ih =>
    obtain ⟨hi, his⟩ := List.forall_mem_cons.mp hok
    obtain ⟨js, hjs, htext, htrims⟩ := ih his
    cases i with
    | plain c =>
      refine ⟨.plain c :: js, List.forall_mem_cons.mpr ⟨hi, hjs⟩, congrArg (c :: ·) htext, ?_⟩
      show trims (c :: (bytes is ++ 0 :: t)) = _
      rw [trims_plain hi, htrims]
      rfl
    | quoted c =>
      refine ⟨trimsQuoted c ++ js, ?_, ?_, ?_⟩
      · intro i hi
        rcases List.mem_append.mp hi with hi | hi
        · unfold trimsQuoted at hi
          split_ifs at hi with h0 h47
          · exact absurd hi List.not_mem_nil
          · rw [List.mem_singleton.mp hi]
            exact ⟨h0, by rw [h47]; decide⟩
          · rw [List.mem_singleton.mp hi]
            trivial
        · exact hjs i hi
      · have hone : text (trimsQuoted c) = (Item.quoted c).text := by
          unfold trimsQuoted Item.text
          split_ifs with h0 h47 <;> simp_all [text, Item.text]
        unfold text at htext hone ⊢
        rw [List.flatMap_append, hone, htext, List.flatMap_cons]
      · show trims (92 :: c :: (bytes is ++ 0 :: t)) = _
        rw [trims_quoted, htrims]
        simp [bytes]

theorem trim_bytes {items : List Item} (hok : ∀ i ∈ items, i.Ok) (t : Str) :
    trim (bytes items ++ 0 :: t) = some (text items) := by
  induction items with
  | nil => rfl
  | cons i is ih =>
    obtain ⟨hi, his⟩ := List.forall_mem_cons.mp hok
    cases i with
    | plain c =>
      show trim (c :: (bytes is ++ 0 :: t)) = _
      rw [trim_plain hi, ih his]
      rfl
    | quoted c =>
      show trim (92 :: c :: (bytes is ++ 0 :: t)) = _
      rw [trim_quoted, ih his]
      rfl

/-- A run without separators is copied up to what ends it. -/
theorem copyRun_bytes {ifs : Str} {run : List Item} (hok : ∀ i ∈ run, i.Ok)
    (hrun : ∀ i ∈ run, i.separates ifs = false) (s : Str) :
    copyRun ifs (bytes run ++ s) = (copyRun ifs s).map fun r => (bytes run ++ r.1, r.2) := by
  induction run with
  | nil => simp
  | cons i is ih =>
    obtain ⟨hi, his⟩ := List.forall_mem_cons.mp hok
    obtain ⟨hsep, hsep'⟩ := List.forall_mem_cons.mp hrun
    cases i with
    | plain c =>
      have hc : c ∉ ifs := by simpa [Item.separates] using hsep
      show copyRun ifs (c :: (bytes is ++ s)) = _
      rw [copyRun_plain hi, if_neg hc, ih his hsep', Option.map_map]
      rfl
    | quoted c =>
      show copyRun ifs (92 :: c :: (bytes is ++ s)) = _
      rw [copyRun, ih his hsep', Option.map_map]
      rfl

/-- The items are a run, or begin with one and a separator. -/
theorem exists_separator {ifs : Str} (items : List Item) :
    (∀ i ∈ items, i.separates ifs = false) ∨
      ∃ run c rest, items = run ++ .plain c :: rest ∧ c ∈ ifs ∧
        ∀ i ∈ run, i.separates ifs = false := by
  induction items with
  | nil => exact .inl (by simp)
  | cons i is ih =>
    by_cases hi : i.separates ifs = true
    · cases i with
      | plain c => exact .inr ⟨[], c, is, rfl, by simpa [Item.separates] using hi, by simp⟩
      | quoted c => exact absurd hi (by simp [Item.separates])
    · have hi' : i.separates ifs = false := by simpa using hi
      rcases ih with h | ⟨run, c, rest, rfl, hc, h⟩
      · exact .inl (List.forall_mem_cons.mpr ⟨hi', h⟩)
      · exact .inr ⟨i :: run, c, rest, rfl, hc, List.forall_mem_cons.mpr ⟨hi', h⟩⟩

/-- The arguments of the chain, all of which are marked, and the fields of the items. -/
theorem split_bytes {ifs : Str} (fuel : ℕ) {items : List Item} (hok : ∀ i ∈ items, i.Ok) (t : Str)
    (hfuel : (bytes items ++ 0 :: t).length < fuel) (gchain : Chain) (count : ℕ) :
    ∃ args : List (List Item), (∀ arg ∈ args, ∀ i ∈ arg, i.Ok) ∧
      args.map text = fields ifs items ∧
      split ifs fuel (bytes items ++ 0 :: t) gchain count =
        some ((args.map fun arg => (true, bytes arg)).reverse ++ gchain, count + args.length) := by
  induction fuel generalizing items gchain count with
  | zero => exact absurd hfuel (Nat.not_lt_zero _)
  | succ fuel ih =>
    have hzero : copyRun ifs (0 :: t) = some ([], 0, 0 :: t) := rfl
    rcases @exists_separator ifs items with hrun | ⟨run, c, rest, rfl, hc, hrun⟩
    · have hfields : fields ifs items = if items = [] then [] else [text items] := by
        unfold fields
        rw [List.splitOnP_eq_singleton hrun]
        split_ifs with hnil <;> simp [hnil]
      have hcopy : copyRun ifs (bytes items ++ 0 :: t) = some (bytes items, 0, 0 :: t) := by
        rw [copyRun_bytes hok hrun, hzero]
        simp
      rw [split, hcopy, hfields]
      by_cases hnil : items = []
      · rw [if_pos hnil, hnil]
        exact ⟨[], by simp, rfl, rfl⟩
      · rw [if_neg hnil]
        obtain ⟨js, hjs, htext, htrims⟩ := trims_bytes hok []
        refine ⟨[js], by simpa using hjs, by rw [← htext]; rfl, ?_⟩
        have hpos := List.length_pos_iff.mpr (bytes_ne_nil hnil)
        have hfuel' : 0 < fuel := by
          rw [List.length_append, List.length_cons] at hfuel
          omega
        obtain ⟨f, rfl⟩ := Nat.exists_eq_succ_of_ne_zero (Nat.ne_of_gt hfuel')
        simp only [Option.bind_eq_bind, Option.bind_some, bytes_ne_nil hnil, if_false, htrims]
        rfl
    · obtain ⟨hokrun, hokrest⟩ := List.forall_mem_append.mp hok
      obtain ⟨hokc, hokrest⟩ := List.forall_mem_cons.mp hokrest
      have hbytes : bytes (run ++ .plain c :: rest) ++ 0 :: t =
          bytes run ++ c :: (bytes rest ++ 0 :: t) := by
        simp [bytes, Item.bytes]
      have hcopy : copyRun ifs (bytes run ++ c :: (bytes rest ++ 0 :: t)) =
          some (bytes run, c, bytes rest ++ 0 :: t) := by
        rw [copyRun_bytes hokrun hrun, copyRun_plain hokc, if_pos hc]
        simp
      have hfields : fields ifs (run ++ .plain c :: rest) =
          (if run = [] then [] else [text run]) ++ fields ifs rest := by
        unfold fields
        rw [List.splitOnP_append_cons_of_forall_mem hrun _ (by simpa [Item.separates] using hc)]
        split_ifs with hnil <;> simp [hnil]
      rw [hbytes] at hfuel ⊢
      have hfuel' : (bytes rest ++ 0 :: t).length < fuel := by
        rw [List.length_append, List.length_cons] at hfuel
        omega
      rw [split, hcopy, hfields]
      by_cases hnil : run = []
      · obtain ⟨args, hargs, htext, hsplit⟩ := ih hokrest hfuel' gchain count
        refine ⟨args, hargs, by rw [if_pos hnil]; exact htext, ?_⟩
        simp only [Option.bind_eq_bind, Option.bind_some, hnil, bytes_nil, if_true, ne_eq, hokc.1,
          not_false_eq_true]
        exact hsplit
      · obtain ⟨js, hjs, hjstext, htrims⟩ := trims_bytes hokrun []
        obtain ⟨args, hargs, htext, hsplit⟩ :=
          ih hokrest hfuel' ((true, bytes js) :: gchain) (count + 1)
        refine ⟨js :: args, List.forall_mem_cons.mpr ⟨hjs, hargs⟩, ?_, ?_⟩
        · rw [if_neg hnil, List.map_cons, hjstext, htext]
          rfl
        · simp only [Option.bind_eq_bind, Option.bind_some, bytes_ne_nil hnil, if_false, htrims]
          rw [hsplit]
          simp [Nat.add_assoc, Nat.add_comm 1]

/-- Arguments that are marked one by one keep their order. -/
theorem scanLoop_eq {args : List (List Item)} (hok : ∀ arg ∈ args, ∀ i ∈ arg, i.Ok)
    (done : List Str) :
    scanLoop (args.map fun arg => (true, bytes arg)) [] done =
      some ((args.map text).reverse ++ done) := by
  induction args generalizing done with
  | nil => rfl
  | cons arg args ih =>
    obtain ⟨harg, hargs⟩ := List.forall_mem_cons.mp hok
    have hmark : args.map (fun arg => (true, bytes arg)) = [] ∨
        (args.map fun arg => (true, bytes arg)).head?.map Prod.fst = some true := by
      cases args with
      | nil => exact .inl rfl
      | cons arg args => exact .inr rfl
    have hsort : gsort 32 [text arg] = some [text arg] := by
      rw [gsort]
      exact if_pos (show wrap 32 1 ≤ 1 by decide)
    rw [List.map_cons, scanLoop, trim_bytes harg []]
    simp only [Option.bind_eq_bind, Option.bind_some]
    rw [if_pos hmark, hsort, Option.bind_some, ih hargs]
    simp

/-- The arguments are the fields of the text. -/
theorem arguments_eq (ifs : Str) (items : List Item) (hok : ∀ i ∈ items, i.Ok) (t : Str) :
    arguments ifs (bytes items ++ 0 :: t) = some (fields ifs items) := by
  obtain ⟨args, hargs, htext, hsplit⟩ :=
    @split_bytes ifs _ items hok t (Nat.lt_succ_self _) [] 0
  unfold arguments scan
  rw [hsplit, ← htext]
  simp only [Option.bind_eq_bind, Option.bind_some]
  rw [List.append_nil, ← List.map_reverse, scanLoop_eq fun arg harg =>
    hargs arg (List.mem_reverse.mp harg)]
  simp

/-- `a 'b ' ''` with a blank in IFS. -/
theorem arguments_eq_quoted :
    arguments [32] (bytes [.plain 97, .plain 32, .quoted 98, .quoted 32, .plain 32, .quoted 0] ++
        0 :: []) =
      some (fields [32]
        [.plain 97, .plain 32, .quoted 98, .quoted 32, .plain 32, .quoted 0]) :=
  arguments_eq [32] _ (by simp [Item.Ok]) []

example : fields [32] [.plain 97, .plain 32, .quoted 98, .quoted 32, .plain 32, .quoted 0] =
    [[97], [98, 32], []] := by
  decide

end Unitas.Sh.Fields
