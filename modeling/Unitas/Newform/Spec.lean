import Mathlib
import Unitas.Newform.Expand
import Unitas.Lib.Literals

/-! Tab specifications. The lists of stops are in one table, one after another. -/
namespace Unitas.Newform

inductive Fault
  /-- `tabspec in error` -/
  | tabspec
  /-- `tabspec indirection illegal` -/
  | indirection
  /-- There is no such file, or nothing in it. -/
  | file
  /-- A number that is no `int`. -/
  | overflow
  /-- More than `number`, `tabtbl` or `spectbl` have room for. -/
  | overrun

def NUMBERS : ℕ := 40
def TABS : ℕ := 500
def SPECS : ℕ := 40

/-! ### Reading -/

/-- What `spectype` and the variables beside it come to. -/
inductive Spec
  | table (k : Fin 10)
  | step (n : ℕ)
  | numbers (ns : List ℕ)
  | stdin
  | file (name : Str)

/-- The states 0 to 14; `last` is any of those in which only the end may follow. -/
inductive State
  | start
  | number (n : ℕ) (before : List ℕ)
  | comma (before : List ℕ)
  | dash
  | dashdash
  | a
  | c
  | last (k : Fin 10)
  | dashnumber (n : ℕ)

def isNumber (c : UInt8) : Bool := 48 ≤ c && c ≤ 57

/-- `number * 10 + c - '0'` -/
def grow (n : ℕ) (c : UInt8) : Except Fault ℕ :=
  if n * 10 + c.toNat < 2 ^ 31 then .ok (n * 10 + c.toNat - 48) else .error .overflow

/-- The loop of `cnvtspec`. The numbers that have been read before are reversed. -/
def scan : State → Str → Except Fault Spec
  | .start, [] => .ok (.table 0)
  | .start, c :: p =>
    if isNumber c then scan (.number (c.toNat - 48) []) p
    else if c = 45 then scan .dash p else .error .tabspec
  | .number n ns, [] => .ok (.numbers (n :: ns).reverse)
  | .number n ns, c :: p =>
    if isNumber c then do
      let n ← grow n c
      scan (.number n ns) p
    else if c = 44 then scan (.comma (n :: ns)) p else .error .tabspec
  | .comma _, [] => .error .tabspec
  | .comma ns, c :: p =>
    if isNumber c then
      if ns.length < NUMBERS then scan (.number (c.toNat - 48) ns) p else .error .overrun
    else .error .tabspec
  | .dash, [] => .error .tabspec
  | .dash, c :: p =>
    if c = 45 then scan .dashdash p
    else if c = 97 then scan .a p
    else if c = 99 then scan .c p
    else if c = 102 then scan (.last 6) p
    else if c = 112 then scan (.last 7) p
    else if c = 115 then scan (.last 8) p
    else if c = 117 then scan (.last 9) p
    else if isNumber c then scan (.dashnumber (c.toNat - 48)) p else .error .tabspec
  | .dashdash, [] => .ok .stdin
  | .dashdash, c :: p => .ok (.file (c :: p))
  | .a, [] => .ok (.table 1)
  | .a, c :: p => if c = 50 then scan (.last 2) p else .error .tabspec
  | .c, [] => .ok (.table 3)
  | .c, c :: p =>
    if c = 50 then scan (.last 4) p else if c = 51 then scan (.last 5) p else .error .tabspec
  | .last k, [] => .ok (.table k)
  | .last _, _ :: _ => .error .tabspec
  | .dashnumber n, [] => .ok (.step n)
  | .dashnumber n, c :: p =>
    if isNumber c then do
      let n ← grow n c
      scan (.dashnumber n) p
    else .error .tabspec

/-- The states of `readspec`. -/
inductive ReadState
  | start
  | bracket
  | word
  | other
  | spec
  | rest
  | colon

def isBlank (c : UInt8) : Bool := c = 32 || c = 9

/-- The specification in a line that `readspec` has found at its end; `none` is for a line without
one. -/
def readspec : ReadState → Str → Str → Option Str
  | _, _, [] => none
  | .start, spec, c :: p => readspec (if c = 60 then .bracket else .start) spec p
  | .bracket, spec, c :: p => readspec (if c = 58 then .word else .start) spec p
  | .word, spec, c :: p =>
    readspec (if c = 116 then .spec else if isBlank c then .word else .other) spec p
  | .other, spec, c :: p => readspec (if isBlank c then .word else .other) spec p
  | .spec, spec, c :: p =>
    if c = 58 then readspec .colon spec p
    else if isBlank c then readspec .rest spec p else readspec .spec (spec ++ [c]) p
  | .rest, spec, c :: p => readspec (if c = 58 then .colon else .rest) spec p
  | .colon, spec, c :: p =>
    if c = 62 then some (spec.takeWhile (· ≠ 0)) else readspec .rest spec p

/-! ### The table -/

/-- The variables of `cnvtspec` that last. -/
structure Specs where
  tabtbl : ℕ → ℕ
  nexttab : ℕ
  spectbl : ℕ → ℕ
  nextspec : ℕ
  sitabspec : Option ℕ

def entries : List ℕ := [
  1, 9, 17, 25, 33, 41, 49, 57, 65, 73, 0,
  1, 10, 16, 36, 72, 0,
  1, 10, 16, 40, 72, 0,
  1, 8, 12, 16, 20, 55, 0,
  1, 6, 10, 14, 49, 0,
  1, 6, 10, 14, 18, 22, 26, 30, 34, 38, 42, 46, 50, 54, 58, 62, 67, 0,
  1, 7, 11, 15, 19, 23, 0,
  1, 5, 9, 13, 17, 21, 25, 29, 33, 37, 41, 45, 49, 53, 57, 61, 0,
  1, 10, 55, 0,
  1, 12, 20, 44, 0]

def places : List ℕ := [0, 11, 17, 23, 30, 36, 54, 61, 78, 82]

def initial : Specs where
  tabtbl i := entries.getD i 0
  nexttab := 87
  spectbl k := places.getD k 0
  nextspec := 10
  sitabspec := none

/-- The loop for `-number`, from the entry at `p` on. -/
def stepLoop (n : ℕ) : ℕ → ℕ → (ℕ → ℕ) → ℕ × (ℕ → ℕ)
  | 0, p, t => (p, t)
  | fuel + 1, p, t =>
    if t p < LINELEN then
      let t := Function.update t (p + 1) (t p)
      stepLoop n fuel (p + 1) (Function.update t (p + 1) (t (p + 1) + n))
    else (p, t)

/-- The loop over the numbers. -/
def numberLoop : List ℕ → ℕ → (ℕ → ℕ) → Except Fault (ℕ × (ℕ → ℕ))
  | [], p, t => .ok (p, t)
  | n :: ns, p, t =>
    if ∀ n' ∈ ns.head?, n < n' then numberLoop ns (p + 1) (Function.update t p n)
    else .error .tabspec

/-- The next slot is for a list that ends before `p`. -/
def Specs.slot (s : Specs) (p : ℕ) (t : ℕ → ℕ) : Except Fault (ℕ × Specs) :=
  if s.nextspec < SPECS ∧ p < TABS then
    .ok (s.nextspec,
      { s with tabtbl := Function.update t p 0, nexttab := p + 1,
               spectbl := Function.update s.spectbl s.nextspec s.nexttab,
               nextspec := s.nextspec + 1 })
  else .error .overrun

/-- A specification that is not read from a file. -/
def Specs.enter (s : Specs) : Spec → Except Fault (ℕ × Specs)
  | .table k => .ok (k, s)
  | .step n =>
    let n := if n = 0 then 1 else n
    if 1 + n < 2 ^ 31 then
      let (p, t) := stepLoop n LINELEN s.nexttab (Function.update s.tabtbl s.nexttab 1)
      s.slot p t
    else .error .overflow
  | .numbers ns => do
    let (p, t) ← numberLoop ns (s.nexttab + 1) (Function.update s.tabtbl s.nexttab 1)
    s.slot p t
  | .stdin | .file _ => .error .indirection

/-- The first lines of the standard input and of the files. -/
structure Lines where
  stdin : Option Str
  file : Str → Option Str

/-- With `lock` set. -/
def Specs.indirect (s : Specs) (line : Str) : Except Fault (ℕ × Specs) :=
  match readspec .start [] line with
  | none => .ok (0, s)
  | some p => do
    let spec ← scan .start p
    s.enter spec

/-- After the loop. -/
def Specs.select (lines : Lines) (s : Specs) : Spec → Except Fault (ℕ × Specs)
  | .stdin =>
    match s.sitabspec, lines.stdin with
    | some k, _ => .ok (k, s)
    | none, none => .ok (0, s)
    | none, some line => do
      let (k, s) ← s.indirect line
      .ok (k, { s with sitabspec := some k })
  | .file name =>
    match lines.file name with
    | none => .error .file
    | some line => s.indirect line
  | spec => s.enter spec

def cnvtspec (lines : Lines) (s : Specs) (p : Str) : Except Fault (ℕ × Specs) :=
  scan .start p >>= s.select lines

/-- The specifications of a command line, one after another. -/
def cnvtspecs (lines : Lines) : List Str → Specs → Except Fault (List ℕ × Specs)
  | [], s => .ok ([], s)
  | p :: ps, s => do
    let (k, s) ← cnvtspec lines s p
    let (ks, s) ← cnvtspecs lines ps s
    .ok (k :: ks, s)

end Unitas.Newform
