import Mathlib.Data.Fin.Basic
import Mathlib.Logic.Function.Basic
import Unitas.Lib.Decimal
import Unitas.Lib.Literals

/-! `diff3`: two diffs are read into tables, merged, and an editing script is gathered. The tables
have bounds, and every access is checked against them. -/
namespace Unitas.Diff3
open Unitas.Decimal

@[irreducible] def NC : ℕ := 4096
def BUFSIZ : ℕ := 8192

/-- The lines of a range, `stop` is the last of them plus one. -/
structure Range where
  start : ℤ
  stop : ℤ
  deriving DecidableEq, Repr

structure Diff where
  old : Range
  new : Range
  deriving DecidableEq, Repr

/-- Which of the tables `d13` and `d23`. -/
inductive Which where
  | d13
  | d23
  deriving DecidableEq, Repr

/-- Why a run stops: an index outside of a table, more changes than `NC`, a logic error; or the
loop is not followed further. -/
inductive Stop where
  | outside
  | tooMany
  | trouble
  | unfinished
  deriving DecidableEq, Repr

/-- The tables, the rest of each of the three files, `cline` and `last`. -/
structure State where
  diffs : Which → ℕ → Diff
  de : ℕ → Diff
  overlap : ℕ → Bool
  fp : Fin 3 → List UInt8
  cline : Fin 3 → ℤ
  last : Fin 3 → ℤ

abbrev M := StateT State (Except Stop)

def index (i : ℤ) : M ℕ := if 0 ≤ i ∧ i < NC then pure i.toNat else throw .outside

def getDiff (w : Which) (i : ℤ) : M Diff := do
  let i ← index i
  return (← get).diffs w i

def setDiff (w : Which) (i : ℤ) (f : Diff → Diff) : M Unit := do
  let i ← index i
  modify fun s => { s with
    diffs := Function.update s.diffs w (Function.update (s.diffs w) i (f (s.diffs w i))) }

/-! ### The diffs -/

/-- A line into `line`, which has room for `n` more characters; none at the end of the file or when
there is no room. -/
def getlin : ℕ → List UInt8 → List UInt8 → Option (List UInt8 × List UInt8)
  | 0, _, _ => none
  | _ + 1, [], [] => none
  | _ + 1, line, [] => some (line, [])
  | n + 1, line, c :: b => if c = 10 then some (line ++ [c], b) else getlin n (line ++ [c]) b

/-- What `line` holds when a line has been read into it. -/
def fill (line buf : List UInt8) : List UInt8 := line ++ 0 :: buf.drop (line.length + 1)

def number (lc : List UInt8) : ℤ × List UInt8 :=
  (decValue (lc.takeWhile isDigit), lc.dropWhile isDigit)

/-- A number, and another one if a comma comes next. -/
def numbers (p : List UInt8) : ℤ × ℤ × List UInt8 :=
  let (a, p) := number p
  match p with
  | 44 :: p =>
    let (b, p) := number p
    (a, b, p)
  | _ => (a, a, p)

/-- The numbers of a change. -/
def change_of (p : List UInt8) : Diff :=
  let (a, b, p) := numbers p
  let kind := p.head?.getD 0
  let (c, d, _) := numbers p.tail
  let a := if kind = 97 then a + 1 else a
  let c := if kind = 100 then c + 1 else c
  ⟨⟨a, b + 1⟩, ⟨c, d + 1⟩⟩

/-- The changes that `getchange` finds one after the other, `buf` is what `line` holds. -/
def changesFrom : ℕ → List UInt8 → List UInt8 → List Diff
  | 0, _, _ => []
  | fuel + 1, buf, b =>
    match getlin BUFSIZ [] b with
    | none => []
    | some (line, b) =>
      let buf := fill line buf
      if isDigit (line.head?.getD 0) then change_of buf :: changesFrom fuel buf b
      else changesFrom fuel buf b

/-- Every line takes at least one character. -/
def changes (b : List UInt8) : List Diff :=
  changesFrom (b.length + 1) (List.replicate (BUFSIZ + 1) 0) b

/-- The loop of `readin`. -/
def readChanges (w : Which) : ℕ → List Diff → M ℕ
  | i, [] => pure i
  | i, x :: xs =>
    if i ≥ NC then throw .tooMany
    else do
      setDiff w i fun _ => x
      readChanges w (i + 1) xs

def readin (w : Which) (b : List UInt8) : M ℕ := do
  let i ← readChanges w 0 (changes b)
  let x ← getDiff w ((i : ℤ) - 1)
  setDiff w i fun y => { y with old.start := x.old.stop, new.start := x.new.stop }
  return i

/-! ### The files -/

/-- `skip` over `n` lines. -/
def skipLines (i : Fin 3) : ℕ → M ℤ
  | 0 => pure 0
  | n + 1 => do
    match getlin BUFSIZ [] ((← get).fp i) with
    | none => throw .trouble
    | some (line, b) =>
      modify fun s => { s with
        fp := Function.update s.fp i b, cline := Function.update s.cline i (s.cline i + 1) }
      return line.length + (← skipLines i n)

/-- Up to just before a line. -/
def skip (i : Fin 3) (line : ℤ) : M ℤ := do
  skipLines i (line - 1 - (← get).cline i).toNat

def change (i : Fin 3) (rold : Range) (dup : Bool) : M Unit := do
  modify fun s => { s with last := Function.update s.last i rold.stop }
  if dup then pure ()
  else do
    let _ ← skip i rold.start
    let _ ← skip i rold.stop

def keep (i : Fin 3) (rnew : Range) : M Unit := do
  let s ← get
  let delta := s.last 2 - s.last i
  change i ⟨rnew.start - delta, rnew.stop - delta⟩ true

/-- Whether the next `n` lines of two files are the same; both files must have them. -/
def sameLines : ℕ → List UInt8 → List UInt8 → Option Bool
  | 0, _, _ => some true
  | n + 1, c :: f, d :: g =>
    if c ≠ d then some false else sameLines (if c = 10 then n else n + 1) f g
  | _ + 1, _, _ => none

/-- `duplicate`; `repos` takes both files back to where they were. -/
def duplicate (r1 r2 : Range) : M Bool :=
  if r1.stop - r1.start ≠ r2.stop - r2.start then pure false
  else do
    let _ ← skip 0 r1.start
    let _ ← skip 1 r2.start
    let s ← get
    match sameLines (r1.stop - r1.start).toNat (s.fp 0) (s.fp 1) with
    | none => throw .trouble
    | some dup => pure dup

/-! ### The merge -/

def edit (eflag : ℕ) (diff : Diff) (dup : Bool) (j : ℕ) : M ℕ :=
  if ((if dup then 1 else 0) + 1) &&& eflag = 0 then pure j
  else do
    let k ← index (j + 1)
    modify fun s => { s with overlap := Function.update s.overlap k (!dup) }
    let k' ← index j
    let start := ((← get).de k').new.stop + (← skip 2 diff.new.start)
    let stop := start + (← skip 2 diff.new.stop)
    modify fun s => { s with de := Function.update s.de k ⟨diff.old, ⟨start, stop⟩⟩ }
    return j + 1

/-- The places `d1` and `d2` in the tables, and the number of sections that are to be edited. -/
structure Place where
  d1 : ℕ
  d2 : ℕ
  j : ℕ

/-- Extend changes that overlap, so that they coincide. -/
def extend (x y : Diff) : Diff × Diff :=
  let (x, y) :=
    if x.new.start < y.new.start then
      (x, { y with
        old.start := y.old.start - (y.new.start - x.new.start), new.start := x.new.start })
    else if y.new.start < x.new.start then
      ({ x with
        old.start := x.old.start - (x.new.start - y.new.start), new.start := y.new.start }, y)
    else (x, y)
  if x.new.stop > y.new.stop then
    (x, { y with old.stop := y.old.stop + (x.new.stop - y.new.stop), new.stop := x.new.stop })
  else if y.new.stop > x.new.stop then
    ({ x with old.stop := x.old.stop + (y.new.stop - x.new.stop), new.stop := y.new.stop }, y)
  else (x, y)

/-- Whether a change ends before one of the other table begins. -/
def before (w w' : Which) (k k' : ℕ) : M Bool := do
  let x ← getDiff w k
  let y ← getDiff w' k'
  return x.new.stop < y.new.start

/-- Whether a change reaches the next one, if there is one below `m`. -/
def reaches (w : Which) (m k : ℕ) : M Bool :=
  if k + 1 < m then do
    let x ← getDiff w k
    let y ← getDiff w ((k : ℤ) + 1)
    return x.new.stop ≥ y.new.start
  else pure false

/-- A change becomes part of the next one. -/
def mergeNext (w : Which) (k : ℕ) : M Unit := do
  let x ← getDiff w k
  setDiff w ((k : ℤ) + 1) fun y => { y with old.start := x.old.start, new.start := x.new.start }

/-- A change peculiar to the first file, and one peculiar to the second. -/
def first (eflag k : ℕ) : M Unit :=
  if eflag = 0 then do
    let x ← getDiff .d13 k
    change 0 x.old false
    keep 1 x.new
    change 2 x.new false
  else pure ()

def second (eflag k : ℕ) : M Unit :=
  if eflag = 0 then do
    let y ← getDiff .d23 k
    keep 0 y.new
    change 1 y.old false
    change 2 y.new false
  else pure ()

/-- Changes that coincide: peculiar to the third file, or different in all. -/
def third (eflag : ℕ) (x y : Diff) (j : ℕ) : M ℕ := do
  let dup ← duplicate x.old y.old
  if eflag = 0 then do
    change 0 x.old dup
    change 1 y.old false
    change 2 (if x.old.stop > x.old.start then x else y).new false
    return j
  else edit eflag x dup j

/-- One turn of the loop, with `m1` and `m2` changes in the tables. -/
def turn (eflag m1 m2 : ℕ) (p : Place) : M Place := do
  let t1 := p.d1 < m1
  let t2 := p.d2 < m2
  if ← (if ¬ t2 then pure true else if t1 then before .d13 .d23 p.d1 p.d2 else pure false) then
    first eflag p.d1
    return { p with d1 := p.d1 + 1 }
  else if ← (if ¬ t1 then pure true else if t2 then before .d23 .d13 p.d2 p.d1 else pure false) then
    second eflag p.d2
    return { p with d2 := p.d2 + 1 }
  else if ← reaches .d13 m1 p.d1 then
    mergeNext .d13 p.d1
    return { p with d1 := p.d1 + 1 }
  else if ← reaches .d23 m2 p.d2 then
    mergeNext .d23 p.d2
    return { p with d2 := p.d2 + 1 }
  else
    let x ← getDiff .d13 p.d1
    let y ← getDiff .d23 p.d2
    if x.new = y.new then
      let j ← third eflag x y p.j
      return ⟨p.d1 + 1, p.d2 + 1, j⟩
    else
      setDiff .d13 p.d1 fun _ => (extend x y).1
      setDiff .d23 p.d2 fun _ => (extend x y).2
      return p

def turns (eflag m1 m2 : ℕ) : ℕ → Place → M ℕ
  | 0, _ => throw .unfinished
  | fuel + 1, p =>
    if p.d1 < m1 ∨ p.d2 < m2 then do
      let p ← turn eflag m1 m2 p
      turns eflag m1 m2 fuel p
    else pure p.j

/-- The script, the last section first. `file` is the third file, of which a section is copied. -/
def edscript (oflag : Bool) (file : List UInt8) : ℕ → M Unit
  | 0 => pure ()
  | n + 1 => do
    if oflag then
      let _ ← index ((n : ℤ) + 1)
    let k ← index ((n : ℤ) + 1)
    let r := ((← get).de k).new
    if (file.drop r.start.toNat).length < r.stop - r.start then throw .trouble
    else edscript oflag file n

def merge (eflag : ℕ) (oflag : Bool) (m1 m2 fuel : ℕ) (file : List UInt8) : M Unit := do
  let j ← turns eflag m1 m2 fuel ⟨0, 0, 0⟩
  if eflag ≠ 0 then edscript oflag file j else pure ()

/-- The diffs, the first and the second with the third file, and the three files. -/
structure Input where
  d13 : List UInt8
  d23 : List UInt8
  files : Fin 3 → List UInt8

def main (eflag : ℕ) (oflag : Bool) (input : Input) (fuel : ℕ) : M Unit := do
  let m ← readin .d13 input.d13
  let n ← readin .d23 input.d23
  merge eflag oflag m n fuel (input.files 2)

def zero (input : Input) : State where
  diffs _ _ := ⟨⟨0, 0⟩, ⟨0, 0⟩⟩
  de _ := ⟨⟨0, 0⟩, ⟨0, 0⟩⟩
  overlap _ := false
  fp := input.files
  cline _ := 0
  last _ := 0

end Unitas.Diff3
