import Unitas.Lib.Decimal

/-! `sdiff` without options: it reads the commands that `diff -b` writes and walks through the two
files along them. -/
namespace Unitas.Sdiff
open Unitas.Decimal

abbrev Line := List UInt8

def BUFSIZ : ℕ := 8192

def WGUTTER : ℕ := 6

/-- At most `n` bytes, up to a newline, and the rest. -/
def fgets : ℕ → Line → Line × Line
  | 0, file => ([], file)
  | _ + 1, [] => ([], [])
  | n + 1, c :: file =>
    if c = 10 then ([c], file)
    else (c :: (fgets n file).1, (fgets n file).2)

/-- The loop of `fgetline`: the buffer has `blen` bytes and is full without a newline at its end. -/
def grow : ℕ → ℕ → Line → Line → Line × ℕ × Line
  | 0, blen, bp, file => (bp, blen, file)
  | fuel + 1, blen, bp, file =>
    if bp.length = blen - 1 ∧ bp.getLast? ≠ some 10 then
      let more := fgets (blen * 2 - bp.length - 1) file
      grow fuel (blen * 2) (bp ++ more.1) more.2
    else (bp, blen, file)

/-- The line, the size of the buffer, and the rest of the file. -/
def fgetline (blen : ℕ) (file : Line) : Option (Line × ℕ × Line) :=
  match file with
  | [] => none
  | _ =>
    let bp := fgets (blen - 1) file
    -- feof
    if bp.2 = [] ∧ bp.1.length < blen - 1 ∧ bp.1.getLast? ≠ some 10 then some (bp.1, blen, [])
    else some (grow (file.length + 1) blen bp.1 bp.2)

def isspace (c : UInt8) : Bool := c = 32 ∨ 9 ≤ c ∧ c ≤ 13

section Output

variable (hlen : ℕ)

/-- The loop of `getlen`, with `tlen`, `nchars` and `notspace`. -/
def getlenFrom : Line → ℕ → ℕ → Bool → ℕ × ℕ
  | [], tlen, nchars, notspace => (if notspace then tlen else 0, nchars)
  | c :: cp, tlen, nchars, notspace =>
    if c = 10 ∨ c = 0 then (if notspace then tlen else 0, nchars)
    else if c = 9 then
      if hlen ≤ tlen + (8 - tlen % 8) then (if notspace then tlen else 0, nchars)
      else getlenFrom cp (tlen + (8 - tlen % 8)) (nchars + 1) notspace
    else if c < 128 then
      if hlen ≤ tlen + 1 then (if notspace then tlen else 0, nchars)
      else getlenFrom cp (tlen + 1) (nchars + 1) (notspace || !isspace c)
    else getlenFrom cp tlen nchars notspace

def getlen (startpos : ℕ) (buffer : Line) : ℕ × ℕ := getlenFrom hlen buffer startpos 0 false

/-- The variables of `sdiff`. `log1` and `log2` are the lines that `put1` and `put2` have read, with
the mark of their time. -/
structure State where
  fdes1 : Line
  fdes2 : Line
  diffdes : Line
  blen : ℕ
  num1 : ℕ
  num2 : ℕ
  len1 : ℕ
  change : UInt8
  midflg : Bool
  rcode : ℕ
  stdout : Line
  log1 : List (Line × UInt8)
  log2 : List (Line × UInt8)

def State.print (s : State) (text : Line) : State := { s with stdout := s.stdout ++ text }

def putmid (s : State) : State :=
  { s with
    midflg := true
    stdout := s.stdout ++ List.replicate (hlen - s.len1) (32 : UInt8) ++ [32, 32, s.change, 32, 32] }

def put1 (s : State) : State × Bool :=
  match fgetline s.blen s.fdes1 with
  | none => (s, false)
  | some (bp, blen, file) =>
    let len := getlen hlen 0 bp
    let s := { s with fdes1 := file, blen := blen, len1 := len.1 }
    let s := if s.len1 ≠ 0 then s.print (bp.take len.2) else s
    let s := if s.change = 32 then s else putmid hlen s
    ({ s with num1 := s.num1 + 1, log1 := s.log1 ++ [(bp, s.change)] }, true)

def put2 (s : State) : State × Bool :=
  match fgetline s.blen s.fdes2 with
  | none => ({ s with len1 := 0 }, false)
  | some (bp, blen, file) =>
    let len := getlen hlen ((hlen + WGUTTER) % 8) bp
    let s := { s with fdes2 := file, blen := blen }
    let s :=
      if s.change ≠ (32 : UInt8) ∨ s.len1 ≠ 0 then
        (if s.midflg then s else putmid hlen s).print (bp.take len.2)
      else s
    ({ s with num2 := s.num2 + 1, len1 := 0, log2 := s.log2 ++ [(bp, s.change)] }, true)

/-- `putc('\n', stdout)` and `midflg = 0` -/
def newline (s : State) : State := { s.print [10] with midflg := false }

/-- `n` turns of a loop with both sides. -/
def both : ℕ → State → State
  | 0, s => s
  | n + 1, s => both n (newline (put2 hlen (put1 hlen s).1).1)

/-- The loops up to `to1` and `to2`. They do not end after the end of the file. -/
def lefts : ℕ → State → Option State
  | 0, s => some s
  | n + 1, s =>
    match put1 hlen s with
    | (_, false) => none
    | (s, true) => lefts n (newline s)

def rights : ℕ → State → Option State
  | 0, s => some s
  | n + 1, s =>
    match put2 hlen s with
    | (_, false) => none
    | (s, true) => rights n (newline s)

structure Cmd where
  com : UInt8
  from1 : ℕ
  to1 : ℕ
  from2 : ℕ
  to2 : ℕ

/-- A line number or two of them. -/
def range (cp : Line) : ℕ × ℕ × Line :=
  let num := decValue (cp.takeWhile isDigit)
  match cp.dropWhile isDigit with
  | 44 :: cp => (num, decValue (cp.takeWhile isDigit), cp.dropWhile isDigit)
  | cp => (num, num, cp)

def cmd (start : Line) : Option Cmd :=
  if start.head? ∈ [some 62, some 60, some 45, some 46] then none
  else
    let r1 := range start
    let r2 := range r1.2.2.tail
    let com := r1.2.2.head?.getD 0
    if com = 0 then none else some ⟨com, r1.1, r1.2.1, r2.1, r2.2.1⟩

/-- What the main loop does for a command. -/
def hunk (c : Cmd) (s : State) : Option State :=
  let n1 : ℤ := c.from1 - s.num1
  let n2 : ℤ := c.from2 - s.num2
  let n := if n1 > n2 then n2 else n1
  let n := if c.com = 99 ∧ n > 0 then n - 1 else n
  let s := both hlen n.toNat { s with rcode := 1 }
  if c.com = 97 then rights hlen (c.to2 - s.num2) { s with change := 62 }
  else if c.com = 100 then lefts hlen (c.to1 - s.num1) { s with change := 60 }
  else if c.com = 99 then
    -- the body is done once more than the smaller of the two differences
    let n := min (c.to1 - c.from1) (c.to2 - c.from2)
    let s := both hlen (n + 1) { s with change := 124 }
    (lefts hlen (c.to1 - s.num1) { s with change := 60 }).bind fun s =>
      rights hlen (c.to2 - s.num2) { s with change := 62 }
  else some s

/-- The main loop. -/
def loop : ℕ → State → Option State
  | 0, _ => none
  | fuel + 1, s =>
    match fgetline s.blen s.diffdes with
    | none => some s
    | some (bp, blen, file) =>
      let s := { s with diffdes := file, blen := blen, change := 32 }
      match cmd bp with
      | none => loop fuel s
      | some c => (hunk hlen c s).bind (loop fuel)

/-- The remainder of both files. -/
def remainder : ℕ → State → Option State
  | 0, _ => none
  | fuel + 1, s =>
    match put1 hlen s with
    | (s, false) => some s
    | (s, true) => remainder fuel (newline (put2 hlen s).1)

/-- `blen`, `num1` and `num2` are `int`s that only grow. When `blen` is doubled to `2 ^ 31`, there is
no memory, and `sdiff` ends. -/
def main (file1 file2 diff : Line) : Option State :=
  ((loop hlen (diff.length + 1) ⟨file1, file2, diff, BUFSIZ, 0, 0, 0, 32, false, 0, [], [], []⟩).bind
    fun s => remainder hlen (s.fdes1.length + 1) s).filter
      fun s => s.blen < 2 ^ 31 && s.num1 < 2 ^ 31 && s.num2 < 2 ^ 31

end Output

end Unitas.Sdiff
