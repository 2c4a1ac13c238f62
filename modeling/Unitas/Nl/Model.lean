import Mathlib.Data.List.Basic
import Mathlib.Data.List.TakeWhile

/-! `nl` for the types `a`, `t` and `n`, as it is computed. -/
namespace Unitas.Nl

inductive Kind where
  | a
  | t
  | n
  deriving DecidableEq

/-- `ln`, `rn` and `rz`. -/
inductive Format where
  | l
  | n
  | z
  deriving DecidableEq

inductive Section where
  | header
  | body
  | footer
  deriving DecidableEq

/-- Size of `sep`, with the null byte behind the separator. -/
def EXPSIZ : ℕ := 512

structure Options where
  header : Kind
  body : Kind
  footer : Kind
  /-- `-p` -/
  cntck : Bool
  startcnt : ℕ
  increment : ℕ
  blank : ℕ
  format : Format
  sep : List UInt8
  width : ℕ
  delim1 : UInt8
  delim2 : UInt8
  blank_pos : 0 < blank
  width_pos : 0 < width
  width_le : width ≤ 99
  delim1_ne : delim1 ≠ 0
  delim2_ne : delim2 ≠ 0

def Options.kind (o : Options) : Section → Kind
  | .header => o.header
  | .body => o.body
  | .footer => o.footer

structure State where
  cnt : ℕ
  type : Kind
  last : Section
  blankctr : ℕ
  pad : UInt8

/-- At most `n` bytes, and none after a newline. -/
def fgets : ℕ → List UInt8 → List UInt8 × List UInt8
  | 0, file => ([], file)
  | _ + 1, [] => ([], [])
  | n + 1, c :: file =>
    if c = 10 then ([c], file) else (c :: (fgets n file).1, (fgets n file).2)

def num (v : ℕ) : ℕ → List UInt8 → List UInt8
  | p, nbuf =>
    if v < 10 then nbuf.set p (UInt8.ofNat (v + 48))
    else
      match p with
      | 0 => nbuf.set 0 (UInt8.ofNat (v % 10 + 48))
      | p + 1 => num (v / 10) p (nbuf.set (p + 1) (UInt8.ofNat (v % 10 + 48)))

/-- The blanks before the number go behind it. Nothing comes of a buffer of blanks only. -/
def shift : ℕ → List UInt8 → Option (List UInt8)
  | 0, nbuf => if nbuf.head? = some 32 then none else some nbuf
  | k + 1, nbuf => if nbuf.head? = some 32 then shift k (nbuf.tail ++ [32]) else some nbuf

/-- `nbuf` is the first `width` bytes of it; the byte after them is never written. -/
def pnum (o : Options) (pad : UInt8) (n : ℕ) : Option (UInt8 × List UInt8) := do
  let pad := if o.format = .z then 48 else pad
  let nbuf := num n (o.width - 1) (List.replicate o.width pad)
  let nbuf ← if o.format = .l then shift o.width nbuf else some nbuf
  some (pad, nbuf ++ o.sep)

def npad (o : Options) : UInt8 × List UInt8 :=
  (32, List.replicate o.width 32 ++ List.replicate o.sep.length 32)

section Step

variable (INT_MAX : ℕ) (o : Options)

/-- The line has a number. Nothing is known of an overflow of `cnt`. -/
def count (s : State) : Option (State × List UInt8) := do
  let (pad, out) ← pnum o s.pad s.cnt
  if s.cnt + o.increment ≤ INT_MAX then
    some ({ s with cnt := s.cnt + o.increment, pad := pad }, out)
  else none

def skip (s : State) : Option (State × List UInt8) :=
  some ({ s with pad := (npad o).1 }, (npad o).2)

/-- The switch on `type`. -/
def number (s : State) (newline : Bool) : Option (State × List UInt8) :=
  match s.type with
  | .n => skip o s
  | .t => if newline then skip o s else count INT_MAX o s
  | .a =>
    if newline then
      if o.blank = s.blankctr + 1 then count INT_MAX o { s with blankctr := 0 }
      else skip o { s with blankctr := s.blankctr + 1 }
    else count INT_MAX o { s with blankctr := 0 }

/-- The delimiter lines: the state after one of them. -/
def delimiter (s : State) (p : List UInt8) : Option State :=
  let d := [o.delim1, o.delim2]
  if (d ++ d ++ d ++ [10]).isPrefixOf p then
    some { s with
      cnt := if !o.cntck then o.startcnt else s.cnt
      type := o.header
      last := .header }
  else if (d ++ d ++ [10]).isPrefixOf p then
    some { s with
      cnt := if !o.cntck && decide (s.last ≠ .header) then o.startcnt else s.cnt
      type := o.body
      last := .body }
  else if (d ++ [10]).isPrefixOf p then
    some { s with
      cnt := if !o.cntck && decide (s.last = .footer) then o.startcnt else s.cnt
      type := o.footer
      last := .footer }
  else none

def strlen (p : List UInt8) : ℕ := (p.takeWhile (· ≠ 0)).length

/-- The body of the main loop for the line `p`. A line that begins with a zero byte has nothing
at `lnt-1`. -/
def step (s : State) (p : List UInt8) : Option (State × List UInt8) :=
  match delimiter o s p with
  | some s => some (s, [10])
  | none =>
    if p.head? = some 10 then do
      let (s, out) ← number INT_MAX o s true
      some (s, out ++ p.takeWhile (· ≠ 0))
    else
      let lnt := strlen p
      if lnt = 0 then none
      else do
        let p := if p[lnt - 1]? = some 10 then p.set (lnt - 1) 0 else p
        let (s, out) ← number INT_MAX o s (decide (p.head? = some 10))
        let p := if p.head? = some 10 then p else p.set (lnt - 1) 10
        some (s, out ++ p.takeWhile (· ≠ 0))

/-- The main loop; the first argument is an upper bound of the turns. -/
def mainFrom (LINE_MAX : ℕ) : ℕ → State → List UInt8 → Option (List UInt8)
  | 0, _, _ => some []
  | fuel + 1, s, file =>
    if file = [] then some []
    else do
      let (s, out) ← step INT_MAX o s (fgets (LINE_MAX - 1) file).1
      let rest ← mainFrom LINE_MAX fuel s (fgets (LINE_MAX - 1) file).2
      some (out ++ rest)

/-- The option `-s` copies its argument to `sep` whatever its length, and nothing is known of what
is stored behind that array. -/
def main (LINE_MAX : ℕ) (file : List UInt8) : Option (List UInt8) :=
  if o.sep.length < EXPSIZ then
    mainFrom INT_MAX o LINE_MAX file.length ⟨o.startcnt, o.body, .body, 0, 32⟩ file
  else none

end Step

end Unitas.Nl
