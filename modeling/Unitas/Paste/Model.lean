import Mathlib

/-! `paste` as the source has it: characters go one by one into a buffer of wide characters. -/
namespace Unitas.Paste

def LINE_MAX : ℕ := 2048
def maxline : ℕ := LINE_MAX - 2
def RUB : ℕ := 127
def MAXOPNF : ℕ := 12

inductive Stop
  | noDelimiters
  | tooManyFiles
  | lineTooLong
  /-- The loop has not ended yet. -/
  | unfinished
  /-- Something is stored behind the end of an array. -/
  | overrun
  deriving DecidableEq, Repr

/-- The list of `move`, with the argument as `mbtowc` decodes it. A backslash at its end makes
`move` return 0. -/
def move : List ℕ → Option (List ℕ)
  | [] => some []
  | [c] => if c = 92 then none else some [c]
  | c :: d :: s =>
    if c ≠ 92 then (move (d :: s)).map (c :: ·)
    else (move s).map ((if d = 48 then RUB else if d = 116 then 9 else if d = 110 then 10 else d) :: ·)

/-- `del` and `delcount`. -/
def getDel : Option (List ℕ) → Except Stop (List ℕ)
  | none => .ok [9]
  | some arg =>
    match move arg with
    | none => .error .noDelimiters
    | some del =>
      if del.length > LINE_MAX then .error .overrun
      else if del.length < 1 then .error .noDelimiters
      else .ok del

/-- `*p++ = c` -/
def put (buf : List ℕ) (c : ℕ) : Except Stop (List ℕ) :=
  if buf.length < LINE_MAX then .ok (buf ++ [c]) else .error .overrun

/-- `if (l != RUB) *p++ = l` -/
def putDel (buf : List ℕ) (l : ℕ) : Except Stop (List ℕ) := if l ≠ RUB then put buf l else .ok buf

/-- `*p = 0` and `printf("%ws", outbuf)`, of which the first null character is the end. -/
def print (buf : List ℕ) : Except Stop (List ℕ) :=
  if buf.length < LINE_MAX then .ok (buf.takeWhile (· ≠ 0)) else .error .overrun

/-- The loop over a line of one file. The third part of the result tells that `c` is `EOF`. -/
def fill : ℕ → List ℕ → List UInt8 → Except Stop (ℕ × List ℕ × Bool × List UInt8)
  | j, buf, [] => .ok (j, buf, true, [])
  | j, buf, c :: file =>
    if c = 10 then .ok (j, buf, false, file)
    else if j + 1 ≤ maxline then do
      let buf ← put buf c.toNat
      fill (j + 1) buf file
    else .error .lineTooLong

/-- What the loop over the files leaves: `l`, `eofcount`, the buffer and the files. -/
structure Row where
  l : ℕ
  eofcount : ℕ
  buf : List ℕ
  files : List (List UInt8)

/-- The newline takes the place of the last delimiter. -/
def Row.newline (r : Row) : Except Stop (List ℕ) :=
  if r.l ≠ RUB then .ok (r.buf.dropLast ++ [10]) else put r.buf 10

def rowLoop (del : List ℕ) (j k : ℕ) (r : Row) : List (List UInt8) → Except Stop Row
  | [] => .ok r
  | file :: files => do
    let (j, buf, eof, file) ← fill j r.buf file
    let l := del.getD k 0
    let buf ← putDel buf l
    rowLoop del j ((k + 1) % del.length)
      ⟨l, if eof then r.eofcount + 1 else r.eofcount, buf, r.files ++ [file]⟩ files

/-- A turn of the loop of parallel merging; `l` is left over from the last one. -/
def row (del : List ℕ) (l : ℕ) (files : List (List UInt8)) : Except Stop (Row × List ℕ) := do
  let r ← rowLoop del 0 0 ⟨l, 0, [], []⟩ files
  let buf ← r.newline
  let text ← print buf
  .ok (r, text)

def parallel (del : List ℕ) : ℕ → ℕ → List (List UInt8) → Except Stop (List ℕ)
  | 0, _, _ => .error .unfinished
  | fuel + 1, l, files => do
    let (r, text) ← row del l files
    if r.eofcount < files.length then do
      let rest ← parallel del fuel r.l r.files
      .ok (text ++ rest)
    else .ok []

/-- The variables of serial pasting; `out` is what has been printed. -/
structure Serial where
  out : List ℕ
  buf : List ℕ
  glue : Bool
  j : ℕ
  k : ℕ
  t : ℕ

/-- `if (j >= maxline)` -/
def Serial.flush (s : Serial) : Except Stop Serial :=
  if s.j ≥ maxline then do
    let text ← print s.buf
    .ok { s with t := s.buf.getLastD 0, out := s.out ++ text, buf := [], j := 0 }
  else .ok s

/-- `if (glue)` -/
def Serial.delimiter (del : List ℕ) (s : Serial) : Except Stop Serial :=
  if s.glue then do
    let l := del.getD s.k 0
    let s ← if l ≠ RUB then do
        let buf ← put s.buf l
        .ok { s with buf, t := l, j := s.j + 1 }
      else .ok s
    .ok { s with glue := false, k := (s.k + 1) % del.length }
  else .ok s

def Serial.char (c : UInt8) (s : Serial) : Except Stop Serial :=
  if c ≠ 10 then do
    let buf ← put s.buf c.toNat
    .ok { s with buf, t := c.toNat, j := s.j + 1 }
  else .ok { s with glue := true }

def serialLoop (del : List ℕ) : Serial → List UInt8 → Except Stop Serial
  | s, [] => .ok s
  | s, c :: file => do
    let s ← s.flush
    let s ← s.delimiter del
    let s ← s.char c
    serialLoop del s file

def serialFile (del : List ℕ) (file : List UInt8) : Except Stop (List ℕ) := do
  let s ← serialLoop del ⟨[], [], false, 0, 0, 0⟩ file
  let s ← if s.t ≠ 10 then do
      let buf ← put s.buf 10
      .ok { s with buf, j := s.j + 1 }
    else .ok s
  if s.j > 0 then do
    let text ← print s.buf
    .ok (s.out ++ text)
  else .ok s.out

def serial (del : List ℕ) : List (List UInt8) → Except Stop (List ℕ)
  | [] => .ok []
  | file :: files => do
    let text ← serialFile del file
    let rest ← serial del files
    .ok (text ++ rest)

/-- The argument of `-d`, whether `-s` is given, and what `l` holds at first. -/
structure Opts where
  d : Option (List ℕ)
  onefile : Bool
  l : ℕ

/-- The output for files that can be read. -/
def main (o : Opts) (files : List (List UInt8)) : Except Stop (List ℕ) := do
  let del ← getDel o.d
  if o.onefile then serial del files
  else if files.length > MAXOPNF then .error .tooManyFiles
  else parallel del ((files.map List.length).sum + 1) o.l files

end Unitas.Paste
