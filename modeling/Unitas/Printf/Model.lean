import Mathlib.Data.UInt
import Unitas.Lib.Decimal

/-! `printf` as the source has it: a machine of four states that is fed the format. -/
namespace Unitas.Printf
open Unitas.Decimal

def BUFSIZ : ℕ := 8192

inductive Arg
  | str (s : List UInt8)
  | num (z : ℤ)
  | char (c : UInt8)

def decimalInt (z : ℤ) : List UInt8 :=
  if z < 0 then 45 :: decimal z.natAbs else decimal z.natAbs

/-- A number that an `int` holds. -/
def IsInt (z : ℤ) : Prop := -2 ^ 31 ≤ z ∧ z < 2 ^ 31

instance (z : ℤ) : Decidable (IsInt z) := inferInstanceAs (Decidable (_ ∧ _))

/-- The C library. `sprintf` makes one conversion and has no result where the conversion is
undefined; with `%d` it is given a `long`, and defined are only those that an `int` holds. -/
structure Libc where
  sprintf : List UInt8 → Arg → Option (List UInt8)
  sprintf_str : ∀ s, sprintf [37, 115] (.str s) = some s
  sprintf_num : ∀ z, sprintf [37, 100] (.num z) = if IsInt z then some (decimalInt z) else none

inductive Stop
  /-- The format ends in the middle of a conversion or an escape. -/
  | malformed
  /-- Something is stored behind the end of a buffer. -/
  | overrun
  | undefined
  /-- `exit`, with what has been written -/
  | exit (out : List UInt8)
  | unfinished
  deriving DecidableEq, Repr

def isOctal (c : UInt8) : Bool := 48 ≤ c && c ≤ 55

def hexDigit (c : UInt8) : Bool := isDigit c || (65 ≤ c && c ≤ 70) || (97 ≤ c && c ≤ 102)

def hexVal (c : UInt8) : ℕ := if isDigit c then c.toNat - 48 else c.toNat % 32 + 9

/-- Behind the sign: a number in hexadecimal, octal or decimal, as its beginning says. -/
def magnitude (s : List UInt8) : ℕ :=
  let octalVal := (s.takeWhile isOctal).foldl (fun v c => 8 * v + (c.toNat - 48)) 0
  match s with
  | 48 :: x :: h :: _ =>
    if (x = 120 ∨ x = 88) ∧ hexDigit h then
      ((s.drop 2).takeWhile hexDigit).foldl (fun v c => 16 * v + hexVal c) 0
    else octalVal
  | 48 :: _ => octalVal
  | _ => decValue (s.takeWhile isDigit)

def isSpace (c : UInt8) : Bool := c = 32 || (9 ≤ c && c ≤ 13)

/-- `strtol(s, 0, 0)` -/
def strtol (s : List UInt8) : ℤ :=
  let s := s.dropWhile isSpace
  if s.head? = some 45 then max (-(magnitude s.tail : ℤ)) (-2 ^ 63)
  else if s.head? = some 43 then min (magnitude s.tail) (2 ^ 63 - 1)
  else min (magnitude s) (2 ^ 63 - 1)

/-- `buf[strlen(buf)]=c` -/
def store (buf : List UInt8) (c : UInt8) : Except Stop (List UInt8) :=
  if c = 0 then .ok buf
  else if buf.length + 1 < BUFSIZ then .ok (buf ++ [c]) else .error .overrun

/-- `sprintf` to the end of the buffer. -/
def print (lib : Libc) (buf fbuf : List UInt8) (arg : Arg) : Except Stop (List UInt8) :=
  match lib.sprintf fbuf arg with
  | none => .error .undefined
  | some s =>
    if buf.length + s.length < BUFSIZ then .ok (buf ++ s.takeWhile (· ≠ 0)) else .error .overrun

/-- What a letter after a backslash stands for. -/
def escape (c : UInt8) : Option UInt8 :=
  match c.toNat with
  | 92 => some 92
  | 97 => some 7
  | 98 => some 8
  | 102 => some 12
  | 110 => some 10
  | 114 => some 13
  | 116 => some 9
  | 118 => some 11
  | _ => none

/-! The argument of `%b`. `bbuf` is an array. -/

def strlen (s : List UInt8) : ℕ := (s.takeWhile (· ≠ 0)).length

def storeB (bbuf : List UInt8) (c : UInt8) : Except Stop (List UInt8) :=
  if strlen bbuf + 1 < BUFSIZ then .ok (bbuf.set (strlen bbuf) c) else .error .overrun

/-- The loop over the argument. An octal escape goes where `buf` ends. The second part of the
result tells that `\c` has been met. -/
def loopB (buf : List UInt8) : Option ℕ → List UInt8 → List UInt8 →
    Except Stop (List UInt8 × Bool)
  | _, bbuf, [] => .ok (bbuf, false)
  | octal, bbuf, c :: j =>
    match octal, isOctal c && (octal.getD 0 <<< 3 ||| (c.toNat - 48)) ≤ 255 with
    | some o, true => loopB buf (some (o <<< 3 ||| (c.toNat - 48))) bbuf j
    | octal, _ =>
      let bbuf := match octal with
        | some o => bbuf.set buf.length (UInt8.ofNat o)
        | none => bbuf
      if c = 92 then
        match j with
        | [] => do
          let bbuf ← storeB bbuf 92
          .ok (bbuf, false)
        | d :: j =>
          if isOctal d then loopB buf (some (d.toNat - 48)) bbuf j
          else if d = 99 then .ok (bbuf, true)
          else match escape d with
            | some e => do
              let bbuf ← storeB bbuf e
              loopB buf none bbuf j
            | none => do
              let bbuf ← storeB bbuf 92
              let bbuf ← storeB bbuf d
              loopB buf none bbuf j
      else do
        let bbuf ← storeB bbuf c
        loopB buf none bbuf j

/-! The machine. -/

inductive Mode
  | normal
  | backslash
  | percent
  | octal
  deriving DecidableEq, Repr

structure State where
  state : Mode
  o : ℕ
  got : Bool
  buf : List UInt8
  fbuf : List UInt8
  t : ℕ
  deriving DecidableEq, Repr

/-- `argv[t]`, where there is one. The arguments come after the name and the format. -/
def argv (args : List (List UInt8)) (t : ℕ) : Option (List UInt8) := args[t - 2]?

def argc (args : List (List UInt8)) : ℕ := args.length + 2

def stepNormal (s : State) (c : UInt8) : Except Stop State :=
  if c = 37 then .ok { s with got := true, state := .percent, fbuf := [37] }
  else if c = 92 then .ok { s with state := .backslash }
  else do
    let buf ← store s.buf c
    .ok { s with buf }

def stepBackslash (s : State) (c : UInt8) : Except Stop State :=
  if isOctal c then .ok { s with o := c.toNat - 48, state := .octal }
  else match escape c with
    | some e => do
      let buf ← store s.buf e
      .ok { s with buf, state := .normal }
    | none => do
      let buf ← store s.buf 92
      let buf ← store buf c
      .ok { s with buf, state := .normal }

/-- A character that ends an escape is scanned again. -/
def stepOctal (s : State) (c : UInt8) : Except Stop State :=
  if isOctal c ∧ (s.o <<< 3 ||| (c.toNat - 48)) ≤ 255 then
    .ok { s with o := s.o <<< 3 ||| (c.toNat - 48) }
  else do
    let buf ← store s.buf (UInt8.ofNat s.o)
    stepNormal { s with buf, state := .normal } c

def convert (lib : Libc) (s : State) (arg : Arg) : Except Stop State := do
  let buf ← print lib s.buf s.fbuf arg
  .ok { s with buf, state := .normal }

/-- The format modifiers. -/
def isModifier (c : UInt8) : Bool :=
  isDigit c || c = 43 || c = 45 || c = 46 || c = 104 || c = 106 || c = 108 || c = 116 || c = 122 ||
    c = 76

def stepPercent (lib : Libc) (args : List (List UInt8)) (s : State) (c : UInt8) :
    Except Stop State := do
  let buf ← if c = 37 then store s.buf 37 else .ok s.buf
  let fbuf ← store s.fbuf c
  let s := { s with buf, fbuf, state := if c = 37 then .normal else s.state }
  let arg := argv args s.t
  -- The last character of `fbuf` overwritten.
  let as (d : UInt8) := { s with fbuf := s.fbuf.dropLast ++ [d] }
  if isModifier c then .ok s
  else if c = 98 then
    if s.t ≤ argc args then do
      let (bbuf, stop) ← loopB s.buf none (List.replicate BUFSIZ 0) (arg.getD [])
      let s := { as 115 with t := if s.t < argc args then s.t + 1 else s.t }
      let s ← convert lib s (.str (bbuf.takeWhile (· ≠ 0)))
      if stop then .error (.exit s.buf) else .ok s
    else .ok { s with state := .normal }
  else if c = 67 ∨ c = 99 then
    convert lib { as 99 with t := if s.t < argc args then s.t + 1 else s.t }
      (.char ((arg.getD []).headD 0))
  else if c = 110 then convert lib (as 100) (.num s.buf.length)
  else if c = 100 ∨ c = 105 ∨ c = 111 ∨ c = 112 ∨ c = 117 ∨ c = 120 ∨ c = 88 then
    convert lib { s with t := s.t + 1 } (.num (match arg with | some a => strtol a | none => 0))
  else if c = 83 ∨ c = 115 then
    convert lib { as 115 with t := if s.t < argc args then s.t + 1 else s.t } (.str (arg.getD []))
  else .ok s

def step (lib : Libc) (args : List (List UInt8)) (s : State) (c : UInt8) : Except Stop State :=
  match s.state with
  | .normal => stepNormal s c
  | .backslash => stepBackslash s c
  | .octal => stepOctal s c
  | .percent => stepPercent lib args s c

/-- A pass over the format. -/
def loop (lib : Libc) (args : List (List UInt8)) : State → List UInt8 → Except Stop State
  | s, [] => .ok s
  | s, c :: i => do
    let s ← step lib args s c
    loop lib args s i

/-- What follows a pass. The state stays as it is. -/
def passEnd (s : State) : Except Stop State :=
  match s.state with
  | .octal => do
    let buf ← store s.buf (UInt8.ofNat s.o)
    .ok { s with buf }
  | .normal => .ok s
  | _ => .error .malformed

def pass (lib : Libc) (args : List (List UInt8)) (s : State) (format : List UInt8) :
    Except Stop State := do
  let s ← loop lib args s format
  passEnd s

def passes (lib : Libc) (format : List UInt8) (args : List (List UInt8)) : ℕ → State →
    Except Stop (List UInt8)
  | 0, _ => .error .unfinished
  | fuel + 1, s => do
    let s ← pass lib args s format
    if s.t < argc args ∧ s.got then passes lib format args fuel s else .ok s.buf

def start : State := ⟨.normal, 0, false, [], [], 2⟩

/-- What is written, for a loop that takes no more than `fuel` turns. -/
def main (lib : Libc) (fuel : ℕ) (format : List UInt8) (args : List (List UInt8)) :
    Except Stop (List UInt8) :=
  passes lib format args fuel start

end Unitas.Printf
