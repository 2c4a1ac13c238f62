import Unitas.Sccs.Strings

/-! The packet of the SCCS commands: a line is read from the s-file, and the line before it goes to
the x-file unless it is marked as written. -/
namespace Unitas.Sccs
open Unitas.Decimal

def DEF_LINE_SIZE : ℕ := 128
def BUFSIZ : ℕ := 8192
def MAX_LINES : ℤ := 99999
def YES : ℕ := 1
def NO : ℕ := 2
def APPLY : ℕ := 1
def NOAPPLY : ℕ := 2
def SX_EMPTY : ℕ := 0

/-- What `fgets` takes of a file: `n` characters at most, and none after a newline. -/
def fgets : ℕ → Line → Line × Line
  | 0, file => ([], file)
  | _ + 1, [] => ([], [])
  | n + 1, c :: file =>
    if c = 10 then ([c], file)
    else
      let (buf, rest) := fgets n file
      (c :: buf, rest)

/-- A string ends at its null byte. -/
def cstr (s : Line) : Line := s.takeWhile (· ≠ 0)

/-- What `getline` reads into `p_line`, which grows with it, buffer by buffer. -/
def readLine : ℕ → Line → Line → Line × Line
  | 0, p_line, file => (p_line, file)
  | fuel + 1, p_line, file =>
    if file = [] then (p_line, [])
    else
      let (buf, file) := fgets (DEF_LINE_SIZE - 1) file
      let p_line := p_line ++ cstr buf
      if p_line.getLast? = some 10 then (p_line, file) else readLine fuel p_line file

/-- The lines that `getline` gives. -/
def readLinesFrom : ℕ → Line → List Line
  | 0, _ => []
  | fuel + 1, file =>
    let (p_line, file) := readLine file.length [] file
    if p_line = [] then [] else p_line :: readLinesFrom fuel file

def readLines (file : Line) : List Line := readLinesFrom file.length file

structure Idel where
  i_sid : Sid
  i_ixg : List (UInt8 × ℤ × List ℕ)
  i_pred : ℕ
  i_datetime : ℤ

structure Apply where
  a_inline : Bool
  a_code : ℕ
  a_reason : ℕ

structure Queue where
  q_sernum : ℕ
  q_keep : ℕ
  q_iord : UInt8

/-- The packet, and the static variables of the commands. The s-file is the list of its lines;
`p_iop` has the ones that are still to be read. -/
structure Packet where
  p_file : List Line
  p_iop : Option (List Line)
  p_line : Line
  p_upd : Bool
  p_wrttn : Bool
  p_chkeof : Bool
  p_reopen : Bool
  do_chksum : Bool
  p_ihash : ℤ
  p_chash : ℤ
  p_uchash : ℤ
  p_nhash : ℤ
  p_glnno : ℕ
  p_keep : ℕ
  p_q : List Queue
  p_apply : ℕ → Apply
  p_idel : Option (ℕ → Idel)
  p_cutoff : ℤ
  Xcreate : Bool
  Xiop : Line
  First_esc : Bool
  First_cmt : Bool
  CDid_mrs : Bool
  Earg : List Line
  Diffin : Line
  chg_num : ℤ
  chg_ln : ℤ

/-- A command, which may end in `fatal` or `fmterr`. -/
abbrev M := StateT Packet Option

def fatal {α : Type} : M α := StateT.lift none

/-- A statement under an `if`. -/
def doIf (c : Prop) [Decidable c] (m : M Unit) : M Unit := if c then m else pure ()

def fatalIf (c : Prop) [Decidable c] : M Unit := doIf c fatal

/-- A `signed char` as a number. -/
def schar (c : UInt8) : ℤ := if c.toNat < 128 then c.toNat else c.toNat - 256

/-- The sum of the characters of a string. -/
def charSum (p : Line) : ℤ := (p.map schar).sum

def ucharSum (p : Line) : ℤ := (p.map fun c => (c.toNat : ℤ)).sum

/-- `putline` with the string `p`, which is empty for a null pointer. The first one is not in the
sum. -/
def put (pkt : Packet) (p : Line) : Packet :=
  { pkt with
    Xiop := (if pkt.Xcreate then pkt.Xiop else []) ++ cstr p
    p_nhash := if pkt.Xcreate then pkt.p_nhash + charSum (cstr p) else pkt.p_nhash
    Xcreate := true }

def putline (newline : Option Line) : M Unit := modify fun pkt =>
  if !pkt.p_upd then pkt
  else match newline with
    | some newline => put pkt newline
    | none => if pkt.p_wrttn then put pkt [] else put { pkt with p_wrttn := true } pkt.p_line

/-- `getline` at the end of the file. -/
def getlineEof : M Unit := do
  let pkt ← get
  fatalIf (pkt.p_chkeof = false)
  fatalIf (pkt.do_chksum ∧ (pkt.p_chash - pkt.p_ihash) % 65536 ≠ 0 ∧
    (pkt.p_uchash - pkt.p_ihash) % 65536 ≠ 0)
  modify fun pkt =>
    if pkt.p_reopen then
      { pkt with
        p_iop := some pkt.p_file, p_reopen := false, p_ihash := 0, p_chash := 0, p_uchash := 0
        p_nhash := 0, p_keep := 0, do_chksum := false }
    else { pkt with p_iop := none }

def getline : M (Option Line) := do
  doIf ((← get).p_wrttn = false) (putline none)
  match (← get).p_iop with
  | none => fatal
  | some [] =>
    getlineEof
    return none
  | some (line :: p_iop) =>
    modify fun pkt => { pkt with
      p_iop := some p_iop, p_line := line, p_wrttn := false
      p_chash := pkt.p_chash + charSum line, p_uchash := pkt.p_uchash + ucharSum line }
    return some line

/-- Five digits, with zeros before the number. -/
def fiveDigits (n : ℕ) : Line := List.replicate (5 - (decimal n).length) 48 ++ decimal n

structure Stats where
  s_ins : ℤ
  s_del : ℤ
  s_unc : ℤ

/-- A counter as a string, which a negative one does not fit into. -/
def statDigits (n : ℤ) : M Line :=
  if n < 0 then fatal else pure (fiveDigits (min n MAX_LINES).toNat)

def statsLine (ins del unc : Line) : Line :=
  [CTLCHAR, STATS, 32] ++ ins ++ [47] ++ del ++ [47] ++ unc ++ [10]

def headLine (hash : ℕ) : Line := [CTLCHAR, HEAD] ++ fiveDigits hash ++ [10]

/-- What is written at the beginning of a file, over what is there. -/
def overwrite (file text : Line) : Line := text ++ file.drop text.length

/-- The digits of a number are added to the sum, where there were zeros. -/
def addDigits (nhash : ℤ) (digits : Line) : ℤ :=
  nhash + (digits.map fun c => schar c - 48).sum

def flushline (stats : Option Stats) : M Unit := do
  if (← get).p_upd = false then return
  putline none
  match stats with
  | none => modify fun pkt =>
    { pkt with Xiop := overwrite pkt.Xiop (headLine (pkt.p_nhash % 65536).toNat) }
  | some stats =>
    let ins ← statDigits stats.s_ins
    let del ← statDigits stats.s_del
    let unc ← statDigits stats.s_unc
    modify fun pkt =>
      let nhash := addDigits (addDigits (addDigits pkt.p_nhash ins) del) unc
      { pkt with
        p_nhash := nhash
        Xiop := overwrite pkt.Xiop (headLine (nhash % 65536).toNat ++ statsLine ins del unc) }

def newstats (ch : UInt8) : M Unit :=
  let fivech := List.replicate 5 ch
  putline (some (statsLine fivech fivech fivech))

/-- The packet before the first line. -/
def zero (file : List Line) : Packet where
  p_file := file
  p_iop := some file
  p_line := []
  p_upd := false
  p_wrttn := true
  p_chkeof := false
  p_reopen := false
  do_chksum := true
  p_ihash := 0
  p_chash := 0
  p_uchash := 0
  p_nhash := 0
  p_glnno := 0
  p_keep := 0
  p_q := []
  p_apply := fun _ => ⟨false, SX_EMPTY, 0⟩
  p_idel := none
  p_cutoff := 0
  Xcreate := false
  Xiop := []
  First_esc := false
  First_cmt := false
  CDid_mrs := false
  Earg := []
  Diffin := []
  chg_num := 0
  chg_ln := 0

/-- `sinit` opens the s-file and reads its first line. -/
def sinit (file : Line) : M Unit := do
  set (zero (readLines file))
  match ← getline with
  | none => fatal
  | some p =>
    fatalIf (chr p ≠ CTLCHAR ∨ chr p.tail ≠ HEAD)
    let (ihash, p) := satoi p.tail.tail
    fatalIf (chr p ≠ 10)
    modify fun pkt => { pkt with p_ihash := ihash, p_chash := 0, p_uchash := 0 }

/-- `flushto`. The lines up to the one with `ch` count as written if `put` says so. -/
def flushto (ch : UInt8) (put : Bool) : ℕ → M Unit
  | 0 => fatal
  | fuel + 1 => do
    match ← getline with
    | none => fatal
    | some p =>
      if chr p = CTLCHAR ∧ chr p.tail = ch then putline none
      else
        modify fun pkt => { pkt with p_wrttn := put }
        flushto ch put fuel

end Unitas.Sccs
