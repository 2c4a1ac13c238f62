import Unitas.Lib.Decimal

/-! What the SCCS commands read from a line: numbers, SIDs, dates and the lines of the delta
table. A string is the list of its bytes before the null byte. -/
namespace Unitas.Sccs
open Unitas.Decimal

abbrev Line := List UInt8

def CTLCHAR : UInt8 := 1
def HEAD : UInt8 := 104
def STATS : UInt8 := 115
def BDELTAB : UInt8 := 100
def INCLUDE : UInt8 := 105
def EXCLUDE : UInt8 := 120
def IGNORE : UInt8 := 103
def MRNUM : UInt8 := 109
def COMMENTS : UInt8 := 99
def EDELTAB : UInt8 := 101
def EUSERNAM : UInt8 := 85
def FLAG : UInt8 := 102
def EUSERTXT : UInt8 := 84
def INS : UInt8 := 73
def DEL : UInt8 := 68
def END : UInt8 := 69

/-- `*p`, which is the null byte at the end. -/
def chr (p : Line) : UInt8 := p.head?.getD 0

def NONBLANK (p : Line) : Line := p.dropWhile fun c => c == 32 || c == 9

def satoi (p : Line) : ℕ × Line := (decValue (p.takeWhile isDigit), p.dropWhile isDigit)

structure Sid where
  s_rel : ℕ
  s_lev : ℕ
  s_br : ℕ
  s_seq : ℕ
  deriving DecidableEq, Repr

/-- A number of a SID and the dot after it. -/
def sidNumber (p : Line) : ℕ × Line :=
  let (n, p) := satoi p
  (n, if chr p = 46 then p.tail else p)

def sid_ab (p : Line) : Sid × Line :=
  let (rel, p) := sidNumber p
  let (lev, p) := sidNumber p
  let (br, p) := sidNumber p
  let (seq, p) := satoi p
  (⟨rel, lev, br, seq⟩, p)

/-- What `tzset` and `localtime` know. -/
structure Zone where
  timezone : ℤ
  isdst : ℤ → Bool

def dysize (y : ℕ) : ℕ := if y % 4 = 0 then 366 else 365

def dmsize : List ℕ := [31, 28, 31, 30, 31, 30, 31, 31, 30, 31, 30, 31]

def mosize (y t : ℕ) : ℕ := if t = 2 ∧ dysize y = 366 then 29 else dmsize.getD (t - 1) 0

/-- `gN`: the number, which is missing at the end of the string, what comes after it, and how many
digits it has. -/
def gN (str : Line) (num : ℕ) : Option ℕ × Line × ℕ :=
  let str := str.dropWhile fun c => !isDigit c
  if str = [] then (none, [], 0)
  else
    let digits := (str.takeWhile isDigit).take num
    (some (decValue digits), str.drop digits.length, digits.length)

/-- `date_ab`, with what is left at `Datep`. A bad date gives no time. -/
def date_ab (zone : Zone) (adt : Line) : Option ℤ × Line :=
  match gN (NONBLANK adt) 4 with
  | (none, Datep, _) => (none, Datep)
  | (some y, Datep, dn) =>
    if 2 < dn ∧ y < 1969 then (none, Datep)
    else
      let y := if dn ≤ 2 then if y < 69 then y + 2000 else y + 1900 else y
      match gN Datep 2 with
      | (none, Datep, _) => (none, Datep)
      | (some t, Datep, _) =>
        if t < 1 ∨ 12 < t then (none, Datep)
        else
          match gN Datep 2 with
          | (none, Datep, _) => (none, Datep)
          | (some d, Datep, _) =>
            if d < 1 ∨ mosize y t < d then (none, Datep)
            else
              match gN (NONBLANK Datep) 2 with
              | (none, Datep, _) => (none, Datep)
              | (some h, Datep, _) =>
                if 23 < h then (none, Datep)
                else
                  match gN Datep 2 with
                  | (none, Datep, _) => (none, Datep)
                  | (some m, Datep, _) =>
                    if 59 < m then (none, Datep)
                    else
                      match gN Datep 2 with
                      | (none, Datep, _) => (none, Datep)
                      | (some s, Datep, _) =>
                        if 59 < s then (none, Datep)
                        else
                          let days := ((List.range (y - 1970)).map fun i => dysize (1970 + i)).sum +
                            ((List.range (t - 1)).map fun i => mosize y (i + 1)).sum + d - 1
                          let tim : ℤ := (((days * 24 + h) * 60 + m) * 60 + s : ℕ) + zone.timezone
                          (some (if zone.isdst tim then tim - 3600 else tim), Datep)

structure Deltab where
  d_sid : Sid
  d_serial : ℕ
  d_pred : ℕ
  d_datetime : ℤ
  d_pgmr : Line
  d_type : UInt8

/-- What `del_ab` reads after the type letter. -/
def del_fields (zone : Zone) (p : Line) (dt : Deltab) : Option Deltab :=
  let (sid, p) := sid_ab (NONBLANK p)
  let (datetime, p) := date_ab zone (NONBLANK p)
  let p := NONBLANK p
  if 32 ∉ p then none
  else
    let pgmr := p.takeWhile (· ≠ 32)
    let (serial, p) := satoi (NONBLANK (p.drop (pgmr.length + 1)))
    let (pred, p) := satoi (NONBLANK p)
    if chr p ≠ 10 then none
    else some ⟨sid, serial, pred, datetime.getD dt.d_datetime, pgmr, dt.d_type⟩

/-- `del_ab`: the letter of the line, and what it says where it is `BDELTAB`. The time of a bad
date is the one of the entry before. -/
def del_ab (zone : Zone) (p : Line) (dt : Deltab) : Option (UInt8 × Deltab) :=
  if chr p ≠ CTLCHAR then none
  else if chr p.tail ≠ BDELTAB then some (chr p.tail, dt)
  else
    let p := NONBLANK p.tail.tail
    (del_fields zone p.tail { dt with d_type := chr p }).map (BDELTAB, ·)

end Unitas.Sccs
