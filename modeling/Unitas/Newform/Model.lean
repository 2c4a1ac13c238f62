import Mathlib.Data.List.Basic
import Mathlib.Logic.Function.Basic

/-! The tabs of `newform`: the table of tab stops, and the conversions of a line in the work area.
Addresses in the table and in the work area are numbers. -/
namespace Unitas.Newform

def NCOLS : ℕ := 512
def MAXLINE : ℕ := 512
def LINELEN : ℕ := 80

abbrev Str := List UInt8

/-! ### Lines -/

abbrev Work := ℕ → UInt8

/-- `*p = c` -/
def store (w : Work) (p : ℕ) (c : UInt8) : Work := Function.update w p c

/-- A line in the work area. -/
structure Area where
  work : Work
  pfirst : ℕ
  plast : ℕ

/-- The first loop of `center`, for the characters that are left to be moved. -/
def moveUp (pfirst : ℕ) : ℕ → Work → Work
  | 0, w => w
  | n + 1, w => moveUp pfirst n (store w (NCOLS + n) (w (pfirst + n)))

/-- The second one, after `i` characters. -/
def moveDown (pfirst : ℕ) : ℕ → ℕ → Work → Work
  | 0, _, w => w
  | n + 1, i, w => moveDown pfirst n (i + 1) (store w (NCOLS + i) (w (pfirst + i)))

/-- `none` stands for `internal line too long`. -/
def center (a : Area) : Option Area :=
  if a.plast - a.pfirst > MAXLINE then none
  else
    let n := a.plast + 1 - a.pfirst
    if a.pfirst < NCOLS then
      some ⟨moveUp a.pfirst n a.work, NCOLS, a.plast + (NCOLS - a.pfirst)⟩
    else some ⟨moveDown a.pfirst n 0 a.work, NCOLS, NCOLS + n - 1⟩

/-- The variables of `inputtabs` and `outputtabs`. -/
structure Mach where
  work : Work
  pfirst : ℕ
  tlast : ℕ
  tabs : ℕ
  logcol : ℕ

/-- `*tlast++ = c` -/
def Mach.put (m : Mach) (c : UInt8) : Mach :=
  { m with work := store m.work m.tlast c, tlast := m.tlast + 1 }

variable (tabtbl : ℕ → ℕ)

/-- `if (logcol >= *tabs) tabs++` -/
def Mach.pass (m : Mach) : Mach :=
  if m.logcol ≥ tabtbl m.tabs then { m with tabs := m.tabs + 1 } else m

/-- A backspace. -/
def Mach.back (m : Mach) : Mach :=
  let m := if m.logcol > 1 then { m with logcol := m.logcol - 1 } else m
  let m := m.put 8
  if m.logcol < tabtbl m.tabs then { m with tabs := m.tabs - 1 } else m

/-- Blanks up to the next stop: so many are left. -/
def Mach.pad : ℕ → Mach → Mach
  | 0, m => m
  | n + 1, m => pad n { m.put 32 with logcol := m.logcol + 1 }

/-- A turn of the loop of `inputtabs`. -/
def Mach.inputturn (m : Mach) : Mach :=
  let m := m.pass tabtbl
  let c := m.work m.pfirst
  let m := { m with pfirst := m.pfirst + 1 }
  if c = 8 then m.back tabtbl
  else if c = 9 then
    let m := m.pad (tabtbl m.tabs - m.logcol)
    { m with tabs := m.tabs + 1 }
  else { m.put c with logcol := m.logcol + 1 }

/-- The variables after some characters. -/
def Mach.inputloop : ℕ → Mach → Mach
  | 0, m => m
  | n + 1, m => inputloop n (m.inputturn tabtbl)

/-- Before the loop of `inputtabs`. -/
def inputstart (p : ℕ) (a : Area) : Option Mach :=
  (center a).map fun a => ⟨a.work, a.pfirst, 0, p, 1⟩

/-- `inputtabs`, for the list at `p`. -/
def inputtabs (p : ℕ) (a : Area) : Option Area :=
  (inputstart p a).map fun m =>
    let m := Mach.inputloop tabtbl (a.plast + 1 - a.pfirst) m
    ⟨m.work, 0, m.tlast - 1⟩

/-- The loop over blanks in `outputtabs`, from `mark` on, for at most so many of them. -/
def Mach.blanks : ℕ → ℕ → Mach → Mach
  | 0, _, m => m
  | n + 1, mark, m =>
    let m := { m.put 32 with logcol := m.logcol + 1 }
    let (mark, m) :=
      if m.logcol = tabtbl m.tabs then
        (mark + 1, { m with work := store m.work mark 9, tlast := mark + 1, tabs := m.tabs + 1 })
      else (mark, m)
    if m.work m.pfirst = 32 then blanks n mark { m with pfirst := m.pfirst + 1 } else m

/-- A turn of the loop of `outputtabs`, with at most `n` characters left. -/
def Mach.outputturn (n : ℕ) (m : Mach) : Mach :=
  let m := if m.logcol = tabtbl m.tabs then { m with tabs := m.tabs + 1 } else m
  let c := m.work m.pfirst
  let m := { m with pfirst := m.pfirst + 1 }
  if c = 8 then m.back tabtbl
  else if c = 32 then m.blanks tabtbl n m.tlast
  else { m.put c with logcol := m.logcol + 1 }

def Mach.outputloop (plast : ℕ) : ℕ → Mach → Mach
  | 0, m => m
  | n + 1, m =>
    if m.pfirst ≤ plast then outputloop plast n (m.outputturn tabtbl (n + 1)) else m

/-- `outputtabs`, for the list at `p`. -/
def outputtabs (p : ℕ) (a : Area) : Area :=
  let m := Mach.outputloop tabtbl a.plast (a.plast + 1 - a.pfirst)
    ⟨a.work, a.pfirst, a.pfirst, p, 1⟩
  ⟨m.work, a.pfirst, m.tlast - 1⟩

end Unitas.Newform
