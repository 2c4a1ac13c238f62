import Unitas.Sccs.Packet
import Mathlib.Logic.Function.Basic

/-! The delta table of an s-file, the users and flags after it, and the deltas that a version is
made of. -/
namespace Unitas.Sccs

def INCL : ℕ := 1
def EXCL : ℕ := 2
def CUTOFF : ℕ := 4

def stats_ab : M Stats := do
  match ← getline with
  | none => fatal
  | some p =>
    fatalIf (chr p ≠ CTLCHAR ∨ chr p.tail ≠ STATS)
    let (ins, p) := satoi (NONBLANK p.tail.tail)
    let (del, p) := satoi p.tail
    return ⟨ins, del, (satoi p.tail).1⟩

/-- The serial numbers of a list. -/
def ixgSerials : ℕ → Line → List ℕ
  | 0, _ => []
  | fuel + 1, p =>
    if Decimal.isDigit (chr p) then
      let (ser, p) := satoi p
      ser :: ixgSerials fuel (NONBLANK p)
    else []

/-- A number as a `char`. -/
def toChar (n : ℕ) : ℤ := (n : ℤ).bmod 256

/-- Room for serials in `xtmp`. -/
def MAXLINE : ℕ := 8192

/-- `doixg`: a list is put after those that there are. Its length is kept as a `char`. The list has at
most `MAXLINE` serials: they are stored in `xtmp` first, without a look at its end. -/
def doixg (p : Line) (ixg : List (UInt8 × ℤ × List ℕ)) : List (UInt8 × ℤ × List ℕ) :=
  let sers := ixgSerials p.length (NONBLANK p.tail.tail)
  ixg ++ [(chr p.tail, toChar sers.length, sers)]

/-- The variables of `dodelt`. -/
structure Dodelt where
  dt : Deltab
  sid : Option Sid
  founddel : Bool
  Pgmr : Line

/-- What becomes of the line of the delta that is looked for. -/
def markType (type : UInt8) (p_line : Line) : Line :=
  p_line.takeWhile (· ≠ 68) ++ match p_line.dropWhile (· ≠ 68) with
    | [] => []
    | _ :: rest => type :: rest

/-- A delta is entered into the table. -/
def enterDelta (dt : Deltab) (idel : ℕ → Idel) : ℕ → Idel :=
  Function.update idel dt.d_serial
    { idel dt.d_serial with i_sid := dt.d_sid, i_pred := dt.d_pred, i_datetime := dt.d_datetime }

/-- `maxser`. -/
def Packet.maxser (pkt : Packet) : ℕ := (pkt.p_idel.map fun idel => (idel 0).i_pred).getD 0

/-- A table without deltas, which keeps `maxser` in its first place. -/
def newIdel (serial : ℕ) : ℕ → Idel := fun n => ⟨⟨0, 0, 0, 0⟩, [], if n = 0 then serial else 0, 0⟩

def getadel (zone : Zone) (dt : Deltab) : M (UInt8 × Deltab) := do
  match ← getline with
  | none => fatal
  | some p =>
    match del_ab zone p dt with
    | none => fatal
    | some r => return r

/-- The lines of a delta after the first. `escdodelt` may change the ones of the delta that is
looked for. -/
def deltaLines (escdodelt : Line → M Unit) (d : Dodelt) : ℕ → M Unit
  | 0 => fatal
  | fuel + 1 => do
    match ← getline with
    | none => fatal
    | some p =>
      fatalIf (chr p ≠ CTLCHAR)
      let letter := chr p.tail
      if letter = EDELTAB then return
      if letter = COMMENTS ∨ letter = MRNUM then
        doIf d.founddel (escdodelt p)
        deltaLines escdodelt d fuel
      else if letter = INCLUDE ∨ letter = EXCLUDE ∨ letter = IGNORE then
        doIf (d.dt.d_type = 68) (modify fun pkt => { pkt with
          p_idel := pkt.p_idel.map fun idel => Function.update idel d.dt.d_serial
            { idel d.dt.d_serial with i_ixg := doixg p (idel d.dt.d_serial).i_ixg } })
        deltaLines escdodelt d fuel
      else fatal

/-- One delta, whose first line has been read. -/
def deltaEntry (type : UInt8) (dt : Deltab) (d : Dodelt) : M Dodelt := do
  doIf (← get).p_idel.isNone (modify fun pkt => { pkt with
    p_idel := some (newIdel dt.d_serial), p_apply := fun _ => ⟨false, SX_EMPTY, 0⟩ })
  if dt.d_type ≠ 68 then return { d with dt := dt }
  let found := d.sid = some dt.d_sid
  modify fun pkt =>
    if found then { pkt with
      First_esc := true, First_cmt := true, CDid_mrs := false, p_line := markType type pkt.p_line }
    else { pkt with First_esc := false, First_cmt := false }
  modify fun pkt => { pkt with p_idel := pkt.p_idel.map (enterDelta dt) }
  return {
    dt := dt
    sid := if found then some ⟨0, 0, 0, 0⟩ else d.sid
    founddel := found
    Pgmr := if found then dt.d_pgmr else d.Pgmr }

/-- The loop of `dodelt`. -/
def dodeltLoop (zone : Zone) (escdodelt : Line → M Unit) (type : UInt8) : ℕ → Dodelt → M Dodelt
  | 0, _ => fatal
  | fuel + 1, d => do
    let (letter, dt) ← getadel zone d.dt
    if letter ≠ BDELTAB then return { d with dt := dt }
    let d ← deltaEntry type dt d
    deltaLines escdodelt d fuel
    match ← getline with
    | none => fatal
    | some p =>
      if chr p ≠ CTLCHAR ∨ chr p.tail ≠ STATS then return d
      dodeltLoop zone escdodelt type fuel d

/-- `dodelt`, of which a null pointer is an error wherever it is called. -/
def dodelt (zone : Zone) (escdodelt : Line → M Unit) (sid : Option Sid) (type : UInt8) (fuel : ℕ) :
    M Dodelt := do
  modify fun pkt => { pkt with p_idel := none }
  let _ ← stats_ab
  let d ← dodeltLoop zone escdodelt type fuel
    ⟨⟨⟨0, 0, 0, 0⟩, 0, 0, 0, [], 0⟩, sid, false, []⟩
  fatalIf (← get).p_idel.isNone
  return d

/-- `finduser`, without a look at who the user is. -/
def finduser : ℕ → M Unit
  | 0 => fatal
  | fuel + 1 => do
    match ← getline with
    | none => fatal
    | some p =>
      if chr p ≠ CTLCHAR then finduser fuel
      else if chr p.tail ≠ EUSERNAM then fatal

/-- `doflags`, without the values of the flags. -/
def doflags : ℕ → M Unit
  | 0 => fatal
  | fuel + 1 => do
    match ← getline with
    | none => return
    | some p => if chr p = CTLCHAR ∧ chr p.tail = FLAG then doflags fuel

/-- `sidtoser`. -/
def sidtoserFrom (idel : ℕ → Idel) (sid : Sid) : ℕ → ℕ
  | 0 => 0
  | n + 1 => if (idel (n + 1)).i_sid = sid then n + 1 else sidtoserFrom idel sid n

def Packet.sidtoser (pkt : Packet) (sid : Sid) : ℕ :=
  sidtoserFrom ((pkt.p_idel).getD (newIdel 0)) sid pkt.maxser

def condset (code reason : ℕ) (ap : Apply) : Apply :=
  if code = SX_EMPTY then { ap with a_reason := ap.a_reason ||| reason }
  else if ap.a_code = SX_EMPTY then
    { ap with a_code := code, a_reason := ap.a_reason ||| reason }
  else ap

/-- `ixgsetup`. A count that the list does not have runs over its end. -/
def ixgsetup (ap : ℕ → Apply) : List (UInt8 × ℤ × List ℕ) → Option (ℕ → Apply)
  | [] => some ap
  | (type, cnt, sers) :: ixg =>
    if cnt < 0 ∨ (sers.length : ℤ) < cnt then none
    else
      let code := if type = INCLUDE then APPLY else NOAPPLY
      let reason := if type = INCLUDE then INCL else EXCL
      ixgsetup ((sers.take cnt.toNat).foldl
        (fun ap n => Function.update ap n (condset code reason (ap n))) ap) ixg

/-- The loop of `setup` from serial `n` down. -/
def setupFrom (idel : ℕ → Idel) (cutoff : ℤ) : ℕ → (ℕ → Apply) → Option (ℕ → Apply)
  | 0, ap => some ap
  | n + 1, ap => do
    let ser := n + 1
    let pred := (idel ser).i_pred
    if (ap ser).a_inline ∧ ser ≠ 1 ∧ pred = 0 then none
    else
      let ap := if (ap ser).a_inline then
          let ap := Function.update ap pred { ap pred with a_inline := true }
          if cutoff < (idel ser).i_datetime then
            Function.update ap ser (condset NOAPPLY CUTOFF (ap ser))
          else Function.update ap ser (condset APPLY SX_EMPTY (ap ser))
        else Function.update ap ser (condset NOAPPLY SX_EMPTY (ap ser))
      let ap ← if (ap ser).a_code = APPLY then ixgsetup ap (idel ser).i_ixg else some ap
      setupFrom idel cutoff n ap

def setup (serial : ℕ) : M Unit := do
  let pkt ← get
  let ap := Function.update pkt.p_apply serial { pkt.p_apply serial with a_inline := true }
  match setupFrom (pkt.p_idel.getD (newIdel 0)) pkt.p_cutoff pkt.maxser ap with
  | none => fatal
  | some ap => modify fun pkt => { pkt with p_apply := ap }

end Unitas.Sccs
