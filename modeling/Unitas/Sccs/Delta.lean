import Unitas.Sccs.Rdmod

/-! `delta`: the lines that `bdiff` reports are put into the body of the s-file as blocks of a new
delta. -/
namespace Unitas.Sccs

/-- What `delta` finds outside the s-file. `doie` enters the marks of the p-file, `entry` has the
strings that `mkdelt` puts after the statistics, `ser_inc` says how many serials it takes, and each
attempt is what `bdiff` printed and whether it has to be tried again. -/
structure Checkin where
  permitted : Bool
  gsid : Sid
  nsid : Sid
  cutoff : ℤ
  doie : (ℕ → Apply) → ℕ → Apply
  entry : List Line
  ser_inc : ℕ
  attempts : List (Line × Bool)

def rddiff : M (Option Line) := do
  let pkt ← get
  if pkt.Diffin = [] then return none
  let (s, Diffin) := fgets (BUFSIZ - 1) pkt.Diffin
  modify fun pkt => { pkt with Diffin := Diffin }
  return some (cstr s)

def linerange (cp : Line) : ℤ × ℤ × Line :=
  let (low, cp) := satoi cp
  if chr cp = 44 then
    let (high, cp) := satoi cp.tail
    (low, high, cp)
  else (low, low, cp)

/-- One line of the output of `bdiff` is passed over, however long it is. -/
def skipText : ℕ → M Unit
  | 0 => fatal
  | fuel + 1 => do
    match ← rddiff with
    | none => fatal
    | some s => doIf (s.getLast? ≠ some 10) (skipText fuel)

def skipline (fuel : ℕ) : ℕ → M Unit
  | 0 => return
  | n + 1 => do
    skipText fuel
    skipline fuel n

/-- A part of a hunk: its kind, its line and the number of its lines. -/
structure Diff where
  type : UInt8
  linenum : ℤ
  n : ℤ

/-- As many lines as `skipline` is told. -/
def skiplines (fuel : ℕ) (n : ℤ) : M Unit := if n < 0 then fatal else skipline fuel n.toNat

/-- `getdiff`. There is nothing more where it finds no line. -/
def getdiff (fuel : ℕ) : M Diff := do
  match ← rddiff with
  | none => return ⟨0, 0, 0⟩
  | some p =>
    if chr p = 45 then
      let pkt ← get
      return ⟨INS, pkt.chg_ln, pkt.chg_num⟩
    else
      let (low, high, p) := linerange p
      let (low', high', _) := linerange p.tail
      if chr p = 100 then
        skiplines fuel (high - low + 1)
        return ⟨DEL, low, high - low + 1⟩
      else if chr p = 97 then return ⟨INS, low, high' - low' + 1⟩
      else if chr p = 99 then
        modify fun pkt => { pkt with chg_ln := low, chg_num := high' - low' + 1 }
        skiplines fuel (high - low + 1)
        return ⟨DEL, low, high - low + 1⟩
      else return ⟨0, low, 0⟩

/-- `before` reads up to line `n` of the version. -/
def before (fuel : ℕ) (n : ℤ) : ℕ → M Unit
  | 0 => fatal
  | k + 1 => do
    if (← get).p_glnno < n then
      let more ← readmod fuel
      doIf more (before fuel n k)

/-- The current line is written. -/
def putCurrent : ℕ → M Unit
  | 0 => fatal
  | fuel + 1 => do
    if (← get).p_line.getLast? ≠ some 10 then
      let _ ← getline
      putCurrent fuel
    else putline none

def after (fuel : ℕ) (n : ℤ) : M Unit := do
  before fuel n fuel
  doIf ((← get).p_glnno = n) (putCurrent fuel)

def ctlLine (iord : UInt8) (ser : ℕ) : Line := [CTLCHAR, iord, 32] ++ Decimal.decimal ser ++ [10]

/-- The pieces of a line that is inserted, of which the first has its mark. -/
def insertText (first : Bool) : ℕ → M Unit
  | 0 => fatal
  | fuel + 1 => do
    match ← rddiff with
    | none => fatal
    | some str =>
      putline (some (if first then str.drop 2 else str))
      doIf (str.getLast? ≠ some 10) (insertText false fuel)

def insertTexts (fuel : ℕ) : ℕ → M Unit
  | 0 => return
  | n + 1 => do
    insertText true fuel
    insertTexts fuel n

def insert (fuel : ℕ) (linenum n : ℤ) (ser : ℕ) : M Unit := do
  after fuel linenum
  putline (some (ctlLine INS ser))
  fatalIf (n < 0)
  insertTexts fuel n.toNat
  putline (some (ctlLine END ser))

def delete (fuel : ℕ) (linenum n : ℤ) (ser : ℕ) : M Unit := do
  before fuel linenum fuel
  putline (some (ctlLine DEL ser))
  after fuel (linenum + n - 1)
  putline (some (ctlLine END ser))

/-- The hunks are worked in. The result is how many lines were inserted and deleted. -/
def hunks (fuel newser : ℕ) : ℕ → ℤ × ℤ → M (ℤ × ℤ)
  | 0, _ => fatal
  | k + 1, (inserted, deleted) => do
    let d ← getdiff fuel
    if d.n = 0 then return (inserted, deleted)
    if d.type = INS then
      insert fuel d.linenum d.n newser
      hunks fuel newser k (inserted + d.n, deleted)
    else
      delete fuel d.linenum d.n newser
      hunks fuel newser k (inserted, deleted + d.n)

def putAll : List Line → M Unit
  | [] => return
  | str :: strs => do
    putline (some str)
    putAll strs

/-- `mkdelt`, which gives the serial of the new delta. -/
def mkdelt (c : Checkin) : M ℕ := do
  putline (some ([CTLCHAR, HEAD] ++ List.replicate 5 48 ++ [10]))
  newstats 48
  putAll c.entry
  return (← get).maxser + c.ser_inc

/-- The rest of the body is read, if it has not been. -/
def readRest (fuel : ℕ) : ℕ → M Unit
  | 0 => fatal
  | k + 1 => do
    let more ← readmod fuel
    doIf more (readRest fuel k)

/-- One attempt. -/
def attempt (c : Checkin) (fuel : ℕ) (diff : Line) : M (ℤ × ℤ) := do
  modify fun pkt => { pkt with p_glnno := 0, p_upd := true, p_wrttn := true }
  let _ ← getline
  modify fun pkt => { pkt with p_wrttn := true }
  let newser ← mkdelt c
  flushto EUSERTXT false fuel
  modify fun pkt => { pkt with Diffin := diff }
  let counts ← hunks fuel newser fuel (0, 0)
  doIf (← get).p_iop.isSome (readRest fuel fuel)
  return counts

/-- The x-file is begun anew, and the s-file is opened again. -/
def reopen (pkt : Packet) : Packet :=
  { pkt with
    Xcreate := false, p_iop := some pkt.p_file, p_ihash := 0, p_chash := 0, p_uchash := 0
    p_nhash := 0, p_keep := 0 }

/-- The attempts, with a smaller limit for the segments each time. -/
def attempts (c : Checkin) (fuel : ℕ) : ℕ → List (Line × Bool) → M (ℤ × ℤ)
  | 0, _ => fatal
  | _, [] => fatal
  | difflim + 1, (diff, retry) :: diffs => do
    let counts ← attempt c fuel diff
    if retry then
      modify reopen
      attempts c fuel difflim diffs
    else return counts

/-- What `delta` does once it has the lock. -/
def delta (zone : Zone) (c : Checkin) (fuel : ℕ) (file : Line) : M Unit := do
  sinit file
  modify fun pkt => { pkt with p_reopen := true }
  let _ ← dodelt zone (fun _ => pure ()) none 0 fuel
  let pkt ← get
  let ser := pkt.sidtoser c.gsid
  fatalIf (ser = 0 ∨ pkt.sidtoser c.nsid ≠ 0)
  modify fun pkt => { pkt with p_cutoff := c.cutoff, p_apply := c.doie pkt.p_apply }
  setup ser
  finduser fuel
  doflags fuel
  fatalIf (c.permitted = false)
  flushto EUSERTXT true fuel
  modify fun pkt => { pkt with p_chkeof := true }
  readRest fuel fuel
  let orig := (← get).p_glnno
  let (inserted, deleted) ← attempts c fuel 8 c.attempts
  flushline (some ⟨inserted, deleted, orig - deleted⟩)

def deltaFile (zone : Zone) (c : Checkin) (fuel : ℕ) (file : Line) : Option Line :=
  (delta zone c fuel file (zero [])).map fun r => r.2.Xiop

end Unitas.Sccs
