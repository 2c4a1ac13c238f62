import Unitas.Sccs.Rdmod
import Unitas.Lib.Literals

/-! `rmdel` and `cdc`: a delta is removed, or its comments and MRs are changed. -/
namespace Unitas.Sccs

/-- How the command is called. `permitted` is what `permiss`, the owner of the file and the p-file
say about the user and the delta, and whether the MRs are allowed. -/
structure Change where
  D_type : UInt8
  sid : Sid
  permitted : Bool
  Mrs : Bool
  NVarg : List Line
  Darg : List Line
  Comments : Line
  date : Line
  logname : Line

def DELIVER : UInt8 := 42

/-- `*** LIST OF DELETED MRS ***` -/
def deletedMrs : Line :=
  [1, 99, 32, 42, 42, 42, 32, 76, 73, 83, 84, 32, 79, 70, 32, 68, 69, 76, 69, 84, 69, 68, 32, 77, 82,
    83, 32, 42, 42, 42, 10]

/-- `*** CHANGED *** ` -/
def changed : Line := [42, 42, 42, 32, 67, 72, 65, 78, 71, 69, 68, 32, 42, 42, 42, 32]

def putmrs (letter : UInt8) : List Line → M Unit
  | [] => return
  | mr :: argv => do
    putline (some ([CTLCHAR, letter, 32] ++ mr ++ [10]))
    putmrs letter argv

/-- `ckmrs`: an MR that is to be deleted counts as written. `Earg` is begun anew by each of them, so
that the last one stays. -/
def ckmrs (Darg : List Line) (p : Line) : M Unit := do
  let mr := (p.takeWhile (· ≠ 10)).drop 3
  doIf (mr ∈ Darg) (modify fun pkt => { pkt with p_wrttn := true, Earg := Darg.filter (· = mr) })

def put_delmrs (Earg : List Line) : M Unit := do
  doIf (Earg ≠ []) do
    putline (some deletedMrs)
    putmrs COMMENTS Earg

def putComments (c : Change) : M Unit := do
  doIf (c.Comments ≠ []) do
    putline (some [CTLCHAR, COMMENTS, 32])
    putline (some c.Comments)
    putline (some [10])
  put_delmrs (← get).Earg
  doIf (c.Comments ≠ []) do
    putline (some [CTLCHAR, COMMENTS, 32])
    putline (some changed)
    putline (some c.date)
    putline (some ([32] ++ c.logname ++ [10]))

/-- `escdodelt`, without CASSI. -/
def escdodelt (c : Change) (p : Line) : M Unit := do
  doIf (c.D_type = 68 ∧ (← get).First_esc) do
    modify fun pkt => { pkt with First_esc := false }
    doIf c.Mrs do
      putmrs MRNUM c.NVarg
      modify fun pkt => { pkt with CDid_mrs := true }
  if chr p.tail = MRNUM then
    fatalIf (p.dropLast.getLast? = some DELIVER)
    doIf (← get).CDid_mrs (ckmrs c.Darg p)
  else
    doIf (c.D_type = 68 ∧ (← get).First_cmt) do
      modify fun pkt => { pkt with First_cmt := false }
      putComments c

/-- Whether the body is kept, what there is of the delta in it, and how many blocks insert. -/
structure Removal where
  keep : Bool
  found : Bool
  numdelts : ℕ

/-- The loop over the body for `rmdel`. -/
def rmdelBody (D_serial : ℕ) : ℕ → Removal → M Removal
  | 0, _ => fatal
  | fuel + 1, r => do
    match ← getline with
    | none => return r
    | some p =>
      if chr p = CTLCHAR then
        let cp := chr p.tail
        let (n, p) := satoi (NONBLANK p.tail.tail)
        fatalIf (chr p ≠ 10)
        doIf (n = D_serial) (modify fun pkt => { pkt with p_wrttn := true })
        rmdelBody D_serial fuel {
          keep := if n = D_serial then cp ≠ INS else r.keep
          found := r.found || (n = D_serial && cp = INS)
          numdelts := if cp = INS then r.numdelts + 1 else r.numdelts }
      else
        doIf (r.keep = false) (modify fun pkt => { pkt with p_wrttn := true })
        rmdelBody D_serial fuel r

/-- The rest of the file is copied. -/
def copyRest : ℕ → M Unit
  | 0 => fatal
  | fuel + 1 => do
    match ← getline with
    | none => return
    | some _ => copyRest fuel

/-- Whether no later delta has this one as its predecessor. -/
def Packet.isLeaf (pkt : Packet) (D_serial : ℕ) : Bool :=
  (List.range (pkt.maxser + 1)).all fun n =>
    !(D_serial < n && ((pkt.p_idel.getD (newIdel 0)) n).i_pred == D_serial)

/-- What `rmchg` does once it has the lock. -/
def rmchg (zone : Zone) (c : Change) (file : Line) : M Unit := do
  let fuel := file.length + 1
  sinit file
  modify fun pkt => { pkt with p_upd := true }
  let d ← dodelt zone (escdodelt c) (some c.sid) c.D_type fuel
  let D_serial := (← get).sidtoser c.sid
  fatalIf ((d.sid.map Sid.s_rel).getD 0 ≠ 0)
  finduser fuel
  doflags fuel
  fatalIf (c.permitted = false)
  if c.D_type = 82 then
    fatalIf ((← get).isLeaf D_serial = false)
    flushto EUSERTXT false fuel
    modify fun pkt => { pkt with p_chkeof := true }
    let r ← rmdelBody D_serial fuel ⟨true, false, 0⟩
    flushline none
    fatalIf (r.numdelts < 2 ∧ r.found)
  else
    modify fun pkt => { pkt with p_chkeof := true }
    copyRest fuel
    flushline none

/-- The x-file that takes the place of the s-file. -/
def rmchgFile (zone : Zone) (c : Change) (file : Line) : Option Line :=
  (rmchg zone c file (zero [])).map fun r => r.2.Xiop

end Unitas.Sccs
