import Unitas.Sccs.Packet

/-! The p-file: the lines that `get -e` writes, how they are read again, and how `get`, `unget` and
`delta` make a new p-file of the old one. -/
namespace Unitas.Sccs.Edit
open Unitas.Decimal

def LOGSIZE : ℕ := 33

/-- Why a run ends. -/
inductive Fatal where
  /-- `bad p-file format (co17)` -/
  | format
  /-- `being edited` -/
  | editing
  /-- `bad SID calculated in newsid()` -/
  | sid
  /-- `missing -r argument`, `SID must be specified`, or an ambiguous SID -/
  | which
  /-- the entry is not in the p-file -/
  | none
  /-- a byte after the end of a string is read -/
  | wild
  /-- anything else -/
  | other
  deriving DecidableEq

structure Pfile where
  pf_gsid : Sid
  pf_nsid : Sid
  pf_user : Line
  pf_date : Option ℤ
  pf_ilist : Option Line
  pf_elist : Option Line
  pf_cmrlist : Option Line
  deriving DecidableEq

/-- A list up to the next blank, if `key` stands before it, and what comes after the blank and one
more character. -/
def listField (key : UInt8) (p : Line) : Except Fatal (Option Line × Line) :=
  if chr p = key ∧ p ≠ [] then
    match p.tail.dropWhile (· ≠ 32) with
    | [] => .ok (some p.tail, [])
    | [_] => .error .wild
    | _ :: _ :: rest => .ok (some (p.tail.takeWhile (· ≠ 32)), rest)
  else .ok (none, p)

/-- What is at `Datep`. -/
def pf_lists (p : Line) : Except Fatal (Option Line × Option Line × Option Line) :=
  match p with
  | [] => .ok (none, none, none)
  | [_] => .error .wild
  | _ :: _ :: p => do
    let (ilist, p) ← listField 105 p
    let (elist, p) ← listField 120 p
    .ok (ilist, elist, if chr p = 122 ∧ p ≠ [] then some p.tail else none)

@[irreducible] def pf_ab (zone : Zone) (s : Line) (all : Bool) : Except Fatal Pfile :=
  let (gsid, p) := sid_ab (s.takeWhile (· ≠ 10))
  if p = [] then .error .wild
  else
    let (nsid, p) := sid_ab p.tail
    if p = [] then .error .wild
    else
      let p := p.tail
      let i := (p.takeWhile (· ≠ 32)).length
      if 32 ∉ p ∨ LOGSIZE ≤ i then .error .format
      else
        let date := date_ab zone (p.drop (i + 1))
        if all then
          match pf_lists date.2 with
          | .error e => .error e
          | .ok (ilist, elist, cmr) => .ok ⟨gsid, nsid, p.take i, date.1, ilist, elist, cmr⟩
        else .ok ⟨gsid, nsid, p.take i, date.1, none, none, none⟩

/-! ### What `get -e` writes -/

def sid_ba (sp : Sid) : Line :=
  decimal sp.s_rel ++ 46 :: decimal sp.s_lev ++
    if sp.s_br = 0 then [] else 46 :: decimal sp.s_br ++ 46 :: decimal sp.s_seq

/-- The fields that `localtime` gives, with the year of the century. -/
structure Date where
  year : ℕ
  mon : ℕ
  mday : ℕ
  hour : ℕ
  min : ℕ
  sec : ℕ
  year_lt : year < 100
  mon_pos : 1 ≤ mon
  mon_le : mon ≤ 12
  mday_pos : 1 ≤ mday
  mday_le : mday ≤ mosize year mon
  hour_lt : hour < 24
  min_lt : min < 60
  sec_le : sec ≤ 60

theorem one_le_one : 1 ≤ 1 := le_refl 1
theorem one_le_twelve : 1 ≤ 12 := by decide
theorem zero_lt_hours : 0 < 24 := by decide
theorem zero_lt_minutes : 0 < 60 := by decide

def DO2 (n : ℕ) : Line := [UInt8.ofNat (48 + n / 10), UInt8.ofNat (48 + n % 10)]

def date_ba (d : Date) : Line :=
  DO2 d.year ++ 47 :: DO2 d.mon ++ 47 :: DO2 d.mday ++ 32 :: DO2 d.hour ++ 58 :: DO2 d.min ++
    58 :: DO2 d.sec

/-- An entry of the p-file. -/
structure Reservation where
  gsid : Sid
  nsid : Sid
  user : Line
  date : Date
  inc : Option Line
  exc : Option Line
  cmr : Option Line

def listArg (key : UInt8) (list : Option Line) : Line :=
  match list with
  | none => []
  | some l => 32 :: 45 :: key :: l

def Reservation.line (r : Reservation) : Line :=
  sid_ba r.gsid ++ 32 :: sid_ba r.nsid ++ 32 :: r.user ++ 32 :: date_ba r.date ++
    listArg 105 r.inc ++ listArg 120 r.exc ++ listArg 122 r.cmr ++ [10]

/-! ### The three programs -/

/-- What a run does to the q-file. -/
inductive Op where
  | creat
  | put (l : Line)
  deriving DecidableEq

/-- How a run ends that does not fail: the q-file becomes the p-file, both are removed, or the
p-file stays. -/
inductive Final where
  | rename
  | remove
  | keep
  deriving DecidableEq

structure Outcome where
  ops : List Op
  final : Except Fatal (Final × Option Pfile)

/-- The lines that `fgets` gives with a buffer of `n` bytes. -/
def bufsFrom (n : ℕ) : ℕ → Line → List Line
  | 0, _ => []
  | fuel + 1, file =>
    if file = [] then []
    else cstr (fgets (n - 1) file).1 :: bufsFrom n fuel (fgets (n - 1) file).2

def bufs (n : ℕ) (file : Line) : List Line := bufsFrom n file.length file

section Programs

variable (zone : Zone) (joint : Bool)

/-- The loop of `in_pfile`. -/
def in_pfile (sp : Sid) : List Line → Except Fatal Bool
  | [] => .ok false
  | l :: ls =>
    match pf_ab zone l.dropLast false with
    | .error e => .error e
    | .ok pf => if pf.pf_nsid = sp then .ok true else in_pfile sp ls

/-- The loop of `wrtpfile`. -/
def copyLines (r : Reservation) : List Line → List Op × Option Fatal
  | [] => ([], none)
  | l :: ls =>
    match pf_ab zone l false with
    | .error e => ([.put l], some e)
    | .ok pf =>
      if joint = false ∧ (pf.pf_gsid = r.gsid ∨ pf.pf_nsid = r.nsid) then ([.put l], some .editing)
      else (.put l :: (copyLines r ls).1, (copyLines r ls).2)

def wrtpfile (r : Reservation) (p : Option Line) : Outcome :=
  let c := copyLines zone joint r ((p.map (bufs 64)).getD [])
  match c.2 with
  | some e => ⟨.creat :: c.1, .error e⟩
  | none => ⟨.creat :: c.1 ++ [.put r.line], .ok (.rename, none)⟩

/-- `get -e`, from the last test of `newsid` on; `r` is what it will write. -/
def get (r : Reservation) (p : Option Line) : Outcome :=
  match if joint then in_pfile zone r.nsid ((p.map (bufs BUFSIZ)).getD []) else .ok false with
  | .error e => ⟨[], .error e⟩
  | .ok true => ⟨[], .error .sid⟩
  | .ok false => wrtpfile zone joint r p

/-- The loop of `edpfile` and `rdpfile`: the entries that `mine` picks are not copied. A second one
is an error if `second` says so. -/
def editLines (mine : Pfile → Bool) (second : Bool) :
    List Line → Option Pfile → List Op × Except Fatal (Option Pfile)
  | [], goodpf => ([], .ok goodpf)
  | l :: ls, goodpf =>
    match pf_ab zone l true with
    | .error e => ([], .error e)
    | .ok pf =>
      if mine pf then
        if second && goodpf.isSome then ([], .error .which)
        else editLines mine second ls (some pf)
      else
        let c := editLines mine second ls goodpf
        (.put l :: c.1, c.2)

/-- The end of both. The q-file takes the place of the p-file if it is not empty. -/
def editFile (mine : Pfile → Bool) (second keep : Bool) (p : Option Line) : Outcome :=
  match p with
  | none => ⟨[], .error .other⟩
  | some file =>
    let c := editLines zone mine second (bufs BUFSIZ file) none
    let size := (c.1.map fun op => match op with
      | .creat => 0
      | .put l => l.length).sum
    match c.2 with
    | .error e => ⟨.creat :: c.1, .error e⟩
    | .ok none => ⟨.creat :: c.1, .error .none⟩
    | .ok (some pf) =>
      if pf.pf_user = [] then ⟨.creat :: c.1, .error .none⟩
      else ⟨.creat :: c.1, .ok (if keep then .keep else if size = 0 then .remove else .rename,
        some pf)⟩

/-- `unget`; `sp` is the argument of `-r`. -/
def unget (user : Line) (sp : Option Sid) (p : Option Line) : Outcome :=
  match sp with
  | none => editFile zone (fun pf => pf.pf_user = user) true false p
  | some sid => editFile zone (fun pf => pf.pf_user = user ∧ pf.pf_nsid = sid) false false p

/-- `delta`: `root` is `getuid() == 0`, and `hadf` the argument `-f`, with which the p-file is left
alone. -/
def delta (user : Line) (root hadf : Bool) (sp : Option Sid) (p : Option Line) : Outcome :=
  match sp with
  | none => editFile zone (fun pf => pf.pf_user = user ∨ root) true hadf p
  | some sid =>
    editFile zone (fun pf => (pf.pf_user = user ∨ root) ∧ (pf.pf_nsid = sid ∨ pf.pf_gsid = sid))
      true hadf p

end Programs

/-! ### Runs -/

structure Files where
  p : Option Line
  q : Option Line

def Op.exec (f : Files) : Op → Files
  | .creat => { f with q := some [] }
  | .put l => { f with q := f.q.map (· ++ l) }

/-- `clean_up` -/
def Files.clean_up (f : Files) : Files := { f with q := none }

/-- A run under the z-lock; `stop` is after how much of it a failure of another kind comes. -/
def Outcome.exec (o : Outcome) (f : Files) (stop : Option ℕ) :
    Files × Except Fatal (Option Pfile) :=
  match stop with
  | some n => (((o.ops.take n).foldl Op.exec f).clean_up, .error .other)
  | none =>
    let g := o.ops.foldl Op.exec f
    match o.final with
    | .error e => (g.clean_up, .error e)
    | .ok (.rename, pf) => (⟨g.q, none⟩, .ok pf)
    | .ok (.remove, pf) => (⟨none, none⟩, .ok pf)
    | .ok (.keep, pf) => (g.clean_up, .ok pf)

end Unitas.Sccs.Edit
