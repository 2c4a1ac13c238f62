import Mathlib.Data.Int.Order.Basic
import Unitas.Lib.LinkedList

/-! The shell's table of jobs: two lists of the same jobs, and three counters. -/
namespace Unitas.Sh.Jobs
open Unitas.LinkedList

/-- The bits of `j_flag` that do not concern the terminal. -/
structure Flag where
  dumped : Bool
  notify : Bool
  stopped : Bool
  signaled : Bool
  done : Bool
  running : Bool
  foregnd : Bool

def Flag.zero : Flag := ⟨false, false, false, false, false, false, false⟩

abbrev Ptr := ℕ

structure Job where
  pid : ℤ
  jid : ℕ
  xval : ℕ
  flag : Flag

/-- What `waitpid` reports of a process. -/
inductive Status
  | stopped (sig : ℕ)
  | signaled (sig : ℕ) (core : Bool)
  | exited (status : ℕ)

/-- No function reads the last three: the blocks that are allocated, all those that ever were,
and whether `allocjob` was the last call. -/
structure Table where
  joblst : Links Ptr
  jobcur : Links Ptr
  job : Ptr → Job
  jobcnt : ℤ
  jobdone : ℤ
  jobnote : ℤ
  nextjob : Option Ptr
  thisjob : Ptr
  exitval : ℕ
  busy : Ptr → Bool
  blocks : List Ptr
  pending : Bool

def SIGINT : ℕ := 2
def SIGFLG : ℕ := 128

/-- More cells than there ever were blocks are cells that come again. -/
def Table.fuel (s : Table) : ℕ := s.blocks.length + 1

def Table.setFlag (s : Table) (jp : Ptr) (f : Flag → Flag) : Table :=
  { s with job := Function.update s.job jp { s.job jp with flag := f (s.job jp).flag } }

def Table.free (s : Table) (jp : Ptr) : Table :=
  { s with busy := Function.update s.busy jp false }

/-- The first job of the list that meets `p`, from a pointer on. -/
def findFrom (next : Ptr → Option Ptr) (p : Ptr → Bool) : ℕ → Option Ptr → Except Fault (Option Ptr)
  | _, none => .ok none
  | 0, some _ => .error .loops
  | fuel + 1, some jp => if p jp then .ok (some jp) else findFrom next p fuel (next jp)

def pgid2job (s : Table) (pgid : ℤ) : Except Fault (Option Ptr) :=
  findFrom s.joblst.next (fun jp => (s.job jp).pid = pgid) s.fuel s.joblst.head

def freejob (jp : Ptr) (s : Table) : Except Fault Table := do
  let njp ← s.joblst.slotOf jp s.fuel none
  let cjp ← s.jobcur.slotOf jp s.fuel none
  .ok { s.free jp with
    joblst := s.joblst.set njp (s.joblst.next jp)
    jobcur := s.jobcur.set cjp (s.jobcur.next jp)
    jobcnt := s.jobcnt - 1
    jobdone := s.jobdone - 1 }

/-! ### Status -/

/-- Whether `statjob` sets J_NOTIFY. -/
def Status.notes (jid : ℕ) (fg : Bool) : Status → Bool
  | stopped _ => jid ≠ 0
  | signaled sig _ => !fg || sig ≠ SIGINT
  | exited _ => !fg && jid ≠ 0

def Status.finishes : Status → Bool
  | stopped _ => false
  | signaled .. | exited _ => true

/-- `statjob` up to the last condition, but for the terminal. -/
def Job.status (fg : Bool) (j : Job) : Status → Job
  | .stopped sig =>
    { j with
      xval := sig
      flag := { j.flag with
        running := false, signaled := true, stopped := true
        notify := j.flag.notify || j.jid ≠ 0 } }
  | .signaled sig core =>
    { j with
      xval := sig
      flag := { j.flag with
        running := false, done := true, signaled := true
        dumped := j.flag.dumped || core
        notify := j.flag.notify || (!fg || sig ≠ SIGINT) } }
  | .exited status =>
    { j with
      xval := status
      flag := { j.flag with
        running := false, done := true, signaled := false
        notify := j.flag.notify || (!fg && j.jid ≠ 0) } }

def Job.exitval (j : Job) : ℕ := if j.flag.signaled then j.xval ||| SIGFLG else j.xval

def statjob (jp : Ptr) (stat : Status) (fg rc : Bool) (s : Table) : Except Fault Table :=
  let j := (s.job jp).status fg stat
  let s := { s with
    job := Function.update s.job jp j
    jobdone := s.jobdone + stat.finishes.toNat
    jobnote := s.jobnote + (stat.notes j.jid fg).toNat
    exitval := if rc then j.exitval else s.exitval }
  if stat.finishes && !j.flag.notify then freejob jp s else .ok s

/-- The loop of `collectjobs`, with what `waitpid` reports as long as it does. -/
def collectFrom : ℕ → List (ℤ × Status) → Table → Except Fault Table
  | 0, _, s => .ok s
  | _ + 1, [], s => .ok s
  | n + 1, (pid, stat) :: reports, s => do
    match ← pgid2job s pid with
    | none => collectFrom n reports s
    | some jp => do
      let s ← statjob jp stat false false s
      collectFrom n reports s

def collectjobs (reports : List (ℤ × Status)) (s : Table) : Except Fault Table :=
  collectFrom (s.jobcnt - s.jobdone).toNat reports s

/-- What `printjob` does to the table. -/
def printjob (jp : Ptr) (s : Table) : Table :=
  if (s.job jp).flag.notify then
    { s.setFlag jp ({ · with notify := false }) with jobnote := s.jobnote - 1 }
  else s

/-- The first loop of `freejobs`. -/
def printFrom : ℕ → Option Ptr → Table → Except Fault Table
  | _, none, s => .ok s
  | 0, some _, _ => .error .loops
  | fuel + 1, some jp, s =>
    let s := if (s.job jp).flag.notify then printjob jp s else s
    printFrom fuel (s.joblst.next jp) s

/-- The second loop, which goes on from the field of a block that it has freed. -/
def freeFrom : ℕ → Option Ptr → Table → Except Fault Table
  | _, none, s => .ok s
  | 0, some _, _ => .error .loops
  | fuel + 1, some jp, s => do
    let s ← if (s.job jp).flag.done then freejob jp s else .ok s
    freeFrom fuel (s.joblst.next jp) s

def printNoted (s : Table) : Except Fault Table :=
  if s.jobnote ≠ 0 then printFrom s.fuel s.joblst.head s else .ok s

def freeDone (s : Table) : Except Fault Table :=
  if s.jobdone ≠ 0 then freeFrom s.fuel s.joblst.head s else .ok s

def freejobs (reports : List (ℤ × Status)) (s : Table) : Except Fault Table := do
  let s ← collectjobs reports s
  let s ← printNoted s
  freeDone s

/-- `waitpid` may find that there is no such child. -/
def waitjob (jp : Ptr) (stat : Option Status) (s : Table) : Except Fault Table :=
  statjob jp (stat.getD (.exited 0)) true true s

/-- The first lines of `restartjob`: `jp` becomes the current job. -/
def setCurrent (jp : Ptr) (s : Table) : Except Fault (Links Ptr) :=
  if s.jobcur.head = some jp then .ok s.jobcur
  else do
    let t ← s.jobcur.slotOf jp s.fuel none
    let jobcur := s.jobcur.set t (s.jobcur.next jp)
    .ok ((jobcur.set (some jp) jobcur.head).set none (some jp))

def restartjob (jp : Ptr) (fg : Bool) (stat : Option Status) (s : Table) : Except Fault Table := do
  let jobcur ← setCurrent jp s
  let s := { s with jobcur }.setFlag jp
    ({ · with stopped := false, signaled := false, running := true, foregnd := fg })
  let s := printjob jp s
  if fg then waitjob jp stat s else .ok s

/-- One argument of `wait`. -/
def syswait (jp : Ptr) (stat : Option Status) (s : Table) : Except Fault Table :=
  if (s.job jp).flag.running then
    match stat with
    | none => .ok s
    | some stat => statjob jp stat false true s
  else .ok s

/-! ### Jobs come and go -/

def deallocjob (s : Table) : Table :=
  { s.free s.thisjob with jobcnt := s.jobcnt - 1, pending := false }

/-- The first slot that is null or points to a job with an id. -/
def skipZero (s : Table) : ℕ → Option Ptr → Except Fault (Option Ptr)
  | 0, _ => .error .loops
  | fuel + 1, jpp =>
    match s.joblst.get jpp with
    | none => .ok jpp
    | some jp => if (s.job jp).jid ≠ 0 then .ok jpp else skipZero s fuel (some jp)

/-- The first id that is not taken, from `jid` on. -/
def firstGap (s : Table) : ℕ → Option Ptr → ℕ → Except Fault (Option Ptr × ℕ)
  | 0, _, _ => .error .loops
  | fuel + 1, jpp, jid =>
    match s.joblst.get jpp with
    | none => .ok (jpp, jid)
    | some jp => if (s.job jp).jid ≠ jid then .ok (jpp, jid) else firstGap s fuel (some jp) (jid + 1)

/-- The slot and the id of a new job. -/
def reserve (monitor : Bool) (s : Table) : Except Fault (Option Ptr × ℕ) :=
  if monitor then do
    let jpp ← skipZero s s.fuel none
    firstGap s s.fuel jpp 1
  else .ok (none, 0)

/-- `jp` is the block that `alloc` gives. -/
def allocjob (jp : Ptr) (monitor : Bool) (s : Table) : Except Fault Table := do
  let (jpp, jid) ← reserve monitor s
  .ok { s with
    jobcnt := s.jobcnt + 1
    job := Function.update s.job jp { s.job jp with jid }
    nextjob := jpp
    thisjob := jp
    busy := Function.update s.busy jp true
    blocks := jp :: s.blocks
    pending := true }

def clearFrom : ℕ → Option Ptr → Table → Except Fault Table
  | _, none, s => .ok s
  | 0, some _, _ => .error .loops
  | fuel + 1, some jp, s => clearFrom fuel (s.joblst.next jp) (s.free jp)

def clearjobs (s : Table) : Except Fault Table := do
  let s ← clearFrom s.fuel s.joblst.head s
  .ok { s with
    joblst := s.joblst.set none none
    jobcnt := 0
    jobnote := 0
    jobdone := 0
    pending := false }

def postjob (pid : ℤ) (fg ttyflg : Bool) (stat : Option Status) (s : Table) :
    Except Fault Table :=
  let jp := s.thisjob
  let s := { s with
    joblst := (s.joblst.set (some jp) (s.joblst.get s.nextjob)).set s.nextjob (some jp)
    jobcur := (s.jobcur.set (some jp) s.jobcur.head).set none (some jp)
    job := Function.update s.job jp
      { s.job jp with pid, flag := { Flag.zero with running := true, foregnd := fg } }
    pending := false }
  if fg then waitjob jp stat s else .ok (if ttyflg then printjob jp s else s)

end Unitas.Sh.Jobs
