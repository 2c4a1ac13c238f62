import Mathlib.Data.Int.Order.Basic
import Mathlib.Order.Fin.Basic
import Unitas.Lib.LinkedList
import Unitas.Lib.Transition
import Unitas.Lib.Literals

/-! The shell's table of commands: `pathlook` and the functions that take entries back. -/
namespace Unitas.Sh.Hash
open Unitas.LinkedList

def HASHZAP : BitVec 16 := 0x03FF
def CDMARK : BitVec 16 := 0x8000
def NOTFOUND : BitVec 16 := 0x0000
def BUILTIN : BitVec 16 := 0x0100
def FUNCTION : BitVec 16 := 0x0200
def COMMAND : BitVec 16 := 0x0400
def REL_COMMAND : BitVec 16 := 0x0800
def PATH_COMMAND : BitVec 16 := 0x1000
def DOT_COMMAND : BitVec 16 := 0x8800

def hashtype (x : BitVec 16) : BitVec 16 := x &&& 0x1F00
def hashdata (x : BitVec 16) : BitVec 16 := x &&& 0x00FF

abbrev Name := List UInt8

/-- `syslook` in the table of builtins, whose numbers fit into a byte; and what `getpath`
gives for a name without a slash. -/
structure Env where
  syslook : Name → BitVec 8
  path : List UInt8

/-- The entries by their names. `relcmd` is the first of the relative ones, and `keys` are the
nodes of the hash table. No function reads `found`, the position that `findpath` found last. -/
structure Tab where
  data : Name → Option (BitVec 16)
  relcmd : Links Name
  keys : List Name
  found : Name → ℤ

def Tab.setData (t : Tab) (name : Name) (d : BitVec 16) : Tab :=
  { t with data := Function.update t.data name (some d) }

/-- `henter` of a name that `hfind` has not found. -/
def Tab.henter (t : Tab) (name : Name) (d : BitVec 16) : Tab :=
  { t.setData name d with keys := name :: t.keys }

/-! ### PATH -/

/-- `nextpath`, and `catpath` but for what it leaves on the stack. -/
def nextpath (path : List UInt8) : Option (List UInt8) :=
  let scanp := (path.dropWhile (· ≠ 58)).drop 1
  if scanp = [] then none else some scanp

def pathsFrom : ℕ → List UInt8 → List (List UInt8)
  | 0, _ => []
  | fuel + 1, path => path :: match nextpath path with
    | none => []
    | some path => pathsFrom fuel path

/-- The values of `path` in a loop that goes to the next one up to the end, each of them
shorter than the one before. -/
def Env.paths (env : Env) : List (List UInt8) := pathsFrom (env.path.length + 1) env.path

/-- The loop of `set_dotpath`: `dotpath` and `multrel`. -/
def setDotpath (cnt dotpath : ℕ) : List (List UInt8) → ℕ × Bool
  | [] => (dotpath, false)
  | path :: paths =>
    if path = [] then (dotpath, false)
    else if path.head? = some 47 then setDotpath (cnt + 1) dotpath paths
    else if dotpath = 10000 then setDotpath cnt cnt paths
    else (dotpath, true)

def Env.dotpath (env : Env) : ℕ := (setDotpath 1 10000 env.paths).1
def Env.multrel (env : Env) : Bool := (setDotpath 1 10000 env.paths).2

/-- The last loop of `findpath`, with `left` components to go. `access` is what `chk_access`
finds for the name in each. -/
def findFrom (access : ℕ → Fin 4) (eCode : Fin 4) (count : ℕ) : ℕ → ℤ
  | 0 => -(eCode.val : ℤ)
  | left + 1 =>
    if access count = 0 then count
    else findFrom access (max eCode (access count)) (count + 1) left

def findpath (env : Env) (access : ℕ → Fin 4) (oldpath : ℕ) : Except Fault ℤ :=
  let n := env.paths.length
  if oldpath = 0 then .ok (findFrom access 1 1 n)
  else if n + 1 < env.dotpath then .error .null
  else if oldpath > env.dotpath then
    if n + 1 = env.dotpath then .error .null
    else .ok (if access env.dotpath = 0 then env.dotpath else oldpath)
  else .ok (findFrom access 1 env.dotpath (n + 1 - env.dotpath))

/-! ### Entries -/

/-- The end of `pathlook`, with what `hentry.data` is. -/
def Tab.finish (env : Env) (name : Name) (hentry : BitVec 16) (count : ℤ) (t : Tab) :
    Tab × BitVec 16 :=
  if count > 0 then
    let (t, d) := match t.data name with
      | none => (t.henter name hentry, hentry)
      | some d => (t, d)
    if d = 0 then
      if count < env.dotpath then
        let d := COMMAND ||| BitVec.ofInt 16 count
        (t.setData name d, d)
      else
        let d := REL_COMMAND ||| BitVec.ofInt 16 count
        let relcmd := (t.relcmd.set (some name) t.relcmd.head).set none (some name)
        ({ t.setData name d with relcmd }, d)
    else (t, d)
  else (t, BitVec.ofInt 16 (-count))

def pathsrch (env : Env) (name : Name) (access : ℕ → Fin 4) (oldpath : ℕ) (t : Tab) :
    Except Fault (Tab × BitVec 16) := do
  let count ← findpath env access oldpath
  .ok ({ t with found := Function.update t.found name count }.finish env name 0 count)

/-- `arg` tells that the command comes with an assignment to PATH. -/
def pathlook (env : Env) (name : Name) (arg : Bool) (access : ℕ → Fin 4) (t : Tab) :
    Except Fault (Tab × BitVec 16) :=
  if 47 ∈ name then .ok (t, COMMAND)
  else match t.data name with
    | some d =>
      if d &&& (BUILTIN ||| FUNCTION) ≠ 0 then .ok (t, d)
      else if arg then .ok (t, PATH_COMMAND)
      else if d &&& DOT_COMMAND = DOT_COMMAND then
        let oldpath :=
          if env.multrel = false ∧ env.dotpath < (hashdata d).toNat then (hashdata d).toNat
          else env.dotpath
        pathsrch env name access oldpath (t.setData name 0)
      else if d &&& (COMMAND ||| REL_COMMAND) ≠ 0 then .ok (t, d)
      else if env.syslook name ≠ 0 then
        .ok ((t.setData name 0).finish env name (BUILTIN ||| (env.syslook name).setWidth 16) 1)
      else pathsrch env name access 0 (t.setData name 0)
    | none =>
      if env.syslook name ≠ 0 then
        .ok (t.finish env name (BUILTIN ||| (env.syslook name).setWidth 16) 1)
      else if arg then .ok (t, PATH_COMMAND)
      else pathsrch env name access 0 t

def zapentry (d : BitVec 16) : BitVec 16 := d &&& HASHZAP

def zaphash (t : Tab) : Tab :=
  { t with data := fun name => (t.data name).map zapentry, relcmd := t.relcmd.set none none }

/-- The loop of `zapcd`. -/
def zapcdFrom : ℕ → Option Name → Tab → Except Fault Tab
  | _, none, t => .ok t
  | 0, some _, _ => .error .loops
  | fuel + 1, some ptr, t =>
    zapcdFrom fuel (t.relcmd.next ptr)
      { t with data := Function.update t.data ptr ((t.data ptr).map (· ||| CDMARK)) }

/-- More entries than there are nodes are entries that come again. -/
def zapcd (t : Tab) : Except Fault Tab := do
  let t ← zapcdFrom t.keys.length t.relcmd.head t
  .ok { t with relcmd := t.relcmd.set none none }

def hashFunc (name : Name) (t : Tab) : Tab :=
  match t.data name with
  | some _ => t.setData name FUNCTION
  | none => t.henter name FUNCTION

def funcUnhash (env : Env) (name : Name) (t : Tab) : Tab :=
  match t.data name with
  | some d =>
    if d &&& FUNCTION ≠ 0 then
      if env.syslook name ≠ 0 then t.setData name (BUILTIN ||| (env.syslook name).setWidth 16)
      else t.setData name NOTFOUND
    else t
  | none => t

/-- `hash_cmd` up to the call of `pathlook`, for a name without a slash and an entry that is
neither a builtin nor a function. -/
def unhash (name : Name) (d : BitVec 16) (t : Tab) : Except Fault Tab := do
  let relcmd ←
    if d &&& REL_COMMAND = REL_COMMAND then do
      let ptr ← t.relcmd.slotOf name (t.keys.length + 1) none
      .ok (t.relcmd.set ptr (t.relcmd.next name))
    else .ok t.relcmd
  .ok { t.setData name (zapentry d) with relcmd }

def hashCmd (env : Env) (name : Name) (access : ℕ → Fin 4) (t : Tab) :
    Except Fault (Tab × BitVec 16) :=
  if 47 ∈ name then .ok (t, COMMAND)
  else match t.data name with
    | some d =>
      if d &&& (BUILTIN ||| FUNCTION) ≠ 0 then .ok (t, d)
      else do
        let t ← unhash name d t
        pathlook env name false access t
    | none => pathlook env name false access t

end Unitas.Sh.Hash
