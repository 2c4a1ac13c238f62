import Mathlib.Data.List.Nodup
import Mathlib.Logic.Function.Basic

/-! The shell's command trees, as far as functions go: how definitions take and leave them, and
what `freetree` does to them. -/
namespace Unitas.Sh.Func

abbrev Ptr := ℕ
abbrev Name := List UInt8

inductive Typ
  | tcom
  | tfnd (fndnam : Name)
  | tfork
  | tpar
  | tfil
  | tlst
  | tand
  | torf
  | tfor
  | twh
  | tun
  | tif
  | tsw

/-- A node has the trees that `freetree` goes into, in that order. `cons` is no node, but makes a
chain of them. -/
inductive Tree
  | null
  | node (id : Ptr) (typ : Typ) (kids : Tree)
  | cons (t ts : Tree)

def Tree.root : Tree → Option Ptr
  | node id _ _ => some id
  | _ => none

/-- The first of a chain, for a definition its `fndval`. -/
def Tree.first : Tree → Tree
  | cons (node id typ kids) _ => node id typ kids
  | _ => null

def Tree.ids : Tree → List Ptr
  | null => []
  | node id _ kids => id :: kids.ids
  | cons t ts => t.ids ++ ts.ids

/-- A tree that `execute` is running: the body of a function, or what has been read. -/
structure Running where
  isFunc : Bool
  tree : Tree

/-- `cnt` is the low four bits of `tretyp`, and `namenv` is that of the names that are flagged as
functions. The trees of `todo` are yet to be read. -/
structure State where
  cnt : Ptr → ℕ
  freed : Ptr → Bool
  namenv : Name → Option Tree
  running : List Running
  todo : List Tree

def State.lower (s : State) (id : Ptr) : State :=
  { s with cnt := Function.update s.cnt id (s.cnt id - 1) }

def State.free (s : State) (id : Ptr) : State :=
  { s with freed := Function.update s.freed id true }

def freetree : Tree → State → State
  | .null, s => s
  | .node id _ kids, s =>
    if s.cnt id ≠ 0 then s.lower id else (freetree kids s).free id
  | .cons t ts, s => freetree ts (freetree t s)

/-- The definition that is executed as a part of a tree: not one in the body of another. -/
def findDef (id : Ptr) : Tree → Option (Name × Tree)
  | .null => none
  | .node id' (.tfnd fndnam) kids => if id' = id then some (fndnam, kids.first) else none
  | .node _ _ kids => findDef id kids
  | .cons t ts => (findDef id t).or (findDef id ts)

def State.funcnt (s : State) : ℕ := s.running.countP Running.isFunc

/-- `tretyp++`, for a tree that is not null, as long as the count has room. -/
def State.raise (s : State) (t : Tree) : Option State :=
  match t with
  | .node id _ _ =>
    if s.cnt id = 15 then none else some { s with cnt := Function.update s.cnt id (s.cnt id + 1) }
  | _ => none

/-- An assignment to a name or `unset`. -/
def drop (n : Name) (s : State) : State :=
  match s.namenv n with
  | some t => { freetree t s with namenv := Function.update s.namenv n none }
  | none => s

def attach (n : Name) (t : Tree) (s : State) : State :=
  { s with namenv := Function.update s.namenv n (some t) }

/-- `execute` of a definition. -/
def define (n : Name) (fndval : Tree) (s : State) : Option State := do
  let s := drop n s
  let s ← if s.funcnt ≠ 0 then s.raise fndval else some s
  some (attach n fndval s)

inductive Act
  | define (id : Ptr)
  | drop (n : Name)
  | call (n : Name)
  | read
  | leave

def step (s : State) : Act → Option State
  | .define id =>
    match s.running with
    | [] => none
    | r :: _ => (findDef id r.tree).bind fun d => Func.define d.1 d.2 s
  | .drop n => some (Func.drop n s)
  | .call n => (s.namenv n).map fun t => { s with running := ⟨true, t⟩ :: s.running }
  | .read =>
    match s.todo with
    | [] | .cons _ _ :: _ => none
    | t :: todo => some { s with running := ⟨false, t⟩ :: s.running, todo }
  | .leave =>
    match s.running with
    | [] => none
    | _ :: running => some { s with running }

def State.start (prog : List Tree) : State where
  cnt _ := 0
  freed _ := false
  namenv _ := none
  running := []
  todo := prog

end Unitas.Sh.Func
