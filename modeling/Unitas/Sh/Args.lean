import Mathlib.Data.Int.Notation
import Mathlib.Data.List.Count
import Mathlib.Logic.Function.Basic

/-! The shell's positional parameters: the blocks that hold them, and the commands that take
and leave them. -/
namespace Unitas.Sh.Args

abbrev Ptr := ℕ
abbrev Str := List UInt8

/-- `struct dolnod`, with the strings up to ENDARGS. -/
structure Block where
  dolnxt : Option Ptr
  doluse : ℤ
  dolarg : List Str

/-- A pointer into the strings of a block, or into those the shell was called with. -/
structure Argp where
  block : Option Ptr
  pos : ℕ

/-- What `execute` keeps of a function call or of a loop over the parameters. -/
inductive Frame
  | call (olddolh : Option Ptr) (olddolv : Argp) (olddolc : ℤ)
  | loop (args : Argp) (argsav : Option Ptr)

/-- A block of `heap` is allocated. The frames are those of the commands that are not done yet,
the innermost one first, and `allocs` is the number of blocks that there ever were. -/
structure State where
  argv : List Str
  heap : Ptr → Option Block
  dolh : Option Ptr
  argfor : Option Ptr
  dolv : Argp
  dolc : ℤ
  frames : List Frame
  allocs : ℕ

/-- A freed block is used, a loop goes on for ever, or the shell does not come to this. -/
inductive Fault
  | freed
  | loops
  | never
  deriving DecidableEq

def State.deref (s : State) (p : Ptr) : Except Fault Block :=
  match s.heap p with
  | some b => .ok b
  | none => .error .freed

def State.put (s : State) (p : Ptr) (b : Option Block) : State :=
  { s with heap := Function.update s.heap p b }

def freedolh (s : State) : Except Fault State :=
  match s.dolh with
  | none => .ok s
  | some p => do
    let b ← s.deref p
    .ok (s.put p (if b.doluse - 1 = 0 then none else some { b with doluse := b.doluse - 1 }))

/-- `p` is the block that `alloc` gives, one that is not allocated. -/
def copyargs (p : Ptr) (argi : List Str) (s : State) : Except Fault State :=
  match s.heap p with
  | some _ => .error .never
  | none => .ok { s.put p (some ⟨none, 1, argi⟩) with dolv := ⟨some p, 0⟩, allocs := s.allocs + 1 }

def setargs (p : Ptr) (argi : List Str) (s : State) : Except Fault State := do
  let s ← freedolh s
  let s ← copyargs p argi s
  .ok { s with dolh := some p, dolc := argi.length - 1 }

def useargs (s : State) : Except Fault State :=
  match s.dolh with
  | none => .ok s
  | some p => do
    let b ← s.deref p
    if b.doluse = 1 then
      .ok { s.put p (some { b with doluse := b.doluse + 1, dolnxt := s.argfor }) with
        argfor := some p }
    else .ok (s.put p (some { b with doluse := b.doluse + 1 }))

/-- What the caller stores to `argfor`, with the state. -/
def freeargs (blk : Option Ptr) (s : State) : Except Fault (State × Option Ptr) :=
  match blk with
  | none => .ok (s, none)
  | some p => do
    let b ← s.deref p
    let cnt := b.doluse - 1
    if s.dolh = some p then
      .ok (s.put p (some { b with doluse := cnt }), if cnt = 1 then b.dolnxt else some p)
    else .ok (s.put p (if cnt = 0 then none else some { b with doluse := cnt }), b.dolnxt)

def cleanArgs (blk : Option Ptr) (s : State) : Except Fault (State × Option Ptr) :=
  match blk with
  | none => .ok (s, none)
  | some p => do
    let b ← s.deref p
    .ok (s.put p (if s.dolh = some p then some { b with doluse := 1 } else none), b.dolnxt)

/-- The loop of `restorargs`. More blocks than there ever were come again. -/
def cleanFrom (olddolh : Option Ptr) : ℕ → State → Except Fault State
  | 0, _ => .error .loops
  | fuel + 1, s => do
    let (s, argfor) ← cleanArgs s.argfor s
    let s := { s with argfor }
    if argfor ≠ olddolh ∧ argfor ≠ none then cleanFrom olddolh fuel s else .ok s

/-- `restorargs` from its second test on. -/
def restoreOld (olddolh : Option Ptr) (s : State) : Except Fault State :=
  match s.argfor with
  | none => .ok s
  | some _ => do
    let s ← freedolh s
    match olddolh with
    | none => .ok { s with dolh := none, argfor := none }
    | some p => do
      let b ← s.deref p
      let s := { s.put p (some { b with doluse := b.doluse + 1 }) with dolh := some p }
      let (s, argfor) ← freeargs (some p) s
      .ok { s with argfor }

def restorargs (olddolh : Option Ptr) (s : State) : Except Fault State :=
  if s.argfor ≠ olddolh then do
    let s ← cleanFrom olddolh (s.allocs + 1) s
    restoreOld olddolh s
  else restoreOld olddolh s

/-! ### Commands -/

/-- The strings from a pointer on. -/
def State.strings (s : State) (a : Argp) : Except Fault (List Str) :=
  match a.block with
  | none => .ok (s.argv.drop a.pos)
  | some p => do
    let b ← s.deref p
    .ok (b.dolarg.drop a.pos)

/-- `dolv[0]` up to `dolv[dolc]`. -/
def State.params (s : State) : Except Fault (List Str) := do
  let l ← s.strings s.dolv
  .ok (l.take (s.dolc + 1).toNat)

inductive Act
  | set (p : Ptr) (argi : List Str)
  | shift (places : ℕ)
  | call (p : Ptr) (com : List Str)
  | ret
  | enter
  | next
  | leave

def State.act (s : State) : Act → Except Fault State
  | .set p argi => setargs p argi s
  | .shift places =>
    if s.dolc - places < 0 then .error .never
    else .ok { s with dolc := s.dolc - places, dolv := ⟨s.dolv.block, s.dolv.pos + places⟩ }
  | .call p com => do
    let s ← useargs s
    setargs p com { s with frames := .call s.dolh s.dolv s.dolc :: s.frames }
  | .ret =>
    match s.frames with
    | .call olddolh olddolv olddolc :: frames => do
      let s ← restorargs olddolh s
      .ok { s with dolv := olddolv, dolc := olddolc, frames }
    | _ => .error .never
  | .enter => do
    let s ← useargs s
    .ok { s with frames := .loop ⟨s.dolv.block, s.dolv.pos + 1⟩ s.dolh :: s.frames }
  | .next =>
    match s.frames with
    | .loop args argsav :: frames => do
      let l ← s.strings args
      match l with
      | [] => .error .never
      | _ :: _ => .ok { s with frames := .loop ⟨args.block, args.pos + 1⟩ argsav :: frames }
    | _ => .error .never
  | .leave =>
    match s.frames with
    | .loop _ none :: frames => .ok { s with frames }
    | .loop _ (some p) :: frames => do
      let (s, argfor) ← freeargs (some p) s
      .ok { s with argfor, frames }
    | _ => .error .never

def step (s : State) (a : Act) : Option State :=
  match s.act a with
  | .ok s' => some s'
  | .error _ => none

end Unitas.Sh.Args
