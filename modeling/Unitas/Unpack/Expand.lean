import Mathlib.Data.Nat.Basic
import Mathlib.Logic.Function.Basic
import Unitas.Lib.CInt

/-! The static variables of `unpack`, shared by both decoders and never cleared between
files, and the two files a run has open. -/
namespace Unitas.Unpack

/-- The diagnostics a failed file is reported with. -/
inductive Message
  | notPackedFormat
  | unpackingError
  | readError
  | writeError
  deriving DecidableEq, Repr

/-- How `getdict` ends. `undefined` is an access outside an array or through a null pointer;
`outOfFuel` belongs to the bounded loops here and never comes out of `getdict`. -/
inductive Result
  | success
  | failure (msg : Message)
  | undefined
  | outOfFuel
  deriving DecidableEq, Repr

/-- `inp`, `outp`, `eof` and the entries of `tree` are offsets into their arrays; a null
entry of `tree` is `none`. `outbuff` holds what lies below `outp`. `Tree` is defined on the
1024 entries of that array. -/
structure Statics where
  inbuff : ℕ → UInt8
  inleft : ℤ
  inp : ℕ
  isEof : Bool
  outbuff : List UInt8
  origsize : ℤ
  maxlev : ℕ
  intnodes : ℕ → ℕ
  tree : ℕ → Option ℕ
  characters : ℕ → UInt8
  eof : ℕ
  Tree : ℤ → Option ℤ

/-- The array `Tree` with one value throughout. -/
def constTree (v : ℤ) : ℤ → Option ℤ := fun i => if 0 ≤ i ∧ i < 1024 then some v else none

/-- The statics as the program is loaded. -/
def Statics.loaded : Statics where
  inbuff := fun _ => 0
  inleft := 0
  inp := 0
  isEof := false
  outbuff := []
  origsize := 0
  maxlev := 0
  intnodes := fun _ => 0
  tree := fun _ => none
  characters := fun _ => 0
  eof := 0
  Tree := constTree 0

/-- A packed file with what is still unread of it, and what has gone to the output. With
`readErr` the `read` after the last byte fails, with `writeErr` every `write` does. -/
structure Files where
  infile : List UInt8
  readErr : Bool
  written : List UInt8
  writeErr : Bool

structure State extends Statics, Files

/-- A buffer whose first bytes `read` has replaced. -/
def overlay (chunk : List UInt8) (buf : ℕ → UInt8) : ℕ → UInt8 :=
  fun i => chunk.getD i (buf i)

/-- `inleft = read(infile, &inbuff[0], BUFSIZ)`. -/
def State.read (BUFSIZ : ℕ) (s : State) : State :=
  if s.infile = [] ∧ s.readErr then { s with inleft := -1 }
  else
    let chunk := s.infile.take BUFSIZ
    { s with
      inbuff := overlay chunk s.inbuff
      inleft := chunk.length
      infile := s.infile.drop BUFSIZ }

/-- `if (inleft <= 0) inleft = read(infile, inp = &inbuff[0], BUFSIZ);` -/
def State.refill (BUFSIZ : ℕ) (s : State) : State :=
  if s.inleft ≤ 0 then { s.read BUFSIZ with inp := 0 } else s

/-- Writing out all of `outbuff`; `none` when the `write` fails. -/
def State.write (s : State) : Option State :=
  if s.writeErr then none
  else some { s with written := s.written ++ s.outbuff, outbuff := [] }

/-- `*inp++`, of which one byte of `inleft` has been paid. -/
def State.next (s : State) : UInt8 × State := (s.inbuff s.inp, { s with inp := s.inp + 1 })

end Unitas.Unpack

/-! The decoder of `unpack` for files of the previous packing algorithm. An early `return`
and a `longjmp` to `getdict` are both exceptions that leave the statics as they are. -/
namespace Unitas.Unpack
open Unitas.CInt

abbrev Decoder := EStateM Result State

variable (BUFSIZ : ℕ)

/-- `EOF` is -1. -/
def getch : Decoder ℤ := do
  modify (State.refill BUFSIZ)
  let s ← get
  if s.inleft < 0 then throw (.failure .readError)
  else if s.inleft = 0 then
    set { s with isEof := true }
    return -1
  else
    let (c, s) := s.next
    set { s with inleft := s.inleft - 1 }
    return c.toNat

def getwdsize : Decoder ℤ := do
  let c ← getch BUFSIZ
  let d ← getch BUFSIZ
  if (← get).isEof then return 0
  return d * 256 + mask c

def lookup (i : ℤ) : Decoder ℤ := do
  match (← get).Tree i with
  | none => throw .undefined
  | some v => return v

def store (t v : ℤ) : Decoder Unit := do
  let s ← get
  if 0 ≤ t ∧ t < 1024 then set { s with Tree := Function.update s.Tree t (some v) }
  else throw .undefined

/-- `for (keysize = getwdsize(); keysize--; )`, storing from entry `t` on. -/
def readKeys : ℕ → ℤ → Decoder Unit
  | 0, _ => return
  | keysize + 1, t => do
    let i ← getch BUFSIZ
    if i = 255 then
      store t (← getwdsize BUFSIZ)
    else
      if (← get).isEof then throw (.failure .notPackedFormat)
      store t (mask i)
    readKeys keysize (t + 1)

def putch (c : ℤ) : Decoder Unit := do
  let s ← get
  let s := { s with outbuff := s.outbuff ++ [UInt8.ofNat (mask c).toNat] }
  if s.outbuff.length = BUFSIZ then
    match s.write with
    | none => throw (.failure .writeError)
    | some s => set s
  else set s

/-- `bit` more bits of `word`, from entry `tp` of the key table. The result is the entry
the next word starts from, or `none` once the last character is out. -/
def expandBits : ℕ → ℤ → ℤ → Decoder (Option ℤ)
  | 0, _, tp => return some tp
  | bit + 1, word, tp => do
    let tp := tp + (← lookup (tp + if word < 0 then 1 else 0))
    let word := wrap 16 (2 * word)
    if (← lookup tp) = 0 then
      putch BUFSIZ (← lookup (tp + 1))
      let s ← get
      set { s with origsize := s.origsize - 1 }
      if s.origsize - 1 = 0 then
        -- The result of this `write` is not looked at.
        modify fun s => s.write.getD s
        return none
      expandBits bit word 0
    else expandBits bit word tp

/-- The decoding loop, one word in each round. -/
def expandWords : ℕ → ℤ → Decoder Unit
  | 0, _ => throw .outOfFuel
  | fuel + 1, tp => do
    let word := wrap 16 (← getwdsize BUFSIZ)
    let s ← get
    if word = 0 ∧ s.isEof ∧ 0 < s.origsize then throw (.failure .notPackedFormat)
    match ← expandBits BUFSIZ 16 word tp with
    | none => return
    | some tp => expandWords fuel tp

/-- Every round of the loop uses up two bytes, or meets the end of the file. -/
def expand : Decoder Unit := do
  modify fun s => { s with outbuff := [], inp := 2, inleft := s.inleft - 2 }
  let hi ← getwdsize BUFSIZ
  let lo ← getwdsize BUFSIZ
  modify fun s => { s with origsize := hi * 256 * 256 + lo }
  let s ← get
  if s.origsize = 0 ∨ s.isEof then throw (.failure .notPackedFormat)
  let keysize ← getwdsize BUFSIZ
  readKeys BUFSIZ keysize.toNat 0
  let s ← get
  if s.isEof then throw (.failure .notPackedFormat)
  expandWords BUFSIZ (s.inleft.toNat + s.infile.length + 1) 0

end Unitas.Unpack
