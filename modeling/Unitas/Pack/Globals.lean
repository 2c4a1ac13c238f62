import Mathlib.Data.Nat.Basic
import Mathlib.Data.Nat.Bitwise
import Mathlib.Logic.Function.Basic

/-! The external variables of `pack` and the functions up to the Huffman tree. -/
namespace Unitas.Pack
open Function

def END : ℕ := 256

/-- `struct heap`. -/
structure Entry where
  count : ℕ
  node : ℕ

/-- What one file leaves behind for the next. `outbuff` goes on past its end, into whatever
is stored there. -/
structure Globals where
  count : ℕ → ℕ
  insize : ℕ
  diffbytes : ℤ
  maxlev : ℕ
  levcount : ℕ → ℕ
  lastnode : ℕ
  parent : ℕ → ℕ
  length : ℕ → ℕ
  bits : ℕ → ℕ
  n : ℕ
  heap : ℕ → Entry
  outbuff : ℕ → UInt8

/-- The globals as the program is loaded. -/
def Globals.loaded : Globals where
  count := fun _ => 0
  insize := 0
  diffbytes := 0
  maxlev := 0
  levcount := fun _ => 0
  lastnode := 0
  parent := fun _ => 0
  length := fun _ => 0
  bits := fun _ => 0
  n := 0
  heap := fun _ => ⟨0, 0⟩
  outbuff := fun _ => 0

/-- `count[inbuff[--i]&0377] += 2` -/
def countByte (g : Globals) (c : UInt8) : Globals :=
  { g with count := update g.count c.toNat (g.count c.toNat + 2) }

/-- Count the bytes of a file. -/
def input (file : List UInt8) (g : Globals) : Globals :=
  file.foldl countByte { g with count := fun i => if i < END then 0 else g.count i }

/-- The loop of `heapify`. The index at least doubles in each round. -/
def sift (heapsubi : Entry) : ℕ → ℕ → Globals → Globals
  | 0, i, g => { g with heap := update g.heap i heapsubi }
  | fuel + 1, i, g =>
    if i ≤ g.n / 2 then
      let k := if (g.heap (2 * i)).count > (g.heap (2 * i + 1)).count ∧ 2 * i < g.n
        then 2 * i + 1 else 2 * i
      if heapsubi.count < (g.heap k).count then { g with heap := update g.heap i heapsubi }
      else sift heapsubi fuel k { g with heap := update g.heap i (g.heap k) }
    else { g with heap := update g.heap i heapsubi }

def heapify (i : ℕ) (g : Globals) : Globals := sift (g.heap i) g.n i g

/-- Put character `i` into the heap if it occurs. -/
def enter (g : Globals) (i : ℕ) : Globals :=
  let g := { g with parent := update g.parent i 0 }
  if 0 < g.count i then
    { g with
      diffbytes := g.diffbytes + 1
      insize := g.insize + g.count i
      n := g.n + 1
      heap := update g.heap (g.n + 1) ⟨g.count i, i⟩ }
  else g

/-- The occurring characters and `END`, from `END` down. -/
def enterAll (g : Globals) : Globals :=
  (List.range (END + 1)).reverse.foldl enter
    { g with diffbytes := -1, count := update g.count END 1, insize := 0, n := 0 }

/-- `for (i = n/2; i >= 1; i--) heapify(i);` -/
def heapifyFrom : ℕ → Globals → Globals
  | 0, g => g
  | i + 1, g => heapifyFrom i (heapify (i + 1) g)

/-- One round of building the Huffman tree. -/
def join (g : Globals) : Globals :=
  let lastnode := g.lastnode + 1
  let inc := (g.heap 1).count
  let g := heapify 1 { g with
    lastnode
    parent := update g.parent (g.heap 1).node lastnode
    heap := update g.heap 1 (g.heap g.n)
    n := g.n - 1 }
  heapify 1 { g with
    parent := update g.parent (g.heap 1).node lastnode
    heap := update g.heap 1 ⟨(g.heap 1).count + inc, lastnode⟩ }

/-- Every round takes one element out of the heap. -/
def joinAll : ℕ → Globals → Globals
  | 0, g => g
  | rounds + 1, g => if 1 < g.n then joinAll rounds (join g) else g

def buildTree (g : Globals) : Globals :=
  let g := { heapifyFrom (g.n / 2) g with lastnode := END }
  let g := joinAll g.n g
  { g with parent := update g.parent g.lastnode 0 }

end Unitas.Pack
