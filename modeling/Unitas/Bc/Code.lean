import Unitas.Bc.Machine

/-! The language of `bc`, what its statements do, and the text that the actions of the grammar
write for them. -/
namespace Unitas.Bc

open Dc.Compare (Rel)

variable {Num : Type} (A : Arith Num)

/-- The letters of `bc`, by their number. -/
abbrev Letter := Fin 26

def letr (x : Letter) : UInt8 := UInt8.ofNat (97 + x)

/-- `atab`: the register of an array. -/
def geta (x : Letter) : UInt8 := UInt8.ofNat (161 + x)

structure Const where
  neg : Bool
  int : List { c : UInt8 // digit c }
  frac : Option (List { c : UInt8 // digit c })
  nonempty : neg = true ∨ int ≠ [] ∨ frac ≠ none

inductive Incr
  | incr
  | decr

def Incr.op : Incr → BinOp
  | .incr => .add
  | .decr => .sub

mutual

/-- `e` of the grammar. -/
inductive Expr
  | const (c : Const)
  | last
  | get (v : Place)
  | neg (e : Expr)
  | bin (op : BinOp) (a b : Expr)
  | fn (f : Fn) (e : Expr)
  | post (s : Incr) (v : Place)
  | pre (s : Incr) (v : Place)
  | assign (v : Place) (e : Expr)
  | modify (v : Place) (op : BinOp) (e : Expr)

/-- What stands on the left of an assignment. -/
inductive Place
  | var (x : Letter)
  | elem (x : Letter) (i : Expr)
  | setting (r : Setting)

end

/-- The characters of a number without its sign. -/
def Const.chars (c : Const) : List UInt8 :=
  c.int.map Subtype.val ++
    match c.frac with
    | some ds => 46 :: ds.map Subtype.val
    | none => []

def Const.text (c : Const) : List UInt8 := 32 :: ((if c.neg then [95] else []) ++ c.chars)

mutual

/-- The text that the actions for `e` write: ` 0`, `d1+`, `1+d` and so on. -/
def Expr.text : Expr → List UInt8
  | .const c => c.text
  | .last => [108, 46]
  | .get v => v.read
  | .neg e => 32 :: 48 :: (e.text ++ [BinOp.sub.char])
  | .bin op a b => a.text ++ (b.text ++ [op.char])
  | .fn f e => e.text ++ [f.char]
  | .post s v => v.read ++ 100 :: 49 :: s.op.char :: v.write
  | .pre s v => v.read ++ 49 :: s.op.char :: 100 :: v.write
  | .assign v e => e.text ++ 100 :: v.write
  | .modify v op e => v.read ++ (e.text ++ op.char :: 100 :: v.write)

def Place.read : Place → List UInt8
  | .var x => [108, letr x]
  | .elem x i => i.text ++ [59, geta x]
  | .setting r => [r.getChar]

def Place.write : Place → List UInt8
  | .var x => [115, letr x]
  | .elem x i => i.text ++ [58, geta x]
  | .setting r => [r.setChar]

end

attribute [simp] Expr.text Place.read Place.write

mutual

/-- The places that an expression takes on the stack while it is computed. -/
def Expr.depth : Expr → ℕ
  | .const _ => 1
  | .last => 1
  | .get v => v.readDepth
  | .neg e => e.depth + 1
  | .bin _ a b => max a.depth (b.depth + 1)
  | .fn _ e => e.depth
  | .post _ v => max v.readDepth (max 3 (v.writeDepth + 1))
  | .pre _ v => max v.readDepth (max 2 (v.writeDepth + 1))
  | .assign v e => max e.depth (max 2 (v.writeDepth + 1))
  | .modify v _ e => max v.readDepth (max (e.depth + 1) (max 2 (v.writeDepth + 1)))

def Place.readDepth : Place → ℕ
  | .var _ => 1
  | .elem _ i => i.depth
  | .setting _ => 1

def Place.writeDepth : Place → ℕ
  | .var _ => 1
  | .elem _ i => i.depth + 1
  | .setting _ => 1

end

attribute [simp] Expr.depth Place.readDepth Place.writeDepth

/-- What a program of `bc` computes with. -/
structure Store (Num : Type) where
  vars : Letter → Num
  elems : Letter → ℕ → Num
  last : Num
  regs : Setting → Num
  out : List UInt8

def Const.value (c : Const) (σ : Store Num) : Num :=
  if c.neg then A.chsign (A.num σ.regs c.chars) else A.num σ.regs c.chars

mutual

/-- The value of an expression and what evaluating it leaves. The index of an element is evaluated
at each use of the place. -/
def Expr.eval : Expr → Store Num → Option (Num × Store Num)
  | .const c, σ => some (c.value A σ, σ)
  | .last, σ => some (σ.last, σ)
  | .get v, σ => v.fetch σ
  | .neg e, σ => do
    let p ← e.eval σ
    let r ← A.bin .sub p.2.regs (A.num σ.regs [48]) p.1
    some (r, p.2)
  | .bin op a b, σ => do
    let p ← a.eval σ
    let q ← b.eval p.2
    let r ← A.bin op q.2.regs p.1 q.1
    some (r, q.2)
  | .fn f e, σ => do
    let p ← e.eval σ
    let r ← A.fn f p.2.regs p.1
    some (r, p.2)
  | .post s v, σ => do
    let p ← v.fetch σ
    let r ← A.bin s.op p.2.regs p.1 (A.num p.2.regs [49])
    let τ ← v.put r p.2
    some (p.1, τ)
  | .pre s v, σ => do
    let p ← v.fetch σ
    let r ← A.bin s.op p.2.regs p.1 (A.num p.2.regs [49])
    let τ ← v.put r p.2
    some (r, τ)
  | .assign v e, σ => do
    let p ← e.eval σ
    let τ ← v.put p.1 p.2
    some (p.1, τ)
  | .modify v op e, σ => do
    let p ← v.fetch σ
    let q ← e.eval p.2
    let r ← A.bin op q.2.regs p.1 q.1
    let τ ← v.put r q.2
    some (r, τ)

def Place.fetch : Place → Store Num → Option (Num × Store Num)
  | .var x, σ => some (σ.vars x, σ)
  | .elem x i, σ => do
    let p ← i.eval σ
    let n ← A.index p.1
    some (p.2.elems x n, p.2)
  | .setting r, σ => some (σ.regs r, σ)

def Place.put : Place → Num → Store Num → Option (Store Num)
  | .var x, v, σ => some { σ with vars := Function.update σ.vars x v }
  | .elem x i, v, σ => do
    let p ← i.eval σ
    let n ← A.index p.1
    some { p.2 with elems := Function.update p.2.elems x (Function.update (p.2.elems x) n v) }
  | .setting r, v, σ => do
    let w ← A.set r v
    some { σ with regs := Function.update σ.regs r w }

end

attribute [simp] Expr.eval Place.fetch Place.put

/-! ### Statements -/

inductive RelOp
  | eq
  | lt
  | gt
  | ne
  | ge
  | le

/-- What the actions for `re` write. -/
def RelOp.rel : RelOp → Rel
  | .eq => .eq
  | .lt => .gt
  | .gt => .lt
  | .ne => .ne
  | .ge => .ng
  | .le => .nl

/-- Whether a relation holds, by the order of its left side to its right. -/
def RelOp.holds (r : RelOp) (o : Ordering) : Bool :=
  match r with
  | .eq => o.isEq
  | .lt => o.isLT
  | .gt => o.isGT
  | .ne => o.isNe
  | .ge => o.isGE
  | .le => o.isLE

/-- `re` of the grammar. -/
structure Cond where
  rel : RelOp
  left : Expr
  right : Expr

/-- An expression alone, for which ` 0!=` is written. -/
def Cond.nonzero (e : Expr) : Cond :=
  ⟨.ne, e, .const ⟨false, [⟨48, rfl⟩], none, .inr (.inl (List.cons_ne_nil _ _))⟩⟩

def Cond.text (c : Cond) : List UInt8 := c.left.text ++ (c.right.text ++ c.rel.rel.text)

def Cond.eval (A : Arith Num) (c : Cond) (σ : Store Num) : Option (Bool × Store Num) := do
  let p ← c.left.eval A σ
  let q ← c.right.eval A p.2
  some (c.rel.holds (A.order p.1 q.1), q.2)

/-- `stat` of the grammar, and with `discard` the `s.` that a loop puts behind an expression. -/
inductive Stmt
  | empty
  | print (e : Expr)
  | discard (e : Expr)
  | store (v : Place) (e : Expr)
  | update (v : Place) (op : BinOp) (e : Expr)
  | seq (s t : Stmt)
  | ifs (c : Cond) (s : Stmt)
  | whiles (c : Cond) (s : Stmt)

def Cond.depth (c : Cond) : ℕ := max c.left.depth (c.right.depth + 1)

/-- The places that a statement takes on the stack. -/
@[simp]
def Stmt.depth : Stmt → ℕ
  | .empty => 0
  | .print e => e.depth
  | .discard e => e.depth
  | .store v e => max e.depth v.writeDepth
  | .update v _ e => max v.readDepth (max (e.depth + 1) v.writeDepth)
  | .seq s t => max s.depth t.depth
  | .ifs c s => max c.depth s.depth
  | .whiles c s => max c.depth s.depth

/-- `for (i; c; e) s` -/
def Stmt.fors (i : Expr) (c : Cond) (e : Expr) (s : Stmt) : Stmt :=
  .seq (.discard i) (.whiles c (.seq s (.discard e)))

/-- The text of a statement, what `conout` writes before it, and `crs` afterwards. -/
structure Code where
  text : List UInt8
  macros : List (UInt8 × List UInt8)
  crs : ℕ

/-- The end of the action for `CRS`. -/
def crsNext (crs : ℕ) : Option ℕ :=
  let crs := crs + 1
  let crs := if crs = 91 then crs + 3 else crs
  let crs := if crs = 97 then 123 else crs
  if 161 ≤ crs then none else some crs

@[simp]
def Stmt.code : Stmt → ℕ → Option Code
  | .empty, crs => some ⟨[], [], crs⟩
  | .print e, crs => some ⟨e.text ++ [112, 115, 46], [], crs⟩
  | .discard e, crs => some ⟨e.text ++ [115, 46], [], crs⟩
  | .store v e, crs => some ⟨e.text ++ v.write, [], crs⟩
  | .update v op e, crs => some ⟨v.read ++ (e.text ++ op.char :: v.write), [], crs⟩
  | .seq s t, crs => do
    let a ← s.code crs
    let b ← t.code a.crs
    some ⟨a.text ++ b.text, a.macros ++ b.macros, b.crs⟩
  | .ifs c s, crs => do
    let next ← crsNext crs
    let a ← s.code next
    some ⟨c.text ++ [UInt8.ofNat crs, 32], a.macros ++ [(UInt8.ofNat crs, a.text)], a.crs⟩
  | .whiles c s, crs => do
    let next ← crsNext crs
    let a ← s.code next
    some ⟨c.text ++ [UInt8.ofNat crs, 32],
      a.macros ++ [(UInt8.ofNat crs, a.text ++ (c.text ++ [UInt8.ofNat crs]))], a.crs⟩

/-- What a statement does. A printed value is kept in `.`, as the last one of a loop's expression
is. -/
inductive Exec (A : Arith Num) : Stmt → Store Num → Store Num → Prop
  | empty {σ : Store Num} : Exec A .empty σ σ
  | print {e : Expr} {v : Num} {σ τ : Store Num} (he : e.eval A σ = some (v, τ)) :
      Exec A (.print e) σ { τ with last := v, out := τ.out ++ A.print τ.regs v }
  | discard {e : Expr} {v : Num} {σ τ : Store Num} (he : e.eval A σ = some (v, τ)) :
      Exec A (.discard e) σ { τ with last := v }
  | store {p : Place} {e : Expr} {v : Num} {σ τ υ : Store Num}
      (he : e.eval A σ = some (v, τ)) (hp : p.put A v τ = some υ) : Exec A (.store p e) σ υ
  | update {p : Place} {op : BinOp} {e : Expr} {v w r : Num} {σ τ υ χ : Store Num}
      (hf : p.fetch A σ = some (v, τ)) (he : e.eval A τ = some (w, υ))
      (hr : A.bin op υ.regs v w = some r) (hp : p.put A r υ = some χ) :
      Exec A (.update p op e) σ χ
  | seq {s t : Stmt} {σ τ υ : Store Num} (hs : Exec A s σ τ) (ht : Exec A t τ υ) :
      Exec A (.seq s t) σ υ
  | ifTrue {c : Cond} {s : Stmt} {σ τ υ : Store Num} (hc : c.eval A σ = some (true, τ))
      (hs : Exec A s τ υ) : Exec A (.ifs c s) σ υ
  | ifFalse {c : Cond} {s : Stmt} {σ τ : Store Num} (hc : c.eval A σ = some (false, τ)) :
      Exec A (.ifs c s) σ τ
  | whileTrue {c : Cond} {s : Stmt} {σ τ υ χ : Store Num} (hc : c.eval A σ = some (true, τ))
      (hs : Exec A s τ υ) (hw : Exec A (.whiles c s) υ χ) : Exec A (.whiles c s) σ χ
  | whileFalse {c : Cond} {s : Stmt} {σ τ : Store Num} (hc : c.eval A σ = some (false, τ)) :
      Exec A (.whiles c s) σ τ

/-! ### Programs -/

/-- `[%s]s%s` and a newline. -/
def conout (m : UInt8 × List UInt8) : List UInt8 := 91 :: (m.2 ++ [93, 115, m.1, 10])

/-- All that a statement has written after `output`. -/
def Stmt.output (crs : ℕ) (s : Stmt) : Option (List UInt8) :=
  (s.code crs).map fun k => k.macros.flatMap conout ++ (k.text ++ [10])

/-- What `bc` writes for a program; `output` sets `crs` back after each statement. `none` is the
error that the program is too big. -/
@[simp]
def compile (crs : ℕ) : List Stmt → Option (List UInt8)
  | [] => some []
  | s :: p => do
    let t ← s.output crs
    let u ← compile crs p
    some (t ++ u)

/-- The statements of a program, one after the other. -/
inductive Execs (A : Arith Num) : List Stmt → Store Num → Store Num → Prop
  | nil {σ : Store Num} : Execs A [] σ σ
  | cons {s : Stmt} {p : List Stmt} {σ τ υ : Store Num} (hs : Exec A s σ τ)
      (hp : Execs A p τ υ) : Execs A (s :: p) σ υ

end Unitas.Bc
