import Mathlib
import Unitas.Dc.Compare

/-! The part of `dc` that the text of `bc` comes to: a machine that reads one character after the
other, over any arithmetic. -/
namespace Unitas.Bc

open Dc.Compare (Rel)

/-- The three registers that `dc` computes with. -/
inductive Setting
  | scale
  | base
  | obase
  deriving DecidableEq

inductive BinOp
  | add
  | sub
  | mul
  | div
  | rem
  | exp

inductive Fn
  | length
  | scale
  | sqrt

/-- The arithmetic of `dc`, a parameter here. `num` is what `readin` makes of the characters of a
number, `index` the check of an index, `set` that of `k`, `i` and `o`, `order` compares, and
`print` is what `p` writes; `none` stands for `error`. -/
structure Arith (Num : Type) where
  zero : Num
  num : (Setting → Num) → List UInt8 → Num
  chsign : Num → Num
  bin : BinOp → (Setting → Num) → Num → Num → Option Num
  fn : Fn → (Setting → Num) → Num → Option Num
  index : Num → Option ℕ
  set : Setting → Num → Option Num
  order : Num → Num → Ordering
  print : (Setting → Num) → Num → List UInt8

inductive Val (Num : Type)
  | num (v : Num)
  | text (t : List UInt8)

/-- `input` is what is left of the strings on `readstk` and then of the file, `table` the values
on top of `stable`. -/
structure Machine (Num : Type) where
  input : List UInt8
  stack : List (Val Num)
  table : UInt8 → Val Num
  arrays : UInt8 → ℕ → Val Num
  regs : Setting → Num
  out : List UInt8

inductive Cmd
  | blank
  | minus
  | bin (op : BinOp)
  | fn (f : Fn)
  | dup
  | save
  | load
  | index
  | store
  | set (r : Setting)
  | get (r : Setting)
  | text
  | print
  | test (r : Rel)
  | bang

def BinOp.char : BinOp → UInt8
  | .add => 43
  | .sub => 45
  | .mul => 42
  | .div => 47
  | .rem => 37
  | .exp => 94

def Fn.char : Fn → UInt8
  | .length => 90
  | .scale => 88
  | .sqrt => 118

/-- `k`, `i` and `o`. -/
def Setting.setChar : Setting → UInt8
  | .scale => 107
  | .base => 105
  | .obase => 111

def Setting.getChar : Setting → UInt8
  | .scale => 75
  | .base => 73
  | .obase => 79

/-- The cases of `commnds` that the text of `bc` comes to here. -/
def commands : List (UInt8 × Cmd) :=
  [(32, .blank), (10, .blank), (95, .minus), (43, .bin .add), (45, .bin .sub), (42, .bin .mul),
    (47, .bin .div), (37, .bin .rem), (94, .bin .exp), (90, .fn .length), (88, .fn .scale),
    (118, .fn .sqrt), (100, .dup), (115, .save), (108, .load), (59, .index), (58, .store),
    (107, .set .scale), (105, .set .base), (111, .set .obase), (75, .get .scale),
    (73, .get .base), (79, .get .obase), (91, .text), (112, .print), (60, .test .lt),
    (62, .test .gt), (61, .test .eq), (33, .bang)]

def digit (c : UInt8) : Bool := decide (48 ≤ c ∧ c ≤ 57) || decide (65 ≤ c ∧ c ≤ 70)

/-- The characters that `readin` takes for a number, `dp` after a point and `skip` after a
backslash; at the end of the input `readc` does not return. -/
@[simp]
def readin (dp skip : Bool) : List UInt8 → Option (List UInt8 × List UInt8)
  | [] => none
  | c :: s =>
    if skip then readin dp false s
    else if c = 46 then
      if dp then some ([], c :: s) else (readin true false s).map fun r => (c :: r.1, r.2)
    else if c = 92 then readin dp true s
    else if digit c then (readin dp false s).map fun r => (c :: r.1, r.2)
    else some ([], c :: s)

/-- The loop of `[`, inside `n` further brackets. -/
@[simp]
def readText (n : ℕ) : List UInt8 → Option (List UInt8 × List UInt8)
  | [] => none
  | c :: s =>
    if c = 93 then
      if n = 0 then some ([], s) else (readText (n - 1) s).map fun r => (c :: r.1, r.2)
    else
      (readText (if c = 91 then n + 1 else n) s).map fun r => (c :: r.1, r.2)

/-- Whether `cond` runs the register, by the order of the number below the top to the top. -/
def runs (r : Rel) (o : Ordering) : Bool :=
  match r with
  | .lt => o == .gt
  | .gt => o == .lt
  | .eq => o == .eq
  | .nl => o != .gt
  | .ng => o != .lt
  | .ne => o != .eq

def STKSZ : ℕ := 100

variable {Num : Type} (A : Arith Num)

/-- `pushp`, where no room is an error. The first value is stored in `stack[1]`. -/
def Machine.pushp (m : Machine Num) (v : Val Num) : Option (Machine Num) :=
  if m.stack.length + 1 < STKSZ then some { m with stack := v :: m.stack } else none

/-- `cond`, and the label `execute` where it returns one: the text of the register is read before
the rest of the input. -/
def cond (r : Rel) (m : Machine Num) : Option (Machine Num) :=
  match m.stack, m.input with
  | .num b :: .num a :: stack, c :: input =>
    if runs r (A.order a b) then
      match m.table c with
      | .text t => some { m with stack := stack, input := t ++ input }
      | .num _ => none
    else some { m with stack := stack, input := input }
  | _, _ => none

@[simp]
def Cmd.execute (m : Machine Num) : Cmd → Option (Machine Num)
  | .blank => some m
  | .minus => (readin false false m.input).bind fun r =>
      { m with input := r.2 }.pushp (.num (A.chsign (A.num m.regs r.1)))
  | .bin op =>
    match m.stack with
    | .num b :: .num a :: stack =>
      (A.bin op m.regs a b).map fun v => { m with stack := .num v :: stack }
    | _ => none
  | .fn f =>
    match m.stack with
    | .num a :: stack => (A.fn f m.regs a).map fun v => { m with stack := .num v :: stack }
    | _ => none
  | .dup =>
    match m.stack with
    | v :: _ => m.pushp v
    | [] => none
  | .save =>
    match m.stack, m.input with
    | v :: stack, c :: input =>
      some { m with stack := stack, input := input, table := Function.update m.table c v }
    | _, _ => none
  | .load =>
    match m.input with
    | c :: input => { m with input := input }.pushp (m.table c)
    | [] => none
  | .index =>
    match m.stack, m.input with
    | .num k :: stack, c :: input =>
      (A.index k).map fun n => { m with stack := m.arrays c n :: stack, input := input }
    | _, _ => none
  | .store =>
    match m.stack, m.input with
    | .num k :: v :: stack, c :: input => (A.index k).map fun n =>
        { m with
          stack := stack
          input := input
          arrays := Function.update m.arrays c (Function.update (m.arrays c) n v) }
    | _, _ => none
  | .set r =>
    match m.stack with
    | .num v :: stack => (A.set r v).map fun w =>
        { m with stack := stack, regs := Function.update m.regs r w }
    | _ => none
  | .get r => m.pushp (.num (m.regs r))
  | .text => (readText 0 m.input).bind fun r => { m with input := r.2 }.pushp (.text r.1)
  | .print =>
    match m.stack with
    | .num v :: _ => some { m with out := m.out ++ A.print m.regs v }
    | _ => none
  | .test r => cond A r m
  | .bang =>
    match m.input with
    | 60 :: input => cond A .nl { m with input := input }
    | 62 :: input => cond A .ng { m with input := input }
    | 61 :: input => cond A .ne { m with input := input }
    | _ => none

/-- One turn of the loop of `commnds`. -/
def step (m : Machine Num) : Option (Machine Num) :=
  match m.input with
  | [] => none
  | c :: input =>
    if digit c || c == 46 then (readin false false (c :: input)).bind fun r =>
      { m with input := r.2 }.pushp (.num (A.num m.regs r.1))
    else (commands.lookup c).bind fun cmd => cmd.execute A { m with input := input }

def Reaches : Machine Num → Machine Num → Prop :=
  Relation.ReflTransGen fun m m' => step A m = some m'

/-! ### Numbers -/

/-- The next character ends a number. -/
def stops : List UInt8 → Bool
  | [] => false
  | c :: _ => !digit c && c != 46 && c != 92

theorem readin_stop {dp : Bool} {rest : List UInt8} (h : stops rest) :
    readin dp false rest = some ([], rest) := by
  cases rest with
  | nil => exact absurd h (by decide)
  | cons c s =>
    simp only [stops, Bool.and_eq_true, Bool.not_eq_true', bne_iff_ne] at h
    simp [readin, h.1.1, h.1.2, h.2]

theorem digit_ne {c : UInt8} (h : digit c = true) : c ≠ 46 ∧ c ≠ 92 := by
  constructor <;> rintro rfl <;> exact absurd h (by decide)

theorem readin_digits {dp : Bool} {rest : List UInt8} (ds : List { c : UInt8 // digit c }) :
    readin dp false (ds.map Subtype.val ++ rest) =
      (readin dp false rest).map fun r => (ds.map Subtype.val ++ r.1, r.2) := by
  induction ds with
  | nil => simp
  | cons d ds ih =>
    have hne := digit_ne d.2
    simp only [List.map_cons, List.cons_append, readin, Bool.false_eq_true, if_false, hne.1, hne.2,
      d.2, if_true, ih, Option.map_map]
    rfl

end Unitas.Bc
