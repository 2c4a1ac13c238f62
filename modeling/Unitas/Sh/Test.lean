import Mathlib.Data.List.Basic
import Unitas.Lib.CInt
import Unitas.Lib.Decimal
import Unitas.Lib.Stopping
import Unitas.Lib.Literals
import Unitas.Sh.Macro

/-! The `test` of the shell: a parser that evaluates as it goes, with one cursor in the argument
list. What it asks of files and terminals is a parameter. -/
namespace Unitas.Sh.Test
open CInt Decimal
open Macro (space)

abbrev Str := List UInt8

/-! ### Words -/

/-- `-a`. -/
def wAnd : Str := [45, 97]
/-- `-o`. -/
def wOr : Str := [45, 111]
/-- `!`. -/
def wNot : Str := [33]
/-- `(`. -/
def wOpen : Str := [40]
/-- `)`. -/
def wClose : Str := [41]
/-- `=`. -/
def wEq : Str := [61]
/-- `!=`. -/
def wNe : Str := [33, 61]
/-- `-t`. -/
def wTty : Str := [45, 116]
/-- `-n`. -/
def wLen : Str := [45, 110]
/-- `-z`. -/
def wZero : Str := [45, 122]
/-- `[`. -/
def wBracket : Str := [91]
/-- `]`. -/
def wBracketEnd : Str := [93]

/-- The questions about files; `h` is for `-h` and `-L`. -/
inductive Filop
  | r | w | x | d | c | b | f | u | g | k | p | h | s

def filop : Str → Option Filop
  | [45, c] =>
    if c = 114 then some .r else if c = 119 then some .w else if c = 120 then some .x
    else if c = 100 then some .d else if c = 99 then some .c else if c = 98 then some .b
    else if c = 102 then some .f else if c = 117 then some .u else if c = 103 then some .g
    else if c = 107 then some .k else if c = 112 then some .p
    else if c = 104 ∨ c = 76 then some .h else if c = 115 then some .s else none
  | _ => none

inductive Intop
  | eq | ne | gt | lt | ge | le

def intop : Str → Option Intop
  | [45, c, d] =>
    if c = 101 ∧ d = 113 then some .eq else if c = 110 ∧ d = 101 then some .ne
    else if c = 103 ∧ d = 116 then some .gt else if c = 108 ∧ d = 116 then some .lt
    else if c = 103 ∧ d = 101 then some .ge else if c = 108 ∧ d = 101 then some .le else none
  | _ => none

def Intop.eval : Intop → ℤ → ℤ → Bool
  | .eq, x, y => x = y
  | .ne, x, y => x ≠ y
  | .gt, x, y => x > y
  | .lt, x, y => x < y
  | .ge, x, y => x ≥ y
  | .le, x, y => x ≤ y

/-! ### Integers -/

def stoifll (icp : Str) : ℤ :=
  let cp := icp.dropWhile space
  let (sign, cp) := match cp with
    | 45 :: cp => (-1, cp)
    | 43 :: cp => (1, cp)
    | cp => (1, cp)
  let r := (cp.takeWhile isDigit).foldl (fun r c => wrap 64 (r * 10 + c.toNat - 48)) 0
  wrap 64 (r * sign)

/-! ### The parser -/

inductive Stop
  /-- `] missing` -/
  | bracket
  /-- `argument expected` -/
  | argument
  /-- `) expected` -/
  | paren
  | badop (p2 : Str)
  | unfinished

structure Env where
  file : Filop → Str → Bool
  /-- Of the descriptor that a word is for, or of the standard output. -/
  isatty : Option Str → Bool

variable (env : Env) (av : List Str)

/-- `nxtarg(0)`. -/
def nxtarg0 (ap : ℕ) : Except Stop (Str × ℕ) :=
  match av[ap]? with
  | some a => .ok (a, ap + 1)
  | none => .error .argument

/-- `nxtarg(1)`, which moves beyond the end, too. -/
def nxtarg1 (ap : ℕ) : Option Str × ℕ := (av[ap]?, ap + 1)

def tty (ap : ℕ) : Bool × ℕ :=
  match av[ap]? with
  | none => (env.isatty none, ap)
  | some a =>
    if a = wAnd ∨ a = wOr then (env.isatty none, ap) else (env.isatty (some a), ap + 1)

/-- The primaries that begin with an operator. -/
def unary (a : Str) (ap : ℕ) : Option (Except Stop (Bool × ℕ)) :=
  match filop a with
  | some op => some do
    let (f, ap) ← nxtarg0 av ap
    .ok (env.file op f, ap)
  | none =>
    if a = wTty then some (.ok (tty env av ap))
    else if a = wLen then some do
      let (w, ap) ← nxtarg0 av ap
      .ok (decide (w ≠ []), ap)
    else if a = wZero then some do
      let (w, ap) ← nxtarg0 av ap
      .ok (decide (w = []), ap)
    else none

/-- The value of `a p2 b`. -/
def binary (a p2 b : Str) : Except Stop Bool :=
  if p2 = wEq then .ok (decide (b = a))
  else if p2 = wNe then .ok (decide (b ≠ a))
  else
    match intop p2 with
    | some op => .ok (op.eval (stoifll a) (stoifll b))
    | none => .error (.badop p2)

/-- `e3`, after a word that is not a parenthesis. -/
def primary (a : Str) (ap : ℕ) : Except Stop (Bool × ℕ) :=
  let p2 := (nxtarg1 av ap).1
  match if p2 = some wEq ∨ p2 = some wNe then none else unary env av a ap with
  | some r => r
  | none =>
    let (p2, ap) := nxtarg1 av ap
    match p2 with
    | none => .ok (decide (a ≠ []), ap)
    | some p2 =>
      if p2 = wAnd ∨ p2 = wOr then .ok (decide (a ≠ []), ap - 1)
      else do
        let (b, ap) ← nxtarg0 av ap
        let p1 ← binary a p2 b
        .ok (p1, ap)

mutual

def sexp : ℕ → ℕ → Except Stop (Bool × ℕ)
  | 0, _ => .error .unfinished
  | fuel + 1, ap => do
    let (p1, ap) ← e1 fuel ap
    let (p2, ap) := nxtarg1 av ap
    if p2 = some wOr then do
      let (p, ap) ← sexp fuel ap
      .ok (p1 || p, ap)
    else .ok (p1, ap - 1)
termination_by structural fuel => fuel

def e1 : ℕ → ℕ → Except Stop (Bool × ℕ)
  | 0, _ => .error .unfinished
  | fuel + 1, ap => do
    let (p1, ap) ← e2 fuel ap
    let (p2, ap) := nxtarg1 av ap
    if p2 = some wAnd then do
      let (p, ap) ← e1 fuel ap
      .ok (p1 && p, ap)
    else .ok (p1, ap - 1)
termination_by structural fuel => fuel

def e2 : ℕ → ℕ → Except Stop (Bool × ℕ)
  | 0, _ => .error .unfinished
  | fuel + 1, ap => do
    let (a, ap) ← nxtarg0 av ap
    if a = wNot then do
      let (p, ap) ← e3 fuel ap
      .ok (!p, ap)
    else e3 fuel (ap - 1)
termination_by structural fuel => fuel

def e3 : ℕ → ℕ → Except Stop (Bool × ℕ)
  | 0, _ => .error .unfinished
  | fuel + 1, ap => do
    let (a, ap) ← nxtarg0 av ap
    if a = wOpen then do
      let (p1, ap) ← sexp fuel ap
      let (p2, ap) ← nxtarg0 av ap
      if p2 = wClose then .ok (p1, ap) else .error .paren
    else primary env av a ap
termination_by structural fuel => fuel

end

/-- The arguments, without the brackets. -/
def args (com : List Str) : Except Stop (List Str) :=
  if com.head? = some wBracket then
    if com.getLast? = some wBracketEnd then .ok com.dropLast else .error .bracket
  else .ok com

/-- The exit status, and where the cursor is left. -/
def test (com : List Str) : Except Stop (ℕ × ℕ) := do
  let av ← args com
  if av.length ≤ 1 then .ok (1, 1)
  else do
    let (p, ap) ← sexp env av (4 * av.length + 4) 1
    .ok (if p then 0 else 1, ap)

/-! ### The cursor -/

variable {env : Env} {av : List Str} {ap : ℕ} {w : Str} {ws : List Str}

theorem nxtarg0_cons (h : av.drop ap = w :: ws) : nxtarg0 av ap = .ok (w, ap + 1) := by
  have hget : av[ap]? = some w := by rw [← List.head?_drop, h]; rfl
  rw [nxtarg0, hget]

theorem nxtarg1_eq (h : av.drop ap = ws) : nxtarg1 av ap = (ws.head?, ap + 1) := by
  rw [nxtarg1, ← List.head?_drop, h]

theorem drop_succ (h : av.drop ap = w :: ws) : av.drop (ap + 1) = ws := by
  rw [← List.drop_drop, h]
  rfl

/-! ### Where it stops -/

/-- A run of the parser from the cursor `ap` on. It does not run out of fuel, and goes forward. -/
def Moves (ap : ℕ) (x : Except Stop (Bool × ℕ)) : Prop :=
  x ≠ .error .unfinished ∧ ∀ p ap', x = .ok (p, ap') → ap < ap'

theorem Moves.error {x : Stop} (hx : x ≠ .unfinished) : Moves ap (.error x) :=
  ⟨fun h => hx (Except.error.inj h), nofun⟩

theorem Moves.ok {p : Bool} {ap' : ℕ} (h : ap < ap') : Moves ap (.ok (p, ap')) := by
  refine ⟨nofun, fun q ap'' heq => ?_⟩
  cases heq
  exact h

/-- The next argument is there, or the run stops. -/
theorem Moves.next {ap₀ : ℕ} {f : Str × ℕ → Except Stop (Bool × ℕ)}
    (h : ∀ a, ap < av.length → Moves ap₀ (f (a, ap + 1))) : Moves ap₀ (nxtarg0 av ap >>= f) := by
  rw [nxtarg0]
  split
  · next a ha => exact h a (List.getElem?_eq_some_iff.mp ha).1
  · exact .error nofun

theorem Moves.bind {ap₁ : ℕ} {x : Except Stop (Bool × ℕ)}
    {f : Bool × ℕ → Except Stop (Bool × ℕ)} (hx : Moves ap₁ x)
    (hf : ∀ p ap', ap₁ < ap' → Moves ap (f (p, ap'))) : Moves ap (x >>= f) := by
  rcases x with e | ⟨p, ap'⟩
  · exact .error fun h => hx.1 (congrArg _ h)
  · exact hf p ap' (hx.2 p ap' rfl)

theorem moves_unary (a : Str) (ap : ℕ) {x : Except Stop (Bool × ℕ)}
    (h : unary env av a (ap + 1) = some x) : Moves ap x := by
  have hnext (f : Str → Bool) :
      Moves ap (nxtarg0 av (ap + 1) >>= fun r => .ok (f r.1, r.2)) :=
    .next fun a _ => .ok (by omega)
  unfold unary at h
  split at h
  · next op _ =>
    obtain rfl := Option.some.inj h
    exact hnext (env.file op)
  · split_ifs at h
    · obtain rfl := Option.some.inj h
      unfold tty
      split
      · exact .ok (by omega)
      · split_ifs
        · exact .ok (by omega)
        · exact .ok (by omega)
    · obtain rfl := Option.some.inj h
      exact hnext fun w => decide (w ≠ [])
    · obtain rfl := Option.some.inj h
      exact hnext fun w => decide (w = [])

theorem moves_primary (a : Str) (ap : ℕ) : Moves ap (primary env av a (ap + 1)) := by
  unfold primary
  dsimp only
  split
  · next r h =>
    split_ifs at h
    exact moves_unary a ap h
  · dsimp only [nxtarg1]
    split
    · exact .ok (by omega)
    · next p2 _ =>
      split_ifs
      · exact .ok (by omega)
      · refine .next fun b _ => ?_
        dsimp only
        cases hb : binary a p2 b with
        | error e =>
          refine .error ?_
          rintro rfl
          unfold binary at hb
          split_ifs at hb
          split at hb <;> cases hb
        | ok p => exact .ok (by omega)

/-- The fuel that is needed, over the argument list that is left. -/
theorem moves (fuel : ℕ) :
    (∀ ap, 4 * (av.length - ap) + 4 ≤ fuel → Moves ap (sexp env av fuel ap)) ∧
      (∀ ap, 4 * (av.length - ap) + 3 ≤ fuel → Moves ap (e1 env av fuel ap)) ∧
      (∀ ap, 4 * (av.length - ap) + 2 ≤ fuel → Moves ap (e2 env av fuel ap)) ∧
      ∀ ap, 4 * (av.length - ap) + 1 ≤ fuel → Moves ap (e3 env av fuel ap) := by
  induction fuel with
  | zero => exact ⟨nofun, nofun, nofun, nofun⟩
  | succ fuel ih =>
    obtain ⟨hsexp, he1, he2, he3⟩ := ih
    refine ⟨fun ap hap => ?_, fun ap hap => ?_, fun ap hap => ?_, fun ap hap => ?_⟩
    · rw [sexp]
      refine (he1 ap (by omega)).bind fun p1 ap' hlt => ?_
      dsimp only [nxtarg1]
      split_ifs with hor
      · have hlen := (List.getElem?_eq_some_iff.mp hor).1
        exact (hsexp (ap' + 1) (by omega)).bind fun p ap'' h => .ok (by omega)
      · exact .ok (by omega)
    · rw [e1]
      refine (he2 ap (by omega)).bind fun p1 ap' hlt => ?_
      dsimp only [nxtarg1]
      split_ifs with hand
      · have hlen := (List.getElem?_eq_some_iff.mp hand).1
        exact (he1 (ap' + 1) (by omega)).bind fun p ap'' h => .ok (by omega)
      · exact .ok (by omega)
    · rw [e2]
      refine .next fun a hlen => ?_
      dsimp only
      split_ifs
      · exact (he3 (ap + 1) (by omega)).bind fun p ap'' h => .ok (by omega)
      · exact he3 ap (by omega)
    · rw [e3]
      refine .next fun a hlen => ?_
      dsimp only
      split_ifs
      · refine (hsexp (ap + 1) (by omega)).bind fun p1 ap' hlt => ?_
        refine .next fun p2 _ => ?_
        dsimp only
        split_ifs
        · exact .ok (by omega)
        · exact .error nofun
      · exact moves_primary a ap

theorem e1_stop (fuel : ℕ) {ap ap' : ℕ} {p : Bool} (h : e1 env av fuel ap = .ok (p, ap')) :
    av[ap']? ≠ some wAnd := by
  induction fuel generalizing ap ap' p with
  | zero =>
    rw [e1] at h
    cases h
  | succ fuel ih =>
    rw [e1] at h
    obtain ⟨⟨p1, ap₁⟩, h₁, h⟩ := Stopping.exists_of_bind_ok h
    dsimp only [nxtarg1] at h
    split_ifs at h with hand
    · obtain ⟨⟨p2, ap₂⟩, h₂, h⟩ := Stopping.exists_of_bind_ok h
      cases h
      exact ih h₂
    · cases h
      exact hand

/-- The argument that it stops at is not `-a` or `-o`. -/
theorem sexp_stop (fuel : ℕ) {ap ap' : ℕ} {p : Bool} (h : sexp env av fuel ap = .ok (p, ap')) :
    av[ap']? ≠ some wAnd ∧ av[ap']? ≠ some wOr := by
  induction fuel generalizing ap ap' p with
  | zero =>
    rw [sexp] at h
    cases h
  | succ fuel ih =>
    rw [sexp] at h
    obtain ⟨⟨p1, ap₁⟩, h₁, h⟩ := Stopping.exists_of_bind_ok h
    dsimp only [nxtarg1] at h
    split_ifs at h with hor
    · obtain ⟨⟨p2, ap₂⟩, h₂, h⟩ := Stopping.exists_of_bind_ok h
      cases h
      exact ih h₂
    · cases h
      exact ⟨e1_stop fuel h₁, hor⟩

end Unitas.Sh.Test
