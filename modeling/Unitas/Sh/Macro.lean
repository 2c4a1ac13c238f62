import Mathlib.Data.List.TakeWhile
import Unitas.Lib.Decimal
import Unitas.Sh.Names

/-! Substitution in a word: `copyto`, `skipto` and `getch`, in a single-byte locale. The word is a
string, of which what is left to be read is kept; at its end null characters are read. -/
namespace Unitas.Sh.Macro
open Names Decimal

abbrev Str := List UInt8

inductive Stop
  | badsub
  /-- A parameter that is not set, or a message that a substitution asks for. -/
  | failed
  /-- A name that cannot be assigned to. -/
  | assign
  /-- What the command substitution ends the shell with. -/
  | command
  | unfinished
  deriving DecidableEq, Repr

/-! ### Classes of characters -/

def space (c : UInt8) : Bool := c = 9 || c = 32
def subchar (c : UInt8) : Bool := c = 36 || c = 34 || c = 96
def escchar (c : UInt8) : Bool := c = 36 || c = 34 || c = 96 || c = 92
def digit (c : UInt8) : Bool := 48 ≤ c && c ≤ 57
def astchar (c : UInt8) : Bool := c = 42 || c = 64
def digchar (c : UInt8) : Bool := digit c || astchar c
def defchar (c : UInt8) : Bool := c = 125 || c = 61 || c = 45 || c = 43 || c = 63
def setchar (c : UInt8) : Bool := c = 43

/-- Letters, digits, `* @ { ! # $ - ?`. -/
def dolchar (c : UInt8) : Bool :=
  letter c || digchar c || c = 123 || c = 33 || c = 35 || c = 36 || c = 45 || c = 63

/-! ### State -/

/-- The parameters and flags of the shell, and what commands write. -/
structure Env where
  cmdadr : Str
  dolv : List Str
  pidadr : Str
  pcsadr : Option Str
  flagadr : Str
  retval : ℕ
  setflg : Bool
  command : Str → Option Str

def Env.dolc (e : Env) : ℕ := e.dolv.length

/-- `input` is what is left of the word, with what `peekc` holds before it; `stak` is what is on top
of the stack. -/
structure State (Body : Type) where
  input : Str
  stak : Str
  quote : Bool
  quoted : UInt8
  names : Names.State Body

variable {Body : Type}

def State.readwc (s : State Body) : UInt8 × State Body :=
  match s.input with
  | [] => (0, s)
  | c :: input => (c, { s with input })

/-- `peekc = c | MARK`. After the end there is nothing but null characters. -/
def State.peek (c : UInt8) (s : State Body) : State Body :=
  if c = 0 then s else { s with input := c :: s.input }

def State.push (cs : Str) (s : State Body) : State Body := { s with stak := s.stak ++ cs }

/-- `readw`, without the null character at the end. -/
def readw (c : UInt8) : Str := if c = 0 then [] else [c]

/-! ### Skipping -/

/-- What `skipto` leaves of the input. -/
def skipto : ℕ → UInt8 → Str → Except Stop Str
  | 0, _, _ => .error .unfinished
  | _ + 1, _, [] => .error .badsub
  | fuel + 1, endch, c :: s =>
    if c = endch then .ok s
    else if c = 96 then do
      let s ← skipto fuel 96 s
      skipto fuel endch s
    else if c = 34 then do
      let s ← skipto fuel 34 s
      skipto fuel endch s
    else if c = 36 then
      match s with
      | [] => .error .badsub
      | d :: s =>
        if d = 123 then do
          let s ← skipto fuel 125 s
          skipto fuel endch s
        else skipto fuel endch s
    else skipto fuel endch s

/-! ### Command substitution -/

/-- The loop that reads the command: its text and what is left. -/
def commandText (quote : Bool) : Str → Str × Str
  | [] => ([], [])
  | [92] => ([92], [])
  | 92 :: d :: s =>
    let (text, s) := commandText quote s
    ((if ¬ escchar d ∨ (d = 34 ∧ ¬ quote) then [92] else []) ++ d :: text, s)
  | c :: s =>
    if c = 96 then ([], s)
    else
      let (text, s) := commandText quote s
      (c :: text, s)

/-- The loop that strips newlines, over the output from its end on. -/
def stripNl (quote : Bool) : Str → Str
  | [] => []
  | [c] => if c = 10 then [] else [c]
  | c :: d :: s => if c = 10 then if quote then stripNl quote s else stripNl quote (d :: s)
    else c :: d :: s

def comsubst (e : Env) (trimflag : Bool) (s : State Body) : Except Stop (State Body) :=
  let (text, input) := commandText s.quote s.input
  match e.command text with
  | none => .error .command
  | some out =>
    let out := out.flatMap fun d => if s.quote || d = 92 && trimflag then [92, d] else [d]
    .ok ({ s with input }.push (stripNl s.quote out.reverse).reverse)

/-! ### Parameters -/

/-- The characters of a value. -/
def pushValue (trimflag : Bool) (v : Str) (s : State Body) : State Body :=
  if v = [] ∧ s.quote then s.push [92, 0]
  else s.push (v.flatMap fun c => if s.quote || c = 92 && trimflag then [92, c] else [c])

/-- The other values of `$*` and `$@`, with spaces before them. -/
def pushRest (trimflag : Bool) (id : UInt8) : List Str → State Body → State Body
  | [], s => s
  | v :: vs, s =>
    let s := s.push (if id = 42 ∧ s.quote then [92, 32] else [32])
    pushRest trimflag id vs (pushValue trimflag v s)

/-- A parameter that has been read: its name, if it is a variable, its value, what it is called,
and the values after the first one of `$*` and `$@`. -/
structure Param where
  name : Option Ident
  v : Option Str
  id : UInt8
  rest : List Str

/-- The parameter that begins with `c`. There is none if it is neither of them. -/
def param (e : Env) (bra atflag : Bool) (c : UInt8) (s : State Body) :
    Except Stop (Option (Param × Bool × State Body)) :=
  if letter c then
    let nam := c :: s.input.takeWhile alphanum
    if h : chkid nam = true then
      let s := { s with
        input := s.input.dropWhile alphanum
        names := { s.names with namep := s.names.namep.lookup ⟨nam, h⟩ } }
      match s.names.findnam ⟨nam, h⟩ with
      | none => .error .badsub
      | some n =>
        if n.namflg.functn then .error .badsub
        else .ok (some (⟨some ⟨nam, h⟩, n.namval, c, []⟩, atflag, s))
    else .error .badsub
  else if digchar c then
    if astchar c then
      let at0 := c = 64 && !atflag && s.quote
      let s := if at0 then { s with quoted := s.quoted - 1 } else s
      .ok (some (⟨none, e.dolv.head?, c, e.dolv.drop 1⟩, atflag || at0, s))
    else if c = 48 then .ok (some (⟨none, some e.cmdadr, c, []⟩, atflag, s))
    else .ok (some (⟨none, e.dolv[(c - 49).toNat]?, c, []⟩, atflag, s))
  else if c = 36 then .ok (some (⟨none, some e.pidadr, c, []⟩, atflag, s))
  else if c = 33 then .ok (some (⟨none, e.pcsadr, c, []⟩, atflag, s))
  else if c = 35 then .ok (some (⟨none, some (decimal e.dolc), c, []⟩, atflag, s))
  else if c = 63 then .ok (some (⟨none, some (decimal e.retval), c, []⟩, atflag, s))
  else if c = 45 then .ok (some (⟨none, some e.flagadr, c, []⟩, atflag, s))
  else if bra then .error .badsub
  else .ok none

/-- The value that `${name=word}` assigns. -/
def assigned (trimflag : Bool) : Str → Str
  | [] => []
  | [c] => if c = 0 ∨ c = 92 ∧ trimflag then [] else [c]
  | c :: d :: s =>
    if c = 0 then []
    else if c = 92 ∧ trimflag then (if d = 0 then [] else [d]) ++ assigned trimflag s
    else c :: assigned trimflag (d :: s)

/-- What is substituted for a parameter: `word` copies the word after an operator, `c` is the
operator and `argp` what has been copied. -/
def substitute (e : Env) (trimflag : Bool) (p : Param) (nulflg : Bool) (c : UInt8)
    (argp : Option Str) (s : State Body) : Except Stop (State Body) :=
  match p.v with
  | some v =>
    if nulflg ∧ v = [] then unsetCase s
    else if c = 43 then .ok s
    else .ok (pushRest trimflag p.id p.rest (pushValue trimflag v s))
  | none => unsetCase s
where
  unsetCase (s : State Body) : Except Stop (State Body) :=
    match argp with
    | some word =>
      if c = 63 then .error .failed
      else if c = 61 then
        match p.name with
        | none => .error .badsub
        | some nam =>
          let (names, ok) := Names.step s.names (.assign nam (assigned trimflag word))
          if ok then .ok { s with names } else .error .assign
      else .ok s
    | none => if e.setflg then .error .failed else .ok s

/-- After a dollar sign and a character that may follow it. -/
def dollar (e : Env) (trimflag : Bool) (word : State Body → Except Stop (State Body))
    (atflag : Bool) (c : UInt8) (s : State Body) : Except Stop (Bool × State Body) := do
  let bra := c = 123
  let (c, s) := if bra then s.readwc else (c, s)
  match ← param e bra atflag c s with
  | none => .ok (atflag, s)
  | some (p, atflag, s) =>
    let (c, s) := s.readwc
    let nulflg := c = 58 && bra
    let (c, s) := if nulflg then s.readwc else (c, s)
    if ¬ defchar c ∧ bra then .error .badsub
    else if bra then
      if c ≠ 125 then do
        let argp := s.stak.length
        let unset := p.v.isNone || nulflg && p.v = some []
        let s ← if unset ^^ setchar c then word s else do
          let input ← skipto (s.input.length + 1) 125 s.input
          .ok { s with input }
        let s ← substitute e trimflag p nulflg c (some (s.stak.drop argp)) s
        .ok (atflag, s)
      else do
        let s ← substitute e trimflag p nulflg c none s
        .ok (atflag, s)
    else do
      let s ← substitute e trimflag p nulflg 0 none (s.peek c)
      .ok (atflag, s)

/-! ### Copying -/

/-- `getch`; every turn of its loop reads something. -/
def getch (e : Env) (trimflag : Bool) (word : State Body → Except Stop (State Body))
    (endch : UInt8) : ℕ → Bool → State Body → Except Stop (UInt8 × State Body)
  | 0, _, _ => .error .unfinished
  | fuel + 1, atflag, s => do
    let (d, s) := s.readwc
    if ¬ subchar d then .ok (d, s)
    else if d = 36 then
      let (c, s) := s.readwc
      if dolchar c then do
        let (atflag, s) ← dollar e trimflag word atflag c s
        getch e trimflag word endch fuel atflag s
      else .ok (d, s.peek c)
    else if d = endch then .ok (d, s)
    else if d = 96 then do
      let s ← comsubst e trimflag s
      getch e trimflag word endch fuel atflag s
    else if trimflag then
      getch e trimflag word endch fuel (if s.quote then atflag else false)
        { s with quote := !s.quote, quoted := if s.quote then s.quoted else s.quoted + 1 }
    else .ok (d, s)

/-- A character that `getch` returns goes to the stack. -/
def copyChar (c : UInt8) (s : State Body) : State Body :=
  if s.quote then
    if c = 92 then
      let (d, s) := s.readwc
      if ¬ escchar d then s.push ([92, 92, 92] ++ readw d) else s.push [92, d]
    else s.push (92 :: readw c)
  else if c = 92 then
    let (c, s) := s.readwc
    s.push [92, c]
  else s.push (readw c)

/-- `copyto`. Words within words are copied with less fuel. -/
def copyto (e : Env) : ℕ → UInt8 → Bool → State Body → Except Stop (State Body)
  | 0, _, _, _ => .error .unfinished
  | fuel + 1, endch, trimflag, s => do
    let (c, s) ← getch e trimflag (copyto e fuel 125 trimflag) endch fuel false s
    if c ≠ endch ∧ c ≠ 0 then copyto e fuel endch trimflag (copyChar c s)
    else if c ≠ endch then .error .badsub
    else .ok s

/-- `macro`: the text that it leaves on the stack. -/
def macroText (e : Env) (fuel : ℕ) (word : Str) (names : Names.State Body) :
    Except Stop (Str × Names.State Body) := do
  let s ← copyto e fuel 0 true ⟨word.takeWhile (· ≠ 0), [], false, 0, names⟩
  .ok (if s.quoted ≠ 0 ∧ s.stak = [] then [92, 0] else s.stak, s.names)

end Unitas.Sh.Macro
