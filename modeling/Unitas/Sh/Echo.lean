import Mathlib.Data.UInt
import Mathlib.Tactic.SplitIfs

/-! The two `echo`s, in a single-byte locale: the command, a state machine over characters,
and the shell's builtin, a scan that looks ahead. -/
namespace Unitas.Echo

/-- The byte an escape of one letter stands for. -/
def escape (c : UInt8) : Option UInt8 :=
  if c = 97 then some 7 else if c = 98 then some 8 else if c = 102 then some 12
  else if c = 110 then some 10 else if c = 114 then some 13 else if c = 116 then some 9
  else if c = 118 then some 11 else if c = 92 then some 92 else none

def isOctal (c : UInt8) : Prop := 48 ≤ c ∧ c < 56

instance (c : UInt8) : Decidable (isOctal c) := inferInstanceAs (Decidable (_ ∧ _))

/-- `o <<= 3; o |= c - '0'` on an `int`. -/
def shiftIn (o : UInt32) (c : UInt8) : UInt32 := o <<< 3 ||| (c - 48).toUInt32

/-! ### The command -/

/-- The values of `s`. -/
inductive Scan
  | default | backslash | modified | processed | octal
  deriving DecidableEq

structure Mach where
  s : Scan
  o : UInt32
  nflag : Bool

/-- The `switch` on the character after a backslash. -/
def Mach.escape (m : Mach) (c : UInt8) : Mach :=
  match Echo.escape c with
  | some b => { m with o := b.toUInt32, s := .modified }
  | none =>
    if c = 99 then { m with nflag := true, s := .processed }
    else if c = 48 then { m with o := 0, s := .octal }
    else m

/-- The rest of the loop's body: an octal digit or its end, and the character itself. -/
def Mach.emit (m : Mach) (c : UInt8) : Mach × List UInt8 :=
  let (m, out) :=
    if m.s = .octal then
      if isOctal c then ({ m with o := shiftIn m.o c }, [])
      else ({ m with s := .default }, [m.o.toUInt8])
    else (m, [])
  if m.s ≠ .default ∧ m.s ≠ .octal then ({ m with s := .default }, out)
  else if m.s = .default then (m, out ++ [c])
  else (m, out)

def Mach.step (m : Mach) (c : UInt8) : Mach × List UInt8 :=
  if c = 92 ∧ m.s = .default then ({ m with s := .backslash }, [])
  else
    let m := if m.s = .backslash then m.escape c else m
    if m.s = .modified then ({ m with s := .default }, [m.o.toUInt8]) else m.emit c

/-- The loop over one argument: `nflag` and what is written. -/
def Mach.scan (m : Mach) : List UInt8 → Bool × List UInt8
  | [] => (m.nflag, if m.s = .octal then [m.o.toUInt8] else [])
  | c :: cs =>
    let (m, out) := m.step c
    let (nflag, rest) := m.scan cs
    (nflag, out ++ rest)

/-- The loop over the arguments. -/
def mainFrom (started nflag : Bool) : List (List UInt8) → List UInt8
  | [] => if nflag then [] else [10]
  | a :: as =>
    let (nflag, out) := Mach.scan ⟨.default, 0, nflag⟩ a
    (if started then [32] else []) ++ out ++ mainFrom true nflag as

def main (args : List (List UInt8)) : List UInt8 := mainFrom false false args

/-! ### The shell's builtin -/

/-- The digits of an octal escape, `j` of them read; and the rest. -/
def digits (j : ℕ) (wd : UInt32) : List UInt8 → UInt32 × List UInt8
  | [] => (wd, [])
  | c :: cs => if isOctal c ∧ j < 3 then digits (j + 1) (shiftIn wd c) cs else (wd, c :: cs)

theorem length_digits (j : ℕ) (wd : UInt32) (cs : List UInt8) :
    (digits j wd cs).2.length ≤ cs.length := by
  fun_induction digits j wd cs with
  | case1 => simp
  | case2 j wd c cs h ih =>
    rw [List.length_cons]
    omega
  | case3 => simp

/-- The loop over one argument: what is written, and whether `\\c` has ended the command.
`sus` tells that the shell is built with `SUS`. -/
def echoArg (sus : Bool) : List UInt8 → List UInt8 × Bool
  | [] => ([], false)
  | c :: cs =>
    if c ≠ 92 then ((echoArg sus cs).map (c :: ·) id)
    else match cs with
      | [] => ([92], false)
      | d :: ds =>
        if d = 97 ∧ sus = false then (echoArg sus (d :: ds)).map (92 :: ·) id
        else match escape d with
          | some b => (echoArg sus ds).map (b :: ·) id
          | none =>
            if d = 99 then ([], true)
            else if d = 48 then
              (echoArg sus (digits 0 0 ds).2).map ((digits 0 0 ds).1.toUInt8 :: ·) id
            else (echoArg sus (d :: ds)).map (92 :: ·) id
termination_by cs => cs.length
decreasing_by
  · exact Nat.lt_succ_self _
  · exact Nat.lt_succ_self _
  · exact Nat.lt_succ_of_lt (Nat.lt_succ_self _)
  · exact Nat.lt_succ_of_le ((length_digits 0 0 ds).trans (Nat.le_succ _))
  · exact Nat.lt_succ_self _

def echoArgs (sus : Bool) : List (List UInt8) → List UInt8
  | [] => []
  | a :: as =>
    let (out, stop) := echoArg sus a
    if stop then out
    else out ++ (if as = [] then 10 else 32) :: echoArgs sus as

def echo (sus : Bool) (args : List (List UInt8)) : List UInt8 :=
  if args = [] then [10] else echoArgs sus args

/-! ### Where they agree -/

/-- An argument of characters, escapes that both know, and octal escapes of at most three
digits with neither a further digit nor a backslash behind them. `stop` tells that it ends
in `\\c`. -/
inductive Agreed (sus : Bool) : List UInt8 → Bool → Prop
  | nil : Agreed sus [] false
  | stop : Agreed sus [92, 99] true
  | char {c : UInt8} {cs : List UInt8} {stop : Bool} (hc : c ≠ 92) (h : Agreed sus cs stop) :
      Agreed sus (c :: cs) stop
  | escape {d b : UInt8} {cs : List UInt8} {stop : Bool} (hd : d = 97 → sus = true)
      (hb : escape d = some b) (h : Agreed sus cs stop) : Agreed sus (92 :: d :: cs) stop
  | octal {ds cs : List UInt8} {stop : Bool} (hds : ∀ c ∈ ds, isOctal c) (hlen : ds.length ≤ 3)
      (hcs : ∀ c ∈ cs.head?, ¬ isOctal c ∧ c ≠ 92) (h : Agreed sus cs stop) :
      Agreed sus (92 :: 48 :: (ds ++ cs)) stop

/-- Only the last argument may end in `\\c`. -/
def AgreedArgs (sus : Bool) : List (List UInt8) → Prop
  | [] => True
  | [a] => ∃ stop, Agreed sus a stop
  | a :: as => Agreed sus a false ∧ AgreedArgs sus as

variable {sus : Bool} {o : UInt32} {nflag : Bool} {c d b : UInt8} {cs : List UInt8}

theorem scan_char (hc : c ≠ 92) :
    Mach.scan ⟨.default, o, nflag⟩ (c :: cs) =
      ((Mach.scan ⟨.default, o, nflag⟩ cs).1, c :: (Mach.scan ⟨.default, o, nflag⟩ cs).2) := by
  simp [Mach.scan, Mach.step, Mach.emit, hc]

theorem scan_escape (hb : escape d = some b) :
    Mach.scan ⟨.default, o, nflag⟩ (92 :: d :: cs) =
      ((Mach.scan ⟨.default, b.toUInt32, nflag⟩ cs).1,
        b :: (Mach.scan ⟨.default, b.toUInt32, nflag⟩ cs).2) := by
  simp [Mach.scan, Mach.step, Mach.escape, hb]

theorem scan_stop : Mach.scan ⟨.default, o, nflag⟩ [92, 99] = (true, []) := by
  simp [Mach.scan, Mach.step, Mach.escape, Mach.emit, escape]

theorem scan_zero :
    Mach.scan ⟨.default, o, nflag⟩ (92 :: 48 :: cs) = Mach.scan ⟨.octal, 0, nflag⟩ cs := by
  simp [Mach.scan, Mach.step, Mach.escape, Mach.emit, escape, isOctal, shiftIn]

theorem scan_digits {ds : List UInt8} (hds : ∀ c ∈ ds, isOctal c) :
    Mach.scan ⟨.octal, o, nflag⟩ (ds ++ cs) =
      Mach.scan ⟨.octal, ds.foldl shiftIn o, nflag⟩ cs := by
  induction ds generalizing o with
  | nil => rfl
  | cons d ds ih =>
    have hd := hds d (by simp)
    have hstep : Mach.step ⟨.octal, o, nflag⟩ d = (⟨.octal, shiftIn o d, nflag⟩, []) := by
      simp [Mach.step, Mach.emit, hd]
    rw [List.cons_append, Mach.scan, hstep]
    exact ih fun c hc => hds c (by simp [hc])

/-- The end of an octal escape: its byte, and the character as it is. -/
theorem scan_octal (hcs : ∀ c ∈ cs.head?, ¬ isOctal c ∧ c ≠ 92) :
    Mach.scan ⟨.octal, o, nflag⟩ cs =
      ((Mach.scan ⟨.default, o, nflag⟩ cs).1,
        o.toUInt8 :: (Mach.scan ⟨.default, o, nflag⟩ cs).2) := by
  cases cs with
  | nil => rfl
  | cons c cs =>
    obtain ⟨hc, hc'⟩ := hcs c (by simp)
    have hstep : Mach.step ⟨.octal, o, nflag⟩ c = (⟨.default, o, nflag⟩, [o.toUInt8, c]) := by
      simp [Mach.step, Mach.emit, hc]
    rw [scan_char hc', Mach.scan, hstep]
    rfl

theorem digits_append {ds : List UInt8} (hds : ∀ c ∈ ds, isOctal c)
    (hcs : ∀ c ∈ cs.head?, ¬ isOctal c ∧ c ≠ 92) {j : ℕ} (hlen : j + ds.length ≤ 3)
    (wd : UInt32) : digits j wd (ds ++ cs) = (ds.foldl shiftIn wd, cs) := by
  induction ds generalizing j wd with
  | nil =>
    cases cs with
    | nil => rfl
    | cons c cs => simp [digits, (hcs c (by simp)).1]
  | cons d ds ih =>
    rw [List.length_cons] at hlen
    rw [List.cons_append, digits, if_pos ⟨hds d (by simp), by omega⟩]
    exact ih (fun c hc => hds c (by simp [hc])) (by omega) _

theorem echoArg_char (hc : c ≠ 92) :
    echoArg sus (c :: cs) = (c :: (echoArg sus cs).1, (echoArg sus cs).2) := by
  rw [echoArg.eq_def]
  simp only [if_pos hc]
  rfl

theorem echoArg_escape (hd : d = 97 → sus = true) (hb : escape d = some b) :
    echoArg sus (92 :: d :: cs) = (b :: (echoArg sus cs).1, (echoArg sus cs).2) := by
  have hsus : ¬ (d = 97 ∧ sus = false) := fun h => by simp [hd h.1] at h
  rw [echoArg.eq_def]
  simp [hsus, hb]
  rfl

theorem echoArg_stop : echoArg sus [92, 99] = ([], true) := by
  have hnone : escape 99 = none := rfl
  rw [echoArg.eq_def]
  simp [hnone]

theorem echoArg_octal :
    echoArg sus (92 :: 48 :: cs) =
      ((digits 0 0 cs).1.toUInt8 :: (echoArg sus (digits 0 0 cs).2).1,
        (echoArg sus (digits 0 0 cs).2).2) := by
  have hnone : escape 48 = none := rfl
  rw [echoArg.eq_def]
  simp [hnone]
  rfl

/-- Both write the same for such an argument, and `\\c` is the end for both. -/
theorem Agreed.scan_eq {a : List UInt8} {stop : Bool} (h : Agreed sus a stop) (o : UInt32)
    (nflag : Bool) :
    Mach.scan ⟨.default, o, nflag⟩ a = (nflag || stop, (echoArg sus a).1) ∧
      (echoArg sus a).2 = stop := by
  induction h generalizing o with
  | nil => simp [Mach.scan, echoArg]
  | stop =>
    rw [scan_stop, echoArg_stop]
    simp
  | char hc _ ih =>
    obtain ⟨hscan, hstop⟩ := ih o
    rw [scan_char hc, hscan, echoArg_char hc]
    exact ⟨rfl, hstop⟩
  | escape hd hb _ ih =>
    obtain ⟨hscan, hstop⟩ := ih _
    rw [scan_escape hb, hscan, echoArg_escape hd hb]
    exact ⟨rfl, hstop⟩
  | @octal ds cs stop hds hlen hcs _ ih =>
    obtain ⟨hscan, hstop⟩ := ih (ds.foldl shiftIn 0)
    rw [scan_zero, scan_digits hds, scan_octal hcs, hscan, echoArg_octal,
      digits_append hds hcs (by omega)]
    exact ⟨rfl, hstop⟩

/-- With something left to write after each argument but the last, both go on alike. -/
theorem mainFrom_eq {args : List (List UInt8)} (h : AgreedArgs sus args) (hne : args ≠ [])
    (started : Bool) :
    mainFrom started false args = (if started then [32] else []) ++ echoArgs sus args := by
  induction args generalizing started with
  | nil => exact absurd rfl hne
  | cons a as ih =>
    cases as with
    | nil =>
      obtain ⟨stop, ha⟩ := h
      obtain ⟨hscan, hstop⟩ := ha.scan_eq 0 false
      simp only [mainFrom, echoArgs, hscan, hstop]
      cases stop <;> simp
    | cons a' as =>
      obtain ⟨hscan, hstop⟩ := h.1.scan_eq 0 false
      rw [mainFrom, hscan, echoArgs]
      simp only [hstop, Bool.or_false, ih h.2 (List.cons_ne_nil _ _) true]
      simp

/-- The two write the same bytes for every list of agreed arguments. -/
theorem main_eq_echo (sus : Bool) (args : List (List UInt8)) (h : AgreedArgs sus args) :
    main args = echo sus args := by
  unfold main echo
  split_ifs with hnil
  · rw [hnil]
    rfl
  · exact mainFrom_eq h hnil false

/-- `a\\n\\0101` and `x\\c`. -/
theorem main_eq_echo_two :
    main [[97, 92, 110, 92, 48, 49, 48, 49], [120, 92, 99]] =
      echo false [[97, 92, 110, 92, 48, 49, 48, 49], [120, 92, 99]] := by
  apply main_eq_echo
  refine ⟨.char (by decide) (.escape (by decide) rfl ?_), true, .char (by decide) .stop⟩
  have hds : ∀ c ∈ [49, 48, 49], isOctal c :=
    List.forall_mem_cons.mpr ⟨by decide, List.forall_mem_cons.mpr ⟨by decide,
      List.forall_mem_singleton.mpr (by decide)⟩⟩
  exact .octal hds (by decide) nofun .nil

/-- An escape that neither knows: the command writes nothing for it. -/
theorem main_ne_echo : main [[92, 113]] ≠ echo false [[92, 113]] := by
  have hnone : escape 113 = none := rfl
  have hmain : main [[92, 113]] = [10] := by decide
  have hlast : echoArg false [113] = ([113], false) := by
    rw [echoArg_char (by decide)]
    simp [echoArg]
  have hecho : echoArg false [92, 113] = ([92, 113], false) := by
    rw [echoArg.eq_def]
    simp [hnone, hlast]
  rw [hmain, echo, echoArgs, hecho]
  decide

end Unitas.Echo
