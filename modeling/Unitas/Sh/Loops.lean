import Mathlib.Data.Int.Basic

/-! Loops, `break` and `continue`. -/
namespace Unitas.Sh.Loops

abbrev Word := List UInt8

/-- `st` is what commands work on, `exitval` the status of the last one. -/
structure Shell (σ : Type) where
  st : σ
  exitval : ℕ
  deriving DecidableEq

/-- A command whose words have been expanded. -/
inductive Simple (σ : Type)
  | run (f : σ → ℕ × σ)
  | sysbreak (n : { n : ℕ // 1 ≤ n })
  | syscont (n : { n : ℕ // 1 ≤ n })

/-- Trees. `com` stands for everything that is not made of other trees, and for what runs in another
process. `null` is no tree at all. Where words are expanded, a command substitution leaves its status
in `exitval`. -/
inductive Trenod (σ : Type)
  | null
  | com (scan : Shell σ → Simple σ × Shell σ)
  | lst (lstlef lstrit : Trenod σ)
  | and (lstlef lstrit : Trenod σ)
  | orf (lstlef lstrit : Trenod σ)
  | tfor (scan : Shell σ → List Word × Shell σ) (assign : Word → σ → σ) (fortre : Trenod σ)
  /-- `while`, or `until` if `tun` is set. -/
  | wh (tun : Bool) (whtre dotre : Trenod σ)
  | tif (iftre thtre eltre : Trenod σ)
  /-- One pattern of `case`, and the others after it. -/
  | tsw (gmatch : Shell σ → Bool × Shell σ) (regcom regnxt : Trenod σ)

inductive Stop (σ : Type)
  /-- The run is cut here. -/
  | unfinished (st : σ)
  /-- A step has been reached that is not looked at. -/
  | uncovered
  deriving DecidableEq

variable {σ : Type}

/-! ### The shell -/

@[ext]
structure State (σ : Type) extends Shell σ where
  execbrk : Bool
  breakcnt : ℤ
  loopcnt : ℕ

def sysbreak (n : ℕ) (s : State σ) : State σ :=
  if s.loopcnt ≠ 0 then
    { s with execbrk := true, breakcnt := if n > s.loopcnt then s.loopcnt else n }
  else s

def syscont (n : ℕ) (s : State σ) : State σ :=
  if s.loopcnt ≠ 0 then
    { s with execbrk := true, breakcnt := if n > s.loopcnt then s.loopcnt else -n }
  else s

/-- After the body of a loop. -/
def turn (s : State σ) : State σ :=
  if s.breakcnt < 0 then
    { s with breakcnt := s.breakcnt + 1, execbrk := decide (s.breakcnt + 1 ≠ 0) }
  else s

/-- After a loop. -/
def leave (s : State σ) : State σ :=
  let s := if s.breakcnt > 0 then
      { s with breakcnt := s.breakcnt - 1, execbrk := decide (s.breakcnt - 1 ≠ 0) }
    else s
  { s with loopcnt := s.loopcnt - 1 }

def forLoop (assign : Word → σ → σ) (fortre : State σ → Except (Stop σ) (State σ)) :
    List Word → State σ → Except (Stop σ) (State σ)
  | [], s => .ok s
  | a :: args, s =>
    if s.execbrk then .ok s
    else do
      let s ← fortre { s with st := assign a s.st }
      forLoop assign fortre args (turn s)

/-- The loop for `while` and `until`, with `i`. -/
def whLoop (noexec : σ → Bool) (tun : Bool) (whtre dotre : State σ → Except (Stop σ) (State σ)) :
    ℕ → ℕ → State σ → Except (Stop σ) (ℕ × State σ)
  | 0, i, s => if s.execbrk then .ok (i, s) else .error (.unfinished s.st)
  | fuel + 1, i, s =>
    if s.execbrk then .ok (i, s)
    else do
      let s ← whtre s
      if (decide (s.exitval = 0) = !tun) ∧ noexec s.st = false then do
        let s ← dotre s
        whLoop noexec tun whtre dotre fuel s.exitval (turn s)
      else .ok (i, s)

def execute (noexec : σ → Bool) : ℕ → Trenod σ → State σ → Except (Stop σ) (State σ)
  | 0, _, s => if s.execbrk then .ok s else .error (.unfinished s.st)
  | fuel + 1, t, s =>
    if s.execbrk then .ok s
    else
      match t with
      | .null => .ok s
      | .com scan =>
        let (com, sh) := scan ⟨s.st, 0⟩
        let s := { s with toShell := sh }
        match com with
        | .run f => .ok { s with exitval := (f sh.st).1, st := (f sh.st).2 }
        | .sysbreak n => .ok (if noexec sh.st then s else sysbreak n s)
        | .syscont n => .ok (if noexec sh.st then s else syscont n s)
      | .lst lstlef lstrit => do
        let s ← execute noexec fuel lstlef s
        execute noexec fuel lstrit s
      | .and lstlef lstrit => do
        let s ← execute noexec fuel lstlef s
        if s.exitval = 0 then execute noexec fuel lstrit s else .ok s
      | .orf lstlef lstrit => do
        let s ← execute noexec fuel lstlef s
        if s.exitval = 0 then .ok s else execute noexec fuel lstrit s
      | .tfor scan assign fortre => do
        let (args, sh) := scan s.toShell
        let s ← forLoop assign (execute noexec fuel fortre) args
          { s with toShell := sh, loopcnt := s.loopcnt + 1 }
        .ok (leave s)
      | .wh tun whtre dotre => do
        let (i, s) ← whLoop noexec tun (execute noexec fuel whtre) (execute noexec fuel dotre) fuel 0
          { s with loopcnt := s.loopcnt + 1 }
        .ok { leave s with exitval := i }
      | .tif iftre thtre eltre => do
        let s ← execute noexec fuel iftre s
        if s.exitval = 0 then execute noexec fuel thtre s
        else
          match eltre with
          | .null => .ok { s with exitval := 0 }
          | eltre => execute noexec fuel eltre s
      | .tsw gmatch regcom regnxt =>
        let (found, sh) := gmatch s.toShell
        if found then execute noexec fuel regcom { s with toShell := sh }
        else execute noexec fuel regnxt { s with toShell := sh }

/-! ### Where execution goes on -/

/-- What a command does to what follows it: nothing, or it leaves loops. `brk k` and `cont k` are for
the loop around `k` others. -/
inductive Outcome
  | next
  | brk (k : ℕ)
  | cont (k : ℕ)
  deriving DecidableEq

/-- What the body of a loop does to the loop: another turn, or what the loop then does. -/
def Outcome.leaves : Outcome → Option Outcome
  | .next => none
  | .cont 0 => none
  | .cont (k + 1) => some (.cont k)
  | .brk 0 => some .next
  | .brk (k + 1) => some (.brk k)

def Outcome.continues : Outcome → Bool
  | .cont _ => true
  | _ => false

/-- Where a run has ended. -/
abbrev Ended (σ : Type) := Shell σ × Outcome

/-- Commands after one that leaves a loop are not run. -/
def Outcome.onward (o : Outcome) (s : Shell σ) (next : Except (Stop σ) (Ended σ)) :
    Except (Stop σ) (Ended σ) :=
  if o = .next then next else .ok (s, o)

def runFor (assign : Word → σ → σ) (fortre : Shell σ → Except (Stop σ) (Ended σ)) :
    List Word → Shell σ → Except (Stop σ) (Ended σ)
  | [], s => .ok (s, .next)
  | a :: args, s => do
    let (s, o) ← fortre { s with st := assign a s.st }
    match o.leaves with
    | none => runFor assign fortre args s
    | some o => .ok (s, o)

/-- With `check`, a run stops where a condition ends with `continue` and with the status that ends the
loop. -/
def runWh (check : Bool) (noexec : σ → Bool) (tun : Bool)
    (whtre dotre : Shell σ → Except (Stop σ) (Ended σ)) : ℕ → ℕ → Shell σ → Except (Stop σ) (Ended σ)
  | 0, _, s => .error (.unfinished s.st)
  | fuel + 1, i, s => do
    let (s, o) ← whtre s
    if (decide (s.exitval = 0) = !tun) ∧ noexec s.st = false then do
      let (s, o) ← o.onward s (dotre s)
      match o.leaves with
      | none => runWh check noexec tun whtre dotre fuel s.exitval s
      | some o => .ok (s, o)
    else if o = .next then .ok ({ s with exitval := i }, .next)
    else if check ∧ o.continues then .error .uncovered
    else
      match o.leaves with
      | none => runWh check noexec tun whtre dotre fuel i s
      | some o => .ok ({ s with exitval := i }, o)

/-- A run of a tree within `d` loops. With `check`, it also stops at a `continue` for more loops than
there are. -/
def run (check : Bool) (noexec : σ → Bool) :
    ℕ → ℕ → Trenod σ → Shell σ → Except (Stop σ) (Ended σ)
  | 0, _, _, s => .error (.unfinished s.st)
  | fuel + 1, d, t, s =>
    match t with
    | .null => .ok (s, .next)
    | .com scan =>
      let (com, s) := scan ⟨s.st, 0⟩
      match com with
      | .run f => .ok (⟨(f s.st).2, (f s.st).1⟩, .next)
      | .sysbreak n =>
        .ok (s, if noexec s.st ∨ d = 0 then .next else .brk (min n.1 d - 1))
      | .syscont n =>
        if noexec s.st ∨ d = 0 then .ok (s, .next)
        else if check ∧ d < n.1 then .error .uncovered
        else .ok (s, .cont (min n.1 d - 1))
    | .lst lstlef lstrit => do
      let (s, o) ← run check noexec fuel d lstlef s
      o.onward s (run check noexec fuel d lstrit s)
    | .and lstlef lstrit => do
      let (s, o) ← run check noexec fuel d lstlef s
      if s.exitval = 0 then o.onward s (run check noexec fuel d lstrit s) else .ok (s, o)
    | .orf lstlef lstrit => do
      let (s, o) ← run check noexec fuel d lstlef s
      if s.exitval = 0 then .ok (s, o) else o.onward s (run check noexec fuel d lstrit s)
    | .tfor scan assign fortre =>
      let (args, s) := scan s
      runFor assign (run check noexec fuel (d + 1) fortre) args s
    | .wh tun whtre dotre =>
      runWh check noexec tun (run check noexec fuel (d + 1) whtre)
        (run check noexec fuel (d + 1) dotre) fuel 0 s
    | .tif iftre thtre eltre => do
      let (s, o) ← run check noexec fuel d iftre s
      if s.exitval = 0 then o.onward s (run check noexec fuel d thtre s)
      else
        match eltre with
        | .null => .ok ({ s with exitval := 0 }, o)
        | eltre => o.onward s (run check noexec fuel d eltre s)
    | .tsw gmatch regcom regnxt =>
      let (found, s) := gmatch s
      if found then run check noexec fuel d regcom s else run check noexec fuel d regnxt s

/-- In the run, no `continue` asks for more loops than there are, and no condition ends with one and
with the status that ends the loop. -/
def Covered (noexec : σ → Bool) (fuel : ℕ) (t : Trenod σ) (s : Shell σ) : Prop :=
  run true noexec fuel 0 t s ≠ .error .uncovered

/-! ### The flags -/

def Outcome.count : Outcome → ℤ
  | .next => 0
  | .brk k => k + 1
  | .cont k => -(k + 1)

/-- The state of the shell within `d` loops. -/
def code (d : ℕ) (s : Shell σ) (o : Outcome) : State σ :=
  { s with execbrk := decide (o ≠ .next), breakcnt := o.count, loopcnt := d }

variable {noexec : σ → Bool}

/-- What holds of the outcome of a command within `d` loops. -/
def Outcome.Fits (d : ℕ) : Outcome → Prop
  | .next => True
  | .brk k | .cont k => k < d

theorem turn_of_leaves_none {o : Outcome} (h : o.leaves = none) (d : ℕ) (s : Shell σ) :
    turn (code d s o) = code d s .next := by
  rcases o with _ | (_ | k) | (_ | k)
  · rfl
  · cases h
  · cases h
  · rfl
  · cases h

theorem turn_brk (d k : ℕ) (s : Shell σ) : turn (code d s (.brk k)) = code d s (.brk k) := by
  have hneg : ¬ (k : ℤ) + 1 < 0 := by omega
  exact if_neg hneg

theorem leave_of_leaves {o o' : Outcome} (h : o.leaves = some o') (d : ℕ) (s : Shell σ) :
    (turn (code (d + 1) s o)).execbrk = true ∧
      leave (turn (code (d + 1) s o)) = code d s o' := by
  rcases o with _ | (_ | k) | (_ | k)
  · cases h
  · cases h
    exact ⟨rfl, rfl⟩
  · cases h
    rw [turn_brk]
    refine ⟨rfl, ?_⟩
    have hpos : ((k : ℤ) + 1 + 1) > 0 := by omega
    have hne : ¬ (k : ℤ) + 1 = 0 := by omega
    simp [leave, code, Outcome.count, hpos, hne]
  · cases h
  · cases h
    have hturn : turn (code (d + 1) s (.cont (k + 1))) = code (d + 1) s (.cont k) := by
      have hneg : -(((k + 1 : ℕ) : ℤ) + 1) < 0 := by omega
      have hcount : -(((k + 1 : ℕ) : ℤ) + 1) + 1 = -((k : ℤ) + 1) := by omega
      have hne : -(((k + 1 : ℕ) : ℤ) + 1) + 1 ≠ 0 := by omega
      refine (if_pos hneg).trans ?_
      exact State.ext rfl rfl (decide_eq_true hne) hcount rfl
    rw [hturn]
    refine ⟨rfl, ?_⟩
    have hpos : ¬ -((k : ℤ) + 1) > 0 := by omega
    have hleave : leave (code (d + 1) s (.cont k)) =
        { code (d + 1) s (.cont k) with loopcnt := d } := by
      unfold leave
      dsimp only
      rw [show (code (d + 1) s (.cont k)).breakcnt = -((k : ℤ) + 1) from rfl, if_neg hpos]
      rfl
    exact hleave

theorem Outcome.Fits.leaves {o o' : Outcome} (h : o.leaves = some o') {d : ℕ}
    (ho : o.Fits (d + 1)) : o'.Fits d := by
  rcases o with _ | (_ | k) | (_ | k)
  · cases h
  · cases h
    trivial
  · cases h
    exact Nat.lt_of_succ_lt_succ ho
  · cases h
  · cases h
    exact Nat.lt_of_succ_lt_succ ho

/-! ### Simulation -/

/-- A run of the shell within `d` loops and the other one, as long as its steps are covered. -/
def Sim (d : ℕ) (x : Except (Stop σ) (State σ)) :
    Except (Stop σ) (Ended σ) → Prop
  | .ok (s, o) => x = .ok (code d s o) ∧ o.Fits d
  | .error .uncovered => True
  | .error (.unfinished st) => x = .error (.unfinished st)

variable {d d' : ℕ} {s : Shell σ} {o : Outcome} {x : Except (Stop σ) (State σ)}
  {y : Except (Stop σ) (Ended σ)}

theorem Sim.bind {f : State σ → Except (Stop σ) (State σ)} {g : Ended σ → Except (Stop σ) (Ended σ)}
    (h : Sim d x y)
    (hf : ∀ s o, o.Fits d → Sim d' (f (code d s o)) (g (s, o))) :
    Sim d' (x >>= f) (y >>= g) := by
  rcases y with (st | _) | ⟨s, o⟩
  · rw [show x = .error (.unfinished st) from h]
    rfl
  · trivial
  · obtain ⟨rfl, ho⟩ := h
    exact hf s o ho

theorem execute_execbrk (fuel : ℕ) (t : Trenod σ) (d : ℕ) (s : Shell σ) (ho : o ≠ .next) :
    execute noexec fuel t (code d s o) = .ok (code d s o) := by
  have hbrk : (code d s o).execbrk = true := decide_eq_true ho
  cases fuel with
  | zero => exact if_pos hbrk
  | succ fuel =>
    unfold execute
    exact if_pos hbrk

/-- Whatever comes next is not run while a loop is being left. -/
theorem Sim.onward {fuel : ℕ} {t : Trenod σ} (ho : o.Fits d)
    (h : Sim d (execute noexec fuel t (code d s .next)) y) :
    Sim d (execute noexec fuel t (code d s o)) (o.onward s y) := by
  unfold Outcome.onward
  split_ifs with hnext
  · rw [hnext]
    exact h
  · exact ⟨execute_execbrk fuel t d s hnext, ho⟩

/-! ### Loops -/

theorem forLoop_execbrk (assign : Word → σ → σ) (fortre : State σ → Except (Stop σ) (State σ))
    (args : List Word) {s : State σ} (hs : s.execbrk = true) :
    forLoop assign fortre args s = .ok s := by
  cases args with
  | nil => rfl
  | cons a args => rw [forLoop, if_pos hs]

theorem sim_for (assign : Word → σ → σ) {fortre : State σ → Except (Stop σ) (State σ)}
    {fortre' : Shell σ → Except (Stop σ) (Ended σ)}
    (h : ∀ s, Sim (d + 1) (fortre (code (d + 1) s .next)) (fortre' s)) (args : List Word)
    (s : Shell σ) :
    Sim d (forLoop assign fortre args (code (d + 1) s .next) >>= fun s => .ok (leave s))
      (runFor assign fortre' args s) := by
  induction args generalizing s with
  | nil => exact ⟨rfl, trivial⟩
  | cons a args ih =>
    have hrun : forLoop assign fortre (a :: args) (code (d + 1) s .next) =
        fortre (code (d + 1) { s with st := assign a s.st } .next) >>= fun s =>
          forLoop assign fortre args (turn s) := rfl
    rw [hrun, runFor, bind_assoc]
    refine (h _).bind fun s o ho => ?_
    dsimp only
    cases hl : o.leaves with
    | none =>
      rw [turn_of_leaves_none hl]
      exact ih s
    | some o' =>
      obtain ⟨hbrk, hleave⟩ := leave_of_leaves hl d s
      rw [forLoop_execbrk assign fortre args hbrk]
      exact ⟨congrArg Except.ok hleave, ho.leaves hl⟩

theorem whLoop_execbrk (tun : Bool) (whtre dotre : State σ → Except (Stop σ) (State σ))
    (fuel i : ℕ) {s : State σ} (hs : s.execbrk = true) :
    whLoop noexec tun whtre dotre fuel i s = .ok (i, s) := by
  cases fuel with
  | zero => exact if_pos hs
  | succ fuel => exact if_pos hs

theorem sim_wh (tun : Bool) {whtre dotre : State σ → Except (Stop σ) (State σ)}
    {whtre' dotre' : Shell σ → Except (Stop σ) (Ended σ)}
    (hwh : ∀ s, Sim (d + 1) (whtre (code (d + 1) s .next)) (whtre' s))
    (hdo : ∀ s o, o.Fits (d + 1) →
      Sim (d + 1) (dotre (code (d + 1) s o)) (o.onward s (dotre' s)))
    (fuel i : ℕ) (s : Shell σ) :
    Sim d
      (whLoop noexec tun whtre dotre fuel i (code (d + 1) s .next) >>= fun r =>
        .ok { leave r.2 with exitval := r.1 })
      (runWh true noexec tun whtre' dotre' fuel i s) := by
  induction fuel generalizing i s with
  | zero => rfl
  | succ fuel ih =>
    have hrun : whLoop noexec tun whtre dotre (fuel + 1) i (code (d + 1) s .next) =
        whtre (code (d + 1) s .next) >>= fun s =>
          if (decide (s.exitval = 0) = !tun) ∧ noexec s.st = false then
            dotre s >>= fun s => whLoop noexec tun whtre dotre fuel s.exitval (turn s)
          else .ok (i, s) := rfl
    rw [hrun, runWh, bind_assoc]
    refine (hwh s).bind fun s o ho => ?_
    dsimp only
    by_cases htest : (decide (s.exitval = 0) = !tun) ∧ noexec s.st = false
    · have htest' : (decide ((code (d + 1) s o).exitval = 0) = !tun) ∧
          noexec (code (d + 1) s o).st = false := htest
      rw [if_pos htest, if_pos htest', bind_assoc]
      refine (hdo s o ho).bind fun s o ho => ?_
      dsimp only
      cases hl : o.leaves with
      | none =>
        rw [turn_of_leaves_none hl]
        exact ih s.exitval s
      | some o' =>
        obtain ⟨hbrk, hleave⟩ := leave_of_leaves hl d s
        rw [whLoop_execbrk tun whtre dotre fuel _ hbrk]
        refine ⟨?_, ho.leaves hl⟩
        exact congrArg (fun s' : State σ => Except.ok { s' with exitval := s.exitval }) hleave
    · have htest' : ¬ ((decide ((code (d + 1) s o).exitval = 0) = !tun) ∧
          noexec (code (d + 1) s o).st = false) := htest
      rw [if_neg htest, if_neg htest']
      rcases o with _ | k | k
      · exact ⟨rfl, trivial⟩
      · rw [if_neg (nofun : Outcome.brk k ≠ .next), if_neg fun h => Bool.false_ne_true h.2]
        cases hl : (Outcome.brk k).leaves with
        | none => cases k <;> cases hl
        | some o' =>
          have hleave := (leave_of_leaves hl d s).2
          rw [turn_brk] at hleave
          refine ⟨?_, ho.leaves hl⟩
          change Except.ok { leave (code (d + 1) s (.brk k)) with exitval := i } = _
          rw [hleave]
          rfl
      · rw [if_neg (nofun : Outcome.cont k ≠ .next), if_pos ⟨rfl, rfl⟩]
        trivial

/-! ### Trees -/

theorem sim_sysbreak (n : { n : ℕ // 1 ≤ n }) (s : Shell σ) :
    Sim d
      (.ok (if noexec s.st then code d s .next else sysbreak n (code d s .next)))
      (.ok (s, if noexec s.st ∨ d = 0 then .next else .brk (min n.1 d - 1))) := by
  obtain ⟨n, hn⟩ := n
  by_cases hno : noexec s.st = true
  · rw [if_pos hno, if_pos (.inl hno)]
    exact ⟨rfl, trivial⟩
  rw [if_neg hno]
  by_cases hd : d = 0
  · subst hd
    rw [if_pos (.inr rfl)]
    exact ⟨rfl, trivial⟩
  · rw [if_neg (not_or.mpr ⟨hno, hd⟩)]
    have hlt : min n d - 1 < d := by omega
    refine ⟨congrArg _ ((if_pos hd).trans (State.ext rfl rfl rfl ?_ rfl)), hlt⟩
    change (if n > d then (d : ℤ) else n) = ((min n d - 1 : ℕ) : ℤ) + 1
    split_ifs <;> omega

theorem sim_syscont (n : { n : ℕ // 1 ≤ n }) (s : Shell σ) :
    Sim d
      (.ok (if noexec s.st then code d s .next else syscont n (code d s .next)))
      (if noexec s.st ∨ d = 0 then .ok (s, .next)
        else if true = true ∧ d < n.1 then .error .uncovered
        else .ok (s, .cont (min n.1 d - 1))) := by
  obtain ⟨n, hn⟩ := n
  by_cases hno : noexec s.st = true
  · rw [if_pos hno, if_pos (.inl hno)]
    exact ⟨rfl, trivial⟩
  rw [if_neg hno]
  by_cases hd : d = 0
  · subst hd
    rw [if_pos (.inr rfl)]
    exact ⟨rfl, trivial⟩
  rw [if_neg (not_or.mpr ⟨hno, hd⟩)]
  by_cases hlt : d < n
  · rw [if_pos ⟨rfl, hlt⟩]
    trivial
  · rw [if_neg fun h => hlt h.2]
    have hcont : min n d - 1 < d := by omega
    refine ⟨congrArg _ ((if_pos hd).trans (State.ext rfl rfl rfl ?_ rfl)), hcont⟩
    change (if n > d then (d : ℤ) else -n) = -(((min n d - 1 : ℕ) : ℤ) + 1)
    rw [if_neg hlt]
    omega

theorem sim_execute (fuel d : ℕ) (t : Trenod σ) (s : Shell σ) :
    Sim d (execute noexec fuel t (code d s .next)) (run true noexec fuel d t s) := by
  induction fuel generalizing d t s with
  | zero => rfl
  | succ fuel ih =>
    have honward (d : ℕ) (t : Trenod σ) (s : Shell σ) (o : Outcome) (ho : o.Fits d) :
        Sim d (execute noexec fuel t (code d s o))
          (o.onward s (run true noexec fuel d t s)) := Sim.onward ho (ih d t s)
    cases t with
    | null => exact ⟨rfl, trivial⟩
    | com scan =>
      rcases hscan : scan ⟨s.st, 0⟩ with ⟨com, sh⟩
      rw [run, hscan]
      cases com with
      | run f =>
        have hrun : execute noexec (fuel + 1) (.com scan) (code d s .next) =
            .ok (code d ⟨(f sh.st).2, (f sh.st).1⟩ .next) := by
          simp only [execute, code, hscan]
          rfl
        exact ⟨hrun, trivial⟩
      | sysbreak n =>
        have hrun : execute noexec (fuel + 1) (.com scan) (code d s .next) =
            .ok (if noexec sh.st then code d sh .next else sysbreak n (code d sh .next)) := by
          simp only [execute, code, hscan]
          rfl
        rw [hrun]
        exact sim_sysbreak n sh
      | syscont n =>
        have hrun : execute noexec (fuel + 1) (.com scan) (code d s .next) =
            .ok (if noexec sh.st then code d sh .next else syscont n (code d sh .next)) := by
          simp only [execute, code, hscan]
          rfl
        rw [hrun]
        exact sim_syscont n sh
    | lst lstlef lstrit => exact (ih d lstlef s).bind fun s o ho => honward d lstrit s o ho
    | and lstlef lstrit =>
      refine (ih d lstlef s).bind fun s o ho => ?_
      dsimp only
      rw [show (code d s o).exitval = s.exitval from rfl]
      split_ifs
      · exact honward d lstrit s o ho
      · exact ⟨rfl, ho⟩
    | orf lstlef lstrit =>
      refine (ih d lstlef s).bind fun s o ho => ?_
      dsimp only
      rw [show (code d s o).exitval = s.exitval from rfl]
      split_ifs
      · exact ⟨rfl, ho⟩
      · exact honward d lstrit s o ho
    | tfor scan assign fortre =>
      exact sim_for assign (ih (d + 1) fortre) (scan s).1 (scan s).2
    | wh tun whtre dotre =>
      exact sim_wh tun (ih (d + 1) whtre) (honward (d + 1) dotre) fuel 0 s
    | tif iftre thtre eltre =>
      refine (ih d iftre s).bind fun s o ho => ?_
      dsimp only
      rw [show (code d s o).exitval = s.exitval from rfl]
      split_ifs with hzero
      · exact honward d thtre s o ho
      · cases eltre with
        | null => exact ⟨rfl, ho⟩
        | _ => exact honward d _ s o ho
    | tsw gmatch regcom regnxt =>
      have hrun : execute noexec (fuel + 1) (.tsw gmatch regcom regnxt) (code d s .next) =
          if (gmatch s).1 then execute noexec fuel regcom (code d (gmatch s).2 .next)
          else execute noexec fuel regnxt (code d (gmatch s).2 .next) := rfl
      rw [hrun, run]
      dsimp only
      split_ifs
      · exact ih d regcom _
      · exact ih d regnxt _

/-! ### Checking -/

/-- A run that stops at a step that is not looked at, or goes on as without the check. -/
def Agree (y y' : Except (Stop σ) (Ended σ)) : Prop := y = .error .uncovered ∨ y = y'

theorem Agree.bind {y y' : Except (Stop σ) (Ended σ)} {g g' : Ended σ → Except (Stop σ) (Ended σ)}
    (h : Agree y y') (hg : ∀ r, Agree (g r) (g' r)) : Agree (y >>= g) (y' >>= g') := by
  rcases h with rfl | rfl
  · exact .inl rfl
  · rcases y with e | r
    · exact .inr rfl
    · exact hg r

theorem Agree.onward {y y' : Except (Stop σ) (Ended σ)} (h : Agree y y') (o : Outcome)
    (s : Shell σ) : Agree (o.onward s y) (o.onward s y') := by
  unfold Outcome.onward
  split_ifs
  · exact h
  · exact .inr rfl

theorem agree_for (assign : Word → σ → σ) {fortre fortre' : Shell σ → Except (Stop σ) (Ended σ)}
    (h : ∀ s, Agree (fortre s) (fortre' s)) (args : List Word) (s : Shell σ) :
    Agree (runFor assign fortre args s) (runFor assign fortre' args s) := by
  induction args generalizing s with
  | nil => exact .inr rfl
  | cons a args ih =>
    refine (h _).bind fun r => ?_
    dsimp only
    split
    · exact ih _
    · exact .inr rfl

theorem agree_wh (tun : Bool) {whtre whtre' dotre dotre' : Shell σ → Except (Stop σ) (Ended σ)}
    (hwh : ∀ s, Agree (whtre s) (whtre' s)) (hdo : ∀ s, Agree (dotre s) (dotre' s))
    (fuel i : ℕ) (s : Shell σ) :
    Agree (runWh true noexec tun whtre dotre fuel i s)
      (runWh false noexec tun whtre' dotre' fuel i s) := by
  induction fuel generalizing i s with
  | zero => exact .inr rfl
  | succ fuel ih =>
    refine (hwh s).bind fun r => ?_
    dsimp only
    have hfalse : ¬ (false = true ∧ r.2.continues = true) := fun h => Bool.false_ne_true h.1
    rw [if_neg hfalse]
    split_ifs
    · refine ((hdo r.1).onward r.2 r.1).bind fun r => ?_
      split
      · exact ih _ _
      · exact .inr rfl
    · exact .inr rfl
    · exact .inl rfl
    · split
      · exact ih _ _
      · exact .inr rfl

theorem agree_run (fuel d : ℕ) (t : Trenod σ) (s : Shell σ) :
    Agree (run true noexec fuel d t s) (run false noexec fuel d t s) := by
  induction fuel generalizing d t s with
  | zero => exact .inr rfl
  | succ fuel ih =>
    cases t with
    | null => exact .inr rfl
    | com scan =>
      rcases hscan : scan ⟨s.st, 0⟩ with ⟨com, sh⟩
      rw [run, run, hscan]
      cases com with
      | run f => exact .inr rfl
      | sysbreak n => exact .inr rfl
      | syscont n =>
        dsimp only
        have hfalse : ¬ (false = true ∧ d < n.1) := fun h => Bool.false_ne_true h.1
        rw [if_neg hfalse]
        split_ifs
        · exact .inr rfl
        · exact .inl rfl
        · exact .inr rfl
    | lst lstlef lstrit =>
      exact (ih d lstlef s).bind fun r => (ih d lstrit r.1).onward r.2 r.1
    | and lstlef lstrit =>
      refine (ih d lstlef s).bind fun r => ?_
      dsimp only
      split_ifs
      · exact (ih d lstrit r.1).onward r.2 r.1
      · exact .inr rfl
    | orf lstlef lstrit =>
      refine (ih d lstlef s).bind fun r => ?_
      dsimp only
      split_ifs
      · exact .inr rfl
      · exact (ih d lstrit r.1).onward r.2 r.1
    | tfor scan assign fortre => exact agree_for assign (ih (d + 1) fortre) _ _
    | wh tun whtre dotre => exact agree_wh tun (ih (d + 1) whtre) (ih (d + 1) dotre) fuel 0 s
    | tif iftre thtre eltre =>
      refine (ih d iftre s).bind fun r => ?_
      dsimp only
      split_ifs
      · exact (ih d thtre r.1).onward r.2 r.1
      · cases eltre with
        | null => exact .inr rfl
        | _ => exact (ih d _ r.1).onward r.2 r.1
    | tsw gmatch regcom regnxt =>
      rw [run, run]
      dsimp only
      split_ifs
      · exact ih d regcom _
      · exact ih d regnxt _

/-! ### Runs -/

/-- The shell outside loops. -/
def outside (s : Shell σ) : State σ := { s with execbrk := false, breakcnt := 0, loopcnt := 0 }

/-- Execution goes on after the loops that `break` leaves, or with the next turn of the one that
`continue` is for, and then nothing is left in the flags. It does so wherever a run is cut. -/
theorem execute_eq (noexec : σ → Bool) (fuel : ℕ) (t : Trenod σ) (s : Shell σ)
    (h : Covered noexec fuel t s) :
    execute noexec fuel t (outside s) =
      (run false noexec fuel 0 t s).map fun r => outside r.1 := by
  have hagree : run true noexec fuel 0 t s = run false noexec fuel 0 t s :=
    (agree_run fuel 0 t s).resolve_left h
  have hsim : Sim 0 (execute noexec fuel t (outside s)) (run true noexec fuel 0 t s) :=
    sim_execute fuel 0 t s
  rw [← hagree]
  unfold Covered at h
  rcases hrun : run true noexec fuel 0 t s with (st | _) | ⟨s', o⟩
  · rw [hrun] at hsim
    exact hsim
  · exact absurd hrun h
  · rw [hrun] at hsim
    obtain ⟨heq, ho⟩ := hsim
    cases o with
    | next => exact heq
    | brk k => exact absurd ho (Nat.not_lt_zero k)
    | cont k => exact absurd ho (Nat.not_lt_zero k)

/-- A command that writes a word. -/
def echo (w : Word) : Trenod (List Word) := .com fun s => (.run fun st => (0, w :: st), s)

/-- `continue n` in a loop over two words, which are written. -/
def contFor (n : { n : ℕ // 1 ≤ n }) : Trenod (List Word) :=
  .tfor (fun s => ([[97], [98]], s)) (fun a st => a :: st) (.com fun s => (.syscont n, s))

theorem execute_eq_continue :
    execute (fun _ => false) 5 (.lst (contFor ⟨1, le_rfl⟩) (echo [99])) (outside ⟨[], 0⟩) =
      (run false (fun _ => false) 5 0 (.lst (contFor ⟨1, le_rfl⟩) (echo [99])) ⟨[], 0⟩).map
        fun r => outside r.1 :=
  execute_eq (fun _ => false) 5 _ ⟨[], 0⟩ nofun

/-- `continue 2` within one loop ends it. -/
theorem not_execute_eq :
    ¬ ∀ (noexec : List Word → Bool) (fuel : ℕ) (t : Trenod (List Word)) (s : Shell (List Word)),
      execute noexec fuel t (outside s) =
        (run false noexec fuel 0 t s).map fun r => outside r.1 := by
  intro h
  have hcont := h (fun _ => false) 5 (contFor ⟨2, Nat.le_succ 1⟩) ⟨[], 0⟩
  exact absurd (congrArg (fun x => x.toOption.map fun s => s.st) hcont) (by decide)

end Unitas.Sh.Loops
