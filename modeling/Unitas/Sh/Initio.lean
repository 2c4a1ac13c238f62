import Mathlib.Data.Nat.Find
import Mathlib.Logic.Function.Basic
import Unitas.Lib.Literals

/-! The redirections of builtins and functions: `initio` saves each descriptor before it is
redirected, `restore` undoes what has been saved since. -/
namespace Unitas.Sh.Io

/-- What a descriptor refers to, and its close-on-exec flag. -/
structure Fd where
  file : ℕ
  cloexec : Bool

/-- The open descriptors. There are finitely many. -/
structure Fds where
  get : ℕ → Option Fd
  bound : ℕ
  closed : ∀ n, bound ≤ n → get n = none

def Fds.set (t : Fds) (n : ℕ) (fd : Option Fd) : Fds where
  get := Function.update t.get n fd
  bound := max t.bound (n + 1)
  closed m hm := by
    have hne : m ≠ n := by omega
    rw [Function.update_of_ne hne]
    exact t.closed m (by omega)

theorem Fds.exists_free (t : Fds) (k : ℕ) : ∃ n, k ≤ n ∧ t.get n = none :=
  ⟨max k t.bound, le_max_left .., t.closed _ (le_max_right ..)⟩

/-- The lowest free descriptor from `k` on. -/
def Fds.lowest (t : Fds) (k : ℕ) : ℕ := Nat.find (t.exists_free k)

def Fds.close (t : Fds) (n : ℕ) : Fds := t.set n none

def Fds.open (t : Fds) (file : ℕ) : ℕ × Fds :=
  (t.lowest 0, t.set (t.lowest 0) (some ⟨file, false⟩))

/-- `fcntl(fd, F_DUPFD, k)`, or `dup(fd)` for `k = 0`; `none` for -1. -/
def Fds.dup (t : Fds) (fd k : ℕ) : Option ℕ × Fds :=
  match t.get fd with
  | none => (none, t)
  | some f => (some (t.lowest k), t.set (t.lowest k) (some { f with cloexec := false }))

def renamef (f1 f2 : ℕ) (t : Fds) : Fds :=
  if f1 = f2 then t
  else
    let fs := (t.get f2).map Fd.cloexec
    let t := (((t.close f2).dup f1 f2).2).close f1
    if fs = some true then t.set f2 ((t.get f2).map fun f => { f with cloexec := true }) else t

structure FdSave where
  orgFd : ℕ
  dupFd : Option ℕ

structure State where
  fds : Fds
  fdmap : ℕ → FdSave
  topfd : ℕ

/-- The word behind `<&` or `>&`. `fails` tells that `dup` finds no descriptor for an open one. -/
inductive Mov
  | minus
  | number (n : ℕ) (fails : Bool)
  | other

/-- What a redirection does, with the outcome of each `open`. -/
inductive Op
  /-- The name is empty, or `noexec` is set. -/
  | skip
  | doc (script temp expanded : Option ℕ)
  | mov (ion : Mov)
  /-- `chkopen` and `create`, and `open` for appending. -/
  | «open» (file : Option ℕ)

def Op.effective : Op → Bool
  | .skip => false
  | _ => true

/-- `saveFails` tells that `savefd` finds no descriptor for an open one. -/
structure Ionod where
  ioufd : Fin 10
  op : Op
  saveFails : Bool

/-- An error exit; or a store behind the end of `fdmap`. -/
inductive Abort
  | failed
  | wild
  deriving DecidableEq

def openOr (file : Option ℕ) (t : Fds) : Except Abort (ℕ × Fds) :=
  match file with
  | none => .error .failed
  | some f => .ok (t.open f)

/-- The body of the loop in `initio` behind the save. -/
def redirect (ioufd : ℕ) (op : Op) (t : Fds) : Except Abort Fds :=
  match op with
  | .skip => .ok t
  | .doc script temp expanded => do
    let (f, t) ← openOr script t
    let (tb, t) ← openOr temp t
    let (fd, t) ← openOr expanded ((t.close f).close tb)
    .ok (renamef fd ioufd t)
  | .mov .minus => .ok (t.close ioufd)
  | .mov (.number n fails) =>
    if n ≥ 10 then .error .failed
    else match if fails then (none, t) else t.dup n 0 with
      | (none, t) => .ok t
      | (some fd, t) => .ok (renamef fd ioufd t)
  | .mov .other => .error .failed
  | .open file => do
    let (fd, t) ← openOr file t
    .ok (renamef fd ioufd t)

def savefd (fails : Bool) (fd : ℕ) (t : Fds) : Option ℕ × Fds :=
  if fails then (none, t) else t.dup fd 10

variable (NOFILE : ℕ)

def save (i : Ionod) (s : State) : Except Abort State :=
  if NOFILE ≤ s.topfd then .error .wild
  else
    let (dupFd, fds) := savefd i.saveFails i.ioufd s.fds
    .ok ⟨fds, Function.update s.fdmap s.topfd ⟨i.ioufd, dupFd⟩, s.topfd + 1⟩

/-- The loop of `initio(iop, 1)`. -/
def initio : List Ionod → State → Except Abort State
  | [], s => .ok s
  | i :: iop, s =>
    if i.op.effective then do
      let s ← save NOFILE i s
      let fds ← redirect i.ioufd i.op s.fds
      initio iop { s with fds }
    else initio iop s

/-- One round of the loop in `restore`. -/
def undo (e : FdSave) (t : Fds) : Fds :=
  match e.dupFd with
  | some dupfd => renamef dupfd e.orgFd t
  | none => t.close e.orgFd

/-- `for (i = topfd - 1; i >= last; i--)`, of `n` rounds. -/
def restoreFrom (last : ℕ) : ℕ → State → State
  | 0, s => s
  | n + 1, s => restoreFrom last n { s with fds := undo (s.fdmap (last + n)) s.fds }

def restore (last : ℕ) (s : State) : State :=
  { restoreFrom last (s.topfd - last) s with topfd := last }

/-- A builtin or function with redirections, and the ones it calls. -/
inductive Call
  | mk (iop : List Ionod) (body : List Call)

mutual

def Call.run : Call → State → Except Abort State
  | .mk iop body, s => do
    let s' ← initio NOFILE iop s
    let s' ← runAll body s'
    .ok (restore s.topfd s')

def runAll : List Call → State → Except Abort State
  | [], s => .ok s
  | c :: cs, s => do
    let s ← c.run s
    runAll cs s

end

/-! ### Descriptors -/

def Fds.file (t : Fds) (n : ℕ) : Option ℕ := (t.get n).map Fd.file

variable {t t' : Fds} {k n : ℕ}

theorem Fds.get_set (t : Fds) (n m : ℕ) (fd : Option Fd) :
    (t.set n fd).get m = if m = n then fd else t.get m :=
  Function.update_apply ..

theorem Fds.file_set (t : Fds) (n m : ℕ) (fd : Option Fd) :
    (t.set n fd).file m = if m = n then fd.map Fd.file else t.file m := by
  unfold Fds.file
  rw [Fds.get_set]
  split_ifs <;> rfl

theorem Fds.file_eq_none : t.file n = none ↔ t.get n = none := Option.map_eq_none_iff

theorem Fds.le_lowest (t : Fds) (k : ℕ) : k ≤ t.lowest k := (Nat.find_spec (t.exists_free k)).1

theorem Fds.get_lowest (t : Fds) (k : ℕ) : t.get (t.lowest k) = none :=
  (Nat.find_spec (t.exists_free k)).2

theorem Fds.lowest_of_free (h : t.get k = none) : t.lowest k = k :=
  le_antisymm (Nat.find_min' _ ⟨le_rfl, h⟩) (t.le_lowest k)

theorem Fds.dup_eq {f : Fd} (h : t.get n = some f) (k : ℕ) :
    t.dup n k = (some (t.lowest k), t.set (t.lowest k) (some { f with cloexec := false })) := by
  unfold Fds.dup
  rw [h]

theorem Fds.file_close (t : Fds) (n m : ℕ) :
    (t.close n).file m = if m = n then none else t.file m :=
  t.file_set n m none

/-- Setting the close-on-exec flag leaves the files alone. -/
theorem Fds.file_cloexec (t : Fds) (n m : ℕ) :
    (t.set n ((t.get n).map fun f => { f with cloexec := true })).file m = t.file m := by
  rw [Fds.file_set]
  split_ifs with h
  · rw [h, Fds.file]
    cases t.get n <;> rfl
  · rfl

/-- `renamef` moves what `f1` refers to. -/
theorem file_renamef {f1 f2 : ℕ} {f : Fd} (h : t.get f1 = some f) (n : ℕ) :
    (renamef f1 f2 t).file n =
      if n = f2 then t.file f1 else if n = f1 then none else t.file n := by
  by_cases heq : f1 = f2
  · subst heq
    simp only [renamef, if_true]
    split_ifs with hn
    · rw [hn]
    · rfl
  · have hf : t.file f1 = some f.file := by rw [Fds.file, h]; rfl
    have hget : (t.close f2).get f1 = some f := by
      rw [Fds.close, Fds.get_set, if_neg heq, h]
    have hfree : (t.close f2).get f2 = none := by rw [Fds.close, Fds.get_set, if_pos rfl]
    have hfile : ((((t.close f2).dup f1 f2).2).close f1).file n =
        if n = f2 then t.file f1 else if n = f1 then none else t.file n := by
      rw [Fds.dup_eq hget, Fds.lowest_of_free hfree, Fds.file_close, Fds.file_set,
        Fds.file_close, hf]
      split_ifs with h1 h2
      · exact absurd (h1.symm.trans h2) heq
      all_goals rfl
    unfold renamef
    rw [← hfile]
    simp only [if_neg heq]
    by_cases hfs : (t.get f2).map Fd.cloexec = some true
    · rw [if_pos hfs]
      exact Fds.file_cloexec ..
    · rw [if_neg hfs]

/-- A file that has been opened is moved to `ioufd`. -/
theorem file_open_renamef (t : Fds) (file ioufd n : ℕ) :
    (renamef (t.open file).1 ioufd (t.open file).2).file n =
      if n = ioufd then some file else t.file n := by
  have hfree := t.get_lowest 0
  rw [file_renamef (f := ⟨file, false⟩) (by rw [Fds.open, Fds.get_set, if_pos rfl])]
  simp only [Fds.open, Fds.file_set, if_true]
  split_ifs with h1 h2
  · rfl
  · rw [h2, Fds.file_eq_none.mpr hfree]
  · rfl

theorem file_dup_renamef {fd : Fd} (h : t.get n = some fd) (ioufd m : ℕ) :
    (renamef (t.lowest 0) ioufd (t.dup n 0).2).file m =
      if m = ioufd then t.file n else t.file m := by
  have hfree := t.get_lowest 0
  rw [Fds.dup_eq h, file_renamef (f := { fd with cloexec := false })
    (by rw [Fds.get_set, if_pos rfl])]
  simp only [Fds.file_set, if_true]
  split_ifs with h1 h2
  · rw [Fds.file, h]
    rfl
  · rw [h2, Fds.file_eq_none.mpr hfree]
  · rfl

/-- A here-document and its copy, opened and closed again, leave nothing behind. -/
theorem file_doc (t : Fds) (script temp n : ℕ) :
    ((((t.open script).2.open temp).2.close (t.open script).1).close
      ((t.open script).2.open temp).1).file n = t.file n := by
  have hfree := Fds.file_eq_none.mpr (t.get_lowest 0)
  have hfree' := Fds.file_eq_none.mpr ((t.open script).2.get_lowest 0)
  have hfile : (t.open script).2.file n =
      if n = t.lowest 0 then some script else t.file n := by
    rw [Fds.open, Fds.file_set]
    rfl
  have hfile' : ((t.open script).2.open temp).2.file n =
      if n = (t.open script).2.lowest 0 then some temp else (t.open script).2.file n := by
    rw [Fds.open, Fds.file_set]
    rfl
  rw [Fds.file_close, Fds.file_close, hfile', hfile]
  change (if n = (t.open script).2.lowest 0 then none else if n = t.lowest 0 then none
    else _) = _
  by_cases h1 : n = (t.open script).2.lowest 0
  · rw [if_pos h1]
    rw [← h1, hfile] at hfree'
    split_ifs at hfree' with h2
    exact hfree'.symm
  · by_cases h2 : n = t.lowest 0
    · rw [if_neg h1, if_pos h2, h2, hfree]
    · simp only [if_neg h1, if_neg h2]

/-- A redirection changes one descriptor. -/
theorem file_redirect {ioufd : ℕ} {op : Op} (h : redirect ioufd op t = .ok t') (hn : n ≠ ioufd) :
    t'.file n = t.file n := by
  cases op with
  | skip => rw [← Except.ok.inj h]
  | doc script temp expanded =>
    cases script with
    | none => cases h
    | some script =>
      cases temp with
      | none => cases h
      | some temp =>
        cases expanded with
        | none => cases h
        | some expanded =>
          rw [← Except.ok.inj h]
          exact (file_open_renamef ..).trans ((if_neg hn).trans (file_doc ..))
  | mov ion =>
    cases ion with
    | minus => rw [← Except.ok.inj h, Fds.file_close, if_neg hn]
    | number m fails =>
      cases fails with
      | true =>
        simp only [redirect, if_true] at h
        split_ifs at h
        rw [← Except.ok.inj h]
      | false =>
        simp only [redirect, Bool.false_eq_true, if_false] at h
        split_ifs at h with hm
        cases hget : t.get m with
        | none =>
          have hdup : t.dup m 0 = (none, t) := by rw [Fds.dup, hget]
          rw [hdup] at h
          rw [← Except.ok.inj h]
        | some fd =>
          have hdup := Fds.dup_eq hget 0
          have hmove := file_dup_renamef hget ioufd n
          rw [hdup] at h hmove
          rw [← Except.ok.inj h, hmove, if_neg hn]
    | other => cases h
  | «open» file =>
    cases file with
    | none => cases h
    | some file =>
      rw [← Except.ok.inj h]
      exact (file_open_renamef ..).trans (if_neg hn)

/-- What `savefd` does for a descriptor below 10. -/
theorem savefd_eq (fails : Bool) (e : ℕ) (t : Fds) :
    (savefd fails e t = (none, t) ∧ (fails = true ∨ t.file e = none)) ∨
      ∃ m fd, 10 ≤ m ∧ t.file m = none ∧ fails = false ∧ t.get e = some fd ∧
        savefd fails e t = (some m, t.set m (some { fd with cloexec := false })) := by
  unfold savefd
  cases fails with
  | true => exact .inl ⟨rfl, .inl rfl⟩
  | false =>
    cases hget : t.get e with
    | none =>
      refine .inl ⟨?_, .inr (Fds.file_eq_none.mpr hget)⟩
      rw [Fds.dup, hget]
      rfl
    | some fd =>
      refine .inr ⟨t.lowest 10, fd, t.le_lowest 10, Fds.file_eq_none.mpr (t.get_lowest 10), rfl,
        rfl, Fds.dup_eq hget 10⟩

end Unitas.Sh.Io
