import Mathlib.Data.Nat.Basic
import Mathlib.Logic.Function.Basic
import Unitas.Lib.Transition

/-! The z-lock of the SCCS commands: `lockit` and `unlockit` as a transition system in
which every file-system call is one step and processes may die between any two. -/
namespace Unitas.Sccs.Lockit
open Unitas.Transition

abbrev Pid := ℕ

/-- A lock file. `owner` is the process that created it; `pid` and `name` are what has been
written into it so far, the second meaning that the node name is there. -/
structure Inode where
  owner : Pid
  pid : Option Pid
  name : Bool
  mtime : ℕ

/-- The next system call of a process. -/
inductive Pc
  | idle
  -- onelock
  | create | writePid | writeName | unlinkPartial
  -- the rest of the loop of lockit
  | statLock | openLock | readPid | readName | kill | statAgain | unlinkStale | sleep
  | critical
  -- unlockit
  | unlockOpen | unlockReadPid | unlockReadName | unlockUnlink
  deriving DecidableEq, Repr

/-- A process with its variables. `ouuname` tells whether the buffer of that name compares
equal to `uuname`, and `offset` whether the descriptor is past a process id. -/
structure Proc where
  alive : Bool
  pc : Pc
  count : ℕ
  opid : Pid
  ouuname : Bool
  omtime : ℕ
  fd : ℕ
  offset : Bool

structure State where
  lock : Option ℕ
  inodes : ℕ → Inode
  next : ℕ
  now : ℕ
  procs : Pid → Proc

inductive Act
  /-- A call of `lockit`; the second argument is what the uninitialised `opid` holds. -/
  | lockit (count : ℕ) (opid : Pid)
  /-- The pending system call succeeds as far as the file system lets it. -/
  | sys
  /-- The pending `open` or `write` fails for a reason of its own. -/
  | fail
  | unlockit
  | die

def State.setProc (s : State) (p : Pid) (q : Proc) : State :=
  { s with procs := Function.update s.procs p q }

def State.setInode (s : State) (i : ℕ) (n : Inode) : State :=
  { s with inodes := Function.update s.inodes i n }

/-- `continue` in the loop of `lockit`: `sleep(10)` and `--count`. -/
def Proc.retry (q : Proc) : Proc :=
  { q with count := q.count - 1, pc := if q.count - 1 = 0 then .idle else .create }

/-- One successful system call of process `p`. `looksLike` tells whether the bytes of a
process id, read where the node name was expected, compare equal to that name. -/
def State.sys (looksLike : Pid → Bool) (s : State) (p : Pid) : Option State :=
  let q := s.procs p
  match q.pc with
  | .idle | .critical => none
  | .create =>
    match s.lock with
    | none => some { s.setInode s.next ⟨p, none, false, s.now⟩ with
        lock := some s.next
        next := s.next + 1
        procs := Function.update s.procs p { q with fd := s.next, pc := .writePid } }
    | some _ => some (s.setProc p { q with pc := .statLock })
  | .writePid =>
    some ((s.setInode q.fd { s.inodes q.fd with pid := some p, mtime := s.now }).setProc p
      { q with pc := .writeName })
  | .writeName =>
    some ((s.setInode q.fd { s.inodes q.fd with name := true, mtime := s.now }).setProc p
      { q with pc := .critical })
  | .unlinkPartial => some { s.setProc p { q with pc := .idle } with lock := none }
  | .statLock =>
    match s.lock with
    | none => some (s.setProc p q.retry)
    | some i => some (s.setProc p { q with omtime := (s.inodes i).mtime, pc := .openLock })
  | .openLock =>
    match s.lock with
    | none => some (s.setProc p q.retry)
    | some i => some (s.setProc p { q with fd := i, pc := .readPid })
  | .readPid =>
    match (s.inodes q.fd).pid with
    -- A read of no bytes leaves `opid` from the last retry.
    | none => some (s.setProc p { q with offset := false, pc := .readName })
    | some o => some (s.setProc p { q with opid := o, offset := true, pc := .readName })
  | .readName =>
    let n := s.inodes q.fd
    let ouuname :=
      if q.offset then q.ouuname || n.name
      else match n.pid with
        | none => q.ouuname
        | some o => looksLike o
    some (s.setProc p { q with ouuname, pc := if ouuname then .kill else .sleep })
  | .kill =>
    some (s.setProc p { q with pc := if (s.procs q.opid).alive then .sleep else .statAgain })
  | .statAgain =>
    match s.lock with
    | none => some (s.setProc p { q with pc := .sleep })
    | some i => some (s.setProc p
        { q with pc := if (s.inodes i).mtime = q.omtime then .unlinkStale else .sleep })
  | .unlinkStale => some { s.setProc p q.retry with lock := none }
  | .sleep => some (s.setProc p q.retry)
  | .unlockOpen =>
    match s.lock with
    | none => some (s.setProc p { q with pc := .idle })
    | some i => some (s.setProc p { q with fd := i, pc := .unlockReadPid })
  | .unlockReadPid =>
    match (s.inodes q.fd).pid with
    | none => some (s.setProc p { q with offset := false, pc := .unlockReadName })
    | some o => some (s.setProc p { q with opid := o, offset := true, pc := .unlockReadName })
  | .unlockReadName =>
    let equal := (s.inodes q.fd).name
    some (s.setProc p { q with
      pc := if q.offset ∧ q.opid = p ∧ equal then .unlockUnlink else .idle })
  | .unlockUnlink => some { s.setProc p { q with pc := .idle } with lock := none }

/-- The pending call of process `p` fails: `onelock` then undoes its work and gives up
through `xmsg`, the loop of `lockit` goes on, `unlockit` returns -1. -/
def State.fail (s : State) (p : Pid) : Option State :=
  let q := s.procs p
  match q.pc with
  | .create => some (s.setProc p { q with pc := .idle })
  | .writePid | .writeName => some (s.setProc p { q with pc := .unlinkPartial })
  | .openLock => some (s.setProc p q.retry)
  | .unlockOpen => some (s.setProc p { q with pc := .idle })
  | _ => none

def State.act (looksLike : Pid → Bool) (s : State) (p : Pid) : Act → Option State
  | .lockit count opid =>
    let q := s.procs p
    if q.pc = .idle then
      some (s.setProc p { q with
        count, opid, ouuname := false, pc := if count = 0 then .idle else .create })
    else none
  | .sys => s.sys looksLike p
  | .fail => s.fail p
  | .unlockit =>
    let q := s.procs p
    if q.pc = .critical then some (s.setProc p { q with pc := .unlockOpen }) else none
  | .die => some (s.setProc p { s.procs p with alive := false })

inductive Label
  | tick
  | act (p : Pid) (a : Act)

/-- Dead processes do nothing; time passes at will. -/
def step (looksLike : Pid → Bool) (s : State) : Label → Option State
  | .tick => some { s with now := s.now + 1 }
  | .act p a => if (s.procs p).alive then s.act looksLike p a else none

/-- No process is inside `lockit`, its critical section or `unlockit`. A lock file may be
left over. -/
def State.Initial (s : State) : Prop := ∀ p, (s.procs p).pc = .idle

/-- After a successful `lockit` and before the `unlockit` has taken the lock away. -/
def Pc.holding : Pc → Bool
  | .critical | .unlockOpen | .unlockReadPid | .unlockReadName | .unlockUnlink => true
  | _ => false

def State.Holds (s : State) (p : Pid) : Prop :=
  (s.procs p).alive = true ∧ (s.procs p).pc.holding = true

instance (s : State) (p : Pid) : Decidable (s.Holds p) := inferInstanceAs (Decidable (_ ∧ _))

/-- The stale-lock `unlink` finds the lock file gone or its creator dead. -/
def StaleIsDead (s : State) : Label → Prop
  | .act p .sys => (s.procs p).pc = .unlinkStale →
    ∀ i, s.lock = some i → (s.procs (s.inodes i).owner).alive = false
  | _ => True

instance (s : State) : DecidablePred (StaleIsDead s)
  | .tick => .isTrue trivial
  | .act _ (.lockit ..) | .act _ .fail | .act _ .unlockit | .act _ .die => .isTrue trivial
  | .act p .sys =>
    match h : s.lock with
    | none => .isTrue fun _ i hi => by rw [h] at hi; exact absurd hi (by simp)
    | some i =>
      decidable_of_iff ((s.procs p).pc = .unlinkStale → (s.procs (s.inodes i).owner).alive = false)
        (by simp [StaleIsDead, h])

section Exclusion

/-- Between its `creat` and its `unlink` the lock file in place is the process's own. -/
def Pc.owning : Pc → Bool
  | .writePid | .writeName | .unlinkPartial => true
  | pc => pc.holding

def State.Owned (s : State) : Prop :=
  ∀ p, (s.procs p).alive = true → (s.procs p).pc.owning = true →
    ∃ i, s.lock = some i ∧ (s.inodes i).owner = p

theorem owned_initial {s : State} (h : s.Initial) : s.Owned := by
  intro p _ hp
  rw [h p] at hp
  exact absurd hp (by decide)

/-- A step that keeps the lock file and its creator, and takes no process into the owning
part, keeps the invariant. -/
theorem Owned.of_frame {s s' : State} (h : s.Owned) (hl : s'.lock = s.lock)
    (ho : ∀ i, (s'.inodes i).owner = (s.inodes i).owner)
    (hp : ∀ p, (s'.procs p).alive = true → (s'.procs p).pc.owning = true →
      (s.procs p).alive = true ∧ (s.procs p).pc.owning = true) : s'.Owned := by
  intro p ha hw
  obtain ⟨ha', hw'⟩ := hp p ha hw
  obtain ⟨i, hi, hio⟩ := h p ha' hw'
  exact ⟨i, hl.trans hi, (ho i).trans hio⟩

theorem Owned.setProc {s : State} (h : s.Owned) (p : Pid) (q : Proc)
    (hq : q.alive = true → q.pc.owning = true →
      (s.procs p).alive = true ∧ (s.procs p).pc.owning = true) : (s.setProc p q).Owned := by
  refine Owned.of_frame h rfl (fun _ => rfl) fun r ha hw => ?_
  by_cases hr : r = p
  · subst hr
    simp only [State.setProc, Function.update_self] at ha hw
    exact hq ha hw
  · simp only [State.setProc, Function.update_of_ne hr] at ha hw
    exact ⟨ha, hw⟩

theorem Owned.setInode {s : State} (h : s.Owned) (i : ℕ) (n : Inode)
    (hn : n.owner = (s.inodes i).owner) : (s.setInode i n).Owned := by
  refine Owned.of_frame h rfl (fun j => ?_) fun _ ha hw => ⟨ha, hw⟩
  by_cases hj : j = i
  · subst hj
    simp [State.setInode, hn]
  · simp [State.setInode, hj]

/-- Once the lock file is gone no live process may be left owning one. -/
theorem Owned.unlock {s : State} (p : Pid) (q : Proc) (hq : q.pc.owning = false)
    (hr : ∀ r, r ≠ p → (s.procs r).alive = true → (s.procs r).pc.owning = false) :
    State.Owned { s.setProc p q with lock := none } := by
  intro r ha hw
  by_cases hp : r = p
  · subst hp
    simp [State.setProc, hq] at hw
  · simp only [State.setProc, Function.update_of_ne hp] at ha hw
    rw [hr r hp ha] at hw
    exact absurd hw (by decide)

/-- Only one live process owns the lock file. -/
theorem Owned.unique {s : State} (h : s.Owned) {p r : Pid} (ha : (s.procs p).alive = true)
    (hw : (s.procs p).pc.owning = true) (hr : r ≠ p) (har : (s.procs r).alive = true) :
    (s.procs r).pc.owning = false := by
  by_contra hc
  obtain ⟨i, hi, hio⟩ := h p ha hw
  obtain ⟨j, hj, hjo⟩ := h r har (by simpa using hc)
  rw [hi] at hj
  rw [← Option.some.inj hj, hio] at hjo
  exact hr hjo.symm

theorem owning_retry (q : Proc) : q.retry.pc.owning = false := by
  simp only [Proc.retry]
  split_ifs <;> rfl

theorem owned_sys {looksLike : Pid → Bool} {s s' : State} {p : Pid} (h : s.Owned)
    (hok : StaleIsDead s (.act p .sys)) (ha : (s.procs p).alive = true)
    (hs : s.sys looksLike p = some s') : s'.Owned := by
  have hown : ∀ q : Proc, (s.procs p).pc.owning = true → (q.alive = true → q.pc.owning = true →
      (s.procs p).alive = true ∧ (s.procs p).pc.owning = true) := fun _ hw _ _ => ⟨ha, hw⟩
  have hnot : ∀ q : Proc, q.pc.owning = false → (q.alive = true → q.pc.owning = true →
      (s.procs p).alive = true ∧ (s.procs p).pc.owning = true) := by
    intro q hq _ hw
    rw [hq] at hw
    exact absurd hw (by decide)
  have hretry := hnot (s.procs p).retry (owning_retry _)
  unfold State.sys at hs
  cases hpc : (s.procs p).pc <;> simp only [hpc] at hs
  case idle | critical => exact absurd hs (by simp)
  case create =>
    cases hl : s.lock with
    | none =>
      simp only [hl, Option.some.injEq] at hs
      subst hs
      intro r har hwr
      by_cases hr : r = p
      · exact ⟨s.next, rfl, by simp [State.setInode, hr]⟩
      · simp only [Function.update_of_ne hr] at har hwr
        obtain ⟨i, hi, -⟩ := h r har hwr
        rw [hl] at hi
        exact absurd hi (by simp)
    | some i =>
      simp only [hl, Option.some.injEq] at hs
      subst hs
      exact Owned.setProc h p _ (hnot _ rfl)
  case writePid | writeName =>
    rw [← Option.some.inj hs]
    refine Owned.setProc (Owned.setInode h _ _ ?_) p _ fun _ _ => ⟨ha, by rw [State.setInode, hpc]; rfl⟩
    rfl
  case unlinkPartial | unlockUnlink =>
    rw [← Option.some.inj hs]
    refine Owned.unlock p _ rfl fun r hr har => ?_
    exact Owned.unique h ha (by rw [hpc]; rfl) hr har
  case statLock | openLock =>
    cases hl : s.lock <;> simp only [hl, Option.some.injEq] at hs <;> subst hs
    · exact Owned.setProc h p _ hretry
    · exact Owned.setProc h p _ (hnot _ rfl)
  case readPid =>
    split at hs <;> rw [← Option.some.inj hs] <;> exact Owned.setProc h p _ (hnot _ rfl)
  case readName =>
    rw [← Option.some.inj hs]
    refine Owned.setProc h p _ (hnot _ ?_)
    dsimp only
    split_ifs <;> rfl
  case kill =>
    rw [← Option.some.inj hs]
    refine Owned.setProc h p _ (hnot _ ?_)
    dsimp only
    split_ifs <;> rfl
  case statAgain =>
    cases hl : s.lock <;> simp only [hl, Option.some.injEq] at hs <;> subst hs
    · exact Owned.setProc h p _ (hnot _ rfl)
    · refine Owned.setProc h p _ (hnot _ ?_)
      dsimp only
      split_ifs <;> rfl
  case unlinkStale =>
    rw [← Option.some.inj hs]
    refine Owned.unlock p _ (owning_retry _) fun r hr har => ?_
    -- A live owner would be the creator of the file in place, which is dead here.
    by_contra hc
    obtain ⟨i, hi, hio⟩ := h r har (by simpa using hc)
    have hdead := hok hpc i hi
    rw [hio, har] at hdead
    exact absurd hdead (by decide)
  case sleep =>
    rw [← Option.some.inj hs]
    exact Owned.setProc h p _ hretry
  case unlockOpen =>
    cases hl : s.lock <;> simp only [hl, Option.some.injEq] at hs <;> subst hs
    · exact Owned.setProc h p _ (hnot _ rfl)
    · exact Owned.setProc h p _ (hown _ (by rw [hpc]; rfl))
  case unlockReadPid =>
    split at hs <;> rw [← Option.some.inj hs] <;> exact Owned.setProc h p _ (hown _ (by rw [hpc]; rfl))
  case unlockReadName =>
    rw [← Option.some.inj hs]
    exact Owned.setProc h p _ (hown _ (by rw [hpc]; rfl))

theorem owned_fail {s s' : State} {p : Pid} (h : s.Owned) (ha : (s.procs p).alive = true)
    (hs : s.fail p = some s') : s'.Owned := by
  unfold State.fail at hs
  cases hpc : (s.procs p).pc <;> simp only [hpc, Option.some.injEq, reduceCtorEq] at hs
  case create | unlockOpen =>
    subst hs
    exact Owned.setProc h p _ fun _ hw => Bool.noConfusion hw
  case writePid | writeName =>
    subst hs
    exact Owned.setProc h p _ fun _ _ => ⟨ha, by rw [hpc]; rfl⟩
  case openLock =>
    subst hs
    refine Owned.setProc h p _ fun _ hw => ?_
    rw [owning_retry] at hw
    exact absurd hw (by decide)

theorem owned_step {looksLike : Pid → Bool} {s s' : State} {l : Label} (h : s.Owned)
    (hok : StaleIsDead s l) (hs : step looksLike s l = some s') : s'.Owned := by
  cases l with
  | tick =>
    rw [← Option.some.inj hs]
    exact h
  | act p a =>
    rw [step] at hs
    split_ifs at hs with ha
    cases a with
    | sys => exact owned_sys h hok ha hs
    | fail => exact owned_fail h ha hs
    | lockit count opid =>
      simp only [State.act] at hs
      split_ifs at hs with hpc hc <;> rw [← Option.some.inj hs] <;>
        exact Owned.setProc h p _ fun _ hw => Bool.noConfusion hw
    | unlockit =>
      simp only [State.act] at hs
      split_ifs at hs with hpc
      rw [← Option.some.inj hs]
      exact Owned.setProc h p _ fun _ _ => ⟨ha, by rw [hpc]; rfl⟩
    | die =>
      rw [← Option.some.inj hs]
      exact Owned.setProc h p _ fun hd _ => Bool.noConfusion hd

theorem owning_of_holding {pc : Pc} (h : pc.holding = true) : pc.owning = true := by
  cases pc <;> first | rfl | exact absurd h (by decide)

/-- As long as the stale-lock `unlink` only ever hits a dead process's file, no two live
processes are between `lockit` and `unlockit` together. -/
theorem lockit_exclusive {looksLike : Pid → Bool} {s₀ s : State} (h0 : s₀.Initial)
    (h : Reach (step looksLike) StaleIsDead s₀ s) {p q : Pid} (hp : s.Holds p) (hq : s.Holds q) :
    p = q := by
  have ho : s.Owned := h.invariant (owned_initial h0) fun _ _ _ hi hok hs => owned_step hi hok hs
  by_contra hne
  have hn := Owned.unique ho hq.1 (owning_of_holding hq.2) hne hp.1
  rw [owning_of_holding hp.2] at hn
  exact absurd hn (by decide)

end Exclusion

section Race

/-- Live processes that have not called `lockit` yet, and no lock file. -/
def idleState : State where
  lock := none
  inodes := fun _ => ⟨0, none, false, 0⟩
  next := 0
  now := 0
  procs := fun _ => ⟨true, .idle, 0, 0, false, 0, 0, false⟩

theorem idleState_initial : idleState.Initial := fun _ => rfl

/-- `n` successful system calls of one process. -/
def calls (p : Pid) (n : ℕ) : List Label := List.replicate n (.act p .sys)

/-- Process 3 takes the lock and dies. Processes 1 and 2 both find it dead and both pass the
second `exists`. Then 1 removes the lock file and takes the lock, and 2 removes 1's file. -/
def race : List Label :=
  [.act 3 (.lockit 1 0)] ++ calls 3 3 ++ [.act 3 .die] ++
  [.act 1 (.lockit 2 0)] ++ calls 1 7 ++
  [.act 2 (.lockit 2 0)] ++ calls 2 7 ++
  calls 1 4 ++ calls 2 4

theorem lockit_not_exclusive :
    ¬ ∀ (s₀ s : State) (p q : Pid), s₀.Initial →
      Reach (step fun _ => false) (fun _ _ => True) s₀ s → s.Holds p → s.Holds q → p = q := by
  intro h
  have hr : (run (step fun _ => false) race idleState).any
      (fun s => decide (s.Holds 1) && decide (s.Holds 2)) = true := by decide
  obtain ⟨s, hs, hb⟩ := exists_of_run_any _ _ _ _ hr
  simp only [Bool.and_eq_true, decide_eq_true_eq] at hb
  exact absurd (h idleState s 1 2 idleState_initial
    (reach_of_run hs (runOk_of_forall (fun _ _ => trivial) _)) hb.1 hb.2) (by decide)

/-- Process 3 dies holding the lock; process 1 clears it away and is then the only holder. -/
theorem lockit_exclusive_takeover :
    ∃ s, run (step fun _ => false) ([.act 3 (.lockit 1 0)] ++ calls 3 3 ++ [.act 3 .die] ++
      [.act 1 (.lockit 2 0)] ++ calls 1 11) idleState = some s ∧
      s.Holds 1 ∧ ∀ q, s.Holds q → 1 = q := by
  have hrun : (run (step fun _ => false) ([.act 3 (.lockit 1 0)] ++ calls 3 3 ++ [.act 3 .die] ++
      [.act 1 (.lockit 2 0)] ++ calls 1 11) idleState).any (fun s => decide (s.Holds 1)) = true := by
    decide
  obtain ⟨s, hs, hb⟩ := exists_of_run_any _ _ _ _ hrun
  have hp : s.Holds 1 := of_decide_eq_true hb
  have hr : Reach (step fun _ => false) StaleIsDead idleState s := reach_of_run hs (by decide)
  exact ⟨s, hs, hp, fun q hq => lockit_exclusive idleState_initial hr hp hq⟩

end Race

end Unitas.Sccs.Lockit
