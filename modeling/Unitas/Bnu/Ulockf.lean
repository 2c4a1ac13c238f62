import Mathlib.Data.Nat.Basic
import Mathlib.Logic.Function.Basic
import Unitas.Lib.Ownership
import Unitas.Lib.Transition

/-! The lock files of `uucp`: `mklock`, `cklock` and `rmlock` of one name as a transition
system in which every file-system call is one step and processes may die between any two. -/
namespace Unitas.Bnu.Ulockf
open Unitas.Transition Unitas.Ownership

abbrev Pid := ℕ

/-- A file under the lock's name or a temporary one. `owner` is the process that created it;
`pid` is what has been written into it. -/
structure Inode where
  owner : Pid
  pid : Option Pid

/-- The next system call of a process. `mklock` calls `onelock` once or, the argument, twice. -/
inductive Pc
  | idle
  -- onelock
  | creat (second : Bool) | write (second : Bool) | link (second : Bool) | unlinkLinked
  | unlinkUnlinked (second : Bool)
  -- mklock
  | unlinkTemp (second : Bool)
  -- cklock
  | openName | read | kill | unlinkName
  | critical
  | rmlock
  deriving DecidableEq, Repr

structure Proc where
  alive : Bool
  pc : Pc
  fd : ℕ
  lpid : Pid

/-- `name` is the file under the lock's name and `tempfile` that under each process's own. -/
structure State where
  name : Option ℕ
  tempfile : Pid → Option ℕ
  inodes : ℕ → Inode
  next : ℕ
  procs : Pid → Proc

inductive Act
  | mklock
  /-- The pending system call succeeds as far as the file system lets it. -/
  | sys
  /-- The pending system call fails for a reason of its own: `full` if some table is. -/
  | fail (full : Bool)
  | rmlock
  | die

def State.setProc (s : State) (p : Pid) (q : Proc) : State :=
  { s with procs := Function.update s.procs p q }

/-- Process `p` goes on at `pc`. -/
def State.goto (s : State) (p : Pid) (pc : Pc) : State :=
  s.setProc p { s.procs p with pc }

def State.setInode (s : State) (i : ℕ) (n : Inode) : State :=
  { s with inodes := Function.update s.inodes i n }

/-- Where `mklock` goes on once `onelock` has failed. -/
def failed (second : Bool) : Pc := if second then .idle else .openName

/-- One successful system call of process `p`. -/
def State.sys (s : State) (p : Pid) : Option State :=
  let q := s.procs p
  match q.pc with
  | .idle | .critical => none
  | .creat second =>
    match s.tempfile p with
    | none => some { s.setInode s.next ⟨p, none⟩ with
        tempfile := Function.update s.tempfile p (some s.next)
        next := s.next + 1
        procs := Function.update s.procs p { q with fd := s.next, pc := .write second } }
    -- The file is there from an `unlink` that failed.
    | some i => some ((s.setInode i { s.inodes i with pid := none }).setProc p
        { q with fd := i, pc := .write second })
  | .write second =>
    some ((s.setInode q.fd { s.inodes q.fd with pid := some p }).goto p (.link second))
  | .link second =>
    match s.tempfile p, s.name with
    | some i, none => some { s.goto p .unlinkLinked with name := some i }
    | _, _ => some (s.goto p (.unlinkUnlinked second))
  | .unlinkLinked =>
    some { s.goto p .critical with tempfile := Function.update s.tempfile p none }
  | .unlinkUnlinked second =>
    some { s.goto p (.unlinkTemp second) with tempfile := Function.update s.tempfile p none }
  | .unlinkTemp second =>
    some { s.goto p (failed second) with tempfile := Function.update s.tempfile p none }
  | .openName =>
    match s.name with
    | none => some (s.goto p (.creat true))
    | some i => some (s.setProc p { q with fd := i, pc := .read })
  | .read =>
    match (s.inodes q.fd).pid with
    -- bad format
    | none => some (s.goto p .unlinkName)
    | some lpid => some (s.setProc p { q with lpid, pc := .kill })
  | .kill => some (s.goto p (if (s.procs q.lpid).alive then .idle else .unlinkName))
  | .unlinkName =>
    match s.name with
    | none => some (s.goto p .idle)
    | some _ => some { s.goto p (.creat true) with name := none }
  | .rmlock => some { s.goto p .idle with name := none }

/-- The pending call of process `p` fails. -/
def State.fail (s : State) (p : Pid) (full : Bool) : Option State :=
  match (s.procs p).pc with
  | .idle | .critical | .kill => none
  | .creat second => some (s.goto p (if full then .unlinkUnlinked second else .unlinkTemp second))
  | .write second | .link second => some (s.goto p (.unlinkUnlinked second))
  | .unlinkLinked => some (s.goto p .critical)
  | .unlinkUnlinked second => some (s.goto p (.unlinkTemp second))
  | .unlinkTemp second => some (s.goto p (failed second))
  -- can't read, bad format
  | .openName | .read => some (s.goto p .unlinkName)
  | .unlinkName | .rmlock => some (s.goto p .idle)

def State.act (s : State) (p : Pid) : Act → Option State
  | .mklock => if (s.procs p).pc = .idle then some (s.goto p (.creat false)) else none
  | .sys => s.sys p
  | .fail full => s.fail p full
  -- Without the name in its list `rmlock` does nothing.
  | .rmlock =>
    if (s.procs p).pc = .critical then some (s.goto p .rmlock)
    else if (s.procs p).pc = .idle then some s else none
  | .die => some (s.setProc p { s.procs p with alive := false })

structure Label where
  p : Pid
  act : Act

/-- Dead processes do nothing. -/
def step (s : State) (l : Label) : Option State :=
  if (s.procs l.p).alive then s.act l.p l.act else none

/-- No process is between `mklock` and `rmlock`. A lock file, and temporary files, may be left
over. -/
structure State.Initial (s : State) : Prop where
  idle : ∀ p, (s.procs p).pc = .idle
  name : ∀ i, s.name = some i → i < s.next
  tempfile : ∀ p i, s.tempfile p = some i → i < s.next ∧ (s.inodes i).owner = p

/-- After a successful `mklock`, until `rmlock` has removed the file. -/
def State.Holds (s : State) (p : Pid) : Prop :=
  (s.procs p).alive = true ∧ ((s.procs p).pc = .critical ∨ (s.procs p).pc = .rmlock)

instance (s : State) (p : Pid) : Decidable (s.Holds p) := inferInstanceAs (Decidable (_ ∧ _))

/-- The `unlink` in `cklock` finds no lock file, or that of a dead process. -/
def TakesDead (s : State) : Label → Prop
  | ⟨p, .sys⟩ => (s.procs p).pc = .unlinkName →
    ∀ i, s.name = some i → (s.procs (s.inodes i).owner).alive = false
  | _ => True

instance (s : State) : DecidablePred (TakesDead s)
  | ⟨_, .mklock⟩ | ⟨_, .fail _⟩ | ⟨_, .rmlock⟩ | ⟨_, .die⟩ => .isTrue trivial
  | ⟨p, .sys⟩ => inferInstanceAs (Decidable ((s.procs p).pc = .unlinkName →
      ∀ i, s.name = some i → (s.procs (s.inodes i).owner).alive = false))

section Exclusion

/-- The lock file in place must be the process's own. -/
def Pc.owning : Pc → Bool
  | .unlinkLinked | .critical | .rmlock => true
  | _ => false

def State.Owning (s : State) (p : Pid) : Prop :=
  (s.procs p).alive = true ∧ (s.procs p).pc.owning = true

structure State.Inv (s : State) : Prop where
  owned : Owned s.name (fun i => (s.inodes i).owner) s.Owning
  name : ∀ i, s.name = some i → i < s.next
  tempfile : ∀ p i, s.tempfile p = some i → i < s.next ∧ (s.inodes i).owner = p

theorem inv_initial {s : State} (h : s.Initial) : s.Inv := by
  refine ⟨Owned.release fun p hp => ?_, h.name, h.tempfile⟩
  have := hp.2
  rw [h.idle p] at this
  exact absurd this (by decide)

/-- After a change of process `p` alone, who is in the owning part. -/
theorem owning_setProc {s : State} {p : Pid} {q : Proc} {r : Pid} (h : (s.setProc p q).Owning r) :
    (r = p ∧ q.alive = true ∧ q.pc.owning = true) ∨ (r ≠ p ∧ s.Owning r) := by
  by_cases hr : r = p
  · subst hr
    simp only [State.Owning, State.setProc, Function.update_self] at h
    exact .inl ⟨rfl, h⟩
  · simp only [State.Owning, State.setProc, Function.update_of_ne hr] at h
    exact .inr ⟨hr, h⟩

theorem Inv.setProc {s : State} (h : s.Inv) (p : Pid) (q : Proc)
    (hq : q.alive = true → q.pc.owning = true → s.Owning p) : (s.setProc p q).Inv := by
  refine ⟨h.owned.frame (fun _ _ => rfl) fun r hr => ?_, h.name, h.tempfile⟩
  rcases owning_setProc hr with ⟨rfl, ha, hw⟩ | ⟨-, hr⟩
  · exact hq ha hw
  · exact hr

theorem Inv.goto {s : State} (h : s.Inv) {p : Pid} {pc : Pc}
    (hpc : pc.owning = true → s.Owning p) : (s.goto p pc).Inv :=
  Inv.setProc h p _ fun _ hw => hpc hw

theorem owner_setInode {s : State} {i : ℕ} {n : Inode} (hn : n.owner = (s.inodes i).owner) (j : ℕ) :
    ((s.setInode i n).inodes j).owner = (s.inodes j).owner := by
  by_cases hj : j = i
  · subst hj
    simp [State.setInode, hn]
  · simp [State.setInode, hj]

theorem Inv.setInode {s : State} (h : s.Inv) (i : ℕ) (n : Inode)
    (hn : n.owner = (s.inodes i).owner) : (s.setInode i n).Inv := by
  refine ⟨h.owned.frame (fun j _ => owner_setInode hn j) fun _ hr => hr, h.name, fun p j hj => ?_⟩
  obtain ⟨hlt, ho⟩ := h.tempfile p j hj
  exact ⟨hlt, (owner_setInode hn j).trans ho⟩

/-- A temporary file is unlinked. -/
theorem Inv.unlinkTemp {s : State} (h : s.Inv) (p : Pid) :
    State.Inv { s with tempfile := Function.update s.tempfile p none } := by
  refine ⟨h.owned, h.name, fun r i hi => ?_⟩
  by_cases hr : r = p
  · subst hr
    simp at hi
  · exact h.tempfile r i (by simpa [hr] using hi)

/-- A temporary file is created. -/
theorem Inv.creat {s : State} (h : s.Inv) (p : Pid) :
    State.Inv { s.setInode s.next ⟨p, none⟩ with
      tempfile := Function.update s.tempfile p (some s.next), next := s.next + 1 } := by
  have hold (i) (hi : i < s.next) :
      ((s.setInode s.next ⟨p, none⟩).inodes i).owner = (s.inodes i).owner := by
    simp [State.setInode, Nat.ne_of_lt hi]
  refine ⟨h.owned.frame (fun i hi => hold i (h.name i hi)) fun _ hr => hr,
    fun i hi => Nat.lt_succ_of_lt (h.name i hi), fun r i hi => ?_⟩
  by_cases hr : r = p
  · subst hr
    obtain rfl : s.next = i := by simpa using hi
    exact ⟨Nat.lt_succ_self _, by simp [State.setInode]⟩
  · obtain ⟨hlt, ho⟩ := h.tempfile r i (by simpa [hr] using hi)
    exact ⟨Nat.lt_succ_of_lt hlt, (hold i hlt).trans ho⟩

/-- The temporary file becomes the lock file. -/
theorem Inv.link {s : State} (h : s.Inv) {p : Pid} {i : ℕ} (hi : s.tempfile p = some i)
    (hname : s.name = none) : State.Inv { s.goto p .unlinkLinked with name := some i } := by
  obtain ⟨hlt, ho⟩ := h.tempfile p i hi
  refine ⟨Owned.take fun r hr => ?_, fun j hj => Option.some.inj hj ▸ hlt, h.tempfile⟩
  have hno := hname ▸ h.owned
  rcases owning_setProc (s := s) hr with ⟨rfl, -⟩ | ⟨-, hr⟩
  · exact ho.symm
  · exact absurd hr (hno.not_owning r)

/-- The lock file is removed, by a process that then owns nothing, when no other owns it. -/
theorem Inv.unlink {s : State} (h : s.Inv) {p : Pid} {pc : Pc} (hpc : pc.owning = false)
    (hr : ∀ r, r ≠ p → ¬ s.Owning r) : State.Inv { s.goto p pc with name := none } := by
  refine ⟨Owned.release fun r hown => ?_, fun i hi => absurd hi (by simp), h.tempfile⟩
  rcases owning_setProc (s := s) hown with ⟨-, -, hw⟩ | ⟨hne, hown⟩
  · rw [hpc] at hw
    exact Bool.noConfusion hw
  · exact hr r hne hown

theorem owning_failed (second : Bool) : (failed second).owning = false := by
  cases second <;> rfl

theorem not_owning {pc : Pc} {P : Prop} (h : pc.owning = false) : pc.owning = true → P := by
  rw [h]
  exact Bool.noConfusion

theorem inv_sys {s s' : State} {p : Pid} (h : s.Inv) (hok : TakesDead s ⟨p, .sys⟩)
    (ha : (s.procs p).alive = true) (hs : s.sys p = some s') : s'.Inv := by
  unfold State.sys at hs
  cases hpc : (s.procs p).pc <;> simp only [hpc] at hs
  case idle | critical => exact absurd hs (by simp)
  case creat second =>
    cases ht : s.tempfile p <;> simp only [ht, Option.some.injEq] at hs <;> subst hs
    · refine Inv.setProc (Inv.creat h p) p _ fun _ => not_owning ?_
      rfl
    · refine Inv.setProc (Inv.setInode h _ _ ?_) p _ fun _ => not_owning ?_ <;> rfl
  case write second =>
    obtain rfl := Option.some.inj hs
    refine Inv.goto (Inv.setInode h _ _ ?_) (not_owning ?_) <;> rfl
  case link second =>
    split at hs <;> obtain rfl := Option.some.inj hs
    next i ht hn => exact Inv.link h ht hn
    next => exact Inv.goto h (not_owning rfl)
  case unlinkLinked =>
    obtain rfl := Option.some.inj hs
    exact Inv.unlinkTemp (Inv.goto h fun _ => ⟨ha, by rw [hpc]; rfl⟩) p
  case unlinkUnlinked second =>
    obtain rfl := Option.some.inj hs
    exact Inv.unlinkTemp (Inv.goto h (not_owning rfl)) p
  case unlinkTemp second =>
    obtain rfl := Option.some.inj hs
    exact Inv.unlinkTemp (Inv.goto h (not_owning (owning_failed second))) p
  case openName =>
    cases hn : s.name <;> simp only [hn, Option.some.injEq] at hs <;> subst hs
    · exact Inv.goto h (not_owning rfl)
    · exact Inv.setProc h p _ fun _ => not_owning rfl
  case read =>
    split at hs <;> obtain rfl := Option.some.inj hs
    · exact Inv.goto h (not_owning rfl)
    · exact Inv.setProc h p _ fun _ => not_owning rfl
  case kill =>
    obtain rfl := Option.some.inj hs
    refine Inv.goto h (not_owning ?_)
    split <;> rfl
  case unlinkName =>
    cases hn : s.name <;> simp only [hn, Option.some.injEq] at hs <;> subst hs
    · exact Inv.goto h (not_owning rfl)
    · refine Inv.unlink h rfl fun r _ hr => ?_
      -- A live owner would have created the file in place, whose creator is dead.
      obtain ⟨i, hi, hio⟩ := h.owned r hr
      have hdead := hok hpc i hi
      rw [show (s.inodes i).owner = r from hio, hr.1] at hdead
      exact Bool.noConfusion hdead
  case rmlock =>
    obtain rfl := Option.some.inj hs
    exact Inv.unlink h rfl fun r hne hr => hne (h.owned.unique hr ⟨ha, by rw [hpc]; rfl⟩)

theorem inv_fail {s s' : State} {p : Pid} {full : Bool} (h : s.Inv)
    (ha : (s.procs p).alive = true) (hs : s.fail p full = some s') : s'.Inv := by
  unfold State.fail at hs
  cases hpc : (s.procs p).pc <;> simp only [hpc, Option.some.injEq, reduceCtorEq] at hs <;> subst hs
  case creat second => exact Inv.goto h (not_owning (by split <;> rfl))
  case unlinkLinked => exact Inv.goto h fun _ => ⟨ha, by rw [hpc]; rfl⟩
  case unlinkTemp second => exact Inv.goto h (not_owning (owning_failed second))
  all_goals exact Inv.goto h (not_owning rfl)

theorem inv_step {s s' : State} {l : Label} (h : s.Inv) (hok : TakesDead s l)
    (hs : step s l = some s') : s'.Inv := by
  obtain ⟨p, a⟩ := l
  rw [step] at hs
  split at hs
  next ha =>
    cases a with
    | sys => exact inv_sys h hok ha hs
    | fail full => exact inv_fail h ha hs
    | mklock =>
      simp only [State.act, Option.ite_none_right_eq_some, Option.some.injEq] at hs
      obtain ⟨-, rfl⟩ := hs
      exact Inv.goto h (not_owning rfl)
    | rmlock =>
      simp only [State.act] at hs
      split at hs
      next hpc =>
        obtain rfl := Option.some.inj hs
        exact Inv.goto h fun _ => ⟨ha, by rw [hpc]; rfl⟩
      next =>
        split at hs
        · exact Option.some.inj hs ▸ h
        · exact absurd hs (by simp)
    | die =>
      obtain rfl := Option.some.inj hs
      exact Inv.setProc h p _ fun hd => Bool.noConfusion hd
  next => exact absurd hs (by simp)

theorem State.Holds.owning {s : State} {p : Pid} (h : s.Holds p) : s.Owning p := by
  obtain ⟨ha, hpc | hpc⟩ := h <;> exact ⟨ha, by rw [hpc]; rfl⟩

/-- As long as the `unlink` in `cklock` never hits the file of a live process, at most one live
process is between `mklock` and `rmlock`. -/
theorem mklock_exclusive {s₀ s : State} (h0 : s₀.Initial) (h : Reach step TakesDead s₀ s)
    {p q : Pid} (hp : s.Holds p) (hq : s.Holds q) : p = q := by
  have hinv : s.Inv := h.invariant (inv_initial h0) fun _ _ _ hi hok hs => inv_step hi hok hs
  exact hinv.owned.unique hp.owning hq.owning

end Exclusion

section Race

/-- No files, and no process has called `mklock` yet. -/
def idleState : State where
  name := none
  tempfile := fun _ => none
  inodes := fun _ => ⟨0, none⟩
  next := 0
  procs := fun _ => ⟨true, .idle, 0, 0⟩

theorem idleState_initial : idleState.Initial :=
  ⟨fun _ => rfl, fun _ h => absurd h (by simp [idleState]), fun _ _ h => absurd h (by simp [idleState])⟩

/-- A call of `mklock` and its first `n` system calls, which succeed. -/
def mklock (p : Pid) (n : ℕ) : List Label := ⟨p, .mklock⟩ :: List.replicate n ⟨p, .sys⟩

/-- The first process holds the lock and dies. A second one finds it dead. -/
def found : List Label := mklock 1 4 ++ [⟨1, .die⟩] ++ mklock 2 8

/-- A third one finds it dead as well, before the second removes the file and takes the lock.
The third then removes the second one's file. -/
def race : List Label :=
  found ++ mklock 3 8 ++ List.replicate 5 ⟨2, .sys⟩ ++ List.replicate 5 ⟨3, .sys⟩

theorem mklock_not_exclusive :
    ¬ ∀ (s₀ s : State) (p q : Pid), s₀.Initial → Reach step (fun _ _ => True) s₀ s →
      s.Holds p → s.Holds q → p = q := by
  intro h
  have hr : (run step race idleState).any
      (fun s => decide (s.Holds 2) && decide (s.Holds 3)) = true := by decide
  obtain ⟨s, hs, hb⟩ := exists_of_run_any _ _ _ _ hr
  simp only [Bool.and_eq_true, decide_eq_true_eq] at hb
  exact absurd (h idleState s 2 3 idleState_initial
    (reach_of_run hs (runOk_of_forall (fun _ _ => trivial) _)) hb.1 hb.2) (by decide)

/-- Without a third process the second one takes over the lock, and is the only holder. -/
theorem mklock_exclusive_takeover :
    ∃ s, run step (found ++ List.replicate 5 ⟨2, .sys⟩) idleState = some s ∧
      s.Holds 2 ∧ ∀ q, s.Holds q → 2 = q := by
  have hrun : (run step (found ++ List.replicate 5 ⟨2, .sys⟩) idleState).any
      (fun s => decide (s.Holds 2)) = true := by decide
  obtain ⟨s, hs, hb⟩ := exists_of_run_any _ _ _ _ hrun
  have hp : s.Holds 2 := of_decide_eq_true hb
  have hr : Reach step TakesDead idleState s := reach_of_run hs (by decide)
  exact ⟨s, hs, hp, fun q hq => mklock_exclusive idleState_initial hr hp hq⟩

end Race

end Unitas.Bnu.Ulockf
