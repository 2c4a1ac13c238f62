import Mathlib.Data.List.Perm.Subperm
import Mathlib.Algebra.Order.Ring.Nat
import Unitas.Lib.Transition
import Unitas.Sh.Jobs

/-! Runs of the functions of the job table. -/
namespace Unitas.Sh.Jobs
open Unitas.LinkedList Unitas.Transition

variable {s s' : Table} {l l₁ l₂ c : List Ptr} {jp : Ptr} {fg rc : Bool} {stat : Status}

theorem findFrom_eq {next : Ptr → Option Ptr} {p : Ptr → Bool} {ptr : Option Ptr}
    (h : Chain next ptr l) {fuel : ℕ} (hfuel : l.length ≤ fuel) :
    findFrom next p fuel ptr = .ok (l.find? p) := by
  induction h generalizing fuel with
  | nil => cases fuel <;> rfl
  | @cons a l _ ih =>
    cases fuel with
    | zero => cases hfuel
    | succ fuel =>
      rw [findFrom, List.find?_cons]
      cases p a with
      | true => rfl
      | false => exact ih (Nat.le_of_succ_le_succ hfuel)

/-! ### Counts -/

theorem countP_middle (p : Ptr → Bool) :
    (l₁ ++ jp :: l₂).countP p = (l₁ ++ l₂).countP p + (p jp).toNat := by
  rw [List.perm_middle.countP_eq, List.countP_cons]
  cases p jp <;> rfl

theorem countP_update (hout : jp ∉ l₁ ++ l₂) (p : Job → Bool) (j : Job) :
    ((l₁ ++ jp :: l₂).countP fun q => p (Function.update s.job jp j q)) =
      ((l₁ ++ l₂).countP fun q => p (s.job q)) + (p j).toNat := by
  have hsame : ∀ q ∈ l₁ ++ l₂, p (Function.update s.job jp j q) = p (s.job q) := by
    intro q hq
    rw [Function.update_of_ne (by rintro rfl; exact hout hq)]
  rw [countP_middle, Function.update_self, List.countP_congr fun q hq => by rw [hsame q hq]]

/-! ### Invariant -/

/-- The lists hold the jobs `l` and `c`, in ascending order of the ids, and the counters are
right. A slot that is reserved counts as a job. -/
structure Table.On (s : Table) (l c : List Ptr) : Prop where
  joblst : s.joblst.Is l
  jobcur : s.jobcur.Is c
  same : l.Perm c
  ids : l.Pairwise fun p q => (s.job p).jid = 0 ∨ (s.job p).jid < (s.job q).jid
  jobcnt : s.jobcnt = l.length + s.pending.toNat
  jobdone : s.jobdone = l.countP fun p => (s.job p).flag.done
  jobnote : s.jobnote = l.countP fun p => (s.job p).flag.notify
  busy : ∀ p ∈ l, s.busy p = true
  blocks : ∀ p ∈ l, p ∈ s.blocks

theorem Table.On.nodup (h : s.On l c) : l.Nodup := Chain.nodup h.joblst

theorem Table.On.length_lt (h : s.On l c) : l.length < s.fuel :=
  Nat.lt_succ_of_le ((Chain.nodup h.joblst).subperm h.blocks).length_le

theorem Table.On.length_le (h : s.On l c) : l.length ≤ s.fuel := h.length_lt.le

theorem Table.On.pgid2job_eq (h : s.On l c) (pid : ℤ) :
    pgid2job s pid = .ok (l.find? fun jp => (s.job jp).pid = pid) :=
  findFrom_eq h.joblst h.length_le

/-- A job leaves the table. -/
theorem Table.On.freejob (h : s.On (l₁ ++ jp :: l₂) c) (hdone : (s.job jp).flag.done = true)
    (hnote : (s.job jp).flag.notify = false) :
    ∃ s' c', Jobs.freejob jp s = .ok s' ∧ s'.On (l₁ ++ l₂) c' ∧ s'.job = s.job ∧
      s'.joblst.next jp = l₂.head? ∧ s'.pending = s.pending := by
  have hlen := h.length_le
  have hmem : jp ∈ c := h.same.subset (List.mem_append_right _ (List.mem_cons_self ..))
  obtain ⟨c₁, c₂, rfl⟩ := List.append_of_mem hmem
  obtain ⟨njp, hnjp, hl, hnext⟩ := h.joblst.remove hlen
  obtain ⟨cjp, hcjp, hc, -⟩ := h.jobcur.remove (h.same.length_eq ▸ hlen)
  have hsub : (l₁ ++ l₂).Sublist (l₁ ++ jp :: l₂) :=
    List.Sublist.append_left (List.sublist_cons_self ..) _
  have hout : jp ∉ l₁ ++ l₂ := (List.nodup_middle.mp h.nodup).notMem
  refine ⟨{ s.free jp with
    joblst := s.joblst.set njp (s.joblst.next jp)
    jobcur := s.jobcur.set cjp (s.jobcur.next jp)
    jobcnt := s.jobcnt - 1
    jobdone := s.jobdone - 1 }, c₁ ++ c₂, ?_, ?_, rfl, hnext, rfl⟩
  · rw [Jobs.freejob, hnjp, hcjp]
    rfl
  · refine ⟨hl, hc, ?_, h.ids.sublist hsub, ?_, ?_, ?_, ?_, ?_⟩
    · exact ((List.perm_middle.symm.trans h.same).trans List.perm_middle).cons_inv
    · have hcnt := h.jobcnt
      rw [List.length_append, List.length_cons] at hcnt
      rw [List.length_append]
      change s.jobcnt - 1 = _ + (s.pending.toNat : ℤ)
      omega
    · have hcnt := h.jobdone
      rw [countP_middle, hdone, Bool.toNat_true] at hcnt
      change s.jobdone - 1 = (((l₁ ++ l₂).countP fun p => (s.job p).flag.done : ℕ) : ℤ)
      omega
    · have hcnt := h.jobnote
      rwa [countP_middle, hnote, Bool.toNat_false, Nat.add_zero] at hcnt
    · intro p hp
      have hne : p ≠ jp := by
        rintro rfl
        exact hout hp
      exact (Function.update_of_ne hne ..).trans (h.busy p (hsub.subset hp))
    · exact fun p hp => h.blocks p (hsub.subset hp)

/-- Two tables with the same lists. -/
structure Table.Same (s s' : Table) : Prop where
  joblst : s'.joblst = s.joblst
  jobcur : s'.jobcur = s.jobcur
  jobcnt : s'.jobcnt = s.jobcnt
  busy : s'.busy = s.busy
  blocks : s'.blocks = s.blocks
  pending : s'.pending = s.pending

/-- The record of one job is written, and the counters with it. -/
theorem Table.On.put (h : s.On (l₁ ++ jp :: l₂) c) (hsame : s.Same s') {j : Job}
    (hjob : s'.job = Function.update s.job jp j) (hjid : j.jid = (s.job jp).jid)
    (hdone : s'.jobdone + (s.job jp).flag.done.toNat = s.jobdone + j.flag.done.toNat)
    (hnote : s'.jobnote + (s.job jp).flag.notify.toNat = s.jobnote + j.flag.notify.toNat) :
    s'.On (l₁ ++ jp :: l₂) c := by
  have hout : jp ∉ l₁ ++ l₂ := (List.nodup_middle.mp h.nodup).notMem
  have hids : ∀ p, (s'.job p).jid = (s.job p).jid := by
    intro p
    rw [hjob]
    by_cases hp : p = jp
    · rw [hp, Function.update_self, hjid]
    · rw [Function.update_of_ne hp]
  refine ⟨hsame.joblst ▸ h.joblst, hsame.jobcur ▸ h.jobcur, h.same, ?_, ?_, ?_, ?_, ?_, ?_⟩
  · simpa only [hids] using h.ids
  · rw [hsame.jobcnt, hsame.pending, h.jobcnt]
  · have hcnt := h.jobdone
    rw [countP_middle] at hcnt
    rw [hjob, countP_update hout fun j => j.flag.done]
    omega
  · have hcnt := h.jobnote
    rw [countP_middle] at hcnt
    rw [hjob, countP_update hout fun j => j.flag.notify]
    omega
  · rw [hsame.busy]
    exact h.busy
  · rw [hsame.blocks]
    exact h.blocks

/-! ### Status -/

/-- A job is done only once, and is noted only when it is not noted yet. -/
def Job.Fits (j : Job) (fg : Bool) (stat : Status) : Prop :=
  (stat.finishes = true → j.flag.done = false) ∧
    (stat.notes j.jid fg = true → j.flag.notify = false)

theorem Job.status_jid (j : Job) (fg : Bool) (stat : Status) : (j.status fg stat).jid = j.jid := by
  cases stat <;> rfl

theorem Job.status_done (j : Job) (fg : Bool) (stat : Status) :
    (j.status fg stat).flag.done = (j.flag.done || stat.finishes) := by
  cases stat <;> simp [Job.status, Status.finishes]

theorem Job.status_notify (j : Job) (fg : Bool) (stat : Status) :
    (j.status fg stat).flag.notify = (j.flag.notify || stat.notes j.jid fg) := by
  cases stat <;> rfl

theorem toNat_or {a b : Bool} (h : b = true → a = false) :
    ((a || b).toNat : ℤ) = a.toNat + b.toNat := by
  cases a <;> cases b <;> simp_all

theorem Table.On.statjob (h : s.On l c) (rc : Bool) (hjp : jp ∈ l)
    (hfits : (s.job jp).Fits fg stat) :
    ∃ s' l' c', Jobs.statjob jp stat fg rc s = .ok s' ∧ s'.On l' c' ∧ s'.pending = s.pending := by
  obtain ⟨l₁, l₂, rfl⟩ := List.append_of_mem hjp
  have hdone := (s.job jp).status_done fg stat
  have hnote := (s.job jp).status_notify fg stat
  have hjid := (s.job jp).status_jid fg stat
  rw [Jobs.statjob]
  generalize (s.job jp).status fg stat = j at hdone hnote hjid
  have hput : Table.On { s with
      job := Function.update s.job jp j
      jobdone := s.jobdone + stat.finishes.toNat
      jobnote := s.jobnote + (stat.notes j.jid fg).toNat
      exitval := if rc then j.exitval else s.exitval } (l₁ ++ jp :: l₂) c := by
    refine h.put ⟨rfl, rfl, rfl, rfl, rfl, rfl⟩ rfl hjid ?_ ?_
    · rw [hdone, toNat_or hfits.1]
      dsimp only
      omega
    · rw [hnote, hjid, toNat_or hfits.2]
      dsimp only
      omega
  by_cases hfree : stat.finishes = true ∧ j.flag.notify = false
  · obtain ⟨s', c', heq, hon, -, -, hpend⟩ := hput.freejob (by simp [hdone, hfree.1])
      (by simpa using hfree.2)
    have hyes : (stat.finishes && !j.flag.notify) = true := by simp [hfree]
    exact ⟨s', _, c', (if_pos hyes).trans heq, hon, hpend⟩
  · have hno : ¬ (stat.finishes && !j.flag.notify) = true := by simpa using hfree
    exact ⟨_, _, c, if_neg hno, hput, rfl⟩

/-- The reports of `waitpid` in one call of `collectjobs`, each in the table it comes to. -/
def Reported : ℕ → List (ℤ × Status) → Table → Prop
  | 0, _, _ => True
  | _ + 1, [], _ => True
  | n + 1, (pid, stat) :: reports, s =>
    match pgid2job s pid with
    | .error _ => True
    | .ok none => Reported n reports s
    | .ok (some jp) => (s.job jp).Fits false stat ∧
        ∀ s', Jobs.statjob jp stat false false s = .ok s' → Reported n reports s'

theorem Table.On.collectFrom {n : ℕ} {reports : List (ℤ × Status)} (h : s.On l c)
    (hrep : Reported n reports s) :
    ∃ s' l' c', Jobs.collectFrom n reports s = .ok s' ∧ s'.On l' c' ∧ s'.pending = s.pending := by
  induction n generalizing reports s l c with
  | zero => exact ⟨s, l, c, rfl, h, rfl⟩
  | succ n ih =>
    cases reports with
    | nil => exact ⟨s, l, c, rfl, h, rfl⟩
    | cons report reports =>
      obtain ⟨pid, stat⟩ := report
      have hfind := h.pgid2job_eq pid
      cases hjob : l.find? fun jp => (s.job jp).pid = pid with
      | none =>
        rw [hjob] at hfind
        rw [Reported, hfind] at hrep
        obtain ⟨s', l', c', heq, hon⟩ := ih h hrep
        refine ⟨s', l', c', ?_, hon⟩
        rw [Jobs.collectFrom, hfind]
        exact heq
      | some jp =>
        rw [hjob] at hfind
        rw [Reported, hfind] at hrep
        obtain ⟨s₁, l₁, c₁, hstat, hon₁, hpend₁⟩ :=
          h.statjob false (List.mem_of_find?_eq_some hjob) hrep.1
        obtain ⟨s', l', c', heq, hon, hpend⟩ := ih hon₁ (hrep.2 s₁ hstat)
        refine ⟨s', l', c', ?_, hon, hpend.trans hpend₁⟩
        rw [Jobs.collectFrom, hfind]
        simp only [bind, Except.bind, hstat]
        exact heq

/-! ### Printing and freeing -/

theorem Table.On.printjob (h : s.On l c) (hjp : jp ∈ l) : (Jobs.printjob jp s).On l c := by
  obtain ⟨l₁, l₂, rfl⟩ := List.append_of_mem hjp
  rw [Jobs.printjob]
  split_ifs with hnote
  · refine h.put ⟨rfl, rfl, rfl, rfl, rfl, rfl⟩ rfl rfl rfl ?_
    rw [hnote]
    dsimp only [Table.setFlag]
    simp
  · exact h

theorem printjob_pending : (Jobs.printjob jp s).pending = s.pending := by
  rw [Jobs.printjob]
  split_ifs <;> rfl

theorem printjob_notify : ((Jobs.printjob jp s).job jp).flag.notify = false := by
  rw [Jobs.printjob]
  split_ifs with hnote
  · simp [Table.setFlag]
  · simpa using hnote

theorem printjob_of_ne {p : Ptr} (hp : p ≠ jp) : (Jobs.printjob jp s).job p = s.job p := by
  rw [Jobs.printjob]
  split_ifs
  · exact Function.update_of_ne hp ..
  · rfl

theorem Table.On.printFrom {fuel : ℕ} (h : s.On (l₁ ++ l₂) c) (hfuel : l₂.length ≤ fuel)
    (hdone : ∀ p ∈ l₁, (s.job p).flag.notify = false) :
    ∃ s', Jobs.printFrom fuel l₂.head? s = .ok s' ∧ s'.On (l₁ ++ l₂) c ∧
      s'.pending = s.pending ∧ ∀ p ∈ l₁ ++ l₂, (s'.job p).flag.notify = false := by
  induction l₂ generalizing fuel s l₁ with
  | nil => exact ⟨s, by cases fuel <;> rfl, h, rfl, by simpa using hdone⟩
  | cons jp l₂ ih =>
    cases fuel with
    | zero => cases hfuel
    | succ fuel =>
      have hprint : (if (s.job jp).flag.notify then Jobs.printjob jp s else s) =
          Jobs.printjob jp s := by
        rw [Jobs.printjob]
        split_ifs <;> rfl
      have hon := h.printjob (List.mem_append_right _ (List.mem_cons_self ..))
      have hnext : (Jobs.printjob jp s).joblst.next jp = l₂.head? := Chain.next_eq hon.joblst
      rw [List.append_cons] at hon
      obtain ⟨s', heq, hon', hpend, hnote⟩ := ih hon (Nat.le_of_succ_le_succ hfuel) (by
        intro p hp
        by_cases hpj : p = jp
        · rw [hpj, printjob_notify]
        · rw [printjob_of_ne hpj]
          refine hdone p ?_
          simpa [hpj] using hp)
      rw [← List.append_cons] at hon' hnote
      refine ⟨s', ?_, hon', hpend.trans printjob_pending, hnote⟩
      rw [← heq, ← hnext]
      simp only [List.head?_cons, Jobs.printFrom, hprint]

theorem Table.On.freeFrom {fuel : ℕ} (h : s.On (l₁ ++ l₂) c) (hfuel : l₂.length ≤ fuel)
    (hnote : ∀ p ∈ l₁ ++ l₂, (s.job p).flag.notify = false) :
    ∃ s' l' c', Jobs.freeFrom fuel l₂.head? s = .ok s' ∧ s'.On l' c' ∧
      s'.pending = s.pending := by
  induction l₂ generalizing fuel s l₁ c with
  | nil => exact ⟨s, _, c, by cases fuel <;> rfl, h, rfl⟩
  | cons jp l₂ ih =>
    cases fuel with
    | zero => cases hfuel
    | succ fuel =>
      have hlen : l₂.length ≤ fuel := Nat.le_of_succ_le_succ hfuel
      simp only [List.head?_cons, Jobs.freeFrom]
      by_cases hdone : (s.job jp).flag.done = true
      · obtain ⟨s₁, c₁, heq₁, hon₁, hjob, hnext, hpend₁⟩ :=
          h.freejob hdone (hnote jp (by simp))
        obtain ⟨s', l', c', heq, hon, hpend⟩ := ih hon₁ hlen (by
          intro p hp
          rw [hjob]
          exact hnote p (by simp only [List.mem_append, List.mem_cons] at hp ⊢; tauto))
        refine ⟨s', l', c', ?_, hon, hpend.trans hpend₁⟩
        rw [if_pos hdone, heq₁]
        simp only [bind, Except.bind, hnext]
        exact heq
      · have hnext : s.joblst.next jp = l₂.head? := Chain.next_eq h.joblst
        rw [List.append_cons] at h hnote
        obtain ⟨s', l', c', heq, hon, hpend⟩ := ih h hlen hnote
        refine ⟨s', l', c', ?_, hon, hpend⟩
        rw [if_neg hdone]
        simp only [bind, Except.bind, hnext]
        exact heq

theorem Table.On.printNoted (h : s.On l c) :
    ∃ s', Jobs.printNoted s = .ok s' ∧ s'.On l c ∧ s'.pending = s.pending ∧
      ∀ p ∈ l, (s'.job p).flag.notify = false := by
  rw [Jobs.printNoted]
  split_ifs with hzero
  · have hhead : s.joblst.head = l.head? := h.joblst.eq_head?
    rw [hhead]
    exact Table.On.printFrom (List.nil_append l ▸ h) h.length_le (by simp)
  · have hcnt := h.jobnote
    rw [not_not.mp hzero] at hcnt
    have hnone := List.countP_eq_zero.mp (Int.ofNat_eq_zero.mp hcnt.symm)
    exact ⟨s, rfl, h, rfl, fun p hp => by simpa using hnone p hp⟩

theorem Table.On.freeDone (h : s.On l c) (hnote : ∀ p ∈ l, (s.job p).flag.notify = false) :
    ∃ s' l' c', Jobs.freeDone s = .ok s' ∧ s'.On l' c' ∧ s'.pending = s.pending := by
  rw [Jobs.freeDone]
  split_ifs
  · have hhead : s.joblst.head = l.head? := h.joblst.eq_head?
    rw [hhead]
    exact Table.On.freeFrom (List.nil_append l ▸ h) h.length_le hnote
  · exact ⟨s, l, c, rfl, h, rfl⟩

theorem Table.On.freejobs {reports : List (ℤ × Status)} (h : s.On l c)
    (hrep : Reported (s.jobcnt - s.jobdone).toNat reports s) :
    ∃ s' l' c', Jobs.freejobs reports s = .ok s' ∧ s'.On l' c' ∧ s'.pending = s.pending := by
  obtain ⟨s₁, l₁, c₁, hcoll, hon₁, hpend₁⟩ := h.collectFrom hrep
  obtain ⟨s₂, hprint, hon₂, hpend₂, hnote⟩ := hon₁.printNoted
  obtain ⟨s₃, l₃, c₃, hfree, hon₃, hpend₃⟩ := hon₂.freeDone hnote
  refine ⟨s₃, l₃, c₃, ?_, hon₃, (hpend₃.trans hpend₂).trans hpend₁⟩
  rw [Jobs.freejobs, collectjobs, hcoll]
  simp only [bind, Except.bind, hprint]
  exact hfree

/-! ### Jobs in the foreground and in the background -/

theorem Table.On.waitjob (h : s.On l c) (stat : Option Status) (hjp : jp ∈ l)
    (hfits : (s.job jp).Fits true (stat.getD (.exited 0))) :
    ∃ s' l' c', Jobs.waitjob jp stat s = .ok s' ∧ s'.On l' c' ∧ s'.pending = s.pending :=
  h.statjob true hjp hfits

/-- A job becomes the current one. -/
theorem Table.On.setCurrent (h : s.On l c) (hjp : jp ∈ l) :
    ∃ jobcur c', Jobs.setCurrent jp s = .ok jobcur ∧ Table.On { s with jobcur } l c' := by
  rw [Jobs.setCurrent]
  split_ifs with hhead
  · exact ⟨s.jobcur, c, rfl, h⟩
  · obtain ⟨c₁, c₂, rfl⟩ := List.append_of_mem (h.same.subset hjp)
    obtain ⟨t, ht, hrest, -⟩ := h.jobcur.remove (h.same.length_eq ▸ h.length_le)
    have hout : jp ∉ c₁ ++ c₂ := (List.nodup_middle.mp (Chain.nodup h.jobcur)).notMem
    refine ⟨_, jp :: (c₁ ++ c₂), by rw [ht]; rfl, ?_⟩
    exact { h with jobcur := hrest.push hout, same := h.same.trans List.perm_middle }

theorem Table.On.setFlag (h : s.On l c) (hjp : jp ∈ l) {f : Flag → Flag}
    (hdone : (f (s.job jp).flag).done = (s.job jp).flag.done)
    (hnote : (f (s.job jp).flag).notify = (s.job jp).flag.notify) : (s.setFlag jp f).On l c := by
  obtain ⟨l₁, l₂, rfl⟩ := List.append_of_mem hjp
  refine h.put (j := { s.job jp with flag := f (s.job jp).flag }) ⟨rfl, rfl, rfl, rfl, rfl, rfl⟩
    rfl rfl ?_ ?_
  · rw [hdone]
    rfl
  · rw [hnote]
    rfl

theorem Table.On.restartjob {stat : Option Status} (h : s.On l c) (hjp : jp ∈ l)
    (hdone : fg = true → (stat.getD (.exited 0)).finishes = true →
      (s.job jp).flag.done = false) :
    ∃ s' l' c', Jobs.restartjob jp fg stat s = .ok s' ∧ s'.On l' c' ∧ s'.pending = s.pending := by
  obtain ⟨jobcur, c₁, hcur, hon₁⟩ := h.setCurrent hjp
  have hon₂ := hon₁.setFlag hjp
    (f := ({ · with stopped := false, signaled := false, running := true, foregnd := fg })) rfl rfl
  have hon₃ := hon₂.printjob hjp
  have hjob : ((Jobs.printjob jp ({ s with jobcur }.setFlag jp
      ({ · with stopped := false, signaled := false, running := true, foregnd := fg }))).job
        jp).flag.done = (s.job jp).flag.done := by
    rw [Jobs.printjob]
    split_ifs <;> simp [Table.setFlag]
  rw [Jobs.restartjob, hcur]
  simp only [bind, Except.bind]
  split_ifs with hfg
  · obtain ⟨s', l', c', heq, hon, hpend⟩ := hon₃.waitjob stat hjp
      ⟨fun hfin => hjob.trans (hdone hfg hfin), fun _ => printjob_notify⟩
    exact ⟨s', l', c', heq, hon, hpend.trans printjob_pending⟩
  · exact ⟨_, _, _, rfl, hon₃, printjob_pending⟩

/-! ### Slots -/

/-- Where the block that `allocjob` has reserved is to go. -/
structure Table.Slot (s : Table) (l l₁ l₂ : List Ptr) : Prop where
  split : l = l₁ ++ l₂
  nextjob : s.nextjob = l₁.getLast?
  fresh : s.thisjob ∉ l
  busy : s.busy s.thisjob = true
  blocks : s.thisjob ∈ s.blocks
  before : ∀ p ∈ l₁, (s.job p).jid = 0 ∨ (s.job p).jid < (s.job s.thisjob).jid
  behind : ∀ p ∈ l₂, (s.job s.thisjob).jid = 0 ∨ (s.job s.thisjob).jid < (s.job p).jid

theorem skipZero_eq {fuel : ℕ} (h : s.joblst.Is (l₁ ++ l₂)) (hfuel : l₂.length < fuel)
    (hzero : ∀ p ∈ l₁, (s.job p).jid = 0) :
    ∃ l₁' l₂', l₁ ++ l₂ = l₁' ++ l₂' ∧ skipZero s fuel l₁.getLast? = .ok l₁'.getLast? ∧
      (∀ p ∈ l₁', (s.job p).jid = 0) ∧ ∀ p, l₂'.head? = some p → (s.job p).jid ≠ 0 := by
  induction l₂ generalizing fuel l₁ with
  | nil =>
    cases fuel with
    | zero => cases hfuel
    | succ fuel =>
      refine ⟨l₁, [], rfl, ?_, hzero, fun _ => nofun⟩
      rw [skipZero, h.get_getLast?]
      rfl
  | cons jp l₂ ih =>
    cases fuel with
    | zero => cases hfuel
    | succ fuel =>
      rw [skipZero, h.get_getLast?]
      simp only [List.head?_cons]
      split_ifs with hjid
      · refine ⟨l₁, jp :: l₂, rfl, rfl, hzero, ?_⟩
        rintro _ ⟨⟩
        exact hjid
      · rw [List.append_cons] at h ⊢
        have hlast : (l₁ ++ [jp]).getLast? = some jp := List.getLast?_concat ..
        rw [← hlast]
        refine ih h (Nat.lt_of_succ_lt_succ hfuel) fun p hp => ?_
        rcases List.mem_append.mp hp with hp | hp
        · exact hzero p hp
        · rw [List.mem_singleton.mp hp]
          exact not_not.mp hjid

theorem firstGap_eq {fuel jid : ℕ} (h : s.joblst.Is (l₁ ++ l₂)) (hfuel : l₂.length < fuel)
    (hpos : 0 < jid)
    (hids : (l₁ ++ l₂).Pairwise fun p q => (s.job p).jid = 0 ∨ (s.job p).jid < (s.job q).jid)
    (hbefore : ∀ p ∈ l₁, (s.job p).jid < jid) (hbehind : ∀ p ∈ l₂, jid ≤ (s.job p).jid) :
    ∃ l₁' l₂' jid', l₁ ++ l₂ = l₁' ++ l₂' ∧
      firstGap s fuel l₁.getLast? jid = .ok (l₁'.getLast?, jid') ∧
      (∀ p ∈ l₁', (s.job p).jid < jid') ∧ ∀ p ∈ l₂', jid' < (s.job p).jid := by
  induction l₂ generalizing fuel l₁ jid with
  | nil =>
    cases fuel with
    | zero => cases hfuel
    | succ fuel =>
      refine ⟨l₁, [], jid, rfl, ?_, hbefore, fun _ => nofun⟩
      rw [firstGap, h.get_getLast?]
      rfl
  | cons jp l₂ ih =>
    cases fuel with
    | zero => cases hfuel
    | succ fuel =>
      have hrest : ∀ p ∈ l₂, (s.job jp).jid < (s.job p).jid := by
        intro p hp
        have hle := hbehind jp (List.mem_cons_self ..)
        have hpq := (List.pairwise_cons.mp (List.pairwise_append.mp hids).2.1).1 p hp
        omega
      have hle := hbehind jp (List.mem_cons_self ..)
      rw [firstGap, h.get_getLast?]
      simp only [List.head?_cons]
      split_ifs with hjid
      · refine ⟨l₁, jp :: l₂, jid, rfl, rfl, hbefore, fun p hp => ?_⟩
        rcases List.mem_cons.mp hp with rfl | hp
        · omega
        · exact hle.trans_lt (hrest p hp)
      · rw [List.append_cons] at h hids ⊢
        have hlast : (l₁ ++ [jp]).getLast? = some jp := List.getLast?_concat ..
        rw [← hlast]
        refine ih h (Nat.lt_of_succ_lt_succ hfuel) (Nat.succ_pos _) hids ?_ ?_
        · intro p hp
          rcases List.mem_append.mp hp with hp | hp
          · exact Nat.lt_succ_of_lt (hbefore p hp)
          · rw [List.mem_singleton.mp hp]
            omega
        · intro p hp
          have hlt := hrest p hp
          omega

theorem Table.On.reserve (h : s.On l c) (monitor : Bool) :
    ∃ l₁ l₂ jid, l = l₁ ++ l₂ ∧ Jobs.reserve monitor s = .ok (l₁.getLast?, jid) ∧
      (∀ p ∈ l₁, (s.job p).jid = 0 ∨ (s.job p).jid < jid) ∧
      ∀ p ∈ l₂, jid = 0 ∨ jid < (s.job p).jid := by
  cases monitor with
  | false => exact ⟨[], l, 0, rfl, rfl, fun _ => nofun, fun _ _ => .inl rfl⟩
  | true =>
    have hl : s.joblst.Is ([] ++ l) := h.joblst
    obtain ⟨l₁, l₂, rfl, hskip, hzero, hhead⟩ := skipZero_eq hl h.length_lt nofun
    have hlen : l₂.length < s.fuel := by
      have hlt := h.length_lt
      rw [List.length_append] at hlt
      omega
    have hpos : ∀ p ∈ l₂, 1 ≤ (s.job p).jid := by
      intro p hp
      cases l₂ with
      | nil => cases hp
      | cons q l₂ =>
        have hq := hhead q rfl
        rcases List.mem_cons.mp hp with rfl | hp
        · omega
        · have hqp := (List.pairwise_cons.mp (List.pairwise_append.mp h.ids).2.1).1 p hp
          omega
    obtain ⟨l₁', l₂', jid, hsplit, hgap, hbefore, hbehind⟩ :=
      firstGap_eq h.joblst hlen Nat.one_pos h.ids (fun p hp => by rw [hzero p hp]; omega) hpos
    refine ⟨l₁', l₂', jid, hsplit, ?_, fun p hp => .inr (hbefore p hp),
      fun p hp => .inr (hbehind p hp)⟩
    rw [Jobs.reserve, if_pos rfl]
    simp only [bind, Except.bind]
    rw [show skipZero s s.fuel none = _ from hskip]
    exact hgap

theorem Table.On.frame (h : s.On l c) (hlst : s'.joblst = s.joblst) (hcur : s'.jobcur = s.jobcur)
    (hjob : ∀ p ∈ l, s'.job p = s.job p) (hcnt : s'.jobcnt = l.length + s'.pending.toNat)
    (hdone : s'.jobdone = s.jobdone) (hnote : s'.jobnote = s.jobnote)
    (hbusy : ∀ p ∈ l, s'.busy p = true) (hblocks : ∀ p ∈ l, p ∈ s'.blocks) : s'.On l c := by
  refine ⟨hlst ▸ h.joblst, hcur ▸ h.jobcur, h.same, ?_, hcnt, ?_, ?_, hbusy, hblocks⟩
  · refine h.ids.imp_of_mem fun hp hq hpq => ?_
    rwa [hjob _ hp, hjob _ hq]
  · rw [hdone, h.jobdone]
    exact congrArg _ (List.countP_congr fun p hp => by rw [hjob p hp])
  · rw [hnote, h.jobnote]
    exact congrArg _ (List.countP_congr fun p hp => by rw [hjob p hp])

theorem Table.On.allocjob (h : s.On l c) (hpend : s.pending = false) (hbusy : s.busy jp = false)
    (monitor : Bool) :
    ∃ s' l₁ l₂, Jobs.allocjob jp monitor s = .ok s' ∧ s'.On l c ∧ s'.Slot l l₁ l₂ := by
  obtain ⟨l₁, l₂, jid, hsplit, hres, hbefore, hbehind⟩ := h.reserve monitor
  have hne : ∀ p ∈ l, p ≠ jp := by
    rintro p hp rfl
    exact Bool.false_ne_true (hbusy.symm.trans (h.busy p hp))
  have hjob : ∀ p ∈ l,
      Function.update s.job jp { s.job jp with jid } p = s.job p :=
    fun p hp => Function.update_of_ne (hne p hp) ..
  refine ⟨_, l₁, l₂, by rw [Jobs.allocjob, hres]; rfl, ?_, ?_⟩
  · refine h.frame rfl rfl hjob ?_ rfl rfl ?_ ?_
    · rw [h.jobcnt, hpend]
      simp
    · intro p hp
      exact (Function.update_of_ne (hne p hp) ..).trans (h.busy p hp)
    · exact fun p hp => List.mem_cons_of_mem _ (h.blocks p hp)
  · refine ⟨hsplit, rfl, fun hp => hne _ hp rfl, Function.update_self .., List.mem_cons_self ..,
      fun p hp => ?_, fun p hp => ?_⟩
    · have hp' := hjob p (hsplit ▸ List.mem_append_left _ hp)
      dsimp only at hp' ⊢
      rw [hp', Function.update_self]
      exact hbefore p hp
    · have hp' := hjob p (hsplit ▸ List.mem_append_right _ hp)
      dsimp only at hp' ⊢
      rw [hp', Function.update_self]
      exact hbehind p hp

theorem Table.On.deallocjob (h : s.On l c) (hpend : s.pending = true) (hslot : s.Slot l l₁ l₂) :
    (Jobs.deallocjob s).On l c := by
  refine h.frame rfl rfl (fun _ _ => rfl) ?_ rfl rfl (fun p hp => ?_) h.blocks
  · have hcnt := h.jobcnt
    rw [hpend] at hcnt
    change s.jobcnt - 1 = _ + ((false.toNat : ℕ) : ℤ)
    simp only [Bool.toNat_true, Bool.toNat_false] at hcnt ⊢
    omega
  · have hne : p ≠ s.thisjob := by
      rintro rfl
      exact hslot.fresh hp
    exact (Function.update_of_ne hne ..).trans (h.busy p hp)

theorem Table.On.clearjobs (h : s.On l c) (hnone : s.jobcur.head = none) :
    ∃ s', Jobs.clearjobs s = .ok s' ∧ s'.On [] [] ∧ s'.pending = false := by
  obtain rfl : c = [] := by
    have hcur := h.jobcur
    rw [Links.Is, hnone] at hcur
    exact hcur.eq_nil
  obtain rfl : l = [] := h.same.eq_nil
  have hhead : s.joblst.head = none := h.joblst.eq_head?
  refine ⟨{ s with
    joblst := s.joblst.set none none, jobcnt := 0, jobnote := 0, jobdone := 0, pending := false },
    ?_, ?_, rfl⟩
  · rw [Jobs.clearjobs, hhead]
    rfl
  · exact ⟨.nil, h.jobcur, .refl _, .nil, rfl, rfl, rfl, fun _ => nofun, fun _ => nofun⟩

/-- The record of a job that begins to run. -/
def Job.start (j : Job) (pid : ℤ) (fg : Bool) : Job :=
  { j with pid, flag := { Flag.zero with running := true, foregnd := fg } }

/-- The reserved block goes into both lists. -/
theorem Table.On.insert (h : s.On l c) (hslot : s.Slot l l₁ l₂) (hpend : s.pending = true)
    (pid : ℤ) (fg : Bool) :
    Table.On { s with
      joblst := (s.joblst.set (some s.thisjob) (s.joblst.get s.nextjob)).set s.nextjob
        (some s.thisjob)
      jobcur := (s.jobcur.set (some s.thisjob) s.jobcur.head).set none (some s.thisjob)
      job := Function.update s.job s.thisjob ((s.job s.thisjob).start pid fg)
      pending := false } (l₁ ++ s.thisjob :: l₂) (s.thisjob :: c) := by
  obtain rfl := hslot.split
  have hfresh := hslot.fresh
  have hjid : ∀ p, (Function.update s.job s.thisjob ((s.job s.thisjob).start pid fg) p).jid =
      (s.job p).jid := by
    intro p
    by_cases hp : p = s.thisjob
    · rw [hp, Function.update_self]
      rfl
    · rw [Function.update_of_ne hp]
  refine ⟨?_, ?_, ?_, ?_, ?_, ?_, ?_, ?_, ?_⟩
  · rw [hslot.nextjob]
    exact h.joblst.insert hfresh
  · exact h.jobcur.push fun hc => hfresh (h.same.symm.subset hc)
  · exact List.perm_middle.trans (h.same.cons _)
  · simp only [hjid]
    obtain ⟨h₁, h₂, h₁₂⟩ := List.pairwise_append.mp h.ids
    refine List.pairwise_append.mpr ⟨h₁, List.pairwise_cons.mpr ⟨hslot.behind, h₂⟩, ?_⟩
    intro p hp q hq
    rcases List.mem_cons.mp hq with rfl | hq
    · exact hslot.before p hp
    · exact h₁₂ p hp q hq
  · have hcnt := h.jobcnt
    rw [hpend, List.length_append] at hcnt
    simp only [List.length_append, List.length_cons, Bool.toNat_true, Bool.toNat_false] at hcnt ⊢
    omega
  · rw [countP_update hfresh fun j => j.flag.done]
    exact h.jobdone
  · rw [countP_update hfresh fun j => j.flag.notify]
    exact h.jobnote
  · intro p hp
    rcases List.mem_cons.mp (List.perm_middle.subset hp) with rfl | hp
    · exact hslot.busy
    · exact h.busy p hp
  · intro p hp
    rcases List.mem_cons.mp (List.perm_middle.subset hp) with rfl | hp
    · exact hslot.blocks
    · exact h.blocks p hp

theorem Table.On.postjob {pid : ℤ} {ttyflg : Bool} {stat : Option Status} (h : s.On l c)
    (hpend : s.pending = true) (hslot : s.Slot l l₁ l₂) :
    ∃ s' l' c', Jobs.postjob pid fg ttyflg stat s = .ok s' ∧ s'.On l' c' ∧
      s'.pending = false := by
  have hon := h.insert hslot hpend pid fg
  have hmem : s.thisjob ∈ l₁ ++ s.thisjob :: l₂ :=
    List.mem_append_right _ (List.mem_cons_self ..)
  rw [Jobs.postjob]
  cases fg with
  | true =>
    refine hon.waitjob _ hmem ⟨fun _ => ?_, fun _ => ?_⟩
    all_goals
      dsimp only
      rw [Function.update_self]
      rfl
  | false =>
    cases ttyflg with
    | false => exact ⟨_, _, _, rfl, hon, rfl⟩
    | true => exact ⟨_, _, _, rfl, hon.printjob hmem, printjob_pending⟩

theorem Table.On.syswait {stat : Option Status} (h : s.On l c) (hjp : jp ∈ l)
    (hfits : ∀ st, stat = some st → (s.job jp).flag.running = true → (s.job jp).Fits false st) :
    ∃ s' l' c', Jobs.syswait jp stat s = .ok s' ∧ s'.On l' c' ∧ s'.pending = s.pending := by
  unfold Jobs.syswait
  split_ifs with hrun
  · cases stat with
    | none => exact ⟨s, l, c, rfl, h, rfl⟩
    | some stat => exact h.statjob _ hjp (hfits stat rfl hrun)
  · exact ⟨s, l, c, rfl, h, rfl⟩

/-! ### Runs -/

inductive Call
  | allocjob (jp : Ptr) (monitor : Bool)
  | deallocjob
  | postjob (pid : ℤ) (fg ttyflg : Bool) (stat : Option Status)
  | collectjobs (reports : List (ℤ × Status))
  | freejobs (reports : List (ℤ × Status))
  | restartjob (jp : Ptr) (fg : Bool) (stat : Option Status)
  | syswait (jp : Ptr) (stat : Option Status)
  | printjob (jp : Ptr)
  | clearjobs

def Table.call (s : Table) : Call → Except Fault Table
  | .allocjob jp monitor => Jobs.allocjob jp monitor s
  | .deallocjob => .ok (Jobs.deallocjob s)
  | .postjob pid fg ttyflg stat => Jobs.postjob pid fg ttyflg stat s
  | .collectjobs reports => Jobs.collectjobs reports s
  | .freejobs reports => Jobs.freejobs reports s
  | .restartjob jp fg stat => Jobs.restartjob jp fg stat s
  | .syswait jp stat => Jobs.syswait jp stat s
  | .printjob jp => .ok (Jobs.printjob jp s)
  | .clearjobs => Jobs.clearjobs s

def step (s : Table) (call : Call) : Option Table :=
  match s.call call with
  | .ok s' => some s'
  | .error _ => none

/-- The job is one that `str2job` can find. -/
def Table.Listed (s : Table) (jp : Ptr) : Prop := ∃ l, s.joblst.Is l ∧ jp ∈ l

/-- The order in which the shell makes the calls, and what goes wrong otherwise. -/
def Ok (s : Table) : Call → Prop
  | .allocjob jp _ => s.pending = false ∧ s.busy jp = false
  | .deallocjob | .postjob .. => s.pending = true
  | .collectjobs reports | .freejobs reports =>
    s.pending = false ∧ Reported (s.jobcnt - s.jobdone).toNat reports s
  | .restartjob jp fg stat => s.pending = false ∧ s.Listed jp ∧
      (fg = true → (stat.getD (.exited 0)).finishes = true → (s.job jp).flag.done = false)
  | .syswait jp stat => s.pending = false ∧ s.Listed jp ∧
      ∀ st, stat = some st → (s.job jp).flag.running = true → (s.job jp).Fits false st
  | .printjob jp => s.pending = false ∧ s.Listed jp
  | .clearjobs => s.jobcur.head = none

def Table.Inv (s : Table) : Prop :=
  ∃ l c, s.On l c ∧ (s.pending = true → ∃ l₁ l₂, s.Slot l l₁ l₂)

theorem Table.On.inv (h : s.On l c) (hpend : s.pending = false) : s.Inv :=
  ⟨l, c, h, fun hp => absurd (hpend.symm.trans hp) nofun⟩

theorem Table.Listed.mem (h : s.Listed jp) (hon : s.On l c) : jp ∈ l := by
  obtain ⟨l', hl', hmem⟩ := h
  exact Chain.unique hl' hon.joblst ▸ hmem

theorem Table.Inv.call (h : s.Inv) {call : Call} (hok : Ok s call) :
    ∃ s', s.call call = .ok s' ∧ s'.Inv := by
  obtain ⟨l, c, hon, hslot⟩ := h
  cases call with
  | allocjob jp monitor =>
    obtain ⟨s', l₁, l₂, heq, hon', hslot'⟩ := hon.allocjob hok.1 hok.2 monitor
    exact ⟨s', heq, l, c, hon', fun _ => ⟨l₁, l₂, hslot'⟩⟩
  | deallocjob =>
    obtain ⟨l₁, l₂, hslot⟩ := hslot hok
    exact ⟨_, rfl, (hon.deallocjob hok hslot).inv rfl⟩
  | postjob pid fg ttyflg stat =>
    obtain ⟨l₁, l₂, hslot⟩ := hslot hok
    obtain ⟨s', l', c', heq, hon', hpend⟩ := hon.postjob hok hslot
    exact ⟨s', heq, hon'.inv hpend⟩
  | collectjobs reports =>
    obtain ⟨s', l', c', heq, hon', hpend⟩ := hon.collectFrom hok.2
    exact ⟨s', heq, hon'.inv (hpend.trans hok.1)⟩
  | freejobs reports =>
    obtain ⟨s', l', c', heq, hon', hpend⟩ := hon.freejobs hok.2
    exact ⟨s', heq, hon'.inv (hpend.trans hok.1)⟩
  | restartjob jp fg stat =>
    obtain ⟨s', l', c', heq, hon', hpend⟩ := hon.restartjob (hok.2.1.mem hon) hok.2.2
    exact ⟨s', heq, hon'.inv (hpend.trans hok.1)⟩
  | syswait jp stat =>
    obtain ⟨s', l', c', heq, hon', hpend⟩ := hon.syswait (hok.2.1.mem hon) hok.2.2
    exact ⟨s', heq, hon'.inv (hpend.trans hok.1)⟩
  | printjob jp =>
    exact ⟨_, rfl, (hon.printjob (hok.2.mem hon)).inv (printjob_pending.trans hok.1)⟩
  | clearjobs =>
    obtain ⟨s', heq, hon', hpend⟩ := hon.clearjobs hok
    exact ⟨s', heq, hon'.inv hpend⟩

def Table.empty : Table where
  joblst := ⟨none, fun _ => none⟩
  jobcur := ⟨none, fun _ => none⟩
  job _ := ⟨0, 0, 0, Flag.zero⟩
  jobcnt := 0
  jobdone := 0
  jobnote := 0
  nextjob := none
  thisjob := 0
  exitval := 0
  busy _ := false
  blocks := []
  pending := false

theorem Table.Inv.empty : Table.empty.Inv :=
  Table.On.inv (l := []) (c := [])
    ⟨.nil, .nil, .refl _, .nil, rfl, rfl, rfl, fun _ => nofun, fun _ => nofun⟩ rfl

theorem Table.Inv.of_reach (h : Reach step Ok Table.empty s) : s.Inv := by
  refine h.invariant Table.Inv.empty fun s call s' hinv hok hstep => ?_
  obtain ⟨s'', heq, hinv'⟩ := hinv.call hok
  rw [step, heq] at hstep
  exact Option.some.inj hstep ▸ hinv'

/-- What the table is to be: two lists of the same jobs that are not freed, in ascending order
of the ids that are not zero, and counters that count them. -/
def Table.Consistent (s : Table) : Prop :=
  ∃ l c, s.joblst.Is l ∧ s.jobcur.Is c ∧ l.Nodup ∧ c.Nodup ∧ (∀ p, p ∈ l ↔ p ∈ c) ∧
    (∀ p ∈ l, s.busy p = true) ∧
    (l.Pairwise fun p q => (s.job p).jid ≠ 0 → (s.job p).jid < (s.job q).jid) ∧
    s.jobcnt = l.length + s.pending.toNat ∧
    (s.jobdone = l.countP fun p => (s.job p).flag.done) ∧
    s.jobnote = l.countP fun p => (s.job p).flag.notify

theorem Table.Inv.consistent (h : s.Inv) : s.Consistent := by
  obtain ⟨l, c, hon, -⟩ := h
  refine ⟨l, c, hon.joblst, hon.jobcur, Chain.nodup hon.joblst, Chain.nodup hon.jobcur,
    fun p => hon.same.mem_iff, hon.busy, ?_, hon.jobcnt, hon.jobdone, hon.jobnote⟩
  exact hon.ids.imp fun h hne => h.resolve_left hne

/-- In a run that keeps to the order and avoids what goes wrong, the table is consistent, and
the next call comes to an end. -/
theorem jobs_consistent (h : Reach step Ok Table.empty s) :
    s.Consistent ∧ ∀ call, Ok s call → ∃ s', s.call call = .ok s' := by
  have hinv := Table.Inv.of_reach h
  refine ⟨hinv.consistent, fun call hok => ?_⟩
  obtain ⟨s', heq, -⟩ := hinv.call hok
  exact ⟨s', heq⟩

/-- A job that is stopped in the foreground, and another one in the background. -/
def twoJobs : List Call :=
  [.allocjob 1 true, .postjob 10 true false (some (.stopped 20)), .allocjob 2 true,
    .postjob 11 false false none]

theorem twoJobs_ok : RunOk step Ok twoJobs Table.empty := by
  refine ⟨⟨rfl, rfl⟩, fun s1 h1 => ?_⟩
  obtain rfl := Option.some.inj h1
  refine ⟨rfl, fun s2 h2 => ?_⟩
  obtain rfl := Option.some.inj h2
  refine ⟨⟨rfl, rfl⟩, fun s3 h3 => ?_⟩
  obtain rfl := Option.some.inj h3
  exact ⟨rfl, fun _ _ => trivial⟩

theorem jobs_consistent_one : ∃ s, run step twoJobs Table.empty = some s ∧ s.jobcnt = 2 ∧
    s.Consistent := by
  obtain ⟨s, hrun, hcount⟩ := exists_of_run_any step twoJobs Table.empty
    (fun s => s.jobcnt = 2) (by decide)
  exact ⟨s, hrun, of_decide_eq_true hcount, (jobs_consistent (reach_of_run hrun twoJobs_ok)).1⟩

/-- A job in the background, and then a subshell. -/
def subshell : List Call :=
  [.allocjob 1 false, .postjob 10 false false none, .allocjob 2 false, .clearjobs]

/-- In the subshell `jobcur` still begins with the job of its parent. -/
theorem jobs_inconsistent :
    ∃ s, Reach step (fun _ _ => True) Table.empty s ∧ ¬ s.Consistent := by
  obtain ⟨s, hrun, hlists⟩ := exists_of_run_any step subshell Table.empty
    (fun s => s.joblst.head = none ∧ s.jobcur.head = some 1) (by decide)
  obtain ⟨hlst, hcur⟩ := of_decide_eq_true hlists
  refine ⟨s, reach_of_run hrun (runOk_of_forall (fun _ _ => trivial) _), ?_⟩
  rintro ⟨l, c, hl, hc, -, -, hsame, -⟩
  rw [Links.Is, hlst] at hl
  rw [Links.Is, hcur] at hc
  obtain ⟨c', rfl, -⟩ := hc.exists_cons
  have hmem := (hsame 1).mpr (List.mem_cons_self ..)
  rw [hl.eq_nil] at hmem
  cases hmem

end Unitas.Sh.Jobs
