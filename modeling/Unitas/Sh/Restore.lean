import Mathlib.Order.Basic
import Unitas.Sh.Initio

/-! What `restore` makes of the descriptors after a call of `initio`, and when that is what
they were before. -/
namespace Unitas.Sh.Io

/-- The first redirection of a descriptor. -/
def first (iop : List Ionod) (d : ℕ) : Option Ionod :=
  iop.find? fun i => i.op.effective && i.ioufd.val == d

/-- What `d` refers to after `restore`, if it was `t` before `initio` and `t₀` after the
command: all but the first save of a descriptor are overridden. -/
def back (iop : List Ionod) (t t₀ : Fds) (d : ℕ) : Option ℕ :=
  match first iop d with
  | none => t₀.file d
  | some i => if i.saveFails then none else t.file d

variable {NOFILE : ℕ} {iop : List Ionod} {i : Ionod} {s s' s₁ : State} {n : ℕ}

theorem first_cons_skip (h : i.op.effective = false) (d : ℕ) :
    first (i :: iop) d = first iop d := by
  simp [first, h]

theorem first_cons_self (h : i.op.effective = true) : first (i :: iop) i.ioufd = some i := by
  simp [first, h]

theorem first_cons_ne {d : ℕ} (h : d ≠ i.ioufd) : first (i :: iop) d = first iop d := by
  have hne : (i.ioufd.val == d) = false := by simpa using Ne.symm h
  simp [first, hne]

/-- Of the fields that a step of `initio` leaves alone. -/
structure Frame (s s' : State) : Prop where
  top : s.topfd ≤ s'.topfd
  map : ∀ k < s.topfd, s'.fdmap k = s.fdmap k

theorem Frame.trans {s'' : State} (h : Frame s s') (h' : Frame s' s'') : Frame s s'' where
  top := h.top.trans h'.top
  map k hk := (h'.map k (hk.trans_le h.top)).trans (h.map k hk)

/-- One effective redirection, split into its save and what it does. -/
theorem initio_cons (heff : i.op.effective = true) (h : initio NOFILE (i :: iop) s = .ok s₁) :
    ∃ t', s.topfd < NOFILE ∧
      redirect i.ioufd i.op (savefd i.saveFails i.ioufd s.fds).2 = .ok t' ∧
      initio NOFILE iop ⟨t', Function.update s.fdmap s.topfd
        ⟨i.ioufd, (savefd i.saveFails i.ioufd s.fds).1⟩, s.topfd + 1⟩ = .ok s₁ := by
  rw [initio, if_pos heff, save] at h
  split_ifs at h with hwild
  · cases h
  · cases hred : redirect i.ioufd i.op (savefd i.saveFails i.ioufd s.fds).2 with
    | error e =>
      simp only [bind, Except.bind, hred] at h
      cases h
    | ok t' =>
      simp only [bind, Except.bind, hred] at h
      exact ⟨t', Nat.lt_of_not_le hwild, rfl, h⟩

theorem initio_cons_eq (heff : i.op.effective = true) (htop : s.topfd < NOFILE) {t' : Fds}
    (hred : redirect i.ioufd i.op (savefd i.saveFails i.ioufd s.fds).2 = .ok t') :
    initio NOFILE (i :: iop) s = initio NOFILE iop ⟨t', Function.update s.fdmap s.topfd
      ⟨i.ioufd, (savefd i.saveFails i.ioufd s.fds).1⟩, s.topfd + 1⟩ := by
  rw [initio, if_pos heff, save, if_neg (Nat.not_le_of_lt htop)]
  simp only [bind, Except.bind, hred]

theorem initio_frame (h : initio NOFILE iop s = .ok s₁) : Frame s s₁ := by
  induction iop generalizing s with
  | nil => exact Except.ok.inj h ▸ ⟨le_rfl, fun _ _ => rfl⟩
  | cons i iop ih =>
    by_cases heff : i.op.effective
    · obtain ⟨t', -, -, hrest⟩ := initio_cons heff h
      refine Frame.trans ⟨Nat.le_succ _, fun k hk => ?_⟩ (ih hrest)
      exact Function.update_of_ne (Nat.ne_of_lt hk) ..
    · rw [initio, if_neg heff] at h
      exact ih h

/-- A descriptor that is not redirected is left alone. -/
theorem initio_file (h : initio NOFILE iop s = .ok s₁) (hn : n < 10) (hfirst : first iop n = none) :
    s₁.fds.file n = s.fds.file n := by
  induction iop generalizing s with
  | nil => rw [← Except.ok.inj h]
  | cons i iop ih =>
    by_cases heff : i.op.effective
    · obtain ⟨t', -, hred, hrest⟩ := initio_cons heff h
      have hne : n ≠ i.ioufd := by
        rintro rfl
        rw [first_cons_self heff] at hfirst
        cases hfirst
      rw [first_cons_ne hne] at hfirst
      have ht' := file_redirect hred hne
      have hsave : (savefd i.saveFails i.ioufd s.fds).2.file n = s.fds.file n := by
        rcases savefd_eq i.saveFails i.ioufd s.fds with ⟨heq, -⟩ | ⟨m, fd, hm, -, -, -, heq⟩
        · rw [heq]
        · rw [heq, Fds.file_set, if_neg (by omega)]
      rw [ih hrest hfirst, ht', hsave]
    · rw [Bool.not_eq_true] at heff
      rw [first_cons_skip heff] at hfirst
      rw [initio, if_neg (by simp [heff])] at h
      exact ih h hfirst

/-- The last round of the loop undoes the first save. -/
theorem restoreFrom_succ (last m : ℕ) (s : State) :
    restoreFrom last (m + 1) s =
      { restoreFrom (last + 1) m s with
        fds := undo (s.fdmap last) (restoreFrom (last + 1) m s).fds } := by
  induction m generalizing s with
  | zero => rfl
  | succ m ih =>
    rw [restoreFrom, ih, restoreFrom, Nat.add_right_comm, Nat.add_assoc last m 1]

theorem restore_fds {last : ℕ} (h : last < s.topfd) :
    (restore last s).fds = undo (s.fdmap last) (restore (last + 1) s).fds := by
  obtain ⟨m, hm⟩ : ∃ m, s.topfd - last = m + 1 := ⟨s.topfd - last - 1, by omega⟩
  have hm' : s.topfd - (last + 1) = m := by omega
  unfold restore
  rw [hm, hm', restoreFrom_succ]

/-- The state `t₀` of the command's end as `restore` finds it. -/
structure Kept (s₁ t₀ : State) : Prop where
  top : t₀.topfd = s₁.topfd
  map : ∀ k < s₁.topfd, t₀.fdmap k = s₁.fdmap k
  high : ∀ n, 10 ≤ n → t₀.fds.file n = s₁.fds.file n

theorem back_cons_ne {t t' t₀ : Fds} {d : ℕ} (hne : d ≠ i.ioufd) (ht : t'.file d = t.file d) :
    back iop t' t₀ d = back (i :: iop) t t₀ d := by
  unfold back
  rw [first_cons_ne hne, ht]

theorem back_cons_self {t t₀ : Fds} (heff : i.op.effective = true) :
    back (i :: iop) t t₀ i.ioufd = if i.saveFails then none else t.file i.ioufd := by
  unfold back
  rw [first_cons_self heff]

/-- Induction on the list: the later saves are undone first. -/
theorem file_restore (h : initio NOFILE iop s = .ok s₁) {t₀ : State} (hkept : Kept s₁ t₀)
    (n : ℕ) : (restore s.topfd t₀).fds.file n =
      if n < 10 then back iop s.fds t₀.fds n else s.fds.file n := by
  induction iop generalizing s n with
  | nil =>
    have hs := Except.ok.inj h
    have hfds : (restore s.topfd t₀).fds = t₀.fds := by
      rw [restore, hkept.top, ← hs, Nat.sub_self]
      rfl
    rw [hfds]
    split_ifs with hn
    · rfl
    · rw [hkept.high n (Nat.le_of_not_lt hn), hs]
  | cons i iop ih =>
    by_cases heff : i.op.effective
    · obtain ⟨t', -, hred, hrest⟩ := initio_cons heff h
      have hframe := initio_frame hrest
      have hsave : t₀.fdmap s.topfd =
          ⟨i.ioufd, (savefd i.saveFails i.ioufd s.fds).1⟩ := by
        rw [hkept.map _ hframe.top, hframe.map _ (Nat.lt_succ_self _)]
        exact Function.update_self ..
      have hi := i.ioufd.isLt
      have hlater := ih hrest
      rw [restore_fds (by rw [hkept.top]; exact hframe.top), hsave]
      rcases savefd_eq i.saveFails i.ioufd s.fds with
        ⟨heq, hnone⟩ | ⟨m, fd, hm, hfree, hok, hget, heq⟩
      · rw [heq] at hred
        simp only [heq, undo, Fds.file_close]
        by_cases hne : n = i.ioufd
        · rw [if_pos hne, hne, if_pos hi, back_cons_self heff]
          split_ifs with hfails
          · rfl
          · rw [hnone.resolve_left hfails]
        · rw [if_neg hne, hlater, back_cons_ne hne (file_redirect hred hne),
            file_redirect hred hne]
      · have hsaved : ∀ d : ℕ, d ≠ i.ioufd →
            t'.file d = if d = m then s.fds.file i.ioufd else s.fds.file d := by
          intro d hd
          rw [file_redirect hred hd, heq, Fds.file_set, Fds.file, Fds.file, hget]
          rfl
        have hme : m ≠ i.ioufd := by omega
        have hdup : (restore (s.topfd + 1) t₀).fds.file m = s.fds.file i.ioufd := by
          rw [hlater, if_neg (by omega), hsaved m hme, if_pos rfl]
        have hopen : ∃ f, (restore (s.topfd + 1) t₀).fds.get m = some f := by
          rw [Fds.file, Fds.file, hget] at hdup
          obtain ⟨f, hf, -⟩ := Option.map_eq_some_iff.mp hdup
          exact ⟨f, hf⟩
        obtain ⟨f, hf⟩ := hopen
        simp only [heq, undo]
        rw [file_renamef hf, hdup]
        by_cases hne : n = i.ioufd
        · rw [if_pos hne, hne, if_pos hi, back_cons_self heff, hok]
          rfl
        · rw [if_neg hne]
          by_cases hnm : n = m
          · rw [if_pos hnm, if_neg (by omega), hnm, hfree]
          · have hsame := hsaved n hne
            rw [if_neg hnm] at hsame
            rw [if_neg hnm, hlater, back_cons_ne hne hsame, hsame]
    · rw [Bool.not_eq_true] at heff
      rw [initio, if_neg (by simp [heff])] at h
      rw [ih h]
      unfold back
      rw [first_cons_skip heff]

/-! ### Calls -/

/-- How many saves `initio` makes. -/
def saves (iop : List Ionod) : ℕ := (iop.filter fun i => i.op.effective).length

/-- No `open` fails, and the word behind `<&` is a descriptor or a minus sign. -/
def Op.Completes : Op → Prop
  | .skip => True
  | .doc script temp expanded => script.isSome ∧ temp.isSome ∧ expanded.isSome
  | .mov .minus => True
  | .mov (.number n _) => n < 10
  | .mov .other => False
  | .open file => file.isSome

theorem Op.Completes.redirect {op : Op} (h : op.Completes) (ioufd : ℕ) (t : Fds) :
    ∃ t', Io.redirect ioufd op t = .ok t' := by
  cases op with
  | skip => exact ⟨t, rfl⟩
  | doc script temp expanded =>
    obtain ⟨h1, h2, h3⟩ := h
    obtain ⟨f1, rfl⟩ := Option.isSome_iff_exists.mp h1
    obtain ⟨f2, rfl⟩ := Option.isSome_iff_exists.mp h2
    obtain ⟨f3, rfl⟩ := Option.isSome_iff_exists.mp h3
    exact ⟨_, rfl⟩
  | mov ion =>
    cases ion with
    | minus => exact ⟨_, rfl⟩
    | number n fails =>
      have hn : ¬ n ≥ 10 := Nat.not_le_of_lt h
      simp only [Io.redirect, if_neg hn]
      cases hdup : (if fails then (none, t) else t.dup n 0 : Option ℕ × Fds) with
      | mk fd t' => cases fd <;> exact ⟨_, rfl⟩
    | other => exact absurd h id
  | «open» file =>
    obtain ⟨f, rfl⟩ := Option.isSome_iff_exists.mp h
    exact ⟨_, rfl⟩

/-- A list that completes runs into the end of `fdmap`, or it does not. -/
theorem initio_total (h : ∀ i ∈ iop, i.op.Completes) (s : State) :
    (∃ s₁, initio NOFILE iop s = .ok s₁) ↔ saves iop ≤ NOFILE - s.topfd := by
  induction iop generalizing s with
  | nil => exact ⟨fun _ => Nat.zero_le _, fun _ => ⟨s, rfl⟩⟩
  | cons i iop ih =>
    have hiop : ∀ j ∈ iop, j.op.Completes := fun j hj => h j (List.mem_cons_of_mem _ hj)
    by_cases heff : i.op.effective
    · have hsaves : saves (i :: iop) = saves iop + 1 := by
        simp [saves, heff]
      rw [hsaves]
      constructor
      · rintro ⟨s₁, hs₁⟩
        obtain ⟨t', htop, -, hrest⟩ := initio_cons heff hs₁
        have hle := (ih hiop _).mp ⟨s₁, hrest⟩
        change saves iop ≤ NOFILE - (s.topfd + 1) at hle
        omega
      · intro hle
        obtain ⟨t', hred⟩ := (h i (by simp)).redirect i.ioufd
          (savefd i.saveFails i.ioufd s.fds).2
        rw [initio_cons_eq heff (by omega) hred]
        apply (ih hiop _).mpr
        change saves iop ≤ NOFILE - (s.topfd + 1)
        omega
    · have hsaves : saves (i :: iop) = saves iop := by
        simp [saves, heff]
      rw [initio, if_neg heff, hsaves]
      exact ih hiop s

mutual

def Call.Completes : Call → Prop
  | .mk iop body => (∀ i ∈ iop, i.op.Completes) ∧ AllComplete body

def AllComplete : List Call → Prop
  | [] => True
  | c :: cs => c.Completes ∧ AllComplete cs

end

variable (NOFILE)

mutual

/-- Every store to `fdmap` is inside it, and after this call and each one in it the
descriptors from 0 to 9 are what they were before. -/
def Call.Undone : Call → State → Prop
  | .mk iop body, s => ∃ s₁ s₂, initio NOFILE iop s = .ok s₁ ∧ AllUndone body s₁ ∧
      runAll NOFILE body s₁ = .ok s₂ ∧
      ∀ d < 10, (restore s.topfd s₂).fds.file d = s.fds.file d

def AllUndone : List Call → State → Prop
  | [], _ => True
  | c :: cs, s => c.Undone s ∧ ∀ s', c.run NOFILE s = .ok s' → AllUndone cs s'

end

/-- The first save of each open descriptor finds room for it. -/
def FirstSaved (iop : List Ionod) (t : Fds) : Prop :=
  ∀ d < 10, ∀ i, first iop d = some i → i.saveFails = true → t.file d = none

mutual

/-- The saves fit into what is left of `fdmap`, and the first of each open descriptor does
not fail. -/
def Call.Fits : Call → State → Prop
  | .mk iop body, s => saves iop ≤ NOFILE - s.topfd ∧ FirstSaved iop s.fds ∧
      ∀ s₁, initio NOFILE iop s = .ok s₁ → AllFit body s₁

def AllFit : List Call → State → Prop
  | [], _ => True
  | c :: cs, s => c.Fits s ∧ ∀ s', c.run NOFILE s = .ok s' → AllFit cs s'

end

variable {NOFILE}

theorem run_eq_ok {body : List Call} :
    (Call.mk iop body).run NOFILE s = .ok s' ↔
      ∃ s₁ s₂, initio NOFILE iop s = .ok s₁ ∧ runAll NOFILE body s₁ = .ok s₂ ∧
        restore s.topfd s₂ = s' := by
  rw [Call.run]
  cases h₁ : initio NOFILE iop s with
  | error e => simp [bind, Except.bind]
  | ok s₁ =>
    cases h₂ : runAll NOFILE body s₁ with
    | error e => simp [bind, Except.bind, h₂]
    | ok s₂ => simp [bind, Except.bind, h₂]

theorem runAll_cons_eq_ok {c : Call} {cs : List Call} :
    runAll NOFILE (c :: cs) s = .ok s' ↔
      ∃ s₁, c.run NOFILE s = .ok s₁ ∧ runAll NOFILE cs s₁ = .ok s' := by
  rw [runAll]
  cases h₁ : c.run NOFILE s with
  | error e => simp [bind, Except.bind]
  | ok s₁ => simp [bind, Except.bind]

theorem restoreFrom_fdmap (last m : ℕ) (s : State) :
    (restoreFrom last m s).fdmap = s.fdmap := by
  induction m generalizing s with
  | zero => rfl
  | succ m ih => exact ih _

mutual

/-- Whatever the lists are, the descriptors from 10 on and the saves made before stay. -/
theorem Call.run_kept : ∀ (c : Call) (s s' : State), c.run NOFILE s = .ok s' → Kept s s'
  | .mk iop body, s, s', h => by
    obtain ⟨s₁, s₂, h₁, h₂, rfl⟩ := run_eq_ok.mp h
    have hkept := runAll_kept body s₁ s₂ h₂
    have hframe := initio_frame h₁
    refine ⟨rfl, fun k hk => ?_, fun n hn => ?_⟩
    · change (restoreFrom s.topfd _ s₂).fdmap k = _
      rw [restoreFrom_fdmap, hkept.map k (hk.trans_le hframe.top), hframe.map k hk]
    · rw [file_restore h₁ hkept, if_neg (Nat.not_lt_of_le hn)]

theorem runAll_kept : ∀ (cs : List Call) (s s' : State), runAll NOFILE cs s = .ok s' → Kept s s'
  | [], s, s', h => Except.ok.inj h ▸ ⟨rfl, fun _ _ => rfl, fun _ _ => rfl⟩
  | c :: cs, s, s', h => by
    obtain ⟨s₁, h₁, h₂⟩ := runAll_cons_eq_ok.mp h
    have hkept := c.run_kept s s₁ h₁
    have hkept' := runAll_kept cs s₁ s' h₂
    refine ⟨hkept'.top.trans hkept.top, fun k hk => ?_, fun n hn => ?_⟩
    · rw [hkept'.map k (by rw [hkept.top]; exact hk), hkept.map k hk]
    · rw [hkept'.high n hn, hkept.high n hn]

end

theorem run_of_undone {c : Call} (h : c.Undone NOFILE s) :
    ∃ s', c.run NOFILE s = .ok s' ∧ ∀ d < 10, s'.fds.file d = s.fds.file d := by
  cases c with
  | mk iop body =>
    obtain ⟨s₁, s₂, h₁, -, h₂, hfile⟩ := h
    exact ⟨_, run_eq_ok.mpr ⟨s₁, s₂, h₁, h₂, rfl⟩, hfile⟩

theorem runAll_of_undone {cs : List Call} (h : AllUndone NOFILE cs s) :
    ∃ s', runAll NOFILE cs s = .ok s' ∧ ∀ d < 10, s'.fds.file d = s.fds.file d := by
  induction cs generalizing s with
  | nil => exact ⟨s, rfl, fun _ _ => rfl⟩
  | cons c cs ih =>
    obtain ⟨s₁, h₁, hfile₁⟩ := run_of_undone h.1
    obtain ⟨s', h', hfile'⟩ := ih (h.2 s₁ h₁)
    exact ⟨s', runAll_cons_eq_ok.mpr ⟨s₁, h₁, h'⟩, fun d hd =>
      (hfile' d hd).trans (hfile₁ d hd)⟩

/-- With the commands in between undone, a list is undone exactly when its first saves have
been made. -/
theorem file_restore_iff {s₂ : State} (h : initio NOFILE iop s = .ok s₁) (hkept : Kept s₁ s₂)
    (hsame : ∀ d < 10, s₂.fds.file d = s₁.fds.file d) :
    (∀ d < 10, (restore s.topfd s₂).fds.file d = s.fds.file d) ↔ FirstSaved iop s.fds := by
  have hback : ∀ d < 10, (restore s.topfd s₂).fds.file d = back iop s.fds s₂.fds d := by
    intro d hd
    rw [file_restore h hkept, if_pos hd]
  constructor
  · intro hall d hd i hi hfails
    rw [← hall d hd, hback d hd, back, hi]
    exact if_pos hfails
  · intro hsaved d hd
    rw [hback d hd, back]
    cases hi : first iop d with
    | none => exact (hsame d hd).trans (initio_file h hd hi)
    | some i =>
      simp only
      split_ifs with hfails
      · exact (hsaved d hd i hi hfails).symm
      · rfl

mutual

theorem Call.undone_iff : ∀ (c : Call) (s : State), c.Completes →
    (c.Undone NOFILE s ↔ c.Fits NOFILE s)
  | .mk iop body, s, h => by
    constructor
    · rintro ⟨s₁, s₂, h₁, hbody, h₂, hfile⟩
      obtain ⟨s₂', h₂', hsame⟩ := runAll_of_undone hbody
      obtain rfl : s₂' = s₂ := Except.ok.inj (h₂'.symm.trans h₂)
      refine ⟨(initio_total h.1 s).mp ⟨s₁, h₁⟩,
        (file_restore_iff h₁ (runAll_kept body s₁ _ h₂) hsame).mp hfile, fun s₁' h₁' => ?_⟩
      obtain rfl : s₁ = s₁' := Except.ok.inj (h₁.symm.trans h₁')
      exact (allUndone_iff body s₁ h.2).mp hbody
    · rintro ⟨hsaves, hfirst, hbody⟩
      obtain ⟨s₁, h₁⟩ := (initio_total h.1 s).mpr hsaves
      have hundone := (allUndone_iff body s₁ h.2).mpr (hbody s₁ h₁)
      obtain ⟨s₂, h₂, hsame⟩ := runAll_of_undone hundone
      exact ⟨s₁, s₂, h₁, hundone, h₂,
        (file_restore_iff h₁ (runAll_kept body s₁ s₂ h₂) hsame).mpr hfirst⟩

theorem allUndone_iff : ∀ (cs : List Call) (s : State), AllComplete cs →
    (AllUndone NOFILE cs s ↔ AllFit NOFILE cs s)
  | [], _, _ => Iff.rfl
  | c :: cs, s, h => by
    rw [AllUndone, AllFit, c.undone_iff s h.1]
    exact and_congr_right fun _ => forall₂_congr fun s' _ => allUndone_iff cs s' h.2

end

/-- The redirections of a call and of those in it are undone if and only if their saves fit
into `fdmap` and the first of each open descriptor does not fail. -/
theorem initio_restore_iff (NOFILE : ℕ) (c : Call) (s : State) (h : c.Completes) :
    c.Undone NOFILE s ↔ c.Fits NOFILE s := c.undone_iff s h

/-- Three descriptors, as a shell starts with them. -/
def start : State where
  fds := ⟨fun n => if n < 3 then some ⟨n, false⟩ else none, 3, fun _ hn => if_neg (by omega)⟩
  fdmap _ := ⟨0, none⟩
  topfd := 0

/-- A call that redirects a descriptor twice, and one in it that redirects it again. -/
def nested : Call :=
  .mk [⟨2, .mov (.number 1 false), false⟩, ⟨2, .open (some 7), false⟩]
    [.mk [⟨2, .mov .minus, false⟩] []]

theorem initio_restore_one : nested.Undone 20 start ↔ nested.Fits 20 start :=
  initio_restore_iff 20 nested start
    ⟨by simp [Op.Completes], ⟨⟨by simp [Op.Completes], trivial⟩, trivial⟩⟩

/-- One redirection more than `fdmap` has entries. -/
theorem initio_not_undone :
    ¬ (Call.mk (List.replicate 21 ⟨2, .mov (.number 1 false), false⟩) []).Undone 20 start := by
  intro h
  have hcomplete :
      (Call.mk (List.replicate 21 ⟨2, .mov (.number 1 false), false⟩) []).Completes := by
    refine ⟨fun i hi => ?_, trivial⟩
    rw [List.eq_of_mem_replicate hi]
    exact (by decide : 1 < 10)
  have hfits := ((Call.mk (List.replicate 21 ⟨2, .mov (.number 1 false), false⟩) []).undone_iff start
    hcomplete).mp h
  exact absurd hfits.1 (by decide)

end Unitas.Sh.Io
