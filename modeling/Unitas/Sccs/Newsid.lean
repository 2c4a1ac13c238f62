import Unitas.Sccs.Reservations
import Unitas.Sccs.Dodelt

/-! The version that `getser` finds for a request, and the number that `newsid` gives to the next
one. -/
namespace Unitas.Sccs.Edit
open Unitas.Decimal

def MAX : ℕ := 9999

/-- What `getser` and `newsid` read: the delta table, its highest release, and the p-file, if there
is one. -/
structure Versions where
  zone : Zone
  idel : ℕ → Idel
  maxser : ℕ
  p_maxr : ℕ
  joint : Bool
  p : Option Line

namespace Versions

def lines (v : Versions) : List Line := (v.p.map (bufs BUFSIZ)).getD []

def sidtoser (v : Versions) (sp : Sid) : ℕ := sidtoserFrom v.idel sp v.maxser

def in_pfile (v : Versions) (sp : Sid) : Except Fatal Bool :=
  if v.joint then Edit.in_pfile v.zone sp v.lines else .ok false

/-! ### `getser` -/

/-- `chksid`: the SID is valid, and nothing comes after it. -/
def chksid (p : Line) (sp : Sid) : Bool :=
  p = [] && !((sp.s_rel = 0 && sp.s_lev ≠ 0) || (sp.s_lev = 0 && sp.s_br ≠ 0) ||
    (sp.s_br = 0 && sp.s_seq ≠ 0))

/-- The loop for a release; `t` says that branches count. -/
def releaseLoop (v : Versions) (t : Bool) (req : Sid) : ℕ → ℕ → ℕ → ℕ
  | 0, ser, _ => ser
  | n + 1, ser, rel =>
    let sid := (v.idel (n + 1)).i_sid
    if (sid.s_br = 0 ∨ t) ∧ sid.s_rel ≤ req.s_rel ∧ rel < sid.s_rel then
      releaseLoop v t req n (n + 1) sid.s_rel
    else releaseLoop v t req n ser rel

/-- The loop for the youngest SID of a level. -/
def levelLoop (v : Versions) (req : Sid) : ℕ → ℕ
  | 0 => 0
  | n + 1 =>
    let sid := (v.idel (n + 1)).i_sid
    if sid.s_rel = req.s_rel ∧ sid.s_lev = req.s_lev then n + 1 else levelLoop v req n

/-- The loop for a branch. -/
def branchLoop (v : Versions) (req : Sid) : ℕ → ℕ → ℕ
  | 0, ser => ser
  | n + 1, ser =>
    let sid := (v.idel (n + 1)).i_sid
    if sid.s_rel = req.s_rel ∧ sid.s_lev = req.s_lev then
      if sid.s_br = req.s_br then n + 1 else branchLoop v req n (n + 1)
    else branchLoop v req n ser

/-- `getser`: the serial, and what `p_reqsid` and `p_gotsid` are then. `flag` is the default SID
among the flags of the file. -/
def getser (v : Versions) (t : Bool) (flag : Option Line) (req got : Sid) :
    Except Fatal (ℕ × Sid × Sid) :=
  let req' : Except Fatal (Sid × Bool) :=
    if req.s_rel = 0 then
      match flag with
      | some p => if chksid (sid_ab p).2 (sid_ab p).1 then .ok ((sid_ab p).1, false)
        else .error .other
      | none => .ok ({ req with s_rel := MAX }, true)
    else .ok (req, false)
  match req' with
  | .error e => .error e
  | .ok (req, dflt) =>
    let ser :=
      if req.s_lev = 0 then v.releaseLoop t req v.maxser 0 got.s_rel
      else if req.s_br = 0 ∧ t then v.levelLoop req v.maxser
      else if req.s_br ≠ 0 ∧ req.s_seq = 0 then v.branchLoop req v.maxser 0
      else v.sidtoser req
    if ser = 0 then .error .other
    else
      let got := (v.idel ser).i_sid
      .ok (ser, if dflt ∨ (req.s_lev = 0 ∧ req.s_rel = got.s_rel) then got else req, got)

theorem releaseLoop_le (v : Versions) (t : Bool) (req : Sid) (n : ℕ) : ∀ (ser rel : ℕ),
    v.releaseLoop t req n ser rel ≤ max n ser := by
  induction n with
  | zero => exact fun ser rel => le_max_right 0 ser
  | succ n ih =>
    intro ser rel
    unfold releaseLoop
    dsimp only
    split_ifs
    · exact (ih _ _).trans (by omega)
    · exact (ih _ _).trans (by omega)

theorem levelLoop_le (v : Versions) (req : Sid) (n : ℕ) : v.levelLoop req n ≤ n := by
  induction n with
  | zero => exact le_rfl
  | succ n ih =>
    unfold levelLoop
    dsimp only
    split_ifs
    · exact le_rfl
    · exact ih.trans (Nat.le_succ n)

theorem branchLoop_le (v : Versions) (req : Sid) (n : ℕ) : ∀ ser : ℕ,
    v.branchLoop req n ser ≤ max n ser := by
  induction n with
  | zero => exact fun ser => le_max_right 0 ser
  | succ n ih =>
    intro ser
    unfold branchLoop
    dsimp only
    split_ifs
    · exact le_max_left _ _
    · exact (ih _).trans (by omega)
    · exact (ih _).trans (by omega)

theorem sidtoserFrom_le (idel : ℕ → Idel) (sp : Sid) (n : ℕ) : sidtoserFrom idel sp n ≤ n := by
  induction n with
  | zero => exact le_rfl
  | succ n ih =>
    unfold sidtoserFrom
    split_ifs
    · exact le_rfl
    · exact ih.trans (Nat.le_succ n)

/-- `getser` finds a place of the table, and the SID that is there. -/
theorem getser_delta {v : Versions} {t : Bool} {flag : Option Line} {reqsid gotsid : Sid} {ser : ℕ}
    {req got : Sid} (h : v.getser t flag reqsid gotsid = .ok (ser, req, got)) :
    1 ≤ ser ∧ ser ≤ v.maxser ∧ got = (v.idel ser).i_sid := by
  unfold getser at h
  dsimp only at h
  split at h
  · exact absurd h (by simp)
  · rename_i req dflt _
    have hle : (if req.s_lev = 0 then v.releaseLoop t req v.maxser 0 gotsid.s_rel
        else if req.s_br = 0 ∧ t = true then v.levelLoop req v.maxser
        else if req.s_br ≠ 0 ∧ req.s_seq = 0 then v.branchLoop req v.maxser 0
        else v.sidtoser req) ≤ v.maxser := by
      split_ifs
      · exact (v.releaseLoop_le t req v.maxser 0 gotsid.s_rel).trans (by omega)
      · exact v.levelLoop_le req v.maxser
      · exact (v.branchLoop_le req v.maxser 0).trans (by omega)
      · exact sidtoserFrom_le v.idel req v.maxser
    generalize (if req.s_lev = 0 then v.releaseLoop t req v.maxser 0 gotsid.s_rel
        else if req.s_br = 0 ∧ t = true then v.levelLoop req v.maxser
        else if req.s_br ≠ 0 ∧ req.s_seq = 0 then v.branchLoop req v.maxser 0
        else v.sidtoser req) = n at h hle
    by_cases hn : n = 0
    · rw [if_pos hn] at h
      exact absurd h (by simp)
    · rw [if_neg hn] at h
      obtain ⟨rfl, hrest⟩ := Prod.mk.inj (Except.ok.inj h)
      exact ⟨by omega, hle, (Prod.mk.inj hrest).2.symm⟩

/-! ### `newsid` -/

/-- `while` a test holds, the next branch; `chkbr` counts them. -/
def bump (test : Sid → Except Fatal Bool) : ℕ → ℕ → Sid → Option (Except Fatal (ℕ × Sid))
  | 0, _, _ => none
  | fuel + 1, chkbr, sp =>
    match test sp with
    | .error e => some (.error e)
    | .ok true => bump test fuel (chkbr + 1) { sp with s_br := sp.s_br + 1 }
    | .ok false => some (.ok (chkbr, sp))

def in_table (v : Versions) (sp : Sid) : Except Fatal Bool := .ok (v.sidtoser sp ≠ 0)

/-- `while (chkbr)`. -/
def recheck (v : Versions) (fuel : ℕ) : ℕ → ℕ → Sid → Option (Except Fatal Sid)
  | 0, _, _ => none
  | _ + 1, 0, sp => some (.ok sp)
  | turns + 1, chkbr + 1, sp =>
    match bump v.in_pfile fuel chkbr sp with
    | none => none
    | some (.error e) => some (.error e)
    | some (.ok (chkbr, sp)) =>
      match bump v.in_table fuel chkbr sp with
      | none => none
      | some (.error e) => some (.error e)
      | some (.ok (chkbr, sp)) => recheck v fuel turns chkbr sp

/-- `sidtoser(...) || in_pfile(...)` -/
def taken (v : Versions) (sp : Sid) : Except Fatal Bool :=
  if v.sidtoser sp ≠ 0 then .ok true else v.in_pfile sp

/-- `chkbr` and the SID before the first check. -/
def candidate (v : Versions) (branch : Bool) (req got : Sid) : Except Fatal (ℕ × Sid) :=
  if req.s_br = 0 then
    let req := { req with s_lev := req.s_lev + 1 }
    let other : Sid := { got with s_br := got.s_br + 1, s_seq := 1 }
    if v.sidtoser req ≠ 0 ∨ req.s_rel < v.p_maxr ∨ branch then .ok (1, other)
    else (v.in_pfile req).map fun b => if b then (1, other) else (0, req)
  else if req.s_seq = 0 ∧ branch = false then .ok (0, { req with s_seq := got.s_seq + 1 })
  else
    let req := { req with s_seq := req.s_seq + 1 }
    let other : Sid := { req with s_br := req.s_br + 1, s_seq := 1 }
    if branch then .ok (1, other)
    else (v.taken req).map fun b => if b then (1, other) else (0, req)

def newsid (v : Versions) (branch : Bool) (req got : Sid) (fuel : ℕ) :
    Option (Except Fatal Sid) :=
  match v.candidate branch req got with
  | .error e => some (.error e)
  | .ok (chkbr, sp) =>
    match v.recheck fuel fuel chkbr sp with
    | none => none
    | some (.error e) => some (.error e)
    | some (.ok sp) =>
      match v.taken sp with
      | .error e => some (.error e)
      | .ok true => some (.error .sid)
      | .ok false => some (.ok sp)

/-! ### SIDs that are free -/

/-- A SID that no delta of the table has. -/
def NotInTable (v : Versions) (sp : Sid) : Prop :=
  ∀ n, 1 ≤ n → n ≤ v.maxser → (v.idel n).i_sid ≠ sp

/-- A SID that no line of the p-file is about to make. -/
def NotInPfile (v : Versions) (sp : Sid) : Prop :=
  ∀ l ∈ v.lines, ∀ pf, pf_ab v.zone l.dropLast false = .ok pf → pf.pf_nsid ≠ sp

/-- A SID that is not in the table, nor in the p-file if `newsid` looks at it. -/
def Free (v : Versions) (sp : Sid) : Prop :=
  v.NotInTable sp ∧ (v.joint = true → v.NotInPfile sp)

/-- The p-file has no line that stops `in_pfile`. -/
def Reads (v : Versions) : Prop :=
  v.joint = true → ∀ l ∈ v.lines, ∃ pf, pf_ab v.zone l.dropLast false = .ok pf

theorem sidtoserFrom_eq_zero (idel : ℕ → Idel) (sp : Sid) (n : ℕ) :
    sidtoserFrom idel sp n = 0 ↔ ∀ m, 1 ≤ m → m ≤ n → (idel m).i_sid ≠ sp := by
  induction n with
  | zero =>
    unfold sidtoserFrom
    exact iff_of_true rfl fun m h1 h0 => absurd h1 (by omega)
  | succ n ih =>
    unfold sidtoserFrom
    by_cases h : (idel (n + 1)).i_sid = sp
    · rw [if_pos h]
      exact iff_of_false (Nat.succ_ne_zero n) fun hall => hall (n + 1) (by omega) le_rfl h
    · rw [if_neg h, ih]
      refine ⟨fun hall m h1 hm => ?_, fun hall m h1 hm => hall m h1 (by omega)⟩
      rcases Nat.lt_or_ge n m with hlt | hge
      · obtain rfl : m = n + 1 := by omega
        exact h
      · exact hall m h1 hge

theorem sidtoser_eq_zero (v : Versions) (sp : Sid) : v.sidtoser sp = 0 ↔ v.NotInTable sp :=
  sidtoserFrom_eq_zero v.idel sp v.maxser

theorem in_pfile_lines (zone : Zone) (sp : Sid) (ls : List Line) :
    (Edit.in_pfile zone sp ls = .ok false ↔ ∀ l ∈ ls, ∃ pf,
      pf_ab zone l.dropLast false = .ok pf ∧ pf.pf_nsid ≠ sp) ∧
    ((∀ l ∈ ls, ∃ pf, pf_ab zone l.dropLast false = .ok pf) →
      Edit.in_pfile zone sp ls = .ok true ∨ Edit.in_pfile zone sp ls = .ok false) := by
  induction ls with
  | nil => exact ⟨iff_of_true rfl fun l hl => absurd hl List.not_mem_nil, fun _ => Or.inr rfl⟩
  | cons l ls ih =>
    obtain ⟨ihiff, ihor⟩ := ih
    rw [List.forall_mem_cons, List.forall_mem_cons]
    unfold Edit.in_pfile
    cases hpf : pf_ab zone l.dropLast false with
    | error e =>
      dsimp only
      refine ⟨iff_of_false (by simp) ?_, ?_⟩
      · rintro ⟨⟨pf, h, -⟩, -⟩
        exact absurd h (by simp)
      · rintro ⟨⟨pf, h⟩, -⟩
        exact absurd h (by simp)
    | ok pf =>
      dsimp only
      by_cases h : pf.pf_nsid = sp
      · rw [if_pos h]
        refine ⟨iff_of_false (by simp) ?_, fun _ => Or.inl rfl⟩
        rintro ⟨⟨pf', h', hne⟩, -⟩
        rw [← Except.ok.inj h'] at hne
        exact hne h
      · rw [if_neg h]
        exact ⟨ihiff.trans (and_iff_right ⟨pf, rfl, h⟩).symm, fun hall => ihor hall.2⟩

theorem in_pfile_false (v : Versions) (sp : Sid) :
    v.in_pfile sp = .ok false ↔ v.Reads ∧ (v.joint = true → v.NotInPfile sp) := by
  unfold in_pfile Reads NotInPfile
  by_cases hjoint : v.joint = true
  · rw [if_pos hjoint, (in_pfile_lines v.zone sp v.lines).1]
    constructor
    · intro h
      refine ⟨fun _ l hl => ?_, fun _ l hl pf hpf => ?_⟩
      · obtain ⟨pf, hpf, -⟩ := h l hl
        exact ⟨pf, hpf⟩
      · obtain ⟨pf', hpf', hne⟩ := h l hl
        rw [hpf] at hpf'
        rw [Except.ok.inj hpf']
        exact hne
    · rintro ⟨hreads, hnot⟩ l hl
      obtain ⟨pf, hpf⟩ := hreads hjoint l hl
      exact ⟨pf, hpf, hnot hjoint l hl pf hpf⟩
  · rw [if_neg hjoint]
    exact iff_of_true rfl ⟨fun h => absurd h hjoint, fun h => absurd h hjoint⟩

theorem in_pfile_ok {v : Versions} (h : v.Reads) (sp : Sid) :
    v.in_pfile sp = .ok true ∨ v.in_pfile sp = .ok false := by
  unfold in_pfile
  by_cases hjoint : v.joint = true
  · rw [if_pos hjoint]
    exact (in_pfile_lines v.zone sp v.lines).2 (h hjoint)
  · rw [if_neg hjoint]
    exact Or.inr rfl

theorem taken_false (v : Versions) (sp : Sid) :
    v.taken sp = .ok false ↔ v.Reads ∧ v.Free sp := by
  unfold taken Free
  rw [← sidtoser_eq_zero]
  by_cases h : v.sidtoser sp ≠ 0
  · rw [if_pos h]
    exact iff_of_false (by simp) fun hfree => h hfree.2.1
  · rw [if_neg h, in_pfile_false]
    have hzero := not_not.mp h
    exact ⟨fun hp => ⟨hp.1, hzero, hp.2⟩, fun hp => ⟨hp.1, hp.2.2⟩⟩

theorem taken_ok {v : Versions} (h : v.Reads) (sp : Sid) :
    v.taken sp = .ok true ∨ v.taken sp = .ok false := by
  unfold taken
  split_ifs
  · exact Or.inl rfl
  · exact in_pfile_ok h sp

/-! ### The check -/

/-- Branches are used up to a bound. -/
theorem exists_bound (v : Versions) : ∃ B, ∀ sp, ¬ v.Free sp → sp.s_br ≤ B := by
  let nsidBr (l : Line) : ℕ :=
    match pf_ab v.zone l.dropLast false with
    | .ok pf => pf.pf_nsid.s_br
    | .error _ => 0
  refine ⟨max ((Finset.range (v.maxser + 1)).sup fun n => (v.idel n).i_sid.s_br)
    (v.lines.toFinset.sup nsidBr), fun sp hsp => ?_⟩
  by_contra hlt
  obtain ⟨htable, hpfile⟩ := max_lt_iff.mp (not_le.mp hlt)
  refine hsp ⟨fun n _ hn heq => ?_, fun _ l hl pf hpf heq => ?_⟩
  · have hle := Finset.le_sup (f := fun n => (v.idel n).i_sid.s_br)
      (Finset.mem_range.mpr (Nat.lt_succ_of_le hn))
    rw [heq] at hle
    exact absurd (hle.trans_lt htable) (Nat.lt_irrefl _)
  · have hle := Finset.le_sup (f := nsidBr) (List.mem_toFinset.mpr hl)
    have hbr : nsidBr l = sp.s_br := by
      rw [← heq]
      dsimp only [nsidBr]
      rw [hpf]
    omega

/-- The next branches, as long as they are taken. -/
theorem bump_eq {test : Sid → Except Fatal Bool} {B : ℕ}
    (htest : ∀ sp, test sp = .ok true ∨ test sp = .ok false)
    (hbound : ∀ sp, test sp = .ok true → sp.s_br ≤ B) (fuel : ℕ) : ∀ (chkbr : ℕ) (sp : Sid),
    B + 1 < fuel + sp.s_br → 0 < fuel → ∃ k,
      bump test fuel chkbr sp = some (.ok (chkbr + k, { sp with s_br := sp.s_br + k })) ∧
      test { sp with s_br := sp.s_br + k } = .ok false ∧ (k = 0 ∨ sp.s_br + k ≤ B + 1) := by
  induction fuel with
  | zero => exact fun _ _ _ h => absurd h (Nat.lt_irrefl 0)
  | succ fuel ih =>
    intro chkbr sp hfuel _
    unfold bump
    rcases htest sp with h | h
    · have hle := hbound sp h
      obtain ⟨k, hk, hfalse, hor⟩ := ih (chkbr + 1) { sp with s_br := sp.s_br + 1 }
        (by dsimp only; omega) (by omega)
      rw [h]
      dsimp only at hk hfalse hor ⊢
      have hsum : sp.s_br + 1 + k = sp.s_br + (k + 1) := by omega
      have hcount : chkbr + 1 + k = chkbr + (k + 1) := by omega
      rw [hsum, hcount] at hk
      rw [hsum] at hfalse
      exact ⟨k + 1, hk, hfalse, Or.inr (by omega)⟩
    · rw [h]
      exact ⟨0, rfl, h, Or.inl rfl⟩

/-- The check ends with a SID that is free. A turn takes one from `chkbr` and puts back one for
each branch it goes on by, and there are no more of these than the bound says. -/
theorem recheck_free {v : Versions} (h : v.Reads) {B fuel : ℕ}
    (hB : ∀ sp, ¬ v.Free sp → sp.s_br ≤ B) (hfuel : B + 1 < fuel) (turns : ℕ) :
    ∀ (chkbr : ℕ) (sp : Sid), 2 * (B + 1 - sp.s_br) + chkbr + 1 < turns → 1 ≤ chkbr →
    ∃ sid, v.recheck fuel turns chkbr sp = some (.ok sid) ∧ v.Free sid := by
  have hpfile : ∀ sp, v.in_pfile sp = .ok true → sp.s_br ≤ B := by
    intro sp hsp
    refine hB sp fun hfree => ?_
    rw [(v.in_pfile_false sp).mpr ⟨h, hfree.2⟩] at hsp
    exact absurd hsp (by simp)
  have htable : ∀ sp, v.in_table sp = .ok true → sp.s_br ≤ B := by
    intro sp hsp
    refine hB sp fun hfree => ?_
    unfold in_table at hsp
    rw [(v.sidtoser_eq_zero sp).mpr hfree.1] at hsp
    exact absurd hsp (by decide)
  have hok : ∀ sp, v.in_table sp = .ok true ∨ v.in_table sp = .ok false := by
    intro sp
    unfold in_table
    cases decide (v.sidtoser sp ≠ 0) with
    | false => exact Or.inr rfl
    | true => exact Or.inl rfl
  induction turns with
  | zero => exact fun _ _ hlt => absurd hlt (Nat.not_lt_zero _)
  | succ turns ih =>
    intro chkbr sp hturns hpos
    obtain ⟨chkbr, rfl⟩ := Nat.exists_eq_succ_of_ne_zero (by omega : chkbr ≠ 0)
    obtain ⟨k, hk, hnot, hkor⟩ := bump_eq (in_pfile_ok h) hpfile fuel chkbr sp (by omega) (by omega)
    obtain ⟨j, hj, hnot', hjor⟩ := bump_eq hok htable fuel (chkbr + k)
      { sp with s_br := sp.s_br + k } (by omega) (by omega)
    dsimp only at hj hnot' hjor
    have hstep : v.recheck fuel (turns + 1) (chkbr + 1) sp =
        v.recheck fuel turns (chkbr + k + j) { sp with s_br := sp.s_br + k + j } := by
      rw [recheck, hk]
      dsimp only
      rw [hj]
    rw [hstep]
    by_cases hzero : chkbr + k + j = 0
    · -- nothing has been taken, and nothing is left to check
      obtain ⟨rfl, rfl⟩ : k = 0 ∧ j = 0 := by omega
      obtain ⟨turns, rfl⟩ := Nat.exists_eq_succ_of_ne_zero (by omega : turns ≠ 0)
      rw [hzero]
      refine ⟨_, rfl, ?_, ((v.in_pfile_false _).mp hnot).2⟩
      rw [← sidtoser_eq_zero]
      unfold in_table at hnot'
      simpa using hnot'
    · exact ih (chkbr + k + j) { sp with s_br := sp.s_br + k + j } (by dsimp only; omega) (by omega)

/-- What `newsid` gives is free. -/
theorem newsid_ok {v : Versions} {branch : Bool} {req got sid : Sid} {fuel : ℕ}
    (h : v.newsid branch req got fuel = some (.ok sid)) : v.Reads ∧ v.Free sid := by
  rw [← taken_false]
  unfold newsid at h
  split at h
  · exact absurd h (by simp)
  · split at h
    · exact absurd h (by simp)
    · exact absurd h (by simp)
    · split at h
      · exact absurd h (by simp)
      · exact absurd h (by simp)
      · rename_i hfree
        rw [← Except.ok.inj (Option.some.inj h)]
        exact hfree

/-- Before the check: the SID is free, or it is checked, or it is the next one of a branch. -/
theorem candidate_ok {v : Versions} (h : v.Reads) (branch : Bool) (req got : Sid) :
    ∃ chkbr sp, v.candidate branch req got = .ok (chkbr, sp) ∧
      (1 ≤ chkbr ∨ chkbr = 0 ∧ (v.Free sp ∨
        req.s_br ≠ 0 ∧ req.s_seq = 0 ∧ branch = false ∧
          sp = { req with s_seq := got.s_seq + 1 })) := by
  unfold candidate
  by_cases hbr : req.s_br = 0
  · rw [if_pos hbr]
    dsimp only
    split_ifs with hused
    · exact ⟨_, _, rfl, Or.inl le_rfl⟩
    · have hzero : v.sidtoser { req with s_lev := req.s_lev + 1 } = 0 := by
        by_contra hne
        exact hused (Or.inl hne)
      rcases in_pfile_ok h { req with s_lev := req.s_lev + 1 } with hin | hin
      · rw [hin]
        exact ⟨_, _, rfl, Or.inl le_rfl⟩
      · rw [hin]
        exact ⟨_, _, rfl, Or.inr ⟨rfl, Or.inl
          ⟨(v.sidtoser_eq_zero _).mp hzero, ((v.in_pfile_false _).mp hin).2⟩⟩⟩
  · rw [if_neg hbr]
    by_cases hthree : req.s_seq = 0 ∧ branch = false
    · rw [if_pos hthree]
      exact ⟨_, _, rfl, Or.inr ⟨rfl, Or.inr ⟨hbr, hthree.1, hthree.2, rfl⟩⟩⟩
    · rw [if_neg hthree]
      dsimp only
      split_ifs with hb
      · exact ⟨_, _, rfl, Or.inl le_rfl⟩
      · rcases taken_ok h { req with s_seq := req.s_seq + 1 } with hin | hin
        · rw [hin]
          exact ⟨_, _, rfl, Or.inl le_rfl⟩
        · rw [hin]
          exact ⟨_, _, rfl, Or.inr ⟨rfl, Or.inl ((v.taken_false _).mp hin).2⟩⟩

/-- `newsid` gives a SID if, and only if, it can read the p-file and the next SID of a branch that
it does not check is free. -/
theorem newsid_iff (v : Versions) (branch : Bool) (req got : Sid) :
    (∃ fuel sid, v.newsid branch req got fuel = some (.ok sid)) ↔
      v.Reads ∧ (req.s_br ≠ 0 → req.s_seq = 0 → branch = false →
        v.Free { req with s_seq := got.s_seq + 1 }) := by
  constructor
  · rintro ⟨fuel, sid, h⟩
    obtain ⟨hreads, hfree⟩ := newsid_ok h
    refine ⟨hreads, fun hbr hseq hbranch => ?_⟩
    unfold newsid candidate at h
    rw [if_neg hbr, if_pos ⟨hseq, hbranch⟩] at h
    dsimp only at h
    cases fuel with
    | zero => exact absurd h (by simp [recheck])
    | succ fuel =>
      rw [recheck] at h
      dsimp only at h
      split at h
      · exact absurd h (by simp)
      · exact absurd h (by simp)
      · rw [Except.ok.inj (Option.some.inj h)]
        exact hfree
  · rintro ⟨hreads, hthree⟩
    obtain ⟨B, hB⟩ := v.exists_bound
    obtain ⟨chkbr, sp, hcand, hor⟩ := candidate_ok hreads branch req got
    have hend : ∃ sid, v.recheck (2 * (B + 1) + chkbr + 2) (2 * (B + 1) + chkbr + 2) chkbr sp =
        some (.ok sid) ∧ v.Free sid := by
      rcases hor with hpos | ⟨hzero, hfree | ⟨hbr, hseq, hbranch, hsp⟩⟩
      · exact recheck_free hreads hB (by omega) _ chkbr sp (by omega) hpos
      · rw [hzero]
        exact ⟨sp, rfl, hfree⟩
      · rw [hzero, hsp]
        exact ⟨_, rfl, hthree hbr hseq hbranch⟩
    obtain ⟨sid, hsid, hfree⟩ := hend
    refine ⟨2 * (B + 1) + chkbr + 2, sid, ?_⟩
    unfold newsid
    rw [hcand]
    dsimp only
    rw [hsid]
    dsimp only
    rw [(v.taken_false sid).mpr ⟨hreads, hfree⟩]

/-- `newsid` gives a SID that is free, unless it is the next one of a branch, which it does not
check. -/
theorem newsid_free {v : Versions} (hreads : v.Reads) {branch : Bool} {req got : Sid}
    (hthree : req.s_br ≠ 0 → req.s_seq = 0 → branch = false →
      v.Free { req with s_seq := got.s_seq + 1 }) :
    ∃ fuel sid, v.newsid branch req got fuel = some (.ok sid) ∧
      v.NotInTable sid ∧ (v.joint = true → v.NotInPfile sid) := by
  obtain ⟨fuel, sid, h⟩ := (newsid_iff v branch req got).mpr ⟨hreads, hthree⟩
  exact ⟨fuel, sid, h, (newsid_ok h).2⟩

/-- A version that is being edited. -/
def held (gsid nsid : Sid) : Reservation where
  gsid := gsid
  nsid := nsid
  user := [97]
  date := newYear26
  inc := none
  exc := none
  cmr := none

/-- A version and a branch of it, and one of them being edited. -/
def branched (joint : Bool) (gsid nsid : Sid) : Versions where
  zone := ⟨0, fun _ => false⟩
  idel n := ⟨if n = 2 then ⟨1, 1, 1, 1⟩ else ⟨1, 1, 0, 0⟩, [], n - 1, 0⟩
  maxser := 2
  p_maxr := 1
  joint := joint
  p := some (held gsid nsid).line

theorem held_user (gsid nsid : Sid) : UserOk (held gsid nsid).user := by
  have hlen : ([97] : Line).length < LOGSIZE := by decide
  refine ⟨List.cons_ne_nil _ _, hlen, fun c hc => ?_⟩
  rw [List.mem_singleton.mp hc]
  decide

theorem branched_lines {joint : Bool} {gsid nsid : Sid} (hproper : (held gsid nsid).Proper)
    (hlen : (held gsid nsid).line.length < BUFSIZ) :
    (branched joint gsid nsid).lines = [(held gsid nsid).line] := by
  have h := @bufs_eq BUFSIZ [held gsid nsid] (by simpa using ⟨hproper, held_user gsid nsid, hlen⟩)
  rw [List.flatMap_singleton] at h
  exact h

theorem branched_pf_ab {gsid nsid : Sid} (hproper : (held gsid nsid).Proper) (zone : Zone) :
    ∃ pf, pf_ab zone (held gsid nsid).line.dropLast false = .ok pf ∧ pf.pf_nsid = nsid := by
  exact ⟨_, pf_ab_dropLast zone hproper (held_user gsid nsid) false, rfl⟩

/-- The trunk goes on after a version that nobody edits. -/
theorem newsid_free_trunk : ∃ fuel sid, (branched true ⟨1, 1, 0, 0⟩ ⟨1, 2, 0, 0⟩).newsid false
    ⟨1, 1, 1, 1⟩ ⟨1, 1, 1, 1⟩ fuel = some (.ok sid) ∧
      (branched true ⟨1, 1, 0, 0⟩ ⟨1, 2, 0, 0⟩).NotInTable sid ∧
      ((branched true ⟨1, 1, 0, 0⟩ ⟨1, 2, 0, 0⟩).joint = true →
        (branched true ⟨1, 1, 0, 0⟩ ⟨1, 2, 0, 0⟩).NotInPfile sid) := by
  refine newsid_free (fun _ l hl => ?_) fun _ hseq => absurd hseq (by decide)
  rw [branched_lines (by decide) (by decide +kernel)] at hl
  obtain ⟨pf, hpf, -⟩ := @branched_pf_ab ⟨1, 1, 0, 0⟩ ⟨1, 2, 0, 0⟩ (by decide) ⟨0, fun _ => false⟩
  rw [List.mem_singleton.mp hl]
  exact ⟨pf, hpf⟩

/-- A branch of which the next version is being made already; a p-file that is not looked at; and
one that cannot be read. -/
theorem not_newsid_free :
    ((branched true ⟨1, 1, 1, 1⟩ ⟨1, 1, 1, 2⟩).getser false none ⟨1, 1, 1, 0⟩ ⟨0, 0, 0, 0⟩ =
        .ok (2, ⟨1, 1, 1, 0⟩, ⟨1, 1, 1, 1⟩) ∧
      ∀ fuel sid, (branched true ⟨1, 1, 1, 1⟩ ⟨1, 1, 1, 2⟩).newsid false ⟨1, 1, 1, 0⟩ ⟨1, 1, 1, 1⟩
        fuel ≠ some (.ok sid)) ∧
    ((branched false ⟨1, 1, 0, 0⟩ ⟨1, 2, 0, 0⟩).getser false none ⟨1, 1, 0, 0⟩ ⟨0, 0, 0, 0⟩ =
        .ok (1, ⟨1, 1, 0, 0⟩, ⟨1, 1, 0, 0⟩) ∧
      (branched false ⟨1, 1, 0, 0⟩ ⟨1, 2, 0, 0⟩).newsid false ⟨1, 1, 0, 0⟩ ⟨1, 1, 0, 0⟩ 1 =
        some (.ok ⟨1, 2, 0, 0⟩) ∧
      ¬ (branched false ⟨1, 1, 0, 0⟩ ⟨1, 2, 0, 0⟩).NotInPfile ⟨1, 2, 0, 0⟩) ∧
    ∀ fuel sid, { branched true ⟨1, 1, 0, 0⟩ ⟨1, 2, 0, 0⟩ with
      p := some [49, 46, 49, 32, 49, 46, 50, 32, 97, 10] }.newsid false ⟨1, 1, 1, 1⟩ ⟨1, 1, 1, 1⟩
        fuel ≠ some (.ok sid) := by
  refine ⟨⟨by decide, fun fuel sid h => ?_⟩, ⟨by decide, by decide, fun h => ?_⟩,
    fun fuel sid h => ?_⟩
  · have hfree := ((newsid_iff _ _ _ _).mp ⟨fuel, sid, h⟩).2 (by decide) rfl rfl
    obtain ⟨pf, hpf, hnsid⟩ := @branched_pf_ab ⟨1, 1, 1, 1⟩ ⟨1, 1, 1, 2⟩ (by decide)
      ⟨0, fun _ => false⟩
    refine hfree.2 rfl _ ?_ pf hpf hnsid
    rw [branched_lines (by decide) (by decide +kernel)]
    exact List.mem_singleton_self _
  · obtain ⟨pf, hpf, hnsid⟩ := @branched_pf_ab ⟨1, 1, 0, 0⟩ ⟨1, 2, 0, 0⟩ (by decide)
      ⟨0, fun _ => false⟩
    refine h _ ?_ pf hpf hnsid
    rw [branched_lines (by decide) (by decide +kernel)]
    exact List.mem_singleton_self _
  · obtain ⟨pf, hpf⟩ := ((newsid_iff _ _ _ _).mp ⟨fuel, sid, h⟩).1 rfl
      [49, 46, 49, 32, 49, 46, 50, 32, 97, 10] (by decide)
    have hbad : pf_ab ⟨0, fun _ => false⟩ [49, 46, 49, 32, 49, 46, 50, 32, 97] false =
        .error .format := by
      unfold pf_ab
      decide
    exact absurd (hbad.symm.trans hpf) (by simp)

end Versions

end Unitas.Sccs.Edit
