import Unitas.Sccs.Entry
import Unitas.Lib.Transition

/-! The p-file in runs of `get -e`, `unget` and `delta`. -/
namespace Unitas.Sccs.Edit
open Unitas.Decimal Unitas.Transition

inductive Program where
  | get (r : Reservation)
  | unget (user : Line) (sp : Option Sid)
  | delta (user : Line) (root hadf : Bool) (sp : Option Sid)

/-- A run of a program from lock to unlock; `stop` is where it fails for a reason of its own. -/
structure Call where
  program : Program
  stop : Option ℕ

/-- The two files, the `get -e` runs that are not undone, and how the runs ended. -/
structure State where
  files : Files
  outstanding : List Reservation
  ends : List (Except Fatal (Option Pfile))

def State.init : State := ⟨⟨none, none⟩, [], []⟩

section Step

variable (zone : Zone) (joint : Bool)

def Program.outcome (p : Option Line) : Program → Outcome
  | .get r => Edit.get zone joint r p
  | .unget user sp => Edit.unget zone user sp p
  | .delta user root hadf sp => Edit.delta zone user root hadf sp p

/-- A `get -e` that succeeds adds a reservation, and `unget` and `delta` undo the one whose entry
they return. -/
def Program.undo (rs : List Reservation) : Program → Except Fatal (Option Pfile) → List Reservation
  | _, .error _ => rs
  | .get r, .ok _ => rs ++ [r]
  | _, .ok none => rs
  | _, .ok (some pf) => rs.filter fun r => r.nsid ≠ pf.pf_nsid

def State.step (s : State) (c : Call) : Option State :=
  let e := (c.program.outcome zone joint s.files.p).exec s.files c.stop
  some ⟨e.1, c.program.undo s.outstanding e.2, e.2 :: s.ends⟩

/-- The condition: a p-file that `get -e` reads has no line of 64 bytes or more, and one that
`unget` and `delta` read, or `newsid`, none of `BUFSIZ`. What `get -e` writes was checked before. -/
def Meets (s : State) (c : Call) : Prop :=
  match c.program with
  | .get r => r.Proper ∧ UserOk r.user ∧ ∀ x ∈ s.outstanding, x.line.length < 64
  | .unget _ _ => ∀ x ∈ s.outstanding, x.line.length < BUFSIZ
  | .delta _ _ hadf _ => hadf = false ∧ ∀ x ∈ s.outstanding, x.line.length < BUFSIZ

instance (s : State) (c : Call) : Decidable (Meets s c) := by
  unfold Meets
  split <;> infer_instance

end Step

/-! ### What the runs do to the files -/

theorem exec_p (ops : List Op) (f : Files) : (ops.foldl Op.exec f).p = f.p := by
  induction ops generalizing f with
  | nil => rfl
  | cons op ops ih =>
    rw [List.foldl_cons, ih]
    cases op <;> rfl

theorem exec_puts (ls : List Line) (f : Files) {q : Line} (hq : f.q = some q) :
    ((ls.map Op.put).foldl Op.exec f).q = some (q ++ ls.flatten) := by
  induction ls generalizing f q with
  | nil => simp [hq]
  | cons l ls ih =>
    rw [List.map_cons, List.foldl_cons, ih (q := q ++ l) _ (by simp [Op.exec, hq]),
      List.flatten_cons, List.append_assoc]

/-- What is in the q-file before it gets its place. -/
theorem exec_creat (ls : List Line) (f : Files) :
    ((Op.creat :: ls.map Op.put).foldl Op.exec f).q = some ls.flatten := by
  rw [List.foldl_cons]
  simpa using exec_puts ls (Op.exec f .creat) rfl

/-- A failure leaves the p-file as it was. -/
theorem exec_error (o : Outcome) (f : Files) (stop : Option ℕ) {e : Fatal}
    (h : (o.exec f stop).2 = .error e) : (o.exec f stop).1 = ⟨f.p, none⟩ := by
  have hfiles (ops : List Op) : (ops.foldl Op.exec f).clean_up = ⟨f.p, none⟩ := by
    unfold Files.clean_up
    rw [← exec_p ops f]
  unfold Outcome.exec at h ⊢
  cases stop with
  | some n => exact hfiles _
  | none =>
    dsimp only at h ⊢
    split at h
    · exact hfiles _
    · cases h
    · cases h
    · cases h

/-- No run ends with a format error that its program did not meet. -/
theorem exec_ne_format (o : Outcome) (f : Files) (stop : Option ℕ)
    (h : o.final ≠ .error .format) : (o.exec f stop).2 ≠ .error .format := by
  unfold Outcome.exec
  cases stop with
  | some n => simp
  | none =>
    dsimp only
    split
    · rename_i e he
      intro hf
      exact h (by rw [he]; simpa using hf)
    · simp
    · simp
    · simp

theorem exec_failure {o : Outcome} {p : Option Line} {stop : Option ℕ} {err : Fatal}
    (h : o.final ≠ .error .format) (he : (o.exec ⟨p, none⟩ stop).2 = .error err) :
    ∃ err, o.exec ⟨p, none⟩ stop = (⟨p, none⟩, .error err) ∧ err ≠ .format := by
  refine ⟨err, Prod.ext (exec_error _ _ _ he) he, ?_⟩
  rintro rfl
  exact exec_ne_format _ _ _ h he

/-! ### The loops -/

section Loops

variable (zone : Zone) (joint : Bool)

theorem in_pfile_eq (sp : Sid) {rs : List Reservation}
    (hrs : ∀ x ∈ rs, x.Proper ∧ UserOk x.user) :
    in_pfile zone sp (rs.map Reservation.line) = .ok (decide (sp ∈ rs.map Reservation.nsid)) := by
  induction rs with
  | nil => rfl
  | cons x rs ih =>
    obtain ⟨⟨hx, hu⟩, hrs⟩ := List.forall_mem_cons.mp hrs
    rw [List.map_cons, in_pfile, pf_ab_dropLast zone hx hu]
    dsimp only
    have hnsid : (x.parsed zone false).pf_nsid = x.nsid := rfl
    rw [hnsid, ih hrs]
    by_cases h : x.nsid = sp
    · simp [h]
    · have h' : ¬ sp = x.nsid := fun e => h e.symm
      simp [h, h']

/-- Every line is copied unless one stands in the way. -/
theorem copyLines_eq (r : Reservation) {rs : List Reservation}
    (hrs : ∀ x ∈ rs, x.Proper ∧ UserOk x.user) :
    let c := copyLines zone joint r (rs.map Reservation.line)
    c.2 = some .editing ∨
      c = (rs.map fun x => .put x.line, none) ∧
        (joint = false → ∀ x ∈ rs, x.gsid ≠ r.gsid ∧ x.nsid ≠ r.nsid) := by
  induction rs with
  | nil => exact Or.inr ⟨rfl, by simp⟩
  | cons x rs ih =>
    obtain ⟨⟨hx, hu⟩, hrs⟩ := List.forall_mem_cons.mp hrs
    dsimp only at ih ⊢
    rw [List.map_cons, copyLines, pf_ab_line zone hx hu]
    dsimp only
    have hgsid : (x.parsed zone false).pf_gsid = x.gsid := rfl
    have hnsid : (x.parsed zone false).pf_nsid = x.nsid := rfl
    rw [hgsid, hnsid]
    split_ifs with h
    · exact Or.inl rfl
    · rcases ih hrs with he | ⟨he, hfresh⟩
      · exact Or.inl he
      · refine Or.inr ⟨by rw [he]; rfl, ?_⟩
        intro hj
        rw [List.forall_mem_cons]
        refine ⟨?_, hfresh hj⟩
        constructor
        · exact fun e => h ⟨hj, Or.inl e⟩
        · exact fun e => h ⟨hj, Or.inr e⟩

/-- The entries that are not copied are those that `mine` picks. -/
theorem editLines_eq (mine : Pfile → Bool) (second : Bool) {rs : List Reservation}
    (hrs : ∀ x ∈ rs, x.Proper ∧ UserOk x.user) (goodpf : Option Pfile) :
    let c := editLines zone mine second (rs.map Reservation.line) goodpf
    let picked := rs.filter fun x => mine (x.parsed zone true)
    c.2 = .error .which ∨
      c.1 = (rs.filter fun x => !mine (x.parsed zone true)).map (fun x => .put x.line) ∧
      (second = true → picked.length + goodpf.toList.length ≤ 1) ∧
      (picked = [] ∧ c.2 = .ok goodpf ∨ ∃ x ∈ picked, c.2 = .ok (some (x.parsed zone true))) := by
  induction rs generalizing goodpf with
  | nil =>
    refine Or.inr ⟨rfl, ?_, Or.inl ⟨rfl, rfl⟩⟩
    intro _
    cases goodpf <;> simp
  | cons x rs ih =>
    obtain ⟨⟨hx, hu⟩, hrs⟩ := List.forall_mem_cons.mp hrs
    dsimp only at ih ⊢
    rw [List.map_cons, editLines, pf_ab_line zone hx hu]
    dsimp only
    by_cases hm : mine (x.parsed zone true) = true
    · have hpick := List.filter_cons_of_pos (p := fun x : Reservation => mine (x.parsed zone true))
        (l := rs) hm
      have hleft := List.filter_cons_of_neg (p := fun x : Reservation =>
        !mine (x.parsed zone true)) (a := x) (l := rs) (by simp [hm])
      rw [if_pos hm, hpick, hleft]
      split_ifs with hs
      · exact Or.inl rfl
      · have htwo : second = true → goodpf = none := by
          intro h
          simpa [h] using hs
        rcases ih hrs (some (x.parsed zone true)) with h | ⟨hput, hone, hres⟩
        · exact Or.inl h
        · refine Or.inr ⟨hput, ?_, Or.inr ?_⟩
          · intro h
            have hlen := hone h
            rw [htwo h]
            simpa using hlen
          · rcases hres with ⟨-, hok⟩ | ⟨y, hy, hok⟩
            · exact ⟨x, List.mem_cons_self, hok⟩
            · exact ⟨y, List.mem_cons_of_mem _ hy, hok⟩
    · have hpick := List.filter_cons_of_neg (p := fun x : Reservation => mine (x.parsed zone true))
        (l := rs) hm
      have hleft := List.filter_cons_of_pos (p := fun x : Reservation =>
        !mine (x.parsed zone true)) (a := x) (l := rs) (by simp [hm])
      rw [if_neg hm, hpick, hleft]
      rcases ih hrs goodpf with h | ⟨hput, hone, hres⟩
      · exact Or.inl h
      · exact Or.inr ⟨by rw [hput]; rfl, hone, hres⟩

/-- The p-file of the reservations. -/
def pfile (rs : List Reservation) : Option Line :=
  if rs = [] then none else some (rs.flatMap Reservation.line)

theorem bufs_pfile {n : ℕ} {rs : List Reservation}
    (hrs : ∀ x ∈ rs, x.Proper ∧ UserOk x.user) (hlen : ∀ x ∈ rs, x.line.length < n) :
    ((pfile rs).map (bufs n)).getD [] = rs.map Reservation.line := by
  unfold pfile
  split_ifs with h
  · rw [h]
    rfl
  · exact bufs_eq fun x hx => ⟨(hrs x hx).1, (hrs x hx).2, hlen x hx⟩

theorem wrtpfile_pfile (r : Reservation) {rs : List Reservation}
    (hrs : ∀ x ∈ rs, x.Proper ∧ UserOk x.user) (hlen : ∀ x ∈ rs, x.line.length < 64) :
    wrtpfile zone joint r (pfile rs) = (
      let c := copyLines zone joint r (rs.map Reservation.line)
      match c.2 with
      | some e => ⟨.creat :: c.1, .error e⟩
      | none => ⟨.creat :: c.1 ++ [.put r.line], .ok (.rename, none)⟩) := by
  have hbufs := bufs_pfile hrs hlen
  unfold wrtpfile
  generalize ((pfile rs).map (bufs 64)).getD [] = ls at hbufs ⊢
  subst hbufs
  rfl

theorem get_eq (r : Reservation) {rs : List Reservation}
    (hrs : ∀ x ∈ rs, x.Proper ∧ UserOk x.user) (hlen : ∀ x ∈ rs, x.line.length < 64) :
    let o := get zone joint r (pfile rs)
    (∃ e, o.final = .error e ∧ e ≠ .format) ∨
      o = ⟨.creat :: ((rs ++ [r]).map Reservation.line).map .put, .ok (.rename, none)⟩ ∧
        r.nsid ∉ rs.map Reservation.nsid ∧
        (joint = false → r.gsid ∉ rs.map Reservation.gsid) := by
  have hwrt := wrtpfile_pfile zone joint r hrs hlen
  have hbig : ∀ x ∈ rs, x.line.length < BUFSIZ :=
    fun x hx => (hlen x hx).trans (by decide)
  have hputs : Op.creat :: (rs.map fun x => Op.put x.line) ++ [.put r.line] =
      .creat :: ((rs ++ [r]).map Reservation.line).map .put := by
    simp
  dsimp only at hwrt ⊢
  unfold get
  rw [bufs_pfile hrs hbig, in_pfile_eq zone r.nsid hrs]
  cases joint with
  | true =>
    by_cases hin : r.nsid ∈ rs.map Reservation.nsid
    · simp [hin]
    · rw [if_pos rfl, decide_eq_false hin]
      dsimp only
      rw [hwrt]
      rcases copyLines_eq zone true r hrs with he | ⟨he, -⟩
      · exact Or.inl ⟨.editing, by rw [he], by decide⟩
      · rw [he]
        exact Or.inr ⟨by rw [← hputs], hin, by simp⟩
  | false =>
    rw [if_neg (by decide)]
    dsimp only
    rw [hwrt]
    rcases copyLines_eq zone false r hrs with he | ⟨he, hfresh⟩
    · exact Or.inl ⟨.editing, by rw [he], by decide⟩
    · rw [he]
      refine Or.inr ⟨by rw [← hputs], ?_, ?_⟩
      · intro hin
        obtain ⟨x, hx, hxr⟩ := List.mem_map.mp hin
        exact (hfresh rfl x hx).2 hxr
      · intro _ hin
        obtain ⟨x, hx, hxr⟩ := List.mem_map.mp hin
        exact (hfresh rfl x hx).1 hxr

theorem line_pos (r : Reservation) : 0 < r.line.length := by
  rw [r.line_eq]
  simp

theorem editFile_eq (mine : Pfile → Bool) (second : Bool) {rs : List Reservation}
    (hrs : ∀ x ∈ rs, x.Proper ∧ UserOk x.user) (hlen : ∀ x ∈ rs, x.line.length < BUFSIZ) :
    let o := editFile zone mine second false (pfile rs)
    let left := rs.filter fun x => !mine (x.parsed zone true)
    let picked := rs.filter fun x => mine (x.parsed zone true)
    (∃ e, o.final = .error e ∧ e ≠ .format) ∨
      ∃ x ∈ picked, (second = true → picked.length ≤ 1) ∧
        o = ⟨.creat :: (left.map Reservation.line).map .put,
          .ok (if left = [] then .remove else .rename, some (x.parsed zone true))⟩ := by
  dsimp only
  have hbufs := bufs_pfile hrs hlen
  unfold editFile
  cases hp : pfile rs with
  | none => exact Or.inl ⟨.other, rfl, by decide⟩
  | some file =>
    rw [hp, Option.map_some, Option.getD_some] at hbufs
    dsimp only
    rw [hbufs]
    rcases editLines_eq zone mine second hrs none with h | ⟨hput, hone, ⟨-, hres⟩ | ⟨x, hx, hres⟩⟩
    · exact Or.inl ⟨.which, by rw [h], by decide⟩
    · exact Or.inl ⟨.none, by rw [hres], by decide⟩
    · rw [hres, hput]
      dsimp only
      by_cases hu : (x.parsed zone true).pf_user = []
      · exact Or.inl ⟨.none, by rw [if_pos hu], by decide⟩
      · refine Or.inr ⟨x, hx, by simpa using hone, ?_⟩
        rw [if_neg hu, List.map_map, List.map_map]
        congr 3
        by_cases hl : (rs.filter fun x => !mine (x.parsed zone true)) = []
        · simp [hl]
        · obtain ⟨y, ys, hy⟩ := List.exists_cons_of_ne_nil hl
          have hpos := line_pos y
          rw [hy, List.map_cons, List.sum_cons, if_neg (by decide), if_neg,
            if_neg (List.cons_ne_nil _ _)]
          dsimp only [Function.comp_apply]
          omega

end Loops

/-! ### Steps -/

theorem pfile_of_flatten {rs : List Reservation} (h : rs ≠ []) :
    some (rs.map Reservation.line).flatten = pfile rs := by
  unfold pfile
  rw [if_neg h, List.flatMap_def]

/-- As the new SIDs differ, the entries that go are those with the SID that is returned. -/
theorem filter_eq_of_nodup {rs : List Reservation} (hnsids : (rs.map Reservation.nsid).Nodup)
    {mine : Reservation → Bool} {x : Reservation} (hx : x ∈ rs.filter mine)
    (hsame : ∀ y ∈ rs.filter mine, y.nsid = x.nsid) :
    rs.filter (fun y => !mine y) = rs.filter fun y => y.nsid ≠ x.nsid := by
  obtain ⟨hxrs, hxm⟩ := List.mem_filter.mp hx
  apply List.filter_congr
  intro y hy
  by_cases hym : mine y = true
  · have heq := hsame y (List.mem_filter.mpr ⟨hy, hym⟩)
    simp [hym, heq]
  · have hne : y.nsid ≠ x.nsid := by
      intro heq
      rw [List.inj_on_of_nodup_map hnsids hy hxrs heq] at hym
      exact hym hxm
    simp [hym, hne]

section Steps

variable (zone : Zone) {joint : Bool}

/-- A run of `unget` or `delta` fails and leaves the p-file, or takes one entry out of it. -/
theorem editFile_exec (mine : Pfile → Bool) (second : Bool) {rs : List Reservation}
    (hrs : ∀ x ∈ rs, x.Proper ∧ UserOk x.user) (hlen : ∀ x ∈ rs, x.line.length < BUFSIZ)
    (hnsids : (rs.map Reservation.nsid).Nodup)
    (hsame : second = false → ∀ x y, mine (Reservation.parsed zone x true) = true →
      mine (Reservation.parsed zone y true) = true → y.nsid = x.nsid) (stop : Option ℕ) :
    let e := (editFile zone mine second false (pfile rs)).exec ⟨pfile rs, none⟩ stop
    (∃ err, e = (⟨pfile rs, none⟩, .error err) ∧ err ≠ .format) ∨
      ∃ pf, e = (⟨pfile (rs.filter fun x => x.nsid ≠ pf.pf_nsid), none⟩, .ok (some pf)) := by
  dsimp only
  have heq := editFile_eq zone mine second hrs hlen
  dsimp only at heq
  cases stop with
  | some n =>
    apply Or.inl
    refine exec_failure ?_ rfl
    rcases heq with ⟨err, herr, hne⟩ | ⟨x, -, -, ho⟩
    · rw [herr]
      simpa using hne
    · rw [ho]
      simp
  | none =>
    rcases heq with ⟨err, herr, hne⟩ | ⟨x, hx, hone, ho⟩
    · apply Or.inl
      apply exec_failure (by rw [herr]; simpa using hne)
      unfold Outcome.exec
      rw [herr]
    · refine Or.inr ⟨x.parsed zone true, ?_⟩
      have hgone : rs.filter (fun y => !mine (y.parsed zone true)) =
          rs.filter fun y => y.nsid ≠ (x.parsed zone true).pf_nsid := by
        apply filter_eq_of_nodup hnsids hx
        intro y hy
        cases hsecond : second with
        | false =>
          exact hsame hsecond x y (List.mem_filter.mp hx).2 (List.mem_filter.mp hy).2
        | true =>
          obtain ⟨z, hz⟩ := List.length_eq_one_iff.mp
            (le_antisymm (hone hsecond) (List.length_pos_of_mem hx))
          rw [hz] at hx hy
          rw [List.mem_singleton.mp hx, List.mem_singleton.mp hy]
      rw [← hgone, ho]
      unfold Outcome.exec
      dsimp only
      rw [exec_creat]
      split_ifs with hl
      · rw [hl]
        rfl
      · rw [← pfile_of_flatten hl]

theorem get_exec (joint : Bool) {r : Reservation} {rs : List Reservation}
    (hrs : ∀ x ∈ rs, x.Proper ∧ UserOk x.user) (hlen : ∀ x ∈ rs, x.line.length < 64)
    (stop : Option ℕ) :
    let e := (get zone joint r (pfile rs)).exec ⟨pfile rs, none⟩ stop
    (∃ err, e = (⟨pfile rs, none⟩, .error err) ∧ err ≠ .format) ∨
      e = (⟨pfile (rs ++ [r]), none⟩, .ok none) ∧ r.nsid ∉ rs.map Reservation.nsid ∧
        (joint = false → r.gsid ∉ rs.map Reservation.gsid) := by
  dsimp only
  have heq := get_eq zone joint r hrs hlen
  dsimp only at heq
  have hformat : (get zone joint r (pfile rs)).final ≠ .error .format := by
    rcases heq with ⟨err, herr, hne⟩ | ⟨ho, -⟩
    · rw [herr]
      simpa using hne
    · rw [ho]
      simp
  cases stop with
  | some n => exact Or.inl (exec_failure hformat rfl)
  | none =>
    rcases heq with ⟨err, herr, hne⟩ | ⟨ho, hnsid, hgsid⟩
    · apply Or.inl
      apply exec_failure hformat
      unfold Outcome.exec
      rw [herr]
    · refine Or.inr ⟨?_, hnsid, hgsid⟩
      rw [ho]
      unfold Outcome.exec
      dsimp only
      rw [exec_creat, pfile_of_flatten (by simp)]

/-- What holds between the runs. -/
structure State.Inv (joint : Bool) (s : State) : Prop where
  files : s.files = ⟨pfile s.outstanding, none⟩
  proper : ∀ x ∈ s.outstanding, x.Proper ∧ UserOk x.user
  nsids : (s.outstanding.map Reservation.nsid).Nodup
  gsids : joint = false → (s.outstanding.map Reservation.gsid).Nodup
  ends : ∀ e ∈ s.ends, e ≠ .error .format

theorem State.Inv.init : State.init.Inv joint where
  files := rfl
  proper := by simp [State.init]
  nsids := by simp [State.init]
  gsids := by simp [State.init]
  ends := by simp [State.init]

/-- A run that fails leaves the p-file. -/
theorem State.Inv.fail {s : State} (h : s.Inv joint) {program : Program} {err : Fatal}
    (hne : err ≠ .format) :
    State.Inv joint ⟨⟨pfile s.outstanding, none⟩, program.undo s.outstanding (.error err),
      .error err :: s.ends⟩ := by
  have hundo : program.undo s.outstanding (.error err) = s.outstanding := by
    cases program <;> rfl
  rw [hundo]
  constructor
  · rfl
  · exact h.proper
  · exact h.nsids
  · exact h.gsids
  · exact List.forall_mem_cons.mpr ⟨by simpa using hne, h.ends⟩

theorem State.Inv.add {s : State} (h : s.Inv joint) {r : Reservation}
    (hr : r.Proper ∧ UserOk r.user) (hnsid : r.nsid ∉ s.outstanding.map Reservation.nsid)
    (hgsid : joint = false → r.gsid ∉ s.outstanding.map Reservation.gsid) :
    State.Inv joint ⟨⟨pfile (s.outstanding ++ [r]), none⟩, s.outstanding ++ [r],
      .ok none :: s.ends⟩ := by
  constructor
  · rfl
  · intro x hx
    rcases List.mem_append.mp hx with hx | hx
    · exact h.proper x hx
    · rw [List.mem_singleton.mp hx]
      exact hr
  · rw [List.map_append]
    exact List.Nodup.append h.nsids (List.nodup_singleton _) (by simpa using hnsid)
  · intro hj
    rw [List.map_append]
    exact List.Nodup.append (h.gsids hj) (List.nodup_singleton _) (by simpa using hgsid hj)
  · exact List.forall_mem_cons.mpr ⟨by simp, h.ends⟩

theorem State.Inv.remove {s : State} (h : s.Inv joint) (pf : Pfile) :
    State.Inv joint ⟨⟨pfile (s.outstanding.filter fun x => x.nsid ≠ pf.pf_nsid), none⟩,
      s.outstanding.filter fun x => x.nsid ≠ pf.pf_nsid, .ok (some pf) :: s.ends⟩ := by
  have hsub : (s.outstanding.filter fun x => x.nsid ≠ pf.pf_nsid).Sublist s.outstanding :=
    List.filter_sublist
  constructor
  · rfl
  · exact fun x hx => h.proper x (hsub.subset hx)
  · exact h.nsids.sublist (hsub.map _)
  · exact fun hj => (h.gsids hj).sublist (hsub.map _)
  · exact List.forall_mem_cons.mpr ⟨by simp, h.ends⟩

theorem State.Inv.step {s s' : State} {c : Call} (h : s.Inv joint) (hc : Meets s c)
    (hs : s.step zone joint c = some s') : s'.Inv joint := by
  obtain ⟨program, stop⟩ := c
  unfold State.step at hs
  rw [← Option.some.inj hs, h.files]
  dsimp only
  cases program with
  | get r =>
    obtain ⟨hr, hu, hlen⟩ := hc
    rcases get_exec zone joint h.proper hlen stop with ⟨err, he, hne⟩ | ⟨he, hnsid, hgsid⟩
    · unfold Program.outcome
      rw [he]
      exact h.fail hne
    · unfold Program.outcome
      rw [he]
      exact h.add ⟨hr, hu⟩ hnsid hgsid
  | unget user sp =>
    have hedit (mine : Pfile → Bool) (second : Bool)
        (hsame : second = false → ∀ x y, mine (Reservation.parsed zone x true) = true →
          mine (Reservation.parsed zone y true) = true → y.nsid = x.nsid) :=
      editFile_exec zone mine second h.proper hc h.nsids hsame stop
    unfold Program.outcome unget
    cases sp with
    | none =>
      rcases hedit (fun pf => pf.pf_user = user) true (by simp) with ⟨err, he, hne⟩ | ⟨pf, he⟩
      · dsimp only
        rw [he]
        exact h.fail hne
      · dsimp only
        rw [he]
        exact h.remove pf
    | some sid =>
      have hsame := hedit (fun pf => pf.pf_user = user ∧ pf.pf_nsid = sid) false (by
        intro _ x y hx hy
        simp only [decide_eq_true_eq] at hx hy
        exact hy.2.trans hx.2.symm)
      rcases hsame with ⟨err, he, hne⟩ | ⟨pf, he⟩
      · dsimp only
        rw [he]
        exact h.fail hne
      · dsimp only
        rw [he]
        exact h.remove pf
  | delta user root hadf sp =>
    obtain ⟨rfl, hlen⟩ := hc
    have hedit (mine : Pfile → Bool) := editFile_exec zone mine true h.proper
      hlen h.nsids (by simp) stop
    unfold Program.outcome delta
    cases sp with
    | none =>
      rcases hedit fun pf => pf.pf_user = user ∨ root with ⟨err, he, hne⟩ | ⟨pf, he⟩
      · dsimp only
        rw [he]
        exact h.fail hne
      · dsimp only
        rw [he]
        exact h.remove pf
    | some sid =>
      rcases hedit fun pf => (pf.pf_user = user ∨ root) ∧ (pf.pf_nsid = sid ∨ pf.pf_gsid = sid)
        with ⟨err, he, hne⟩ | ⟨pf, he⟩
      · dsimp only
        rw [he]
        exact h.fail hne
      · dsimp only
        rw [he]
        exact h.remove pf

end Steps

/-- In a run whose steps meet the condition the p-file has one line for each `get -e` that is not
undone, every line is read as it was written, no SID is taken twice without the joint-edit flag, and
no program finds a bad format. -/
theorem reservations (zone : Zone) (joint : Bool) {calls : List Call} {s : State}
    (hrun : run (State.step zone joint) calls State.init = some s)
    (hok : RunOk (State.step zone joint) Meets calls State.init) :
    s.files = ⟨if s.outstanding = [] then none else some (s.outstanding.flatMap Reservation.line),
      none⟩ ∧
    (∀ r ∈ s.outstanding, ∃ pf, pf_ab zone r.line true = .ok pf ∧ pf.pf_gsid = r.gsid ∧
      pf.pf_nsid = r.nsid ∧ pf.pf_user = r.user ∧ pf.pf_ilist = r.inc ∧ pf.pf_elist = r.exc) ∧
    (joint = false → s.outstanding.Pairwise fun x y => x.gsid ≠ y.gsid ∧ x.nsid ≠ y.nsid) ∧
    ∀ e ∈ s.ends, e ≠ .error .format := by
  have hinv : s.Inv joint := (reach_of_run hrun hok).invariant .init
    fun _ _ _ hinv hc hs => hinv.step zone hc hs
  constructor
  · exact hinv.files
  constructor
  · intro r hr
    obtain ⟨hproper, hu⟩ := hinv.proper r hr
    exact ⟨r.parsed zone true, pf_ab_line zone hproper hu true, rfl, rfl, rfl, rfl, rfl⟩
  constructor
  · intro hj
    exact (List.pairwise_map.mp (hinv.gsids hj)).and (List.pairwise_map.mp hinv.nsids)
  · exact hinv.ends

/-- The first second of 2026. -/
def newYear26 : Date :=
  ⟨26, 1, 1, 0, 0, 0, by decide, one_le_one, one_le_twelve, one_le_one, by decide, zero_lt_hours,
    zero_lt_minutes, by decide⟩

/-- An entry of `joe`. -/
def joe (gsid nsid : Sid) (inc : Option Line) : Reservation where
  gsid := gsid
  nsid := nsid
  user := [106, 111, 101]
  date := newYear26
  inc := inc
  exc := none
  cmr := none

/-- `3.1,3.2,...,3.9,4.1,4.2,4.3,4.4`, which are not in the delta table: `dolist` passes over them. -/
def longList : Line :=
  ((List.range 9).flatMap fun i => [51, 46, UInt8.ofNat (49 + i), 44]) ++
    ((List.range 3).flatMap fun i => [52, 46, UInt8.ofNat (49 + i), 44]) ++ [52, 46, 52]

def twoGets : List Call :=
  [⟨.get (joe ⟨1, 1, 0, 0⟩ ⟨1, 2, 0, 0⟩ (some [49, 46, 49])), none⟩,
    ⟨.get (joe ⟨2, 1, 0, 0⟩ ⟨2, 2, 0, 0⟩ none), some 2⟩,
    ⟨.get (joe ⟨2, 1, 0, 0⟩ ⟨2, 2, 0, 0⟩ none), none⟩,
    ⟨.delta [106, 111, 101] false false (some ⟨1, 2, 0, 0⟩), none⟩]

theorem reservations_twoGets : ∃ s,
    run (State.step ⟨0, fun _ => false⟩ false) twoGets State.init = some s ∧
    s.outstanding.map Reservation.nsid = [⟨2, 2, 0, 0⟩] ∧ ∀ e ∈ s.ends, e ≠ .error .format := by
  obtain ⟨s, hrun, hs⟩ := exists_of_run_any (State.step ⟨0, fun _ => false⟩ false) twoGets
    State.init (fun s => s.outstanding.map Reservation.nsid = [⟨2, 2, 0, 0⟩]) (by decide +kernel)
  have hlaw := reservations ⟨0, fun _ => false⟩ false hrun (by decide +kernel)
  exact ⟨s, hrun, by simpa using hs, hlaw.2.2.2⟩

def longGets : List Call :=
  [⟨.get (joe ⟨1, 1, 0, 0⟩ ⟨1, 2, 0, 0⟩ (some longList)), none⟩,
    ⟨.get (joe ⟨2, 1, 0, 0⟩ ⟨2, 2, 0, 0⟩ none), none⟩]

/-- The buffer of `wrtpfile` has 64 bytes, and what is left of a longer line is taken for an entry
of its own. -/
theorem reservations_longGets : ListOk longList ∧ ∃ s,
    run (State.step ⟨0, fun _ => false⟩ false) longGets State.init = some s ∧
    s.outstanding.map Reservation.nsid = [⟨1, 2, 0, 0⟩] ∧ .error .format ∈ s.ends := by
  obtain ⟨s, hrun, hs⟩ := exists_of_run_any (State.step ⟨0, fun _ => false⟩ false) longGets
    State.init (fun s => s.outstanding.map Reservation.nsid = [⟨1, 2, 0, 0⟩] ∧
      .error .format ∈ s.ends) (by decide +kernel)
  exact ⟨by decide +kernel, s, hrun, by simpa using hs⟩

end Unitas.Sccs.Edit
