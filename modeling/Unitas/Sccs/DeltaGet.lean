import Unitas.Sccs.Checkin
import Unitas.Sccs.Rmdel

/-! `get` after `delta`: the new version is the text that was checked in, and the old ones are as
they were. -/
namespace Unitas.Sccs
open Unitas.Hoare Unitas.Lines Unitas.Weave

/-! ### The deltas of a version -/

variable {s : ℕ} {ap ap' : ℕ → Apply}

/-- The marks of all deltas but one are the same. -/
def Agree (s : ℕ) (ap ap' : ℕ → Apply) : Prop := ∀ n, n ≠ s → ap n = ap' n

theorem Agree.symm (h : Agree s ap ap') : Agree s ap' ap := fun n hn => (h n hn).symm

theorem Agree.update (h : Agree s ap ap') (n : ℕ) (f : Apply → Apply) :
    Agree s (Function.update ap n (f (ap n))) (Function.update ap' n (f (ap' n))) := by
  intro m hm
  by_cases hmn : m = n
  · subst hmn
    rw [Function.update_self, Function.update_self, h m hm]
  · rw [Function.update_of_ne hmn, Function.update_of_ne hmn, h m hm]

theorem Agree.foldl_condset (code reason : ℕ) (sers : List ℕ) : ∀ {ap ap' : ℕ → Apply},
    Agree s ap ap' →
      Agree s (sers.foldl (fun ap n => Function.update ap n (condset code reason (ap n))) ap)
        (sers.foldl (fun ap n => Function.update ap n (condset code reason (ap n))) ap') := by
  induction sers with
  | nil => exact fun h => h
  | cons ser sers ih => exact fun h => ih (h.update ser (condset code reason))

theorem Agree.ixgsetup (ixg : List Ixg) : ∀ {ap ap' r : ℕ → Apply}, Agree s ap ap' →
    ixgsetup ap ixg = some r → ∃ r', Sccs.ixgsetup ap' ixg = some r' ∧ Agree s r r' := by
  induction ixg with
  | nil =>
    intro ap ap' r h hr
    cases hr
    exact ⟨ap', rfl, h⟩
  | cons l ixg ih =>
    intro ap ap' r h hr
    obtain ⟨type, cnt, sers⟩ := l
    rw [Sccs.ixgsetup] at hr ⊢
    by_cases hcnt : cnt < 0 ∨ (sers.length : ℤ) < cnt
    · rw [if_pos hcnt] at hr
      cases hr
    · rw [if_neg hcnt] at hr ⊢
      exact ih (h.foldl_condset _ _ _) hr

theorem Agree.decided (h : Agree s ap ap') {ser : ℕ} (hser : ser ≠ s) (idel : ℕ → Idel)
    (cutoff : ℤ) : Agree s (decided idel cutoff ser ap) (decided idel cutoff ser ap') := by
  have hin : (ap ser).a_inline = (ap' ser).a_inline := congrArg Apply.a_inline (h ser hser)
  have hpred := h.update (idel ser).i_pred fun a => { a with a_inline := true }
  unfold Sccs.decided
  dsimp only
  rw [hin]
  split_ifs
  · exact hpred.update ser (condset NOAPPLY CUTOFF)
  · exact hpred.update ser (condset APPLY SX_EMPTY)
  · exact h.update ser (condset NOAPPLY SX_EMPTY)

/-- What is marked of a delta above does not matter for the ones below. -/
theorem Agree.setupFrom (idel : ℕ → Idel) (cutoff : ℤ) {n : ℕ} : ∀ {ap ap' r : ℕ → Apply}, n < s →
    Agree s ap ap' → setupFrom idel cutoff n ap = some r →
      ∃ r', Sccs.setupFrom idel cutoff n ap' = some r' ∧ Agree s r r' := by
  induction n with
  | zero =>
    intro ap ap' r _ h hr
    cases hr
    exact ⟨ap', rfl, h⟩
  | succ n ih =>
    intro ap ap' r hn h hr
    obtain ⟨hstop, t, ht, hrest⟩ := setupFrom_step hr
    have hne : n + 1 ≠ s := Nat.ne_of_lt hn
    have hdecided := h.decided hne idel cutoff
    rw [h (n + 1) hne] at hstop
    rw [hdecided (n + 1) hne] at ht
    rw [setupFrom_succ cutoff n hstop]
    split_ifs at ht ⊢
    · obtain ⟨t', ht', hagree⟩ := hdecided.ixgsetup _ ht
      rw [ht', Option.bind_some]
      exact ih (Nat.lt_of_succ_lt hn) hagree hrest
    · cases ht
      exact ih (Nat.lt_of_succ_lt hn) hdecided hrest

/-! ### The s-file -/

variable {zone : Zone} {S : Sfile zone}

/-- A delta that can be added to an s-file, after the delta `s`. -/
structure Sfile.Next (S : Sfile zone) (e : TableEntry zone) (s : ℕ) : Prop where
  live : e.Live
  serial : e.dt.d_serial = S.maxser + 1
  pred : e.dt.d_pred = s
  le : s ≤ S.maxser
  pos : 0 < s
  rel_pos : 0 < e.dt.d_sid.s_rel
  sid_new : ∀ e' ∈ S.deltas, e'.Live → e'.dt.d_sid ≠ e.dt.d_sid
  lists : ∀ l ∈ e.lines, ¬ IsIxg l

/-- A delta with other statistics. -/
def TableEntry.count (e : TableEntry zone) (ins del unc : Line) : TableEntry zone :=
  { e with stats := statsLine ins del unc, isStats := ⟨rfl, rfl⟩ }

/-- The s-file with a new delta and a new body. -/
def Sfile.checkedIn (S : Sfile zone) {e : TableEntry zone} (h : S.Next e s) (body : List Line)
    (hash : ℕ) (hhash : hash < 65536) : Sfile zone where
  hash := hash
  deltas := e :: S.deltas
  bUsers := S.bUsers
  users := S.users
  eUsers := S.eUsers
  flags := S.flags
  bText := S.bText
  comments := S.comments
  eText := S.eText
  body := body
  hash_lt := hhash
  deltas_ne_nil := List.cons_ne_nil _ _
  descending := by
    refine List.pairwise_cons.mpr ⟨fun e' he' => ?_, S.descending⟩
    rw [h.serial, S.maxser_eq]
    exact Nat.lt_succ_of_le (S.serial_le e' he')
  serial_pos := by
    refine List.forall_mem_cons.mpr ⟨?_, S.serial_pos⟩
    rw [h.serial]
    exact Nat.succ_pos _
  pred_lt := by
    refine List.forall_mem_cons.mpr ⟨fun _ => ?_, S.pred_lt⟩
    rw [h.serial, h.pred]
    exact Nat.lt_succ_of_le h.le
  rel_pos := List.forall_mem_cons.mpr ⟨fun _ => h.rel_pos, S.rel_pos⟩
  sid_inj := by
    intro d hd e' he' hdlive hlive hsid
    rcases List.mem_cons.mp hd with rfl | hd₁
    · rcases List.mem_cons.mp he' with rfl | he₁
      · rfl
      · exact absurd hsid.symm (h.sid_new e' he₁ hlive)
    · rcases List.mem_cons.mp he' with rfl | he₁
      · exact absurd hsid (h.sid_new d hd₁ hdlive)
      · exact S.sid_inj d hd₁ e' he₁ hdlive hlive hsid
  isBUsers := S.isBUsers
  isUser := S.isUser
  isEUsers := S.isEUsers
  isFlag := S.isFlag
  isBText := S.isBText
  isComment := S.isComment
  isEText := S.isEText

variable {e : TableEntry zone} {hnext : S.Next e s} {body : List Line} {hash : ℕ}
  {hhash : hash < 65536}

theorem last_checkedIn : (S.checkedIn hnext body hash hhash).last = S.maxser + 1 := hnext.serial

theorem maxser_checkedIn : (S.checkedIn hnext body hash hhash).maxser = S.maxser + 1 := by
  rw [Sfile.maxser_eq, last_checkedIn]

theorem foldl_addList {lines : List Line} (h : ∀ l ∈ lines, ¬ IsIxg l)
    (ixg : List (UInt8 × ℤ × List ℕ)) : lines.foldl addList ixg = ixg := by
  induction lines generalizing ixg with
  | nil => rfl
  | cons l lines ih =>
    obtain ⟨hl, hlines⟩ := List.forall_mem_cons.mp h
    rw [List.foldl_cons, addList, if_neg hl, ih hlines]

theorem table_checkedIn_self : (S.checkedIn hnext body hash hhash).table (S.maxser + 1) =
    ⟨e.dt.d_sid, [], s, e.dt.d_datetime⟩ := by
  have hfind : liveAt (S.maxser + 1) (S.checkedIn hnext body hash hhash).deltas = some e :=
    List.find?_cons_of_pos (by simp [hnext.live, hnext.serial])
  unfold Sfile.table overlay
  rw [hfind]
  change e.idel = _
  rw [TableEntry.idel, foldl_addList hnext.lists, hnext.pred]

/-- The deltas that there were are the same in the table. -/
theorem table_checkedIn {n : ℕ} (h1 : 1 ≤ n) (hn : n ≤ S.maxser) :
    (S.checkedIn hnext body hash hhash).table n = S.table n := by
  have hser : ¬ e.dt.d_serial = n := by
    rw [hnext.serial]
    omega
  have hfind : liveAt n (S.checkedIn hnext body hash hhash).deltas = liveAt n S.deltas :=
    List.find?_cons_of_neg (by simp [hser])
  have hzero : n ≠ 0 := Nat.ne_of_gt h1
  unfold Sfile.table overlay
  rw [hfind]
  cases liveAt n S.deltas with
  | none => simp only [newIdel, hzero, if_false]
  | some e => rfl

theorem Sfile.apply_eq (S : Sfile zone) (cutoff : ℤ) (ser : ℕ) : S.apply cutoff ser =
    setupFrom S.table cutoff S.maxser
      (Function.update noApply ser { noApply ser with a_inline := true }) := by
  rw [Sfile.apply, S.idel_eq]
  rfl

theorem setupFrom_checkedIn (cutoff : ℤ) (ap : ℕ → Apply) :
    setupFrom (S.checkedIn hnext body hash hhash).table cutoff S.maxser ap =
      setupFrom S.table cutoff S.maxser ap :=
  setupFrom_congr cutoff fun _ => table_checkedIn

/-- The new delta is applied over what its predecessor is made of. -/
theorem apply_checkedIn_new {cutoff : ℤ} (hcutoff : e.dt.d_datetime ≤ cutoff)
    (hap : S.apply cutoff s = some ap) :
    ∃ ap', (S.checkedIn hnext body hash hhash).apply cutoff (S.maxser + 1) = some ap' ∧
      applied ap' = Function.update (applied ap) (S.maxser + 1) true := by
  rw [S.apply_eq] at hap
  rw [Sfile.apply_eq, maxser_checkedIn]
  generalize hap₀ : Function.update noApply (S.maxser + 1)
    { noApply (S.maxser + 1) with a_inline := true } = ap₀
  generalize htable : (S.checkedIn hnext body hash hhash).table = table
  have hself : table (S.maxser + 1) = ⟨e.dt.d_sid, [], s, e.dt.d_datetime⟩ := by
    rw [← htable, table_checkedIn_self]
  have hpos := hnext.pos
  have hle := hnext.le
  have hne : s ≠ S.maxser + 1 := by omega
  have hinline : (ap₀ (S.maxser + 1)).a_inline = true := by rw [← hap₀, Function.update_self]
  have hstop : ¬ ((ap₀ (S.maxser + 1)).a_inline = true ∧ S.maxser + 1 ≠ 1 ∧
      (table (S.maxser + 1)).i_pred = 0) := by
    rw [hself]
    rintro ⟨-, -, hs⟩
    exact absurd hs (Nat.ne_of_gt hpos)
  have hdecided : decided table cutoff (S.maxser + 1) ap₀ =
      Function.update (Function.update ap₀ s { ap₀ s with a_inline := true }) (S.maxser + 1)
        (condset APPLY SX_EMPTY (ap₀ (S.maxser + 1))) := by
    unfold decided
    rw [hself]
    dsimp only
    rw [if_pos hinline, if_neg (Int.not_lt.mpr hcutoff), Function.update_of_ne hne.symm]
  have hcode : (decided table cutoff (S.maxser + 1) ap₀ (S.maxser + 1)).a_code = APPLY := by
    rw [hdecided, Function.update_self, ← hap₀, Function.update_self]
    rfl
  have hagree : Agree (S.maxser + 1)
      (Function.update noApply s { noApply s with a_inline := true })
      (decided table cutoff (S.maxser + 1) ap₀) := by
    intro n hn
    rw [hdecided, Function.update_of_ne hn]
    have hap₀' : ∀ m, m ≠ S.maxser + 1 → ap₀ m = noApply m := fun m hm => by
      rw [← hap₀, Function.update_of_ne hm]
    by_cases hns : n = s
    · rw [hns, Function.update_self, Function.update_self, hap₀' s hne]
    · rw [Function.update_of_ne hns, Function.update_of_ne hns, hap₀' n hn]
  obtain ⟨ap', hap', hagree'⟩ := hagree.setupFrom _ cutoff (Nat.lt_succ_self S.maxser) hap
  refine ⟨ap', ?_, funext fun n => ?_⟩
  · rw [setupFrom_succ cutoff S.maxser hstop, if_pos hcode, hself]
    change (Option.some _).bind _ = _
    rw [Option.bind_some, ← htable, setupFrom_checkedIn, htable]
    exact hap'
  · by_cases hn : n = S.maxser + 1
    · have hkeep := setupFrom_keep hap' (S.maxser + 1) (by rw [hcode]; decide)
      rw [hn, Function.update_self, applied, hkeep, hcode]
      rfl
    · rw [Function.update_of_ne hn, applied, applied, hagree' n hn]

/-- The versions that there were are made of the same deltas. -/
theorem apply_checkedIn_old (cutoff : ℤ) {ser : ℕ} (hser : ser ≤ S.maxser) :
    (S.apply cutoff ser = none ∧ (S.checkedIn hnext body hash hhash).apply cutoff ser = none) ∨
      ∃ ap ap', S.apply cutoff ser = some ap ∧
        (S.checkedIn hnext body hash hhash).apply cutoff ser = some ap' ∧
          applied ap' (S.maxser + 1) = false ∧ Agree (S.maxser + 1) ap ap' := by
  rw [S.apply_eq, Sfile.apply_eq, maxser_checkedIn]
  generalize hap₀ : Function.update noApply ser { noApply ser with a_inline := true } = ap₀
  generalize htable : (S.checkedIn hnext body hash hhash).table = table
  have hne : ser ≠ S.maxser + 1 := by omega
  have hinline : (ap₀ (S.maxser + 1)).a_inline = false := by
    rw [← hap₀, Function.update_of_ne hne.symm]
    rfl
  have hstop : ¬ ((ap₀ (S.maxser + 1)).a_inline = true ∧ S.maxser + 1 ≠ 1 ∧
      (table (S.maxser + 1)).i_pred = 0) := fun h => by
    rw [hinline] at h
    exact absurd h.1 Bool.false_ne_true
  have hdecided : decided table cutoff (S.maxser + 1) ap₀ =
      Function.update ap₀ (S.maxser + 1) (condset NOAPPLY SX_EMPTY (ap₀ (S.maxser + 1))) := by
    unfold decided
    dsimp only
    rw [if_neg (by simp [hinline])]
  have hcode : (decided table cutoff (S.maxser + 1) ap₀ (S.maxser + 1)).a_code = NOAPPLY := by
    rw [hdecided, Function.update_self, ← hap₀, Function.update_of_ne hne.symm]
    rfl
  have hagree : Agree (S.maxser + 1) ap₀ (decided table cutoff (S.maxser + 1) ap₀) := by
    intro n hn
    rw [hdecided, Function.update_of_ne hn]
  have hnew : setupFrom table cutoff (S.maxser + 1) ap₀ =
      setupFrom S.table cutoff S.maxser (decided table cutoff (S.maxser + 1) ap₀) := by
    rw [setupFrom_succ cutoff S.maxser hstop, if_neg (by rw [hcode]; decide), ← htable,
      setupFrom_checkedIn]
  rw [hnew]
  cases hold : setupFrom S.table cutoff S.maxser ap₀ with
  | none =>
    cases hnone : setupFrom S.table cutoff S.maxser (decided table cutoff (S.maxser + 1) ap₀) with
    | none => exact Or.inl ⟨rfl, rfl⟩
    | some r =>
      obtain ⟨r', hr', -⟩ := hagree.symm.setupFrom _ cutoff (Nat.lt_succ_self S.maxser) hnone
      rw [hold] at hr'
      cases hr'
  | some r =>
    obtain ⟨r', hr', hagree'⟩ := hagree.setupFrom _ cutoff (Nat.lt_succ_self S.maxser) hold
    refine Or.inr ⟨r, r', rfl, hr', ?_, hagree'⟩
    have hkeep := setupFrom_keep hr' (S.maxser + 1) (by rw [hcode]; decide)
    rw [applied, hkeep, hcode]
    rfl

theorem Sfile.get_eq (S : Sfile zone) (cutoff : ℤ) (ser : ℕ) : S.get cutoff ser =
    if S.maxser < ser then none
    else (S.apply cutoff ser).bind fun ap => shownFrom (applied ap) S.maxser [] S.body := rfl

/-- The versions of the s-file with a body that has been woven. -/
theorem get_checkedIn {p : Pass} {cutoff : ℤ} (hcutoff : e.dt.d_datetime ≤ cutoff)
    (hap : S.apply cutoff s = some ap) (hp : p.ap = applied ap) (hmaxser : p.maxser = S.maxser)
    (hnewser : p.newser = S.maxser + 1) (hbody : p.body = S.body) {seen new : List Line}
    (hwove : p.Wove false body [] [] seen new) :
    (S.checkedIn hnext body hash hhash).get cutoff (S.maxser + 1) = some new ∧
      ∀ cutoff ser, ser ≤ S.maxser →
        (S.checkedIn hnext body hash hhash).get cutoff ser = S.get cutoff ser := by
  obtain ⟨hnew, hother⟩ := hwove.shown
  rw [hp, hnewser] at hnew
  rw [hnewser, hmaxser, hbody] at hother
  constructor
  · obtain ⟨ap', hap', happ⟩ := @apply_checkedIn_new s ap zone S e hnext body hash hhash _
      hcutoff hap
    rw [Sfile.get_eq, maxser_checkedIn, if_neg (Nat.lt_irrefl _), hap', Option.bind_some, happ]
    exact hnew
  · intro cutoff ser hser
    rw [Sfile.get_eq, S.get_eq, maxser_checkedIn, if_neg (by omega), if_neg (by omega)]
    rcases @apply_checkedIn_old s zone S e hnext body hash hhash cutoff ser hser with
      ⟨h, h'⟩ | ⟨ap, ap', h, h', hnot, hagree⟩
    · rw [h, h']
      rfl
    · rw [h, h', Option.bind_some, Option.bind_some]
      refine hother _ _ hnot fun n hn => ?_
      rw [applied, applied, hagree n (Nat.ne_of_lt hn)]

/-! ### The first pass -/

/-- The s-file is read for the first time. -/
structure Scanning (file : List Line) (ap : ℕ → Apply) (idel : Option (ℕ → Idel)) (bad : Bool)
    (pkt : Packet) : Prop where
  upd : pkt.p_upd = false
  create : pkt.Xcreate = false
  reopen : pkt.p_reopen = true
  chkeof : pkt.p_chkeof = true
  iop : pkt.p_iop ≠ none
  file : pkt.p_file = file
  apply : pkt.p_apply = ap
  idel : pkt.p_idel = idel
  sum : decide (Corrupted (core pkt)) = bad

/-- It is to be read again. -/
structure Rewound (file : List Line) (ap : ℕ → Apply) (idel : Option (ℕ → Idel)) (pkt : Packet) :
    Prop where
  upd : pkt.p_upd = false
  create : pkt.Xcreate = false
  reopen : pkt.p_reopen = false
  chkeof : pkt.p_chkeof = true
  chksum : pkt.do_chksum = false
  iop : pkt.p_iop = some file
  apply : pkt.p_apply = ap
  idel : pkt.p_idel = idel
  keep : pkt.p_keep = 0

variable {file : List Line} {idel : Option (ℕ → Idel)} {bad : Bool} {pkt : Packet}

theorem getlineEof_reopen (hreopen : pkt.p_reopen = true) : getlineEof pkt =
    if pkt.p_chkeof = false ∨ Corrupted pkt then none
    else some ((), { pkt with
      p_iop := some pkt.p_file, p_reopen := false, p_ihash := 0, p_chash := 0, p_uchash := 0
      p_nhash := 0, p_keep := 0, do_chksum := false }) := by
  change Option.bind ((fatalIf (pkt.p_chkeof = false) : M Unit) pkt) _ = _
  unfold fatalIf doIf
  by_cases hchk : pkt.p_chkeof = false
  · rw [if_pos hchk, if_pos (Or.inl hchk)]
    rfl
  · rw [if_neg hchk]
    change Option.bind ((fatalIf (Corrupted pkt) : M Unit) pkt) _ = _
    unfold fatalIf doIf
    by_cases hbad : Corrupted pkt
    · rw [if_pos hbad, if_pos (Or.inr hbad)]
      rfl
    · rw [if_neg hbad, if_neg fun h => h.elim hchk hbad]
      change some ((), _) = _
      simp only [hreopen]
      rfl

theorem scanning_getline : Triple (Scanning file ap idel bad) getline fun r pkt =>
    (r ≠ none → Scanning file ap idel bad pkt) ∧
      (r = none → bad = false ∧ Rewound file ap idel pkt) := by
  intro pkt r pkt' h hget
  rw [getline_eq, flushed_of_upd h.upd] at hget
  cases hiop : pkt.p_iop with
  | none => exact absurd hiop h.iop
  | some ls =>
    rw [hiop] at hget
    cases ls with
    | nil =>
      obtain ⟨t, ht, heq⟩ := Option.map_eq_some_iff.mp hget
      obtain ⟨rfl, rfl⟩ := Prod.mk.inj heq
      rw [getlineEof_reopen h.reopen] at ht
      split_ifs at ht with hbad
      have hcore : Corrupted (core pkt) ↔ Corrupted pkt := by
        simp only [Corrupted, core, hiop, Option.getD_some, List.flatten_nil, charSum, ucharSum,
          List.map_nil, List.sum_nil, add_zero]
      rw [not_or] at hbad
      refine ⟨fun h => absurd rfl h, fun _ => ⟨?_, ?_⟩⟩
      · rw [← h.sum, decide_eq_false_iff_not, hcore]
        exact hbad.2
      · rw [← Option.some.inj ht]
        exact ⟨h.upd, h.create, rfl, h.chkeof, rfl, congrArg some h.file, h.apply, h.idel, rfl⟩
    | cons l ls =>
      obtain ⟨rfl, rfl⟩ := Prod.mk.inj (Option.some.inj hget)
      refine ⟨fun _ => ?_, fun h => absurd h (Option.some_ne_none l)⟩
      refine ⟨h.upd, h.create, h.reopen, h.chkeof, Option.some_ne_none ls, h.file, h.apply,
        h.idel, ?_⟩
      rw [core_nextLine hiop]
      exact h.sum

theorem scanning_setq (q : Option (List Queue)) : Keeps (Scanning file ap idel bad) (setq q) := by
  cases q with
  | none => exact keeps_fatal
  | some q =>
    refine keeps_modify fun pkt h => ?_
    exact ⟨h.upd, h.create, h.reopen, h.chkeof, h.iop, h.file, h.apply, h.idel, h.sum⟩

theorem scanning_control (p : Line) : Keeps (Scanning file ap idel bad) (control p) :=
  keeps_get_bind fun _ => keeps_bind keeps_fatalIf fun _ => keeps_bind keeps_fatalIf fun _ =>
    keeps_ite (keeps_get_bind fun _ => scanning_setq _) (keeps_get_bind fun _ => scanning_setq _)

theorem scanning_readmod (fuel : ℕ) : Triple (Scanning file ap idel bad) (readmod fuel)
    fun more pkt => (more = true → Scanning file ap idel bad pkt) ∧
      (more = false → bad = false ∧ Rewound file ap idel pkt ∧ pkt.p_q = []) := by
  induction fuel with
  | zero => exact triple_fatal
  | succ fuel ih =>
    refine triple_bind scanning_getline fun r => ?_
    cases r with
    | none =>
      refine triple_get_bind fun pkt => triple_bind (Q := fun _ pkt' => pkt' = pkt ∧
        pkt.p_q = [] ∧ bad = false ∧ Rewound file ap idel pkt) ?_ fun _ => triple_pure ?_
      · rintro _ _ _ ⟨rfl, hpkt⟩ hrun
        obtain ⟨hq, rfl⟩ := fatalIf_some.mp hrun
        refine ⟨rfl, ?_, hpkt.2 rfl⟩
        exact List.isEmpty_iff.mp (by simpa using hq)
      · rintro _ ⟨rfl, hq, hbad, hpkt⟩
        exact ⟨fun h => absurd h Bool.false_ne_true, fun _ => ⟨hbad, hpkt, hq⟩⟩
    | some p =>
      refine triple_mono (P := Scanning file ap idel bad) (triple_ite (fun _ => ?_) fun _ => ?_)
        (fun _ h => h.1 (Option.some_ne_none p)) fun _ _ h => h
      · refine triple_get_bind fun pkt₀ => triple_mono (P := Scanning file ap idel bad)
          (triple_ite (fun _ => ?_) fun _ => ih) (fun _ h => h.2) fun _ _ h => h
        refine triple_bind (Q := fun _ => Scanning file ap idel bad) (triple_modify fun pkt h => ?_)
          fun _ => triple_pure fun pkt h => ⟨fun _ => h, fun h => by cases h⟩
        exact ⟨h.upd, h.create, h.reopen, h.chkeof, h.iop, h.file, h.apply, h.idel, h.sum⟩
      · exact triple_bind (scanning_control p) fun _ => ih

theorem scanning_readRest (fuel k : ℕ) : Triple (Scanning file ap idel bad) (readRest fuel k)
    fun _ pkt => bad = false ∧ Rewound file ap idel pkt ∧ pkt.p_q = [] := by
  induction k with
  | zero => exact triple_fatal
  | succ k ih =>
    refine triple_bind (scanning_readmod fuel) fun more => ?_
    cases more with
    | true => exact triple_mono ih (fun _ h => h.1 rfl) fun _ _ h => h
    | false => exact triple_pure fun _ h => h.2 rfl

/-! ### The second pass -/

theorem putAll_eq {strs : List Line} (hstrs : ∀ l ∈ strs, 0 ∉ l) (hupd : pkt.p_upd = true)
    (hcreate : pkt.Xcreate = true) : putAll strs pkt = some ((), put pkt strs.flatten) := by
  induction strs generalizing pkt with
  | nil =>
    rw [List.flatten_nil, Pass.put_nil hcreate]
    rfl
  | cons str strs ih =>
    obtain ⟨hstr, hstrs'⟩ := List.forall_mem_cons.mp hstrs
    have hflat : 0 ∉ strs.flatten := by
      intro hmem
      obtain ⟨l, hl, hmem⟩ := List.mem_flatten.mp hmem
      exact hstrs' l hl hmem
    have ih := @ih (put pkt str) hstrs' hupd rfl
    rw [Pass.put_put hcreate hstr hflat] at ih
    rw [putAll, bind_of_some (Pass.putline_some hupd _), ih, List.flatten_cons]

/-- `mkdelt` writes the first lines of the x-file. -/
theorem mkdelt_eq (c : Checkin) (hentry : ∀ l ∈ c.entry, 0 ∉ l) (hupd : pkt.p_upd = true) :
    mkdelt c pkt = some (pkt.maxser + c.ser_inc,
      put (put (put pkt headZero) statsZero) c.entry.flatten) := by
  have hstats : newstats 48 (put pkt headZero) = some ((), put (put pkt headZero) statsZero) :=
    @Pass.putline_some (put pkt headZero) hupd statsZero
  have hall : putAll c.entry (put (put pkt headZero) statsZero) = _ := putAll_eq hentry hupd rfl
  unfold mkdelt
  rw [bind_of_some (Pass.putline_some hupd _)]
  refine (bind_of_some hstats _).trans ?_
  rw [bind_of_some hall]
  rfl

theorem Pass.flushto_eq {p : Pass} {comments rest : List Line} {l : Line} {bs : Blocks} {g : ℕ}
    {diff : Line × ℤ × ℤ}
    (hcomments : ∀ l ∈ comments, ¬ (chr l = CTLCHAR ∧ chr l.tail = EUSERTXT))
    (hl : chr l = CTLCHAR ∧ chr l.tail = EUSERTXT) (hnul : ∀ l' ∈ comments ++ [l], 0 ∉ l') :
    ∀ {pkt : Packet} {text : Line} {fuel : ℕ}, comments.length < fuel →
      p.Ready (comments ++ l :: rest) bs g diff pkt →
      pkt.Xiop ++ (if pkt.p_wrttn then [] else cstr pkt.p_line) = text →
      ∃ pkt', flushto EUSERTXT false fuel pkt = some ((), pkt') ∧ p.Ready rest bs g diff pkt' ∧
        pkt'.p_wrttn = true ∧ pkt'.p_line = l ∧ pkt'.Xiop = text ++ (comments ++ [l]).flatten := by
  induction comments with
  | nil =>
    intro pkt text fuel hfuel hready htext
    obtain ⟨fuel, rfl⟩ := Nat.exists_eq_add_one_of_ne_zero (Nat.ne_zero_of_lt hfuel)
    obtain ⟨hget, hnext⟩ := hready.next
    have hX : (nextLine (flushed pkt) l rest).Xiop = text :=
      (flushed_text hready.upd hready.create).trans htext
    have hl0 : 0 ∉ l := hnul l (by simp)
    refine ⟨put { nextLine (flushed pkt) l rest with p_wrttn := true } l, ?_, ?_, rfl, rfl, ?_⟩
    · rw [flushto]
      refine (bind_of_some hget _).trans ?_
      dsimp only
      rw [if_pos hl]
      unfold putline
      change some ((), _) = _
      simp only [hnext.upd]
      rfl
    · exact ⟨hnext.upd, rfl, hnext.reopen, hnext.chkeof, hnext.chksum, hnext.iop, hnext.blocks,
        hnext.honest, hnext.keep, hnext.apply, hnext.maxser, hnext.glnno, hnext.diff⟩
    · simp only [put, hnext.create, if_true, hX, cstr_eq_self hl0, List.nil_append,
        List.flatten_cons, List.flatten_nil, List.append_nil]
  | cons c comments ih =>
    intro pkt text fuel hfuel hready htext
    obtain ⟨fuel, rfl⟩ := Nat.exists_eq_add_one_of_ne_zero (Nat.ne_zero_of_lt hfuel)
    obtain ⟨hc, hcomments⟩ := List.forall_mem_cons.mp hcomments
    obtain ⟨hc0, hnul⟩ := List.forall_mem_cons.mp hnul
    obtain ⟨hget, hnext⟩ := hready.next
    have hX : (nextLine (flushed pkt) c (comments ++ l :: rest)).Xiop = text :=
      (flushed_text hready.upd hready.create).trans htext
    have htext' : (nextLine (flushed pkt) c (comments ++ l :: rest)).Xiop ++ cstr c =
        text ++ c := by
      rw [hX, cstr_eq_self hc0]
    obtain ⟨pkt', hrun, hready', hw, hline, hX'⟩ :=
      ih hcomments hnul (Nat.lt_of_succ_lt_succ hfuel) hnext htext'
    refine ⟨pkt', ?_, hready', hw, hline, ?_⟩
    · rw [flushto]
      refine (bind_of_some hget _).trans ?_
      dsimp only
      rw [if_neg hc]
      exact hrun
    · rw [hX']
      simp

theorem length_shownFrom {ap : ℕ → Bool} {maxser : ℕ} {ls : List Line} :
    ∀ {bs : Blocks} {lines : List Line}, shownFrom ap maxser bs ls = some lines →
      lines.length ≤ ls.length := by
  induction ls with
  | nil =>
    intro bs lines h
    change (texts bs []).map (shown ap) = some lines at h
    rw [texts] at h
    split_ifs at h
    · cases h
      exact Nat.le_refl 0
    · cases h
  | cons l ls ih =>
    intro bs lines h
    rw [shownFrom_cons] at h
    cases hitem : item maxser l with
    | none =>
      rw [hitem] at h
      cases h
    | some i =>
      rw [hitem] at h
      cases i with
      | text l' =>
        obtain ⟨t, ht, rfl⟩ := Option.map_eq_some_iff.mp h
        have hle := ih ht
        split_ifs
        · exact Nat.succ_le_succ hle
        · exact Nat.le_succ_of_le hle
      | start ins ser =>
        obtain ⟨t, -, h⟩ := Option.bind_eq_some_iff.mp h
        exact Nat.le_succ_of_le (ih h)
      | stop ser =>
        obtain ⟨t, -, h⟩ := Option.bind_eq_some_iff.mp h
        exact Nat.le_succ_of_le (ih h)

/-- The pass of an attempt, of which the x-file has the lines up to the body. -/
def bodyPass (ap : ℕ → Apply) (maxser : ℕ) (c : Checkin) (pre : List Line) (eText : Line)
    (body : List Line) : Pass where
  ap := applied ap
  maxser := maxser
  newser := maxser + c.ser_inc
  text := headZero ++ statsZero ++ c.entry.flatten ++ (pre ++ [eText]).flatten
  body := body

variable {c : Checkin} {pre : List Line} {head eText : Line} {es : List Edit} {last : List Line}
  {fuel : ℕ}

/-- An attempt writes the new body. -/
theorem attempt_done (hpkt : Rewound (head :: (pre ++ eText :: body)) ap idel pkt)
    (hq : pkt.p_q = []) (hinc : 0 < c.ser_inc) (hentry : ∀ l ∈ c.entry, 0 ∉ l)
    (hpre : ∀ l ∈ pre, ¬ (chr l = CTLCHAR ∧ chr l.tail = EUSERTXT))
    (heText : chr eText = CTLCHAR ∧ chr eText.tail = EUSERTXT) (hended : Ended eText)
    (hnul : ∀ l ∈ pre ++ [eText], 0 ∉ l) (hbody : ∀ l ∈ body, Ended l ∧ 0 ∉ l)
    (hshown : shownFrom (applied ap) pkt.maxser [] body = some (oldLines es ++ last))
    (hes : ∀ e ∈ es, e.Ok) (hint : (oldLines es).length < 2 ^ 31)
    (hfuel : pre.length + body.length + 1 < fuel) (hdiff : (diffText 0 es).length < fuel) :
    ∃ pkt', attempt c fuel (diffText 0 es) pkt = some ((newCount es, oldCount es), pkt') ∧
      (bodyPass ap pkt.maxser c pre eText body).Done false (oldLines es ++ last)
        (newLines es ++ last) pkt' := by
  generalize hp : bodyPass ap pkt.maxser c pre eText body = p
  have hpbody : p.body = body := by rw [← hp]; rfl
  have hser : p.maxser < p.newser := by
    rw [← hp]
    exact Nat.lt_add_of_pos_right hinc
  have hlen := length_shownFrom hshown
  rw [List.length_append] at hlen
  -- the first line is read and not written
  generalize hpkt₁ : { pkt with p_glnno := 0, p_upd := true, p_wrttn := true } = pkt₁
  generalize hpkt₂ : { nextLine pkt₁ head (pre ++ eText :: body) with p_wrttn := true } = pkt₂
  have hget : getline pkt₁ = some (some head, nextLine pkt₁ head (pre ++ eText :: body)) := by
    have hflushed : flushed pkt₁ = pkt₁ := by
      rw [← hpkt₁]
      exact if_neg (by simp)
    have hiop : pkt₁.p_iop = some (head :: (pre ++ eText :: body)) := by
      rw [← hpkt₁]
      exact hpkt.iop
    rw [getline_eq, hflushed, hiop]
  have hmkdelt : mkdelt c pkt₂ = some (p.newser,
      put (put (put pkt₂ headZero) statsZero) c.entry.flatten) := by
    have hupd : pkt₂.p_upd = true := by rw [← hpkt₂, ← hpkt₁]; rfl
    rw [mkdelt_eq c hentry hupd, ← hp, ← hpkt₂, ← hpkt₁]
    rfl
  generalize hpkt₃ : put (put (put pkt₂ headZero) statsZero) c.entry.flatten = pkt₃ at hmkdelt
  have hready : p.Ready (pre ++ eText :: body) [] 0 (pkt₃.Diffin, pkt₃.chg_num, pkt₃.chg_ln)
      pkt₃ := by
    refine ⟨?_, ?_, ?_, ?_, ?_, ?_, ?_, ?_, ?_, ?_, ?_, ?_, rfl⟩
    all_goals rw [← hpkt₃, ← hpkt₂, ← hpkt₁]
    · rfl
    · rfl
    · exact hpkt.reopen
    · exact hpkt.chkeof
    · exact hpkt.chksum
    · rfl
    · exact congrArg (List.map Queue.block) hq
    · intro q hmem
      have hmem' : q ∈ pkt.p_q := hmem
      rw [hq] at hmem'
      exact absurd hmem' List.not_mem_nil
    · have hkeep : pkt.p_keep = YES ↔ setkeep pkt.p_q = YES := by
        rw [hpkt.keep, hq]
        decide
      exact hkeep
    · rw [← hp, ← hpkt.apply]
      rfl
    · rw [← hp]
      rfl
    · rfl
  have hflat : cstr c.entry.flatten = c.entry.flatten := by
    refine cstr_eq_self fun hmem => ?_
    obtain ⟨l, hl, hmem⟩ := List.mem_flatten.mp hmem
    exact hentry l hl hmem
  have hX : pkt₃.Xiop ++ (if pkt₃.p_wrttn then [] else cstr pkt₃.p_line) =
      headZero ++ statsZero ++ c.entry.flatten := by
    have hhead : cstr headZero = headZero := by decide
    have hstats : cstr statsZero = statsZero := by decide
    rw [← hpkt₃, ← hpkt₂, ← hpkt₁]
    simp only [put, nextLine, hpkt.create, hhead, hstats, hflat, if_true, List.append_nil,
      Bool.false_eq_true, if_false, List.nil_append]
  have hprefuel : pre.length < fuel := by omega
  obtain ⟨pkt₄, hflush, hready₄, hw₄, hline₄, hX₄⟩ := Pass.flushto_eq hpre heText hnul hprefuel
    hready hX
  -- the body
  have hsettled : p.Settled false [] (oldLines es ++ last) []
      (diffText 0 es, pkt₄.chg_num, pkt₄.chg_ln) { pkt₄ with Diffin := diffText 0 es } := by
    refine ⟨⟨[], body, [], ⟨hready₄.upd, hready₄.create, hready₄.reopen, hready₄.chkeof,
      hready₄.chksum, hready₄.iop, hready₄.blocks, hready₄.honest, hready₄.keep, hready₄.apply,
      hready₄.maxser, hready₄.glnno, rfl⟩, ⟨hbody, ?_⟩, ⟨fun _ h => absurd h List.not_mem_nil, [],
        [], [], hpbody, rfl, rfl, woven_nil, fun _ => rfl⟩, ?_⟩, hw₄, ?_⟩
    · rw [← hp]
      exact hshown
    · dsimp only
      rw [hw₄, if_pos rfl, hX₄, ← hp]
      rfl
    · dsimp only
      rw [hline₄]
      exact Pass.getLast_ended hended
  have hpfuel : p.body.length < fuel := by
    rw [hpbody]
    omega
  obtain ⟨_, pkt₅, hhunks, rfl, num, ln, hpkt₅⟩ := (@Pass.run_hunks p fuel hser hpfuel last es [] []
    fuel 0 0 _ _ hes (by omega) hdiff hdiff (by simpa using hint)).exists hsettled
  have hlastfuel : last.length < fuel := by omega
  have hiop₅ : pkt₅.p_iop.isSome = true := by
    obtain ⟨⟨_, _, _, hready₅, _⟩, _⟩ := hpkt₅
    rw [hready₅.iop]
    rfl
  obtain ⟨_, pkt₆, hrest, hdone⟩ := (Pass.run_readRest hser hpfuel hlastfuel).exists hpkt₅.1
  refine ⟨pkt₆, ?_, by simpa using hdone⟩
  unfold attempt
  rw [bind_of_some (modify_some.mpr rfl), hpkt₁, bind_of_some hget,
    bind_of_some (modify_some.mpr rfl), hpkt₂, bind_of_some hmkdelt, bind_of_some hflush,
    bind_of_some (modify_some.mpr rfl), bind_of_some hhunks,
    bind_of_some (get_some.mpr ⟨rfl, rfl⟩), doIf, if_pos hiop₅, bind_of_some hrest]
  simp only [zero_add]
  rfl

end Unitas.Sccs
