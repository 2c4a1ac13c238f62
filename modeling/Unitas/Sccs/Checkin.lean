import Unitas.Sccs.Delta
import Unitas.Sccs.Removed
import Unitas.Sdiff.Walk

/-! `delta`: the body that it writes shows the new version, and the old versions as they were. -/
namespace Unitas.Sccs
open Unitas.Decimal Unitas.Hoare Unitas.Lines Unitas.Weave

/-! ### The pass over the body -/

/-- A pass over a body: the version that is changed, the highest serial of the body, the serial of
the new delta, and what the x-file has before. -/
structure Pass where
  ap : ℕ → Bool
  maxser : ℕ
  newser : ℕ
  text : Line
  body : List Line

namespace Pass

variable {p : Pass}

/-- The packet, of which the lines `rest` are left after `g` lines of the version. -/
structure Ready (p : Pass) (rest : List Line) (bs : Blocks) (g : ℕ) (diff : Line × ℤ × ℤ)
    (pkt : Packet) : Prop where
  upd : pkt.p_upd = true
  create : pkt.Xcreate = true
  reopen : pkt.p_reopen = false
  chkeof : pkt.p_chkeof = true
  chksum : pkt.do_chksum = false
  iop : pkt.p_iop = some rest
  blocks : pkt.p_q.map Queue.block = bs
  honest : Honest p.ap pkt.p_q
  keep : pkt.p_keep = YES ↔ setkeep pkt.p_q = YES
  apply : applied pkt.p_apply = p.ap
  maxser : pkt.maxser = p.maxser
  glnno : pkt.p_glnno = g
  diff : (pkt.Diffin, pkt.chg_num, pkt.chg_ln) = diff

/-- The lines that are left, of which the version shows `later`. -/
structure Left (p : Pass) (bs : Blocks) (rest later : List Line) : Prop where
  lines : ∀ l ∈ rest, Ended l ∧ 0 ∉ l
  shown : shownFrom p.ap p.maxser bs rest = some later

/-- What `rmdel` leaves of the lines `out` without the delta `s` is `pre`. -/
def Kept (s : ℕ) (out pre : List Line) : Prop :=
  ∀ rest, keptLines s true (out ++ rest) = pre ++ keptLines s true rest

/-- The lines `out` are made of the ones before `left`. -/
def Wove (p : Pass) (del : Bool) (out left : List Line) (bs : Blocks) (seen new : List Line) :
    Prop :=
  (∀ l ∈ out, Ended l ∧ 0 ∉ l) ∧ ∃ pre is js, p.body = pre ++ left ∧
    pre.mapM (item p.maxser) = some is ∧ out.mapM (item p.newser) = some js ∧
      Woven p.ap p.newser del is js bs seen new ∧ Kept p.newser out pre

/-- Between two lines: the one before may still have to be written. -/
def Passing (p : Pass) (del : Bool) (seen later new : List Line) (diff : Line × ℤ × ℤ)
    (pkt : Packet) : Prop :=
  ∃ out rest bs, p.Ready rest bs seen.length diff pkt ∧ p.Left bs rest later ∧
    p.Wove del out rest bs seen new ∧
      pkt.Xiop ++ (if pkt.p_wrttn then [] else cstr pkt.p_line) = p.text ++ out.flatten

/-- All lines that have been read are written. -/
def Settled (p : Pass) (del : Bool) (seen later new : List Line) (diff : Line × ℤ × ℤ)
    (pkt : Packet) : Prop :=
  p.Passing del seen later new diff pkt ∧ pkt.p_wrttn = true ∧ pkt.p_line.getLast? = some 10

/-- The next line of the version has been read, and is not yet written. -/
def Pending (p : Pass) (del : Bool) (seen : List Line) (l : Line) (later new : List Line)
    (diff : Line × ℤ × ℤ) (pkt : Packet) : Prop :=
  ∃ out rest bs, p.Ready rest bs (seen.length + 1) diff pkt ∧ p.Left bs rest later ∧
    p.Wove del out (l :: rest) bs seen new ∧ visible p.ap bs = true ∧ chr l ≠ CTLCHAR ∧
      pkt.p_line = l ∧ pkt.p_wrttn = false ∧ pkt.Xiop = p.text ++ out.flatten ∧ 0 ∉ l ∧
        Ended l

/-- The body has been read to its end. -/
def Done (p : Pass) (del : Bool) (seen new : List Line) (pkt : Packet) : Prop :=
  pkt.p_iop = none ∧ pkt.p_upd = true ∧ pkt.Xcreate = true ∧ pkt.p_wrttn = true ∧
    ∃ out, p.Wove del out [] [] seen new ∧ pkt.Xiop = p.text ++ out.flatten

/-- What `readmod` comes to. -/
def AfterRead (p : Pass) (del : Bool) (seen new : List Line) (diff : Line × ℤ × ℤ) :
    List Line → Bool → Packet → Prop
  | [], more, pkt => more = false ∧ p.Done del seen new pkt
  | l :: later, more, pkt => more = true ∧ p.Pending del seen l later new diff pkt

variable {rest later seen new out left : List Line} {bs bs' : Blocks} {g : ℕ} {del : Bool}
  {diff : Line × ℤ × ℤ} {pkt : Packet} {l : Line}

theorem Ready.flushed (h : p.Ready rest bs g diff pkt) : p.Ready rest bs g diff (flushed pkt) := by
  unfold Sccs.flushed
  split_ifs
  · exact ⟨h.upd, rfl, h.reopen, h.chkeof, h.chksum, h.iop, h.blocks, h.honest, h.keep, h.apply,
      h.maxser, h.glnno, h.diff⟩
  · exact h

theorem flushed_text (hupd : pkt.p_upd = true) (hcreate : pkt.Xcreate = true) :
    (flushed pkt).Xiop = pkt.Xiop ++ (if pkt.p_wrttn then [] else cstr pkt.p_line) := by
  unfold flushed
  cases hw : pkt.p_wrttn with
  | true => simp
  | false => simp [hupd, put, hcreate]

theorem flushed_wrttn (hupd : pkt.p_upd = true) : (flushed pkt).p_wrttn = true := by
  unfold flushed
  split_ifs with hw
  · rfl
  · cases hpw : pkt.p_wrttn with
    | true => rfl
    | false => exact absurd ⟨hupd, hpw⟩ hw

theorem Ready.next (h : p.Ready (l :: rest) bs g diff pkt) :
    getline pkt = some (some l, nextLine (Sccs.flushed pkt) l rest) ∧
      p.Ready rest bs g diff (nextLine (Sccs.flushed pkt) l rest) := by
  have hget := getline_eq pkt
  rw [h.iop] at hget
  have hf := h.flushed
  exact ⟨hget, hf.upd, hf.create, hf.reopen, hf.chkeof, hf.chksum, rfl, hf.blocks, hf.honest,
    hf.keep, hf.apply, hf.maxser, hf.glnno, hf.diff⟩

theorem Ready.eof (h : p.Ready [] bs g diff pkt) :
    getline pkt = some (none, { Sccs.flushed pkt with p_iop := none }) := by
  have hget := getline_eq pkt
  have hf := h.flushed
  rw [h.iop] at hget
  dsimp only at hget
  have hgood : ¬ ((Sccs.flushed pkt).p_chkeof = false ∨ Corrupted (Sccs.flushed pkt)) := by
    rintro (hchk | ⟨hsum, -⟩)
    · rw [hf.chkeof] at hchk
      cases hchk
    · rw [hf.chksum] at hsum
      cases hsum
  rw [hget, getlineEof_eq hf.reopen, if_neg hgood]
  rfl

theorem Ready.setQueue (h : p.Ready rest bs g diff pkt) {q : List Queue} (hq : Honest p.ap q) :
    p.Ready rest (q.map Queue.block) g diff (Sccs.setQueue pkt q) :=
  ⟨h.upd, h.create, h.reopen, h.chkeof, h.chksum, h.iop, rfl, hq, Iff.rfl, h.apply, h.maxser,
    h.glnno, h.diff⟩

/-- A control line opens or closes a block. -/
theorem Ready.start (h : p.Ready rest bs g diff pkt) (hl : chr l = CTLCHAR) {ins : Bool} {ser : ℕ}
    (hitem : item p.maxser l = some (.start ins ser)) (henter : enter ser ins bs = some bs') :
    ∃ q, control l pkt = some ((), Sccs.setQueue pkt q) ∧
      p.Ready rest bs' g diff (Sccs.setQueue pkt q) := by
  have hctl := control_eq hl pkt
  rw [h.maxser, hitem, Option.bind_some, controlled] at hctl
  have hiord : ((if ins then INS else DEL) == INS) = ins := by cases ins <;> rfl
  have hblock := insertq_block ⟨ser, blockKeep ((pkt.p_apply ser).a_code = APPLY)
    (if ins then INS else DEL), if ins then INS else DEL⟩ pkt.p_q
  dsimp only at hblock
  rw [h.blocks, hiord, henter] at hblock
  obtain ⟨q, hq, rfl⟩ := Option.map_eq_some_iff.mp hblock
  rw [hq] at hctl
  refine ⟨q, hctl, h.setQueue fun e he => ?_⟩
  rcases mem_insertq hq he with rfl | he
  · refine ⟨?_, ?_⟩
    · cases ins with
      | true => exact Or.inl rfl
      | false => exact Or.inr rfl
    · rw [← h.apply]
      rfl
  · exact h.honest e he

theorem Ready.stop (h : p.Ready rest bs g diff pkt) (hl : chr l = CTLCHAR) {ser : ℕ}
    (hitem : item p.maxser l = some (.stop ser)) (hleave : leave ser bs = some bs') :
    ∃ q, control l pkt = some ((), Sccs.setQueue pkt q) ∧
      p.Ready rest bs' g diff (Sccs.setQueue pkt q) := by
  have hctl := control_eq hl pkt
  rw [h.maxser, hitem, Option.bind_some, controlled] at hctl
  rw [← h.blocks, ← removeq_block] at hleave
  obtain ⟨q, hq, rfl⟩ := Option.map_eq_some_iff.mp hleave
  rw [hq] at hctl
  exact ⟨q, hctl, h.setQueue fun e he => h.honest e (mem_removeq hq he)⟩

/-! ### The weave -/

theorem mapM_concat {α : Type} {f : Line → Option α} {ls : List Line} {is : List α} {i : α}
    (hls : ls.mapM f = some is) (hl : f l = some i) : (ls ++ [l]).mapM f = some (is ++ [i]) := by
  rw [List.mapM_append, hls]
  simp [hl]

theorem mapM_text {m : ℕ} {ls : List Line} (h : ∀ l ∈ ls, chr l ≠ CTLCHAR) :
    ls.mapM (item m) = some (ls.map Item.text) := by
  induction ls with
  | nil => rfl
  | cons l ls ih =>
    obtain ⟨hl, hls⟩ := List.forall_mem_cons.mp h
    rw [List.mapM_cons, item_text hl, ih hls]
    rfl

/-- The serial of a block of the body is not above the highest one. -/
theorem item_start {maxser : ℕ} {ins : Bool} {ser : ℕ} (h : item maxser l = some (.start ins ser)) :
    ser ≤ maxser := by
  unfold item at h
  dsimp only at h
  split_ifs at h with _ h2
  · cases h
  · cases h
  · obtain ⟨-, rfl⟩ := Item.start.inj (Option.some.inj h)
    exact h2.2

/-- A higher serial does not change the lines that there are. -/
theorem item_mono {m m' : ℕ} (hm : m ≤ m') {i : Item Line} (h : item m l = some i) :
    item m' l = some i := by
  unfold item at h ⊢
  dsimp only at h ⊢
  by_cases hctl : chr l ≠ CTLCHAR
  · rw [if_pos hctl] at h ⊢
    exact h
  · rw [if_neg hctl] at h ⊢
    split_ifs at h with hser hend hblock
    · rw [if_neg (not_not.mpr ⟨hser.1, hser.2.trans hm⟩), if_pos hend]
      exact h
    · rw [if_neg (not_not.mpr ⟨hser.1, hser.2.trans hm⟩), if_neg hend,
        if_pos hblock]
      exact h

variable (hser : p.maxser < p.newser)

theorem forall_concat {P : Line → Prop} (hout : ∀ l ∈ out, P l) (hl : P l) :
    ∀ l' ∈ out ++ [l], P l' :=
  List.forall_mem_append.mpr ⟨hout, fun _ h => List.mem_singleton.mp h ▸ hl⟩

theorem Kept.text {s : ℕ} {pre : List Line} (h : Kept s out pre) (hl : chr l ≠ CTLCHAR) :
    Kept s (out ++ [l]) (pre ++ [l]) := by
  intro rest
  rw [List.append_assoc, List.append_assoc, h, List.singleton_append, keptLines, if_neg hl,
    if_pos rfl]
  rfl

theorem Kept.control {s : ℕ} {pre : List Line} (h : Kept s out pre) (hl : chr l = CTLCHAR)
    (hs : (satoi (NONBLANK l.tail.tail)).1 ≠ s) : Kept s (out ++ [l]) (pre ++ [l]) := by
  intro rest
  rw [List.append_assoc, List.append_assoc, h, List.singleton_append, keptLines, if_pos hl,
    if_neg hs]
  rfl

theorem Wove.text (h : p.Wove del out (l :: left) bs seen new) (hl : chr l ≠ CTLCHAR)
    (hline : Ended l ∧ 0 ∉ l) :
    p.Wove del (out ++ [l]) left bs (seen ++ if visible p.ap bs then [l] else [])
      (new ++ if visible p.ap bs ∧ del = false then [l] else []) := by
  obtain ⟨hout, pre, is, js, hbody, his, hjs, hwoven, hkept⟩ := h
  refine ⟨forall_concat hout hline, pre ++ [l], _, _, by simpa using hbody,
    mapM_concat his (item_text hl),
    mapM_concat hjs (item_text hl), hwoven.text l, hkept.text hl⟩

include hser in
theorem Wove.start (h : p.Wove del out (l :: left) bs seen new) {ins : Bool} {ser : ℕ}
    (hitem : item p.maxser l = some (.start ins ser)) (henter : enter ser ins bs = some bs')
    (hl : chr l = CTLCHAR) (hline : Ended l ∧ 0 ∉ l) :
    p.Wove del (out ++ [l]) left bs' seen new := by
  obtain ⟨hout, pre, is, js, hbody, his, hjs, hwoven, hkept⟩ := h
  have hlt := (item_start hitem).trans_lt hser
  have hne : (satoi (NONBLANK l.tail.tail)).1 ≠ p.newser := by
    rw [(Sccs.item_start hl hitem).1]
    exact Nat.ne_of_lt hlt
  exact ⟨forall_concat hout hline, pre ++ [l], _, _, by simpa using hbody, mapM_concat his hitem,
    mapM_concat hjs (item_mono hser.le hitem), hwoven.start hlt henter, hkept.control hl hne⟩

include hser in
theorem Wove.stop (h : p.Wove del out (l :: left) bs seen new) {ser : ℕ}
    (hitem : item p.maxser l = some (.stop ser)) (hleave : leave ser bs = some bs')
    (hl : chr l = CTLCHAR) (hline : Ended l ∧ 0 ∉ l) :
    p.Wove del (out ++ [l]) left bs' seen new := by
  obtain ⟨hout, pre, is, js, hbody, his, hjs, hwoven, hkept⟩ := h
  have hne : (satoi (NONBLANK l.tail.tail)).1 ≠ p.newser := by
    obtain ⟨b, hb, hbs⟩ := mem_of_leave hleave
    rw [(Sccs.item_stop hl hitem).1, ← hbs]
    exact Nat.ne_of_lt (hwoven.lt b hb)
  exact ⟨forall_concat hout hline, pre ++ [l], _, _, by simpa using hbody, mapM_concat his hitem,
    mapM_concat hjs (item_mono hser.le hitem), hwoven.stop hleave, hkept.control hl hne⟩

/-! ### Reading -/

theorem Left.nil (h : p.Left bs [] later) : bs = [] ∧ later = [] := by
  have hshown := h.shown
  unfold shownFrom at hshown
  simp only [List.mapM_nil] at hshown
  change (texts bs []).map (Weave.shown p.ap) = some later at hshown
  rw [texts] at hshown
  split_ifs at hshown with hbs
  · exact ⟨hbs, (Option.some.inj hshown).symm⟩
  · cases hshown

include hser in
theorem readmod_eq {rest : List Line} : ∀ {bs : Blocks} {out later : List Line} {pkt : Packet}
    {fuel : ℕ}, rest.length < fuel → p.Ready rest bs seen.length diff pkt → p.Left bs rest later →
      p.Wove del out rest bs seen new →
        pkt.Xiop ++ (if pkt.p_wrttn then [] else cstr pkt.p_line) = p.text ++ out.flatten →
          ∃ more pkt', readmod fuel pkt = some (more, pkt') ∧
            p.AfterRead del seen new diff later more pkt' := by
  induction rest with
  | nil =>
    intro bs out later pkt fuel hfuel hready hleft hwove htext
    obtain ⟨fuel, rfl⟩ := Nat.exists_eq_add_one_of_ne_zero (Nat.ne_zero_of_lt hfuel)
    obtain ⟨rfl, rfl⟩ := hleft.nil
    have hq : pkt.p_q = [] := List.map_eq_nil_iff.mp hready.blocks
    have hflushed : (flushed pkt).p_q = pkt.p_q := by
      unfold flushed
      split_ifs
      · rfl
      · rfl
    refine ⟨false, { flushed pkt with p_iop := none }, ?_, rfl, rfl, hready.flushed.upd,
      hready.flushed.create, flushed_wrttn hready.upd, out, hwove, ?_⟩
    · have hempty : ¬ (flushed pkt).p_q.isEmpty = false := by
        rw [hflushed, hq]
        decide
      rw [readmod, bind_of_some hready.eof]
      change (fatalIf ((flushed pkt).p_q.isEmpty = false) >>= fun _ => pure false : M Bool)
        { flushed pkt with p_iop := none } = _
      rw [bind_of_some (fatalIf_some.mpr ⟨hempty, rfl⟩)]
      rfl
    · change (flushed pkt).Xiop = _
      rw [flushed_text hready.upd hready.create, htext]
  | cons l rest ih =>
    intro bs out later pkt fuel hfuel hready hleft hwove htext
    obtain ⟨fuel, rfl⟩ := Nat.exists_eq_add_one_of_ne_zero (Nat.ne_zero_of_lt hfuel)
    obtain ⟨hget, hnext⟩ := hready.next
    have hfuel₁ := Nat.lt_of_succ_lt_succ hfuel
    obtain ⟨⟨hended, hl0⟩, hlines⟩ := List.forall_mem_cons.mp hleft.lines
    have hshown := hleft.shown
    rw [shownFrom_cons] at hshown
    have hX : (nextLine (flushed pkt) l rest).Xiop = p.text ++ out.flatten :=
      (flushed_text hready.upd hready.create).trans htext
    -- the line goes to the x-file as it is
    have htext' : (nextLine (flushed pkt) l rest).Xiop ++ cstr l =
        p.text ++ (out ++ [l]).flatten := by
      rw [hX, cstr_eq_self hl0, List.flatten_append, List.append_assoc]
      simp
    have hread : readmod (fuel + 1) pkt = (if chr l ≠ CTLCHAR then do
        if (← get).p_keep = YES then
          modify fun pkt => { pkt with p_glnno := pkt.p_glnno + 1 }
          return true
        else readmod fuel
      else do
        control l
        readmod fuel : M Bool) (nextLine (flushed pkt) l rest) := by
      rw [readmod, bind_of_some hget]
    by_cases hctl : chr l = CTLCHAR
    · rw [if_neg (not_not.mpr hctl)] at hread
      cases hitem : item p.maxser l with
      | none =>
        rw [hitem] at hshown
        cases hshown
      | some i =>
        rw [hitem] at hshown
        cases i with
        | text l' => exact absurd hitem (item_control hctl l')
        | start ins ser =>
          obtain ⟨bs', henter, hshown⟩ := Option.bind_eq_some_iff.mp hshown
          obtain ⟨q, hrun, hready'⟩ := hnext.start hctl hitem henter
          rw [bind_of_some hrun] at hread
          rw [hread]
          exact ih hfuel₁ hready' ⟨hlines, hshown⟩
            (hwove.start hser hitem henter hctl ⟨hended, hl0⟩) htext'
        | stop ser =>
          obtain ⟨bs', hleave, hshown⟩ := Option.bind_eq_some_iff.mp hshown
          obtain ⟨q, hrun, hready'⟩ := hnext.stop hctl hitem hleave
          rw [bind_of_some hrun] at hread
          rw [hread]
          exact ih hfuel₁ hready' ⟨hlines, hshown⟩
            (hwove.stop hser hitem hleave hctl ⟨hended, hl0⟩) htext'
    · rw [if_pos hctl, bind_of_some (get_some.mpr ⟨rfl, rfl⟩)] at hread
      rw [item_text hctl] at hshown
      obtain ⟨later', hlater, heq⟩ := Option.map_eq_some_iff.mp hshown
      have hvis : (nextLine (flushed pkt) l rest).p_keep = YES ↔ visible p.ap bs = true := by
        rw [hnext.keep, setkeep_visible hnext.honest, hnext.blocks]
      by_cases hkeep : (nextLine (flushed pkt) l rest).p_keep = YES
      · rw [if_pos (hvis.mp hkeep)] at heq
        subst heq
        rw [if_pos hkeep] at hread
        refine ⟨true, _, hread, rfl, out, rest, bs, ?_, ⟨hlines, hlater⟩, hwove,
          hvis.mp hkeep, hctl, rfl, rfl, hX, hl0, hended⟩
        exact ⟨hnext.upd, hnext.create, hnext.reopen, hnext.chkeof, hnext.chksum, hnext.iop,
          hnext.blocks, hnext.honest, hnext.keep, hnext.apply, hnext.maxser,
          congrArg (· + 1) hnext.glnno, hnext.diff⟩
      · have hnot : visible p.ap bs = false := Bool.eq_false_iff.mpr (mt hvis.mpr hkeep)
        rw [if_neg hkeep] at hread
        have hwove' := hwove.text hctl ⟨hended, hl0⟩
        simp only [hnot, Bool.false_eq_true, if_false, false_and, List.append_nil] at hwove' heq
        rw [hread]
        exact ih hfuel₁ hnext ⟨hlines, heq ▸ hlater⟩ hwove' htext'

/-- A line that has been read counts as written from here on. -/
theorem Pending.passing {later : List Line} (h : p.Pending del seen l later new diff pkt) :
    p.Passing del (seen ++ [l]) later (new ++ if del then [] else [l]) diff pkt := by
  obtain ⟨out, rest, bs, hready, hleft, hwove, hvis, hctl, hline, hw, hX, hl0, hended⟩ := h
  have hwove' := hwove.text hctl ⟨hended, hl0⟩
  rw [if_pos hvis] at hwove'
  have hnew : (if visible p.ap bs = true ∧ del = false then [l] else []) =
      if del then [] else [l] := by
    cases del with
    | false => simp [hvis]
    | true => simp
  rw [hnew] at hwove'
  refine ⟨out ++ [l], rest, bs, ?_, hleft, hwove', ?_⟩
  · rw [List.length_append]
    exact hready
  · rw [hw, hline, hX, cstr_eq_self hl0, List.flatten_append, List.append_assoc]
    simp

theorem getLast_ended (h : Ended l) : l.getLast? = some 10 := by
  obtain ⟨text, -, rfl⟩ := h
  exact List.getLast?_concat

theorem Passing.congr (h : p.Passing del seen later new diff pkt) {seen' new' : List Line}
    (hseen : seen = seen') (hnew : new = new') : p.Passing del seen' later new' diff pkt :=
  hseen ▸ hnew ▸ h

variable {fuel : ℕ}

theorem Wove.length_le (h : p.Wove del out left bs seen new) : left.length ≤ p.body.length := by
  obtain ⟨-, pre, -, -, hbody, -⟩ := h
  rw [hbody, List.length_append]
  exact Nat.le_add_left _ _

include hser in
theorem run_readmod (hfuel : p.body.length < fuel) :
    Run False (p.Passing del seen later new diff) (readmod fuel)
      (p.AfterRead del seen new diff later) := by
  rintro pkt ⟨out, rest, bs, hready, hleft, hwove, htext⟩
  exact Or.inr (readmod_eq hser (hwove.length_le.trans_lt hfuel) hready hleft hwove htext)

theorem Passing.glnno (h : p.Passing del seen later new diff pkt) : pkt.p_glnno = seen.length := by
  obtain ⟨_, _, _, hready, _⟩ := h
  exact hready.glnno

theorem Pending.glnno (h : p.Pending del seen l later new diff pkt) :
    pkt.p_glnno = seen.length + 1 := by
  obtain ⟨_, _, _, hready, _⟩ := h
  exact hready.glnno

/-- Nothing is read where the lines have been. -/
theorem before_done {n : ℤ} {k : ℕ} (h : n ≤ pkt.p_glnno) :
    before fuel n (k + 1) pkt = some ((), pkt) := by
  rw [before, bind_of_some (get_some.mpr ⟨rfl, rfl⟩), if_neg (by omega)]
  rfl

include hser in
/-- `before` reads up to a line, and the lines before it stay. -/
theorem run_before (hfuel : p.body.length < fuel) {ls later : List Line} :
    ∀ {seen new : List Line} {k : ℕ}, ls.length + 1 < k →
      Run False (p.Passing del seen (ls ++ l :: later) new diff)
        (before fuel ((seen.length + ls.length + 1 : ℕ) : ℤ) k)
          fun _ => p.Pending del (seen ++ ls) l later (new ++ if del then [] else ls) diff := by
  induction ls with
  | nil =>
    intro seen new k hk pkt hpkt
    obtain ⟨k, rfl⟩ : ∃ j, k = j + 1 + 1 := Nat.exists_eq_add_of_le' hk
    have hlt : ((pkt.p_glnno : ℕ) : ℤ) < ((seen.length + ([] : List Line).length + 1 : ℕ) : ℤ) := by
      rw [hpkt.glnno, List.length_nil]
      omega
    obtain ⟨more, pkt', hread, rfl, hpending⟩ := (run_readmod hser hfuel).exists hpkt
    have hdone : ((seen.length + ([] : List Line).length + 1 : ℕ) : ℤ) ≤ pkt'.p_glnno := by
      rw [hpending.glnno, List.length_nil]
    refine Or.inr ⟨(), pkt', ?_, by simpa using hpending⟩
    rw [before, bind_of_some (get_some.mpr ⟨rfl, rfl⟩), if_pos hlt, bind_of_some hread]
    exact before_done hdone
  | cons l' ls ih =>
    intro seen new k hk pkt hpkt
    obtain ⟨k, rfl⟩ := Nat.exists_eq_add_one_of_ne_zero (Nat.ne_zero_of_lt hk)
    have hlt : ((pkt.p_glnno : ℕ) : ℤ) < ((seen.length + (l' :: ls).length + 1 : ℕ) : ℤ) := by
      rw [hpkt.glnno]
      omega
    obtain ⟨more, pkt', hread, rfl, hpending⟩ := (run_readmod hser hfuel).exists hpkt
    have hlen : seen.length + (l' :: ls).length + 1 = (seen ++ [l']).length + ls.length + 1 := by
      simp only [List.length_append, List.length_cons, List.length_nil]
      omega
    obtain ⟨_, pkt'', hrun, hpkt''⟩ := (ih (Nat.lt_of_succ_lt_succ hk)).exists hpending.passing
    refine Or.inr ⟨(), pkt'', ?_, ?_⟩
    · rw [before, bind_of_some (get_some.mpr ⟨rfl, rfl⟩), if_pos hlt, bind_of_some hread, hlen]
      exact hrun
    · cases del with
      | false => simpa using hpkt''
      | true => simpa using hpkt''

/-- The line at hand is written. -/
theorem run_putCurrent (hfuel : 0 < fuel) :
    Run False (p.Pending del seen l later new diff) (putCurrent fuel)
      fun _ => p.Settled del (seen ++ [l]) later (new ++ if del then [] else [l]) diff := by
  intro pkt hpkt
  obtain ⟨fuel, rfl⟩ := Nat.exists_eq_add_one_of_ne_zero (Nat.ne_zero_of_lt hfuel)
  obtain ⟨out, rest, bs, hready, hleft, hwove, htext⟩ := hpkt.passing
  obtain ⟨_, _, _, -, -, -, -, -, hline, hw, -, hl0, hended⟩ := hpkt
  have hlast : l.getLast? = some 10 := getLast_ended hended
  have hrun : putCurrent (fuel + 1) pkt =
      some ((), put { pkt with p_wrttn := true } pkt.p_line) := by
    rw [putCurrent, bind_of_some (get_some.mpr ⟨rfl, rfl⟩), if_neg (by rw [hline, hlast]; simp)]
    unfold putline
    change some ((), _) = _
    simp only [hready.upd, hw]
    rfl
  refine Or.inr ⟨(), _, hrun, ⟨out, rest, bs, ?_, hleft, hwove, ?_⟩, rfl, ?_⟩
  · exact ⟨hready.upd, rfl, hready.reopen, hready.chkeof, hready.chksum, hready.iop, hready.blocks,
      hready.honest, hready.keep, hready.apply, hready.maxser, hready.glnno, hready.diff⟩
  · rw [hw] at htext
    simp only [put, hready.create, if_true, List.append_nil]
    simpa using htext
  · change pkt.p_line.getLast? = some 10
    rw [hline, hlast]

/-- Something is written between two lines. -/
theorem put_ready (h : p.Ready rest bs g diff pkt) (t : Line) :
    p.Ready rest bs g diff (put pkt t) :=
  ⟨h.upd, rfl, h.reopen, h.chkeof, h.chksum, h.iop, h.blocks, h.honest, h.keep, h.apply, h.maxser,
    h.glnno, h.diff⟩

/-- The line at hand has been written already. -/
theorem putCurrent_settled (hfuel : 0 < fuel) (h : p.Settled del seen later new diff pkt) :
    ∃ pkt', putCurrent fuel pkt = some ((), pkt') ∧ p.Settled del seen later new diff pkt' := by
  obtain ⟨fuel, rfl⟩ := Nat.exists_eq_add_one_of_ne_zero (Nat.ne_zero_of_lt hfuel)
  obtain ⟨⟨out, rest, bs, hready, hleft, hwove, htext⟩, hw, hlast⟩ := h
  refine ⟨put pkt [], ?_, ⟨out, rest, bs, put_ready hready [], hleft, hwove, ?_⟩, hw, hlast⟩
  · rw [putCurrent, bind_of_some (get_some.mpr ⟨rfl, rfl⟩), if_neg (not_not.mpr hlast)]
    unfold putline
    change some ((), _) = _
    simp only [hready.upd, hw]
    rfl
  · rw [hw] at htext
    have hcstr : cstr [] = [] := rfl
    simp only [put, hready.create, if_true, hcstr, List.append_nil, hw] at htext ⊢
    exact htext

include hser in
/-- `after` reads up to a line and writes it. -/
theorem run_after (hfuel : p.body.length < fuel) {ls later : List Line}
    (hk : ls.length + 1 < fuel) :
    Run False (p.Passing del seen (ls ++ l :: later) new diff)
      (after fuel ((seen.length + ls.length + 1 : ℕ) : ℤ))
        fun _ => p.Settled del (seen ++ ls ++ [l]) later (new ++ if del then [] else ls ++ [l])
          diff := by
  unfold after
  refine run_bind (run_before hser hfuel hk) fun _ pkt hpkt => ?_
  have hg : (pkt.p_glnno : ℤ) = ((seen.length + ls.length + 1 : ℕ) : ℤ) := by
    rw [hpkt.glnno, List.length_append]
  obtain ⟨_, pkt', hrun, hpkt'⟩ := (run_putCurrent (Nat.zero_lt_of_lt hfuel)).exists hpkt
  refine Or.inr ⟨(), pkt', ?_, ?_⟩
  · rw [bind_of_some (get_some.mpr ⟨rfl, rfl⟩), doIf, if_pos hg]
    exact hrun
  · cases del with
    | false => simpa using hpkt'
    | true => simpa using hpkt'

/-- `after` where the lines have been read. -/
theorem run_after_settled (hfuel : 0 < fuel) {n : ℤ} (hn : n ≤ seen.length) :
    Run False (p.Settled del seen later new diff) (after fuel n)
      fun _ => p.Settled del seen later new diff := by
  intro pkt hpkt
  obtain ⟨pkt', hput, hpkt'⟩ := putCurrent_settled hfuel hpkt
  have hg : n ≤ pkt.p_glnno := by
    rw [hpkt.1.glnno]
    exact hn
  have hbefore : before fuel n fuel pkt = some ((), pkt) := by
    obtain ⟨fuel, rfl⟩ := Nat.exists_eq_add_one_of_ne_zero (Nat.ne_zero_of_lt hfuel)
    exact before_done hg
  unfold after
  rw [bind_of_some hbefore, bind_of_some (get_some.mpr ⟨rfl, rfl⟩), doIf]
  by_cases heq : (pkt.p_glnno : ℤ) = n
  · rw [if_pos heq]
    exact Or.inr ⟨(), pkt', hput, hpkt'⟩
  · rw [if_neg heq]
    exact Or.inr ⟨(), pkt, rfl, hpkt⟩

/-! ### New blocks -/

/-- What was read of the diff, and of a change the part that comes later. -/
def withDiff (pkt : Packet) (diff : Line × ℤ × ℤ) : Packet :=
  { pkt with Diffin := diff.1, chg_num := diff.2.1, chg_ln := diff.2.2 }

theorem Settled.withDiff (h : p.Settled del seen later new diff pkt) (diff' : Line × ℤ × ℤ) :
    p.Settled del seen later new diff' (withDiff pkt diff') := by
  obtain ⟨⟨out, rest, bs, hready, hleft, hwove, htext⟩, hw, hlast⟩ := h
  exact ⟨⟨out, rest, bs, ⟨hready.upd, hready.create, hready.reopen, hready.chkeof, hready.chksum,
    hready.iop, hready.blocks, hready.honest, hready.keep, hready.apply, hready.maxser,
    hready.glnno, rfl⟩, hleft, hwove, htext⟩, hw, hlast⟩

theorem nonblank_decimal (n : ℕ) (rest : Line) :
    NONBLANK (decimal n ++ rest) = decimal n ++ rest := by
  obtain ⟨c, ds, hds⟩ := List.exists_cons_of_ne_nil (decimal_ne_nil n)
  have hc : isDigit c = true := decimal_isDigit n c (hds ▸ List.mem_cons_self)
  have hblank : ¬ ((c == 32 || c == 9) = true) := by
    intro h
    rcases Bool.or_eq_true _ _ |>.mp h with h | h
    · rw [beq_iff_eq.mp h] at hc
      exact absurd hc (by decide)
    · rw [beq_iff_eq.mp h] at hc
      exact absurd hc (by decide)
  rw [hds, List.cons_append]
  exact List.dropWhile_cons_of_neg hblank

theorem satoi_decimal (n : ℕ) {c : UInt8} (hc : isDigit c = false) (rest : Line) :
    satoi (decimal n ++ c :: rest) = (n, c :: rest) := by
  rw [satoi, takeWhile_decimal n hc, dropWhile_decimal n hc, decValue_decimal]

theorem ctlLine_ser (iord : UInt8) (ser : ℕ) :
    (satoi (NONBLANK (ctlLine iord ser).tail.tail)).1 = ser := by
  have htail : NONBLANK (ctlLine iord ser).tail.tail = NONBLANK (decimal ser ++ [10]) := rfl
  rw [htail, nonblank_decimal, satoi_decimal ser (by decide)]

theorem item_ctlLine {m ser : ℕ} (h : 0 < ser ∧ ser ≤ m) :
    item m (ctlLine INS ser) = some (.start true ser) ∧
      item m (ctlLine DEL ser) = some (.start false ser) ∧
        item m (ctlLine END ser) = some (.stop ser) := by
  have hctl : ∀ iord, ¬ chr (ctlLine iord ser) ≠ CTLCHAR := fun _ => not_not.mpr rfl
  have hiord : ∀ iord, chr (ctlLine iord ser).tail = iord := fun _ => rfl
  refine ⟨?_, ?_, ?_⟩
  · rw [item, if_neg (hctl _), ctlLine_ser, hiord, if_neg (not_not.mpr h)]
    rfl
  · rw [item, if_neg (hctl _), ctlLine_ser, hiord, if_neg (not_not.mpr h)]
    rfl
  · rw [item, if_neg (hctl _), ctlLine_ser, hiord, if_neg (not_not.mpr h)]
    rfl

theorem keptLines_own (s : ℕ) (keep : Bool) (iord : UInt8) (rest : List Line) :
    keptLines s keep (ctlLine iord s :: rest) = keptLines s (iord ≠ INS) rest := by
  have hctl : chr (ctlLine iord s) = CTLCHAR := rfl
  rw [keptLines, if_pos hctl, ctlLine_ser, if_pos rfl]
  rfl

/-- A line that only closes, or only deletes, is not kept. -/
theorem Kept.own {s : ℕ} {pre : List Line} (h : Kept s out pre) {iord : UInt8} (hi : iord ≠ INS) :
    Kept s (out ++ [ctlLine iord s]) pre := by
  intro rest
  rw [List.append_assoc, h, List.singleton_append, keptLines_own, decide_eq_true hi]

theorem keptLines_skip {s : ℕ} {ls : List Line} (hls : ∀ l ∈ ls, chr l ≠ CTLCHAR)
    (rest : List Line) : keptLines s false (ls ++ rest) = keptLines s false rest := by
  induction ls with
  | nil => rfl
  | cons l ls ih =>
    obtain ⟨hl, hls⟩ := List.forall_mem_cons.mp hls
    rw [List.cons_append, keptLines, if_neg hl, if_neg Bool.false_ne_true, ih hls]

/-- Neither is what is inserted. -/
theorem Kept.insert {s : ℕ} {pre ls : List Line} (h : Kept s out pre)
    (hls : ∀ l ∈ ls, chr l ≠ CTLCHAR) :
    Kept s (out ++ (ctlLine INS s :: (ls ++ [ctlLine END s]))) pre := by
  intro rest
  rw [List.append_assoc, h, List.cons_append, keptLines_own, decide_eq_false (not_not.mpr rfl),
    List.append_assoc, keptLines_skip hls, List.singleton_append, keptLines_own,
    decide_eq_true (by decide)]

theorem not_mem_ctlLine {iord : UInt8} (h : iord ≠ 0) (ser : ℕ) : 0 ∉ ctlLine iord ser := by
  intro hmem
  rcases List.mem_append.mp hmem with hmem | hmem
  · rcases List.mem_append.mp hmem with hmem | hmem
    · rcases List.mem_cons.mp hmem with hmem | hmem
      · exact absurd hmem (by decide)
      · rcases List.mem_cons.mp hmem with hmem | hmem
        · exact h hmem.symm
        · exact absurd hmem (by decide)
    · exact absurd (decimal_isDigit ser 0 hmem) (by decide)
  · exact absurd hmem (by decide)

theorem ended_ctlLine {iord : UInt8} (h : iord ≠ 10) (ser : ℕ) : Ended (ctlLine iord ser) := by
  refine ⟨[CTLCHAR, iord, 32] ++ decimal ser, fun hmem => ?_, rfl⟩
  rcases List.mem_append.mp hmem with hmem | hmem
  · rcases List.mem_cons.mp hmem with hmem | hmem
    · exact absurd hmem (by decide)
    · rcases List.mem_cons.mp hmem with hmem | hmem
      · exact h hmem.symm
      · exact absurd hmem (by decide)
  · exact absurd (decimal_isDigit ser 10 hmem) (by decide)

theorem putline_some (hupd : pkt.p_upd = true) (t : Line) :
    putline (some t) pkt = some ((), put pkt t) := by
  unfold putline
  change some ((), _) = _
  simp only [hupd]
  rfl

include hser in
/-- A block that deletes is opened before the line at hand. -/
theorem run_putDel : Run False (p.Pending false seen l later new diff)
    (putline (some (ctlLine DEL p.newser))) fun _ => p.Pending true seen l later new diff := by
  rintro pkt ⟨out, rest, bs, hready, hleft,
    ⟨hout, pre, is, js, hbody, his, hjs, hwoven, hkept⟩, hvis, hctl, hline, hw, hX, hl0, hended⟩
  have hitem := (item_ctlLine ⟨Nat.zero_lt_of_lt hser, le_refl p.newser⟩).2.1
  have hctl0 : 0 ∉ ctlLine DEL p.newser := not_mem_ctlLine (by decide) p.newser
  have hout' := forall_concat hout ⟨ended_ctlLine (show DEL ≠ 10 by decide) p.newser, hctl0⟩
  refine Or.inr ⟨(), _, putline_some hready.upd _, out ++ [ctlLine DEL p.newser], rest, bs,
    put_ready hready _, hleft,
    ⟨hout', pre, is, _, hbody, his, mapM_concat hjs hitem, hwoven.delete,
      hkept.own (by decide)⟩, hvis, hctl, hline, hw, ?_, hl0, hended⟩
  simp only [put, hready.create, if_true, hX, cstr_eq_self hctl0,
    List.flatten_append, List.append_assoc, List.flatten_cons, List.flatten_nil, List.append_nil]

include hser in
/-- It is closed after the line before. -/
theorem run_putEnd : Run False (p.Settled true seen later new diff)
    (putline (some (ctlLine END p.newser))) fun _ => p.Settled false seen later new diff := by
  rintro pkt ⟨⟨out, rest, bs, hready, hleft, ⟨hout, pre, is, js, hbody, his, hjs, hwoven, hkept⟩,
    htext⟩, hw, hlast⟩
  have hitem := (item_ctlLine ⟨Nat.zero_lt_of_lt hser, le_refl p.newser⟩).2.2
  have hctl0 : 0 ∉ ctlLine END p.newser := not_mem_ctlLine (by decide) p.newser
  have hout' := forall_concat hout ⟨ended_ctlLine (show END ≠ 10 by decide) p.newser, hctl0⟩
  refine Or.inr ⟨(), _, putline_some hready.upd _, ⟨out ++ [ctlLine END p.newser], rest, bs,
    put_ready hready _, hleft,
    ⟨hout', pre, is, _, hbody, his, mapM_concat hjs hitem, hwoven.deleted,
      hkept.own (by decide)⟩, ?_⟩, hw, hlast⟩
  rw [hw] at htext
  simp only [if_true, List.append_nil] at htext
  simp only [put, hready.create, if_true, htext, hw,
    cstr_eq_self hctl0, List.flatten_append, List.append_assoc,
    List.flatten_cons, List.flatten_nil, List.append_nil]

include hser in
/-- `delete` puts the lines `l :: ls` into a block. -/
theorem run_delete (hfuel : p.body.length < fuel) {cs ls later : List Line}
    (hcs : cs.length + 1 < fuel) (hls : ls.length < fuel) :
    Run False (p.Passing false seen (cs ++ (l :: ls) ++ later) new diff)
      (delete fuel ((seen.length + cs.length + 1 : ℕ) : ℤ) ((l :: ls).length : ℤ) p.newser)
        fun _ => p.Settled false (seen ++ cs ++ (l :: ls)) later (new ++ cs) diff := by
  have hassoc : cs ++ (l :: ls) ++ later = cs ++ l :: (ls ++ later) := by simp
  rw [hassoc]
  unfold delete
  refine run_bind (run_before hser hfuel hcs) fun _ => run_bind (run_putDel hser) fun _ => ?_
  refine run_bind (Q := fun _ => p.Settled true (seen ++ cs ++ (l :: ls)) later (new ++ cs) diff) ?_
    fun _ => run_putEnd hser
  rcases List.eq_nil_or_concat' ls with rfl | ⟨ls, l', rfl⟩
  · -- the line at hand is the last one
    intro pkt hpkt
    have hg : (pkt.p_glnno : ℤ) =
        ((seen.length + cs.length + 1 : ℕ) : ℤ) + (([l] : List Line).length : ℤ) - 1 := by
      rw [hpkt.glnno, List.length_append, List.length_singleton]
      omega
    obtain ⟨_, pkt', hput, hpkt'⟩ := (run_putCurrent (Nat.zero_lt_of_lt hfuel)).exists hpkt
    refine Or.inr ⟨(), pkt', ?_, by simpa using hpkt'⟩
    have hbefore : before fuel (((seen.length + cs.length + 1 : ℕ) : ℤ) +
        (([l] : List Line).length : ℤ) - 1) fuel pkt = some ((), pkt) := by
      obtain ⟨fuel, rfl⟩ := Nat.exists_eq_add_one_of_ne_zero (Nat.ne_zero_of_lt hfuel)
      exact before_done hg.symm.le
    unfold after
    rw [bind_of_some hbefore, bind_of_some (get_some.mpr ⟨rfl, rfl⟩), doIf, if_pos hg]
    exact hput
  · have hn : ((seen.length + cs.length + 1 : ℕ) : ℤ) + ((l :: (ls ++ [l'])).length : ℤ) - 1 =
        (((seen ++ cs ++ [l]).length + ls.length + 1 : ℕ) : ℤ) := by
      simp only [List.length_append, List.length_cons, List.length_nil]
      omega
    rw [hn]
    have hlen : ls.length + 1 < fuel := by
      rw [List.length_append, List.length_singleton] at hls
      exact hls
    have hafter : Run False
        (p.Passing true (seen ++ cs ++ [l]) (ls ++ l' :: later) (new ++ cs) diff) _ _ :=
      run_after hser hfuel hlen
    refine run_mono hafter (fun pkt hpkt => ?_) fun _ pkt hpkt => ?_
    · simpa using hpkt.passing
    · simpa using hpkt

/-! ### The lines of the diff -/

theorem fgets_newline (n : ℕ) {text : Line} (h : 10 ∉ text) (rest : Line) :
    fgets n (text ++ 10 :: rest) =
      if text.length < n then (text ++ [10], rest)
      else (text.take n, text.drop n ++ 10 :: rest) := by
  induction n generalizing text with
  | zero => rfl
  | succ n ih =>
    cases text with
    | nil => rfl
    | cons c text =>
      have hc : c ≠ 10 := fun hc => h (hc ▸ List.mem_cons_self)
      rw [List.cons_append, fgets, if_neg hc, ih fun hmem => h (List.mem_cons_of_mem c hmem)]
      by_cases hlen : text.length < n
      · rw [if_pos hlen, if_pos (show (c :: text).length < n + 1 from Nat.succ_lt_succ hlen)]
        rfl
      · have hlen' : ¬ (c :: text).length < n + 1 := mt Nat.lt_of_succ_lt_succ hlen
        rw [if_neg hlen, if_neg hlen']
        rfl

/-- A line of the diff is read, or as much of it as there is room for. -/
theorem rddiff_eq {text rest : Line} (h : 10 ∉ text) (h0 : 0 ∉ text)
    (hdiff : pkt.Diffin = text ++ 10 :: rest) :
    rddiff pkt =
      if text.length < BUFSIZ - 1 then some (some (text ++ [10]), { pkt with Diffin := rest })
      else some (some (text.take (BUFSIZ - 1)),
        { pkt with Diffin := text.drop (BUFSIZ - 1) ++ 10 :: rest }) := by
  have hne : pkt.Diffin ≠ [] := by
    rw [hdiff]
    exact List.append_ne_nil_of_right_ne_nil _ (List.cons_ne_nil _ _)
  have hline := fgets_newline (BUFSIZ - 1) h rest
  rw [← hdiff] at hline
  rw [rddiff, bind_of_some (get_some.mpr ⟨rfl, rfl⟩), if_neg hne, hline]
  have htext : 0 ∉ text ++ [10] := fun hmem =>
    (List.mem_append.mp hmem).elim h0 (by decide)
  split_ifs
  · change some (some (cstr (text ++ [10])), _) = _
    rw [cstr_eq_self htext]
  · change some (some (cstr (text.take (BUFSIZ - 1))), _) = _
    rw [cstr_eq_self fun hmem => h0 (List.mem_of_mem_take hmem)]

theorem rddiff_nil (hdiff : pkt.Diffin = []) : rddiff pkt = some (none, pkt) := by
  rw [rddiff, bind_of_some (get_some.mpr ⟨rfl, rfl⟩), if_pos hdiff]
  rfl

theorem getLast_ne {text : Line} (h : 10 ∉ text) (n : ℕ) : (text.take n).getLast? ≠ some 10 :=
  fun hlast => h (List.mem_of_mem_take (List.mem_of_getLast? hlast))

theorem length_drop_lt {text : Line} (h : ¬ text.length < BUFSIZ - 1)
    (hfuel : text.length < fuel + 1) : (text.drop (BUFSIZ - 1)).length < fuel := by
  rw [List.length_drop]
  have hpos : 0 < BUFSIZ - 1 := by decide
  omega

theorem skipText_eq {text rest : Line} (h : 10 ∉ text) (h0 : 0 ∉ text) (hfuel : text.length < fuel)
    (hdiff : pkt.Diffin = text ++ 10 :: rest) :
    skipText fuel pkt = some ((), { pkt with Diffin := rest }) := by
  induction fuel generalizing text pkt with
  | zero => exact absurd hfuel (Nat.not_lt_zero _)
  | succ fuel ih =>
    have hread := rddiff_eq h h0 hdiff
    split_ifs at hread with hlen
    · rw [skipText, bind_of_some hread]
      dsimp only
      rw [List.getLast?_concat]
      rfl
    · rw [skipText, bind_of_some hread]
      dsimp only
      rw [doIf, if_pos (getLast_ne h _)]
      exact ih (fun hmem => h (List.mem_of_mem_drop hmem))
        (fun hmem => h0 (List.mem_of_mem_drop hmem)) (length_drop_lt hlen hfuel) rfl

/-- Lines with a mark before each. -/
def marked (c : UInt8) (ls : List Line) : Line := ls.flatMap fun l => c :: 32 :: l

theorem skipline_eq {c : UInt8} (hc : c ≠ 10 ∧ c ≠ 0) {ls : List Line} {rest : Line}
    (hls : ∀ l ∈ ls, Ended l ∧ 0 ∉ l) (hfuel : (marked c ls).length < fuel)
    (hdiff : pkt.Diffin = marked c ls ++ rest) :
    skipline fuel ls.length pkt = some ((), { pkt with Diffin := rest }) := by
  induction ls generalizing pkt with
  | nil =>
    have hrest : pkt.Diffin = rest := hdiff
    rw [← hrest]
    rfl
  | cons l ls ih =>
    obtain ⟨⟨⟨text, htext, rfl⟩, hl0⟩, hls'⟩ := List.forall_mem_cons.mp hls
    have hcons : marked c ((text ++ [10]) :: ls) = c :: 32 :: text ++ 10 :: marked c ls := by
      simp [marked]
    rw [hcons] at hfuel hdiff
    rw [List.append_assoc, List.cons_append (a := 10)] at hdiff
    rw [List.length_append, List.length_cons (a := 10)] at hfuel
    have h10 : 10 ∉ c :: 32 :: text := by
      simp only [List.mem_cons, not_or]
      exact ⟨hc.1.symm, by decide, htext⟩
    have h0 : 0 ∉ c :: 32 :: text := by
      simp only [List.mem_append, not_or] at hl0
      simp only [List.mem_cons, not_or]
      exact ⟨hc.2.symm, by decide, hl0.1⟩
    rw [List.length_cons, skipline, bind_of_some (skipText_eq h10 h0 (by omega) hdiff)]
    exact ih hls' (by omega) rfl

/-- Strings are written one after the other. -/
theorem put_put (hcreate : pkt.Xcreate = true) {a b : Line} (ha : 0 ∉ a) (hb : 0 ∉ b) :
    put (put pkt a) b = put pkt (a ++ b) := by
  have hab : 0 ∉ a ++ b := fun hmem => (List.mem_append.mp hmem).elim ha hb
  simp only [put, hcreate, if_true, cstr_eq_self ha, cstr_eq_self hb, cstr_eq_self hab,
    charSum_append, List.append_assoc, add_assoc]

theorem put_nil (hcreate : pkt.Xcreate = true) : put pkt [] = pkt := by
  have hcstr : cstr [] = [] := rfl
  have hsum : charSum [] = 0 := rfl
  simp only [put, hcreate, if_true, hcstr, hsum, List.append_nil, add_zero]
  rw [← hcreate]

theorem insertText_next {first : Bool} {str : Line} {pkt' : Packet}
    (hread : rddiff pkt = some (some str, pkt')) (hupd : pkt'.p_upd = true) :
    insertText first (fuel + 1) pkt =
      (doIf (str.getLast? ≠ some 10) (insertText false fuel) : M Unit)
        (put pkt' (if first then str.drop 2 else str)) := by
  rw [insertText, bind_of_some hread]
  exact bind_of_some (putline_some hupd _) _

/-- An inserted line is written without its mark. -/
theorem insertText_eq {first : Bool} {text rest : Line} (h : 10 ∉ text) (h0 : 0 ∉ text)
    (hfuel : text.length + 2 < fuel) (hupd : pkt.p_upd = true) (hcreate : pkt.Xcreate = true)
    (hdiff : pkt.Diffin = (if first then [62, 32] else []) ++ text ++ 10 :: rest) :
    insertText first fuel pkt = some ((), put { pkt with Diffin := rest } (text ++ [10])) := by
  induction fuel generalizing first text pkt with
  | zero => exact absurd hfuel (Nat.not_lt_zero _)
  | succ fuel ih =>
    have hmark : ∀ c : UInt8, c ≠ 62 → c ≠ 32 → c ∉ text →
        c ∉ (if first then [62, 32] else []) ++ text := by
      intro c h1 h2 hc hmem
      rcases List.mem_append.mp hmem with hmem | hmem
      · cases first with
        | false => exact absurd hmem List.not_mem_nil
        | true => simp [h1, h2] at hmem
      · exact hc hmem
    have h10' := hmark 10 (by decide) (by decide) h
    have h0' := hmark 0 (by decide) (by decide) h0
    have hread := rddiff_eq h10' h0' hdiff
    have hdrop : (if first then ((if first then [62, 32] else []) ++ text ++ [10]).drop 2
        else (if first then [62, 32] else []) ++ text ++ [10]) = text ++ [10] := by
      cases first <;> rfl
    by_cases hlen : ((if first then [62, 32] else []) ++ text).length < BUFSIZ - 1
    · rw [if_pos hlen] at hread
      rw [insertText_next hread hupd, hdrop, doIf, if_neg (by simp)]
      rfl
    · -- the line is longer than the buffer
      have htake : (if first then
          (((if first then [62, 32] else []) ++ text).take (BUFSIZ - 1)).drop 2
          else ((if first then [62, 32] else []) ++ text).take (BUFSIZ - 1)) =
          text.take (BUFSIZ - 1 - if first then 2 else 0) := by
        cases first <;> rfl
      have hrest : ((if first then [62, 32] else []) ++ text).drop (BUFSIZ - 1) =
          text.drop (BUFSIZ - 1 - if first then 2 else 0) := by
        cases first <;> rfl
      rw [if_neg hlen, hrest] at hread
      rw [insertText_next hread hupd, htake, doIf, if_pos (getLast_ne h10' _)]
      have hlt : (text.drop (BUFSIZ - 1 - if first then 2 else 0)).length + 2 < fuel := by
        rw [List.length_drop]
        rw [List.length_append] at hlen
        have hbuf : BUFSIZ - 1 = 8191 := rfl
        cases first with
        | false =>
          simp only [Bool.false_eq_true, if_false, List.length_nil] at hlen ⊢
          omega
        | true =>
          simp only [if_true, List.length_cons, List.length_nil] at hlen ⊢
          omega
      generalize hn : BUFSIZ - 1 - (if first then 2 else 0) = n at hlt ⊢
      have ih := @ih { put { pkt with Diffin := text.drop n ++ 10 :: rest } (text.take n) with
          Diffin := text.drop n ++ 10 :: rest } false (text.drop n)
        (fun hmem => h (List.mem_of_mem_drop hmem)) (fun hmem => h0 (List.mem_of_mem_drop hmem)) hlt
        hupd rfl rfl
      refine ih.trans ?_
      have htext : 0 ∉ text.drop n ++ [10] := fun hmem =>
        (List.mem_append.mp hmem).elim (fun hmem => h0 (List.mem_of_mem_drop hmem)) (by decide)
      have hput := @put_put { pkt with Diffin := rest } hcreate (text.take n) (text.drop n ++ [10])
        (fun hmem => h0 (List.mem_of_mem_take hmem)) htext
      rw [← List.append_assoc, List.take_append_drop] at hput
      rw [← hput]
      rfl

theorem insertTexts_eq {ls : List Line} {rest : Line} (hls : ∀ l ∈ ls, Ended l ∧ 0 ∉ l)
    (hfuel : (marked 62 ls).length < fuel) (hupd : pkt.p_upd = true) (hcreate : pkt.Xcreate = true)
    (hdiff : pkt.Diffin = marked 62 ls ++ rest) :
    insertTexts fuel ls.length pkt = some ((), put { pkt with Diffin := rest } ls.flatten) := by
  induction ls generalizing pkt with
  | nil =>
    have hrest : pkt.Diffin = rest := hdiff
    have hnil := @put_nil { pkt with Diffin := rest } hcreate
    rw [← hrest] at hnil ⊢
    rw [List.flatten_nil, hnil]
    rfl
  | cons l ls ih =>
    obtain ⟨⟨⟨text, htext, rfl⟩, hl0⟩, hls'⟩ := List.forall_mem_cons.mp hls
    have hcons : marked 62 ((text ++ [10]) :: ls) = [62, 32] ++ text ++ 10 :: marked 62 ls := by
      simp [marked]
    rw [hcons] at hfuel hdiff
    have h0 : 0 ∉ text := fun hmem => hl0 (List.mem_append_left _ hmem)
    have hlen : text.length + 2 < fuel ∧ (marked 62 ls).length < fuel := by
      simp only [List.length_append, List.length_cons, List.length_nil] at hfuel
      omega
    have hrun := @insertText_eq pkt fuel true text (marked 62 ls ++ rest) htext h0 hlen.1 hupd
      hcreate (by rw [hdiff]; simp)
    rw [List.length_cons, insertTexts, bind_of_some hrun]
    have ih := @ih (put { pkt with Diffin := marked 62 ls ++ rest } (text ++ [10])) hls' hlen.2 hupd
      rfl rfl
    refine ih.trans ?_
    have hflat : 0 ∉ ls.flatten := by
      intro hmem
      obtain ⟨l, hl, hmem⟩ := List.mem_flatten.mp hmem
      exact (hls' l hl).2 hmem
    have hput := @put_put { pkt with Diffin := rest } hcreate _ _ hl0 hflat
    rw [List.flatten_cons, ← hput]
    rfl

include hser in
/-- `insert` puts the lines `ls` into a block where the pass is. -/
theorem run_insert {ls : List Line} {n : ℤ} {rest : Line} {num ln : ℤ}
    (hls : ∀ l ∈ ls, Ended l ∧ 0 ∉ l) (htext : ∀ l ∈ ls, chr l ≠ CTLCHAR)
    (hlen : (marked 62 ls).length < fuel) {P : Packet → Prop}
    (hafter : Run False P (after fuel n)
      fun _ => p.Settled false seen later new (marked 62 ls ++ rest, num, ln)) :
    Run False P (insert fuel n ls.length p.newser)
      fun _ => p.Settled false seen later (new ++ ls) (rest, num, ln) := by
  unfold insert
  refine run_bind hafter fun _ => ?_
  rintro pkt ⟨⟨out, left, bs, hready, hleft, ⟨hout, pre, is, js, hbody, his, hjs, hwoven, hkept⟩,
    hX⟩, hw, hlast⟩
  have hpos := Nat.zero_lt_of_lt hser
  obtain ⟨hins, -, hend⟩ := item_ctlLine ⟨hpos, le_refl p.newser⟩
  have h0 : ∀ {iord : UInt8}, iord ≠ 0 → cstr (ctlLine iord p.newser) = ctlLine iord p.newser :=
    fun h => cstr_eq_self (not_mem_ctlLine h p.newser)
  have hdiff : pkt.Diffin = marked 62 ls ++ rest := congrArg Prod.fst hready.diff
  have hrest : (pkt.chg_num, pkt.chg_ln) = (num, ln) := congrArg Prod.snd hready.diff
  have hready₁ := put_ready hready (ctlLine INS p.newser)
  have hrun := insertTexts_eq hls hlen hready₁.upd hready₁.create hdiff
  generalize hpkt₂ : put { put pkt (ctlLine INS p.newser) with Diffin := rest } ls.flatten = pkt₂
    at hrun
  have hmid : p.Ready left bs seen.length (rest, num, ln)
      { put pkt (ctlLine INS p.newser) with Diffin := rest } :=
    ⟨hready.upd, rfl, hready.reopen, hready.chkeof, hready.chksum, hready.iop, hready.blocks,
      hready.honest, hready.keep, hready.apply, hready.maxser, hready.glnno,
      congrArg (Prod.mk rest) hrest⟩
  have hready₂ : p.Ready left bs seen.length (rest, num, ln) pkt₂ := hpkt₂ ▸ put_ready hmid _
  have hout' : ∀ l ∈ out ++ (ctlLine INS p.newser :: (ls ++ [ctlLine END p.newser])),
      Ended l ∧ 0 ∉ l :=
    List.forall_mem_append.mpr ⟨hout, List.forall_mem_cons.mpr
      ⟨⟨ended_ctlLine (by decide) _, not_mem_ctlLine (by decide) _⟩,
        forall_concat hls ⟨ended_ctlLine (by decide) _, not_mem_ctlLine (by decide) _⟩⟩⟩
  refine Or.inr ⟨(), put pkt₂ (ctlLine END p.newser), ?_, ⟨out ++ (ctlLine INS p.newser ::
    (ls ++ [ctlLine END p.newser])), left, bs, put_ready hready₂ _, hleft,
      ⟨hout', pre, is, _, hbody, his, ?_, hwoven.insert ls, hkept.insert htext⟩, ?_⟩, ?_, ?_⟩
  · rw [bind_of_some (putline_some hready.upd _), bind_of_some (fatalIf_some.mpr ⟨by omega, rfl⟩),
      Int.toNat_natCast, bind_of_some hrun]
    exact putline_some hready₂.upd _
  · rw [List.mapM_append, hjs]
    simp [hins, mapM_text htext, hend]
  · have hflat : 0 ∉ ls.flatten := by
      intro hmem
      obtain ⟨l, hl, hmem⟩ := List.mem_flatten.mp hmem
      exact (hls l hl).2 hmem
    rw [hw] at hX
    rw [← hpkt₂]
    have hins0 := h0 (show INS ≠ 0 by decide)
    have hend0 := h0 (show END ≠ 0 by decide)
    simp only [if_true, List.append_nil] at hX
    simp only [put, hready.create, if_true, hw, hX, hins0, hend0, cstr_eq_self hflat,
      List.append_nil, List.flatten_append, List.flatten_cons, List.flatten_nil, List.append_assoc]
  · rw [← hpkt₂]
    exact hw
  · rw [← hpkt₂]
    exact hlast

end Pass

/-! ### The diff -/

open Sdiff (rangeText lo rangeText_head)

/-- A part of what `bdiff` prints: the lines before it that stay, the ones that go and the ones that
come, after `place` lines of the new file. -/
structure Edit where
  common : List Line
  old : List Line
  new : List Line
  place : ℕ

namespace Edit

def com (e : Edit) : UInt8 := if e.old = [] then 97 else if e.new = [] then 100 else 99

/-- The first line, after `a` lines of the old file. -/
def header (e : Edit) (a : ℕ) : Line :=
  rangeText a e.old.length ++ e.com :: (rangeText e.place e.new.length ++ [10])

def text (e : Edit) (a : ℕ) : Line :=
  e.header a ++ Pass.marked 60 e.old ++ (if e.com = 99 then [45, 45, 45, 10] else []) ++
    Pass.marked 62 e.new

/-- It changes something, its numbers are of type `int`, and its lines are lines of text files. -/
structure Ok (e : Edit) : Prop where
  change : e.old ≠ [] ∨ e.new ≠ []
  place : e.place + e.new.length < 2 ^ 31
  old : ∀ l ∈ e.old, Ended l ∧ 0 ∉ l
  new : ∀ l ∈ e.new, Ended l ∧ 0 ∉ l
  ctl : ∀ l ∈ e.new, chr l ≠ CTLCHAR

end Edit

/-- What `bdiff` prints. -/
def diffText : ℕ → List Edit → Line
  | _, [] => []
  | k, e :: es =>
    e.text (k + e.common.length) ++ diffText (k + e.common.length + e.old.length) es

def oldLines (es : List Edit) : List Line := es.flatMap fun e => e.common ++ e.old

def newLines (es : List Edit) : List Line := es.flatMap fun e => e.common ++ e.new

/-- How many lines go. -/
def oldCount (es : List Edit) : ℤ := (es.map fun e => (e.old.length : ℤ)).sum

def newCount (es : List Edit) : ℤ := (es.map fun e => (e.new.length : ℤ)).sum

theorem linerange_rangeText (a n : ℕ) {c : UInt8} (hc : isDigit c = false) (h44 : c ≠ 44)
    (rest : Line) :
    linerange (rangeText a n ++ c :: rest) = ((lo a n : ℤ), ((a + n : ℕ) : ℤ), c :: rest) := by
  have hone (m : ℕ) : linerange (decimal m ++ c :: rest) = ((m : ℤ), (m : ℤ), c :: rest) := by
    unfold linerange
    rw [Pass.satoi_decimal m hc]
    exact if_neg h44
  unfold rangeText lo
  split_ifs with h0 h1
  · rw [hone, h0, Nat.add_zero]
  · rw [hone, h1]
  · unfold linerange
    rw [List.append_assoc, List.cons_append, Pass.satoi_decimal _ (by decide)]
    dsimp only
    rw [if_pos (show chr (44 :: (decimal (a + n) ++ c :: rest)) = 44 from rfl), List.tail_cons,
      Pass.satoi_decimal _ hc]

theorem length_rangeText {a n : ℕ} (h : a + n < 2 ^ 31) : (rangeText a n).length ≤ 21 := by
  have hdec : ∀ {m : ℕ}, m ≤ a + n → (decimal m).length ≤ 10 := fun hm =>
    length_decimal_le (by decide) (by omega)
  unfold rangeText
  split_ifs with h0 h1
  · exact (hdec (by omega)).trans (by decide)
  · exact (hdec (by omega)).trans (by decide)
  · rw [List.length_append, List.length_cons]
    have h2 := hdec (show a + 1 ≤ a + n by omega)
    have h3 := hdec (le_refl (a + n))
    omega

theorem not_mem_rangeText {c : UInt8} (hc : isDigit c = false) (h44 : c ≠ 44) (a n : ℕ) :
    c ∉ rangeText a n := by
  have hdec : ∀ m, c ∉ decimal m := fun m h => by simp [decimal_isDigit m c h] at hc
  unfold rangeText
  split_ifs
  · exact hdec a
  · exact hdec (a + 1)
  · intro hmem
    rcases List.mem_append.mp hmem with hmem | hmem
    · exact hdec _ hmem
    · exact hdec _ (List.mem_of_ne_of_mem h44 hmem)

namespace Edit

variable {e : Edit}

theorem com_cases (e : Edit) : e.com = 97 ∨ e.com = 100 ∨ e.com = 99 := by
  unfold com
  split_ifs
  · exact Or.inl rfl
  · exact Or.inr (Or.inl rfl)
  · exact Or.inr (Or.inr rfl)

/-- What `getdiff` finds in the first line. -/
theorem header_eq (e : Edit) (a : ℕ) : linerange (e.header a) =
      ((lo a e.old.length : ℤ), ((a + e.old.length : ℕ) : ℤ),
        e.com :: (rangeText e.place e.new.length ++ [10])) ∧
    linerange (rangeText e.place e.new.length ++ [10]) =
      ((lo e.place e.new.length : ℤ), ((e.place + e.new.length : ℕ) : ℤ), [10]) := by
  refine ⟨linerange_rangeText a _ ?_ ?_ _, linerange_rangeText _ _ (by decide) (by decide) []⟩
  · rcases e.com_cases with h | h | h <;> rw [h] <;> decide
  · rcases e.com_cases with h | h | h <;> rw [h] <;> decide

/-- The first line is read whole. -/
theorem rddiff_header (he : e.Ok) {a : ℕ} (ha : a + e.old.length < 2 ^ 31) {pkt : Packet}
    {rest : Line} (hdiff : pkt.Diffin = e.header a ++ rest) :
    rddiff pkt = some (some (e.header a), { pkt with Diffin := rest }) := by
  have hnot : ∀ {c : UInt8}, isDigit c = false → c ≠ 44 → c ≠ 97 → c ≠ 100 → c ≠ 99 →
      c ∉ rangeText a e.old.length ++ e.com :: rangeText e.place e.new.length := by
    intro c h1 h2 h3 h4 h5 hmem
    rcases List.mem_append.mp hmem with hmem | hmem
    · exact not_mem_rangeText h1 h2 _ _ hmem
    · rcases List.mem_cons.mp hmem with hmem | hmem
      · rcases e.com_cases with h | h | h
        · exact h3 (hmem.trans h)
        · exact h4 (hmem.trans h)
        · exact h5 (hmem.trans h)
      · exact not_mem_rangeText h1 h2 _ _ hmem
  have hheader : e.header a =
      (rangeText a e.old.length ++ e.com :: rangeText e.place e.new.length) ++ [10] := by
    rw [header, List.append_assoc, List.cons_append]
  have hread := @Pass.rddiff_eq pkt _ rest
    (hnot (show isDigit 10 = false by decide) (by decide) (by decide) (by decide) (by decide))
    (hnot (show isDigit 0 = false by decide) (by decide) (by decide) (by decide) (by decide))
    (by rw [hdiff, hheader, List.append_assoc]; rfl)
  rw [if_pos, ← hheader] at hread
  · exact hread
  · have h1 := length_rangeText ha
    have h2 := length_rangeText he.place
    rw [List.length_append, List.length_cons]
    have hbuf : BUFSIZ - 1 = 8191 := rfl
    omega

/-- The number of lines of a part that has some. -/
theorem lo_sub {a n : ℕ} (h : n ≠ 0) : ((a + n : ℕ) : ℤ) - (lo a n : ℤ) + 1 = n := by
  rw [lo, if_neg h]
  omega

/-! ### The parts of the diff -/

variable {fuel : ℕ} {a : ℕ} {pkt : Packet} {rest : Line}

/-- `getdiff` at the first line of a part. -/
theorem getdiff_header (he : e.Ok) (ha : a + e.old.length < 2 ^ 31)
    (hdiff : pkt.Diffin = e.header a ++ rest) :
    getdiff fuel pkt = (if e.com = 100 then do
        skiplines fuel (((a + e.old.length : ℕ) : ℤ) - (lo a e.old.length : ℤ) + 1)
        return ⟨DEL, lo a e.old.length, ((a + e.old.length : ℕ) : ℤ) - (lo a e.old.length : ℤ) + 1⟩
      else if e.com = 97 then return ⟨INS, lo a e.old.length,
        ((e.place + e.new.length : ℕ) : ℤ) - (lo e.place e.new.length : ℤ) + 1⟩
      else if e.com = 99 then do
        modify fun pkt => { pkt with
          chg_ln := lo a e.old.length
          chg_num := ((e.place + e.new.length : ℕ) : ℤ) - (lo e.place e.new.length : ℤ) + 1 }
        skiplines fuel (((a + e.old.length : ℕ) : ℤ) - (lo a e.old.length : ℤ) + 1)
        return ⟨DEL, lo a e.old.length, ((a + e.old.length : ℕ) : ℤ) - (lo a e.old.length : ℤ) + 1⟩
      else return ⟨0, lo a e.old.length, 0⟩ : M Diff) { pkt with Diffin := rest } := by
  have hdigit : chr (e.header a) ≠ 45 := by
    obtain ⟨c, ds, hds, hc⟩ := rangeText_head a e.old.length
    rw [header, hds]
    change c ≠ 45
    rintro rfl
    exact absurd hc (by decide)
  obtain ⟨h1, h2⟩ := e.header_eq a
  rw [getdiff, bind_of_some (rddiff_header he ha hdiff)]
  dsimp only
  rw [if_neg hdigit, h1]
  dsimp only [List.tail_cons]
  rw [h2]
  rfl

theorem skiplines_eq {ls : List Line} (hls : ∀ l ∈ ls, Ended l ∧ 0 ∉ l)
    (hfuel : (Pass.marked 60 ls).length < fuel) (hdiff : pkt.Diffin = Pass.marked 60 ls ++ rest) :
    skiplines fuel ls.length pkt = some ((), { pkt with Diffin := rest }) := by
  rw [skiplines, if_neg (by omega), Int.toNat_natCast]
  exact Pass.skipline_eq (by decide) hls hfuel hdiff

/-- Lines are deleted, and maybe some inserted afterwards. -/
theorem getdiff_old (he : e.Ok) (hold : e.old ≠ []) (ha : a + e.old.length < 2 ^ 31)
    (hfuel : (Pass.marked 60 e.old).length < fuel)
    (hdiff : pkt.Diffin = e.header a ++ Pass.marked 60 e.old ++ rest) :
    getdiff fuel pkt = some (⟨DEL, ((a + 1 : ℕ) : ℤ), e.old.length⟩,
      Pass.withDiff pkt (rest, if e.new = [] then (pkt.chg_num, pkt.chg_ln) else
        ((e.new.length : ℤ), ((a + 1 : ℕ) : ℤ)))) := by
  rw [List.append_assoc] at hdiff
  have hlen : e.old.length ≠ 0 := mt List.length_eq_zero_iff.mp hold
  have hlo : (lo a e.old.length : ℤ) = ((a + 1 : ℕ) : ℤ) := by rw [lo, if_neg hlen]
  rw [getdiff_header he ha hdiff, lo_sub hlen, hlo]
  have hcom : e.com = if e.new = [] then 100 else 99 := by rw [com, if_neg hold]
  by_cases hnew : e.new = []
  · have h100 : e.com = 100 := by rw [hcom, if_pos hnew]
    rw [if_pos h100, bind_of_some (skiplines_eq he.old hfuel rfl), if_pos hnew]
    rfl
  · have h99 : e.com = 99 := by rw [hcom, if_neg hnew]
    rw [if_neg (by rw [h99]; decide), if_neg (by rw [h99]; decide), if_pos h99,
      bind_of_some (modify_some.mpr rfl), bind_of_some (skiplines_eq he.old hfuel rfl), if_neg hnew,
      lo_sub (mt List.length_eq_zero_iff.mp hnew)]
    rfl

/-- Lines are only inserted. -/
theorem getdiff_new (he : e.Ok) (hold : e.old = []) (ha : a < 2 ^ 31)
    (hdiff : pkt.Diffin = e.header a ++ rest) :
    getdiff fuel pkt = some (⟨INS, (a : ℤ), e.new.length⟩,
      Pass.withDiff pkt (rest, pkt.chg_num, pkt.chg_ln)) := by
  have hnew : e.new ≠ [] := he.change.resolve_left fun h => h hold
  have h97 : e.com = 97 := by rw [com, if_pos hold]
  have hlo : (lo a e.old.length : ℤ) = (a : ℤ) := by rw [lo, hold]; rfl
  rw [getdiff_header he (by rw [hold]; exact ha) hdiff, hlo, if_neg (by rw [h97]; decide),
    if_pos h97, lo_sub (mt List.length_eq_zero_iff.mp hnew)]
  rfl

/-- The line between the two parts of a change. -/
theorem getdiff_dashes (hdiff : pkt.Diffin = [45, 45, 45, 10] ++ rest) :
    getdiff fuel pkt = some (⟨INS, pkt.chg_ln, pkt.chg_num⟩,
      Pass.withDiff pkt (rest, pkt.chg_num, pkt.chg_ln)) := by
  have hread := @Pass.rddiff_eq pkt [45, 45, 45] rest (by decide) (by decide) hdiff
  rw [if_pos (by decide)] at hread
  rw [getdiff, bind_of_some hread]
  rfl

end Edit

namespace Pass

variable {p : Pass} {seen later new : List Line} {fuel k : ℕ} {i d : ℤ} {pkt pkt' : Packet}
  {rest : Line}

theorem hunks_ins {linenum n : ℤ} (hn : n ≠ 0)
    (hget : getdiff fuel pkt = some (⟨INS, linenum, n⟩, pkt')) (newser : ℕ) :
    hunks fuel newser (k + 1) (i, d) pkt =
      (insert fuel linenum n newser >>= fun _ => hunks fuel newser k (i + n, d)) pkt' := by
  rw [hunks, bind_of_some hget]
  dsimp only
  rw [if_neg hn, if_pos rfl]

theorem hunks_del {linenum n : ℤ} (hn : n ≠ 0)
    (hget : getdiff fuel pkt = some (⟨DEL, linenum, n⟩, pkt')) (newser : ℕ) :
    hunks fuel newser (k + 1) (i, d) pkt =
      (delete fuel linenum n newser >>= fun _ => hunks fuel newser k (i, d + n)) pkt' := by
  rw [hunks, bind_of_some hget]
  dsimp only
  rw [if_neg hn, if_neg (by decide)]

/-- All has been worked in. -/
theorem hunks_end (hdiff : pkt.Diffin = []) (newser : ℕ) :
    hunks fuel newser (k + 1) (i, d) pkt = some ((i, d), pkt) := by
  have hget : getdiff fuel pkt = some (⟨0, 0, 0⟩, pkt) := by
    rw [getdiff, bind_of_some (rddiff_nil hdiff)]
    rfl
  rw [hunks, bind_of_some hget]
  rfl

variable (hser : p.maxser < p.newser)

include hser in
/-- `after` passes over lines that stay. -/
theorem run_after_common (hfuel : p.body.length < fuel) {cs : List Line} (hcs : cs.length < fuel)
    {diff : Line × ℤ × ℤ} :
    Run False (p.Settled false seen (cs ++ later) new diff)
      (after fuel ((seen.length + cs.length : ℕ) : ℤ))
        fun _ => p.Settled false (seen ++ cs) later (new ++ cs) diff := by
  rcases List.eq_nil_or_concat' cs with rfl | ⟨cs, c, rfl⟩
  · simp only [List.length_nil, Nat.add_zero, List.nil_append, List.append_nil]
    exact run_after_settled (Nat.zero_lt_of_lt hfuel) le_rfl
  · rw [List.length_append, List.length_singleton] at hcs ⊢
    have hafter : Run False (p.Passing false seen (cs ++ c :: later) new diff) _ _ :=
      run_after hser hfuel hcs
    refine run_mono hafter (fun pkt hpkt => by simpa using hpkt.1) fun _ pkt hpkt => ?_
    simpa using hpkt

theorem Settled.diff {diff : Line × ℤ × ℤ} (h : p.Settled false seen later new diff pkt) :
    (pkt.Diffin, pkt.chg_num, pkt.chg_ln) = diff := by
  obtain ⟨⟨_, _, _, hready, _⟩, _⟩ := h
  exact hready.diff

include hser in
/-- Lines that come, where none go. -/
theorem run_edit_new {e : Edit} (he : e.Ok) (hold : e.old = []) (hfuel : p.body.length < fuel)
    (hcommon : e.common.length < fuel)
    (hlen : (e.text (seen.length + e.common.length)).length < fuel)
    (hint : seen.length + e.common.length < 2 ^ 31) {num ln : ℤ} {R : ℤ × ℤ → Packet → Prop}
    (hrest : Run False
      (p.Settled false (seen ++ e.common) later (new ++ e.common ++ e.new) (rest, num, ln))
        (hunks fuel p.newser k (i + e.new.length, d)) R) :
    Run False (p.Settled false seen (e.common ++ later) new
        (e.text (seen.length + e.common.length) ++ rest, num, ln))
      (hunks fuel p.newser (k + 1) (i, d)) R := by
  intro pkt hpkt
  have hdiff : pkt.Diffin = _ := congrArg Prod.fst hpkt.diff
  have hnum : (pkt.chg_num, pkt.chg_ln) = (num, ln) := congrArg Prod.snd hpkt.diff
  have h97 : e.com = 97 := by rw [Edit.com, if_pos hold]
  have hmarked : marked 60 e.old = [] := by rw [hold]; rfl
  unfold Edit.text at hdiff hlen
  simp only [List.length_append] at hlen
  simp only [hmarked, h97, show ¬ (97 : UInt8) = 99 by decide, if_false, List.append_nil,
    List.append_assoc] at hdiff
  have hn : (e.new.length : ℤ) ≠ 0 := by
    have := List.length_pos_of_ne_nil (he.change.resolve_left fun h => h hold)
    omega
  have hget := @Edit.getdiff_new e fuel _ pkt _ he hold hint hdiff
  rw [hnum] at hget
  rw [hunks_ins hn hget]
  have hinsert : Run False (p.Settled false seen (e.common ++ later) new
      (marked 62 e.new ++ rest, num, ln)) _ _ :=
    run_insert hser he.new he.ctl (by omega) (run_after_common hser hfuel hcommon)
  exact run_bind hinsert (fun _ => hrest) _ (hpkt.withDiff (marked 62 e.new ++ rest, num, ln))

include hser in
/-- Lines that go, and maybe others in their place. -/
theorem run_edit_old {e : Edit} (he : e.Ok) (hold : e.old ≠ []) (hfuel : p.body.length < fuel)
    (hcommon : e.common.length + 1 < fuel) (holdlen : e.old.length < fuel)
    (hlen : (e.text (seen.length + e.common.length)).length < fuel)
    (hint : seen.length + e.common.length + e.old.length < 2 ^ 31) {num ln : ℤ}
    {R : ℤ × ℤ → Packet → Prop} (hrest : ∀ k', k ≤ k' → ∀ num ln, Run False
      (p.Settled false (seen ++ e.common ++ e.old) later (new ++ e.common ++ e.new) (rest, num, ln))
        (hunks fuel p.newser k' (i + e.new.length, d + e.old.length)) R) :
    Run False (p.Settled false seen (e.common ++ e.old ++ later) new
        (e.text (seen.length + e.common.length) ++ rest, num, ln))
      (hunks fuel p.newser (k + 2) (i, d)) R := by
  intro pkt hpkt
  have hdiff : pkt.Diffin = _ := congrArg Prod.fst hpkt.diff
  have hnum : (pkt.chg_num, pkt.chg_ln) = (num, ln) := congrArg Prod.snd hpkt.diff
  have hcom : e.com = if e.new = [] then 100 else 99 := by rw [Edit.com, if_neg hold]
  unfold Edit.text at hdiff hlen
  simp only [List.length_append] at hlen
  have hdiff' := hdiff
  rw [List.append_assoc, List.append_assoc, List.append_assoc] at hdiff'
  rw [← List.append_assoc] at hdiff'
  have hn : (e.old.length : ℤ) ≠ 0 := by
    have := List.length_pos_of_ne_nil hold
    omega
  have hget := @Edit.getdiff_old e fuel _ pkt _ he hold hint (by omega) hdiff'
  rw [hnum] at hget
  rw [show k + 2 = (k + 1) + 1 from rfl, hunks_del hn hget]
  have hdelete : ∀ diff : Line × ℤ × ℤ, Run False
      (p.Settled false seen (e.common ++ e.old ++ later) new diff)
        (delete fuel ((seen.length + e.common.length + 1 : ℕ) : ℤ) (e.old.length : ℤ) p.newser)
          fun _ => p.Settled false (seen ++ e.common ++ e.old) later (new ++ e.common) diff := by
    intro diff
    obtain ⟨o, os, ho⟩ := List.exists_cons_of_ne_nil hold
    rw [ho] at holdlen ⊢
    exact run_mono (run_delete hser hfuel hcommon (Nat.lt_of_succ_lt holdlen)) (fun _ h => h.1)
      fun _ _ h => h
  refine run_bind (hdelete _) (fun _ => ?_) _ (hpkt.withDiff _)
  by_cases hnew : e.new = []
  · have := hrest (k + 1) (Nat.le_succ k) num ln
    simpa [hnew, hcom, marked] using this
  · have h99 : e.com = 99 := by rw [hcom, if_neg hnew]
    rw [if_neg hnew, if_pos h99]
    intro pkt hpkt
    have hdashes : pkt.Diffin = [45, 45, 45, 10] ++ (marked 62 e.new ++ rest) :=
      congrArg Prod.fst hpkt.diff
    have hchg : (pkt.chg_num, pkt.chg_ln) = (_, _) := congrArg Prod.snd hpkt.diff
    obtain ⟨hnum', hln'⟩ := Prod.mk.inj hchg
    have hget := @Edit.getdiff_dashes fuel pkt _ hdashes
    rw [hnum', hln'] at hget
    have hn' : (e.new.length : ℤ) ≠ 0 := by
      have := List.length_pos_of_ne_nil hnew
      omega
    rw [hunks_ins hn' hget]
    have hle : ((seen.length + e.common.length + 1 : ℕ) : ℤ) ≤
        ((seen ++ e.common ++ e.old).length : ℤ) := by
      have := List.length_pos_of_ne_nil hold
      simp only [List.length_append]
      omega
    have hinsert : ∀ num ln, Run False (p.Settled false (seen ++ e.common ++ e.old) later
        (new ++ e.common) (marked 62 e.new ++ rest, num, ln)) _ _ := fun num ln =>
      run_insert hser he.new he.ctl (by omega) (run_after_settled (Nat.zero_lt_of_lt hfuel) hle)
    exact run_bind (hinsert _ _) (fun _ => hrest k le_rfl _ _) _ (hpkt.withDiff _)

theorem two_le_length_text (e : Edit) (a : ℕ) : 2 ≤ (e.text a).length := by
  simp only [Edit.text, Edit.header, List.length_append, List.length_cons]
  omega

include hser in
/-- The parts of the diff are worked in one after the other. -/
theorem run_hunks (hfuel : p.body.length < fuel) {last : List Line} {es : List Edit} :
    ∀ {seen new : List Line} {k : ℕ} {i d num ln : ℤ}, (∀ e ∈ es, e.Ok) →
      (oldLines es).length + 1 < fuel → (diffText seen.length es).length < fuel →
      (diffText seen.length es).length < k → seen.length + (oldLines es).length < 2 ^ 31 →
      Run False (p.Settled false seen (oldLines es ++ last) new (diffText seen.length es, num, ln))
        (hunks fuel p.newser k (i, d)) fun r pkt => r = (i + newCount es, d + oldCount es) ∧
          ∃ num ln, p.Settled false (seen ++ oldLines es) last (new ++ newLines es) ([], num, ln)
            pkt := by
  induction es with
  | nil =>
    intro seen new k i d num ln _ _ _ hk _ pkt hpkt
    obtain ⟨k, rfl⟩ := Nat.exists_eq_add_one_of_ne_zero (Nat.ne_zero_of_lt hk)
    refine Or.inr ⟨(i, d), pkt, hunks_end (congrArg Prod.fst hpkt.diff) p.newser, ?_, num, ln, ?_⟩
    · simp [newCount, oldCount]
    · simpa [oldLines, newLines, diffText] using hpkt
  | cons e es ih =>
    intro seen new k i d num ln hes hold hdiff hk hint
    obtain ⟨he, hes⟩ := List.forall_mem_cons.mp hes
    have holds : oldLines (e :: es) = e.common ++ e.old ++ oldLines es := List.flatMap_cons
    have hnews : newLines (e :: es) = e.common ++ e.new ++ newLines es := List.flatMap_cons
    rw [holds] at hold hint ⊢
    rw [hnews]
    rw [diffText] at hdiff hk ⊢
    simp only [List.length_append] at hold hdiff hk hint
    have htwo := two_le_length_text e (seen.length + e.common.length)
    obtain ⟨k, rfl⟩ : ∃ j, k = j + 2 := Nat.exists_eq_add_of_le' (by omega)
    -- what is left after this part
    have hrest : ∀ k', k ≤ k' → ∀ num ln, Run False (p.Settled false
        (seen ++ e.common ++ e.old) (oldLines es ++ last) (new ++ e.common ++ e.new)
          (diffText (seen.length + e.common.length + e.old.length) es, num, ln))
        (hunks fuel p.newser k' (i + e.new.length, d + e.old.length)) fun r pkt =>
          r = (i + newCount (e :: es), d + oldCount (e :: es)) ∧ ∃ num ln,
            p.Settled false (seen ++ (e.common ++ e.old ++ oldLines es)) last
              (new ++ (e.common ++ e.new ++ newLines es)) ([], num, ln) pkt := by
      intro k' hk' num ln
      have hseen : seen.length + e.common.length + e.old.length =
          (seen ++ e.common ++ e.old).length := by
        simp only [List.length_append]
      rw [hseen] at hdiff hk ⊢
      refine run_mono (ih hes (by omega) (by omega) (by omega) (by rw [← hseen]; omega))
        (fun _ h => h) ?_
      rintro r pkt ⟨rfl, num, ln, hpkt⟩
      refine ⟨?_, num, ln, ?_⟩
      · simp only [newCount, oldCount, List.map_cons, List.sum_cons, add_assoc]
      · simpa only [List.append_assoc] using hpkt
    by_cases hnil : e.old = []
    · have hnew := hrest (k + 1) (Nat.le_succ k) num ln
      simp only [hnil, List.append_nil, List.length_nil, Nat.cast_zero, add_zero,
        List.append_assoc] at hnew ⊢
      have hrun := @run_edit_new p seen (oldLines es ++ last) new fuel (k + 1) i d _ hser e he hnil
        hfuel (by omega) (by omega) (by omega) num ln _
        (by simpa only [List.append_assoc] using hnew)
      simpa only [List.append_assoc] using hrun
    · have hrun := @run_edit_old p seen (oldLines es ++ last) new fuel k i d _ hser e he hnil hfuel
        (by omega) (by omega) (by omega) (by omega) num ln _ hrest
      simpa only [List.append_assoc] using hrun

/-! ### The whole body -/

include hser in
/-- The rest of the body is copied. -/
theorem run_readRest (hfuel : p.body.length < fuel) {later : List Line} :
    ∀ {seen new : List Line} {k : ℕ} {diff : Line × ℤ × ℤ}, later.length < k →
      Run False (p.Passing false seen later new diff) (readRest fuel k)
        fun _ => p.Done false (seen ++ later) (new ++ later) := by
  induction later with
  | nil =>
    intro seen new k diff hk pkt hpkt
    obtain ⟨k, rfl⟩ := Nat.exists_eq_add_one_of_ne_zero (Nat.ne_zero_of_lt hk)
    obtain ⟨more, pkt', hread, rfl, hdone⟩ := (run_readmod hser hfuel).exists hpkt
    refine Or.inr ⟨(), pkt', ?_, by simpa using hdone⟩
    rw [readRest, bind_of_some hread]
    rfl
  | cons l later ih =>
    intro seen new k diff hk pkt hpkt
    obtain ⟨k, rfl⟩ := Nat.exists_eq_add_one_of_ne_zero (Nat.ne_zero_of_lt hk)
    obtain ⟨more, pkt', hread, rfl, hpending⟩ := (run_readmod hser hfuel).exists hpkt
    obtain ⟨_, pkt'', hrun, hdone⟩ := (ih (Nat.lt_of_succ_lt_succ hk)).exists hpending.passing
    refine Or.inr ⟨(), pkt'', ?_, by simpa using hdone⟩
    rw [readRest, bind_of_some hread]
    exact hrun

/-- The body that has been written. -/
theorem Wove.shown {out : List Line} (h : p.Wove false out [] [] seen new) :
    shownFrom (Function.update p.ap p.newser true) p.newser [] out = some new ∧
      ∀ ap ap', ap p.newser = false → (∀ n < p.newser, ap n = ap' n) →
        shownFrom ap p.newser [] out = shownFrom ap' p.maxser [] p.body := by
  obtain ⟨-, pre, is, js, hbody, his, hjs, hwoven, -⟩ := h
  rw [List.append_nil] at hbody
  subst hbody
  obtain ⟨-, hnew, hother⟩ := hwoven.version
  refine ⟨?_, fun ap ap' hap hlow => ?_⟩
  · rw [shownFrom, hjs]
    exact hnew
  · rw [shownFrom, shownFrom, hjs, his]
    exact hother ap ap' hap hlow

/-- Without the new delta the body is the old one. -/
theorem Wove.kept {out : List Line} (h : p.Wove false out [] [] seen new) :
    keptLines p.newser true out = p.body := by
  obtain ⟨-, pre, -, -, hbody, -, -, -, hkept⟩ := h
  have hrest := hkept []
  rwa [List.append_nil, keptLines, List.append_nil, ← List.append_nil pre, ← hbody] at hrest

end Pass

end Unitas.Sccs
