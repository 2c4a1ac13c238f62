import Unitas.Sccs.Body
import Unitas.Sccs.Scan

/-! `get`: a version of a well-formed s-file is what the weave of its body shows. -/
namespace Unitas.Sccs
open Unitas.Hoare Unitas.Weave

/-- The lines that `readmod` gives. -/
def getLines (fuel : ℕ) : ℕ → M (List Line)
  | 0 => fatal
  | n + 1 => do
    let more ← readmod fuel
    if more then
      let p_line := (← get).p_line
      let lines ← getLines fuel n
      return p_line :: lines
    else return []

/-- `get -a`, which takes a serial number, up to the text. -/
def getVersion (zone : Zone) (cutoff : ℤ) (ser : ℕ) (file : Line) : M (List Line) := do
  let fuel := file.length + 1
  sinit file
  modify fun pkt => { pkt with p_cutoff := cutoff }
  let _ ← dodelt zone (fun _ => pure ()) none 0 fuel
  finduser fuel
  doflags fuel
  fatalIf ((← get).maxser < ser)
  setup ser
  flushto EUSERTXT true fuel
  modify fun pkt => { pkt with p_chkeof := true }
  getLines fuel fuel

def getFile (zone : Zone) (cutoff : ℤ) (ser : ℕ) (file : Line) : Option (List Line) :=
  (getVersion zone cutoff ser file (zero [])).map Prod.fst

variable {zone : Zone}

def Sfile.maxser (S : Sfile zone) : ℕ := (S.idel.map fun idel => (idel 0).i_pred).getD 0

/-- What `setup` makes of a serial number. -/
def Sfile.apply (S : Sfile zone) (cutoff : ℤ) (ser : ℕ) : Option (ℕ → Apply) :=
  setupFrom (S.idel.getD (newIdel 0)) cutoff S.maxser
    (Function.update noApply ser { noApply ser with a_inline := true })

def applied (ap : ℕ → Apply) (n : ℕ) : Bool := (ap n).a_code = APPLY

/-- The body as a weave. -/
def Sfile.items (S : Sfile zone) : Option (List (Item Line)) := S.body.mapM (item S.maxser)

/-- A version of an s-file. -/
def Sfile.get (S : Sfile zone) (cutoff : ℤ) (ser : ℕ) : Option (List Line) :=
  if S.maxser < ser then none
  else do
    let ap ← S.apply cutoff ser
    let is ← S.items
    version (applied ap) is

/-- The packet in the body, of which `ls` is left. -/
structure InBody (ap : ℕ → Bool) (maxser : ℕ) (bad : Bool) (bs : Blocks) (ls : List Line)
    (pkt : Packet) : Prop where
  upd : pkt.p_upd = false
  reopen : pkt.p_reopen = false
  chkeof : pkt.p_chkeof = true
  iop : pkt.p_iop = some ls
  blocks : pkt.p_q.map Queue.block = bs
  honest : Honest ap pkt.p_q
  keep : pkt.p_keep = YES ↔ setkeep pkt.p_q = YES
  apply : ∀ n, applied pkt.p_apply n = ap n
  maxser : pkt.maxser = maxser
  sum : decide (Corrupted (core pkt)) = bad

variable {ap : ℕ → Bool} {maxser : ℕ} {bad : Bool} {bs : Blocks} {ls : List Line} {l : Line}
  {pkt : Packet}

theorem InBody.next (h : InBody ap maxser bad bs (l :: ls) pkt) :
    getline pkt = some (some l, nextLine pkt l ls) ∧
      InBody ap maxser bad bs ls (nextLine pkt l ls) := by
  have hget := getline_eq pkt
  rw [flushed_of_upd h.upd, h.iop] at hget
  refine ⟨hget, h.upd, h.reopen, h.chkeof, rfl, h.blocks, h.honest, h.keep, h.apply, h.maxser, ?_⟩
  rw [core_nextLine h.iop]
  exact h.sum

theorem InBody.eof (h : InBody ap maxser bad bs [] pkt) :
    getline pkt = if bad then none else some (none, { pkt with p_iop := none }) := by
  have hget := getline_eq pkt
  rw [flushed_of_upd h.upd, h.iop] at hget
  dsimp only at hget
  rw [getlineEof_eq h.reopen] at hget
  have hcore : Corrupted (core pkt) ↔ Corrupted pkt := by
    simp only [Corrupted, core, h.iop, Option.getD_some, List.flatten_nil, charSum, ucharSum,
      List.map_nil, List.sum_nil, add_zero]
  have hbad : pkt.p_chkeof = false ∨ Corrupted pkt ↔ bad = true := by
    rw [← h.sum, h.chkeof, decide_eq_true_iff, hcore]
    simp
  rw [hget]
  by_cases hb : bad = true
  · rw [if_pos hb, if_pos (hbad.mpr hb)]
    rfl
  · rw [if_neg hb, if_neg (mt hbad.mp hb)]
    rfl

/-- The queue after a control line. -/
theorem InBody.setQueue (h : InBody ap maxser bad bs ls pkt) {q : List Queue}
    (hq : Honest ap q) : InBody ap maxser bad (q.map Queue.block) ls (setQueue pkt q) := by
  refine ⟨h.upd, h.reopen, h.chkeof, h.iop, rfl, hq, Iff.rfl, h.apply, h.maxser, ?_⟩
  have hcore : Corrupted (core (Sccs.setQueue pkt q)) ↔ Corrupted (core pkt) := Iff.rfl
  rw [← h.sum, decide_eq_decide, hcore]

/-- A control line opens or closes a block. -/
theorem InBody.start (h : InBody ap maxser bad bs ls pkt) (hl : chr l = CTLCHAR) {ins : Bool}
    {ser : ℕ} (hitem : item maxser l = some (.start ins ser)) :
    match enter ser ins bs with
    | none => control l pkt = none
    | some bs' => ∃ pkt', control l pkt = some ((), pkt') ∧ InBody ap maxser bad bs' ls pkt' := by
  have hctl := control_eq hl pkt
  rw [h.maxser, hitem, Option.bind_some, controlled] at hctl
  have hiord : ((if ins then INS else DEL) == INS) = ins := by cases ins <;> rfl
  have hblock := insertq_block ⟨ser, blockKeep ((pkt.p_apply ser).a_code = APPLY)
    (if ins then INS else DEL), if ins then INS else DEL⟩ pkt.p_q
  dsimp only at hblock
  rw [h.blocks, hiord] at hblock
  rw [← hblock]
  cases hq : insertq ⟨ser, blockKeep ((pkt.p_apply ser).a_code = APPLY)
    (if ins then INS else DEL), if ins then INS else DEL⟩ pkt.p_q with
  | none =>
    rw [hctl, hq]
    rfl
  | some q =>
    rw [hq] at hctl
    refine ⟨_, hctl, h.setQueue fun e he => ?_⟩
    rcases mem_insertq hq he with rfl | he
    · refine ⟨?_, ?_⟩
      · cases ins with
        | true => exact Or.inl rfl
        | false => exact Or.inr rfl
      · rw [← h.apply ser]
        rfl
    · exact h.honest e he

theorem InBody.stop (h : InBody ap maxser bad bs ls pkt) (hl : chr l = CTLCHAR) {ser : ℕ}
    (hitem : item maxser l = some (.stop ser)) :
    match leave ser bs with
    | none => control l pkt = none
    | some bs' => ∃ pkt', control l pkt = some ((), pkt') ∧ InBody ap maxser bad bs' ls pkt' := by
  have hctl := control_eq hl pkt
  rw [h.maxser, hitem, Option.bind_some, controlled] at hctl
  rw [← h.blocks, ← removeq_block]
  cases hq : removeq ser pkt.p_q with
  | none =>
    rw [hctl, hq]
    rfl
  | some q =>
    rw [hq] at hctl
    exact ⟨_, hctl, h.setQueue fun e he => h.honest e (mem_removeq hq he)⟩

/-- `getLines` in the middle of a `readmod`. -/
def readFrom (fuel' fuel n : ℕ) : M (List Line) := do
  let more ← readmod fuel'
  if more then
    let p_line := (← get).p_line
    let lines ← getLines fuel n
    return p_line :: lines
  else return []

/-- What is shown of the lines of the body that are left. -/
def shownFrom (ap : ℕ → Bool) (maxser : ℕ) (bs : Blocks) (ls : List Line) : Option (List Line) :=
  (ls.mapM (item maxser)).bind fun is => (texts bs is).map (shown ap)

theorem shownFrom_cons (ap : ℕ → Bool) (maxser : ℕ) (bs : Blocks) (l : Line) (ls : List Line) :
    shownFrom ap maxser bs (l :: ls) =
      match item maxser l with
      | none => none
      | some (.text l') =>
        (shownFrom ap maxser bs ls).map fun t => if visible ap bs then l' :: t else t
      | some (.start ins ser) => (enter ser ins bs).bind fun bs => shownFrom ap maxser bs ls
      | some (.stop ser) => (leave ser bs).bind fun bs => shownFrom ap maxser bs ls := by
  unfold shownFrom
  rw [List.mapM_cons]
  cases item maxser l with
  | none => rfl
  | some i =>
    cases hls : ls.mapM (item maxser) with
    | none =>
      cases i with
      | text l' => rfl
      | start ins ser => cases henter : enter ser ins bs <;> simp [henter]
      | stop ser => cases hleave : leave ser bs <;> simp [hleave]
    | some is =>
      cases i with
      | text l' =>
        change ((texts bs is).map ((bs, l') :: ·)).map (shown ap) = ((texts bs is).map (shown ap)).map _
        rw [Option.map_map, Option.map_map]
        refine congrArg (fun f => Option.map f _) (funext fun rs => ?_)
        simp only [Function.comp, shown, List.filter_cons]
        split_ifs
        · rfl
        · rfl
      | start ins ser => cases henter : enter ser ins bs <;> simp [texts, henter]
      | stop ser => cases hleave : leave ser bs <;> simp [texts, hleave]

theorem readFrom_eof {fuel' fuel n : ℕ} {pkt' : Packet} (hget : getline pkt = some (none, pkt')) :
    readFrom (fuel' + 1) fuel n pkt =
      if pkt'.p_q.isEmpty = false then none else some ([], pkt') := by
  change ((getline pkt).bind fun r => _).bind _ = _
  rw [hget]
  change (((fatalIf (pkt'.p_q.isEmpty = false) : M Unit) pkt').bind _).bind _ = _
  unfold fatalIf doIf
  split_ifs
  · rfl
  · rfl

theorem readFrom_line {fuel' fuel n : ℕ} {pkt' : Packet} (hget : getline pkt = some (some l, pkt')) :
    readFrom (fuel' + 1) fuel n pkt =
      if chr l ≠ CTLCHAR then
        if pkt'.p_keep = YES then
          (getLines fuel n { pkt' with p_glnno := pkt'.p_glnno + 1 }).map fun r =>
            (pkt'.p_line :: r.1, r.2)
        else readFrom fuel' fuel n pkt'
      else (control l pkt').bind fun r => readFrom fuel' fuel n r.2 := by
  change ((getline pkt).bind fun r => _).bind _ = _
  rw [hget]
  change ((if chr l ≠ CTLCHAR then _ else _ : M Bool) pkt').bind _ = _
  by_cases hctl : chr l = CTLCHAR
  · rw [if_neg (not_not.mpr hctl), if_neg (not_not.mpr hctl)]
    change ((control l pkt').bind _).bind _ = _
    cases control l pkt' with
    | none => rfl
    | some r => rfl
  · rw [if_pos hctl, if_pos hctl]
    change ((if pkt'.p_keep = YES then _ else _ : M Bool) pkt').bind _ = _
    split_ifs
    · change (getLines fuel n _).bind _ = _
      cases getLines fuel n { pkt' with p_glnno := pkt'.p_glnno + 1 } with
      | none => rfl
      | some r => rfl
    · rfl

theorem item_text (hl : chr l ≠ CTLCHAR) : item maxser l = some (.text l) := if_pos hl

theorem item_control (hl : chr l = CTLCHAR) : ∀ l', item maxser l ≠ some (.text l') := by
  intro l' h
  rw [item, if_neg (not_not.mpr hl)] at h
  dsimp only at h
  split_ifs at h
  all_goals cases h

theorem readFrom_eq {body : List Line} : ∀ {bs : Blocks} {pkt : Packet} {fuel' fuel n : ℕ},
    InBody ap maxser bad bs body pkt → body.length < fuel' → body.length < fuel →
    body.length ≤ n → (readFrom fuel' fuel n pkt).map Prod.fst =
      if bad then none else shownFrom ap maxser bs body := by
  induction body with
  | nil =>
    intro bs pkt fuel' fuel n h hfuel' _ _
    obtain ⟨fuel', rfl⟩ := Nat.exists_eq_add_one_of_ne_zero (Nat.ne_zero_of_lt hfuel')
    have heof := h.eof
    cases bad with
    | true =>
      have hnone : readFrom (fuel' + 1) fuel n pkt = none := by
        change ((getline pkt).bind fun r => _).bind _ = _
        rw [heof]
        rfl
      rw [hnone]
      rfl
    | false =>
      rw [readFrom_eof heof]
      have hq : pkt.p_q.map Queue.block = bs := h.blocks
      cases hp : pkt.p_q with
      | nil =>
        rw [hp] at hq
        subst hq
        rfl
      | cons e q =>
        rw [hp] at hq
        subst hq
        rfl
  | cons l body ih =>
    intro bs pkt fuel' fuel n h hfuel' hfuel hn
    obtain ⟨fuel', rfl⟩ := Nat.exists_eq_add_one_of_ne_zero (Nat.ne_zero_of_lt hfuel')
    obtain ⟨n, rfl⟩ := Nat.exists_eq_add_one_of_ne_zero (Nat.ne_zero_of_lt hn)
    obtain ⟨hget, hnext⟩ := h.next
    have hfuel₁ := Nat.lt_of_succ_lt_succ hfuel'
    have hfuel₂ := Nat.lt_of_succ_lt hfuel
    have hn₁ := Nat.le_of_succ_le_succ hn
    rw [readFrom_line hget, shownFrom_cons]
    by_cases hctl : chr l = CTLCHAR
    · rw [if_neg (not_not.mpr hctl)]
      cases hitem : item maxser l with
      | none =>
        have hnone := control_eq hctl (nextLine pkt l body)
        rw [hnext.maxser, hitem] at hnone
        rw [hnone]
        simp
      | some i =>
        cases i with
        | text l' => exact absurd hitem (item_control hctl l')
        | start ins ser =>
          have hstart := hnext.start hctl hitem
          cases henter : enter ser ins bs with
          | none =>
            rw [henter] at hstart
            rw [hstart]
            simp [henter]
          | some bs' =>
            rw [henter] at hstart
            obtain ⟨pkt', hrun, hbody⟩ := hstart
            have ih := ih hbody hfuel₁ hfuel₂ (Nat.le_succ_of_le hn₁)
            simpa only [hrun, henter, Option.bind_some] using ih
        | stop ser =>
          have hstop := hnext.stop hctl hitem
          cases hleave : leave ser bs with
          | none =>
            rw [hleave] at hstop
            rw [hstop]
            simp [hleave]
          | some bs' =>
            rw [hleave] at hstop
            obtain ⟨pkt', hrun, hbody⟩ := hstop
            have ih := ih hbody hfuel₁ hfuel₂ (Nat.le_succ_of_le hn₁)
            simpa only [hrun, hleave, Option.bind_some] using ih
    · rw [if_pos hctl, item_text hctl]
      have hvis : (nextLine pkt l body).p_keep = YES ↔ visible ap bs = true := by
        rw [hnext.keep, setkeep_visible hnext.honest, hnext.blocks]
      by_cases hkeep : (nextLine pkt l body).p_keep = YES
      · rw [if_pos hkeep]
        have hline : InBody ap maxser bad bs body
            { nextLine pkt l body with p_glnno := (nextLine pkt l body).p_glnno + 1 } :=
          ⟨hnext.upd, hnext.reopen, hnext.chkeof, hnext.iop, hnext.blocks, hnext.honest,
            hnext.keep, hnext.apply, hnext.maxser, hnext.sum⟩
        have ih := ih hline hfuel₂ hfuel₂ hn₁
        have hlines : ∀ t : Packet, getLines fuel (n + 1) t = readFrom fuel fuel n t := fun _ => rfl
        have hcons := congrArg (Option.map (l :: ·)) ih
        rw [Option.map_map] at hcons ⊢
        refine hcons.trans ?_
        simp only [hvis.mp hkeep, if_true]
        cases bad with
        | true => rfl
        | false => rfl
      · rw [if_neg hkeep]
        have ih := ih hnext hfuel₁ hfuel₂ (Nat.le_succ_of_le hn₁)
        rw [ih]
        simp only [mt hvis.mpr hkeep]
        cases bad with
        | true => rfl
        | false => cases shownFrom ap maxser bs body <;> rfl

/-- Whether the sum of an s-file is wrong. -/
def Sfile.corrupted (S : Sfile zone) : Bool :=
  (charSum S.tail.flatten - S.hash) % 65536 ≠ 0 ∧ (ucharSum S.tail.flatten - S.hash) % 65536 ≠ 0

theorem length_readLines_le (file : Line) : (readLines file).length ≤ file.length :=
  length_readLinesFrom _ _

theorem forall_mem_concat {ls : List Line} (hls : ∀ l ∈ ls, 0 ∉ l) (hl : 0 ∉ l) :
    ∀ l' ∈ ls ++ [l], 0 ∉ l' :=
  List.forall_mem_append.mpr ⟨hls, fun _ h => List.mem_singleton.mp h ▸ hl⟩

theorem unchanging_pure : Unchanging False fun _ => pure () :=
  fun _ _ _ _ _ => run_pure fun _ h => h

theorem setup_eq (ser : ℕ) (t : Packet) :
    setup ser t =
      (setupFrom (t.p_idel.getD (newIdel 0)) t.p_cutoff t.maxser (Function.update t.p_apply ser
        { t.p_apply ser with a_inline := true })).map fun ap => ((), { t with p_apply := ap }) := by
  unfold setup
  rw [bind_of_some (get_some.mpr ⟨rfl, rfl⟩)]
  cases setupFrom (t.p_idel.getD (newIdel 0)) t.p_cutoff t.maxser (Function.update t.p_apply ser
    { t.p_apply ser with a_inline := true }) <;> rfl

/-- `get` gives what the version of the s-file is. -/
theorem getFile_eq {file : Line} (S : Sfile zone) (hfile : readLines file = S.lines) (cutoff : ℤ)
    (ser : ℕ) : getFile zone cutoff ser file = if S.corrupted then none else S.get cutoff ser := by
  have hnul : ∀ l ∈ S.tail, 0 ∉ l := fun l hl =>
    not_mem_readLines (show l ∈ readLines file from hfile ▸ List.mem_cons_of_mem _ hl)
  have hrest : ∀ l ∈ S.rest, 0 ∉ l := fun l hl => hnul l (List.mem_append_right _ hl)
  simp only [Sfile.rest, List.forall_mem_cons, List.forall_mem_append] at hrest
  obtain ⟨-, husers, heUsers, hflags, hbText, hcomments, heText, -⟩ := hrest
  have hlen := length_readLines_le file
  have htail : S.tail.length < file.length + 1 := by
    rw [hfile, Sfile.lines, List.length_cons] at hlen
    omega
  have hrestlen : S.rest.length ≤ S.tail.length := by
    rw [Sfile.tail, List.length_append]
    omega
  simp only [Sfile.rest, List.length_cons, List.length_append] at hrestlen
  have hsinit : sinit file (zero []) = some ((), opened (headLine S.hash) S.tail) :=
    sinit_some.mpr ⟨_, _, hfile, isHead_headLine S.hash, rfl⟩
  generalize hk : core { opened (headLine S.hash) S.tail with p_cutoff := cutoff } = k
  have hat : At [] S.tail k { opened (headLine S.hash) S.tail with p_cutoff := cutoff } :=
    ⟨rfl, hk, fun h => by cases h⟩
  have hfuel₁ : S.users.length < file.length + 1 := by omega
  have hfuel₂ : S.flags.length < file.length + 1 := by omega
  have hfuel₃ : S.comments.length < file.length + 1 := by omega
  have hfuel₄ : S.body.length < file.length + 1 := by omega
  have hrun : Run False (At [] S.tail k) (dodelt zone (fun _ => pure ()) none 0 (file.length + 1)) _ :=
    run_dodelt unchanging_pure S (Or.inr rfl) (congrArg Packet.p_apply hk).symm
      (congrArg Packet.CDid_mrs hk).symm hnul htail
  obtain ⟨d, t₁, hdodelt, -, hat₁⟩ := hrun.exists hat
  obtain ⟨_, t₂, hfinduser, hat₂⟩ := (run_finduser S.isUser S.isEUsers
    (forall_mem_concat husers heUsers) hfuel₁).exists hat₁
  obtain ⟨_, t₃, hdoflags, hat₃⟩ := (run_doflags S.isFlag S.isBText
    (forall_mem_concat hflags hbText) hfuel₂).exists hat₂
  have hidel : t₃.p_idel = S.idel := congrArg Packet.p_idel hat₃.core
  have hmaxser : t₃.maxser = S.maxser := by rw [Packet.maxser, hidel, Sfile.maxser]
  have happly : t₃.p_apply = noApply :=
    (congrArg Packet.p_apply hat₃.core).trans (congrArg Packet.p_apply hk).symm
  have hcutoff : t₃.p_cutoff = cutoff :=
    (congrArg Packet.p_cutoff hat₃.core).trans (congrArg Packet.p_cutoff hk).symm
  have hget : getVersion zone cutoff ser file (zero []) = (do
      fatalIf ((← get).maxser < ser)
      setup ser
      flushto EUSERTXT true (file.length + 1)
      modify fun pkt => { pkt with p_chkeof := true }
      getLines (file.length + 1) (file.length + 1) : M (List Line)) t₃ := by
    unfold getVersion
    rw [bind_of_some hsinit, bind_of_some (modify_some.mpr rfl), bind_of_some hdodelt,
      bind_of_some hfinduser, bind_of_some hdoflags]
  rw [getFile, hget, bind_of_some (get_some.mpr ⟨rfl, rfl⟩), Sfile.get, hmaxser]
  by_cases hser : S.maxser < ser
  · rw [if_pos hser, ite_self]
    unfold fatalIf doIf
    rw [if_pos hser]
    rfl
  · rw [if_neg hser, bind_of_some (fatalIf_some.mpr ⟨hser, rfl⟩)]
    have hsetup : setup ser t₃ =
        (S.apply cutoff ser).map fun ap => ((), { t₃ with p_apply := ap }) := by
      rw [Sfile.apply, ← hmaxser, ← hidel, ← hcutoff, ← happly]
      rw [setup_eq]
    cases hap : S.apply cutoff ser with
    | none =>
      rw [hap] at hsetup
      rw [bind_of_none hsetup]
      simp
    | some ap =>
      rw [hap] at hsetup
      rw [bind_of_some hsetup]
      have hat₄ : At _ (S.comments ++ S.eText :: S.body) { withIdel k S.idel with p_apply := ap }
          { t₃ with p_apply := ap } := ⟨hat₃.iop, by rw [← hat₃.core]; rfl, hat₃.text⟩
      obtain ⟨_, t₄, hflushto, hat₅⟩ := (run_flushto S.isComment S.isEText
        (forall_mem_concat hcomments heText) true hfuel₃).exists hat₄
      rw [bind_of_some hflushto, bind_of_some (modify_some.mpr rfl)]
      have hbody : InBody (applied ap) S.maxser S.corrupted [] S.body
          { t₄ with p_chkeof := true } := by
        have hfield : ∀ {α : Type} (f : Packet → α), f (core t₄) =
            f { withIdel k S.idel with p_apply := ap } := fun f => congrArg f hat₅.core
        have hq : t₄.p_q = [] := (hfield Packet.p_q).trans (congrArg Packet.p_q hk).symm
        have hkeep : t₄.p_keep = 0 := (hfield Packet.p_keep).trans (congrArg Packet.p_keep hk).symm
        refine ⟨(hfield Packet.p_upd).trans (congrArg Packet.p_upd hk).symm,
          (hfield Packet.p_reopen).trans (congrArg Packet.p_reopen hk).symm, rfl, hat₅.iop, ?_, ?_,
          ?_, fun n => congrFun (congrArg applied (hfield Packet.p_apply)) n, ?_, ?_⟩
        · change t₄.p_q.map Queue.block = []
          rw [hq]
          rfl
        · change Honest (applied ap) t₄.p_q
          rw [hq]
          exact fun e he => absurd he List.not_mem_nil
        · change t₄.p_keep = YES ↔ setkeep t₄.p_q = YES
          rw [hq, hkeep]
          decide
        · change t₄.maxser = S.maxser
          rw [Packet.maxser, Sfile.maxser]
          exact congrArg (fun idel => (Option.map (fun idel => (idel 0).i_pred) idel).getD 0)
            (hfield Packet.p_idel)
        · have hcore : core { t₄ with p_chkeof := true } = { core t₄ with p_chkeof := true } := rfl
          have hsum : (satoi (headLine S.hash).tail.tail).1 = S.hash := by
            change (satoi (fiveDigits S.hash ++ [10])).1 = S.hash
            rw [satoi_fiveDigits]
          rw [hcore, hat₅.core, ← hk, Sfile.corrupted, decide_eq_decide]
          simp [Corrupted, withIdel, core, opened, nextLine, zero, hsum]
      have hlines := readFrom_eq hbody hfuel₄ hfuel₄ (Nat.le_of_lt_succ hfuel₄)
      exact hlines

end Unitas.Sccs
