import Unitas.Sccs.DeltaGet

/-! The versions of an s-file, after any number of deltas that `delta` has put into it. -/
namespace Unitas.Sccs
open Unitas.Decimal Unitas.Hoare Unitas.Lines Unitas.Weave

variable {s : ℕ} {zone : Zone} {S : Sfile zone} {e : TableEntry zone} {c : Checkin} {fuel : ℕ}
  {ap : ℕ → Apply} {pkt : Packet} {hash : ℕ}

/-! ### The command -/

/-- What the first pass comes to. -/
theorem delta_scan {file : Line} {pkt' : Packet} (hfile : readLines file = S.lines)
    (hS : S.Has c.gsid s) (hdoie : c.doie noApply = noApply) (hfuel : file.length < fuel)
    (hrun : delta zone c fuel file (zero []) = some ((), pkt')) :
    ∃ ap pkt counts t, S.apply c.cutoff s = some ap ∧ Rewound S.lines ap S.idel pkt ∧
      pkt.p_q = [] ∧ attempts c fuel 8 c.attempts pkt = some (counts, t) ∧
        flushline (some ⟨counts.1, counts.2, pkt.p_glnno - counts.2⟩) t = some ((), pkt') := by
  have hnul : ∀ l ∈ S.tail, 0 ∉ l := fun l hl =>
    not_mem_readLines (show l ∈ readLines file from hfile ▸ List.mem_cons_of_mem _ hl)
  have hrest : ∀ l ∈ S.rest, 0 ∉ l := fun l hl => hnul l (List.mem_append_right _ hl)
  simp only [Sfile.rest, List.forall_mem_cons, List.forall_mem_append] at hrest
  obtain ⟨-, husers, heUsers, hflags, hbText, hcomments, heText, -⟩ := hrest
  have hlen := length_readLines_le file
  have htail : S.tail.length < fuel := by
    rw [hfile, Sfile.lines, List.length_cons] at hlen
    omega
  have hrestlen : S.rest.length ≤ S.tail.length := by
    rw [Sfile.tail, List.length_append]
    omega
  simp only [Sfile.rest, List.length_cons, List.length_append] at hrestlen
  have hfuel₁ : S.users.length < fuel := by omega
  have hfuel₂ : S.flags.length < fuel := by omega
  have hfuel₃ : S.comments.length < fuel := by omega
  unfold delta at hrun
  obtain ⟨_, t₁, hsinit, h₁⟩ := bind_some.mp hrun
  obtain ⟨_, t₂, hreopen, h₂⟩ := bind_some.mp h₁
  obtain ⟨d, t₃, hdodelt, h₃⟩ := bind_some.mp h₂
  obtain ⟨_, _, hget, h₄⟩ := bind_some.mp h₃
  rw [(get_some.mp hget).1, (get_some.mp hget).2] at h₄
  obtain ⟨head, ls, hl, -, rfl⟩ := sinit_some.mp hsinit
  obtain ⟨rfl, rfl⟩ := List.cons.inj (hfile.symm.trans hl)
  rw [modify_some.mp hreopen] at hdodelt
  -- the delta table
  generalize hk : core { opened (headLine S.hash) S.tail with p_reopen := true } = k
  have hat : At [] S.tail k { opened (headLine S.hash) S.tail with p_reopen := true } :=
    ⟨rfl, hk, fun h => by cases h⟩
  have hidle : Idle { opened (headLine S.hash) S.tail with p_reopen := true } := ⟨rfl, rfl, rfl⟩
  obtain ⟨-, hat₃⟩ := (run_dodelt unchanging_pure S (Or.inr rfl) (congrArg Packet.p_apply hk).symm
    (congrArg Packet.CDid_mrs hk).symm hnul htail).of_some hat hdodelt
  have hidle₃ : Idle t₃ := keeps_dodelt zone (fun _ => keeps_pure _) none 0 fuel _ _ _ hidle hdodelt
  have hidel : t₃.p_idel = some S.table := (congrArg Packet.p_idel hat₃.core).trans S.idel_eq
  have hmaxser : t₃.maxser = S.maxser := by
    rw [Packet.maxser, hidel, Sfile.maxser, S.idel_eq]
    rfl
  have hser : t₃.sidtoser c.gsid = s := by
    rw [Packet.sidtoser, hidel, hmaxser, Option.getD_some]
    exact hS.sidtoser
  rw [hser] at h₄
  -- the deltas of the version
  obtain ⟨_, t₄, hfound, h₅⟩ := bind_some.mp h₄
  obtain ⟨-, rfl⟩ := fatalIf_some.mp hfound
  obtain ⟨_, t₅, hmarks, h₆⟩ := bind_some.mp h₅
  obtain ⟨_, t₆, hsetup, h₇⟩ := bind_some.mp h₆
  have happly : t₄.p_apply = noApply :=
    (congrArg Packet.p_apply hat₃.core).trans (congrArg Packet.p_apply hk).symm
  have hidle₆ : Idle t₆ := by
    refine keeps_setup s _ _ _ ?_ hsetup
    rw [modify_some.mp hmarks]
    exact ⟨hidle₃.upd, hidle₃.create, hidle₃.sum⟩
  rw [modify_some.mp hmarks, setup_eq] at hsetup
  obtain ⟨ap, hap, heq⟩ := Option.map_eq_some_iff.mp hsetup
  have hS_ap : S.apply c.cutoff s = some ap := by
    refine Eq.trans ?_ hap
    change _ = setupFrom (t₄.p_idel.getD (newIdel 0)) c.cutoff t₄.maxser (Function.update
      (c.doie t₄.p_apply) s { c.doie t₄.p_apply s with a_inline := true })
    rw [S.apply_eq, hidel, hmaxser, happly, hdoie]
    rfl
  have hat₆ : At [] S.rest.tail
      { withIdel k S.idel with p_cutoff := c.cutoff, p_apply := ap } t₆ := by
    refine ⟨?_, ?_, fun h => absurd (hidle₆.upd.symm.trans h) (by decide)⟩
    · rw [← (Prod.mk.inj heq).2]
      exact hat₃.iop
    · rw [← (Prod.mk.inj heq).2, ← hat₃.core]
      rfl
  -- what comes before the body
  obtain ⟨_, t₇, hfinduser, h₈⟩ := bind_some.mp h₇
  have hat₇ := (run_finduser S.isUser S.isEUsers (forall_mem_concat husers heUsers) hfuel₁
    : Run False _ _ _).of_some hat₆ hfinduser
  have hidle₇ : Idle t₇ := keeps_finduser fuel _ _ _ hidle₆ hfinduser
  obtain ⟨_, t₈, hdoflags, h₉⟩ := bind_some.mp h₈
  have hat₈ := (run_doflags S.isFlag S.isBText (forall_mem_concat hflags hbText) hfuel₂
    : Run False _ _ _).of_some hat₇ hdoflags
  have hidle₈ : Idle t₈ := keeps_doflags fuel _ _ _ hidle₇ hdoflags
  obtain ⟨_, t₉, hpermitted, h₁₀⟩ := bind_some.mp h₉
  obtain ⟨-, rfl⟩ := fatalIf_some.mp hpermitted
  obtain ⟨_, t₁₀, hflushto, h₁₁⟩ := bind_some.mp h₁₀
  have hat₁₀ := (run_flushto S.isComment S.isEText (forall_mem_concat hcomments heText) true hfuel₃
    : Run False _ _ _).of_some hat₈ hflushto
  have hidle₁₀ : Idle t₁₀ := keeps_flushto _ _ _ _ _ _ hidle₈ hflushto
  obtain ⟨_, t₁₁, hchkeof, h₁₂⟩ := bind_some.mp h₁₁
  obtain ⟨_, t₁₂, hread, h₁₃⟩ := bind_some.mp h₁₂
  have hfield : ∀ {α : Type} (f : Packet → α), f (core t₁₀) =
      f { withIdel k S.idel with p_cutoff := c.cutoff, p_apply := ap } :=
    fun f => congrArg f hat₁₀.core
  have hscanning : Scanning S.lines ap S.idel (Corrupted (core t₁₁)) t₁₁ := by
    rw [modify_some.mp hchkeof]
    refine ⟨hidle₁₀.upd, hidle₁₀.create, ?_, rfl, ?_, ?_, hfield Packet.p_apply,
      hfield Packet.p_idel, rfl⟩
    · exact (hfield Packet.p_reopen).trans (congrArg Packet.p_reopen hk).symm
    · change t₁₀.p_iop ≠ none
      rw [hat₁₀.iop]
      exact Option.some_ne_none _
    · exact (hfield Packet.p_file).trans (congrArg Packet.p_file hk).symm
  obtain ⟨-, hrewound, hq⟩ := scanning_readRest fuel fuel _ _ _ hscanning hread
  -- the attempts
  obtain ⟨_, _, hget', h₁₄⟩ := bind_some.mp h₁₃
  rw [(get_some.mp hget').1, (get_some.mp hget').2] at h₁₄
  obtain ⟨counts, t, hattempts, hflushline⟩ := bind_some.mp h₁₄
  exact ⟨ap, t₁₂, counts, t, hS_ap, hrewound, hq, hattempts, hflushline⟩

/-- The digits of the statistics are put over the zeros. -/
theorem flushline_done {stats : Stats} {pkt' : Packet} {rest : Line} (hupd : pkt.p_upd = true)
    (hcreate : pkt.Xcreate = true) (hw : pkt.p_wrttn = true)
    (hX : pkt.Xiop = headZero ++ statsZero ++ rest)
    (hrun : flushline (some stats) pkt = some ((), pkt')) :
    ∃ hash ins del unc, hash < 65536 ∧ (∀ c ∈ ins ++ (del ++ unc), isDigit c = true) ∧
      pkt'.Xiop = headLine hash ++ statsLine ins del unc ++ rest := by
  obtain ⟨_, t₁, hget, h₁⟩ := bind_some.mp hrun
  rw [(get_some.mp hget).1, (get_some.mp hget).2, if_neg (by simp [hupd])] at h₁
  obtain ⟨_, t₂, hput, h₂⟩ := bind_some.mp h₁
  obtain ⟨ins, t₃, hins, h₃⟩ := bind_some.mp h₂
  obtain ⟨del, t₄, hdel, h₄⟩ := bind_some.mp h₃
  obtain ⟨unc, t₅, hunc, h₅⟩ := bind_some.mp h₄
  obtain ⟨rfl, hlen1, hdig1⟩ := statDigits_some hins
  obtain ⟨rfl, hlen2, hdig2⟩ := statDigits_some hdel
  obtain ⟨rfl, hlen3, hdig3⟩ := statDigits_some hunc
  have ht : t₅ = pkt := by
    unfold putline at hput
    rw [modify_some.mp hput]
    simp [hupd, hw, Pass.put_nil hcreate]
  rw [modify_some.mp h₅, ht]
  dsimp only
  generalize hn : addDigits (addDigits (addDigits pkt.p_nhash ins) del) unc = nhash
  have hlt : (nhash % 65536).toNat < 65536 := by omega
  have hlen : (headLine (nhash % 65536).toNat ++ statsLine ins del unc).length =
      (headZero ++ statsZero).length := by
    rw [List.length_append, List.length_append, length_headLine hlt,
      length_statsLine hlen1 hlen2 hlen3]
    rfl
  refine ⟨_, ins, del, unc, hlt, ?_, ?_⟩
  · exact List.forall_mem_append.mpr ⟨hdig1, List.forall_mem_append.mpr ⟨hdig2, hdig3⟩⟩
  · rw [overwrite, hX, hlen, List.drop_left]

theorem ended_statsLine {ins del unc : Line} (h : ∀ c ∈ ins ++ (del ++ unc), isDigit c = true) :
    Ended (statsLine ins del unc) := by
  refine ⟨[CTLCHAR, STATS, 32] ++ ins ++ [47] ++ del ++ [47] ++ unc, fun hmem => ?_, rfl⟩
  have hnot : 10 ∉ ins ++ (del ++ unc) := fun hmem => absurd (h 10 hmem) (by decide)
  simp only [List.mem_append, not_or] at hnot
  simp [hnot, CTLCHAR, STATS] at hmem

theorem Sfile.Next.count (h : S.Next e s) (ins del unc : Line) : S.Next (e.count ins del unc) s :=
  ⟨h.live, h.serial, h.pred, h.le, h.pos, h.rel_pos, h.sid_new, h.lists⟩

theorem isFile_of_ended {ls : List Line} (h : ∀ l ∈ ls, Ended l) : IsFile ls := by
  have happ := @IsFile.append [] trivial ls h
  rwa [List.append_nil] at happ

/-- No line of a delta ends the comments of the s-file. -/
theorem TableEntry.not_eusertxt (e : TableEntry zone) :
    ∀ l ∈ e.text, ¬ (chr l = CTLCHAR ∧ chr l.tail = EUSERTXT) := by
  have hne : ∀ {l : Line} {d : UInt8}, chr l.tail = d → d ≠ EUSERTXT →
      ¬ (chr l = CTLCHAR ∧ chr l.tail = EUSERTXT) :=
    fun h hd h' => hd (h.symm.trans h'.2)
  refine List.forall_mem_cons.mpr ⟨hne e.isStats.2 (by decide), List.forall_mem_cons.mpr ⟨?_,
    List.forall_mem_append.mpr ⟨fun l hl => ?_, List.forall_mem_singleton.mpr
      (hne e.isLast.2 (by decide))⟩⟩⟩
  · obtain ⟨rest, hrest⟩ := del_ab_mark (e.isFirst e.dt) rfl
    rw [hrest]
    exact hne (show chr (deltaMark ++ rest).tail = BDELTAB from rfl) (by decide)
  · obtain ⟨-, h | h | h | h | h⟩ := e.isLine l hl
    · exact hne h (by decide)
    · exact hne h (by decide)
    · exact hne h (by decide)
    · exact hne h (by decide)
    · exact hne h (by decide)

/-- The lines of an s-file between the first one and the one that ends the comments. -/
def Sfile.before (S : Sfile zone) : List Line :=
  S.deltas.flatMap TableEntry.text ++
    S.bUsers :: (S.users ++ S.eUsers :: (S.flags ++ S.bText :: S.comments))

theorem Sfile.tail_eq (S : Sfile zone) : S.tail = S.before ++ S.eText :: S.body := by
  simp [Sfile.tail, Sfile.rest, Sfile.before]

theorem Sfile.before_not_eusertxt
    (hbUsers : ¬ (chr S.bUsers = CTLCHAR ∧ chr S.bUsers.tail = EUSERTXT))
    (hbText : ¬ (chr S.bText = CTLCHAR ∧ chr S.bText.tail = EUSERTXT)) :
    ∀ l ∈ S.before, ¬ (chr l = CTLCHAR ∧ chr l.tail = EUSERTXT) := by
  refine List.forall_mem_append.mpr ⟨fun l hl => ?_, List.forall_mem_cons.mpr ⟨hbUsers,
    List.forall_mem_append.mpr ⟨fun l hl h => S.isUser l hl h.1, List.forall_mem_cons.mpr ⟨?_,
      List.forall_mem_append.mpr ⟨fun l hl h => ?_, List.forall_mem_cons.mpr ⟨hbText,
        S.isComment⟩⟩⟩⟩⟩⟩
  · obtain ⟨e, -, hl⟩ := List.mem_flatMap.mp hl
    exact e.not_eusertxt l hl
  · intro h
    exact absurd (S.isEUsers.2.symm.trans h.2) (by decide)
  · exact absurd ((S.isFlag l hl).2.symm.trans h.2) (by decide)

/-- An s-file with the right sum is read as it has been written. -/
theorem Sfile.read_sealed (S : Sfile zone) (hended : ∀ l ∈ S.tail, Ended l)
    (hnul : ∀ l ∈ S.tail, 0 ∉ l)
    (hsealed : Sealed (headLine S.hash ++ S.tail.flatten)) :
    readLines (headLine S.hash ++ S.tail.flatten) = S.lines ∧ S.corrupted = false := by
  have hnul' : 0 ∉ S.tail.flatten := fun hmem => by
    obtain ⟨l, hl, h0⟩ := List.mem_flatten.mp hmem
    exact hnul l hl h0
  constructor
  · rw [readLines_headLine _ hnul', fileLines_flatten _ (isFile_of_ended hended)]
    rfl
  · rw [sealed_headLine hnul'] at hsealed
    unfold Sfile.corrupted
    rw [decide_eq_false_iff_not]
    rintro ⟨hne, -⟩
    omega

/-- A check-in after the delta `s`, of which `bdiff` has found out how the text is made of that
version's lines. -/
structure Sound (S : Sfile zone) (s : ℕ) (e : TableEntry zone) (c : Checkin) (es : List Edit)
    (last : List Line) (fuel : ℕ) (file : Line) : Prop where
  lines : readLines file = S.lines
  ended : ∀ l ∈ S.tail, Ended l
  bUsers : ¬ (chr S.bUsers = CTLCHAR ∧ chr S.bUsers.tail = EUSERTXT)
  bText : ¬ (chr S.bText = CTLCHAR ∧ chr S.bText.tail = EUSERTXT)
  has : S.Has c.gsid s
  next : S.Next e s
  entry : c.entry = e.first :: (e.lines ++ [e.last])
  entryLines : ∀ l ∈ c.entry, Ended l ∧ 0 ∉ l
  ser_inc : c.ser_inc = 1
  doie : c.doie noApply = noApply
  attempts : c.attempts = [(diffText 0 es, false)]
  edits : ∀ e ∈ es, e.Ok
  get : getFile zone c.cutoff s file = some (oldLines es ++ last)
  int : (oldLines es).length < 2 ^ 31
  fileFuel : file.length < fuel
  diffFuel : (diffText 0 es).length < fuel

variable {es : List Edit} {last : List Line} {file x : Line}

/-- The version that is changed. -/
theorem Sound.shown (h : Sound S s e c es last fuel file) : S.corrupted = false ∧
    ∃ ap, S.apply c.cutoff s = some ap ∧
      shownFrom (applied ap) S.maxser [] S.body = some (oldLines es ++ last) := by
  have hget := h.get
  rw [getFile_eq S h.lines] at hget
  by_cases hbad : S.corrupted = true
  · rw [if_pos hbad] at hget
    cases hget
  · rw [if_neg hbad, S.get_eq, if_neg (Nat.not_lt.mpr h.next.le)] at hget
    exact ⟨Bool.eq_false_iff.mpr hbad, Option.bind_eq_some_iff.mp hget⟩

/-- `delta` writes an s-file with a new delta, of which the body has been woven. -/
theorem Sound.checkedIn (h : Sound S s e c es last fuel file) (hap : S.apply c.cutoff s = some ap)
    (hshown : shownFrom (applied ap) S.maxser [] S.body = some (oldLines es ++ last))
    (hx : deltaFile zone c fuel file = some x) :
    ∃ out hash ins del unc, ∃ hhash : hash < 65536,
      (bodyPass ap S.maxser c S.before S.eText S.body).Wove false out [] [] (oldLines es ++ last)
        (newLines es ++ last) ∧
      readLines x = (S.checkedIn (h.next.count ins del unc) out hash hhash).lines ∧
      (S.checkedIn (h.next.count ins del unc) out hash hhash).corrupted = false := by
  obtain ⟨hfile, hended, hbUsers, hbText, hS, hnext, hentry, hlines, hinc, hdoie, hattempts, hes,
    -, hint, hfuel, hdiff⟩ := h
  have hnul : ∀ l ∈ S.tail, 0 ∉ l := fun l hl =>
    not_mem_readLines (show l ∈ readLines file from hfile ▸ List.mem_cons_of_mem _ hl)
  have hsealed := deltaFile_sealed hx
  obtain ⟨⟨⟨⟩, pkt'⟩, hrun, rfl⟩ := Option.map_eq_some_iff.mp hx
  obtain ⟨ap', pkt, counts, t, hap', hpkt, hq, hrun₁, hflushline⟩ :=
    delta_scan hfile hS hdoie hfuel hrun
  obtain rfl := Option.some.inj (hap.symm.trans hap')
  have hlen := length_readLines_le file
  have hmaxser : pkt.maxser = S.maxser := by
    rw [Packet.maxser, hpkt.idel, Sfile.maxser]
  rw [S.tail_eq] at hended hnul
  obtain ⟨hended₁, hended₂⟩ := List.forall_mem_append.mp hended
  obtain ⟨hended₃, hended₄⟩ := List.forall_mem_cons.mp hended₂
  obtain ⟨hnul₁, hnul₂⟩ := List.forall_mem_append.mp hnul
  obtain ⟨hnul₃, hnul₄⟩ := List.forall_mem_cons.mp hnul₂
  rw [Sfile.lines, S.tail_eq] at hpkt hfile
  rw [hfile, List.length_cons, List.length_append, List.length_cons] at hlen
  rw [← hmaxser] at hshown
  obtain ⟨t', hattempt, hdone⟩ := attempt_done hpkt hq (by rw [hinc]; decide)
    (fun l hl => (hlines l hl).2)
    (S.before_not_eusertxt hbUsers hbText) S.isEText hended₃ (forall_mem_concat hnul₁ hnul₃)
    (fun l hl => ⟨hended₄ l hl, hnul₄ l hl⟩) hshown hes hint (by omega) hdiff
  have htry : Sccs.attempts c fuel 8 c.attempts pkt = some ((newCount es, oldCount es), t') := by
    rw [hattempts, Sccs.attempts, bind_of_some hattempt]
    rfl
  obtain ⟨rfl, rfl⟩ := Prod.mk.inj (Option.some.inj (htry.symm.trans hrun₁))
  obtain ⟨-, hupd, hcreate, hw, out, hwove, hX⟩ := hdone
  rw [hmaxser] at hwove hX
  have hX' : t'.Xiop = headZero ++ statsZero ++ (c.entry.flatten ++
      ((S.before ++ [S.eText]).flatten ++ out.flatten)) := by
    rw [hX, bodyPass]
    simp only [List.append_assoc]
  obtain ⟨hash, ins, del, unc, hhash, hdigits, hx'⟩ := flushline_done hupd hcreate hw hX' hflushline
  refine ⟨out, hash, ins, del, unc, hhash, hwove, ?_⟩
  generalize hS' : S.checkedIn (hnext.count ins del unc) out hash hhash = S'
  have htail : S'.tail = statsLine ins del unc :: (c.entry ++ (S.before ++ S.eText :: out)) := by
    rw [hentry, ← hS']
    simp [Sfile.tail, Sfile.rest, Sfile.checkedIn, Sfile.before, TableEntry.text, TableEntry.count]
  have hhash' : S'.hash = hash := by rw [← hS']; rfl
  have htext : pkt'.Xiop = headLine S'.hash ++ S'.tail.flatten := by
    rw [hx', hhash', htail]
    simp
  have hended' : ∀ l ∈ S'.tail, Ended l := by
    rw [htail]
    exact List.forall_mem_cons.mpr ⟨ended_statsLine hdigits, List.forall_mem_append.mpr
      ⟨fun l hl => (hlines l hl).1, List.forall_mem_append.mpr ⟨hended₁, List.forall_mem_cons.mpr
        ⟨hended₃, fun l hl => (hwove.1 l hl).1⟩⟩⟩⟩
  have hnul' : ∀ l ∈ S'.tail, 0 ∉ l := by
    obtain ⟨hd1, hd2⟩ := List.forall_mem_append.mp hdigits
    obtain ⟨hd3, hd4⟩ := List.forall_mem_append.mp hd2
    rw [htail]
    exact List.forall_mem_cons.mpr ⟨not_mem_statsLine hd1 hd3 hd4, List.forall_mem_append.mpr
      ⟨fun l hl => (hlines l hl).2, List.forall_mem_append.mpr ⟨hnul₁, List.forall_mem_cons.mpr
        ⟨hnul₃, fun l hl => (hwove.1 l hl).2⟩⟩⟩⟩
  change Sealed pkt'.Xiop at hsealed
  change readLines pkt'.Xiop = _ ∧ _
  rw [htext] at hsealed ⊢
  exact S'.read_sealed hended' hnul' hsealed

/-- After `delta`, `get` gives the lines that were checked in for the new delta, and for every delta
that there was what it gave before. -/
theorem Sound.get_delta (h : Sound S s e c es last fuel file)
    (hcutoff : e.dt.d_datetime ≤ c.cutoff) (hx : deltaFile zone c fuel file = some x) :
    (∃ S' : Sfile zone, readLines x = S'.lines ∧ S'.maxser = S.maxser + 1) ∧
      getFile zone c.cutoff (S.maxser + 1) x = some (newLines es ++ last) ∧
      ∀ cutoff ser, ser ≤ S.maxser → getFile zone cutoff ser x = getFile zone cutoff ser file := by
  obtain ⟨hgood, ap, hap, hshown⟩ := h.shown
  obtain ⟨out, hash, ins, del, unc, hhash, hwove, hlines, hgood'⟩ := h.checkedIn hap hshown hx
  have hnewser : (bodyPass ap S.maxser c S.before S.eText S.body).newser = S.maxser + 1 := by
    rw [bodyPass, h.ser_inc]
  obtain ⟨hnew, hold⟩ := @get_checkedIn s ap zone S _ (h.next.count ins del unc) out hash hhash _ _
    hcutoff hap rfl rfl hnewser rfl _ _ hwove
  refine ⟨⟨_, hlines, maxser_checkedIn⟩, ?_, fun cutoff ser hser => ?_⟩
  · rw [getFile_eq _ hlines, if_neg (by rw [hgood']; decide)]
    exact hnew
  · rw [getFile_eq _ hlines, if_neg (by rw [hgood']; decide), getFile_eq S h.lines,
      if_neg (by rw [hgood]; decide)]
    exact hold cutoff ser hser

/-! ### A history -/

/-- The highest serial is in the lines of the table. -/
theorem maxser_of_lines {S S' : Sfile zone} (h : S.lines = S'.lines) : S.maxser = S'.maxser := by
  obtain ⟨e, es, hdeltas⟩ := List.exists_cons_of_ne_nil S.deltas_ne_nil
  obtain ⟨e', es', hdeltas'⟩ := List.exists_cons_of_ne_nil S'.deltas_ne_nil
  have hlast : S.last = e.dt.d_serial := by
    unfold Sfile.last
    simp [hdeltas]
  have hlast' : S'.last = e'.dt.d_serial := by
    unfold Sfile.last
    simp [hdeltas']
  have hfirst : e.first = e'.first := by
    have htail := (List.cons.inj h).2
    rw [Sfile.tail, Sfile.tail, hdeltas, hdeltas', List.flatMap_cons, List.flatMap_cons] at htail
    exact (List.cons.inj (List.cons.inj htail).2).1
  have hdt := (e.isFirst e.dt).symm.trans (hfirst ▸ e'.isFirst e.dt)
  rw [S.maxser_eq, S'.maxser_eq, hlast, hlast', (Prod.mk.inj (Option.some.inj hdt)).2]

/-- Deltas that are made one after another, each with its cutoff and its text. -/
inductive History (zone : Zone) : Line → List (ℤ × List Line) → Line → Prop
  | nil (file : Line) : History zone file [] file
  | cons {S : Sfile zone} {s : ℕ} {e : TableEntry zone} {c : Checkin} {es : List Edit}
      {last : List Line} {fuel : ℕ} {file mid x : Line} {texts : List (ℤ × List Line)} :
      Sound S s e c es last fuel file → e.dt.d_datetime ≤ c.cutoff →
        deltaFile zone c fuel file = some mid →
        History zone mid texts x → History zone file ((c.cutoff, newLines es ++ last) :: texts) x

/-- Whatever has been checked in since, `get` gives each text for its delta, and what it gave for
the deltas that were there before. -/
theorem get_history {texts : List (ℤ × List Line)} (h : History zone file texts x)
    (hfile : readLines file = S.lines) :
    (∀ k (hk : k < texts.length),
      getFile zone texts[k].1 (S.maxser + 1 + k) x = some texts[k].2) ∧
      ∀ cutoff ser, ser ≤ S.maxser → getFile zone cutoff ser x = getFile zone cutoff ser file := by
  induction h generalizing S with
  | nil file => exact ⟨fun k hk => absurd hk (Nat.not_lt_zero k), fun _ _ _ => rfl⟩
  | cons hsound hcutoff hmid _ ih =>
    obtain ⟨⟨S', hlines', hmaxser'⟩, hnew, hold⟩ := hsound.get_delta hcutoff hmid
    have hmaxser := maxser_of_lines (hsound.lines.symm.trans hfile)
    rw [hmaxser] at hmaxser' hnew hold
    obtain ⟨hlater, hkept⟩ := ih hlines'
    rw [hmaxser'] at hlater hkept
    constructor
    · intro k hk
      cases k with
      | zero => exact (hkept _ _ le_rfl).trans hnew
      | succ k =>
        have hlater := hlater k (Nat.lt_of_succ_lt_succ hk)
        rwa [Nat.add_right_comm, Nat.add_assoc] at hlater
    · intro cutoff ser hser
      exact (hkept cutoff ser (Nat.le_succ_of_le hser)).trans (hold cutoff ser hser)

theorem fifth_first (dt : Deltab) : del_ab utc (deltaText [49, 46, 51] 53 50) dt =
    some (BDELTAB, ⟨⟨1, 3, 0, 0⟩, 5, 2, 0, [109, 101], 68⟩) := rfl

theorem fifth_lines : ∀ l ∈ ([] : List Line), IsDeltaLine l := fun _ h => absurd h List.not_mem_nil

/-- The fifth delta comes after the second. -/
def fifthEntry : TableEntry utc :=
  zeroEntry (deltaText [49, 46, 51] 53 50) ⟨⟨1, 3, 0, 0⟩, 5, 2, 0, [109, 101], 68⟩ []
    fifth_first fifth_lines

/-- The second line gives way to two others. -/
def fifthEdit : Edit := ⟨[[97, 10]], [[98, 10]], [[120, 10], [121, 10]], 1⟩

def fifthCheckin : Checkin :=
  ⟨true, ⟨1, 2, 0, 0⟩, ⟨1, 3, 0, 0⟩, 0, id,
    fifthEntry.first :: (fifthEntry.lines ++ [fifthEntry.last]), 1,
    [(diffText 0 [fifthEdit], false)]⟩

theorem fifth_next : fourDeltas.Next fifthEntry 2 where
  live := rfl
  serial := by decide +kernel
  pred := rfl
  le := by decide +kernel
  pos := by decide
  rel_pos := by decide
  sid_new := by decide
  lists := by simp [fifthEntry, zeroEntry]

/-- Every line has its newline, and none before it. -/
def Plain (ls : List Line) : Prop :=
  ∀ l ∈ ls, (l.getLast? = some 10 ∧ 10 ∉ l.dropLast) ∧ 0 ∉ l

instance (ls : List Line) : Decidable (Plain ls) := inferInstanceAs (Decidable (∀ _ ∈ _, _))

theorem Plain.ended {ls : List Line} (h : Plain ls) : ∀ l ∈ ls, Ended l ∧ 0 ∉ l := by
  intro l hl
  obtain ⟨⟨hlast, hnot⟩, h0⟩ := h l hl
  exact ⟨⟨l.dropLast, hnot, (List.dropLast_append_getLast? 10 hlast).symm⟩, h0⟩

theorem fifthEdit_ok : fifthEdit.Ok where
  change := Or.inl (List.cons_ne_nil _ _)
  place := by decide
  old := Plain.ended (by decide)
  new := Plain.ended (by decide)
  ctl := by decide

theorem fifth_sound : Sound fourDeltas 2 fifthEntry fifthCheckin [fifthEdit] [[100, 10]] 1000
    fourDeltas.lines.flatten where
  lines := readLines_fourDeltas
  ended := by
    have hplain : Plain fourDeltas.tail := by decide +kernel
    exact fun l hl => (hplain.ended l hl).1
  bUsers := by decide
  bText := by decide
  has := ⟨_, rfl, rfl⟩
  next := fifth_next
  entry := rfl
  entryLines := by
    have hplain : Plain fifthCheckin.entry := by decide +kernel
    exact hplain.ended
  ser_inc := rfl
  doie := rfl
  attempts := rfl
  edits := List.forall_mem_singleton.mpr fifthEdit_ok
  get := by decide +kernel
  int := by decide
  fileFuel := by decide +kernel
  diffFuel := by decide +kernel

theorem get_history_four : ∃ x,
    History utc fourDeltas.lines.flatten [(0, [[97, 10], [120, 10], [121, 10], [100, 10]])] x ∧
      getFile utc 0 5 x = some [[97, 10], [120, 10], [121, 10], [100, 10]] ∧
      ∀ cutoff ser, ser ≤ fourDeltas.maxser →
        getFile utc cutoff ser x = getFile utc cutoff ser fourDeltas.lines.flatten := by
  have hrun : (deltaFile utc fifthCheckin 1000 fourDeltas.lines.flatten).isSome = true := by
    decide +kernel
  obtain ⟨x, hx⟩ := Option.isSome_iff_exists.mp hrun
  have hmaxser : fourDeltas.maxser = 4 := by decide +kernel
  have hhistory := History.cons fifth_sound (by decide) hx (History.nil x)
  obtain ⟨hnew, hold⟩ := get_history hhistory readLines_fourDeltas
  have hnew := hnew 0 (Nat.zero_lt_one)
  rw [hmaxser] at hnew
  exact ⟨x, hhistory, hnew, hold⟩

/-! ### Back again -/

/-- Nothing is marked where the SID is not found. -/
theorem removeFrom_of_not {sid : Option Sid} {ds : List (TableEntry zone)}
    (h : ∀ d ∈ ds, ¬ d.IsSought sid) : removeFrom sid ds = ds := by
  induction ds generalizing sid with
  | nil => rfl
  | cons d ds ih =>
    obtain ⟨hd, hds⟩ := List.forall_mem_cons.mp h
    have hafter : d.sidAfter sid = sid := if_neg hd
    rw [removeFrom, dif_neg hd, hafter, ih hds]

theorem removeFrom_checkedIn (hnext : S.Next e s) : removeFrom (some e.dt.d_sid) (e :: S.deltas) =
    e.removed hnext.live :: S.deltas := by
  have hsought : e.IsSought (some e.dt.d_sid) := ⟨hnext.live, rfl⟩
  have hafter : e.sidAfter (some e.dt.d_sid) = some ⟨0, 0, 0, 0⟩ := if_pos hsought
  rw [removeFrom, dif_pos hsought, hafter, removeFrom_of_not fun d hd h => ?_]
  have hpos := S.rel_pos d hd h.1
  rw [← Option.some.inj h.2] at hpos
  exact absurd hpos (by decide)

theorem mapM_item_mono {m m' : ℕ} (hm : m ≤ m') {ls : List Line} {is : List (Item Line)}
    (h : ls.mapM (item m) = some is) : ls.mapM (item m') = some is := by
  induction ls generalizing is with
  | nil => exact h
  | cons l ls ih =>
    rw [List.mapM_cons] at h ⊢
    obtain ⟨i, hi, h⟩ := Option.bind_eq_some_iff.mp h
    obtain ⟨is, his, h⟩ := Option.bind_eq_some_iff.mp h
    rw [Pass.item_mono hm hi, ih his]
    exact h

/-- A delta that was checked in can be found. -/
theorem has_checkedIn {hnext : S.Next e s} {body : List Line} {hhash : hash < 65536} :
    (S.checkedIn hnext body hash hhash).Has e.dt.d_sid (S.maxser + 1) :=
  ⟨e, List.find?_cons_of_pos (by simp [hnext.live, hnext.serial]), rfl⟩

/-- The new delta is removed again. -/
def removeFifth : Change := ⟨REMOVED, ⟨1, 3, 0, 0⟩, true, false, [], [], [], [], []⟩

end Unitas.Sccs
